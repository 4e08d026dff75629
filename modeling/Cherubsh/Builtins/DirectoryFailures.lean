import Cherubsh.Builtins.OneDirectory

/-! # Failed calls of pushd and popd

A call that fails should leave the directories as they were. The new stack is stored
before the directory is entered, and it is not taken back when that fails.
-/
namespace Cherubsh.Builtins.Directories
open List
open Expander.Arith (Text)

/-- The directory stack, PWD, OLDPWD and the directory of the process are the same. -/
structure SameDirectories (s s' : Shell) : Prop where
  stack : s'.dirsStack = s.dirsStack
  pwd : s'.vars "PWD" = s.vars "PWD"
  oldpwd : s'.vars "OLDPWD" = s.vars "OLDPWD"
  process : s'.process = s.process

theorem SameDirectories.refl (s : Shell) : SameDirectories s s := ⟨rfl,rfl,rfl,rfl⟩

def Atomic (s : Shell) (o : Outcome) : Prop := o.status ≠ 0 → SameDirectories s o.shell

def CannotEnter (fs : FileSystem) (dir : Text) : Prop := ∃ e, fs.enter dir = .error e

section
variable (fs : FileSystem) (s : Shell) (args : List Text)

def reordered : Option (List Text) :=
  match parsePushd { } args with
  | .error _ => none
  | .ok parsed =>
    if parsed.skipCd then none
    else match parsed.rotate, parsed.target with
    | some (_,index), _ => (resolveIndex (dirsIter fs s).length index).map fun i => (dirsIter fs s).rotate i
    | none, some _ => none
    | none, none =>
      match dirsIter fs s with
      | a :: b :: rest => some (b :: a :: rest)
      | _ => none

/-- The call brings a directory to the top that cannot be entered, and another order with it. -/
def PushdStrands : Prop :=
  ∃ dir saved, reordered fs s args = some (dir :: saved) ∧ CannotEnter fs dir ∧
    (dir :: saved = dirsIter fs s → dirsIter fs s = s.dirsStack)

/-- The call removes the top, and the directory below cannot be entered. -/
def PopdStrands : Prop := ∃ dir, popdDestination fs s args = some dir ∧ CannotEnter fs dir
end

section
variable {fs : FileSystem} {s : Shell}

theorem dirsIter_eq (fs : FileSystem) (s : Shell) : dirsIter fs s = s.dirsStack ∨ ∃ top, dirsIter fs s = top :: s.dirsStack := by
  unfold dirsIter
  split
  · next pwd _ => exact .inr ⟨pwd,rfl⟩
  · cases fs.currentDir s.process with
    | none => exact .inl rfl
    | some dir => exact .inr ⟨dir,rfl⟩

theorem saved_eq_iff {dir : Text} {saved : List Text} (hp : (dir :: saved).Perm (dirsIter fs s)) :
    saved = s.dirsStack ↔ ¬(dir :: saved = dirsIter fs s → dirsIter fs s = s.dirsStack) := by
  rcases dirsIter_eq fs s with hst | ⟨top,hst⟩
  · rw [hst] at hp
    have hl := hp.length_eq
    refine iff_of_false (fun hs => ?_) fun hn => hn fun _ => hst
    rw [hs,length_cons] at hl
    omega
  · rw [hst] at hp ⊢
    have hne := cons_ne_self top s.dirsStack
    constructor
    · intro hs hsa
      rw [hs] at hp hsa
      have hh : [dir].Perm [top] := (perm_append_right_iff s.dirsStack).mp hp
      have heq : [dir] = [top] := perm_singleton.mp hh
      rw [singleton_inj] at heq
      rw [heq] at hsa
      exact hne (hsa rfl)
    · intro hn
      by_contra hs
      exact hn fun hsa => absurd (List.cons.inj hsa).2 hs

theorem atomic_of_zero {o : Outcome} (h : o.status = 0) : Atomic s o := fun hf => absurd h hf

theorem atomic_of_same {o : Outcome} (h : o.shell = s) : Atomic s o := fun _ => h ▸ .refl _

theorem atomic_installStack_iff {stack : List Text} (hp : stack.Perm (dirsIter fs s)) :
    Atomic s (installStack fs s stack false) ↔
      ¬∃ dir saved, stack = dir :: saved ∧ CannotEnter fs dir ∧ (dir :: saved = dirsIter fs s → dirsIter fs s = s.dirsStack) := by
  cases stack with
  | nil =>
    refine iff_of_true (atomic_of_same rfl) ?_
    rintro ⟨dir,saved,hc,-⟩
    cases hc
  | cons dir saved =>
    unfold installStack
    cases he : fs.enter dir with
    | ok _ =>
      simp only [he]
      refine iff_of_true (atomic_of_zero rfl) ?_
      rintro ⟨_,_,hc,⟨e,her⟩,-⟩
      cases hc
      rw [he] at her
      cases her
    | error e =>
      have hs : Atomic s { shell := { s with dirsStack := saved }, status := 1, message := dir ++ ": " ++ e } ↔
          saved = s.dirsStack :=
        ⟨fun h => (h Nat.one_ne_zero).stack,fun h _ => ⟨h,rfl,rfl,rfl⟩⟩
      simp only [he]
      refine hs.trans ((saved_eq_iff hp).trans (not_congr ⟨fun h => ⟨dir,saved,rfl,⟨e,he⟩,h⟩,?_⟩))
      rintro ⟨_,_,hc,-,h⟩
      cases hc
      exact h

theorem atomic_installStack_skip (stack : List Text) : Atomic s (installStack fs s stack true) := by
  cases stack with
  | nil => exact atomic_of_same rfl
  | cons dir saved => exact atomic_of_zero rfl

theorem atomic_pushDir (dir : Text) (skipCd : Bool) : Atomic s (pushDir fs s dir skipCd) := by
  unfold pushDir
  cases skipCd with
  | true => exact atomic_of_zero rfl
  | false =>
    cases he : fs.enter (absolutize fs s dir) with
    | error e =>
      simp only [he]
      exact atomic_of_same rfl
    | ok _ =>
      simp only [he]
      exact atomic_of_zero rfl

theorem atomic_pushd_iff (fs : FileSystem) (s : Shell) (args : List Text) :
    Atomic s (pushd fs s args) ↔ ¬PushdStrands fs s args := by
  unfold pushd PushdStrands reordered
  cases hpa : parsePushd { } args with
  | error message => exact iff_of_true (atomic_of_same rfl) (by simp)
  | ok parsed =>
    obtain ⟨skipCd,target,rotate⟩ := parsed
    cases skipCd with
    | true =>
      refine iff_of_true ?_ (by simp)
      cases rotate with
      | some selected =>
        dsimp only
        unfold rotateStack
        split
        · exact atomic_of_same rfl
        · exact atomic_installStack_skip _
      | none =>
        cases target with
        | some dir => exact atomic_pushDir dir true
        | none =>
          dsimp only
          unfold swapTop
          split
          · exact atomic_installStack_skip _
          · exact atomic_of_same rfl
    | false =>
      cases rotate with
      | some selected =>
        dsimp only
        unfold rotateStack
        cases hi : resolveIndex (dirsIter fs s).length selected.2 with
        | none => exact iff_of_true (atomic_of_same rfl) (by simp)
        | some i =>
          simp only [Option.map_some,Option.some.injEq,Bool.false_eq_true,if_false]
          exact atomic_installStack_iff (rotate_perm _ i)
      | none =>
        cases target with
        | some dir => exact iff_of_true (atomic_pushDir dir false) (by simp)
        | none =>
          unfold swapTop
          rcases hs : dirsIter fs s with _ | ⟨a,_ | ⟨b,rest⟩⟩
          · exact iff_of_true (atomic_of_same rfl) (by simp)
          · exact iff_of_true (atomic_of_same rfl) (by simp)
          · simp only [Option.some.injEq,Bool.false_eq_true,if_false]
            have hp : (b :: a :: rest).Perm (dirsIter fs s) := by
              rw [hs]
              exact List.Perm.swap a b rest
            rw [← hs]
            exact atomic_installStack_iff hp
end

section
variable {fs : FileSystem} {s : Shell}

theorem tail_ne_of_erase {top dir : Text} {saved : List Text} (h : dirsIter fs s = top :: dir :: saved) : saved ≠ s.dirsStack := by
  intro hsa
  rcases dirsIter_eq fs s with hs | ⟨first,hs⟩
  · rw [hs,hsa] at h
    have hl := congrArg List.length h
    simp only [length_cons] at hl
    omega
  · rw [hs,hsa] at h
    exact cons_ne_self _ _ (List.cons.inj h).2.symm

theorem atomic_removeIndex_iff {remove : ℕ} {skipCd : Bool} (hl : 2 ≤ (dirsIter fs s).length) :
    Atomic s (removeIndex fs s (dirsIter fs s) remove skipCd) ↔
      ¬(remove = 0 ∧ skipCd = false ∧ ∃ dir, (dirsIter fs s)[1]? = some dir ∧ CannotEnter fs dir) := by
  unfold removeIndex
  by_cases hgo : remove = 0 ∧ skipCd = false
  · obtain ⟨rfl,rfl⟩ := hgo
    rcases hs : dirsIter fs s with _ | ⟨top,_ | ⟨dir,saved⟩⟩
    · rw [hs] at hl
      simp at hl
    · rw [hs] at hl
      simp at hl
    · cases he : fs.enter dir with
      | ok _ =>
        simp [he,CannotEnter]
        exact atomic_of_zero rfl
      | error e =>
        simp [he,CannotEnter]
        exact fun h => tail_ne_of_erase hs (h Nat.one_ne_zero).stack
  · refine iff_of_true ?_ fun h => hgo ⟨h.1,h.2.1⟩
    have hgo' : ¬(remove = 0 ∧ (!skipCd) = true) := by simpa using hgo
    split
    · exact atomic_of_zero rfl
    · dsimp only
      rw [if_neg hgo']
      exact atomic_of_zero rfl

theorem atomic_popd_iff (fs : FileSystem) (s : Shell) (args : List Text) : Atomic s (popd fs s args) ↔ ¬PopdStrands fs s args := by
  unfold popd PopdStrands popdDestination
  cases hp : parsePopd { } args with
  | error message => exact iff_of_true (atomic_of_same rfl) (by simp)
  | ok parsed =>
    obtain ⟨skipCd,selected⟩ := parsed
    dsimp only
    by_cases hl : (dirsIter fs s).length < 2
    · have hn : (dirsIter fs s)[1]? = none := List.getElem?_eq_none (by omega)
      rw [if_pos hl]
      exact iff_of_true (atomic_of_same rfl) (by simp [hn])
    · rw [if_neg hl]
      cases hi : popdIndex (dirsIter fs s).length skipCd (selected.getD ("+0",.left 0)).2 with
      | none =>
        refine iff_of_true (atomic_of_same rfl) ?_
        cases skipCd with
        | true => simp
        | false =>
          rw [popdIndex_false] at hi
          rw [hi]
          simp
      | some remove =>
        refine (atomic_removeIndex_iff (by omega)).trans (not_congr ?_)
        cases skipCd with
        | true => simp
        | false =>
          rw [popdIndex_false] at hi
          rw [hi]
          simp [and_assoc]
end

/-- A call of pushd or popd, and when it strands the shell between two stacks. -/
inductive StackCall where
  | pushd (args : List Text)
  | popd (args : List Text)

def StackCall.perform (fs : FileSystem) (s : Shell) : StackCall → Outcome
  | .pushd args => Directories.pushd fs s args
  | .popd args => Directories.popd fs s args

def StackCall.Strands (fs : FileSystem) (s : Shell) : StackCall → Prop
  | .pushd args => PushdStrands fs s args
  | .popd args => PopdStrands fs s args

/-- A failed call leaves everything exactly when it entered no directory of a reordered stack. -/
theorem failed_call_keeps_directories_iff (fs : FileSystem) (s : Shell) (call : StackCall) :
    ((call.perform fs s).status ≠ 0 → SameDirectories s (call.perform fs s).shell) ↔ ¬call.Strands fs s := by
  cases call with
  | pushd args => exact atomic_pushd_iff fs s args
  | popd args => exact atomic_popd_iff fs s args

def withoutGone : FileSystem :=
  { allDirectories with enter := fun path => if path = "/gone" then .error "No such file or directory" else .ok () }

def savedGone : Shell := { rootStart.shell with dirsStack := ["/gone".toList] }

/-- popd to a directory that was removed fails, and the directory is off the stack. -/
theorem popd_loses_entry : ((StackCall.popd []).perform withoutGone savedGone).status ≠ 0 ∧
      ¬SameDirectories savedGone ((StackCall.popd []).perform withoutGone savedGone).shell :=
  ⟨by decide,fun h => absurd h.stack (by decide)⟩
end Cherubsh.Builtins.Directories
