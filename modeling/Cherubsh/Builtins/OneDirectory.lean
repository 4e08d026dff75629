import Cherubsh.Builtins.Directories
import Cherubsh.Library.GuardedRun

/-! # One current directory

`cd` sets the directory of the process, PWD and the logical path to one clean path.
`pushd` and `popd` set the first two only, and to the path as it is given, so the three
stay together exactly as long as they do not leave the directory.
-/
namespace Cherubsh.Builtins.Directories
open Shell List
open Expander.Arith (Text)
open GuardedRun
variable {path part dir : Text} {parts args : List Text} {s s' : Shell}

theorem pieces_ne_nil (path : Text) : pieces path ≠ [] := by
  fun_cases pieces path <;> simp_all

theorem pieces_append_slash (a b : Text) : pieces (a ++ '/' :: b) = pieces a ++ pieces b := by
  induction a with
  | nil => rfl
  | cons c a ih =>
    obtain ⟨piece,more,hp⟩ := exists_cons_of_ne_nil (pieces_ne_nil a)
    rw [cons_append,pieces,pieces,ih,hp]
    split <;> rfl

theorem not_mem_of_mem_pieces (path : Text) : ∀ piece ∈ pieces path, '/' ∉ piece := by
  fun_induction pieces path with
  | case1 => simp
  | case2 rest ih => simpa using ih
  | case3 c rest hc first more hr ih =>
    rw [hr] at ih
    intro piece hp
    rcases mem_cons.mp hp with rfl | hp
    · intro hs
      rcases mem_cons.mp hs with heq | hs
      · exact hc heq.symm
      · exact ih first mem_cons_self hs
    · exact ih piece (mem_cons_of_mem first hp)
  | case4 c rest hc hr ih => exact absurd hr (pieces_ne_nil rest)

theorem pieces_of_not_mem (h : '/' ∉ path) : pieces path = [path] := by
  induction path with
  | nil => rfl
  | cons c path ih =>
    rw [pieces,if_neg (show ¬c = '/' from fun hc => h (hc ▸ mem_cons_self)),ih fun hm => h (mem_cons_of_mem c hm)]

theorem clean_append_slash {a b : Text} (ha : Clean a) (hb : Clean b) : Clean (a ++ '/' :: b) := by
  intro piece hp
  rw [pieces_append_slash,mem_append] at hp
  exact hp.elim (ha piece) (hb piece)

theorem clean_push (hpa : Clean path) (hp : Clean part) (hne : path ≠ []) : Clean (push path part) := by
  unfold push
  split
  · exact hp
  split
  · rename_i hl
    obtain ⟨a,rfl⟩ : ∃ a, path = a ++ ['/'] := by
      have hl' := hl.resolve_left hne
      rw [List.getLast?_eq_some_iff] at hl'
      exact hl'
    rw [append_assoc]
    have ha : Clean a := fun piece hpi =>
      hpa piece (by rw [pieces_append_slash]; exact mem_append_left _ hpi)
    exact clean_append_slash ha hp
  · exact clean_append_slash hpa hp

theorem push_ne_nil (hne : path ≠ []) : push path part ≠ [] := by
  unfold push
  split
  · rename_i ha
    exact fun h => by simp [h,isAbsolute] at ha
  split <;> simp [hne]

theorem clean_foldl_push (hpa : Clean path) (hne : path ≠ [])
    (hp : ∀ part ∈ parts, Clean part) : Clean (parts.foldl push path) := by
  induction parts generalizing path with
  | nil => exact hpa
  | cons part parts ih =>
    exact ih (clean_push hpa (hp part mem_cons_self) hne) (push_ne_nil hne)
      fun part' hp' => hp part' (mem_cons_of_mem part hp')

theorem clean_of_mem_normalized {rest : List Text} (hp : ∀ part ∈ parts, Clean part)
    (hr : ∀ part ∈ rest, part = ['/'] ∨ '/' ∉ part) : ∀ part ∈ rest.foldl normalizeStep parts, Clean part := by
  induction rest generalizing parts with
  | nil => exact hp
  | cons part rest ih =>
    apply ih _ fun part' hp' => hr part' (mem_cons_of_mem part hp')
    unfold normalizeStep
    split
    · exact hp
    split
    · exact fun part' hp' => hp part' (mem_of_mem_dropLast hp')
    · rename_i hdo hd
      intro part' hp'
      rcases mem_append.mp hp' with hp' | hp'
      · exact hp part' hp'
      · obtain rfl := mem_singleton.mp hp'
        rcases hr part' mem_cons_self with rfl | hs
        · decide
        · intro piece hpi
          rw [pieces_of_not_mem hs,mem_singleton] at hpi
          subst hpi
          exact ⟨fun h => hdo (.inr h),hd⟩

theorem clean_normalizeLogicalPath (path : Text) : Clean (normalizeLogicalPath path) := by
  apply clean_foldl_push (by decide) (cons_ne_nil _ _)
  apply clean_of_mem_normalized fun part hp => absurd hp not_mem_nil
  intro part hp
  rcases mem_append.mp hp with hr | hpi
  · split at hr
    · exact .inl (mem_singleton.mp hr)
    · exact absurd hr not_mem_nil
  · exact .inr (not_mem_of_mem_pieces path part (mem_of_mem_filter hpi))

/-! ### Runs -/

inductive Builtin where
  | cd (physical checkAfter : Bool) (args : List Text)
  | pushd (args : List Text)
  | popd (args : List Text)

structure Call where
  fs : FileSystem
  builtin : Builtin

def perform (s : Shell) (c : Call) : Outcome :=
  match c.builtin with
  | .cd physical checkAfter args => cd c.fs s physical checkAfter args
  | .pushd args => pushd c.fs s args
  | .popd args => popd c.fs s args

def step (s : Shell) (c : Call) : Shell := (perform s c).shell

def Succeeds (s : Shell) (c : Call) : Prop := (perform s c).status = 0

/-- PWD, the logical path and the directory of the process are one clean path. -/
def OneDirectory (s : Shell) : Prop :=
  ∃ dir, s.vars "PWD" = some dir ∧ s.logicalPwd = some dir ∧ s.process = dir ∧ Clean dir

theorem OneDirectory.pwd_eq (h : OneDirectory s) (fs : FileSystem) :
    s.vars "PWD" = some (pwd fs s) ∧ s.process = pwd fs s := by
  obtain ⟨dir,hpw,hl,hp,-⟩ := h
  have hpr : pwd fs s = dir := by
    unfold pwd
    rw [hl]
    rfl
  rw [hpr]
  exact ⟨hpw,hp⟩

section
variable (fs : FileSystem) (s : Shell)

def pushdDestination (args : List Text) : Option Text :=
  match parsePushd { } args with
  | .error _ => none
  | .ok parsed =>
    if parsed.skipCd then none
    else match parsed.rotate, parsed.target with
    | some (_,index), _ => (resolveIndex (dirsIter fs s).length index).bind fun i => ((dirsIter fs s).rotate i).head?
    | none, some dir => some (absolutize fs s dir)
    | none, none => (dirsIter fs s)[1]?

def popdDestination (args : List Text) : Option Text :=
  match parsePopd { } args with
  | .error _ => none
  | .ok parsed =>
    if parsed.skipCd then none
    else if resolveIndex (dirsIter fs s).length (parsed.selected.getD ("+0",.left 0)).2 = some 0 then (dirsIter fs s)[1]?
    else none
end

def destination (s : Shell) (c : Call) : Option Text :=
  match c.builtin with
  | .cd _ _ _ => none
  | .pushd args => pushdDestination c.fs s args
  | .popd args => popdDestination c.fs s args

def Stays (s : Shell) (c : Call) : Prop := ∀ dir, destination s c = some dir → s.vars "PWD" = some dir

structure Moves (s s' : Shell) (dest : Option Text) : Prop where
  logical : s'.logicalPwdValue = s.logicalPwdValue
  process : s'.process = dest.getD s.process
  pwd : s'.vars "PWD" = s.vars "PWD" ∨ ∃ dir, dest = some dir ∧ s'.vars "PWD" = some dir

section
variable (fs : FileSystem) (s : Shell) {skipCd : Bool} {index : StackIndex}

theorem assign_frame (name value : Text) :
    (s.assign name value).logicalPwdValue = s.logicalPwdValue ∧ (s.assign name value).process = s.process := by
  unfold assign
  split <;> exact ⟨rfl,rfl⟩

theorem vars_assign_of_ne {name n : Text} (value : Text) (h : n ≠ name) : (s.assign name value).vars n = s.vars n := by
  unfold assign
  split
  · rfl
  · exact if_neg h

theorem vars_assign_self (name value : Text) :
    (s.assign name value).vars name = s.vars name ∨ (s.assign name value).vars name = some value := by
  unfold assign
  split
  · exact .inl rfl
  · exact .inr (if_pos rfl)

theorem moves_stack (saved : List Text) : Moves s { s with dirsStack := saved } none := ⟨rfl,rfl,.inl rfl⟩

theorem moves_assignPwd (saved : List Text) (old new : Text) :
    Moves s (assignPwd { s with process := new, dirsStack := saved } old new) (some new) := by
  unfold assignPwd
  generalize hs' : ({ s with process := new, dirsStack := saved } : Shell).assign "OLDPWD" old = s'
  have hf := assign_frame { s with process := new, dirsStack := saved } "OLDPWD" old
  have hv := vars_assign_of_ne { s with process := new, dirsStack := saved } (n := "PWD".toList) old (by decide : _ ≠ "OLDPWD".toList)
  rw [hs'] at hf hv
  obtain ⟨hl,hp⟩ := assign_frame s' "PWD" new
  refine ⟨hl.trans hf.1,hp.trans hf.2,?_⟩
  rcases vars_assign_self s' "PWD" new with hpw | hpw
  · exact .inl (hpw.trans hv)
  · exact .inr ⟨new,rfl,hpw⟩

variable {fs s}

theorem moves_installStack {stack : List Text} (h : (installStack fs s stack skipCd).status = 0) :
    Moves s (installStack fs s stack skipCd).shell (if skipCd then none else stack.head?) := by
  cases stack with
  | nil => cases h
  | cons newTop saved =>
    unfold installStack at h ⊢
    dsimp only at h ⊢
    cases skipCd with
    | true => exact moves_stack s saved
    | false =>
      cases he : fs.enter newTop with
      | error e =>
        rw [he] at h
        cases h
      | ok _ => exact moves_assignPwd s saved _ newTop

theorem moves_pushDir (h : (pushDir fs s dir skipCd).status = 0) :
    Moves s (pushDir fs s dir skipCd).shell (if skipCd then none else some (absolutize fs s dir)) := by
  unfold pushDir at h ⊢
  dsimp only at h ⊢
  cases skipCd with
  | true => exact moves_stack s _
  | false =>
    cases he : fs.enter (absolutize fs s dir) with
    | error e =>
      rw [he] at h
      cases h
    | ok _ => exact moves_assignPwd s _ _ _

theorem moves_rotateStack {arg : Text} (h : (rotateStack fs s arg index skipCd).status = 0) :
    Moves s (rotateStack fs s arg index skipCd).shell (if skipCd then none
      else (resolveIndex (dirsIter fs s).length index).bind fun i => ((dirsIter fs s).rotate i).head?) := by
  unfold rotateStack at h ⊢
  cases hi : resolveIndex (dirsIter fs s).length index with
  | none =>
    rw [hi] at h
    cases h
  | some i =>
    rw [hi] at h
    exact moves_installStack h

theorem moves_swapTop (h : (swapTop fs s skipCd).status = 0) :
    Moves s (swapTop fs s skipCd).shell (if skipCd then none else (dirsIter fs s)[1]?) := by
  unfold swapTop at h ⊢
  match hs : dirsIter fs s with
  | [] | [_] =>
    rw [hs] at h
    cases h
  | a :: b :: rest =>
    rw [hs] at h
    exact moves_installStack h

theorem moves_pushd (h : (pushd fs s args).status = 0) :
    Moves s (pushd fs s args).shell (pushdDestination fs s args) := by
  unfold pushd at h ⊢
  unfold pushdDestination
  cases hp : parsePushd { } args with
  | error message =>
    rw [hp] at h
    cases h
  | ok parsed =>
    obtain ⟨skipCd,target,rotate⟩ := parsed
    rw [hp] at h
    cases rotate with
    | some selected => exact moves_rotateStack h
    | none =>
      cases target with
      | some dir => exact moves_pushDir h
      | none => exact moves_swapTop h

theorem moves_removeIndex {remove : ℕ} (h : (removeIndex fs s (dirsIter fs s) remove skipCd).status = 0) :
    Moves s (removeIndex fs s (dirsIter fs s) remove skipCd).shell
      (if skipCd then none else if remove = 0 then (dirsIter fs s)[1]? else none) := by
  unfold removeIndex at h ⊢
  generalize dirsIter fs s = stack at h ⊢
  cases he : stack.eraseIdx remove with
  | nil =>
    have hd : (if skipCd then none else if remove = 0 then stack[1]? else none) = none := by
      cases skipCd with
      | true => rfl
      | false =>
        cases remove with
        | zero =>
          rw [eraseIdx_zero] at he
          cases stack with
          | nil => rfl
          | cons top rest =>
            obtain rfl : rest = [] := he
            rfl
        | succ remove => rfl
    rw [hd]
    exact moves_stack s []
  | cons newTop saved =>
    rw [he] at h
    dsimp only at h ⊢
    by_cases hgo : remove = 0 ∧ (!skipCd) = true
    · obtain ⟨rfl,hs⟩ := hgo
      obtain rfl : skipCd = false := by simpa using hs
      rw [eraseIdx_zero] at he
      have hd : stack[1]? = some newTop := by
        cases stack with
        | nil => cases he
        | cons top rest =>
          obtain rfl : rest = newTop :: saved := he
          rfl
      cases hen : fs.enter newTop with
      | error e =>
        rw [hen] at h
        cases h
      | ok _ =>
        rw [hd]
        exact moves_assignPwd s saved _ newTop
    · have hd : (if skipCd then none else if remove = 0 then stack[1]? else none) = none := by
        cases skipCd with
        | true => rfl
        | false => exact if_neg fun hz => hgo ⟨hz,rfl⟩
      rw [if_neg hgo,hd]
      exact moves_stack s saved

theorem resolveIndex_lt {len i : ℕ} (h : resolveIndex len index = some i) : i < len := by
  cases index with
  | left n | right n =>
    simp only [resolveIndex,Option.ite_none_right_eq_some,Option.some.injEq] at h
    omega

theorem popdIndex_false (len : ℕ) (index : StackIndex) : popdIndex len false index = resolveIndex len index := by
  unfold popdIndex
  cases h : resolveIndex len index with
  | none => simp [h]
  | some i => simp [h,resolveIndex_lt h]

theorem moves_popd (h : (popd fs s args).status = 0) :
    Moves s (popd fs s args).shell (popdDestination fs s args) := by
  unfold popd at h ⊢
  unfold popdDestination
  cases hp : parsePopd { } args with
  | error message =>
    rw [hp] at h
    cases h
  | ok parsed =>
    obtain ⟨skipCd,selected⟩ := parsed
    rw [hp] at h
    dsimp only at h ⊢
    split at h
    · cases h
    rw [if_neg (by assumption)]
    cases hi : popdIndex (dirsIter fs s).length skipCd (selected.getD ("+0",.left 0)).2 with
    | none =>
      rw [hi] at h
      cases h
    | some remove =>
      rw [hi] at h
      have hm := moves_removeIndex h
      cases skipCd with
      | true => exact hm
      | false =>
        rw [popdIndex_false] at hi
        rw [hi]
        simpa using hm
end

structure Together (s : Shell) (dir : Text) : Prop where
  pwd : s.vars "PWD" = some dir
  logical : s.logicalPwdValue = some dir
  process : s.process = dir
  clean : Clean dir

theorem Together.logicalPwd (h : Together s dir) : s.logicalPwd = some dir := by
  unfold Shell.logicalPwd
  rw [h.logical]
  rfl

theorem Together.oneDirectory (h : Together s dir) : OneDirectory s :=
  ⟨dir,h.pwd,h.logicalPwd,h.process,h.clean⟩

section
variable {fs : FileSystem} {s : Shell} {physical checkAfter printAfter : Bool}

theorem together_cdDone (hp : s.process = path) (hc : Clean path)
    (h : (cdDone fs s physical checkAfter printAfter path).status = 0) :
    Together (cdDone fs s physical checkAfter printAfter path).shell path := by
  have hs : ∀ value, s.readonly "PWD" = false →
      Together ((s.assign "OLDPWD" value).setLogicalPwd path) path := by
    intro value hr
    have hf : (s.assign "OLDPWD" value).readonly "PWD" = false := by
      unfold assign
      split <;> exact hr
    have hp' := (assign_frame s "OLDPWD" value).2.trans hp
    generalize s.assign "OLDPWD" value = s' at hf hp'
    unfold setLogicalPwd assign
    rw [if_neg (by simpa using hf)]
    exact ⟨by dsimp only; rw [if_pos rfl],rfl,hp',hc⟩
  unfold cdDone at h ⊢
  split at h
  · cases h
  rename_i hr
  rw [if_neg hr]
  split at h
  · cases h
  rw [if_neg (by assumption)]
  split at h
  · cases h
  · exact hs _ (by simpa using hr)

theorem together_cdTo {target : Text} (h : (cdTo fs s physical checkAfter printAfter target).status = 0) :
    ∃ dir, Together (cdTo fs s physical checkAfter printAfter target).shell dir := by
  unfold cdTo at h ⊢
  cases hf : finalPath fs physical (absoluteTarget fs s physical target) with
  | error e =>
    rw [hf] at h
    cases h
  | ok path =>
    have hc : Clean path := by
      unfold finalPath at hf
      split at hf
      · exact fs.canonical_clean _ path hf
      · cases hf
        exact clean_normalizeLogicalPath _
    rw [hf] at h
    dsimp only at h ⊢
    cases he : fs.enter path with
    | error e =>
      rw [he] at h
      cases h
    | ok _ =>
      rw [he] at h
      exact ⟨path,together_cdDone rfl hc h⟩

theorem together_cd (h : (cd fs s physical checkAfter args).status = 0) :
    ∃ dir, Together (cd fs s physical checkAfter args).shell dir := by
  unfold cd at h ⊢
  split at h
  · cases h
  rw [if_neg (by assumption)]
  match args with
  | _ :: _ :: _ => cases h
  | [] =>
    cases hh : s.vars "HOME" with
    | none =>
      rw [hh] at h
      cases h
    | some ho =>
      rw [hh] at h
      exact together_cdTo h
  | [arg] =>
    dsimp only at h ⊢
    split at h
    · rw [if_pos (by assumption)]
      cases hp : s.vars "OLDPWD" with
      | none =>
        rw [hp] at h
        cases h
      | some previous =>
        rw [hp] at h
        exact together_cdTo h
    · rw [if_neg (by assumption)]
      exact together_cdTo h
end

section
variable {s : Shell} {c : Call} {dir : Text} {dest : Option Text}

variable (h : Together s dir)
include h

theorem together_of_moves (hm : Moves s s' dest) (hs : ∀ d, dest = some d → s.vars "PWD" = some d) : Together s' dir := by
  have hde : ∀ d, dest = some d → d = dir := fun d hd => (Option.some.inj (h.pwd.symm.trans (hs d hd))).symm
  refine ⟨?_,hm.logical.trans h.logical,?_,h.clean⟩
  · rcases hm.pwd with hp | ⟨d,hd,hp⟩
    · exact hp.trans h.pwd
    · rw [hp,hde d hd]
  · rw [hm.process]
    cases dest with
    | none => exact h.process
    | some d => exact hde d rfl

theorem stays_of_moves (hm : Moves s s' dest) (ho : OneDirectory s') :
    ∀ d, dest = some d → s.vars "PWD" = some d := by
  rintro d rfl
  obtain ⟨dir',-,hl,hp,-⟩ := ho
  have hd' : dir' = dir := by
    have hb := hm.logical.trans h.logical
    unfold logicalPwd at hl
    rw [hb] at hl
    exact (Option.some.inj hl).symm
  have hd : s'.process = d := hm.process
  rw [h.pwd,← hd,hp,hd']

theorem together_step (hs : Succeeds s c) (hst : Stays s c) : ∃ dir', Together (step s c) dir' := by
  obtain ⟨fs,builtin⟩ := c
  cases builtin with
  | cd physical checkAfter args => exact together_cd hs
  | pushd args => exact ⟨dir,together_of_moves h (moves_pushd hs) hst⟩
  | popd args => exact ⟨dir,together_of_moves h (moves_popd hs) hst⟩

theorem stays_of_oneDirectory (hs : Succeeds s c) (ho : OneDirectory (step s c)) : Stays s c := by
  obtain ⟨fs,builtin⟩ := c
  cases builtin with
  | cd physical checkAfter args =>
    intro d hd
    cases hd
  | pushd args => exact stays_of_moves h (moves_pushd hs) ho
  | popd args => exact stays_of_moves h (moves_popd hs) ho
end

/-- A shell as it starts, in a directory whose path the system gives without dots. -/
structure Start where
  cwd : Text
  clean : Clean cwd
  env : Text → Option Text
  readonly : Text → Bool
  restricted : Bool
  cdableVars : Bool
  interactive : Bool
  cdspell : Bool

def Start.shell (start : Start) : Shell where
  vars := fun name => if name = "PWD" then some start.cwd else start.env name
  readonly := start.readonly
  logicalPwdValue := some start.cwd
  process := start.cwd
  dirsStack := []
  restricted := start.restricted
  cdableVars := start.cdableVars
  interactive := start.interactive
  cdspell := start.cdspell

theorem Start.together (start : Start) : Together start.shell start.cwd := by
  refine ⟨?_,rfl,rfl,start.clean⟩
  unfold Start.shell
  dsimp only
  rw [if_pos rfl]

/-- Over any run there is one current directory just when no pushd and no popd leaves it. -/
theorem oneDirectory_iff (start : Start) (calls : List Call) (hsucceed : Guarded step Succeeds start.shell calls) :
    (∀ n, OneDirectory (run step start.shell (calls.take n))) ↔ Guarded step Stays start.shell calls :=
  guarded_iff_prefixes (I := fun s => ∃ dir, Together s dir) (fun _ ⟨_,h⟩ => h.oneDirectory)
    (fun _ _ ⟨_,h⟩ hsucceeds hstays => together_step h hsucceeds hstays)
    (fun _ _ ⟨_,h⟩ hsucceeds hone => stays_of_oneDirectory h hsucceeds hone) ⟨_,start.together⟩ hsucceed

def allDirectories : FileSystem where
  isDir := fun _ _ => true
  enter := fun _ => .ok ()
  currentDir := some
  canonicalize := fun path => .ok (normalizeLogicalPath path)
  spellDirectory := fun _ _ => none
  canonical_clean := fun path _ h => by cases h; exact clean_normalizeLogicalPath path

def rootStart : Start where
  cwd := ['/']
  clean := by decide
  env := fun _ => none
  readonly := fun _ => false
  restricted := false
  cdableVars := false
  interactive := false
  cdspell := false

/-- cd to a path with dots, and a pushd that only notes a directory. -/
theorem oneDirectory_of_quiet_pushd : OneDirectory (run step rootStart.shell
      [⟨allDirectories,.cd false false ["/usr/./lib/.."]⟩,⟨allDirectories,.pushd ["-n","/tmp"]⟩]) :=
  (oneDirectory_iff rootStart
    [⟨allDirectories,.cd false false ["/usr/./lib/.."]⟩,⟨allDirectories,.pushd ["-n","/tmp"]⟩]
    ⟨rfl,rfl,trivial⟩).mpr ⟨fun _ h => (by cases h),fun _ h => (by cases h),trivial⟩ 2

/-- pushd of an absolute directory leaves the logical path behind. -/
theorem pushd_leaves_logical_path :
    Guarded step Succeeds rootStart.shell [⟨allDirectories,.pushd ["/tmp"]⟩] ∧
      ¬OneDirectory (run step rootStart.shell [⟨allDirectories,.pushd ["/tmp"]⟩]) := by
  refine ⟨⟨rfl,trivial⟩,?_⟩
  rintro ⟨dir,-,hlogical,hprocess,-⟩
  have hroot : dir = "/" := (Option.some.inj hlogical).symm
  have htmp : dir = "/tmp" := hprocess.symm
  rw [hroot] at htmp
  exact absurd htmp (by decide)
end Cherubsh.Builtins.Directories
