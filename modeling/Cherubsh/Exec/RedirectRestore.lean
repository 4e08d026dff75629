import Cherubsh.Exec.Redirect

/-! # What dropping the guard puts back

Undoing a plan's own entries gives back the table the plan started from, up to one number: a moved
source stays closed, and a file opened on the very number it was asked for stays open.
-/
namespace Cherubsh.Exec.Redirect
open FdTable Option
variable {e : Saved} {t u : FdTable File} {m : ℕ} {fork : Bool}
variable {File : Type*}

section
/-- How an entry uses a number: as the one it puts back or as the one that keeps the file. -/
inductive Use where
  | target | slot
  deriving DecidableEq

def Saved.use (e : Saved) (m : ℕ) : Option Use :=
  if e.2 = some m then some .slot else if e.1 = m then some .target else none
open Saved

def lastUse : List Saved → ℕ → Option Use
  | [], _ => none
  | e :: rest, m => (lastUse rest m).or (use e m)

def undoStrict (e : Saved) (t : FdTable File) : Option (FdTable File) :=
  match e with
  | (target,none) => some (t.close target)
  | (target,some saved) => (t.dup2 saved target).map fun t => t.close saved

def undoAllStrict : List Saved → FdTable File → Option (FdTable File)
  | [], t => some t
  | e :: rest, t => (undoAllStrict rest t).bind (undoStrict e)

theorem undo_of_undoStrict (h : undoStrict e t = some u) : undo e t = u := by
  rcases e with ⟨target,_ | saved⟩
  · exact Option.some.inj h
  · obtain ⟨v,hv,rfl⟩ := map_eq_some_iff.mp h
    rw [undo,hv]
    rfl

theorem undoAll_of_undoAllStrict {log : List Saved} (h : undoAllStrict log t = some u) :
    undoAll log t = u := by
  induction log generalizing u with
  | nil => exact Option.some.inj h
  | cons e rest ih =>
    obtain ⟨v,hv,he⟩ := bind_eq_some_iff.mp h
    rw [undoAll,List.foldr_cons]
    change undo e (undoAll rest t) = u
    rw [ih hv,undo_of_undoStrict he]

theorem undoAllStrict_append (xs ys : List Saved) (t : FdTable File) :
    undoAllStrict (xs ++ ys) t = (undoAllStrict ys t).bind (undoAllStrict xs) := by
  induction xs with
  | nil => exact (bind_fun_some _).symm
  | cons e xs ih => rw [List.cons_append,undoAllStrict,ih,bind_assoc]; rfl

theorem use_none : use e m = none ↔ e.2 ≠ some m ∧ e.1 ≠ m := by
  unfold use
  split_ifs <;> simp_all

theorem use_target : use e m = some .target ↔ e.2 ≠ some m ∧ e.1 = m := by
  unfold use
  split_ifs <;> simp_all

theorem use_slot : use e m = some .slot ↔ e.2 = some m := by
  unfold use
  split_ifs <;> simp_all

section
variable {e : Saved} {m : ℕ} (t : FdTable File) (x : Option File)

theorem undoStrict_set_of_unused (h : use e m = none) :
    undoStrict e (t.set m x) = (undoStrict e t).map fun u => u.set m x := by
  obtain ⟨hs,ht⟩ := use_none.mp h
  rcases e with ⟨target,_ | saved⟩
  · simp only [undoStrict,close_natCast,map_some]
    rw [set_comm t x none (Ne.symm ht)]
  · have hsm : saved ≠ m := fun he => hs (congrArg some he)
    simp only [undoStrict,dup2,read_natCast,close_natCast,
      file_set_of_ne t x hsm,map_map]
    refine map_congr fun f _ => ?_
    simp only [Function.comp_apply]
    rw [set_comm t x (some f) (Ne.symm ht),set_comm _ x none (Ne.symm hsm)]

theorem undoStrict_set_of_target (h : use e m = some .target) :
    undoStrict e (t.set m x) = undoStrict e t := by
  obtain ⟨hs,rfl⟩ := use_target.mp h
  rcases e with ⟨target,_ | saved⟩
  · simp only [undoStrict,close_natCast,set_set]
  · have hsm : saved ≠ target := fun he => hs (congrArg some he)
    simp only [undoStrict,dup2,read_natCast,file_set_of_ne t x hsm,set_set]

variable {t}

theorem file_ne_none_of_slot {u : FdTable File} (h : use e m = some .slot) (hu : undoStrict e t = some u) :
    t.file m ≠ none := by
  rcases e with ⟨target,slot⟩
  obtain rfl : slot = some m := use_slot.mp h
  intro hm
  simp [undoStrict,dup2,hm] at hu
end

section
variable {m : ℕ} {log : List Saved} {rest : List Saved} {t u : FdTable File}

theorem lastUse_cons_none :
    lastUse (e :: rest) m = none ↔ lastUse rest m = none ∧ use e m = none := by
  rw [lastUse,or_eq_none_iff]

theorem lastUse_cons_some {v : Use} :
    lastUse (e :: rest) m = some v ↔ lastUse rest m = some v ∨ lastUse rest m = none ∧ use e m = some v := by
  rw [lastUse,or_eq_some_iff]

theorem undoAllStrict_set_of_unused (h : lastUse log m = none) (t : FdTable File)
    (x : Option File) : undoAllStrict log (t.set m x) = (undoAllStrict log t).map fun u => u.set m x := by
  induction log with
  | nil => rfl
  | cons e rest ih =>
    obtain ⟨hr,he⟩ := lastUse_cons_none.mp h
    rw [undoAllStrict,undoAllStrict,ih hr]
    cases undoAllStrict rest t with
    | none => rfl
    | some u => exact undoStrict_set_of_unused u x he

theorem file_undoAllStrict_of_unused (h : lastUse log m = none) (hu : undoAllStrict log t = some u) : u.file m = t.file m := by
  have hs := undoAllStrict_set_of_unused h t (t.file m)
  rw [set_eq_self t rfl,hu] at hs
  have hf := congrArg (fun v => v.file m) (Option.some.inj hs)
  rwa [file_set_self] at hf

theorem undoAllStrict_set_of_target (h : lastUse log m = some .target) (t : FdTable File)
    (x : Option File) : undoAllStrict log (t.set m x) = undoAllStrict log t := by
  induction log with
  | nil => cases h
  | cons e rest ih =>
    rw [undoAllStrict,undoAllStrict]
    rcases lastUse_cons_some.mp h with hr | ⟨hr,he⟩
    · rw [ih hr]
    · rw [undoAllStrict_set_of_unused hr]
      cases undoAllStrict rest t with
      | none => rfl
      | some u => exact undoStrict_set_of_target u x he

theorem file_ne_none_of_lastUse_slot (h : lastUse log m = some .slot)
    (hu : undoAllStrict log t = some u) : t.file m ≠ none := by
  induction log generalizing u with
  | nil => cases h
  | cons e rest ih =>
    obtain ⟨v,hv,hl⟩ := bind_eq_some_iff.mp hu
    rcases lastUse_cons_some.mp h with hr | ⟨hr,he⟩
    · exact ih hr hv
    · rw [← file_undoAllStrict_of_unused hr hv]
      exact file_ne_none_of_slot he hl
end
end

section
/-- What saving a number does: nothing to a closed one, a copy on a free high number
of an open one. -/
inductive Kept (t : FdTable File) (target : ℕ) : Option ℕ → FdTable File → Prop
  | closed (h : t.file target = none) : Kept t target none t
  | copied {f : File} {n : ℕ} (h : t.file target = some f) (hn : t.file n = none) (hten : 10 ≤ n) :
    Kept t target (some n) (t.set n (some f))

theorem saveFdAvoiding_closed {s : Parent File} {target : ℕ} (h : s.table.file target = none) (avoid : List ℤ) :
    saveFdAvoiding s target avoid = s.push s.table (target,none) := by
  simp [saveFdAvoiding,dupFd,h]

theorem saveFdAvoiding_open {s : Parent File} {target : ℕ} {f : File} (h : s.table.file target = some f)
    {avoid : List ℤ} (ha : avoid.length ≤ 1) :
    ∃ n, s.table.file n = none ∧ 10 ≤ n ∧ (n : ℤ) ∉ avoid ∧
      saveFdAvoiding s target avoid = s.push (s.table.set n (some f)) (target,some n) := by
  have hf := s.table.file_lowestFree guardSaveFdBase
  have hb := s.table.le_lowestFree guardSaveFdBase
  have ht : 10 ≤ guardSaveFdBase := by decide
  by_cases hm : (s.table.lowestFree guardSaveFdBase : ℤ) ∈ avoid
  · have hba : (s.table.set (s.table.lowestFree guardSaveFdBase) (some f)).close
        (s.table.lowestFree guardSaveFdBase) = s.table := by
      rw [close_natCast,set_set,set_eq_self _ hf]
    have hn := s.table.le_lowestFree (s.table.lowestFree guardSaveFdBase + 1)
    refine ⟨s.table.lowestFree (s.table.lowestFree guardSaveFdBase + 1),s.table.file_lowestFree _,by omega,?_,?_⟩
    · -- the list holds at most the number just avoided
      intro hm'
      match avoid, ha with
      | [a], _ =>
        rw [List.mem_singleton] at hm hm'
        omega
    · simp only [saveFdAvoiding,dupFd,read_natCast,h,map_some,orElse_some,
        if_pos hm,hba]
  · refine ⟨s.table.lowestFree guardSaveFdBase,hf,Nat.le_trans ht hb,hm,?_⟩
    simp only [saveFdAvoiding,dupFd,read_natCast,h,map_some,orElse_some,if_neg hm]

theorem saveFdAvoiding_kept (s : Parent File) (target : ℕ) (avoid : List ℤ) (ha : avoid.length ≤ 1) :
    ∃ slot t, saveFdAvoiding s target avoid = s.push t (target,slot) ∧ Kept s.table target slot t ∧
      ∀ n, slot = some n → (n : ℤ) ∉ avoid := by
  cases h : s.table.file target with
  | none => exact ⟨none,s.table,saveFdAvoiding_closed h avoid,.closed h,by simp⟩
  | some f =>
    obtain ⟨n,hn,ht,hav,heq⟩ := saveFdAvoiding_open h ha
    refine ⟨some n,_,heq,.copied h hn ht,?_⟩
    rintro m ⟨⟩
    exact hav

variable {t t' : FdTable File} {target : ℕ} {slot : Option ℕ}

variable (h : Kept t target slot t')
include h

theorem Kept.undo (x : Option File) : undoStrict (target,slot) (t'.set target x) = some t := by
  cases h with
  | closed h =>
    simp only [undoStrict,close_natCast,set_set]
    rw [set_eq_self t h]
  | @copied f n h hn ht =>
    have hne : n ≠ target := by
      rintro rfl
      rw [h] at hn
      cases hn
    simp only [undoStrict,dup2,read_natCast,close_natCast,
      file_set_of_ne _ x hne,file_set_self,map_some,set_set]
    rw [set_comm _ (some f) (some f) hne,set_set,set_comm _ (some f) none (Ne.symm hne),
      set_eq_self t hn,set_eq_self t h]

theorem Kept.undo_self : undoStrict (target,slot) t' = some t := by
  have hu := h.undo (t'.file target)
  rwa [set_eq_self t' rfl] at hu

theorem Kept.file {m : ℕ} {f : File} (hm : t.file m = some f) : t'.file m = some f := by
  cases h with
  | closed _ => exact hm
  | @copied g n _ hn _ =>
    rw [file_set_of_ne _ _ ?_,hm]
    rintro rfl
    rw [hm] at hn
    cases hn

theorem Kept.use_eq_none {m : ℕ} {f : File} (hm : t.file m = some f) (hne : m ≠ target) :
    Saved.use (target,slot) m = none := by
  refine use_none.mpr ⟨?_,Ne.symm hne⟩
  rintro rfl
  cases h with
  | copied _ hn _ =>
    rw [hm] at hn
    cases hn

theorem Kept.use_low (hm : m < 10) (hne : m ≠ target) : Saved.use (target,slot) m = none := by
  refine use_none.mpr ⟨?_,Ne.symm hne⟩
  rintro rfl
  cases h with
  | copied _ _ ht => omega
end

section
variable {t : FdTable File} {plan : Plan File} (s : Parent File)

def Plan.plain : Plan File → Bool
  | .assignVar .. | .assignFd .. | .closeVar .. | .assignHeredoc .. => false
  | _ => true

/-- The number a plan leaves changed when its own entries are undone, with what it then holds. -/
def leaves (t : FdTable File) : Plan File → Option (ℕ × Option File)
  | .open _ (.ok file) target => if t.lowestFree 0 = target then some (target,some file) else none
  | .move source target _ => if source ≠ target ∧ t.read source ≠ none then some (source.toNat,none) else none
  | .openErrAndOut _ (.ok file) =>
    if t.lowestFree 0 = 1 ∨ t.lowestFree 0 = 2 then some (t.lowestFree 0,some file) else none
  | .heredoc body (some (readEnd,_)) fork target =>
    if (body.length < pipeThreshold ∨ fork) ∧ t.lowestFree 0 = target then some (target,some readEnd) else none
  | _ => none

def remainder (t : FdTable File) (plan : Plan File) : FdTable File :=
  match leaves t plan with
  | none => t
  | some (m,x) => t.set m x

/-- A state reached by logging entries whose undoing gives the table `u`. -/
def UndoesTo (s : Parent File) (u : FdTable File) (s' : Parent File) : Prop :=
  ∃ new, s'.guard = {s.guard with savedFd := s.guard.savedFd ++ new} ∧ undoAllStrict new s'.table = some u

theorem UndoesTo.of_table (t : FdTable File) : UndoesTo s t {s with table := t} :=
  ⟨[],by simp,rfl⟩

theorem UndoesTo.of_push {s : Parent File} {u t' : FdTable File} {entry : Saved} (h : undoStrict entry t' = some u)
    (t : FdTable File) : UndoesTo s u {s.push t entry with table := t'} :=
  ⟨[entry],rfl,h⟩

theorem dup2Close_open {fd target : ℕ} {f : File} (h : t.file fd = some f) :
    dup2Close t fd target =
      (.ok (),if fd ≠ target then (t.set target (some f)).set fd none else t.set target (some f)) := by
  simp [dup2Close,dup2,read_natCast,h,close_natCast]

theorem install_undoesTo {fd : ℕ} (hfd : t.file fd = none) (s : Parent File) (target : ℕ) (file : File) :
    UndoesTo s (if fd = target then t.set target (some file) else t)
      (install {s with table := t.set fd (some file)} fd target).2 := by
  obtain ⟨slot,t1,hs,hk,-⟩ :=
    saveFdAvoiding_kept {s with table := t.set fd (some file)} target [] (by simp)
  have ho : (t.set fd (some file)).file fd = some file := file_set_self ..
  have hr : t1.file fd = some file := hk.file ho
  simp only [install,saveFd,hs,Parent.push,dup2Close_open hr]
  refine ⟨[(target,slot)],rfl,?_⟩
  simp only [undoAllStrict,bind_some]
  by_cases hft : fd = target
  · subst hft
    simpa using hk.undo (some file)
  · rw [if_pos hft,if_neg hft,
      undoStrict_set_of_unused _ none (hk.use_eq_none ho hft),hk.undo]
    simp [set_eq_self t hfd]

theorem heredocReadFd_ok (t : FdTable File) (body : List UInt8) (readEnd writeEnd : File)
    (h : body.length < pipeThreshold ∨ fork) :
    heredocReadFd t body (some (readEnd,writeEnd)) fork =
      (.ok (t.lowestFree 0),t.set (t.lowestFree 0) (some readEnd)) := by
  have hf := (t.set (t.lowestFree 0) (some readEnd)).file_lowestFree 0
  rcases h with h | h <;> simp [heredocReadFd,openFile,h,set_eq_self _ hf]

theorem heredocReadFd_error (t : FdTable File) (body : List UInt8) (readEnd writeEnd : File)
    (h : ¬(body.length < pipeThreshold ∨ fork)) :
    heredocReadFd t body (some (readEnd,writeEnd)) fork = (.error "fork() failed for heredoc",t) := by
  rw [not_or] at h
  have hf := (t.set (t.lowestFree 0) (some readEnd)).file_lowestFree 0
  have hne : (t.set (t.lowestFree 0) (some readEnd)).lowestFree 0 ≠ t.lowestFree 0 := by
    intro heq
    rw [heq,file_set_self] at hf
    cases hf
  simp only [heredocReadFd,openFile,if_neg h.1,if_neg h.2,close_natCast]
  rw [set_comm _ none none hne.symm,set_set,set_eq_self _ hf,set_set,
    set_eq_self t (t.file_lowestFree 0)]

theorem duplicate_spec (source : ℤ) (target : ℕ) (label : String) :
    ∃ slot t1, Kept s.table target slot t1 ∧
      duplicate s source target label =
        match s.table.read source with
        | none => (.error (badFd label),s.push t1 (target,slot))
        | some f => (.ok (),s.push (t1.set target (some f)) (target,slot)) := by
  obtain ⟨slot,t1,hs,hk,hav⟩ := saveFdAvoiding_kept s target [source] (by simp)
  have hav' : ∀ n, slot = some n → (n : ℤ) ≠ source := fun n hn h => hav n hn (by simp [h])
  refine ⟨slot,t1,hk,?_⟩
  have hr : t1.read source = s.table.read source := by
    cases hk with
    | closed _ => rfl
    | copied _ _ _ => exact read_set_of_ne _ _ (Ne.symm (hav' _ rfl))
  simp only [duplicate,hs,Parent.push,dup2,hr]
  cases s.table.read source with
  | none => rfl
  | some f => rfl

theorem move_undoesTo (source : ℤ) (target : ℕ) (label : String) :
    UndoesTo s (remainder s.table (.move source target label)) (executePlan s (.move source target label)).2 := by
  by_cases hst : source = target
  · simpa [remainder,leaves,executePlan,hst] using UndoesTo.of_table s s.table
  · obtain ⟨slot,t1,hk,hd⟩ := duplicate_spec s source target label
    simp only [executePlan,if_neg hst,hd,remainder,leaves]
    cases hr : s.table.read source with
    | none =>
      have hu : UndoesTo s s.table (s.push t1 (target,slot)) := UndoesTo.of_push hk.undo_self t1
      simpa [hst] using hu
    | some f =>
      obtain ⟨n,rfl,hn⟩ := FdTable.read_of_file _ hr
      have hnt : n ≠ target := fun h => hst (by rw [h])
      simp only [hst,ne_eq,not_false_eq_true,reduceCtorEq,and_self,if_true,Int.toNat_natCast,FdTable.close_natCast]
      refine UndoesTo.of_push ?_ t1
      rw [Parent.push,undoStrict_set_of_unused _ none (hk.use_eq_none hn hnt),hk.undo]
      rfl

theorem openErrAndOut_undoesTo (path : String) (file : File) :
    UndoesTo s (remainder s.table (.openErrAndOut path (.ok file))) (executePlan s (.openErrAndOut path (.ok file))).2 := by
  obtain ⟨fd,hfd⟩ : ∃ fd, fd = s.table.lowestFree 0 := ⟨_,rfl⟩
  have hf : s.table.file fd = none := hfd ▸ s.table.file_lowestFree 0
  have ho : (s.table.set fd (some file)).file fd = some file := file_set_self ..
  obtain ⟨a,t1,hs1,hk1,-⟩ :=
    saveFdAvoiding_kept {s with table := s.table.set fd (some file)} 1 [] (by simp)
  obtain ⟨b,t2,hs2,hk2,-⟩ :=
    saveFdAvoiding_kept (Parent.push {s with table := s.table.set fd (some file)} t1 (1,a)) 2 [] (by simp)
  have ho1 := hk1.file ho
  have ho2 : t2.file fd = some file := hk2.file ho1
  have hlo : Saved.use (2,b) 1 = none := hk2.use_low (by decide) (by decide)
  -- undoing the second entry and then the first, wherever the file was opened
  have hb : ∀ x y, undoAllStrict [(1,a),(2,b)] ((t2.set 1 x).set 2 y) = some (s.table.set fd (some file)) := by
    intro x y
    simp only [undoAllStrict,bind_some]
    rw [set_comm t2 x y (by decide),undoStrict_set_of_unused _ x hlo,hk2.undo]
    exact hk1.undo x
  have hl : fd ≠ 1 → fd ≠ 2 → lastUse [(1,a),(2,b)] fd = none := fun h1 h2 =>
    lastUse_cons_none.mpr ⟨lastUse_cons_none.mpr ⟨rfl,hk2.use_eq_none ho1 h2⟩,hk1.use_eq_none ho h1⟩
  have hr : executePlan s (.openErrAndOut path (.ok file)) =
      (.ok (),⟨(if fd ≠ 1 then (t2.set 1 (some file)).set fd none else t2.set 1 (some file)).set 2 (some file),
        {s.guard with savedFd := s.guard.savedFd ++ [(1,a),(2,b)]}⟩) := by
    have hon : (if fd ≠ 1 then (t2.set 1 (some file)).set fd none else t2.set 1 (some file)).read 1 =
        some file := by
      refine (read_natCast _ 1).trans ?_
      split
      · next h => rw [file_set_of_ne _ _ (Ne.symm h),file_set_self]
      · exact file_set_self ..
    simp only [executePlan,openFile,← hfd,saveFd,hs1,hs2]
    simp only [Parent.push,dup2Close_open ho2,dup2,hon,map_some,List.append_assoc,
      List.cons_append,List.nil_append]
  rw [hr]
  refine ⟨[(1,a),(2,b)],rfl,?_⟩
  simp only [remainder,leaves,← hfd]
  by_cases h1 : fd = 1
  · rw [if_neg (not_not.mpr h1),hb,if_pos (Or.inl h1)]
  · rw [if_pos h1]
    by_cases h2 : fd = 2
    · subst h2
      rw [set_set,hb]
      rfl
    · rw [set_comm _ none (some file) h2,undoAllStrict_set_of_unused (hl h1 h2),hb,
        if_neg (not_or.mpr ⟨h1,h2⟩)]
      simp [set_eq_self s.table hf]

theorem executePlan_undoesTo (hp : plan.plain) :
    UndoesTo s (remainder s.table plan) (executePlan s plan).2 := by
  cases plan with
  | «open» path opened target =>
    cases opened with
    | error e => exact UndoesTo.of_table s s.table
    | ok file =>
      have h := install_undoesTo (s.table.file_lowestFree 0) s target file
      simp only [remainder,leaves,executePlan,openFile]
      split_ifs at h ⊢ <;> exact h
  | dup source target label =>
    by_cases hst : source = target
    · simpa [remainder,leaves,executePlan,hst] using UndoesTo.of_table s s.table
    · obtain ⟨slot,t1,hk,hd⟩ := duplicate_spec s source target label
      simp only [executePlan,if_neg hst,hd,remainder,leaves]
      cases s.table.read source with
      | none => exact UndoesTo.of_push hk.undo_self t1
      | some f => exact UndoesTo.of_push (hk.undo (some f)) t1
  | move source target label => exact move_undoesTo s source target label
  | close target =>
    obtain ⟨slot,t1,hs,hk,-⟩ := saveFdAvoiding_kept s target [] (by simp)
    simp only [executePlan,saveFd,hs,close_natCast,remainder,leaves]
    exact UndoesTo.of_push (hk.undo none) t1
  | heredoc body pipe fork target =>
    cases pipe with
    | none => exact UndoesTo.of_table s s.table
    | some ends =>
      obtain ⟨readEnd,writeEnd⟩ := ends
      simp only [remainder,leaves,executePlan]
      by_cases hb : body.length < pipeThreshold ∨ fork
      · rw [heredocReadFd_ok _ _ _ _ hb]
        have h := install_undoesTo (s.table.file_lowestFree 0) s target readEnd
        simp only [hb,true_and]
        split_ifs at h ⊢ <;> exact h
      · rw [heredocReadFd_error _ _ _ _ hb,if_neg fun hc => hb hc.1]
        exact UndoesTo.of_table s s.table
  | openErrAndOut path opened =>
    cases opened with
    | error e => exact UndoesTo.of_table s s.table
    | ok file => exact openErrAndOut_undoesTo s path file
  | assignVar path opened var assigned => cases hp
  | assignFd source var closeSource assigned | closeVar var fd | assignHeredoc body pipe fork var assigned => cases hp

theorem leaves_cases {m : ℕ} {x : Option File} (h : leaves t plan = some (m,x)) :
    (∃ source target label, plan = .move source target label ∧ source ≠ target ∧ m = source.toNat ∧ t.file m ≠ none ∧ x = none) ∨
      t.file m = none ∧ x ≠ none := by
  have hfr := t.file_lowestFree 0
  unfold leaves at h
  split at h
  · obtain ⟨rfl,⟨⟩⟩ := ite_none_right_eq_some.mp h
    exact .inr ⟨hfr,by simp⟩
  · obtain ⟨hc,⟨⟩⟩ := ite_none_right_eq_some.mp h
    obtain ⟨f,hf⟩ := ne_none_iff_exists'.mp hc.2
    obtain ⟨n,rfl,hn⟩ := read_of_file _ hf
    exact .inl ⟨_,_,_,rfl,hc.1,rfl,by simp [hn],rfl⟩
  · obtain ⟨-,⟨⟩⟩ := ite_none_right_eq_some.mp h
    exact .inr ⟨hfr,by simp⟩
  · obtain ⟨⟨-,rfl⟩,⟨⟩⟩ := ite_none_right_eq_some.mp h
    exact .inr ⟨hfr,by simp⟩
  · cases h

theorem leaves_ne {m : ℕ} {x : Option File} (h : leaves t plan = some (m,x)) : x ≠ t.file m := by
  obtain ⟨_,_,_,-,-,-,hm,rfl⟩ | ⟨hm,hx⟩ := leaves_cases h
  · exact hm.symm
  · rwa [hm]
end

section
variable {r : Except String (Plan File)}

/-- Whatever number the next plan leaves changed, the log's last use of it is to put it back. -/
def Shielded (s : Applied File) (r : Except String (Plan File)) : Prop :=
  s.failure = none → ∀ plan, r = .ok plan → ∀ m x, leaves s.parent.table plan = some (m,x) →
    lastUse s.parent.guard.savedFd m = some .target

/-- The next redirection names no variable, and moves no number that keeps a saved file to another one. -/
def Ordinary (s : Applied File) (r : Except String (Plan File)) : Prop :=
  ∀ plan, r = .ok plan → plan.plain ∧ ∀ source target label, plan = .move source target label → source ≠ target →
    s.failure = none → lastUse s.parent.guard.savedFd source.toNat ≠ some .slot

/-- Dropping the guard now would give `t` and find every kept file on the way. -/
structure Restores (t : FdTable File) (s : Applied File) : Prop where
  undo : undoAllStrict s.parent.guard.savedFd s.parent.table = some t
  noVars : s.parent.guard.assignedVarFds = []

variable {t : FdTable File} {s : Applied File}

theorem Restores.dropGuard (h : Restores t s) : dropGuard s.parent = t := by
  rw [Redirect.dropGuard,h.noVars]
  exact undoAll_of_undoAllStrict h.undo

theorem applyOne_error (s : Applied File) (e : String) : (applyOne s (.error e)).parent = s.parent := by
  rcases s with ⟨p,_ | f⟩ <;> rfl

theorem applyOne_failed (h : s.failure ≠ none) (r : Except String (Plan File)) : applyOne s r = s := by
  rcases s with ⟨p,_ | f⟩
  · exact absurd rfl h
  · rfl

theorem applyOne_ok (h : s.failure = none) (plan : Plan File) :
    (applyOne s (.ok plan)).parent = (executePlan s.parent plan).2 := by
  rcases s with ⟨p,_ | f⟩
  · unfold applyOne
    dsimp only
    rcases executePlan p plan with ⟨_ | _,q⟩ <;> rfl
  · cases h

theorem undo_applyOne (h : s.failure = none) {plan : Plan File} (hp : plan.plain) :
    undoAllStrict (applyOne s (.ok plan)).parent.guard.savedFd (applyOne s (.ok plan)).parent.table =
        undoAllStrict s.parent.guard.savedFd (remainder s.parent.table plan) ∧
      (applyOne s (.ok plan)).parent.guard.assignedVarFds = s.parent.guard.assignedVarFds := by
  obtain ⟨new,hg,hu⟩ := executePlan_undoesTo s.parent hp
  rw [applyOne_ok h,hg]
  refine ⟨?_,rfl⟩
  rw [undoAllStrict_append,hu]
  rfl

theorem undoAllStrict_remainder {log : List Saved} {plan : Plan File} (u : FdTable File)
    (h : ∀ m x, leaves u plan = some (m,x) → lastUse log m = some .target) :
    undoAllStrict log (remainder u plan) = undoAllStrict log u := by
  cases hl : leaves u plan with
  | none => rw [remainder,hl]
  | some p =>
    obtain ⟨m,x⟩ := p
    rw [remainder,hl]
    exact undoAllStrict_set_of_target (h m x hl) u x

theorem Restores.applyOne (h : Restores t s) (ho : Ordinary s r) (hok : Shielded s r) : Restores t (applyOne s r) := by
  cases r with
  | error e => exact ⟨by rw [applyOne_error]; exact h.undo,by rw [applyOne_error]; exact h.noVars⟩
  | ok plan =>
    by_cases hf : s.failure = none
    · obtain ⟨hu,hv⟩ := undo_applyOne hf (ho plan rfl).1
      refine ⟨?_,hv.trans h.noVars⟩
      rw [hu,undoAllStrict_remainder _ (hok hf plan rfl)]
      exact h.undo
    · rwa [applyOne_failed hf]

theorem Restores.shielded (h : Restores t s) (hor : Ordinary s r)
    (hg : Redirect.dropGuard (Redirect.applyOne s r).parent = t) : Shielded s r := by
  rintro hf plan rfl m x hl
  obtain ⟨hp,hm⟩ := hor plan rfl
  obtain ⟨hu,hv⟩ := undo_applyOne hf hp
  rw [remainder,hl] at hu
  cases hus : lastUse s.parent.guard.savedFd m with
  | none =>
    -- nothing in the log touches the number, so the change comes through to the end
    rw [undoAllStrict_set_of_unused hus,h.undo] at hu
    rw [Redirect.dropGuard,hv,h.noVars] at hg
    have hs : t.set m x = t := (undoAll_of_undoAllStrict hu).symm.trans hg
    have hfi := congrArg (fun v => v.file m) hs
    simp only [file_set_self,file_undoAllStrict_of_unused hus h.undo] at hfi
    exact absurd hfi (leaves_ne hl)
  | some use =>
    cases use with
    | target => rfl
    | slot =>
      -- a kept file is open, so only a move could take its number
      have ho := file_ne_none_of_lastUse_slot hus h.undo
      obtain ⟨source,target,label,rfl,hne,rfl,-⟩ | ⟨hfr,-⟩ := leaves_cases hl
      · exact absurd hus (hm source target label rfl hne hf)
      · exact absurd hfr ho

/-- The guard restores the table after every part of a list exactly when each redirection is
shielded by the ones before it. -/
theorem dropGuard_restores_iff (closeVarFds : Bool) (t : FdTable File) (rs : List (Except String (Plan File)))
    (hord : GuardedRun.Guarded applyOne Ordinary (.start closeVarFds t) rs) :
    (∀ n, dropGuard (applyRedirectsToParent closeVarFds t (rs.take n)).parent = t) ↔
      GuardedRun.Guarded applyOne Shielded (.start closeVarFds t) rs := by
  have hstart : Restores t (.start closeVarFds t) := ⟨rfl,rfl⟩
  exact GuardedRun.guarded_iff_prefixes (fun s h => h.dropGuard) (fun s r h ho hok => h.applyOne ho hok)
    (fun s r h ho hgood => h.shielded ho hgood) hstart hord

def firstOpen (n : ℕ) : FdTable ℕ where
  file := fun m => if m < n then some m else none
  finite := ⟨n,fun m hm => if_neg (by omega)⟩

theorem lowestFree_firstOpen (n : ℕ) : (firstOpen n).lowestFree 0 = n := by
  refine lowestFree_eq _ (Nat.zero_le n) (if_neg (lt_irrefl n)) fun m _ hm => ?_
  change (if m < n then some m else none) ≠ none
  rw [if_pos hm]
  exact some_ne_none m

/-- `>f 2>&1` around a command, with the three standard numbers open. -/
theorem dropGuard_restores_output :
    dropGuard (applyRedirectsToParent false (firstOpen 3) [.ok (.open "f" (.ok 9) 1),.ok (.dup 1 2 "1")]).parent =
      firstOpen 3 := by
  refine (dropGuard_restores_iff false (firstOpen 3) [.ok (.open "f" (.ok 9) 1),.ok (.dup 1 2 "1")]
    ⟨?_,?_,trivial⟩).mpr ⟨?_,?_,trivial⟩ 2
  · rintro plan ⟨⟩
    exact ⟨rfl,by rintro _ _ _ ⟨⟩⟩
  · rintro plan ⟨⟩
    exact ⟨rfl,by rintro _ _ _ ⟨⟩⟩
  · rintro - plan ⟨⟩ m x h
    simp [leaves,Applied.start,lowestFree_firstOpen] at h
  · rintro - plan ⟨⟩ m x h
    cases h

/-- `3<f` opens the file on 3 itself; it is saved as if it had been there before, and stays open. -/
theorem dropGuard_leaks_target :
    ¬dropGuard (applyRedirectsToParent false (firstOpen 3) [.ok (.open "f" (.ok 9) 3)]).parent = firstOpen 3 := by
  intro h
  have hstart : Restores (firstOpen 3) (.start false (firstOpen 3)) := ⟨rfl,rfl⟩
  have hord : Ordinary (Applied.start false (firstOpen 3)) (.ok (.open "f" (.ok 9) 3)) := by
    rintro plan ⟨⟩
    exact ⟨rfl,by rintro _ _ _ ⟨⟩⟩
  have hshield := hstart.shielded hord h rfl _ rfl 3 (some 9) (if_pos (lowestFree_firstOpen 3))
  cases hshield
end
end Cherubsh.Exec.Redirect
