import Cherubsh.Library.Descriptors

/-! # The descriptors of a pipeline

The shell makes the pipes one at a time, starts a child for every stage and closes what it
does not need for the next one. A child gets the shell's descriptors of that moment and
moves the pipe ends to the places they belong to. What the system answers is given.
-/
namespace Cherubsh.Exec.Plumbing
open FdTable List
variable {File : Type*}

/-- What a descriptor is open on: the read or write end of the pipe after a stage, or else. -/
inductive End (File : Type*) where
  | other (file : File)
  | read (stage : ℕ)
  | write (stage : ℕ)

/-- The answers of the system: whether a pipe can be made, the child for a stage, and the status
its waiting ends with. -/
structure System where
  pipe : ℕ → Bool
  fork : ℕ → Option ℕ
  wait : ℕ → ℤ

structure Child (File : Type*) where
  stage : ℕ
  pid : ℕ
  table : FdTable (End File)

section
def duplicate (t : FdTable (End File)) (source target : ℕ) : FdTable (End File) := (t.dup2 source target).getD t

/-- What a child does before its command: the end to read from goes to 0, the one to write
to goes to 1. -/
def childTable (previousRead : Option ℕ) (pipe : Option (ℕ × ℕ)) (pipeStderr : Bool) (t : FdTable (End File)) :
    FdTable (End File) :=
  let t := match previousRead with
    | some fd => if fd ≠ 0 then (duplicate t fd 0).close fd else t
    | none => t
  match pipe with
  | none => t
  | some (r,w) =>
    let t := duplicate (t.close r) w 1
    let t := if pipeStderr then duplicate t w 2 else t
    t.close w

structure Loop (File : Type*) where
  table : FdTable (End File)
  previousRead : Option ℕ
  children : List (Child File)

variable (sys : System) (pipeStderr : Bool) (total : ℕ)

def makePipe (index : ℕ) (t : FdTable (End File)) : (ℕ × ℕ) × FdTable (End File) :=
  let (r,t) := t.openFile (.read index)
  let (w,t) := t.openFile (.write index)
  ((r,w),t)

def closePrevious (previousRead : Option ℕ) (t : FdTable (End File)) : FdTable (End File) :=
  match previousRead with
  | some fd => t.close fd
  | none => t

/-- The shell after a pipe is made, if one is needed: the next child, or nothing where none
can be started. -/
def startStage (index : ℕ) (s : Loop File) (pipe : Option (ℕ × ℕ)) (t : FdTable (End File)) : Except (Loop File) (Loop File) :=
  match sys.fork index with
  | none => .error { s with table := t }
  | some pid =>
    let children := s.children ++ [⟨index,pid,childTable s.previousRead pipe pipeStderr t⟩]
    let t := closePrevious s.previousRead t
    match pipe with
    | none => .ok ⟨t,none,children⟩
    | some (r,w) => .ok ⟨t.close w,some r,children⟩

/-- One round of the loop. A call that fails ends the function with what is held then. -/
def stage (index : ℕ) (s : Loop File) : Except (Loop File) (Loop File) :=
  if index + 1 < total then
    if sys.pipe index then
      let (pipe,t) := makePipe index s.table
      startStage sys pipeStderr index s (some pipe) t
    else .error s
  else startStage sys pipeStderr index s none s.table

def stages (indices : List ℕ) (s : Loop File) : Except (Loop File) (Loop File) :=
  indices.foldlM (fun s index => stage sys pipeStderr total index s) s

structure Outcome (File : Type*) where
  table : FdTable (End File)
  children : List (Child File)
  waited : List ℕ
  pipestatus : Option (List ℤ)
  status : ℤ

def finalStatus (pipefail : Bool) (statuses : List ℤ) : ℤ :=
  if pipefail then (statuses.reverse.find? (· ≠ 0)).getD 0 else statuses.getLast?.getD 0

def execute (pipefail : Bool) (t : FdTable (End File)) : Outcome File :=
  match stages sys pipeStderr total (List.range total) ⟨t,none,[]⟩ with
  | .error s => ⟨s.table,s.children,[],none,1⟩
  | .ok s =>
    let pids := s.children.map Child.pid
    let statuses := pids.map sys.wait
    ⟨s.table,s.children,pids,some statuses,finalStatus pipefail statuses⟩
end

def End.isPipe : End File → Bool
  | .other _ => false
  | _ => true

def inherited (t : FdTable File) : FdTable (End File) where
  file n := (t.file n).map .other
  finite := by
    obtain ⟨n,hn⟩ := t.finite
    exact ⟨n,fun m hm => by simp [hn m hm]⟩

/-- The child has the pipes before and after its stage and no other end of a pipe. -/
def Child.Plumbed (total : ℕ) (c : Child File) : Prop :=
  (∀ k, c.stage = k + 1 → c.table.file 0 = some (.read k)) ∧
    (c.stage + 1 < total → c.table.file 1 = some (.write c.stage)) ∧
    ∀ fd e, c.table.file fd = some e → e.isPipe → (fd = 0 ∧ 0 < c.stage) ∨ (fd = 1 ∧ c.stage + 1 < total)

/-- Every child is connected and waited for, and the shell's own descriptors are as before. -/
def Outcome.Clean (total : ℕ) (t : FdTable (End File)) (out : Outcome File) : Prop :=
  (∀ c ∈ out.children, c.Plumbed total) ∧ out.table = t ∧ ∀ c ∈ out.children, c.pid ∈ out.waited

section
structure Spare (t : FdTable (End File)) (a b c : ℕ) : Prop where
  freeA : t.file a = none
  freeB : t.file b = none
  freeC : t.file c = none
  ab : a < b
  bc : b < c
  full : ∀ m < c, m ≠ a → m ≠ b → t.file m ≠ none

theorem exists_spare (t : FdTable (End File)) : ∃ a b c, Spare t a b c := by
  have hl (base m : ℕ) (hb : base ≤ m) (hm : m < t.lowestFree base) : t.file m ≠ none := fun hf => by
    refine Nat.find_min (t.exists_free base) hm ⟨hb,?_⟩
    simp [hf]
  have hab := t.le_lowestFree (t.lowestFree 0 + 1)
  have hbc := t.le_lowestFree (t.lowestFree (t.lowestFree 0 + 1) + 1)
  refine ⟨t.lowestFree 0,t.lowestFree (t.lowestFree 0 + 1),t.lowestFree (t.lowestFree (t.lowestFree 0 + 1) + 1),
    t.file_lowestFree _,t.file_lowestFree _,t.file_lowestFree _,hab,hbc,fun m hm ha hb => ?_⟩
  -- A number below the third is below the first, between two of them, or one of them.
  by_cases h₁ : m < t.lowestFree 0
  · exact hl 0 m (Nat.zero_le m) h₁
  · by_cases h₂ : m < t.lowestFree (t.lowestFree 0 + 1)
    · exact hl _ m (by omega) h₂
    · exact hl _ m (by omega) hm

variable {t : FdTable (End File)} {a b c : ℕ} (h : Spare t a b c)
include h

theorem makePipe_first (i : ℕ) : makePipe i t = ((a,b),(t.set a (some (.read i))).set b (some (.write i))) := by
  obtain ⟨hA,hB,hC,hab,hbc,hf⟩ := h
  have ha : t.lowestFree 0 = a := t.lowestFree_eq (Nat.zero_le a) hA fun m _ hm => hf m (by omega) (by omega) (by omega)
  have hb : (t.set a (some (.read i))).lowestFree 0 = b := by
    refine lowestFree_eq _ (Nat.zero_le b) (by simp [file_set,hB]; omega) fun m _ hm => ?_
    by_cases hma : m = a
    · simp [hma]
    · simpa [hma] using hf m (by omega) hma (by omega)
  simp [makePipe,openFile,ha,hb]

theorem makePipe_next {r r' : ℕ} (hr : r = a ∧ r' = b ∨ r = b ∧ r' = a) (e : End File) (i : ℕ) :
    makePipe i (t.set r (some e)) = ((r',c),((t.set r (some e)).set r' (some (.read i))).set c (some (.write i))) := by
  obtain ⟨hA,hB,hC,hab,hbc,hf⟩ := h
  have hr' : (t.set r (some e)).lowestFree 0 = r' := by
    refine lowestFree_eq _ (Nat.zero_le r') ?_ fun m _ hm => ?_
    · rw [file_set_of_ne _ _ (by omega)]
      obtain ⟨-,rfl⟩ | ⟨-,rfl⟩ := hr
      · exact hB
      · exact hA
    · by_cases hmr : m = r
      · simp [hmr]
      · simpa [hmr] using hf m (by omega) (by omega) (by omega)
  have hc : ((t.set r (some e)).set r' (some (.read i))).lowestFree 0 = c := by
    refine lowestFree_eq _ (Nat.zero_le c) ?_ fun m _ hm => ?_
    · rw [file_set_of_ne _ _ (by omega),file_set_of_ne _ _ (by omega)]
      exact hC
    · by_cases hmr : m = r
      · by_cases hmr' : m = r'
        · simp [hmr']
        · rw [file_set_of_ne _ _ hmr',hmr]
          simp
      · by_cases hmr' : m = r'
        · simp [hmr']
        · simpa [hmr,hmr'] using hf m hm (by omega) (by omega)
  simp [makePipe,openFile,hr',hc]
end

section
theorem duplicate_of_file {t : FdTable (End File)} {source : ℕ} {e : End File} (h : t.file source = some e) (target : ℕ) :
    duplicate t source target = t.set target (some e) := by
  simp [duplicate,dup2,h]

variable {t : FdTable (End File)} {a b c : ℕ} (h : Spare t a b c)
include h

theorem childTable_first (w : End File) (r : End File) :
    childTable none (some (a,b)) false ((t.set a (some r)).set b (some w)) =
      if b = 1 then t else t.set 1 (some w) := by
  obtain ⟨hA,hB,hC,hab,hbc,hf⟩ := h
  have hc : ((t.set a (some r)).set b (some w)).set a none = t.set b (some w) := by
    rw [set_comm _ _ _ (by omega : b ≠ a)]
    simp [t.set_eq_self hA]
  simp only [childTable,Bool.false_eq_true,if_false,close_natCast,hc]
  rw [duplicate_of_file (file_set_self t b (some w))]
  split
  · next hb => subst hb; simp [t.set_eq_self hB]
  · next hb =>
    rw [set_comm _ _ _ (by omega : (1 : ℕ) ≠ b)]
    simp [t.set_eq_self hB]

theorem childTable_middle {r r' : ℕ} (hr : r = a ∧ r' = b ∨ r = b ∧ r' = a) (e e' w : End File) :
    childTable (some r) (some (r',c)) false (((t.set r (some e)).set r' (some e')).set c (some w)) =
      if r' = 0 then (t.set 0 none).set 1 (some w) else (t.set 0 (some e)).set 1 (some w) := by
  obtain ⟨hA,hB,hC,hab,hbc,hfu⟩ := h
  have hfr : t.file r = none ∧ t.file r' = none := by
    obtain ⟨rfl,rfl⟩ | ⟨rfl,rfl⟩ := hr <;> exact ⟨by assumption,by assumption⟩
  have hrr : r ≠ r' := by omega
  have hrc : r < c ∧ r' < c ∧ 1 < c := by omega
  -- The end to read from is on 0, and nothing is left on its own number.
  have hre : (if r ≠ 0 then (duplicate (((t.set r (some e)).set r' (some e')).set c (some w)) r 0).set r none
      else ((t.set r (some e)).set r' (some e')).set c (some w)) =
      ((t.set r' (some e')).set c (some w)).set 0 (some e) := by
    split
    · next hr0 =>
      have hf : (((t.set r (some e)).set r' (some e')).set c (some w)).file r = some e := by
        rw [file_set_of_ne _ _ (by omega),file_set_of_ne _ _ hrr,file_set_self]
      rw [duplicate_of_file hf]
      ext1
      funext m
      simp only [file_set]
      grind
    · next hr0 =>
      obtain rfl : r = 0 := by omega
      ext1
      funext m
      simp only [file_set]
      grind
  have hw : ((((t.set r' (some e')).set c (some w)).set 0 (some e)).set r' none).file c = some w := by
    rw [file_set_of_ne _ _ (by omega),file_set_of_ne _ _ (by omega),file_set_self]
  simp only [childTable,Bool.false_eq_true,if_false,close_natCast,hre]
  rw [duplicate_of_file hw]
  ext1
  funext m
  split
  all_goals
    simp only [file_set]
    grind

theorem childTable_last {r : ℕ} (hr : r = a ∨ r = b) (e : End File) :
    childTable (some r) none false (t.set r (some e)) = t.set 0 (some e) := by
  obtain ⟨hA,hB,hC,hab,hbc,hfu⟩ := h
  have hf : t.file r = none := by obtain rfl | rfl := hr <;> assumption
  simp only [childTable]
  split
  · next hr0 =>
    rw [duplicate_of_file (file_set_self t r (some e)),close_natCast,set_comm _ _ _ (Ne.symm hr0)]
    simp [t.set_eq_self hf]
  · next hr0 =>
    obtain rfl : r = 0 := by omega
    rfl
end

section
variable (sys : System) (total : ℕ) (t : FdTable (End File)) (a b c : ℕ) {k : ℕ}

def held (k : ℕ) : ℕ := if k % 2 = 1 then a else b

def between (k : ℕ) : FdTable (End File) := t.set (held a b k) (some (.read (k - 1)))

def started (k : ℕ) : FdTable (End File) :=
  if k = 0 then if b = 1 then t else t.set 1 (some (.write 0))
  else if k + 1 < total then
    if held a b (k + 1) = 0 then (t.set 0 none).set 1 (some (.write k)) else (t.set 0 (some (.read (k - 1)))).set 1 (some (.write k))
  else t.set 0 (some (.read (k - 1)))

def childOf (k : ℕ) : Child File := ⟨k,(sys.fork k).getD 0,started total t a b k⟩

def before (k : ℕ) : Loop File :=
  let children := (List.range k).map (childOf sys total t a b)
  if k = 0 ∨ total ≤ k then ⟨t,none,children⟩ else ⟨between t a b k,some (held a b k),children⟩

def Succeeds (k : ℕ) : Prop := (sys.fork k).isSome ∧ (k + 1 < total → sys.pipe k)

theorem held_cases (k : ℕ) : held a b k = a ∧ held a b (k + 1) = b ∨ held a b k = b ∧ held a b (k + 1) = a := by
  unfold held
  rcases Nat.mod_two_eq_zero_or_one k with hk | hk
  · right
    simp [hk,Nat.add_mod]
  · left
    simp [hk,Nat.add_mod]

variable {sys total t a b c}

theorem before_first : before sys total t a b 0 = ⟨t,none,[]⟩ := by simp [before]

theorem before_between (hk : k ≠ 0) (hk' : k < total) : before sys total t a b k =
    ⟨between t a b k,some (held a b k),(List.range k).map (childOf sys total t a b)⟩ := by
  simp [before,hk,hk']

theorem before_end (hk : total ≤ k) : before sys total t a b k =
    ⟨t,none,(List.range k).map (childOf sys total t a b)⟩ := by
  simp [before,hk]

variable (h : Spare t a b c)
include h

theorem file_held (k : ℕ) : t.file (held a b k) = none := by
  obtain ⟨hk,-⟩ | ⟨hk,-⟩ := held_cases a b k <;> rw [hk]
  · exact h.freeA
  · exact h.freeB

theorem close_first (w : End File) :
    ((t.set a (some (.read 0))).set b (some w)).close b = between t a b 1 := by
  have hb : (t.set a (some (.read 0))).file b = none := by
    rw [file_set_of_ne _ _ (Nat.ne_of_gt h.ab)]
    exact h.freeB
  simp [between,held,set_eq_self _ hb]

theorem close_middle (k : ℕ) (w : End File) :
    (((((between t a b k).set (held a b (k + 1)) (some (.read k))).set c (some w)).close (held a b k)).close c) =
      between t a b (k + 1) := by
  obtain ⟨hA,hB,hC,hab,hbc,hf⟩ := h
  obtain ⟨hk,hk'⟩ | ⟨hk,hk'⟩ := held_cases a b k
  all_goals
    simp only [between,hk,hk',close_natCast]
    ext1
    funext m
    simp only [file_set]
    grind

theorem close_last (k : ℕ) : (between t a b k).close (held a b k) = t := by
  simp [between,t.set_eq_self (file_held h k)]

variable (htotal : 2 ≤ total)
include htotal

theorem stage_of_succeeds (hk : k < total) (hs : Succeeds sys total k) :
    stage sys false total k (before sys total t a b k) = .ok (before sys total t a b (k + 1)) := by
  obtain ⟨hf,hpi⟩ := hs
  obtain ⟨pid,hp⟩ := Option.isSome_iff_exists.mp hf
  have hch : (List.range (k + 1)).map (childOf sys total t a b) =
      (List.range k).map (childOf sys total t a b) ++ [⟨k,pid,started total t a b k⟩] := by
    simp [range_succ,childOf,hp]
  by_cases hl : k + 1 < total
  · have hn : before sys total t a b (k + 1) = _ := before_between (Nat.succ_ne_zero k) hl
    rw [hn,hch]
    by_cases hz : k = 0
    · subst hz
      have hc := childTable_first h (.write 0) (.read 0)
      simp only [before_first,stage,hl,hpi hl,if_true,makePipe_first h,startStage,hp,hc,closePrevious]
      rw [close_first h]
      simp [started,held]
    · have hh := held_cases a b k
      have hc := childTable_middle h hh (.read (k - 1)) (.read k) (.write k)
      have hcl := close_middle h k (.write k)
      simp only [between] at hcl
      simp only [before_between hz hk,between,stage,hl,hpi hl,if_true,makePipe_next h hh,startStage,hp,hc,
        closePrevious]
      rw [hcl]
      simp [started,hz,hl]
  · have hz : k ≠ 0 := by omega
    have hh := (held_cases a b k).imp And.left And.left
    have hc := childTable_last h hh (.read (k - 1))
    have hcl := close_last h k
    simp only [between] at hcl
    have he : before sys total t a b (k + 1) = _ := before_end (by omega)
    rw [he,hch]
    simp only [before_between hz hk,between,stage,hl,if_false,startStage,hp,hc,closePrevious,hcl]
    simp [started,hz,hl]

theorem stages_of_succeed (hk : k ≤ total) (hs : ∀ i < k, Succeeds sys total i) :
    stages sys false total (List.range k) ⟨t,none,[]⟩ = .ok (before sys total t a b k) := by
  induction k with
  | zero => simp [stages,before_first,pure,Except.pure]
  | succ k ih =>
    have hih := ih (by omega) fun i hi => hs i (by omega)
    simp only [stages] at hih ⊢
    simp only [range_succ,foldlM_append,hih]
    change (stage sys false total k (before sys total t a b k) >>= pure) = _
    rw [stage_of_succeeds h htotal (by omega) (hs k (by omega))]
    rfl

theorem stage_of_not_succeeds (hk : k < total) (hs : ¬Succeeds sys total k) :
    ∃ s, stage sys false total k (before sys total t a b k) = .error s ∧
      (s.table = t → k = 0 ∧ sys.pipe 0 = false) ∧ (k = 0 → sys.pipe 0 = false → s.table = t ∧ s.children = []) := by
  have hh := held_cases a b k
  have hfr := file_held h k
  have ho {u : FdTable (End File)} {fd : ℕ} (hu : u.file fd ≠ none) (ht : t.file fd = none) : u ≠ t := fun heq =>
    hu (heq ▸ ht)
  have hb : (between t a b k).file (held a b k) ≠ none := by simp [between]
  by_cases hn : k + 1 < total
  · cases hp : sys.pipe k with
    | false =>
      refine ⟨before sys total t a b k,by simp [stage,hn,hp],fun heq => ?_,?_⟩
      · by_cases hz : k = 0
        · exact ⟨hz,hz ▸ hp⟩
        · rw [before_between hz hk] at heq
          exact absurd heq (ho hb hfr)
      · rintro rfl -
        simp [before_first]
    | true =>
      have hf : sys.fork k = none := by
        simpa [Succeeds,hp] using hs
      by_cases hz : k = 0
      · subst hz
        refine ⟨_,by simp only [before_first,stage,hn,hp,if_true,makePipe_first h,startStage,hf]; rfl,fun heq => ?_,?_⟩
        · exact absurd heq (ho (by simp) h.freeB)
        · intro _ hfa
          simp [hp] at hfa
      · refine ⟨_,by simp only [before_between hz hk,between,stage,hn,hp,if_true,makePipe_next h hh,startStage,hf]; rfl,
          fun heq => ?_,fun hk0 => absurd hk0 hz⟩
        exact absurd heq (ho (by simp) h.freeC)
  · have hz : k ≠ 0 := by omega
    have hf : sys.fork k = none := by simpa [Succeeds,hn] using hs
    refine ⟨_,by simp only [before_between hz hk,stage,hn,if_false,startStage,hf]; rfl,fun heq => ?_,fun hk0 => absurd hk0 hz⟩
    exact absurd heq (ho hb hfr)
end

section
variable {sys : System} {total : ℕ} {t : FdTable (End File)} {a b c : ℕ} (h : Spare t a b c)

include h in
theorem zero_free_iff : a = 0 ↔ t.file 0 = none := by
  constructor
  · rintro rfl
    exact h.freeA
  · intro hf
    by_contra hne
    exact h.full 0 (Nat.lt_of_le_of_lt (Nat.zero_le b) h.bc) (Ne.symm hne) (by have := h.ab; omega) hf

include h in
theorem one_free_iff : b = 1 ↔ t.file 0 = none ∧ t.file 1 = none := by
  have hab := h.ab
  have hbc := h.bc
  constructor
  · rintro rfl
    obtain rfl : a = 0 := by omega
    exact ⟨h.freeA,h.freeB⟩
  · rintro ⟨hz,ho⟩
    obtain rfl := (zero_free_iff h).mpr hz
    by_contra hne
    exact h.full 1 (by omega) (by omega) (Ne.symm hne) ho

def NoPipes (t : FdTable (End File)) : Prop := ∀ fd e, t.file fd = some e → e.isPipe = false

theorem noPipes_inherited (t : FdTable File) : NoPipes (inherited t) := by
  intro fd e he
  obtain ⟨file,-,rfl⟩ := Option.map_eq_some_iff.mp he
  rfl

theorem plumbed_of_file (ht : NoPipes t) {child : Child File}
    (h : ∀ fd, child.table.file fd = if fd = 0 ∧ 0 < child.stage then some (.read (child.stage - 1))
      else if fd = 1 ∧ child.stage + 1 < total then some (.write child.stage) else t.file fd) : child.Plumbed total := by
  refine ⟨fun k hk => by simp [h,hk],fun hn => by simp [h,hn],fun fd e he hp => ?_⟩
  rw [h fd] at he
  split at he
  · next h0 => exact .inl h0
  · split at he
    · next h1 => exact .inr h1
    · simp [ht fd e he] at hp

include h in
theorem plumbed_childOf_iff (ht : NoPipes t) {k : ℕ} (htotal : 2 ≤ total) (hk : k < total) :
    (childOf sys total t a b k).Plumbed total ↔
      (k = 0 → b ≠ 1) ∧ (k ≠ 0 → k + 1 < total → held a b (k + 1) ≠ 0) := by
  constructor
  · rintro ⟨hr,hw,-⟩
    refine ⟨?_,fun hz hn hh => ?_⟩
    · rintro rfl hb
      have ho := ((one_free_iff h).mp hb).2
      simpa [childOf,started,hb,ho] using hw (by simp only [childOf]; omega)
    · obtain ⟨j,rfl⟩ := Nat.exists_eq_succ_of_ne_zero hz
      have hfi := hr j rfl
      simp [childOf,started,hn,hh] at hfi
  · rintro ⟨hf,hm⟩
    refine plumbed_of_file ht fun fd => ?_
    simp only [childOf,started]
    by_cases hz : k = 0
    · simp only [hz,hf hz,if_true,if_false,file_set]
      grind
    · by_cases hn : k + 1 < total
      · simp only [hz,hn,hm hz hn,if_true,if_false,file_set]
        grind
      · simp only [hz,hn,if_false,file_set]
        grind

include h in
theorem all_plumbed_iff (ht : NoPipes t) (htotal : 2 ≤ total) :
    (∀ k < total, (childOf sys total t a b k).Plumbed total) ↔ t.file 0 ≠ none ∨ t.file 1 ≠ none ∧ total ≤ 3 := by
  have hz := zero_free_iff h
  have hon := one_free_iff h
  have hab := h.ab
  constructor
  · intro hal
    have hb : b ≠ 1 := ((plumbed_childOf_iff h ht htotal (by omega)).mp (hal 0 (by omega))).1 rfl
    by_cases hf : t.file 0 = none
    · refine .inr ⟨fun h1 => hb (hon.mpr ⟨hf,h1⟩),?_⟩
      by_contra hl
      -- The third stage of four makes its pipe when 0 is free again.
      have hth := ((plumbed_childOf_iff h ht htotal (by omega)).mp (hal 2 (by omega))).2 (by omega) (by omega)
      exact hth (by simpa [held] using hz.mpr hf)
    · exact .inl hf
  · intro ho k hk
    refine (plumbed_childOf_iff h ht htotal hk).mpr ⟨fun _ hb => ?_,fun hk0 hn hh => ?_⟩
    · obtain ho | ho := ho
      · exact ho (hon.mp hb).1
      · exact ho.1 (hon.mp hb).2
    · obtain ⟨-,heq⟩ | ⟨he,heq⟩ := held_cases a b k
      · omega
      · have ha : a = 0 := by omega
        obtain ho | ho := ho
        · exact ho (hz.mp ha)
        · -- Of three stages only the second is in the middle.
          obtain rfl : k = 1 := by omega
          have hab' : a = b := by simpa [held] using he
          omega

theorem clean_iff_of_succeed (pipefail : Bool) (t : FdTable File) (htotal : 2 ≤ total)
    (ha : ∀ k < total, Succeeds sys total k) :
    (execute sys false total pipefail (inherited t)).Clean total (inherited t) ↔
      t.file 0 ≠ none ∨ t.file 1 ≠ none ∧ total ≤ 3 := by
  obtain ⟨a,b,c,h⟩ := exists_spare (inherited t)
  have hr := stages_of_succeed h htotal (Nat.le_refl total) ha
  have hp : (∀ k < total, (childOf sys total (inherited t) a b k).Plumbed total) ↔ _ :=
    all_plumbed_iff h (noPipes_inherited t) htotal
  have hc : (execute sys false total pipefail (inherited t)).Clean total (inherited t) ↔
      ∀ k < total, (childOf sys total (inherited t) a b k).Plumbed total := by
    simp only [execute,hr,before_end (Nat.le_refl total),Outcome.Clean,mem_map,mem_range,forall_exists_index,
      and_imp,forall_apply_eq_imp_iff₂,true_and,and_iff_left_iff_imp]
    exact fun _ k hk => ⟨_,⟨k,hk,rfl⟩,rfl⟩
  simpa [inherited] using hc.trans hp

theorem clean_iff_of_fails (pipefail : Bool) (t : FdTable File) (htotal : 2 ≤ total) {k : ℕ} (hk : k < total)
    (hfa : ¬Succeeds sys total k) (hf : ∀ i < k, Succeeds sys total i) :
    (execute sys false total pipefail (inherited t)).Clean total (inherited t) ↔ sys.pipe 0 = false := by
  obtain ⟨a,b,c,h⟩ := exists_spare (inherited t)
  obtain ⟨s,hs,hsa,hz⟩ := stage_of_not_succeeds h htotal hk hfa
  have hru : stages sys false total (List.range total) ⟨inherited t,none,[]⟩ = .error s := by
    have hb := stages_of_succeed h htotal (Nat.le_of_lt hk) hf
    obtain ⟨rest,hr⟩ : ∃ rest, List.range total = List.range k ++ k :: rest := by
      obtain ⟨m,rfl⟩ := Nat.exists_eq_add_of_lt hk
      refine ⟨(List.range m).map (k + 1 + ·),?_⟩
      rw [Nat.add_assoc,range_add,range_succ_eq_map]
      simp [Function.comp_def,Nat.add_assoc,Nat.add_comm 1]
    simp only [stages] at hb ⊢
    simp only [hr,foldlM_append,hb]
    change (stage sys false total k (before sys total (inherited t) a b k) >>= _) = _
    rw [hs]
    rfl
  have hcl : (execute sys false total pipefail (inherited t)).Clean total (inherited t) ↔
      (∀ c ∈ s.children, c.Plumbed total) ∧ s.table = inherited t ∧ ∀ c ∈ s.children, c.pid ∈ [] := by
    simp only [execute,hru,Outcome.Clean]
  rw [hcl]
  constructor
  · exact fun ho => (hsa ho.2.1).2
  · intro hp
    have hk0 : k = 0 := by
      by_contra hne
      have hm := (hf 0 (by omega)).2 (by omega)
      simp [hp] at hm
    obtain ⟨ht,hc⟩ := hz hk0 hp
    simp [ht,hc]

/-- A pipeline is plumbed as it should be exactly where its first pipe fails, or no call fails and
the low descriptors are open. -/
theorem pipeline_clean_iff (sys : System) (total : ℕ) (pipefail : Bool) (t : FdTable File) (htotal : 2 ≤ total) :
    (execute sys false total pipefail (inherited t)).Clean total (inherited t) ↔
      sys.pipe 0 = false ∨
        (∀ k < total, (sys.fork k).isSome ∧ (k + 1 < total → sys.pipe k)) ∧
          (t.file 0 ≠ none ∨ t.file 1 ≠ none ∧ total ≤ 3) := by
  by_cases hall : ∀ k < total, Succeeds sys total k
  · have hpipe : sys.pipe 0 := (hall 0 (by omega)).2 (by omega)
    simp only [clean_iff_of_succeed pipefail t htotal hall,hpipe,Bool.true_eq_false,false_or]
    exact ⟨fun hopen => ⟨hall,hopen⟩,And.right⟩
  · obtain ⟨k,⟨hk,hfails⟩,hfirst⟩ : ∃ k, (k < total ∧ ¬Succeeds sys total k) ∧ ∀ i < k, Succeeds sys total i := by
      push Not at hall
      classical
      refine ⟨Nat.find hall,Nat.find_spec hall,fun i hi => ?_⟩
      have hlt := (Nat.find_spec hall).1
      by_contra hnot
      exact Nat.find_min hall hi ⟨by omega,hnot⟩
    rw [clean_iff_of_fails pipefail t htotal hk hfails hfirst]
    exact ⟨.inl,Or.rec id fun hsucceeds => absurd (hsucceeds.1 k hk) hfails⟩

def openBetween (low high : ℕ) : FdTable Unit where
  file n := if low ≤ n ∧ n < high then some () else none
  finite := ⟨high,fun m hm => by simp; omega⟩

def refusing (stage : Option ℕ) : System where
  pipe _ := true
  fork k := if stage = some k then none else some (100 + k)
  wait _ := 0

theorem two_stages_are_clean : (execute (refusing none) false 2 false (inherited (openBetween 0 3))).Clean 2
    (inherited (openBetween 0 3)) :=
  (pipeline_clean_iff (refusing none) 2 false (openBetween 0 3) (by decide)).mpr
    (.inr ⟨by simp [refusing],.inl (by decide)⟩)

/-- With 0 and 1 closed the first child closes its own end; a failed stage leaves pipes and a
child behind. -/
theorem closed_descriptors_are_not_clean :
    ¬(execute (refusing none) false 2 false (inherited (openBetween 2 3))).Clean 2 (inherited (openBetween 2 3)) ∧
      ¬(execute (refusing (some 1)) false 2 false (inherited (openBetween 0 3))).Clean 2 (inherited (openBetween 0 3)) := by
  have hsucceed : ∀ k < 2, Succeeds (refusing none) 2 k := fun k _ => by simp [Succeeds,refusing]
  have hfails : ¬Succeeds (refusing (some 1)) 2 1 := by simp [Succeeds,refusing]
  have hfirst : ∀ i < 1, Succeeds (refusing (some 1)) 2 i := fun i hi => by
    obtain rfl : i = 0 := by omega
    simp [Succeeds,refusing]
  refine ⟨fun hclean => ?_,fun hclean => ?_⟩
  · have hopen := (clean_iff_of_succeed false (openBetween 2 3) (by decide) hsucceed).mp hclean
    simp [openBetween] at hopen
  · have hpipe := (clean_iff_of_fails false (openBetween 0 3) (by decide) (by decide) hfails hfirst).mp hclean
    simp [refusing] at hpipe
end
end Cherubsh.Exec.Plumbing
