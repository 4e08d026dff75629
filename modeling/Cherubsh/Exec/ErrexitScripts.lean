import Cherubsh.Exec.ErrexitRuns

/-! # Every end is reached

A script is a list of answers of the world. For each end that a tree allows there is a script that
makes the tree end that way and uses up its answers; two rounds of a loop are enough.
-/
namespace Cherubsh.Exec.Errexit
open End Ends
variable {C W : Type}

section
inductive Answer where
  | reply (reply : Reply)
  | items (count : ℕ)
  | found (found : Bool)

def scripted : World C W (List Answer) where
  simple _ script := match script with
    | .reply reply :: rest => (reply,rest)
    | script => (.status 0,script)
  items _ script := match script with
    | .items count :: rest => (List.replicate count "",rest)
    | script => ([],script)
  assign _ _ script := script
  word _ script := ("",script)
  patternListMatches _ _ script := match script with
    | .found found :: rest => (found,rest)
    | script => (false,script)

abbrev Scripted (C : Type) := State (Bool × C) (List Answer)
abbrev Played (C : Type) := Run (Bool × C) (List Answer)

structure Target where
  kind : LoopControl
  levels : ℕ

def Target.Fits (depth : ℕ) (t : Target) : End → Prop
  | .unwound _ => 1 ≤ t.levels ∧ t.levels ≤ depth
  | _ => True

def Meets (t : Target) (r : ℤ × Scripted C) : End → Prop
  | .done ok => r.2.pending = none ∧ decide (r.1 = 0) = ok
  | .unwound ok => r.2.pending = some (.control t.kind t.levels) ∧ decide (r.1 = 0) = ok
  | .slipped => Exits r.2

structure Hit (sup depth : ℕ) (e : End) (t : Target) (rest : List Answer) (r : ℤ × Scripted C) : Prop where
  suppressed : r.2.errexitSuppressed = sup
  loops : r.2.loopDepth = depth
  clean : ¬FailedUntested r.2
  world : r.2.world = rest
  meets : Meets t r e

/-- Some script makes the statement true, whatever is behind it. -/
def Scriptable (sup depth : ℕ) (P : List Answer → Scripted C → Prop) : Prop :=
  ∃ script,∀ rest s,Ready sup depth s → s.world = script ++ rest → P rest s

/-- Some script makes the run end in the given way, whatever is behind it. -/
def Reached (sup depth : ℕ) (run : Run (Bool × C) (List Answer)) (e : End) : Prop :=
  ∀ t : Target,t.Fits depth e → ∃ script,∀ rest s,Ready sup depth s → s.world = script ++ rest → Hit sup depth e t rest (run s)

def Full (sup depth : ℕ) (S : Ends) (run : Run (Bool × C) (List Answer)) : Prop := ∀ e,S e → Reached sup depth run e

/-- The same for what follows a run; the script may only depend on whether that failed. -/
def FullFrom (sup depth : ℕ) (next : Bool → Ends) (k : ℤ → Run (Bool × C) (List Answer)) : Prop :=
  ∀ ok e,next ok e → ∀ t : Target,t.Fits depth e → ∃ script,∀ status : ℤ,decide (status = 0) = ok →
    ∀ rest s,Ready sup depth s → s.world = script ++ rest → Hit sup depth e t rest (k status s)

variable {sup depth : ℕ} {S T B : Ends} {run whole : Played C} {e : End} {t : Target}
variable {rest behind : List Answer} {next : Bool → Ends} {k : ℤ → Played C}

theorem Scriptable.imp {P Q : List Answer → Scripted C → Prop} (h : Scriptable sup depth P)
    (hPQ : ∀ rest s,Ready sup depth s → P rest s → Q rest s) : Scriptable sup depth Q := by
  obtain ⟨script,hsc⟩ := h
  exact ⟨script,fun rest s hs hw => hPQ rest s hs (hsc rest s hs hw)⟩

theorem Scriptable.trans {F : Scripted C → Scripted C → Prop} {P Q : List Answer → Scripted C → Prop}
    (h : Scriptable sup depth fun rest s => ∃ s',Ready sup depth s' ∧ s'.world = rest ∧ F s s') (hP : Scriptable sup depth P)
    (hQ : ∀ rest s s',F s s' → P rest s' → Q rest s) : Scriptable sup depth Q := by
  obtain ⟨first,hf⟩ := h
  obtain ⟨second,hse⟩ := hP
  refine ⟨first ++ second,fun rest s hs hw => ?_⟩
  obtain ⟨s',hr,hwo,hF⟩ := hf (second ++ rest) s hs (by rw [hw,List.append_assoc])
  exact hQ rest s s' hF (hse rest s' hr hwo)

theorem Hit.ready {ok : Bool} {r : ℤ × Scripted C} (h : Hit sup depth (done ok) t rest r) : Ready sup depth r.2 :=
  ⟨h.meets.1,h.suppressed,h.loops,h.clean⟩

theorem Hit.isSome {r : ℤ × Scripted C} (h : Hit sup depth e t rest r) (he : ∀ ok,e ≠ done ok) : r.2.pending.isSome := by
  have hm := h.meets
  cases e with
  | done ok => exact absurd rfl (he ok)
  | unwound ok => simp [hm.1]
  | slipped =>
    obtain ⟨status,hp⟩ := hm
    simp [hp]

theorem Hit.kept {r x : ℤ × Scripted C} (h : Hit sup depth e t behind r) (hx : Kept r x) (hw : x.2.world = rest) :
    Hit sup depth e t rest x := by
  have hc : ¬FailedUntested x.2 := by
    unfold FailedUntested
    rw [hx.ran]
    exact h.clean
  have hm := h.meets
  refine ⟨hx.suppressed.trans h.suppressed,hx.loops.trans h.loops,hc,hw,?_⟩
  cases e with
  | done ok | unwound ok => exact ⟨hx.pending.trans hm.1,by rw [hx.status]; exact hm.2⟩
  | slipped =>
    obtain ⟨status,hp⟩ := hm
    exact ⟨status,hx.pending.trans hp⟩

theorem full_tested (h : Full (sup + 1) depth S run) : Full sup depth S (tested run) := by
  intro e he t ht
  obtain ⟨script,hsc⟩ := h e he t ht
  refine ⟨script,fun rest s hs hw => ?_⟩
  have hh := hsc rest s.suppress hs.suppress hw
  have hsu : (tested run s).2.errexitSuppressed = sup := by
    simp [tested,State.allow,hh.suppressed]
  have hm := hh.meets
  refine ⟨hsu,hh.loops,hh.clean,hh.world,?_⟩
  cases e <;> exact hm

theorem fullFrom_only : FullFrom sup depth only fun status (s : Scripted C) => (status,s) := by
  intro ok e he t _
  obtain rfl : e = done ok := by simpa [only] using he
  exact ⟨[],fun status hst rest s hs hw => ⟨hs.suppressed,hs.loops,hs.clean,hw,hs.pending,hst⟩⟩

theorem full_only (status : ℤ) : Full sup depth (only (status = 0)) fun s : Scripted C => (status,s) := by
  intro e he t ht
  obtain ⟨script,hs⟩ := fullFrom_only (C := C) (decide (status = 0)) e he t ht
  exact ⟨script,hs status rfl⟩

theorem Full.andThen (h : Full sup depth S run) (hk : FullFrom sup depth next k)
    (hn : ∀ s,(run s).2.pending = none → whole s = k (run s).1 (run s).2)
    (hso : ∀ rest s,(run s).2.pending.isSome → (run s).2.world = behind ++ rest → Kept (run s) (whole s) ∧ (whole s).2.world = rest) :
    Full sup depth (S.andThen next) whole := by
  intro e he t ht
  have hc : (∃ ok,S (done ok) ∧ next ok e) ∨ ((∀ ok,e ≠ done ok) ∧ S e) := by
    unfold Ends.andThen at he
    simp only [Bool.or_eq_true,Bool.and_eq_true] at he
    rcases he with (⟨h1,h2⟩ | ⟨h1,h2⟩) | h3
    · exact .inl ⟨true,h1,h2⟩
    · exact .inl ⟨false,h1,h2⟩
    · cases e with
      | done ok => cases h3
      | unwound ok | slipped => exact .inr ⟨by simp,h3⟩
  rcases hc with ⟨ok,hS,hnx⟩ | ⟨hne,hS⟩
  · obtain ⟨first,hf⟩ := h (done ok) hS t trivial
    obtain ⟨second,hse⟩ := hk ok e hnx t ht
    refine ⟨first ++ second,fun rest s hs hw => ?_⟩
    have hh := hf (second ++ rest) s hs (by rw [hw,List.append_assoc])
    rw [hn s hh.meets.1]
    exact hse _ hh.meets.2 rest _ hh.ready hh.world
  · obtain ⟨script,hsc⟩ := h e hS t ht
    refine ⟨script ++ behind,fun rest s hs hw => ?_⟩
    have hh := hsc (behind ++ rest) s hs (by rw [hw,List.append_assoc])
    obtain ⟨hke,hwo⟩ := hso rest s (hh.isSome hne) hh.world
    exact hh.kept hke hwo

theorem Full.andThen_ite {pend : Played C} (h : Full sup depth S run) (hk : FullFrom sup depth next k)
    (hp : ∀ s,Kept (run s) (pend s) ∧ (pend s).2.world = (run s).2.world) :
    Full sup depth (S.andThen next) fun s => if (run s).2.pending.isSome then pend s else k (run s).1 (run s).2 := by
  apply h.andThen hk
  · intro s hs
    simp [hs]
  · intro rest s hs hw
    rw [if_pos hs]
    exact ⟨(hp s).1,(hp s).2.trans (show _ = [] ++ rest from hw)⟩

theorem fullFrom_choice {Y N : Bool → Ends} {yes no : ℤ → Played C} (hy : FullFrom sup depth Y yes)
    (hno : FullFrom sup depth N no) :
    FullFrom sup depth (fun ok => if ok then Y true else N false) fun status s =>
      if status = 0 then yes status s else no status s := by
  intro ok e he t ht
  cases ok with
  | true =>
    obtain ⟨script,hsc⟩ := hy true e he t ht
    refine ⟨script,fun status hst rest s hs hw => ?_⟩
    have h0 : status = 0 := by simpa using hst
    simp only [h0,if_true]
    exact hsc 0 rfl rest s hs hw
  | false =>
    obtain ⟨script,hsc⟩ := hno false e he t ht
    refine ⟨script,fun status hst rest s hs hw => ?_⟩
    have h0 : status ≠ 0 := by simpa using hst
    simp only [h0,if_false]
    exact hsc status hst rest s hs hw

theorem full_choice {Y N : Bool → Ends} {yes no : ℤ → Played C} (h : Full sup depth S run)
    (hy : FullFrom sup depth Y yes) (hno : FullFrom sup depth N no) :
    Full sup depth (S.andThen fun ok => if ok then Y true else N false) fun s =>
      if (run s).2.pending.isSome then run s else if (run s).1 = 0 then yes (run s).1 (run s).2 else no (run s).1 (run s).2 :=
  h.andThen_ite (fullFrom_choice hy hno) fun _ => ⟨Kept.refl _,rfl⟩

theorem Full.from (h : Full sup depth S run) : FullFrom sup depth (fun _ => S) fun _ => run := by
  intro ok e he t ht
  obtain ⟨script,hs⟩ := h e he t ht
  exact ⟨script,fun _ _ => hs⟩
end

section
variable {sup depth : ℕ} {T B : Ends} {invert : Bool} {test action : Played C} {ok : Bool} {e : End} {t : Target} {rest : List Answer}

theorem Hit.cleared {kind : LoopControl} {r : ℤ × Scripted C} (h : Hit sup depth (unwound ok) ⟨kind,1⟩ rest r) :
    Ready sup depth {r.2 with pending := none} := ⟨rfl,h.suppressed,h.loops,h.clean⟩

def afterCondition (invert : Bool) (test action : Run (Bool × C) (List Answer)) (n : ℕ) : Run (Bool × C) (List Answer) := fun s =>
  match handleLoopUnwind (action s).2 with
  | (true,s') => ((action s).1,s')
  | (false,s') => rounds invert test action n (action s).1 s'

theorem rounds_go (action : Played C) (h : Full sup (depth + 1) T (tested test)) (hgo : goesOn invert T) :
    Scriptable sup (depth + 1) fun rest s => ∃ s',Ready sup (depth + 1) s' ∧ s'.world = rest ∧ ∀ n status,
      rounds invert test action (n + 1) status s = afterCondition invert test action n s' := by
  have hc : T (done !invert) ∨ (invert ∧ T (unwound false)) := by simpa [goesOn] using hgo
  rcases hc with hT | ⟨rfl,hT⟩
  · refine Scriptable.imp (h _ hT ⟨.brk,1⟩ trivial) fun rest s hs hh => ?_
    refine ⟨(tested test s).2,hh.ready,hh.world,fun n status => ?_⟩
    have hgo : if invert then (tested test s).1 ≠ 0 else (tested test s).1 = 0 := by
      have hok := hh.meets.2
      cases invert <;> simpa using hok
    simp only [rounds,handleLoopConditionUnwind,hh.meets.1,if_pos hgo,afterCondition]
    rcases handleLoopUnwind (action (tested test s).2).2 with ⟨_ | _,s'⟩ <;> rfl
  · refine Scriptable.imp (h _ hT ⟨.cont,1⟩ ⟨Nat.le_refl 1,Nat.succ_pos depth⟩) fun rest s hs hh => ?_
    refine ⟨_,hh.cleared,hh.world,fun n status => ?_⟩
    have hgo : (tested test s).1 ≠ 0 := by simpa using hh.meets.2
    simp only [rounds,handleLoopConditionUnwind,hh.meets.1,if_true,ne_eq,hgo,not_false_eq_true,afterCondition]
    rcases handleLoopUnwind (action {(tested test s).2 with pending := none}).2 with ⟨_ | _,s'⟩ <;> rfl

theorem rounds_end (action : Played C) (h : Full sup (depth + 1) T (tested test)) (he : comesToEnd invert T) :
    Scriptable sup (depth + 1) fun rest s => ∃ s',Ready sup (depth + 1) s' ∧ s'.world = rest ∧ ∀ n status,
      rounds invert test action (n + 1) status s = (status,s') := by
  have hc : T (done invert) ∨ ∃ ok,T (unwound ok) := by
    rw [← unwinds_iff]
    simpa [comesToEnd] using he
  rcases hc with hT | ⟨ok,hT⟩
  · refine Scriptable.imp (h _ hT ⟨.brk,1⟩ trivial) fun rest s hs hh => ?_
    refine ⟨(tested test s).2,hh.ready,hh.world,fun n status => ?_⟩
    have hst : ¬if invert then (tested test s).1 ≠ 0 else (tested test s).1 = 0 := by
      have hok := hh.meets.2
      cases invert <;> simpa using hok
    simp only [rounds,handleLoopConditionUnwind,hh.meets.1,if_neg hst]
  · refine Scriptable.imp (h _ hT ⟨.brk,1⟩ ⟨Nat.le_refl 1,Nat.succ_pos depth⟩) fun rest s hs hh => ?_
    refine ⟨_,hh.cleared,hh.world,fun n status => ?_⟩
    simp only [rounds,handleLoopConditionUnwind,hh.meets.1]

def leaving (r : ℤ × Scripted C) : ℤ × Scripted C := (r.1,r.2.leave)

theorem reached_enter (run : Played C) (h : ∀ t : Target,t.Fits depth e →
    Scriptable sup (depth + 1) fun rest s => Hit sup depth e t rest (leaving (run s))) :
    Reached sup depth (fun s => leaving (run s.enter)) e := by
  intro t ht
  obtain ⟨script,hsc⟩ := h t ht
  exact ⟨script,fun rest s hs hw => hsc rest s.enter hs.enter hw⟩

theorem Target.Fits.levels (h : t.Fits depth (unwound ok)) : ∃ kind l,t = ⟨kind,l + 1⟩ ∧ l + 1 ≤ depth := by
  obtain ⟨hp,hle⟩ := h
  exact ⟨t.kind,t.levels - 1,by rw [Nat.sub_add_cancel hp],by omega⟩

theorem rounds_unwind (invert : Bool) (action : Played C) (h : Full sup (depth + 1) T (tested test))
    (hu : unwinds T) (ht : t.Fits depth (unwound ok)) :
    Scriptable sup (depth + 1) fun rest s => ∀ n (status : ℤ),decide (status = 0) = ok →
      Hit sup depth (unwound ok) t rest (leaving (rounds invert test action (n + 1) status s)) := by
  obtain ⟨ok',hT⟩ := unwinds_iff.mp hu
  obtain ⟨kind,l,rfl,hle⟩ := ht.levels
  refine Scriptable.imp (h _ hT ⟨kind,l + 2⟩ ⟨Nat.succ_pos (l + 1),Nat.succ_le_succ hle⟩) fun rest s hs hh n status hst => ?_
  have hr : rounds invert test action (n + 1) status s =
      (status,{(tested test s).2 with pending := some (.control kind (l + 1))}) := by
    cases kind <;> simp only [rounds,handleLoopConditionUnwind,hh.meets.1] <;> rfl
  rw [hr]
  exact ⟨hh.suppressed,Nat.sub_eq_of_eq_add hh.loops,hh.clean,hh.world,rfl,hst⟩

theorem action_next (h : Full sup (depth + 1) B action) (hB : (B (done ok) || B (unwound ok))) :
    Scriptable sup (depth + 1) fun rest s => ∃ s',Ready sup (depth + 1) s' ∧ s'.world = rest ∧
      handleLoopUnwind (action s).2 = (false,s') ∧ decide ((action s).1 = 0) = ok := by
  rcases Bool.or_eq_true_iff.mp hB with hB | hB
  · refine Scriptable.imp (h _ hB ⟨.brk,1⟩ trivial) fun rest s hs hh => ?_
    refine ⟨(action s).2,hh.ready,hh.world,?_,hh.meets.2⟩
    rw [handleLoopUnwind,hh.meets.1]
  · refine Scriptable.imp (h _ hB ⟨.cont,1⟩ ⟨Nat.le_refl 1,Nat.succ_pos depth⟩) fun rest s hs hh => ?_
    refine ⟨_,hh.cleared,hh.world,?_,hh.meets.2⟩
    rw [handleLoopUnwind,hh.meets.1]
    rfl

theorem action_stop (h : Full sup (depth + 1) B action) (he : stopped (0 < depth) B e)
    (ht : t.Fits depth e) : Scriptable sup (depth + 1) fun rest s =>
      ∃ s',handleLoopUnwind (action s).2 = (true,s') ∧ Hit sup depth e t rest (leaving ((action s).1,s')) := by
  cases e with
  | done ok =>
    refine Scriptable.imp (h (unwound ok) he ⟨.brk,1⟩ ⟨Nat.le_refl 1,Nat.succ_pos depth⟩) fun rest s hs hh => ?_
    refine ⟨{(action s).2 with pending := none},?_,hh.suppressed,Nat.sub_eq_of_eq_add hh.loops,hh.clean,hh.world,rfl,hh.meets.2⟩
    rw [handleLoopUnwind,hh.meets.1]
    rfl
  | unwound ok =>
    obtain ⟨kind,l,rfl,hle⟩ := ht.levels
    have hB : B (unwound ok) := by
      simp only [stopped,Bool.and_eq_true] at he
      exact he.2
    refine Scriptable.imp (h (unwound ok) hB ⟨kind,l + 2⟩ ⟨Nat.succ_pos (l + 1),Nat.succ_le_succ hle⟩) fun rest s hs hh => ?_
    refine ⟨{(action s).2 with pending := some (.control kind (l + 1))},?_,hh.suppressed,Nat.sub_eq_of_eq_add hh.loops,hh.clean,
      hh.world,rfl,hh.meets.2⟩
    rw [handleLoopUnwind,hh.meets.1]
    cases kind <;> rfl
  | slipped =>
    refine Scriptable.imp (h slipped he t trivial) fun rest s hs hh => ?_
    obtain ⟨status,hp⟩ := hh.meets
    refine ⟨(action s).2,?_,hh.suppressed,Nat.sub_eq_of_eq_add hh.loops,hh.clean,hh.world,status,hp⟩
    rw [handleLoopUnwind,hp]

theorem Ready.hit_done {status : ℤ} {s : Scripted C} (h : Ready sup (depth + 1) s)
    (hw : s.world = rest) (hok : decide (status = 0) = ok) : Hit sup depth (done ok) t rest (leaving (status,s)) :=
  ⟨h.suppressed,Nat.sub_eq_of_eq_add h.loops,h.clean,hw,h.pending,hok⟩

section
variable (htest : Full sup (depth + 1) T (tested test)) (haction : Full sup (depth + 1) B action) (n : ℕ)
include htest haction

theorem reached_stop (hgo : goesOn invert T) (he : stopped (0 < depth) B e) :
    Reached sup depth (fun s => leaving (rounds invert test action (n + 1) 0 s.enter)) e := by
  refine reached_enter (rounds invert test action (n + 1) 0) fun t ht => ?_
  refine (rounds_go action htest hgo).trans (action_stop haction he ht) fun rest s s₁ hr hs => ?_
  obtain ⟨s₂,hu,hh⟩ := hs
  simpa only [hr,afterCondition,hu] using hh

theorem rounds_failure (hf : leavesFailure invert T B) :
    Scriptable sup (depth + 1) fun rest s => ∃ s',Ready sup (depth + 1) s' ∧ s'.world = rest ∧ ∃ status : ℤ,
      decide (status = 0) = false ∧ rounds invert test action (n + 1) 0 s = rounds invert test action n status s' := by
  obtain ⟨hgo,hB⟩ : goesOn invert T ∧ (B (done false) || B (unwound false)) := by
    simpa [leavesFailure] using hf
  refine (rounds_go action htest hgo).trans (action_next haction hB) fun rest s s₁ hr hn => ?_
  obtain ⟨s₂,hre,hw,hu,hs⟩ := hn
  refine ⟨s₂,hre,hw,(action s₁).1,hs,?_⟩
  rw [hr,afterCondition,hu]

theorem full_loop : Full sup depth (Ends.loop invert (0 < depth) T B)
    fun s => leaving (rounds invert test action (n + 2) 0 s.enter) := by
  have hs : ∀ e,goesOn invert T → stopped (0 < depth) B e → Reached sup depth
      (fun s => leaving (rounds invert test action (n + 2) 0 s.enter)) e :=
    fun e hgo he => reached_stop htest haction (n + 1) hgo he
  intro e he
  rcases e with ⟨_ | _⟩ | ⟨_ | _⟩ | _
  · simp only [Ends.loop,Bool.or_eq_true,Bool.and_eq_true] at he
    rcases he with ⟨hf,hen⟩ | ⟨hgo,hB⟩
    · refine reached_enter (rounds invert test action (n + 2) 0) fun t _ => ?_
      refine (rounds_failure htest haction (n + 1) hf).trans (rounds_end action htest hen) ?_
      rintro rest s s₁ ⟨status,hst,hr⟩ ⟨s₂,hre,hw,hen⟩
      rw [hr,hen]
      exact hre.hit_done hw hst
    · exact hs _ hgo hB
  · simp only [Ends.loop,Bool.or_eq_true,Bool.and_eq_true] at he
    rcases he with hen | ⟨hgo,hB⟩
    · refine reached_enter (rounds invert test action (n + 2) 0) fun t _ => (rounds_end action htest hen).imp ?_
      rintro rest s - ⟨s₁,hre,hw,hr⟩
      rw [hr]
      exact hre.hit_done hw rfl
    · exact hs _ hgo hB
  · simp only [Ends.loop,Bool.or_eq_true,Bool.and_eq_true] at he
    obtain ⟨hd,⟨hf,hu⟩ | ⟨hgo,hB⟩⟩ := he
    · refine reached_enter (rounds invert test action (n + 2) 0) fun t ht => ?_
      refine (rounds_failure htest haction (n + 1) hf).trans (rounds_unwind invert action htest hu ht) ?_
      rintro rest s s₁ ⟨status,hst,hr⟩ hh
      rw [hr]
      exact hh n status hst
    · exact hs _ hgo (by simp [stopped,hB,hd])
  · simp only [Ends.loop,Bool.or_eq_true,Bool.and_eq_true] at he
    obtain ⟨hd,hu | ⟨hgo,hB⟩⟩ := he
    · refine reached_enter (rounds invert test action (n + 2) 0) fun t ht => ?_
      exact (rounds_unwind invert action htest hu ht).imp fun rest s _ hh => hh (n + 1) 0 rfl
    · exact hs _ hgo (by simp [stopped,hB,hd])
  · simp only [Ends.loop,Bool.and_eq_true] at he
    exact hs _ he.1 he.2
end

theorem full_forItems (haction : Full sup (depth + 1) B action) (he : Ends.forIn (0 < depth) B e)
    (ht : t.Fits depth e) : ∃ count,Scriptable sup (depth + 1) fun rest s =>
      Hit sup depth e t rest (leaving (forItems (fun _ world => world) action (List.replicate count "") 0 s)) := by
  have hst : stopped (0 < depth) B e → ∃ count,Scriptable sup (depth + 1) fun rest s =>
      Hit sup depth e t rest (leaving (forItems (fun _ world => world) action (List.replicate count "") 0 s)) := by
    intro hB
    refine ⟨1,(action_stop haction hB ht).imp ?_⟩
    rintro rest s - ⟨s₁,hu,hh⟩
    simpa only [List.replicate,forItems,hu] using hh
  rcases e with ⟨_ | _⟩ | ok | _
  · have hB : (B (done false) || B (unwound false)) := by simpa [Ends.forIn] using he
    refine ⟨1,(action_next haction hB).imp ?_⟩
    rintro rest s - ⟨s₁,hr,hwo,hu,hsa⟩
    simp only [List.replicate,forItems,hu]
    exact hr.hit_done hwo hsa
  · exact ⟨0,[],fun rest s hs hw => hs.hit_done hw rfl⟩
  · exact hst he
  · exact hst he
end

section
variable {sup depth : ℕ} {S : Ends} {n : ℕ} {action : Command (Bool × C) W}

theorem full_runSimple (c : C) : Full sup depth (Ends.simple (0 < sup) (0 < depth))
    (runSimple (scripted (W := W)) (decide (0 < sup),c)) := by
  intro e he t ht
  cases e with
  | done ok =>
    have hok : ok ∨ 0 < sup := by simpa [Ends.simple] using he
    refine ⟨[.reply (.status (if ok then 0 else 1))],fun rest s hs hw => ?_⟩
    have hr : runSimple (scripted (W := W)) (decide (0 < sup),c) s = (if ok then 0 else 1,
        {s with world := rest,ran := s.ran ++ [((decide (0 < sup),c),if ok then 0 else 1)]}) := by
      simp [runSimple,scripted,hw]
    rw [hr]
    refine ⟨hs.suppressed,hs.loops,failedUntested_append hs.clean ?_ rfl,rfl,hs.pending,?_⟩
    · rcases hok with hok | hok <;> simp [hok]
    · cases ok <;> simp
  | unwound ok =>
    obtain ⟨rfl,hd⟩ : ok ∧ 0 < depth := by simpa [Ends.simple] using he
    obtain ⟨kind,more,rfl,hle⟩ := ht.levels
    refine ⟨[.reply (.control kind more)],fun rest s hs hw => ?_⟩
    have hl : s.loopDepth ≠ 0 := by rw [hs.loops]; omega
    have hm : min (more + 1) s.loopDepth = more + 1 := by rw [hs.loops]; omega
    have hr : runSimple (scripted (W := W)) (decide (0 < sup),c) s = (0,
        {s with world := rest,ran := s.ran ++ [((decide (0 < sup),c),0)],pending := some (.control kind (more + 1))}) := by
      simp [runSimple,scripted,hw,hl,hm]
    rw [hr]
    exact ⟨hs.suppressed,hs.loops,failedUntested_append hs.clean (.inr rfl) rfl,rfl,rfl,rfl⟩
  | slipped => simp [Ends.simple] at he

variable {data : CommandData (Bool × C) W}

theorem full_inverted (h : Full (sup + 1) depth S (dispatch scripted n data)) :
    Full sup depth S.inverted (executeCommand scripted n (.mk true data)) := by
  intro e he t ht
  have hr := full_tested h
  have hf : ∀ status : ℤ,decide ((if status = 0 then (1 : ℤ) else 0) = 0) = !decide (status = 0) := by
    intro status
    by_cases h0 : status = 0 <;> simp [h0]
  cases e
  all_goals
    refine Scriptable.imp (hr _ he t ht) fun rest s hs hh => ?_
    rw [executeCommand_inverted scripted n data hs.pending]
    refine ⟨hh.suppressed,hh.loops,hh.clean,hh.world,?_⟩
  · exact ⟨hh.meets.1,by rw [hf,hh.meets.2,Bool.not_not]⟩
  · exact ⟨hh.meets.1,by rw [hf,hh.meets.2,Bool.not_not]⟩
  · exact hh.meets

theorem Hit.plain {e : End} {t : Target} {rest : List Answer} {s : Scripted C}
    (h : Hit sup depth e t rest (dispatch scripted n data s))
    (hs : s.pending = none) (hk : 0 < sup ∨ exempt data ∨ e ≠ done false) :
    Hit sup depth e t rest (executeCommand scripted n (.mk false data) s) := by
  rw [executeCommand_plain scripted n data hs]
  have hsa : maybeErrexit false data {(dispatch scripted n data s).2 with lastStatus := (dispatch scripted n data s).1} =
      {(dispatch scripted n data s).2 with lastStatus := (dispatch scripted n data s).1} := by
    rcases hk with hsu | hex | he
    · simp [maybeErrexit,h.suppressed,hsu]
    · simp [maybeErrexit,hex]
    · have hm := h.meets
      rcases e with ⟨_ | _⟩ | ok | _
      · exact absurd rfl he
      · have h0 : (dispatch scripted n data s).1 = 0 := by simpa using hm.2
        simp [maybeErrexit,h0]
      · simp [maybeErrexit,hm.1]
      · obtain ⟨status,hp⟩ := hm
        simp [maybeErrexit,hp]
  rw [hsa]
  exact h.kept ⟨rfl,rfl,rfl,rfl,rfl⟩ h.world

theorem full_plain (h : Full sup depth S (dispatch scripted n data)) :
    Full sup depth (if decide (0 < sup) || exempt data then S else S.checked) (executeCommand scripted n (.mk false data)) := by
  intro e he t ht
  by_cases hsk : (decide (0 < sup) || exempt data)
  · rw [if_pos hsk] at he
    obtain ⟨script,hsc⟩ := h e he t ht
    refine ⟨script,fun rest s hs hw => (hsc rest s hs hw).plain hs.pending ?_⟩
    rcases Bool.or_eq_true_iff.mp hsk with hsu | hex
    · exact .inl (by simpa using hsu)
    · exact .inr (.inl hex)
  · rw [if_neg hsk] at he
    by_cases hS : S e ∧ e ≠ done false
    · obtain ⟨script,hsc⟩ := h e hS.1 t ht
      exact ⟨script,fun rest s hs hw => (hsc rest s hs hw).plain hs.pending (.inr (.inr hS.2))⟩
    · have hn : e = slipped ∧ S (done false) := by
        rcases e with ⟨_ | _⟩ | ok | _ <;> simp_all [checked]
      obtain ⟨rfl,hd⟩ := hn
      simp only [Bool.or_eq_true,decide_eq_true_eq,not_or,Bool.not_eq_true] at hsk
      obtain rfl : sup = 0 := by omega
      refine Scriptable.imp (h (done false) hd t trivial) fun rest s hs hh => ?_
      have hne : (dispatch scripted n data s).1 ≠ 0 := by simpa using hh.meets.2
      rw [executeCommand_plain scripted n data hs.pending]
      have hei : maybeErrexit false data {(dispatch scripted n data s).2 with lastStatus := (dispatch scripted n data s).1} =
          {(dispatch scripted n data s).2 with
            lastStatus := (dispatch scripted n data s).1,pending := some (.exit (dispatch scripted n data s).1)} := by
        simp [maybeErrexit,hh.suppressed,hh.meets.1,hsk.2,hne]
      rw [hei]
      exact ⟨hh.suppressed,hh.loops,hh.clean,hh.world,_,rfl⟩

def unmatched : Clauses C W → Bool → List Answer
  | .nil,_ => []
  | .clause _ _ flags rest,true => if flags = .fallthrough then unmatched rest true else []
  | .empty _ flags rest,true => if flags = .fallthrough then unmatched rest true else []
  | .clause _ _ _ rest,false => .found false :: unmatched rest false
  | .empty _ _ rest,false => .found false :: unmatched rest false

theorem world_runClauses_pending (value : String) : ∀ (clauses : Clauses (Bool × C) W) (matched : Bool) (status : ℤ)
    {rest : List Answer} {s : Scripted C},s.pending.isSome → s.world = unmatched clauses matched ++ rest →
      (runClauses scripted n value clauses matched status s).2.world = rest
  | .nil,_,status,rest,s,_,hw => by
    rw [runClauses]
    exact hw
  | .clause patterns action flags more,true,status,rest,s,h,hw => by
    simp only [runClauses,if_true,executeCommand_pending scripted n action h]
    rw [unmatched] at hw
    by_cases hf : flags = .fallthrough
    · rw [if_pos hf] at hw ⊢
      exact world_runClauses_pending value more true _ h hw
    · rw [if_neg hf] at hw ⊢
      exact hw
  | .empty patterns flags more,true,status,rest,s,h,hw => by
    rw [runClauses,if_pos rfl]
    rw [unmatched] at hw
    by_cases hf : flags = .fallthrough
    · rw [if_pos hf] at hw ⊢
      exact world_runClauses_pending value more true _ h hw
    · rw [if_neg hf] at hw ⊢
      exact hw
  | .clause patterns _ flags more,false,status,rest,s,h,hw | .empty patterns flags more,false,status,rest,s,h,hw => by
    rw [unmatched,List.cons_append] at hw
    simp only [runClauses,scripted,hw,Bool.false_eq_true,if_false]
    exact world_runClauses_pending value more false _ h rfl

variable {next next₀ next₁ : Bool → Ends} {k₀ k₁ whole : ℤ → Played C} {value : String}

variable (h : Full sup depth S (executeCommand scripted n action))
include h

theorem full_clause {rest : Clauses (Bool × C) W} {matched : Bool}
    (hr : FullFrom sup depth next fun status => runClauses scripted n value rest matched status) :
    Full sup depth (S.andThen next)
      fun s => runClauses scripted n value rest matched (executeCommand scripted n action s).1 (executeCommand scripted n action s).2 := by
  apply h.andThen hr
  · intro s _
    rfl
  · intro answers s hp hw
    have hk := runClauses_pending scripted n value rest matched hp
    rw [executeCommand_lastStatus] at hk
    exact ⟨hk,world_runClauses_pending value rest matched _ hp hw⟩

theorem full_clause_leave : Full sup depth (S.andThen only) (executeCommand scripted n action) := by
  apply h.andThen fullFrom_only
  · intro s _
    rfl
  · intro answers s _ hw
    exact ⟨Kept.refl _,show _ = [] ++ answers from hw⟩

omit h

theorem fullFrom_found (h₀ : FullFrom sup depth next₀ k₀) (h₁ : FullFrom sup depth next₁ k₁)
    (hwh : ∀ status s found rest,s.world = .found found :: rest →
      whole status s = if found then k₁ status {s with world := rest} else k₀ status {s with world := rest}) :
    FullFrom sup depth (fun before => union (next₀ before) (next₁ before)) whole := by
  intro ok e he t ht
  rcases Bool.or_eq_true_iff.mp he with he | he
  · obtain ⟨script,hsc⟩ := h₀ ok e he t ht
    refine ⟨.found false :: script,fun status hst rest s hs hw => ?_⟩
    rw [hwh status s false (script ++ rest) hw]
    exact hsc status hst rest _ (hs.withWorld _) rfl
  · obtain ⟨script,hsc⟩ := h₁ ok e he t ht
    refine ⟨.found true :: script,fun status hst rest s hs hw => ?_⟩
    rw [hwh status s true (script ++ rest) hw]
    exact hsc status hst rest _ (hs.withWorld _) rfl
end

section
variable (n : ℕ)

variable {n} in
theorem full_condition {command : Command C W} {sup depth : ℕ} (h : Full (sup + 1) depth (ends (0 < sup + 1) (0 < depth) command)
      (executeCommand scripted n (mark (0 < sup + 1) command))) :
    Full sup depth (ends true (0 < depth) command) (tested (executeCommand scripted n (mark true command))) :=
  full_tested (by simpa using h)

mutual
theorem full_command : ∀ (command : Command C W) (sup depth : ℕ),
    Full sup depth (ends (0 < sup) (0 < depth) command) (executeCommand scripted (n + 2) (mark (0 < sup) command))
  | .mk true data,sup,depth => by
    have hd : Full (sup + 1) depth (dataEnds true (0 < depth) data) (dispatch scripted (n + 2) (markData true data)) := by
      simpa using full_data data (sup + 1) depth
    simpa [ends,mark] using full_inverted hd
  | .mk false data,sup,depth => by
    have he : exempt (markData (decide (0 < sup)) data) = exempt data := by
      cases data with
      | connection first second connector => cases connector <;> rfl
      | _ => rfl
    have hf := full_plain (full_data data sup depth)
    rw [he] at hf
    simpa [ends,mark] using hf

theorem full_data : ∀ (data : CommandData C W) (sup depth : ℕ),
    Full sup depth (dataEnds (0 < sup) (0 < depth) data) (dispatch scripted (n + 2) (markData (0 < sup) data))
  | .null,sup,depth => by
    rw [dataEnds,markData,dispatch]
    exact full_only 0
  | .simple c,sup,depth => by
    rw [dataEnds,markData,dispatch]
    exact full_runSimple c
  | .connection first second .andAnd,sup,depth => by
    rw [dataEnds,markData,dispatch]
    exact full_choice (full_condition (full_command first (sup + 1) depth)) (full_command second sup depth).from fullFrom_only
  | .connection first second .orOr,sup,depth => by
    rw [dataEnds,markData,dispatch]
    simp only [ne_eq,ite_not]
    exact full_choice (full_condition (full_command first (sup + 1) depth)) fullFrom_only (full_command second sup depth).from
  | .connection first second .semi,sup,depth | .connection first second .newline,sup,depth => by
    rw [dataEnds,markData,dispatch]
    apply (full_command first sup depth).andThen_ite (full_command second sup depth).from
    intro s
    exact ⟨⟨executeCommand_lastStatus scripted (n + 2) _ s,rfl,rfl,rfl,rfl⟩,rfl⟩
  | .group command,sup,depth => by
    rw [dataEnds,markData,dispatch]
    exact full_command command sup depth
  | .ifThen test trueCase,sup,depth => by
    rw [dataEnds,markData,dispatch]
    exact full_choice (full_condition (full_command test (sup + 1) depth)) (full_command trueCase sup depth).from (full_only 0).from
  | .ifElse test trueCase falseCase,sup,depth => by
    rw [dataEnds,markData,dispatch]
    exact full_choice (full_condition (full_command test (sup + 1) depth)) (full_command trueCase sup depth).from
      (full_command falseCase sup depth).from
  | .loop invert test action,sup,depth => by
    rw [dataEnds,markData,dispatch]
    have htest : Full sup (depth + 1) (ends true true test) (tested (executeCommand scripted (n + 2) (mark true test))) :=
      by simpa using full_condition (full_command test (sup + 1) (depth + 1))
    have haction : Full sup (depth + 1) (ends (0 < sup) true action) (executeCommand scripted (n + 2) (mark (0 < sup) action)) := by
      simpa using full_command action sup (depth + 1)
    exact full_loop htest haction n
  | .forIn head action,sup,depth => by
    rw [dataEnds,markData,dispatch]
    have haction : Full sup (depth + 1) (ends (0 < sup) true action) (executeCommand scripted (n + 2) (mark (0 < sup) action)) := by
      simpa using full_command action sup (depth + 1)
    intro e he t ht
    obtain ⟨count,script,hsc⟩ := full_forItems haction he ht
    refine ⟨.items count :: script,fun rest s hs hw => ?_⟩
    have hh := hsc rest _ (hs.withWorld (script ++ rest)).enter rfl
    simpa [scripted,hw,leaving] using hh
  | .case word clauses,sup,depth => by
    rw [dataEnds,markData,dispatch]
    intro e he t ht
    obtain ⟨script,hsc⟩ := full_clauses clauses "" false sup depth true e he t ht
    exact ⟨script,fun rest s hs hw => hsc 0 rfl rest s hs hw⟩

theorem full_clauses : ∀ (clauses : Clauses C W) (value : String) (matched : Bool) (sup depth : ℕ),
    FullFrom sup depth (fun before => clausesEnds (0 < sup) (0 < depth) clauses matched before)
      fun status => runClauses scripted (n + 2) value (markClauses (0 < sup) clauses) matched status
  | .nil,value,matched,sup,depth => by
    simp only [clausesEnds,markClauses,runClauses]
    exact fullFrom_only
  | .clause patterns action flags rest,value,true,sup,depth => by
    simp only [clausesEnds,markClauses,runClauses,if_true]
    have ha := full_command action sup depth
    cases flags
    · exact (full_clause_leave ha).from
    · exact (full_clause ha (full_clauses rest value true sup depth)).from
    · exact (full_clause_leave ha).from
  | .clause patterns action flags rest,value,false,sup,depth => by
    have ha := full_command action sup depth
    have hr := full_clauses rest value false sup depth
    simp only [clausesEnds,markClauses]
    cases flags <;> [apply fullFrom_found hr (full_clause_leave ha).from;
      apply fullFrom_found hr (full_clause ha (full_clauses rest value true sup depth)).from;
      apply fullFrom_found hr (full_clause ha hr).from]
    all_goals
      intro status s found answers hw
      cases found <;> simp [runClauses,scripted,hw]
  | .empty patterns flags rest,value,true,sup,depth => by
    simp only [clausesEnds,markClauses,runClauses,if_true]
    cases flags
    · exact fullFrom_only
    · exact full_clauses rest value true sup depth
    · exact fullFrom_only
  | .empty patterns flags rest,value,false,sup,depth => by
    have hr := full_clauses rest value false sup depth
    rw [markClauses]
    cases flags
    all_goals simp only [clausesEnds]
    on_goal 1 => apply fullFrom_found hr fullFrom_only
    on_goal 2 => apply fullFrom_found hr (full_clauses rest value true sup depth)
    on_goal 3 => apply fullFrom_found hr hr
    all_goals
      intro status s found answers hw
      cases found <;> simp [runClauses,scripted,hw]
end
end

theorem ready_start {σ : Type} (world : σ) (lastStatus : ℤ) : Ready 0 0 (startState world lastStatus : State (Bool × C) σ) :=
  ⟨rfl,rfl,rfl,by simp [FailedUntested,startState]⟩

theorem exits_iff_of_not_slips {command : Command C W} (h : slips command = false) : ExitsOnUntestedFailure command := by
  intro σ w n world lastStatus
  have ho := (outcome_command w.marked n command (ready_start world lastStatus)).ending
  change Ending 0 (ends false false command) _ (finalState w n command world lastStatus) at ho
  cases ho with
  | done _ hp hc => exact iff_of_false (by simp [Exits,hp]) hc
  | unwound kind levels _ _ hpo hle _ => omega
  | slipped hs _ _ => simp [slips,hs] at h
  | failed hex hf => exact iff_of_true hex hf
  | cutOff hp hc => exact iff_of_false (by simp [Exits,hp]) hc

theorem exists_slip {command : Command C W} (h : slips command) : ¬ExitsOnUntestedFailure command := by
  intro ha
  have hr : Reached 0 0 (executeCommand scripted 2 (mark false command)) slipped := by
    simpa using full_command 0 command 0 0 slipped (by simpa [slips] using h)
  obtain ⟨script,hs⟩ := hr ⟨.brk,0⟩ trivial
  have hh := hs [] (startState script 0) (ready_start script 0) (List.append_nil script).symm
  exact hh.clean ((ha _ scripted 2 script 0).mp hh.meets)

/-- `{ a && b; }` -/
def groupedAnd : Command String String :=
  .mk false (.group (.mk false (.connection (.mk false (.simple "a")) (.mk false (.simple "b")) .andAnd)))

def failing : World String String Unit where
  simple _ _ := (.status 1,())
  items _ _ := ([],())
  assign _ _ _ := ()
  word _ _ := ("",())
  patternListMatches _ _ _ := (false,())

end Cherubsh.Exec.Errexit
