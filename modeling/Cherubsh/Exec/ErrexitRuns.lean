import Cherubsh.Exec.ErrexitEnds

/-! # Every run ends as its tree says

A run ends in one of the ways found from the tree, or exits after a failure outside the tested
positions, or has been cut off.
-/
namespace Cherubsh.Exec.Errexit
open End Ends
variable {testStatus : ℤ} {S T : Ends} {next : Bool → Ends}
variable {C W σ : Type}

section
variable {x : ℤ × State (Bool × C) σ} {next : Bool → Ends}

structure Ready (sup depth : ℕ) (s : State (Bool × C) σ) : Prop where
  pending : s.pending = none
  suppressed : s.errexitSuppressed = sup
  loops : s.loopDepth = depth
  clean : ¬FailedUntested s

inductive Ending (depth : ℕ) (S : Ends) (status : ℤ) (s : State (Bool × C) σ) : Prop where
  | done (h : S (.done (status = 0))) (pending : s.pending = none) (clean : ¬FailedUntested s)
  | unwound (kind : LoopControl) (levels : ℕ) (h : S (.unwound (status = 0)))
      (pending : s.pending = some (.control kind levels)) (pos : 1 ≤ levels) (le : levels ≤ depth) (clean : ¬FailedUntested s)
  | slipped (h : S .slipped) (exits : Exits s) (clean : ¬FailedUntested s)
  | failed (exits : Exits s) (failed : FailedUntested s)
  | cutOff (pending : s.pending = some .cutOff) (clean : ¬FailedUntested s)

structure Outcome (sup depth : ℕ) (S : Ends) (r : ℤ × State (Bool × C) σ) : Prop where
  suppressed : r.2.errexitSuppressed = sup
  loops : r.2.loopDepth = depth
  ending : Ending depth S r.1 r.2

variable {sup depth : ℕ} {S T : Ends} {status : ℤ} {s : State (Bool × C) σ} {r : ℤ × State (Bool × C) σ}

theorem Ending.map {s' : State (Bool × C) σ} {status' : ℤ} (h : Ending depth S status s) (hp : s'.pending = s.pending)
    (hr : s'.ran = s.ran)
    (hd : s.pending = none → S (.done (status = 0)) → T (.done (status' = 0)))
    (hu : 0 < depth → S (.unwound (status = 0)) → T (.unwound (status' = 0)))
    (hs : S .slipped → T .slipped) : Ending depth T status' s' := by
  have hf : FailedUntested s' ↔ FailedUntested s := by unfold FailedUntested; rw [hr]
  have he : Exits s' ↔ Exits s := by unfold Exits; rw [hp]
  cases h with
  | done h hp' hc => exact .done (hd hp' h) (hp.trans hp') (hf.not.mpr hc)
  | unwound kind levels h hp' hpo hle hc =>
    exact .unwound kind levels (hu (by omega) h) (hp.trans hp') hpo hle (hf.not.mpr hc)
  | slipped h he' hc => exact .slipped (hs h) (he.mpr he') (hf.not.mpr hc)
  | failed he' hf' => exact .failed (he.mpr he') (hf.mpr hf')
  | cutOff hp' hc => exact .cutOff (hp.trans hp') (hf.not.mpr hc)

variable (h : Outcome sup depth S r)
include h

theorem Outcome.mono (hST : ∀ e,S e → T e) : Outcome sup depth T r :=
  ⟨h.suppressed,h.loops,h.ending.map rfl rfl (fun _ => hST _) (fun _ => hST _) (hST _)⟩

theorem Outcome.ready (hn : r.2.pending = none) : Ready sup depth r.2 ∧ S (.done (r.1 = 0)) := by
  obtain ⟨hs,hd,he⟩ := h
  cases he with
  | done h hp hc => exact ⟨⟨hp,hs,hd,hc⟩,h⟩
  | unwound _ _ _ hp | cutOff hp => cases hn.symm.trans hp
  | slipped _ hex | failed hex => cases hn.symm.trans hex.choose_spec

omit h

theorem Ready.suppress (h : Ready sup depth s) : Ready (sup + 1) depth s.suppress :=
  ⟨h.pending,congrArg (· + 1) h.suppressed,h.loops,h.clean⟩

theorem outcome_tested {run : Run (Bool × C) σ} (hr : ∀ s,Ready (sup + 1) depth s → Outcome (sup + 1) depth S (run s))
    (h : Ready sup depth s) : Outcome sup depth S (tested run s) := by
  have ho := hr s.suppress h.suppress
  refine ⟨?_,ho.loops,ho.ending.map rfl rfl (fun _ => id) (fun _ => id) id⟩
  simp [tested,State.allow,ho.suppressed]

/-- A result that differs in nothing that an ending speaks of. -/
structure Kept (r x : ℤ × State (Bool × C) σ) : Prop where
  status : x.1 = r.1
  suppressed : x.2.errexitSuppressed = r.2.errexitSuppressed
  loops : x.2.loopDepth = r.2.loopDepth
  pending : x.2.pending = r.2.pending
  ran : x.2.ran = r.2.ran

theorem Kept.refl (r : ℤ × State (Bool × C) σ) : Kept r r := ⟨rfl,rfl,rfl,rfl,rfl⟩

theorem Kept.withWorld {status : ℤ} {s : State (Bool × C) σ} {world : σ} (h : Kept (status,{s with world := world}) x) :
    Kept (status,s) x :=
  ⟨h.status,h.suppressed,h.loops,h.pending,h.ran⟩

include h

theorem Outcome.kept (hx : Kept r x) : Outcome sup depth S x := by
  refine ⟨hx.suppressed.trans h.suppressed,hx.loops.trans h.loops,?_⟩
  rw [hx.status]
  exact h.ending.map hx.pending hx.ran (fun _ => id) (fun _ => id) id

theorem Outcome.andThen (hn : Ready sup depth r.2 → Outcome sup depth (next (r.1 = 0)) x) (hk : r.2.pending.isSome → Kept r x) :
    Outcome sup depth (S.andThen next) x := by
  cases hp : r.2.pending with
  | none =>
    obtain ⟨hre,h⟩ := h.ready hp
    apply (hn hre).mono
    intro e he
    unfold Ends.andThen
    by_cases h0 : r.1 = 0
    · simp only [h0,decide_true] at h he
      simp [h,he]
    · simp only [h0,decide_false] at h he
      simp [h,he]
  | some u =>
    have hr : Outcome sup depth (S.andThen next) r :=
      ⟨h.suppressed,h.loops,h.ending.map rfl rfl (by simp [hp]) (by simp +contextual [Ends.andThen]) (by simp +contextual [Ends.andThen])⟩
    exact hr.kept (hk (by simp [hp]))

theorem Outcome.andThen_ite {x y : ℤ × State (Bool × C) σ}
    (hn : Ready sup depth r.2 → Outcome sup depth (next (r.1 = 0)) y) (hk : Kept r x) :
    Outcome sup depth (S.andThen next) (if r.2.pending.isSome then x else y) := by
  apply h.andThen
  · intro hr
    have hno : ¬r.2.pending.isSome := by simp [hr.pending]
    rw [if_neg hno]
    exact hn hr
  · intro hs
    rw [if_pos hs]
    exact hk

omit h

theorem outcome_only (h : Ready sup depth s) (status : ℤ) : Outcome sup depth (only (status = 0)) (status,s) :=
  ⟨h.suppressed,h.loops,.done (by simp [only]) h.pending h.clean⟩
end

section
variable {sup depth : ℕ} {S T B : Ends} {status : ℤ} {s : State (Bool × C) σ} {r : ℤ × State (Bool × C) σ}

theorem Ready.enter (h : Ready sup depth s) : Ready sup (depth + 1) s.enter :=
  ⟨h.pending,h.suppressed,congrArg (· + 1) h.loops,h.clean⟩

def stopped (inLoop : Bool) (B : Ends) : Ends
  | .done ok => B (.unwound ok)
  | .unwound ok => inLoop && B (.unwound ok)
  | .slipped => B .slipped

theorem Outcome.handleLoopUnwind (h : Outcome sup (depth + 1) B r) :
    (∃ s,handleLoopUnwind r.2 = (false,s) ∧ Ready sup (depth + 1) s ∧ (B (.done (r.1 = 0)) || B (.unwound (r.1 = 0)))) ∨
      ∃ s,handleLoopUnwind r.2 = (true,s) ∧ Outcome sup depth (stopped (0 < depth) B) (r.1,s.leave) := by
  obtain ⟨hs,hd,he⟩ := h
  have hl : r.2.loopDepth - 1 = depth := by omega
  unfold Errexit.handleLoopUnwind
  cases he with
  | done h hp hc =>
    rw [hp]
    exact .inl ⟨_,rfl,⟨hp,hs,hd,hc⟩,by simp [h]⟩
  | unwound kind levels h hp hpo hle hc =>
    rw [hp]
    by_cases ho : levels = 1
    · subst ho
      cases kind with
      | brk => exact .inr ⟨_,rfl,hs,hl,.done h rfl hc⟩
      | cont => exact .inl ⟨_,rfl,⟨rfl,hs,hd,hc⟩,by simp [h]⟩
    · obtain ⟨k,rfl⟩ : ∃ k,levels = k + 2 := ⟨levels - 2,by omega⟩
      have hde : 0 < depth := by omega
      have hen : stopped (0 < depth) B (.unwound (r.1 = 0)) := by simp [stopped,hde,h]
      right
      cases kind with
      | brk => exact ⟨_,rfl,hs,hl,.unwound .brk (k + 1) hen rfl (by omega) (by omega) hc⟩
      | cont => exact ⟨_,rfl,hs,hl,.unwound .cont (k + 1) hen rfl (by omega) (by omega) hc⟩
  | slipped h hex hc =>
    obtain ⟨k,hp⟩ := hex
    rw [hp]
    exact .inr ⟨_,rfl,hs,hl,.slipped h ⟨k,hp⟩ hc⟩
  | failed hex hf =>
    obtain ⟨k,hp⟩ := hex
    rw [hp]
    exact .inr ⟨_,rfl,hs,hl,.failed ⟨k,hp⟩ hf⟩
  | cutOff hp hc =>
    rw [hp]
    exact .inr ⟨_,rfl,hs,hl,.cutOff hp hc⟩

theorem handleLoopConditionUnwind_eq (invert : Bool) (s : State (Bool × C) σ) : handleLoopConditionUnwind invert s =
    match handleLoopUnwind s with
    | (true,s') => (.break,s')
    | (false,s') => (if s.pending.isNone || invert then .proceed else .continue,s') := by
  unfold handleLoopConditionUnwind handleLoopUnwind
  split <;> simp_all

theorem unwinds_iff : unwinds T ↔ ∃ ok,T (.unwound ok) := by
  simp [unwinds,or_comm]

theorem Outcome.handleLoopConditionUnwind (invert : Bool) (h : Outcome sup (depth + 1) T r) (hsl : T .slipped = false) :
    (∃ s,handleLoopConditionUnwind invert r.2 = (.proceed,s) ∧ Ready sup (depth + 1) s ∧
      (T (.done (r.1 = 0)) || (invert && T (.unwound (r.1 = 0))))) ∨
    (∃ s,handleLoopConditionUnwind invert r.2 = (.continue,s) ∧ Ready sup (depth + 1) s) ∨
    ∃ s,handleLoopConditionUnwind invert r.2 = (.break,s) ∧ ∀ status : ℤ,
      Outcome sup depth (stopped (0 < depth) fun e => unwinds T && e ≠ .slipped) (status,s.leave) := by
  rw [handleLoopConditionUnwind_eq]
  rcases h.handleLoopUnwind with ⟨s,hs,hr,hT⟩ | ⟨s,hs,ho⟩
  · rw [hs]
    cases hp : r.2.pending with
    | none => exact .inl ⟨s,rfl,hr,by simp [(h.ready hp).2]⟩
    | some u =>
      cases invert with
      | true => exact .inl ⟨s,rfl,hr,by simpa using hT⟩
      | false => exact .inr (.inl ⟨s,rfl,hr⟩)
  · rw [hs]
    refine .inr (.inr ⟨s,rfl,fun status => ⟨ho.suppressed,ho.loops,ho.ending.map rfl rfl (fun _ h => ?_) (fun hd h => ?_) ?_⟩⟩)
    · simpa [stopped] using unwinds_iff.mpr ⟨_,h⟩
    · simp only [stopped,hd,decide_true,Bool.true_and] at h
      simpa [stopped,hd] using unwinds_iff.mpr ⟨_,h⟩
    · simp [stopped,hsl]

section
variable {invert : Bool} {test action : Run (Bool × C) σ}

theorem goesOn_of_status (h : (T (.done (testStatus = 0)) || (invert && T (.unwound (testStatus = 0)))))
    (hgo : if invert then testStatus ≠ 0 else testStatus = 0) : goesOn invert T := by
  unfold goesOn
  cases invert <;> simp_all

theorem comesToEnd_of_status (h : (T (.done (testStatus = 0)) || (invert && T (.unwound (testStatus = 0)))))
    (hs : ¬if invert then testStatus ≠ 0 else testStatus = 0) : comesToEnd invert T := by
  unfold comesToEnd unwinds
  cases invert
  · simp_all
  · simp only [if_true,ne_eq,not_not] at hs
    simp only [hs,decide_true,Bool.true_and,Bool.or_eq_true] at h
    rcases h with h | h <;> simp [h]

theorem loop_of_action (hgo : goesOn invert T) (e : End) (h : stopped (0 < depth) B e) :
    loop invert (0 < depth) T B e := by
  rcases e with ok | ok | _
  · cases ok <;> simp_all [stopped,loop]
  · cases ok <;> simp_all [stopped,loop]
  · simp_all [stopped,loop]

theorem loop_of_status (depth : ℕ) (hs : status = 0 ∨ leavesFailure invert T B) :
    (comesToEnd invert T → loop invert (0 < depth) T B (.done (status = 0))) ∧
      (0 < depth → unwinds T → loop invert (0 < depth) T B (.unwound (status = 0))) := by
  by_cases h0 : status = 0
  · simp_all [loop]
  · simp_all [loop]

theorem outcome_of_condition (hs : status = 0 ∨ leavesFailure invert T B)
    (h : Outcome sup depth (stopped (0 < depth) fun e => unwinds T && e ≠ .slipped) (status,s)) :
    Outcome sup depth (loop invert (0 < depth) T B) (status,s) := by
  obtain ⟨he,hu⟩ := loop_of_status depth hs
  refine ⟨h.suppressed,h.loops,h.ending.map rfl rfl (fun _ h => he ?_) (fun hd h => hu hd ?_) (by simp [stopped])⟩
  · simp_all [stopped,comesToEnd]
  · simp_all [stopped]

theorem outcome_leave (h : Ready sup (depth + 1) s) (hS : S (.done (status = 0))) : Outcome sup depth S (status,s.leave) :=
  ⟨h.suppressed,Nat.sub_eq_of_eq_add h.loops,.done hS h.pending h.clean⟩

theorem outcome_rounds (ht : ∀ s,Ready (sup + 1) (depth + 1) s → Outcome (sup + 1) (depth + 1) T (test s))
    (hsl : T .slipped = false) (ha : ∀ s,Ready sup (depth + 1) s → Outcome sup (depth + 1) B (action s))
    (n : ℕ) (hs : status = 0 ∨ leavesFailure invert T B) (h : Ready sup (depth + 1) s) :
    Outcome sup depth (loop invert (0 < depth) T B)
      ((rounds invert test action n status s).1,(rounds invert test action n status s).2.leave) := by
  induction n generalizing status s with
  | zero => exact ⟨h.suppressed,Nat.sub_eq_of_eq_add h.loops,.cutOff rfl h.clean⟩
  | succ n ih =>
    have ho := outcome_tested ht h
    simp only [rounds]
    generalize tested test s = r at ho
    obtain ⟨testStatus,s₁⟩ := r
    rcases ho.handleLoopConditionUnwind invert hsl with ⟨s₂,hd,hr,hT⟩ | ⟨s₂,hd,hr⟩ | ⟨s₂,hd,hst⟩
    · simp only [hd]
      by_cases hgo : if invert then testStatus ≠ 0 else testStatus = 0
      · have hg := goesOn_of_status hT hgo
        have hac := ha s₂ hr
        rw [if_pos hgo]
        generalize action s₂ = r at hac
        obtain ⟨actStatus,s₃⟩ := r
        rcases hac.handleLoopUnwind with ⟨s₄,hd₄,hr₄,hB⟩ | ⟨s₄,hd₄,hst⟩
        · simp only [hd₄]
          apply ih _ hr₄
          by_cases h0 : actStatus = 0
          · exact .inl h0
          · right
            simp_all [leavesFailure]
        · simp only [hd₄]
          exact hst.mono (loop_of_action hg)
      · rw [if_neg hgo]
        exact outcome_leave hr ((loop_of_status depth hs).1 (comesToEnd_of_status hT hgo))
    · simp only [hd]
      exact ih hs hr
    · simp only [hd]
      exact outcome_of_condition hs (hst status)
end
theorem outcome_forItems {assign : String → σ → σ} {action : Run (Bool × C) σ}
    (ha : ∀ s,Ready sup (depth + 1) s → Outcome sup (depth + 1) B (action s)) (items : List String)
    (hs : Ends.forIn (0 < depth) B (.done (status = 0))) (h : Ready sup (depth + 1) s) :
    Outcome sup depth (Ends.forIn (0 < depth) B)
      ((forItems assign action items status s).1,(forItems assign action items status s).2.leave) := by
  induction items generalizing status s with
  | nil => exact outcome_leave h hs
  | cons item items ih =>
    have hac := ha {s with world := assign item s.world} ⟨h.pending,h.suppressed,h.loops,h.clean⟩
    simp only [forItems]
    generalize action {s with world := assign item s.world} = r at hac
    obtain ⟨actStatus,s₁⟩ := r
    rcases hac.handleLoopUnwind with ⟨s₂,hd,hr,hB⟩ | ⟨s₂,hd,hst⟩
    · simp only [hd]
      apply ih _ hr
      by_cases h0 : actStatus = 0 <;> simp_all [Ends.forIn]
    · simp only [hd]
      apply hst.mono
      intro e he
      rcases e with ok | ok | _
      · cases ok <;> simp_all [stopped,Ends.forIn]
      · simpa [stopped,Ends.forIn] using he
      · simpa [stopped,Ends.forIn] using he
end

theorem andThen_slipped (hS : S slipped = false) (hn : ∀ ok,next ok slipped = false) :
    S.andThen next slipped = false := by
  simp [andThen,hS,hn]

mutual
theorem ends_tested (inLoop : Bool) : ∀ command : Command C W,ends true inLoop command slipped = false
  | .mk true data => by
    simp [ends,inverted,dataEnds_tested inLoop data]
  | .mk false data => by
    simp [ends,dataEnds_tested inLoop data]

theorem dataEnds_tested (inLoop : Bool) : ∀ data : CommandData C W,dataEnds true inLoop data slipped = false
  | .null => by simp [dataEnds,only]
  | .simple _ => by simp [dataEnds,simple]
  | .connection first second .andAnd | .connection first second .orOr => by
    rw [dataEnds]
    apply andThen_slipped (ends_tested inLoop first)
    intro ok
    cases ok <;> simp [only,ends_tested inLoop second]
  | .connection first second .semi | .connection first second .newline => by
    rw [dataEnds]
    exact andThen_slipped (ends_tested inLoop first) fun _ => ends_tested inLoop second
  | .group command => by rw [dataEnds,ends_tested inLoop command]
  | .ifThen test trueCase => by
    rw [dataEnds]
    apply andThen_slipped (ends_tested inLoop test)
    intro ok
    cases ok <;> simp [only,ends_tested inLoop trueCase]
  | .ifElse test trueCase falseCase => by
    rw [dataEnds]
    apply andThen_slipped (ends_tested inLoop test)
    intro ok
    cases ok <;> simp [ends_tested inLoop trueCase,ends_tested inLoop falseCase]
  | .loop invert test action => by simp [dataEnds,loop,ends_tested true action]
  | .forIn _ action => by simp [dataEnds,Ends.forIn,ends_tested true action]
  | .case _ clauses => by rw [dataEnds,clausesEnds_tested inLoop clauses]

theorem clausesEnds_tested (inLoop : Bool) : ∀ (clauses : Clauses C W) (matched before : Bool),
    clausesEnds true inLoop clauses matched before slipped = false
  | .nil,_,_ => by simp [clausesEnds,only]
  | .clause _ action flags rest,true,_ => by
    rw [clausesEnds]
    apply andThen_slipped (ends_tested inLoop action)
    intro ok
    cases flags <;> simp [only,clausesEnds_tested inLoop rest]
  | .clause _ action flags rest,false,before => by
    simp only [clausesEnds,union,clausesEnds_tested inLoop rest,Bool.false_or]
    apply andThen_slipped (ends_tested inLoop action)
    intro ok
    cases flags <;> simp [only,clausesEnds_tested inLoop rest]
  | .empty _ flags rest,true,before => by
    cases flags <;> simp [clausesEnds,only,clausesEnds_tested inLoop rest]
  | .empty _ flags rest,false,before => by
    cases flags <;> simp [clausesEnds,union,only,clausesEnds_tested inLoop rest]
end

section
variable {sup depth : ℕ} {S : Ends} {status : ℤ} {s : State (Bool × C) σ} {r : ℤ × State (Bool × C) σ} {c : C}
  {data : CommandData (Bool × C) W} {s' : State (Bool × C) σ}
variable (w : World (Bool × C) W σ) (n : ℕ)

theorem failedUntested_append {inTest : Bool} (hc : ¬FailedUntested s) (h : inTest ∨ status = 0)
    (hr : s'.ran = s.ran ++ [((inTest,c),status)]) : ¬FailedUntested s' := by
  rintro ⟨c',status',hm,hne⟩
  rw [hr,List.mem_append,List.mem_singleton] at hm
  rcases hm with hm | hm
  · exact hc ⟨c',status',hm,hne⟩
  · cases hm
    rcases h with h | h
    · cases h
    · exact hne h

theorem outcome_runSimple (h : Ready sup depth s) (hok : 0 < sup ∨ (runSimple w (decide (0 < sup),c) s).1 = 0) :
    Outcome sup depth (simple (0 < sup) (0 < depth)) (runSimple w (decide (0 < sup),c) s) := by
  unfold runSimple at *
  generalize w.simple (decide (0 < sup),c) s.world = answer at hok ⊢
  obtain ⟨reply,world⟩ := answer
  cases reply with
  | status status =>
    have hl : decide (0 < sup) ∨ status = 0 := by simpa using hok
    refine ⟨h.suppressed,h.loops,.done ?_ h.pending (failedUntested_append h.clean hl rfl)⟩
    rcases hl with hs | hs <;> simp [simple,hs]
  | control kind more =>
    have hc : ∀ s' : State (Bool × C) σ,s'.ran = s.ran ++ [((decide (0 < sup),c),0)] → ¬FailedUntested s' :=
      fun _ hr => failedUntested_append h.clean (.inr rfl) hr
    by_cases hz : s.loopDepth = 0
    · simp only [hz,if_true]
      exact ⟨h.suppressed,hz.symm.trans h.loops ▸ rfl,.done (by simp [simple]) h.pending (hc _ rfl)⟩
    · simp only [hz,if_false]
      have hp : 0 < depth := by have := h.loops; omega
      refine ⟨h.suppressed,h.loops,.unwound kind (min (more + 1) s.loopDepth) ?_ rfl ?_ ?_ (hc _ rfl)⟩
      · simp [simple,hp]
      · omega
      · have := h.loops
        omega

theorem ending_inverted (h : Ending depth S status s) (hp : s'.pending = s.pending) (hr : s'.ran = s.ran) :
    Ending depth S.inverted (if status = 0 then 1 else 0) s' := by
  have hf : decide ((if status = 0 then (1 : ℤ) else 0) = 0) = !decide (status = 0) := by
    by_cases h0 : status = 0 <;> simp [h0]
  refine h.map hp hr (fun _ h => ?_) (fun _ h => ?_) id
  all_goals
    rw [hf]
    simpa [inverted] using h

theorem outcome_maybeErrexit (h : Outcome 0 depth S r) (he : exempt data = false) :
    Outcome 0 depth S.checked (r.1,maybeErrexit false data {r.2 with lastStatus := r.1}) := by
  have hs (h : r.1 = 0 ∨ r.2.pending.isSome) :
      maybeErrexit false data {r.2 with lastStatus := r.1} = {r.2 with lastStatus := r.1} := by
    rcases h with h | h <;> simp [maybeErrexit,h]
  cases hp : r.2.pending with
  | none =>
    obtain ⟨hr,h⟩ := h.ready hp
    by_cases h0 : r.1 = 0
    · rw [hs (.inl h0)]
      exact ⟨hr.suppressed,hr.loops,.done (by simpa [checked,h0] using h) hp hr.clean⟩
    · have hex : maybeErrexit false data {r.2 with lastStatus := r.1} =
          {r.2 with lastStatus := r.1,pending := some (.exit r.1)} := by
        simp [maybeErrexit,h0,hr.suppressed,hp,he]
      rw [hex]
      have hsl : S.checked .slipped := by
        simp only [h0,decide_false] at h
        simp [checked,h]
      exact ⟨hr.suppressed,hr.loops,.slipped hsl ⟨r.1,rfl⟩ hr.clean⟩
  | some u =>
    rw [hs (.inr (by simp [hp]))]
    exact ⟨h.suppressed,h.loops,h.ending.map rfl rfl (by simp [hp]) (fun _ => id) (by simp +contextual [checked])⟩

theorem executeCommand_plain (data : CommandData (Bool × C) W) (h : s.pending = none) :
    executeCommand w n (.mk false data) s =
      ((dispatch w n data s).1,maybeErrexit false data {(dispatch w n data s).2 with lastStatus := (dispatch w n data s).1}) := by
  simp [executeCommand,h]

theorem executeCommand_inverted (data : CommandData (Bool × C) W) (h : s.pending = none) :
    executeCommand w n (.mk true data) s =
      (if (tested (dispatch w n data) s).1 = 0 then 1 else 0,
        {(tested (dispatch w n data) s).2 with lastStatus := if (tested (dispatch w n data) s).1 = 0 then 1 else 0}) := by
  simp [executeCommand,h,maybeErrexit]

theorem executeCommand_pending (command : Command (Bool × C) W) (h : s.pending.isSome) :
    executeCommand w n command s = (s.lastStatus,s) := by
  obtain ⟨invert,data⟩ := command
  simp [executeCommand,h]

theorem maybeErrexit_lastStatus (invert : Bool) (data : CommandData (Bool × C) W) (s : State (Bool × C) σ) :
    (maybeErrexit invert data s).lastStatus = s.lastStatus := by
  unfold maybeErrexit
  split_ifs <;> rfl

theorem executeCommand_lastStatus (command : Command (Bool × C) W) (s : State (Bool × C) σ) :
    (executeCommand w n command s).2.lastStatus = (executeCommand w n command s).1 := by
  by_cases h : s.pending.isSome
  · rw [executeCommand_pending w n command h]
  · obtain ⟨invert,data⟩ := command
    have hn : s.pending = none := by simpa using h
    cases invert with
    | false => rw [executeCommand_plain w n data hn,maybeErrexit_lastStatus]
    | true => rw [executeCommand_inverted w n data hn]

theorem outcome_inverted
    (hd : ∀ s,Ready (sup + 1) depth s → Outcome (sup + 1) depth S (dispatch w n data s)) (h : Ready sup depth s) :
    Outcome sup depth S.inverted (executeCommand w n (.mk true data) s) := by
  rw [executeCommand_inverted w n data h.pending]
  have ho := outcome_tested hd h
  exact ⟨ho.suppressed,ho.loops,ending_inverted ho.ending rfl rfl⟩

theorem outcome_plain (hd : Outcome sup depth S (dispatch w n data s)) (h : Ready sup depth s) :
    Outcome sup depth (if decide (0 < sup) || exempt data then S else S.checked) (executeCommand w n (.mk false data) s) := by
  rw [executeCommand_plain w n data h.pending]
  by_cases hs : (decide (0 < sup) || exempt data)
  · rw [if_pos hs]
    have hsa : maybeErrexit false data {(dispatch w n data s).2 with lastStatus := (dispatch w n data s).1} =
        {(dispatch w n data s).2 with lastStatus := (dispatch w n data s).1} := by
      have hsu : 0 < (dispatch w n data s).2.errexitSuppressed ∨ exempt data := by
        rw [hd.suppressed]
        simpa using hs
      rcases hsu with hsu | hsu <;> simp [maybeErrexit,hsu]
    rw [hsa]
    exact hd.kept ⟨rfl,rfl,rfl,rfl,rfl⟩
  · rw [if_neg hs]
    simp only [Bool.or_eq_true,decide_eq_true_eq,not_or,Bool.not_eq_true] at hs
    obtain ⟨hsu,he⟩ := hs
    obtain rfl : sup = 0 := by omega
    exact outcome_maybeErrexit hd he

theorem runSimple_failed {c : Bool × C} (h : (runSimple w c s).1 ≠ 0) :
    ∃ world,(runSimple w c s).2 = {s with world := world,ran := s.ran ++ [(c,(runSimple w c s).1)]} := by
  unfold runSimple at *
  generalize w.simple c s.world = answer at h ⊢
  obtain ⟨reply,world⟩ := answer
  cases reply with
  | status status => exact ⟨world,rfl⟩
  | control kind more =>
    exfalso
    apply h
    dsimp only
    split_ifs <;> rfl

theorem outcome_failed (h : Ready 0 depth s) (hne : (runSimple w (false,c) s).1 ≠ 0) :
    Outcome 0 depth S (executeCommand w n (.mk false (.simple (false,c))) s) := by
  have hd : dispatch w n (.simple (false,c)) s = runSimple w (false,c) s := by rw [dispatch]
  rw [executeCommand_plain w n _ h.pending,hd]
  obtain ⟨world,hs⟩ := runSimple_failed w hne
  generalize (runSimple w (false,c) s).1 = status at hne hs
  rw [hs]
  have he : maybeErrexit false (CommandData.simple (W := W) (false,c))
      {s with world := world,ran := s.ran ++ [((false,c),status)],lastStatus := status} =
      {s with world := world,ran := s.ran ++ [((false,c),status)],lastStatus := status,pending := some (.exit status)} := by
    simp [maybeErrexit,h.suppressed,h.pending,hne,exempt]
  rw [he]
  exact ⟨h.suppressed,h.loops,.failed ⟨status,rfl⟩ ⟨c,status,by simp,hne⟩⟩

theorem outcome_simple (h : Ready sup depth s) : Outcome sup depth (ends (W := W) (0 < sup) (0 < depth) (.mk false (.simple c)))
      (executeCommand w n (.mk false (.simple (decide (0 < sup),c))) s) := by
  by_cases hok : 0 < sup ∨ (runSimple w (decide (0 < sup),c) s).1 = 0
  · have ho : Outcome sup depth (simple (0 < sup) (0 < depth)) (dispatch w n (.simple (decide (0 < sup),c)) s) := by
      rw [dispatch]
      exact outcome_runSimple w h hok
    simpa [ends,dataEnds,exempt] using outcome_plain w n ho h
  · simp only [not_or] at hok
    obtain rfl : sup = 0 := by omega
    exact outcome_failed w n h hok.2

theorem runClauses_pending (value : String) : ∀ (clauses : Clauses (Bool × C) W) (matched : Bool) {s : State (Bool × C) σ},
    s.pending.isSome → Kept (s.lastStatus,s) (runClauses w n value clauses matched s.lastStatus s)
  | .nil,_,s,_ => by
    rw [runClauses]
    exact Kept.refl _
  | .clause patterns action flags rest,true,s,h => by
    rw [runClauses,if_pos rfl,executeCommand_pending w n action h]
    cases flags
    · exact Kept.refl _
    · exact runClauses_pending value rest true h
    · exact Kept.refl _
  | .clause patterns action flags rest,false,s,h => by
    rw [runClauses,if_neg Bool.false_ne_true]
    rcases w.patternListMatches patterns value s.world with ⟨found,world⟩
    have hr := fun matched => (runClauses_pending value rest matched (s := {s with world := world}) h).withWorld
    cases found with
    | false => exact hr false
    | true =>
      have ha : executeCommand w n action {s with world := world} = (s.lastStatus,{s with world := world}) :=
        executeCommand_pending w n action h
      simp only [if_true,ha]
      cases flags
      · exact ⟨rfl,rfl,rfl,rfl,rfl⟩
      · exact hr true
      · exact hr false
  | .empty patterns flags rest,true,s,h => by
    rw [runClauses,if_pos rfl]
    cases flags
    · exact Kept.refl _
    · exact runClauses_pending value rest true h
    · exact Kept.refl _
  | .empty patterns flags rest,false,s,h => by
    rw [runClauses,if_neg Bool.false_ne_true]
    rcases w.patternListMatches patterns value s.world with ⟨found,world⟩
    have hr := fun matched => (runClauses_pending value rest matched (s := {s with world := world}) h).withWorld
    cases found with
    | false => exact hr false
    | true =>
      cases flags
      · exact ⟨rfl,rfl,rfl,rfl,rfl⟩
      · exact hr true
      · exact hr false
end

section
variable {sup depth : ℕ} (w : World (Bool × C) W σ) (n : ℕ)

theorem Ready.withWorld {s : State (Bool × C) σ} (h : Ready sup depth s) (world : σ) : Ready sup depth {s with world := world} :=
  ⟨h.pending,h.suppressed,h.loops,h.clean⟩

def isSimple : CommandData C W → Bool
  | .simple _ => true
  | _ => false

theorem outcome_clause {s : State (Bool × C) σ} {value : String} {action : Command (Bool × C) W}
    {rest : Clauses (Bool × C) W} {matched : Bool} (h : Outcome sup depth S (executeCommand w n action s))
    (hr : ∀ status s,Ready sup depth s → Outcome sup depth (next (status = 0)) (runClauses w n value rest matched status s)) :
    Outcome sup depth (S.andThen next)
      (runClauses w n value rest matched (executeCommand w n action s).1 (executeCommand w n action s).2) := by
  apply h.andThen
  · exact hr _ _
  · intro hp
    have hk := runClauses_pending w n value rest matched hp
    rw [executeCommand_lastStatus] at hk
    exact hk

theorem outcome_clause_leave {s : State (Bool × C) σ} {action : Command (Bool × C) W}
    (h : Outcome sup depth S (executeCommand w n action s)) : Outcome sup depth (S.andThen only) (executeCommand w n action s) := by
  apply h.andThen
  · intro hr
    exact outcome_only hr _
  · intro _
    exact Kept.refl _

theorem outcome_union_left {r : ℤ × State (Bool × C) σ} (h : Outcome sup depth S r) : Outcome sup depth (union S T) r :=
  h.mono fun e he => by simp [union,he]

theorem outcome_union_right {r : ℤ × State (Bool × C) σ} (h : Outcome sup depth T r) : Outcome sup depth (union S T) r :=
  h.mono fun e he => by simp [union,he]

theorem outcome_choice {Y N : Ends} {r yes no : ℤ × State (Bool × C) σ} (h : Outcome sup depth T r)
    (hy : Ready sup depth r.2 → r.1 = 0 → Outcome sup depth Y yes) (hno : Ready sup depth r.2 → r.1 ≠ 0 → Outcome sup depth N no) :
    Outcome sup depth (T.andThen fun ok => if ok then Y else N) (if r.2.pending.isSome then r else if r.1 = 0 then yes else no) := by
  apply h.andThen_ite _ (Kept.refl r)
  intro hr
  by_cases h0 : r.1 = 0
  · simpa [h0] using hy hr h0
  · simpa [h0] using hno hr h0

theorem outcome_condition {command : Command C W} {s : State (Bool × C) σ} (hc : ∀ {s : State (Bool × C) σ},Ready (sup + 1) depth s →
      Outcome (sup + 1) depth (ends (0 < sup + 1) (0 < depth) command) (executeCommand w n (mark (0 < sup + 1) command) s))
    (h : Ready sup depth s) : Outcome sup depth (ends true (0 < depth) command) (tested (executeCommand w n (mark true command)) s) :=
  outcome_tested (fun s hs => by simpa using hc hs) h

mutual
theorem outcome_command : ∀ (command : Command C W) {sup depth : ℕ} {s : State (Bool × C) σ},Ready sup depth s →
    Outcome sup depth (ends (0 < sup) (0 < depth) command) (executeCommand w n (mark (0 < sup) command) s)
  | .mk true data,sup,depth,s,h => by
    have hd : ∀ s,Ready (sup + 1) depth s → Outcome (sup + 1) depth (dataEnds true (0 < depth) data)
        (dispatch w n (markData true data) s) := by
      intro s hs
      simpa using outcome_data data (.inl (Nat.succ_pos sup)) hs
    simpa [ends,mark] using outcome_inverted w n hd h
  | .mk false data,sup,depth,s,h => by
    by_cases hsi : isSimple data
    · cases data <;> simp [isSimple] at hsi
      simpa [mark,markData] using outcome_simple w n h
    · have he : exempt (markData (decide (0 < sup)) data) = exempt data := by
        cases data with
        | connection first second connector => cases connector <;> rfl
        | _ => rfl
      have ho := outcome_plain w n (outcome_data data (.inr (by simpa using hsi)) h) h
      rw [he] at ho
      simpa [ends,mark] using ho

theorem outcome_data : ∀ (data : CommandData C W) {sup depth : ℕ} {s : State (Bool × C) σ},0 < sup ∨ isSimple data = false →
    Ready sup depth s → Outcome sup depth (dataEnds (0 < sup) (0 < depth) data) (dispatch w n (markData (0 < sup) data) s)
  | .null,sup,depth,s,_,h => by
    rw [dataEnds,markData,dispatch]
    exact outcome_only h 0
  | .simple c,sup,depth,s,hok,h => by
    rw [dataEnds,markData,dispatch]
    exact outcome_runSimple w h (.inl (by simpa [isSimple] using hok))
  | .connection first second .andAnd,sup,depth,s,_,h => by
    rw [dataEnds,markData,dispatch]
    apply outcome_choice (outcome_condition w n (outcome_command first) h)
    · intro hr _
      exact outcome_command second hr
    · intro hr hne
      have ho := outcome_only hr (tested (executeCommand w n (mark true first)) s).1
      rw [decide_eq_false hne] at ho
      exact ho
  | .connection first second .orOr,sup,depth,s,_,h => by
    rw [dataEnds,markData,dispatch]
    simp only [ne_eq,ite_not]
    apply outcome_choice (outcome_condition w n (outcome_command first) h)
    · intro hr h0
      have ho := outcome_only hr (tested (executeCommand w n (mark true first)) s).1
      rw [decide_eq_true h0] at ho
      exact ho
    · intro hr _
      exact outcome_command second hr
  | .connection first second .semi,sup,depth,s,_,h | .connection first second .newline,sup,depth,s,_,h => by
    rw [dataEnds,markData,dispatch]
    apply (outcome_command first h).andThen_ite (outcome_command second)
    exact ⟨executeCommand_lastStatus w n _ s,rfl,rfl,rfl,rfl⟩
  | .group command,sup,depth,s,_,h => by
    rw [dataEnds,markData,dispatch]
    exact outcome_command command h
  | .ifThen test trueCase,sup,depth,s,_,h => by
    rw [dataEnds,markData,dispatch]
    apply outcome_choice (outcome_condition w n (outcome_command test) h)
    · intro hr _
      exact outcome_command trueCase hr
    · intro hr _
      exact outcome_only hr 0
  | .ifElse test trueCase falseCase,sup,depth,s,_,h => by
    rw [dataEnds,markData,dispatch]
    apply outcome_choice (outcome_condition w n (outcome_command test) h)
    · intro hr _
      exact outcome_command trueCase hr
    · intro hr _
      exact outcome_command falseCase hr
  | .loop invert test action,sup,depth,s,_,h => by
    rw [dataEnds,markData,dispatch]
    refine outcome_rounds (fun s hs => ?_) (ends_tested true test) (fun s hs => ?_) n (.inl rfl) h.enter
    · simpa using outcome_command test hs
    · simpa using outcome_command action hs
  | .forIn head action,sup,depth,s,_,h => by
    rw [dataEnds,markData,dispatch]
    have hz : Ends.forIn (0 < depth) (ends (0 < sup) true action) (.done ((0 : ℤ) = 0)) := by simp [Ends.forIn]
    refine outcome_forItems (fun s hs => ?_) (w.items head s.world).1 hz (h.withWorld (w.items head s.world).2).enter
    simpa using outcome_command action hs
  | .case word clauses,sup,depth,s,_,h => by
    rw [dataEnds,markData,dispatch]
    exact outcome_clauses clauses (w.word word s.world).1 false 0 (h.withWorld (w.word word s.world).2)

theorem outcome_clauses : ∀ (clauses : Clauses C W) (value : String) (matched : Bool) (status : ℤ) {sup depth : ℕ}
    {s : State (Bool × C) σ},Ready sup depth s → Outcome sup depth (clausesEnds (0 < sup) (0 < depth) clauses matched (status = 0))
      (runClauses w n value (markClauses (0 < sup) clauses) matched status s)
  | .nil,value,matched,status,sup,depth,s,h => by
    rw [clausesEnds,markClauses,runClauses]
    exact outcome_only h status
  | .clause patterns action flags rest,value,true,status,sup,depth,s,h => by
    rw [clausesEnds,markClauses,runClauses,if_pos rfl]
    have ha := outcome_command action h
    cases flags
    · exact outcome_clause_leave w n ha
    · exact outcome_clause w n ha fun status s hs => outcome_clauses rest value true status hs
    · exact outcome_clause_leave w n ha
  | .clause patterns action flags rest,value,false,status,sup,depth,s,h => by
    rw [clausesEnds,markClauses,runClauses,if_neg Bool.false_ne_true]
    rcases w.patternListMatches patterns value s.world with ⟨found,world⟩
    cases found with
    | false => exact outcome_union_left (outcome_clauses rest value false status (h.withWorld world))
    | true =>
      apply outcome_union_right
      have ha := outcome_command action (h.withWorld world)
      cases flags
      · exact outcome_clause_leave w n ha
      · exact outcome_clause w n ha fun status s hs => outcome_clauses rest value true status hs
      · exact outcome_clause w n ha fun status s hs => outcome_clauses rest value false status hs
  | .empty patterns flags rest,value,true,status,sup,depth,s,h => by
    rw [clausesEnds,markClauses,runClauses,if_pos rfl]
    cases flags
    · exact outcome_only h status
    · exact outcome_clauses rest value true status h
    · exact outcome_only h status
  | .empty patterns flags rest,value,false,status,sup,depth,s,h => by
    rw [markClauses,runClauses,if_neg Bool.false_ne_true]
    rcases w.patternListMatches patterns value s.world with ⟨found,world⟩
    have hr := outcome_clauses rest value false status (h.withWorld world)
    cases flags
    all_goals
      rw [clausesEnds]
      cases found
    · exact outcome_union_left hr
    · exact outcome_union_right (outcome_only (h.withWorld world) status)
    · exact outcome_union_left hr
    · exact outcome_union_right (outcome_clauses rest value true status (h.withWorld world))
    · exact outcome_union_left hr
    · exact outcome_union_right hr
end
end
end Cherubsh.Exec.Errexit
