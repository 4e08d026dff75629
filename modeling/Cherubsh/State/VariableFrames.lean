import Cherubsh.State.VariableOps

/-! # What an operation on a name looks at and leaves alone

The operations on arrays and attributes, and an assignment that follows no reference, look at
variables and special state alone, and leave the scopes and the other names as they are.
-/
namespace Cherubsh.State
open VarAttrs Store Binding
variable {name other target : String} {s : Store}

section
theorem currentScopeHas_eq (s : Store) (name : String) :
    s.currentScopeHas name = (s.scopes.getLast?.bind fun scope => scope.saved name).isSome := by
  unfold currentScopeHas
  cases s.scopes.getLast? <;> simp [Scope.has]

/-- Two stores with the same variables and special state; scopes and environment may differ. -/
def Agree (s t : Store) : Prop := s.vars = t.vars ∧ s.special = t.special

/-- An operation on one name looks at variables and special state only, and leaves scopes and
other names alone. -/
structure Steady (name : String) (f : Store → Store) : Prop where
  agree : ∀ {s t}, Agree s t → Agree (f s) (f t)
  scopes : ∀ s, (f s).scopes = s.scopes
  order : ∀ s, (s.vars name).printOrder = none → ((f s).vars name).printOrder = none
  others : ∀ s other, other ≠ name → (f s).vars other = s.vars other ∧ (f s).processEnv other = s.processEnv other
open Steady

def KeepsOrder (f : Binding → Binding) : Prop := ∀ b, b.printOrder = none → (f b).printOrder = none

namespace Steady
variable {name : String} {f g : Store → Store}

theorem id : Steady name fun s => s := ⟨fun h => h,fun _ => rfl,fun _ h => h,fun _ _ _ => ⟨rfl,rfl⟩⟩

theorem modify {change : Binding → Binding} (hc : KeepsOrder change) : Steady name (modify name change) where
  agree h := ⟨by unfold Store.modify; rw [h.1],h.2⟩
  scopes _ := rfl
  order s h := by simpa [Store.modify] using hc _ h
  others s other ho := by simp [Store.modify,ho]

theorem special (change : Binding → SpecialState → SpecialState) :
    Steady name fun s => { s with special := change (s.vars name) s.special } where
  agree h := ⟨h.1,by dsimp only; rw [h.1,h.2]⟩
  scopes _ := rfl
  order _ h := h
  others _ _ _ := ⟨rfl,rfl⟩

theorem setEnv (hf : Steady name f) (value : Store → Option String) : Steady name fun s => (f s).setEnv name (value s) where
  agree h := hf.agree h
  scopes s := hf.scopes s
  order s h := hf.order s h
  others s other ho := by simpa [Store.setEnv,ho] using hf.others s other ho

theorem comp (hg : Steady name g) (hf : Steady name f) : Steady name fun s => g (f s) where
  agree h := hg.agree (hf.agree h)
  scopes s := (hg.scopes _).trans (hf.scopes s)
  order s h := hg.order _ (hf.order s h)
  others s other ho :=
    ⟨(hg.others _ other ho).1.trans (hf.others s other ho).1,(hg.others _ other ho).2.trans (hf.others s other ho).2⟩

theorem ite (c : Store → Prop) [∀ s, Decidable (c s)] (hc : ∀ {s t}, Agree s t → (c s ↔ c t)) (hf : Steady name f)
    (hg : Steady name g) : Steady name fun s => if c s then f s else g s where
  agree {s t} h := by
    by_cases hs : c s
    · have ht : c t := (hc h).mp hs
      simpa [hs,ht] using hf.agree h
    · have ht : ¬c t := fun ht => hs ((hc h).mpr ht)
      simpa [hs,ht] using hg.agree h
  scopes s := by split <;> simp [hf.scopes,hg.scopes]
  order s h := by
    split
    · exact hf.order s h
    · exact hg.order s h
  others s other ho := by
    split
    · exact hf.others s other ho
    · exact hg.others s other ho
end Steady

variable (host : Host) (name : String)

theorem keepsOrder_setArray (values : List String) : KeepsOrder (Binding.setArray host values) := fun _ h => h

theorem keepsOrder_setArrayIndexed (index : ℤ) (value : String) : KeepsOrder (Binding.setArrayIndexed host index value) := by
  intro b h
  fun_cases Binding.setArrayIndexed host index value b <;> exact h

theorem keepsOrder_setArrayAssoc (key value : String) : KeepsOrder (Binding.setArrayAssoc host key value) := by
  intro b h
  have hm : ∀ f : List String → List String, b.printOrder.map f = none := by simp [h]
  fun_cases Binding.setArrayAssoc host key value b with
  | case1 => exact h
  | case2 | case3 => exact hm _

theorem keepsOrder_unsetArrayElem (key : String) : KeepsOrder (Binding.unsetArrayElem key) := by
  intro b h
  fun_cases Binding.unsetArrayElem key b <;> simp [h]

theorem keepsOrder_setReference (on : Bool) : KeepsOrder (setReference on) := by
  intro b h
  fun_cases setReference on b <;> exact h

theorem keepsOrder_setAttr (attr : VarAttrs) (on : Bool) : KeepsOrder (Binding.setAttr attr on) := by
  intro b h
  unfold Binding.setAttr
  split
  · exact h
  have hk : ∀ (c : Prop) [Decidable c] (f : Binding → Binding), KeepsOrder f → KeepsOrder fun b => if c then f b else b := by
    intro c _ f hf b h
    split
    · exact hf b h
    · exact h
  apply hk _ (setReference on) (keepsOrder_setReference on)
  apply hk _ (fun b => { b with entry := b.entry.map fun entry => { entry with readonly := on } }) fun _ h => h
  apply hk _ (fun b => { b with entry := b.entry.map fun entry => { entry with exported := on } }) fun _ h => h
  apply hk _ (becomeAssoc b) fun _ _ => rfl
  apply hk _ (becomeIndexed b) fun _ _ => rfl
  exact h

theorem steady_setArray (values : List String) : Steady name (setArray host name values) := by
  apply Steady.ite _ (fun h => by rw [h.2]) Steady.id
  apply Steady.ite _ (fun _ => Iff.rfl)
  · exact Steady.special fun _ special => { special with dirsStack := values.drop 1 }
  · exact modify (keepsOrder_setArray host values)

theorem steady_setArrayIndexed (index : ℤ) (value : String) : Steady name (setArrayIndexed host name index value) := by
  apply Steady.ite _ (fun h => by rw [h.2]) Steady.id
  apply Steady.ite _ (fun _ => Iff.rfl)
  · exact special fun _ special => { special with dirsStack := setDirstack index value special.dirsStack }
  · exact modify (keepsOrder_setArrayIndexed host index value)

theorem steady_setArrayAssoc (key value : String) : Steady name (setArrayAssoc host name key value) := by
  apply Steady.ite _ (fun _ => Iff.rfl)
  · apply Steady.ite _ (fun _ => Iff.rfl)
    · exact special fun _ special => { special with aliases := Function.update special.aliases key (some value) }
    · exact id
  apply Steady.ite _ (fun _ => Iff.rfl)
  · exact Steady.special fun _ special => { special with
      commandHash := Function.update special.commandHash key (some value)
      commandHashHits := Function.update special.commandHashHits key (some 0) }
  · exact modify (keepsOrder_setArrayAssoc host key value)

theorem steady_unsetArrayElem (key : String) : Steady name (unsetArrayElem name key) := by
  apply Steady.ite _ (fun _ => Iff.rfl)
  · exact special fun _ special => { special with dirsStack := unsetDirstack key special.dirsStack }
  apply Steady.ite _ (fun _ => Iff.rfl)
  · exact Steady.special fun _ special => { special with aliases := Function.update special.aliases key none }
  apply Steady.ite _ (fun _ => Iff.rfl)
  · exact Steady.special fun _ special => { special with
      commandHash := Function.update special.commandHash key none
      commandHashHits := Function.update special.commandHashHits key none }
  · exact modify (keepsOrder_unsetArrayElem key)

theorem steady_syncExportEnv : Steady name (syncExportEnv host name) :=
  id.setEnv fun s => exportedValue host s name

theorem steady_setAttr (attr : VarAttrs) (on : Bool) : Steady name (setAttr host name attr on) := by
  have hm : Steady name (Store.modify name (Binding.setAttr attr on)) := Steady.modify (keepsOrder_setAttr attr on)
  apply Steady.ite _ (fun _ => Iff.rfl)
  · exact (steady_syncExportEnv host name).comp hm
  · exact hm

theorem steady_assignOwn (value : String) : Steady name (assignOwn host name value) := by
  have hm : Steady name (Store.modify name (Binding.assignScalar host value)) := Steady.modify fun _ h => h
  have hs := hm.comp (Steady.special fun b special => assignEffects name (b.assigned host value) special)
  apply Steady.ite _ (fun h => by rw [h.1]) (steady_setArrayAssoc host name "0" value)
  apply Steady.ite _ (fun h => by rw [h.1]) (steady_setArrayIndexed host name 0 value)
  apply Steady.ite _ (fun h => by rw [h.1])
  · exact hs.setEnv fun s => some ((s.vars name).assigned host value)
  · exact hs
end

section
variable {f : Store → Store}

/-- Two runs with the same outcome, after which the stores agree again. -/
def Matched (name : String) (s : Store) (x y : Option (Outcome × Store)) : Prop :=
  ∃ outcome s' t', x = some (outcome,s') ∧ y = some (outcome,t') ∧ Agree s' t' ∧ s'.scopes = s.scopes ∧
    ((s.vars name).printOrder = none → (s'.vars name).printOrder = none)

theorem Steady.order_of (hf : Steady other f) (h : (s.vars name).printOrder = none) : ((f s).vars name).printOrder = none := by
  by_cases hn : name = other
  · subst hn
    exact hf.order s h
  · rw [(hf.others s name hn).1]
    exact h

theorem Steady.matched {t : Store} (hf : Steady other f) (h : Agree s t)
    (outcome : Outcome) : Matched name s (some (outcome,f s)) (some (outcome,f t)) :=
  ⟨outcome,f s,f t,rfl,rfl,hf.agree h,hf.scopes s,hf.order_of⟩

theorem Matched.after {x y : Option (Outcome × Store)}
    (hf : Steady other f) (h : Matched name (f s) x y) : Matched name s x y := by
  obtain ⟨outcome,s',t',hx,hy,ha,hs,ho⟩ := h
  exact ⟨outcome,s',t',hx,hy,ha,hs.trans (hf.scopes s),fun h => ho (hf.order_of h)⟩

variable (host : Host) {s t : Store} {name : String} (value : String)

/-- Stores that agree are both left without an answer or have the same one. -/
def Answered (run : Store → Option (Outcome × Store)) : Prop :=
  ∀ s t, Agree s t → ∀ name, (run s = none ∧ run t = none) ∨ ((run s).isSome ∧ Matched name s (run s) (run t))

theorem Steady.answered (hf : Steady name f) (outcome : Outcome) : Answered fun s => some (outcome,f s) :=
  fun _ _ h _ => .inr ⟨rfl,hf.matched h outcome⟩

theorem Answered.ite {x y : Store → Option (Outcome × Store)} (c : Store → Prop) [∀ s, Decidable (c s)]
    (hc : ∀ {s t}, Agree s t → (c s ↔ c t)) (hx : Answered x) (hy : Answered y) : Answered fun s => if c s then x s else y s := by
  intro s t h name
  by_cases hs : c s
  · simpa [hs,(hc h).mp hs] using hx s t h name
  · have ht : ¬c t := fun ht => hs ((hc h).mpr ht)
    simpa [hs,ht] using hy s t h name

theorem assignSpecial_answered (target : String) : Answered (assignSpecial host target value) := by
  have hid : Steady target fun s => s := Steady.id
  have hs (change : SpecialState → SpecialState) : Answered fun s => some (.ok (),{ s with special := change s.special }) :=
    (@Steady.special target fun _ => change).answered _
  apply Answered.ite _ fun _ => Iff.rfl
  · cases Expander.Arith.parseI64 (Expander.Arith.trim value.toList) with
    | none => exact hid.answered _
    | some seed =>
      have he : Steady target (Store.modify target fun b => { b with entry := some ⟨toString seed,true,false,false,INTEGER⟩ }) :=
        Steady.modify fun _ h => h
      exact ((Steady.special fun _ special =>
        { special with randomSeed := (seed % 2 ^ 32).toNat, lastRandomValue := 0 }).comp he).answered _
  apply Answered.ite _ fun h => by rw [h.2]
  · exact hs fun special => { special with dollarVars := value :: special.dollarVars.drop 1 }
  apply Answered.ite _ fun h => by rw [h.2]
  · exact hs fun special => { special with
      secondsOffset := (Expander.Arith.parseI64 (Expander.Arith.trim value.toList)).getD 0
      secondsStart := host.now }
  apply Answered.ite _ (fun h => by rw [h.2]) (hid.answered _)
  apply Answered.ite _ (fun _ => Iff.rfl) (hid.answered _)
  apply Answered.ite _ fun _ => Iff.rfl
  · have he : Steady target (Store.modify target fun b => { b with entry := none }) := Steady.modify fun _ h => h
    exact (he.setEnv fun _ => none).answered _
  apply Answered.ite _ (fun h => by rw [h.2]) (hid.answered _)
  exact fun _ _ _ _ => .inl ⟨rfl,rfl⟩

variable (h : Agree s t)
include h

theorem resolveFrom_congr (rounds : ℕ) (seen : List String) (cur : String) :
    resolveFrom s rounds seen cur = resolveFrom t rounds seen cur := by
  fun_induction resolveFrom s rounds seen cur <;> simp_all [resolveFrom,h.1]

omit h

theorem nameref_of_resolveFrom {rounds : ℕ} {seen : List String} {cur : String}
    (h : resolveFrom s rounds seen cur = some target) :
    (s.vars target).nameref = none ∨ (s.vars target).nameref = some target := by
  fun_induction resolveFrom s rounds seen cur <;> simp_all

theorem resolveNameref_of_self (h : (s.vars name).nameref = some name) : resolveNameref s name = some name := by
  simp [resolveNameref,namerefMaxDepth,resolveFrom,h]

theorem localSelfNamerefTarget_iff :
    s.localSelfNamerefTarget name ↔ (s.vars name).nameref = some name ∧ (s.globalScopeIndex name).isSome := by
  simp [localSelfNamerefTarget]

include h

theorem isReadonly_congr (target : String) : isReadonly s target = isReadonly t target := by
  simp [isReadonly,h.1,h.2]

theorem attrsOf_congr (target : String) : attrsOf s target = attrsOf t target := by
  simp [attrsOf,h.1]

theorem isAssoc_congr (target : String) : isAssoc s target = isAssoc t target := by
  simp [isAssoc,attrsOf,h.1,h.2]

omit h in
theorem steady_dropReference (target : String) :
    Steady target fun s =>
      if (attrsOf s target).has NAMEREF then setArray host target [] (setAttr host target NAMEREF false s) else s :=
  Steady.ite _ (fun h => by rw [attrsOf_congr h])
    ((steady_setArray host target []).comp (steady_setAttr host target NAMEREF false)) Steady.id

theorem assignNamerefTarget_matched {again again' : String → String → Store → Option (Outcome × Store)} {source : String}
    (hag : Matched name s (again target value s) (again' target value t)) :
    Matched name s (assignNamerefTarget host again source target value s)
      (assignNamerefTarget host again' source target value t) := by
  have hid : Steady name fun s => s := Steady.id
  unfold assignNamerefTarget
  cases har : stateArrayReference target with
  | none =>
    dsimp only
    split
    · exact hid.matched h _
    · exact hag
  | some reference =>
    obtain ⟨array,subscript⟩ := reference
    dsimp only
    rw [← isReadonly_congr h,← h.1]
    split
    · exact hid.matched h _
    split
    · exact hid.matched h _
    have hd := steady_dropReference host array
    have ha := hd.agree h
    apply Matched.after hd
    generalize (if (attrsOf s array).has NAMEREF then setArray host array [] (setAttr host array NAMEREF false s) else s) = s at ha ⊢
    generalize (if (attrsOf t array).has NAMEREF then setArray host array [] (setAttr host array NAMEREF false t) else t) = t at ha ⊢
    rw [← isAssoc_congr ha]
    split
    · exact (steady_setArrayAssoc host array subscript value).matched ha _
    split
    · exact hid.matched ha _
    split
    · exact (steady_setArrayIndexed host array _ value).matched ha _
    · exact hid.matched ha _

omit h in
/-- The assignment passes the checks of its name and comes to a reference with a target. -/
def FollowsReference (name : String) (value : String) (s : Store) : Prop :=
  assignSpecial host name value s = none ∧ (s.vars name).isReadonly = false ∧ (s.vars name).attrs.has NAMEREF ∧
    (s.vars name).nameref.isSome

theorem assign_matched_of_follow {calls : ℕ}
    (hf : FollowsReference host target value s → ¬s.localSelfNamerefTarget target ∧ ¬t.localSelfNamerefTarget target ∧
      ∀ next, resolveNameref s target = some next → next ≠ target →
        Matched name s (assign host calls next value s) (assign host calls next value t)) :
    Matched name s (assign host (calls + 1) target value s) (assign host (calls + 1) target value t) := by
  have hid : Steady name fun s => s := Steady.id
  unfold assign
  rcases assignSpecial_answered host value target s t h name with ⟨hn,hn'⟩ | ⟨hso,hm⟩
  · rw [hn,hn']
    rw [← h.1]
    by_cases hr : (s.vars target).isReadonly
    · simpa only [if_pos hr] using hid.matched h _
    simp only [if_neg hr]
    by_cases ha : (s.vars target).attrs.has NAMEREF
    · simp only [if_pos ha]
      by_cases hta : (s.vars target).nameref.isSome
      · obtain ⟨hs,ht,hnx⟩ := hf ⟨hn,by simpa using hr,ha,hta⟩
        have hre : resolveNameref t target = resolveNameref s target := (resolveFrom_congr h _ _ _).symm
        simp only [if_pos hta,if_neg hs,if_neg ht,hre]
        cases hres : resolveNameref s target with
        | none => exact hid.matched h _
        | some next =>
          dsimp only
          split
          · rename_i hne
            exact assignNamerefTarget_matched host value h (hnx next hres hne)
          · exact (steady_assignOwn host target value).matched h _
      · simp only [if_neg hta]
        split
        · exact hid.matched h _
        · have hmo : Steady target (modify target (assignTarget value)) := Steady.modify fun _ h => h
          exact hmo.matched h _
    · simpa only [if_neg ha] using (steady_assignOwn host target value).matched h _
  · obtain ⟨outcome,s',t',hx,hy,hrs⟩ := hm
    rw [hx,hy]
    exact ⟨outcome,s',t',rfl,rfl,hrs⟩

theorem assign_matched (ht : t.scopes = []) (target : String)
    (hs : FollowsReference host target value s → ∀ next, resolveNameref s target = some next → ¬s.localSelfNamerefTarget next)
    (calls : ℕ) :
    Matched name s (assign host (calls + 2) target value s) (assign host (calls + 2) target value t) := by
  have hl : ∀ other, ¬t.localSelfNamerefTarget other := by
    simp [localSelfNamerefTarget_iff,globalScopeIndex,ht]
  apply assign_matched_of_follow host value h
  intro hf
  have hse : ¬s.localSelfNamerefTarget target := fun hse =>
    hs hf target (resolveNameref_of_self (localSelfNamerefTarget_iff.mp hse).1) hse
  apply And.intro hse
  apply And.intro (hl target)
  intro next hn _
  apply assign_matched_of_follow host value h
  intro hf'
  refine ⟨hs hf next hn,hl next,fun last hla hne => ?_⟩
  -- the resolved name refers to nothing or to itself, so the second call follows no reference
  have hst := (nameref_of_resolveFrom hn).resolve_left (Option.isSome_iff_ne_none.mp hf'.2.2.2)
  rw [resolveNameref_of_self hst] at hla
  exact absurd (Option.some.inj hla).symm hne
end
end Cherubsh.State
