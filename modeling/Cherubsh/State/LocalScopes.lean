import Cherubsh.State.Attributes
import Cherubsh.State.VariableFrames

/-! # Leaving a function scope

A local keeps the binding it hides in the scope of its function, and leaving the scope puts it
back. The listing order is not kept: it is lost for every name that was made local.
-/
namespace Cherubsh.State
open VarAttrs Binding Store SavedVar List Option
variable {attr : VarAttrs} {b : Binding} {on : Bool} {u : Store} {f : Binding → Binding} {value : String} {calls : ℕ}
  {outer : List Scope}
  {top : Scope}

section
variable {b : Binding}

def Binding.ReferenceFree (b : Binding) : Prop := b.attrs.has NAMEREF = false

/-- A change of a binding that makes no reference of it. -/
def KeepsFree (f : Binding → Binding) : Prop := ∀ b : Binding, b.ReferenceFree → (f b).ReferenceFree

theorem referenceFree_of_entry (h : ∀ entry, b.entry = some entry → entry.attrs.has NAMEREF = false) :
    b.ReferenceFree := by
  unfold ReferenceFree attrs
  cases he : b.entry with
  | none => decide
  | some entry => exact h entry he

theorem entry_of_referenceFree (h : b.ReferenceFree) {entry : VariableEntry} (he : b.entry = some entry) :
    entry.attrs.has NAMEREF = false := by
  simpa [ReferenceFree,attrs,he] using h

theorem has_nameref_or_of_free {attrs : VarAttrs} (h : attrs.has NAMEREF = false) (ha : attr.has NAMEREF = false) :
    (attrs ||| attr).has NAMEREF = false := by
  rw [has_or bit_NAMEREF,h,ha]
  rfl

variable (host : Host)

theorem keepsFree_setArray (values : List String) : KeepsFree (Binding.setArray host values) := by
  intro b _
  show ARRAY.has NAMEREF = false
  decide

theorem referenceFree_written {b' : Binding} {c : Prop} [Decidable c] {written : VariableEntry} (h : b.ReferenceFree)
    (hb : b'.entry = if c then some written else b.entry) (ha : written.attrs = b.attrs ||| attr) (hat : attr.has NAMEREF = false) :
    b'.ReferenceFree := by
  apply referenceFree_of_entry
  intro entry he
  rw [hb] at he
  split at he
  · cases he
    rw [ha]
    exact has_nameref_or_of_free h hat
  · exact entry_of_referenceFree h he

theorem keepsFree_setArrayIndexed (index : ℤ) (value : String) : KeepsFree (Binding.setArrayIndexed host index value) := by
  intro b h
  fun_cases Binding.setArrayIndexed host index value b with
  | case1 => exact h
  | case2 | case3 => exact referenceFree_written h rfl rfl (by decide)

theorem keepsFree_setArrayAssoc (key value : String) : KeepsFree (Binding.setArrayAssoc host key value) := by
  intro b h
  fun_cases Binding.setArrayAssoc host key value b with
  | case1 => exact h
  | case2 => exact referenceFree_written h rfl rfl (by decide)
  | case3 => exact referenceFree_written h rfl rfl (by decide)

theorem keepsFree_unsetArrayElem (key : String) : KeepsFree (Binding.unsetArrayElem key) := by
  intro b h
  apply referenceFree_of_entry
  intro entry he
  have hm : ∀ (value : String) (hasValue : Bool) (attr : VarAttrs), attr.has NAMEREF = false →
      (b.entry.map fun entry => { entry with value := value, hasValue := hasValue, attrs := entry.attrs ||| attr }) = some entry →
        entry.attrs.has NAMEREF = false := by
    intro value hasValue attr ha hm
    obtain ⟨old,ho,rfl⟩ := map_eq_some_iff.mp hm
    exact has_nameref_or_of_free (entry_of_referenceFree h ho) ha
  unfold Binding.unsetArrayElem at he
  split at he
  · dsimp only at he
    split at he
    · exact hm _ _ ASSOC (by decide) he
    · exact entry_of_referenceFree h he
  · split at he
    · exact hm _ _ ARRAY (by decide) he
    · exact entry_of_referenceFree h he

theorem keepsFree_assignScalar (value : String) : KeepsFree (assignScalar host value) := fun _ h => h

theorem referenceFree_ite (c : Prop) [Decidable c] (f : Binding → Binding) (hf : KeepsFree f) (h : b.ReferenceFree) :
    ReferenceFree (if c then f b else b) := by
  split
  · exact hf b h
  · exact h

theorem keepsFree_mapEntry {change : VariableEntry → VariableEntry} (hc : ∀ entry, (change entry).attrs = entry.attrs) :
    KeepsFree fun b => { b with entry := b.entry.map change } := by
  intro b h
  apply referenceFree_of_entry
  intro entry he
  obtain ⟨old,ho,rfl⟩ := map_eq_some_iff.mp he
  rw [hc]
  exact entry_of_referenceFree h ho

theorem referenceFree_getD (h : b.ReferenceFree) : (b.entry.getD {}).attrs.has NAMEREF = false := by
  cases he : b.entry with
  | none => decide
  | some entry => exact entry_of_referenceFree h he

theorem keepsFree_becomeIndexed (old : Binding) : KeepsFree (becomeIndexed old) := by
  intro b h
  show ((b.entry.getD {}).attrs.without ASSOC).has NAMEREF = false
  rw [has_without bit_NAMEREF,referenceFree_getD h]
  rfl

theorem keepsFree_becomeAssoc (old : Binding) : KeepsFree (becomeAssoc old) := by
  intro b h
  show ((b.entry.getD {}).attrs.without ARRAY).has NAMEREF = false
  rw [has_without bit_NAMEREF,referenceFree_getD h]
  rfl

theorem keepsFree_setReference (on : Bool) : KeepsFree (setReference on) := by
  intro b h
  fun_cases setReference on b <;> exact h

theorem keepsFree_setAttr (ha : ¬(attr.has NAMEREF ∧ on)) :
    KeepsFree (Binding.setAttr attr on) := by
  intro b h
  have he := referenceFree_getD h
  unfold Binding.setAttr
  split
  · exact he
  apply referenceFree_ite _ (setReference on) (keepsFree_setReference on)
  apply referenceFree_ite _ (fun b => { b with entry := b.entry.map fun entry => { entry with readonly := on } })
    (keepsFree_mapEntry fun _ => rfl)
  apply referenceFree_ite _ (fun b => { b with entry := b.entry.map fun entry => { entry with exported := on } })
    (keepsFree_mapEntry fun _ => rfl)
  apply referenceFree_ite _ (becomeAssoc b) (keepsFree_becomeAssoc b)
  apply referenceFree_ite _ (becomeIndexed b) (keepsFree_becomeIndexed b)
  show (if on then (b.entry.getD {}).attrs ||| attr else (b.entry.getD {}).attrs.without attr).has NAMEREF = false
  cases on with
  | true => exact has_nameref_or_of_free he (by simpa using ha)
  | false => simp [has_without bit_NAMEREF,he]
end

section
variable {outcome : Outcome} {special : SpecialState}

def ownState : List String :=
  ["RANDOM","SRANDOM","BASH_ARGV0","SECONDS","EPOCHSECONDS","EPOCHREALTIME","BASH_MONOSECONDS","GROUPS","DIRSTACK","BASH_ALIASES",
    "BASH_CMDS","BASH_COMPAT","HISTSIZE","HISTFILESIZE","HISTCONTROL","HISTFILE","IGNOREEOF"]

/-- A step that stays within one name, which becomes no reference. -/
structure Within (name : String) (s t : Store) : Prop where
  scopes : t.scopes = s.scopes
  others : ∀ other, other ≠ name → t.vars other = s.vars other ∧ t.processEnv other = s.processEnv other
  free : (s.vars name).ReferenceFree → (t.vars name).ReferenceFree
  special : name ∉ ownState → t.special = s.special
open Within

variable {name : String} {s t : Store}

theorem Within.refl (name : String) (s : Store) : Within name s s := ⟨rfl,fun _ _ => ⟨rfl,rfl⟩,fun h => h,fun _ => rfl⟩

theorem Within.trans (h : Within name s t) (h' : Within name t u) : Within name s u where
  scopes := h'.scopes.trans h.scopes
  others other ho :=
    ⟨(h'.others other ho).1.trans (h.others other ho).1,(h'.others other ho).2.trans (h.others other ho).2⟩
  free hfree := h'.free (h.free hfree)
  special hn := (h'.special hn).trans (h.special hn)

theorem within_modify (name : String) (hfree : KeepsFree f) (s : Store) : Within name s (s.modify name f) where
  scopes := rfl
  others other ho := by simp [Store.modify,ho]
  free h := by simpa [Store.modify] using hfree _ h
  special _ := rfl

theorem within_setEnv (value : Option String) (s : Store) : Within name s (s.setEnv name value) where
  scopes := rfl
  others other ho := by simp [setEnv,ho]
  free h := h
  special _ := rfl

theorem within_special (h : name ∉ ownState → special = s.special) :
    Within name s { s with special := special } := ⟨rfl,fun _ _ => ⟨rfl,rfl⟩,fun h => h,h⟩

theorem within_special_of_eq {own : String} (h : name = own) (ho : own ∈ ownState) :
    Within name s { s with special := special } :=
  within_special fun hn => absurd (h ▸ ho) hn

variable (host : Host)

theorem within_syncExportEnv (s : Store) : Within name s (syncExportEnv host name s) := within_setEnv _ s

theorem within_setArray (values : List String) (s : Store) : Within name s (setArray host name values s) := by
  unfold setArray
  split_ifs with _ hn
  · exact refl name s
  · exact within_special_of_eq hn (by decide)
  · exact within_modify name (keepsFree_setArray host values) s

theorem within_setArrayIndexed (index : ℤ) (value : String) (s : Store) :
    Within name s (setArrayIndexed host name index value s) := by
  unfold setArrayIndexed
  split_ifs with _ hn
  · exact refl name s
  · exact within_special_of_eq hn (by decide)
  · exact within_modify name (keepsFree_setArrayIndexed host index value) s

theorem within_setArrayAssoc (key value : String) (s : Store) : Within name s (setArrayAssoc host name key value s) := by
  unfold setArrayAssoc
  split_ifs with hn _ hn
  · exact within_special_of_eq hn (by decide)
  · exact refl name s
  · exact within_special_of_eq hn (by decide)
  · exact within_modify name (keepsFree_setArrayAssoc host key value) s

theorem within_unsetArrayElem (key : String) (s : Store) : Within name s (unsetArrayElem name key s) := by
  unfold unsetArrayElem
  split_ifs with hn hn hn
  iterate 3 exact within_special_of_eq hn (by decide)
  exact within_modify name (keepsFree_unsetArrayElem key) s

theorem within_setAttr (ha : ¬(attr.has NAMEREF ∧ on)) (s : Store) :
    Within name s (setAttr host name attr on s) := by
  have hm := within_modify name (keepsFree_setAttr ha) s
  unfold setAttr
  split
  · exact hm.trans (within_syncExportEnv host _)
  · exact hm

theorem assignEffects_of_not_mem (h : name ∉ ownState) (value : String) (special : SpecialState) :
    assignEffects name value special = special := by
  simp only [ownState,mem_cons,not_mem_nil,or_false,not_or] at h
  simp [assignEffects,applyHistorySpecialVar,h]

theorem within_assignOwn (value : String) (s : Store) : Within name s (assignOwn host name value s) := by
  unfold assignOwn
  dsimp only
  split
  · exact within_setArrayAssoc host "0" value s
  split
  · exact within_setArrayIndexed host 0 value s
  have hm := within_modify name (keepsFree_assignScalar host value) s
  have hs : Within name s { s.modify name (assignScalar host value) with
      special := assignEffects name ((s.vars name).assigned host value) s.special } :=
    hm.trans (within_special fun hn => assignEffects_of_not_mem hn _ _)
  split
  · exact hs.trans (within_setEnv _ _)
  · exact hs

theorem within_assignSpecial (h : assignSpecial host name value s = some (outcome,t)) :
    Within name s t := by
  unfold assignSpecial at h
  dsimp only at h
  split at h
  · rename_i hn
    split at h
    · rename_i seed hs
      cases h
      have he : KeepsFree fun b => { b with entry := some ⟨toString seed,true,false,false,INTEGER⟩ } := fun _ _ => by
        show INTEGER.has NAMEREF = false
        decide
      exact (within_modify name he s).trans (within_special_of_eq hn (by decide))
    · cases h
      exact refl name s
  split at h
  · rename_i hn
    cases h
    exact within_special_of_eq hn.1 (by decide)
  split at h
  · rename_i hn
    cases h
    exact within_special_of_eq hn.1 (by decide)
  split at h
  · cases h
    exact refl name s
  split at h
  · cases h
    exact refl name s
  split at h
  · cases h
    have he : KeepsFree fun b => { b with entry := none } := fun _ _ => by
      show (0 : VarAttrs).has NAMEREF = false
      decide
    exact (within_modify name he s).trans (within_setEnv none _)
  split at h
  · cases h
    exact refl name s
  · cases h

theorem within_assign (hfree : (s.vars name).ReferenceFree)
    (h : assign host calls name value s = some (outcome,t)) : Within name s t := by
  cases calls with
  | zero => cases h
  | succ calls =>
    unfold assign at h
    cases hs : assignSpecial host name value s with
    | some result =>
      rw [hs] at h
      cases h
      exact within_assignSpecial host hs
    | none =>
      rw [hs] at h
      dsimp only at h
      split at h
      · cases h
        exact refl name s
      have ha : ¬(s.vars name).attrs.has NAMEREF := by
        rw [show (s.vars name).attrs.has NAMEREF = false from hfree]
        exact Bool.false_ne_true
      rw [if_neg ha] at h
      cases h
      exact within_assignOwn host value s

theorem get_snd_special (h : name ∉ ownState) (s : Store) : (get host s name).2.special = s.special := by
  have hra : name ≠ "RANDOM" := by rintro rfl; exact h (by decide)
  have hs : name ≠ "SRANDOM" := by rintro rfl; exact h (by decide)
  have hr : ∀ value special, readComputed host s.special name = some (value,special) → special = s.special := by
    intro value special hr
    unfold readComputed at hr
    split at hr
    · exact (congrArg Prod.snd (Option.some.inj hr)).symm
    · simp only [if_neg hra,if_neg hs] at hr
      repeat' split at hr
      all_goals first | exact (congrArg Prod.snd (Option.some.inj hr)).symm | cases hr
  unfold get
  split
  · rename_i value special heq
    exact hr value special heq
  · rfl

theorem within_get (s : Store) : Within name s (get host s name).2 := by
  have hr : (get host s name).2 = { s with special := (get host s name).2.special } := by
    unfold get
    split <;> rfl
  rw [hr]
  exact within_special fun hn => get_snd_special host hn s

theorem within_export (s : Store) : Within name s («export» host name s) := by
  have he : KeepsFree fun b => { b with entry := some ⟨(get host s name).1.getD "",(get host s name).1.isSome,true,
      (b.entry.map VariableEntry.readonly).getD false,b.attrs ||| EXPORT⟩ } := by
    intro b h
    exact has_nameref_or_of_free h (by decide)
  exact ((within_get host s).trans (within_modify name he _)).trans (within_setEnv _ _)

theorem unsetEffects_of_not_mem (h : name ∉ ownState) (special : SpecialState) : unsetEffects name special = special := by
  simp only [ownState,mem_cons,not_mem_nil,or_false,not_or] at h
  simp [unsetEffects,h]

theorem referenceFree_declared ( exported : Bool) : (declared exported).ReferenceFree := by
  unfold ReferenceFree
  cases exported <;> decide

theorem keepsFree_const (h : b.ReferenceFree) : KeepsFree fun _ => b := fun _ _ => h

theorem within_unset (hc : s.currentScopeHas name) : Within name s (unset host name s) := by
  unfold unset
  split
  · exact refl name s
  rw [currentScopeHas_eq] at hc
  obtain ⟨saved,hsa⟩ := isSome_iff_exists.mp hc
  have hs : Within name s { s with special := unsetEffects name s.special } :=
    within_special fun hn => unsetEffects_of_not_mem hn s.special
  simp only [hsa]
  exact (hs.trans (within_modify name (keepsFree_const (referenceFree_declared _)) _)).trans (within_syncExportEnv host _)

def Write.TurnsReference : Write → Prop
  | .setAttr attr on => attr.has NAMEREF ∧ on
  | _ => False

theorem within_write {w : Write} (hw : ¬w.TurnsReference) (hc : s.currentScopeHas name)
    (hfree : (s.vars name).ReferenceFree) (h : w.plain host calls name s = some (outcome,t)) : Within name s t := by
  cases w with
  | assign value => exact within_assign host hfree h
  | setAttr attr on => cases h; exact within_setAttr host hw s
  | setArray values => cases h; exact within_setArray host values s
  | setArrayIndexed index value => cases h; exact within_setArrayIndexed host index value s
  | setArrayAssoc key value => cases h; exact within_setArrayAssoc host key value s
  | «export» => cases h; exact within_export host s
  | unset => cases h; exact within_unset host hc
  | unsetArrayElem key => cases h; exact within_unsetArrayElem key s

theorem within_storeLocal (value : String) (inherited : Bool) (hfree : (s.vars name).ReferenceFree) :
    Within name s (storeLocal host name value inherited s) := by
  have ha : (((s.vars name).entry.map VariableEntry.attrs).getD (if inherited then EXPORT else 0)).has NAMEREF = false := by
    cases he : (s.vars name).entry with
    | none => cases inherited <;> decide
    | some entry => exact entry_of_referenceFree hfree he
  unfold storeLocal
  dsimp only
  generalize ((s.vars name).entry.map VariableEntry.attrs).getD (if inherited then EXPORT else 0) = attrs at ha ⊢
  generalize ((s.vars name).entry.map VariableEntry.exported).getD inherited = exported
  have he : KeepsFree fun b => { b with entry := some ⟨applyCaseAttrs host value attrs,true,exported,false,attrs⟩ } :=
    fun _ _ => ha
  split
  · exact (within_modify name he s).trans (within_setEnv _ _)
  · exact within_modify name he s

theorem referenceFree_inheritedLocal (b : Binding) : b.inheritedLocal.ReferenceFree := by
  apply referenceFree_of_entry
  intro entry he
  obtain ⟨old,-,rfl⟩ := map_eq_some_iff.mp he
  simp [has_without bit_NAMEREF,show NAMEREF.has NAMEREF from by decide]
end

/-! ### Making a name local -/

inductive Localise where
  | plain
  | withValue (value : Option String)
  | inherit

def Localise.run (host : Host) (calls : ℕ) (name : String) : Localise → Store → Option (Outcome × Store)
  | .plain, s => some (makeLocal host name s)
  | .withValue value, s => makeLocalWithValue host calls name value s
  | .inherit, s => some (makeLocalInherit host name s)

section
variable (host : Host) {name : String} {s t : Store} {outcome : Outcome}

/-- A new local keeps the old binding in the current scope and is no reference. -/
def NewLocal (name : String) (s t : Store) : Prop :=
  s.currentScopeHas name = false ∧ Within name (saveLocal name s) t ∧ (t.vars name).ReferenceFree

theorem newLocal_modify (hc : s.currentScopeHas name = false) (hf : ∀ b, (f b).ReferenceFree) :
    NewLocal name s ((saveLocal name s).modify name f) := by
  refine ⟨hc,within_modify name (fun b _ => hf b) _,?_⟩
  simpa [Store.modify] using hf _

theorem NewLocal.trans (h : NewLocal name s t) (h' : Within name t u) : NewLocal name s u :=
  ⟨h.1,h.2.1.trans h',h'.free h.2.2⟩

theorem newLocal_shadowForValue (value : Option String) (hc : s.currentScopeHas name = false) :
    NewLocal name s (shadowForValue host name value s) := by
  unfold shadowForValue
  dsimp only
  split
  · exact (newLocal_modify hc fun _ => referenceFree_declared _).trans (within_syncExportEnv host _)
  · exact newLocal_modify hc fun _ => by unfold ReferenceFree; decide

variable (hscopes : s.scopes ≠ [])
include hscopes

theorem makeLocal_inv : (makeLocal host name s).2 = s ∨ NewLocal name s (makeLocal host name s).2 := by
  unfold makeLocal
  split
  · exact .inl rfl
  rename_i hl
  split
  · exact .inl rfl
  have hc : s.currentScopeHas name = false := by simpa [hscopes] using hl
  exact .inr ((newLocal_modify hc fun _ => referenceFree_declared _).trans (within_syncExportEnv host _))

theorem makeLocalInherit_inv :
    (makeLocalInherit host name s).2 = s ∨ NewLocal name s (makeLocalInherit host name s).2 := by
  unfold makeLocalInherit
  split
  · exact .inl rfl
  rename_i hl
  split
  · exact .inl rfl
  have hc : s.currentScopeHas name = false := by simpa [hscopes] using hl
  exact .inr ((newLocal_modify hc referenceFree_inheritedLocal).trans (within_syncExportEnv host _))

variable (hfree : s.currentScopeHas name → (s.vars name).ReferenceFree)
include hfree

theorem makeLocalWithValue_inv {value : Option String} (h : makeLocalWithValue host calls name value s = some (outcome,t)) :
    t = s ∨ (s.currentScopeHas name ∧ Within name s t) ∨ NewLocal name s t := by
  unfold makeLocalWithValue at h
  rw [if_neg hscopes] at h
  split at h
  · cases h
    exact .inl rfl
  cases value with
  | none =>
    by_cases hc : s.currentScopeHas name
    · simp only [if_pos hc] at h
      cases h
      exact .inl rfl
    · simp only [if_neg hc] at h
      cases h
      exact .inr (.inr (newLocal_shadowForValue host none (by simpa using hc)))
  | some value =>
    -- what follows the shadowing is a step within the name, which is no reference by then
    have hre : ∀ shadowed, (shadowed.vars name).ReferenceFree →
        (if !canAssignSimpleLocalDirect shadowed name then assign host calls name value shadowed
          else some (.ok (),storeLocal host name value (!s.currentScopeHas name && (s.vars name).exported) shadowed)) =
          some (outcome,t) → Within name shadowed t := by
      intro shadowed hs hr
      split at hr
      · exact within_assign host hs hr
      · cases hr
        exact within_storeLocal host _ _ hs
    by_cases hc : s.currentScopeHas name
    · simp only [if_pos hc] at h
      exact .inr (.inl ⟨hc,hre s (hfree hc) h⟩)
    · simp only [if_neg hc] at h
      have hn := newLocal_shadowForValue host (some value) (by simpa using hc)
      exact .inr (.inr (hn.trans (hre _ hn.2.2 h)))

theorem localise_inv {how : Localise} (h : how.run host calls name s = some (outcome,t)) :
    t = s ∨ (s.currentScopeHas name ∧ Within name s t) ∨ NewLocal name s t := by
  cases how with
  | plain =>
    obtain rfl : (makeLocal host name s).2 = t := congrArg Prod.snd (Option.some.inj h)
    exact (makeLocal_inv host hscopes).imp_right .inr
  | withValue value => exact makeLocalWithValue_inv host hscopes hfree h
  | inherit =>
    obtain rfl : (makeLocalInherit host name s).2 = t := congrArg Prod.snd (Option.some.inj h)
    exact (makeLocalInherit_inv host hscopes).imp_right .inr
end

/-! ### The run of a function -/

/-- What a function does to variables: it makes names local, writes them, and calls functions. -/
inductive Body where
  | done
  | localise (how : Localise) (name : String) (rest : Body)
  | write (w : Write) (name : String) (rest : Body)
  | call (body rest : Body)

/-- A run of a body in its scope that writes only its locals, with the names made local. -/
inductive Runs (host : Host) : Body → Store → List String → Store → Prop
  | done (s : Store) : Runs host .done s [] s
  | localise {how : Localise} {name : String} {rest : Body} {calls : ℕ} {outcome : Outcome} {s s₁ t : Store} {made : List String}
      (step : how.run host calls name s = some (outcome,s₁)) (run : Runs host rest s₁ made t) :
      Runs host (.localise how name rest) s ((if s₁.currentScopeHas name then [name] else []) ++ made) t
  | write {w : Write} {name : String} {rest : Body} {calls : ℕ} {outcome : Outcome} {s s₁ t : Store} {made : List String}
      (isLocal : s.currentScopeHas name) (step : w.plain host calls name s = some (outcome,s₁))
      (run : Runs host rest s₁ made t) : Runs host (.write w name rest) s made t
  | call {body rest : Body} {s s₁ t : Store} {made made' : List String} (inner : Runs host body (pushLocalScope s) made s₁)
      (run : Runs host rest (popLocalScope host s₁) made' t) : Runs host (.call body rest) s (made ++ made') t

def Body.ReferenceFree : Body → Prop
  | .done => True
  | .localise _ _ rest => rest.ReferenceFree
  | .write w _ rest => ¬w.TurnsReference ∧ rest.ReferenceFree
  | .call body rest => body.ReferenceFree ∧ rest.ReferenceFree

/-- The binding of a name after some names were made local and left again. -/
def leftBinding (made : List String) (base : Store) (name : String) : Binding :=
  if name ∈ made then (base.vars name).snapshot.binding else base.vars name

/-- The store inside a function that was entered at `base`. -/
structure Inside (base : Store) (made : List String) (s : Store) : Prop where
  scope : ∃ top : Scope, s.scopes = base.scopes ++ [top] ∧ top.options = none ∧
    ∀ name, match top.saved name with
      | some saved => name ∈ made ∧ saved.binding = (base.vars name).snapshot.binding ∧ (s.vars name).ReferenceFree
      | none => s.vars name = leftBinding made base name ∧
          (s.processEnv name = base.processEnv name ∨ (name ∈ made ∧ ((base.vars name).entry = none → s.processEnv name = none)))
  special : (∀ name ∈ made, name ∉ ownState) → s.special = base.special

section
variable (host : Host) {base s t : Store} {made : List String} {name : String} {made' : List String}

theorem inside_push (s : Store) : Inside s [] (pushLocalScope s) where
  scope := ⟨⟨fun _ => none,none⟩,rfl,rfl,fun name => ⟨by simp [leftBinding,pushLocalScope],.inl rfl⟩⟩
  special _ := rfl

theorem currentScopeHas_top (hscopes : s.scopes = outer ++ [top]) :
    s.currentScopeHas name = (top.saved name).isSome := by
  rw [currentScopeHas_eq,hscopes]
  simp

variable (h : Inside base made s)
include h

theorem Inside.free (hc : s.currentScopeHas name) : name ∈ made ∧ (s.vars name).ReferenceFree := by
  obtain ⟨top,hscopes,-,hna⟩ := h.scope
  have hn := hna name
  obtain ⟨saved,hs⟩ := isSome_iff_exists.mp (currentScopeHas_top hscopes ▸ hc)
  rw [hs] at hn
  exact ⟨hn.1,hn.2.2⟩

theorem Inside.scopes_ne_nil : s.scopes ≠ [] := by
  obtain ⟨top,hscopes,-⟩ := h.scope
  simp [hscopes]

theorem Inside.within (hc : s.currentScopeHas name) (hs : Within name s t) :
    Inside base made t := by
  obtain ⟨hm,hfree⟩ := h.free hc
  obtain ⟨top,hscopes,hop,hn⟩ := h.scope
  refine ⟨⟨top,hs.scopes.trans hscopes,hop,fun other => ?_⟩,fun hon => ?_⟩
  · have ho := hn other
    by_cases heq : other = name
    · subst heq
      obtain ⟨saved,hsa⟩ := isSome_iff_exists.mp (currentScopeHas_top hscopes ▸ hc)
      rw [hsa] at ho ⊢
      exact ⟨ho.1,ho.2.1,hs.free ho.2.2⟩
    · obtain ⟨hv,he⟩ := hs.others other heq
      rw [hv,he]
      exact ho
  · exact (hs.special (hon name hm)).trans (h.special hon)

theorem Inside.congr (hm : ∀ name, name ∈ made ↔ name ∈ made') : Inside base made' s := by
  obtain ⟨top,hscopes,ho,hna⟩ := h.scope
  have hl : ∀ name, leftBinding made' base name = leftBinding made base name := by simp [leftBinding,hm]
  refine ⟨⟨top,hscopes,ho,fun name => ?_⟩,fun hon => h.special fun name hn => hon name ((hm name).mp hn)⟩
  have hn := hna name
  simp only [hm] at hn
  rw [hl]
  exact hn

theorem Inside.again (hm : name ∈ made) : Inside base (made ++ [name]) s := by
  apply h.congr
  intro other
  rw [mem_append,mem_singleton,or_iff_left_of_imp]
  rintro rfl
  exact hm

omit h

theorem modify_last (outer : List Scope) (top : Scope) (f : Scope → Scope) :
    (outer ++ [top]).modify outer.length f = outer ++ [f top] := by
  induction outer with
  | nil => rfl
  | cons scope outer ih => simp [ih]

theorem saveLocal_scopes (hscopes : s.scopes = outer ++ [top]) :
    (saveLocal name s).scopes = outer ++ [{ top with saved := Function.update top.saved name (some (s.vars name).snapshot) }] := by
  unfold saveLocal
  rw [hscopes]
  simp [modify_last]

theorem leftBinding_snapshot (made : List String) (base : Store) (name : String) :
    (leftBinding made base name).snapshot = (base.vars name).snapshot := by
  unfold leftBinding
  split <;> rfl

theorem leftBinding_entry (made : List String) (base : Store) (name : String) :
    (leftBinding made base name).entry = (base.vars name).entry := congrArg SavedVar.entry (leftBinding_snapshot made base name)

include h

theorem Inside.newLocal (hne : NewLocal name s t) :
    t.currentScopeHas name ∧ Inside base (made ++ [name]) t := by
  obtain ⟨hc,hs,hfree⟩ := hne
  obtain ⟨top,hscopes,hop,hn⟩ := h.scope
  have ht := hs.scopes.trans (saveLocal_scopes hscopes)
  refine ⟨by simp [currentScopeHas_top ht],⟨_,ht,hop,fun other => ?_⟩,fun hon => ?_⟩
  · have ho := hn other
    by_cases heq : other = name
    · subst heq
      have hno : top.saved other = none := by simpa [currentScopeHas_top hscopes] using hc
      rw [hno] at ho
      simp only [Function.update_self]
      refine ⟨by simp,?_,hfree⟩
      rw [ho.1,leftBinding_snapshot]
    · obtain ⟨hv,he⟩ := hs.others other heq
      have hl : leftBinding (made ++ [name]) base other = leftBinding made base other := by simp [leftBinding,heq]
      have hm : other ∈ made ++ [name] ↔ other ∈ made := by simp [heq]
      rw [hv,he,hl]
      simp only [hm,Function.update_of_ne heq]
      exact ho
  · have hsp := hs.special (hon name (by simp))
    exact hsp.trans (h.special fun other ho => hon other (mem_append_left _ ho))

omit h

/-- The store after a function that was entered at `base` and had made the names local. -/
structure Left (base : Store) (made : List String) (s : Store) : Prop where
  scopes : s.scopes = base.scopes
  vars : ∀ name, s.vars name = leftBinding made base name
  env : ∀ name, s.processEnv name = base.processEnv name ∨ (name ∈ made ∧ ((base.vars name).entry = none → s.processEnv name = none))
  special : (∀ name ∈ made, name ∉ ownState) → s.special = base.special

theorem exportedValue_of_none (h : (s.vars name).entry = none) : exportedValue host s name = none := by
  simp [exportedValue,h]

include h

theorem Inside.pop : Left base made (popLocalScope host s) := by
  obtain ⟨top,hscopes,ho,hna⟩ := h.scope
  have hl : s.scopes.getLast? = some top := by simp [hscopes]
  have hv : ∀ name, ((top.saved name).map binding).getD (s.vars name) = leftBinding made base name := by
    intro name
    have hn := hna name
    cases hs : top.saved name with
    | none =>
      rw [hs] at hn
      exact hn.1
    | some saved =>
      rw [hs] at hn
      simpa [leftBinding,hn.1] using hn.2.1
  unfold popLocalScope
  rw [hl]
  simp only [ho]
  refine ⟨by simp [hscopes],hv,fun name => ?_,h.special⟩
  have hn := hna name
  cases hs : top.saved name with
  | none =>
    rw [hs] at hn
    simpa [Scope.has,hs] using hn.2
  | some saved =>
    rw [hs] at hn
    refine .inr ⟨hn.1,fun hno => ?_⟩
    simp only [Scope.has,hs,isSome_some,if_true]
    apply exportedValue_of_none
    show (((top.saved name).map binding).getD (s.vars name)).entry = none
    rw [hv,leftBinding_entry,hno]

theorem Inside.call (hl : Left s made' t) : Inside base (made ++ made') t := by
  obtain ⟨top,hscopes,ho,hna⟩ := h.scope
  refine ⟨⟨top,hl.scopes.trans hscopes,ho,fun name => ?_⟩,fun hon => ?_⟩
  · have hn := hna name
    cases hs : top.saved name with
    | some saved =>
      rw [hs] at hn
      refine ⟨mem_append_left _ hn.1,hn.2.1,?_⟩
      have ha : (leftBinding made' s name).attrs = (s.vars name).attrs := by simp [attrs,leftBinding_entry]
      unfold ReferenceFree
      rw [hl.vars,ha]
      exact hn.2.2
    | none =>
      rw [hs] at hn
      obtain ⟨hv,he⟩ := hn
      constructor
      · rw [hl.vars]
        unfold leftBinding at hv ⊢
        rw [hv]
        by_cases hm : name ∈ made <;> by_cases hm' : name ∈ made' <;> simp [hm,hm',snapshot,binding]
      · have hen : (s.vars name).entry = (base.vars name).entry := by rw [hv,leftBinding_entry]
        rcases hl.env name with hsa | ⟨hm',hno⟩
        · rw [hsa]
          exact he.imp_right fun he => ⟨mem_append_left _ he.1,he.2⟩
        · rw [hen] at hno
          exact .inr ⟨mem_append_right _ hm',hno⟩
  · have hou := h.special fun name hn => hon name (mem_append_left _ hn)
    exact (hl.special fun name hn => hon name (mem_append_right _ hn)).trans hou

omit h

theorem Inside.run {body : Body} (hb : body.ReferenceFree) (hr : Runs host body s made' t)
    (h : Inside base made s) : Inside base (made ++ made') t := by
  induction hr generalizing base made with
  | done s => simpa using h
  | @localise how name rest calls outcome s s₁ t made' step run ih =>
    rcases localise_inv host h.scopes_ne_nil (fun hc => (h.free hc).2) step with rfl | ⟨hc,hs⟩ | hn
    · rw [← append_assoc]
      apply ih hb
      split
      · rename_i hc
        exact h.again (h.free hc).1
      · simpa using h
    · have hc' : s₁.currentScopeHas name := by
        rw [currentScopeHas_eq,hs.scopes,← currentScopeHas_eq]
        exact hc
      rw [if_pos hc',← append_assoc]
      exact ih hb ((h.within hc hs).again (h.free hc).1)
    · obtain ⟨hc,hin⟩ := h.newLocal hn
      rw [if_pos hc,← append_assoc]
      exact ih hb hin
  | write isLocal step run ih =>
    have hs := within_write host hb.1 isLocal (h.free isLocal).2 step
    exact ih hb.2 (h.within isLocal hs)
  | call inner run ihInner ih =>
    have hi := ihInner hb.1 (inside_push _)
    rw [nil_append] at hi
    rw [← append_assoc]
    exact ih hb.2 (h.call (hi.pop host))
end

/-- Every name has the binding and the value it had. -/
def SameVariables (host : Host) (s t : Store) : Prop :=
  ∀ name, t.vars name = s.vars name ∧ (get host t name).1 = (get host s name).1

section
variable {host : Host} {base s : Store} {made : List String}

theorem Left.vars_eq_iff (h : Left base made s) :
    (∀ name, s.vars name = base.vars name) ↔ ∀ name ∈ made, (base.vars name).printOrder = none := by
  constructor
  · intro hv name hm
    have hn := (h.vars name).symm.trans (hv name)
    rw [leftBinding,if_pos hm] at hn
    rw [← hn]
    rfl
  · intro ho name
    rw [h.vars,leftBinding]
    split
    · rename_i hm
      have hno := ho name hm
      cases hb : base.vars name
      simp_all [snapshot,binding]
    · rfl

theorem Left.get_eq (h : Left base made s) (hv : ∀ name, s.vars name = base.vars name)
    (ho : ∀ name ∈ made, name ∉ ownState) (hen : ∀ name ∈ made, (base.vars name).entry = none → base.processEnv name = none)
    (name : String) : (get host s name).1 = (get host base name).1 := by
  have hr : readBinding s name = readBinding base name := by
    have hl : s.localSelfNamerefTarget name = base.localSelfNamerefTarget name := by
      simp [localSelfNamerefTarget,globalScopeIndex,hv,h.scopes]
    have hs : s.globalSavedSnapshot name = base.globalSavedSnapshot name := by
      simp [globalSavedSnapshot,globalScopeIndex,h.scopes]
    unfold readBinding
    rw [hv,hl,hs]
    cases he : (base.vars name).entry with
    | some entry => rfl
    | none =>
      rcases h.env name with hsa | ⟨hm,hn⟩
      · exact hsa
      · exact (hn he).trans (hen name hm he).symm
  unfold get
  rw [h.special ho,hr]
  split <;> rfl
end

/-- Without new references all bindings are back after the scope exactly when no local had a
listing order, and then every plain name has its value again. -/
theorem runs_leave_no_trace (host : Host) (body : Body) (s t : Store) (made : List String)
    (hrun : Runs host body (pushLocalScope s) made t) (hbody : body.ReferenceFree) :
    ((∀ name, (popLocalScope host t).vars name = s.vars name) ↔ ∀ name ∈ made, (s.vars name).printOrder = none) ∧
      ((∀ name ∈ made, (s.vars name).printOrder = none ∧ name ∉ ownState ∧ ((s.vars name).entry = none → s.processEnv name = none)) →
        SameVariables host s (popLocalScope host t)) := by
  have hinside := Inside.run host hbody hrun (inside_push s)
  rw [nil_append] at hinside
  have hleft := hinside.pop host
  refine ⟨hleft.vars_eq_iff,fun h => ?_⟩
  have hvars := hleft.vars_eq_iff.mpr fun name hmade => (h name hmade).1
  intro name
  exact ⟨hvars name,hleft.get_eq hvars (fun name hmade => (h name hmade).2.1) (fun name hmade => (h name hmade).2.2) name⟩

/-- `f() { local x; x=2; }` -/
def assignLocal : Body := .localise .plain "x" (.write (.assign "2") "x" .done)

def startStore : Store := ⟨fun _ => Binding.unset,fun _ => none,[],startSpecial⟩

def enteredLocal : Store := (makeLocal plainHost "x" (pushLocalScope startStore)).2

theorem assignLocal_leaves_no_trace :
    ∃ made t, Runs plainHost assignLocal (pushLocalScope startStore) made t ∧
      SameVariables plainHost startStore (popLocalScope plainHost t) := by
  have hlocal : Localise.run plainHost 0 "x" .plain (pushLocalScope startStore) = some (.ok (),enteredLocal) := rfl
  have hspecial : assignSpecial plainHost "x" "2" enteredLocal = none := rfl
  have hreadonly : (enteredLocal.vars "x").isReadonly = false := by decide
  have hattr : (enteredLocal.vars "x").attrs.has NAMEREF = false := by decide
  have hwrite : Write.plain plainHost 1 "x" (.assign "2") enteredLocal = some (.ok (),assignOwn plainHost "x" "2" enteredLocal) := by
    simp [Write.plain,assign,hspecial,hreadonly,hattr]
  have hrun := Runs.localise hlocal (Runs.write rfl hwrite (Runs.done _))
  have hbody : assignLocal.ReferenceFree := ⟨fun h => h,trivial⟩
  refine ⟨_,_,hrun,(runs_leave_no_trace plainHost assignLocal startStore _ _ hrun hbody).2 ?_⟩
  intro name hmade
  obtain rfl : name = "x" := by
    rw [show enteredLocal.currentScopeHas "x" from rfl] at hmade
    simpa using hmade
  exact ⟨rfl,by decide,fun _ => rfl⟩

/-- An associative array that is listed in the order in which it was written. -/
def listedArray : Binding where
  entry := some { attrs := ASSOC }
  indexed := none
  assoc := some (Function.update (Function.update (fun _ => none) "b" (some "1")) "a" (some "2"))
  printOrder := some ["b","a"]
  nameref := none

def listedStore : Store := { startStore with vars := Function.update (fun _ => Binding.unset) "m" listedArray }

/-- `f() { local m; }` loses the listing order of the global `m`. -/
theorem local_loses_listing_order :
    ∃ made t, Runs plainHost (.localise .plain "m" .done) (pushLocalScope listedStore) made t ∧
      ((popLocalScope plainHost t).vars "m").printOrder = none ∧
        ¬SameVariables plainHost listedStore (popLocalScope plainHost t) := by
  let entered := (makeLocal plainHost "m" (pushLocalScope listedStore)).2
  have hlocal : (Localise.run plainHost 0 "m" .plain (pushLocalScope listedStore)) = some (.ok (),entered) := rfl
  refine ⟨_,_,Runs.localise hlocal (Runs.done entered),rfl,fun h => ?_⟩
  have horder : ((popLocalScope plainHost entered).vars "m").printOrder = (listedStore.vars "m").printOrder := by rw [(h "m").1]
  exact absurd horder (by decide)
end Cherubsh.State
