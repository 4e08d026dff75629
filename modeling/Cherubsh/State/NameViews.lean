import Cherubsh.State.GlobalWrites
import Cherubsh.State.Looks

/-! # The operations on one name

What the store has under a name is its look, the value that is read, the bindings its
scopes keep for the name and whether two options bear on it. An operation on an ordinary
name works on this view alone and leaves the views of the other names as they are.
-/
namespace Cherubsh.State
open VarAttrs Store Binding List
open Common (parseU64)

def computedNames : List String :=
  callNames ++ parameterNames ++
    ["BASH_ARGV0","BASH_COMMAND","SECONDS","EPOCHSECONDS","EPOCHREALTIME","BASH_MONOSECONDS","RANDOM","SRANDOM","GROUPS",
      "BASH_XTRACEFD","DIRSTACK","BASH_ALIASES","BASH_CMDS"]

/-- A name that stands for nothing but its binding. -/
structure Ordinary (name : String) : Prop where
  number : parseU64 name.toList = none
  computed : name ∉ computedNames

structure View where
  look : Look
  value : Option String
  saved : List (Option SavedVar)
  refused : Bool
  keepsLocal : Bool

def view (name : String) (s : Store) : View where
  look := (s.vars name).look
  value := readBinding s name
  saved := s.scopes.map fun scope => scope.saved name
  refused := s.special.restricted && name ∈ ["PATH","SHELL"]
  keepsLocal := s.special.shoptOption "localvar_unset"

namespace View
variable (host : Host)

def assign (text : String) (v : View) : View :=
  { v with look := v.look.assign host text, value := some (v.look.stored host text) }

def setAttr (attr : VarAttrs) (on : Bool) (v : View) : View :=
  { v with look := v.look.setAttr attr on, value := (v.look.setAttr attr on).value }

def «export» (v : View) : View := { v with look := v.look.export v.value }

def withBinding (b : Binding) (v : View) : View := { v with look := b.look, value := none }
end View

/-- Nothing forbids an assignment, and it goes to no other name. -/
structure View.Plain (v : View) : Prop where
  writable : v.look.Writable
  attr : v.look.attrs.has NAMEREF = false
  nameref : v.look.nameref = none
  accepted : v.refused = false

def SpecialState.modes (special : SpecialState) : (SetOption → Bool) × Bool :=
  (special.options.flags,special.shoptOption "localvar_unset")

/-- The second store differs from the first under `name` only. -/
structure OnlyAt (name : String) (s t : Store) : Prop where
  vars : ∀ other, other ≠ name → t.vars other = s.vars other
  env : ∀ other, other ≠ name → t.processEnv other = s.processEnv other
  saved : ∀ other, other ≠ name → (t.scopes.map fun scope => scope.saved other) = s.scopes.map fun scope => scope.saved other
  modes : t.special.modes = s.special.modes

theorem modes_inj {special special' : SpecialState} (h : special.modes = special'.modes) :
    special.options.flags = special'.options.flags ∧
      special.shoptOption "localvar_unset" = special'.shoptOption "localvar_unset" := Prod.mk.inj h

section
variable {s t : Store} {name : String}

theorem globalScopeIndex_eq (s : Store) (name : String) :
    s.globalScopeIndex name = (s.scopes.map fun scope => scope.saved name).findIdx? Option.isSome := by
  rw [List.findIdx?_map]
  rfl

theorem readBinding_congr (hv : t.vars name = s.vars name) (he : t.processEnv name = s.processEnv name)
    (hs : (t.scopes.map fun scope => scope.saved name) = s.scopes.map fun scope => scope.saved name) :
    readBinding t name = readBinding s name := by
  have hf : ∀ u : Store, (u.scopes.findSome? fun scope => scope.saved name) =
      (u.scopes.map fun scope => scope.saved name).findSome? id := fun u => by rw [List.findSome?_map]; rfl
  unfold readBinding localSelfNamerefTarget
  rw [globalSavedSnapshot_eq,globalSavedSnapshot_eq,hf,hf,globalScopeIndex_eq,globalScopeIndex_eq,hv,he,hs]

theorem readBinding_of_attr (h : (s.vars name).attrs.has NAMEREF = false) :
    readBinding s name = match (s.vars name).entry with
      | some e => if e.hasValue then some e.value else none
      | none => s.processEnv name := by
  unfold readBinding
  cases he : (s.vars name).entry with
  | none => rfl
  | some e =>
    have ha : e.attrs.has NAMEREF = false := by simpa [attrs,he] using h
    simp [ha]

theorem readBinding_of_entry (h : (s.vars name).attrs.has NAMEREF = false) (hen : (s.vars name).entry.isSome) :
    readBinding s name = (s.vars name).look.value := by
  obtain ⟨e,he⟩ := Option.isSome_iff_exists.mp hen
  rw [readBinding_of_attr h,he]
  unfold Look.value look VariableEntry.shown
  cases hv : e.hasValue <;> simp [he,hv]

namespace OnlyAt

theorem refl (name : String) (s : Store) : OnlyAt name s s := ⟨fun _ _ => rfl,fun _ _ => rfl,fun _ _ => rfl,rfl⟩

theorem trans {u : Store} (h : OnlyAt name s t) (h' : OnlyAt name t u) : OnlyAt name s u where
  vars other ho := (h'.vars other ho).trans (h.vars other ho)
  env other ho := (h'.env other ho).trans (h.env other ho)
  saved other ho := (h'.saved other ho).trans (h.saved other ho)
  modes := h'.modes.trans h.modes

theorem view_other (h : OnlyAt name s t) {other : String} (ho : other ≠ name) : view other t = view other s := by
  obtain ⟨hf,hs⟩ := modes_inj h.modes
  unfold view SpecialState.restricted
  rw [h.vars other ho,readBinding_congr (h.vars other ho) (h.env other ho) (h.saved other ho),h.saved other ho,
    hf,hs]

theorem modify (name : String) (f : Binding → Binding) (s : Store) : OnlyAt name s (s.modify name f) where
  vars _ ho := Function.update_of_ne ho _ _
  env _ _ := rfl
  saved _ _ := rfl
  modes := rfl

theorem setEnv (name : String) (value : Option String) (s : Store) : OnlyAt name s (s.setEnv name value) where
  vars _ _ := rfl
  env _ ho := Function.update_of_ne ho _ _
  saved _ _ := rfl
  modes := rfl

theorem special {special : SpecialState} (name : String) (s : Store) (h : special.modes = s.special.modes) :
    OnlyAt name s { s with special := special } :=
  ⟨fun _ _ => rfl,fun _ _ => rfl,fun _ _ => rfl,h⟩
end OnlyAt
end

section
variable {host : Host} {s : Store} {name : String}

variable (h : Ordinary name) (value : String)
include h

theorem Ordinary.readComputed (special : SpecialState) : readComputed host special name = none := by
  have hn := h.computed
  simp only [computedNames,mem_append,not_or,mem_cons,not_mem_nil,or_false] at hn
  unfold State.readComputed
  simp [h.number,hn]

theorem Ordinary.get (s : Store) : get host s name = (readBinding s name,s) := by
  unfold State.get
  rw [h.readComputed]

theorem Ordinary.assignSpecial (hr : (view name s).refused = false) (value : String) :
    assignSpecial host name value s = none := by
  have hn := h.computed
  simp only [computedNames,mem_append,not_or,mem_cons,not_mem_nil,or_false] at hn
  simp only [callNames,parameterNames,mem_cons,not_or] at hn
  have hp : ¬(s.special.restricted ∧ name ∈ ["PATH","SHELL"]) := by simpa [view] using hr
  unfold State.assignSpecial
  simp only [if_neg hp]
  simp [hn]

theorem Ordinary.attrsOf (s : Store) : attrsOf s name = (s.vars name).attrs := by
  have hn := h.computed
  simp only [computedNames,mem_append,not_or,mem_cons,not_mem_nil,or_false] at hn
  simp only [parameterNames,mem_cons,not_or] at hn
  unfold State.attrsOf isSpecialScalarName
  simp [hn]

omit h

theorem modes_setShopt {option : String} (h : option ≠ "localvar_unset") (special : SpecialState) (on : Bool) :
    (special.setShopt option on).modes = special.modes := by
  have ho := Function.update_of_ne (Ne.symm h) (some on) special.options.shopt
  exact Prod.ext rfl (congrArg (·.getD false) ho)

theorem modes_applyCompat (special : SpecialState) : (applyCompat value special).modes = special.modes := by
  have hc : ∀ option ∈ compatShoptOptions, option ≠ "localvar_unset" := by decide
  have hof : ∀ options ⊆ compatShoptOptions, ∀ special : SpecialState,
      (options.foldl (fun special option => special.setShopt option false) special).modes = special.modes := by
    intro options hs
    induction options with
    | nil => exact fun _ => rfl
    | cons option options ih =>
      intro special
      obtain ⟨ho,hr⟩ := cons_subset.mp hs
      rw [foldl_cons,ih hr,modes_setShopt (hc option ho)]
  unfold applyCompat
  cases hl : (compatibilityLevel value).bind compatibilityOption with
  | none => exact hof _ (List.Subset.refl _) special
  | some option =>
    obtain ⟨level,-,ho⟩ := Option.bind_eq_some_iff.mp hl
    have hm := mem_of_find?_eq_some ho
    exact (modes_setShopt (hc option hm) _ _).trans (hof _ (List.Subset.refl _) special)

theorem modes_applyHistorySpecialVar (name value : String) (special : SpecialState) :
    (applyHistorySpecialVar name value special).modes = special.modes := by
  unfold applyHistorySpecialVar
  repeat' split
  all_goals rfl

theorem modes_assignEffects (name value : String) (special : SpecialState) :
    (assignEffects name value special).modes = special.modes := by
  have hc : (if name = "BASH_COMPAT" then applyCompat value special else special).modes = special.modes := by
    split
    · exact modes_applyCompat value special
    · rfl
  unfold assignEffects
  dsimp only
  split
  · rw [modes_setShopt (by decide),modes_applyHistorySpecialVar,hc]
  · rw [modes_applyHistorySpecialVar,hc]

theorem modes_unsetEffects (name : String) (special : SpecialState) : (unsetEffects name special).modes = special.modes := by
  unfold unsetEffects
  repeat' split
  all_goals rfl

theorem view_of_look {t : Store} {l : Look} (hs : t.scopes = s.scopes) (hm : t.special.modes = s.special.modes)
    (hl : (t.vars name).look = l) (ha : l.attrs.has NAMEREF = false) (he : l.entry.isSome) :
    view name t = { view name s with look := l, value := l.value } := by
  obtain ⟨hf,hsh⟩ := modes_inj hm
  have hr : readBinding t name = l.value := by
    rw [← hl]
    apply readBinding_of_entry
    · rw [← look_attrs,hl]
      exact ha
    · rw [← hl] at he
      simpa [look] using he
  unfold view SpecialState.restricted
  rw [hs,hf,hsh,hr,hl]

theorem OnlyAt.ite {c : Prop} [Decidable c] {t u : Store} (ht : OnlyAt name s t) (hu : OnlyAt name s u) :
    OnlyAt name s (if c then t else u) := by
  split
  · exact ht
  · exact hu

include h

theorem Ordinary.setArrayAssoc (key value : String) (s : Store) :
    setArrayAssoc host name key value s = s.modify name (Binding.setArrayAssoc host key value) := by
  have hn := h.computed
  simp only [computedNames,mem_append,not_or,mem_cons] at hn
  unfold State.setArrayAssoc
  simp [hn]

theorem Ordinary.setArrayIndexed (index : ℤ) (value : String) (s : Store) :
    setArrayIndexed host name index value s = s.modify name (Binding.setArrayIndexed host index value) := by
  have hn := h.computed
  simp only [computedNames,mem_append,not_or,mem_cons] at hn
  unfold State.setArrayIndexed
  simp [hn]

theorem onlyAt_assignOwn (s : Store) : OnlyAt name s (assignOwn host name value s) := by
  unfold assignOwn
  rw [h.setArrayAssoc,h.setArrayIndexed]
  refine .ite (.modify ..) (.ite (.modify ..) ?_)
  have hs := (OnlyAt.modify name (Binding.assignScalar host value) s).trans
    (.special name _ (modes_assignEffects name ((s.vars name).assigned host value) s.special))
  exact .ite (hs.trans (.setEnv ..)) hs

theorem look_assignOwn (s : Store) :
    ((assignOwn host name value s).vars name).look = (s.vars name).look.assign host value := by
  unfold assignOwn
  dsimp only
  rw [h.setArrayAssoc,h.setArrayIndexed]
  cases ha : (s.vars name).attrs.has ASSOC with
  | true =>
    rw [if_pos rfl,← look_setArrayAssoc_zero value ha]
    simp [Store.modify]
  | false =>
    rw [if_neg Bool.false_ne_true]
    cases har : (s.vars name).attrs.has ARRAY with
    | true =>
      rw [if_pos rfl,← look_setArrayIndexed_zero value har ha]
      simp [Store.modify]
    | false =>
      rw [if_neg Bool.false_ne_true,← look_assignScalar value har ha]
      split <;> simp [Store.modify,Store.setEnv]

theorem modes_assignOwn (s : Store) :
    (assignOwn host name value s).special.modes = s.special.modes := (onlyAt_assignOwn h value s).modes

theorem view_assignOwn (ha : (view name s).look.attrs.has NAMEREF = false) (value : String) :
    view name (assignOwn host name value s) = (view name s).assign host value := by
  have he : ((view name s).look.assign host value).entry.isSome := by
    unfold Look.assign
    split
    · rfl
    · split <;> rfl
  rw [view_of_look ((steady_assignOwn host name value).scopes s) (modes_assignOwn h value s) (look_assignOwn h value s)
    (by rw [Look.attrs_assign]; exact ha) he,Look.value_assign]
  rfl

theorem assign_of_plain (hp : (view name s).Plain) (calls : ℕ) (value : String) :
    assign host (calls + 1) name value s = some (.ok (),assignOwn host name value s) := by
  have ha : (s.vars name).attrs.has NAMEREF = false := by
    rw [← look_attrs]
    exact hp.attr
  have hr : (s.vars name).isReadonly = false := by
    unfold Binding.isReadonly
    rw [← look_attrs,← look_readonly]
    simp only [Bool.or_eq_false_iff]
    exact ⟨hp.writable.2,hp.writable.1⟩
  unfold assign
  rw [h.assignSpecial hp.accepted]
  simp [hr,ha]

section
variable {attr : VarAttrs}

omit h

theorem onlyAt_setAttr (attr : VarAttrs) (on : Bool) (s : Store) : OnlyAt name s (setAttr host name attr on s) := by
  exact .ite ((OnlyAt.modify ..).trans (.setEnv ..)) (.modify ..)

theorem view_setAttr (on : Bool) (hl : ((s.vars name).setAttr attr on).look = (s.vars name).look.setAttr attr on)
    (ha : ((view name s).look.setAttr attr on).attrs.has NAMEREF = false) :
    view name (setAttr host name attr on s) = (view name s).setAttr attr on := by
  have hv : (setAttr host name attr on s).vars name = (s.vars name).setAttr attr on := by
    unfold setAttr
    split <;> simp [Store.modify,syncExportEnv,Store.setEnv]
  exact view_of_look ((steady_setAttr host name attr on).scopes s) (onlyAt_setAttr attr on s).modes (by rw [hv,hl]; rfl)
    ha rfl

include h

theorem onlyAt_export (s : Store) : OnlyAt name s («export» host name s) := by
  unfold «export»
  rw [h.get]
  exact (OnlyAt.modify ..).trans (.setEnv ..)

theorem view_export (ha : (view name s).look.attrs.has NAMEREF = false) :
    view name («export» host name s) = (view name s).export := by
  have hl : ((«export» host name s).vars name).look = (view name s).look.export (view name s).value := by
    unfold «export» Look.export
    rw [h.get]
    simp only [Store.modify,Store.setEnv,Function.update_self]
    cases hv : readBinding s name with
    | none | some text =>
      simp only [view,hv,look_readonly,look_attrs]
      rfl
  have hs : («export» host name s).scopes = s.scopes := by
    unfold «export»
    rw [h.get]
    rfl
  have hk : ((view name s).look.export (view name s).value).attrs.has NAMEREF = false := by
    have hb : EXPORT.has NAMEREF = false := by decide
    change ((view name s).look.attrs ||| EXPORT).has NAMEREF = false
    rw [has_or bit_NAMEREF,ha,hb]
    rfl
  rw [view_of_look hs (onlyAt_export h s).modes hl hk rfl]
  cases hv : (view name s).value <;> simp [View.export,Look.export,Look.value,hv]

omit h in
theorem view_setEnv (ha : (view name s).look.attrs.has NAMEREF = false) (he : (view name s).look.entry.isSome)
    (value : Option String) : view name (s.setEnv name value) = view name s := by
  have hva : (view name s).value = (view name s).look.value := by
    apply readBinding_of_entry
    · rw [← look_attrs]
      exact ha
    · simpa [view,look] using he
  have hv := view_of_look (s := s) (t := s.setEnv name value) rfl rfl rfl ha he
  change view name (s.setEnv name value) = { view name s with value := (view name s).look.value } at hv
  rw [hv,← hva]
end

section
theorem Ordinary.neverUnset : name ∉ neverUnset := by
  have hn := h.computed
  intro hm
  apply hn
  have hs : State.neverUnset ⊆ computedNames := by decide
  exact hs hm

omit h

theorem OnlyAt.removeSaved (idx : ℕ) (name : String) (s : Store) :
    OnlyAt name s { s with scopes := removeSaved idx name s.scopes } where
  vars _ _ := rfl
  env _ _ := rfl
  saved other ho := by
    refine ext_getElem? fun i => ?_
    simp only [State.removeSaved,List.getElem?_map,List.getElem?_modify]
    cases s.scopes[i]? with
    | none => rfl
    | some scope =>
      by_cases hi : idx = i
      · simp [hi,Function.update_of_ne ho]
      · simp [hi]
  modes := rfl

theorem onlyAt_unset (name : String) (s : Store) : OnlyAt name s (unset host name s) := by
  unfold unset
  split
  · exact .refl name s
  have hs : OnlyAt name s { s with special := unsetEffects name s.special } :=
    .special name s (modes_unsetEffects name s.special)
  have hb : OnlyAt name s _ := hs.trans ((OnlyAt.modify name (fun _ => Binding.unset) _).trans (.setEnv name none _))
  dsimp only
  split
  · exact hs.trans ((OnlyAt.modify ..).trans (.setEnv ..))
  · split
    · split
      · exact hs.trans ((OnlyAt.modify ..).trans (.setEnv ..))
      · split
        · exact hs.trans ((OnlyAt.removeSaved ..).trans ((OnlyAt.modify ..).trans (.setEnv ..)))
        · exact hb
    · exact hb

theorem getLast?_saved (name : String) (s : Store) :
    (view name s).saved.getLast? = s.scopes.getLast?.map fun scope => scope.saved name := List.getLast?_map

theorem view_unset_declared { exported : Bool} (hu : unset host name s = syncExportEnv host name
      ({ s with special := unsetEffects name s.special }.modify name fun _ => declared exported)) :
    view name (unset host name s) = (view name s).withBinding (declared exported) := by
  have hl : ((unset host name s).vars name).look = (declared exported).look := by
    rw [hu]
    simp [syncExportEnv,Store.setEnv,Store.modify]
  have ha : (declared exported).look.attrs.has NAMEREF = false := by cases exported <;> decide
  rw [view_of_look (by rw [hu]; rfl) (onlyAt_unset name s).modes hl ha rfl]
  rfl

include h

theorem view_unset_of_local {saved : SavedVar} (hl : (view name s).saved.getLast? = some (some saved)) :
    view name (unset host name s) =
      (view name s).withBinding (declared ((saved.entry.map VariableEntry.exported).getD false)) := by
  have hb : (s.scopes.getLast?.bind fun scope => scope.saved name) = some saved := by
    rw [getLast?_saved] at hl
    obtain ⟨scope,hs,hsa⟩ := Option.map_eq_some_iff.mp hl
    rw [hs,Option.bind_some,hsa]
  apply view_unset_declared
  unfold unset
  rw [if_neg h.neverUnset]
  simp only [hb]

theorem view_unset_of_free (hfr : ∀ saved ∈ (view name s).saved, saved = none) :
    view name (unset host name s) = (view name s).withBinding Binding.unset := by
  have hn : ∀ scope ∈ s.scopes, scope.saved name = none := fun scope hs => hfr _ (mem_map_of_mem hs)
  have hl : (s.scopes.getLast?.bind fun scope => scope.saved name) = none := by
    rw [Option.bind_eq_none_iff]
    exact fun scope hs => hn scope (mem_of_getLast? hs)
  have hi : innermostIndex s.scopes name = none := by
    unfold innermostIndex
    rw [Option.map_eq_none_iff,List.findIdx?_eq_none_iff]
    intro scope hs
    simp [Scope.has,hn scope (mem_reverse.mp hs)]
  have hu : unset host name s =
      ({ s with special := unsetEffects name s.special }.modify name fun _ => Binding.unset).setEnv name none := by
    unfold unset
    rw [if_neg h.neverUnset]
    simp only [hl,hi]
  obtain ⟨hf,hsh⟩ := modes_inj (modes_unsetEffects name s.special)
  rw [hu]
  have hr : readBinding (({ s with special := unsetEffects name s.special }.modify name fun _ => Binding.unset).setEnv name none)
      name = none := by
    rw [readBinding_of_attr (by simp [Store.modify,Store.setEnv,Binding.unset,Binding.attrs]; decide)]
    simp [Store.modify,Store.setEnv,Binding.unset]
  unfold View.withBinding view SpecialState.restricted
  rw [hr]
  simp [Store.modify,Store.setEnv,hf,hsh]

omit h

/-- The name is local to a function that called the running one. -/
def View.Outer (v : View) : Prop := v.saved.getLast?.join = none ∧ ∃ saved ∈ v.saved, saved.isSome

theorem outer_iff : (view name s).Outer ↔ s.currentScopeHas name = false ∧ ∃ idx, s.globalScopeIndex name = some idx := by
  have hc : s.currentScopeHas name = (view name s).saved.getLast?.join.isSome := by
    rw [currentScopeHas_eq,getLast?_saved]
    cases s.scopes.getLast? <;> rfl
  have hi : (∃ idx, s.globalScopeIndex name = some idx) ↔ ∃ saved ∈ (view name s).saved, saved.isSome := by
    rw [← Option.isSome_iff_exists,globalScopeIndex_eq,List.findIdx?_isSome,any_eq_true]
    rfl
  rw [hc,hi,View.Outer,Option.isSome_eq_false_iff,Option.isNone_iff_eq_none]

include h

theorem view_unset_of_outer (hou : (view name s).Outer) (hk : (view name s).keepsLocal) :
    view name (unset host name s) = (view name s).withBinding (declared false) := by
  obtain ⟨hc,idx,hi⟩ := outer_iff.mp hou
  have hl : (s.scopes.getLast?.bind fun scope => scope.saved name) = none := by
    rw [currentScopeHas_eq] at hc
    simpa using hc
  obtain ⟨j,-,-,hj,-,-⟩ := exists_innermost hi
  have ho : (unsetEffects name s.special).shoptOption "localvar_unset" := by
    rw [unsetEffects_shoptOption]
    exact hk
  apply view_unset_declared
  unfold unset
  rw [if_neg h.neverUnset]
  simp only [hl,hj,if_pos ho]

omit h

def View.locals (v : View) : ℕ := v.saved.countP Option.isSome

theorem countP_removeSaved (idx : ℕ) (name : String) (scopes : List Scope) :
    ((removeSaved idx name scopes).map fun scope => scope.saved name).countP Option.isSome +
        (if ((scopes[idx]?.bind fun scope => scope.saved name).isSome) then 1 else 0) =
      (scopes.map fun scope => scope.saved name).countP Option.isSome := by
  induction scopes generalizing idx with
  | nil => simp [removeSaved]
  | cons scope scopes ih =>
    cases idx with
    | zero => simp [removeSaved,countP_cons]
    | succ idx =>
      have hr := ih idx
      simp only [removeSaved] at hr
      simp only [removeSaved,modify_succ_cons,map_cons,countP_cons,List.getElem?_cons_succ]
      omega

theorem locals_unset_le (name : String) (s : Store) : (view name (unset host name s)).locals ≤ (view name s).locals := by
  unfold View.locals view
  unfold unset
  split
  · exact Nat.le_refl _
  dsimp only
  split
  · exact Nat.le_refl _
  · split
    · split
      · exact Nat.le_refl _
      · split
        · rename_i idx _ _ _ _ _
          have hc := countP_removeSaved idx name s.scopes
          simp only [syncExportEnv,Store.setEnv,Store.modify]
          omega
        · exact Nat.le_refl _
    · exact Nat.le_refl _

include h

theorem locals_unset_lt (hou : (view name s).Outer) (hk : (view name s).keepsLocal = false) :
    (view name (unset host name s)).locals < (view name s).locals := by
  obtain ⟨hc,idx,hi⟩ := outer_iff.mp hou
  have ho : s.special.shoptOption "localvar_unset" = false := hk
  obtain ⟨hn,-⟩ | ⟨-,hl,-⟩ | ⟨-,-,-,j,scope,saved,-,hsc,hsa,-,hs⟩ := unset_cases host hi
  · exact absurd hn h.neverUnset
  · simp [hc,ho] at hl
  · have hco := countP_removeSaved j name s.scopes
    simp only [hsc,Option.bind_some,hsa,Option.isSome_some,if_true] at hco
    unfold View.locals view
    dsimp only
    rw [hs]
    omega
end

section
omit h

theorem readBinding_pushLocalScope (name : String) (s : Store) : readBinding (pushLocalScope s) name = readBinding s name := by
  have hi : (pushLocalScope s).globalScopeIndex name = s.globalScopeIndex name := by
    unfold pushLocalScope globalScopeIndex
    rw [List.findIdx?_append]
    simp [Scope.has]
  have hs : (pushLocalScope s).globalSavedSnapshot name = s.globalSavedSnapshot name := by
    rw [globalSavedSnapshot_eq,globalSavedSnapshot_eq]
    unfold pushLocalScope
    rw [List.findSome?_append]
    simp
  unfold readBinding localSelfNamerefTarget
  rw [hi,hs]
  rfl

theorem view_pushLocalScope (name : String) (s : Store) :
    view name (pushLocalScope s) = { view name s with saved := (view name s).saved ++ [none] } := by
  unfold view
  rw [readBinding_pushLocalScope]
  simp [pushLocalScope]

theorem view_popLocalScope {scopes : List Scope} (h : s.scopes = scopes ++ [⟨fun _ => none,none⟩]) (name : String) :
    view name (popLocalScope host s) = { view name s with saved := scopes.map fun scope => scope.saved name } := by
  have hp : popLocalScope host s = { s with scopes := scopes } := by
    unfold popLocalScope
    rw [h,List.getLast?_concat]
    simp [Scope.has,h]
  have hr : readBinding s name = readBinding { s with scopes := scopes } name := by
    rw [← readBinding_pushLocalScope name { s with scopes := scopes }]
    exact readBinding_congr rfl rfl (by simp [pushLocalScope,h])
  rw [hp]
  unfold view
  rw [hr]
end
end
end Cherubsh.State
