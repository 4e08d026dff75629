import Cherubsh.State.VariableFrames

/-! # Writing the global binding under function scopes

A write to the global binding runs the plain operation with that binding in the visible place.
Most operations then do what they do at top level; unset, export and a reference to itself can go
another way.
-/
namespace Cherubsh.State
open VarAttrs SavedVar Scope Store Binding List
variable {scope : Scope} {scopes : List Scope} {saved : SavedVar} {t s₁ : Store} {calls : ℕ} {outcome outcome' : Outcome}

/-- The binding the name has once every scope is left. -/
def Store.globalBinding (s : Store) (name : String) : Binding :=
  ((s.globalSavedSnapshot name).map binding).getD (s.vars name)

def Store.swapped (s : Store) (name : String) : Store := s.modify name fun _ => s.globalBinding name

/-- The store with the old global binding at top level. -/
def topLevel (host : Host) (s : Store) (name : String) : Store :=
  syncExportEnv host name { s.swapped name with scopes := [] }

def popAll (host : Host) (s : Store) : Store := (popLocalScope host)^[s.scopes.length] s

/-- No running function has made its options local, or the name is not the one they write. -/
def Store.OptionsApart (s : Store) (name : String) : Prop := name = "IGNOREEOF" → ∀ scope ∈ s.scopes, scope.options = none

section
variable {name : String} {s : Store}

theorem findIdx?_bind_saved (scopes : List Scope) (name : String) :
    ((scopes.findIdx? (has · name)).bind fun idx => scopes[idx]?.bind fun scope => scope.saved name) =
      scopes.findSome? fun scope => scope.saved name := by
  induction scopes with
  | nil => rfl
  | cons scope scopes ih =>
    rw [List.findIdx?_cons,List.findSome?_cons,← ih]
    cases hs : scope.saved name with
    | some saved => simp [Scope.has,hs]
    | none => simp [Scope.has,hs,Option.bind_map]

theorem globalSavedSnapshot_eq (s : Store) (name : String) :
    s.globalSavedSnapshot name = s.scopes.findSome? fun scope => scope.saved name :=
  findIdx?_bind_saved s.scopes name

theorem restoreOptions_vars {options : Options} (hn : name ≠ "IGNOREEOF") :
    (restoreOptions options s).vars name = s.vars name := by
  unfold restoreOptions
  dsimp only
  split <;> simp [Store.modify,Store.setEnv,hn]

theorem restoreOptions_scopes (options : Options) (s : Store) : (restoreOptions options s).scopes = s.scopes := by
  unfold restoreOptions
  dsimp only
  split <;> rfl

variable (host : Host)

theorem popLocalScope_scopes (s : Store) : (popLocalScope host s).scopes = s.scopes.dropLast := by
  unfold popLocalScope
  cases hl : s.scopes.getLast? with
  | none => simp [List.getLast?_eq_none_iff.mp hl]
  | some scope =>
    cases ho : scope.options with
    | none => simp [ho]
    | some options => simp [ho,restoreOptions_scopes]

theorem popLocalScope_vars (hl : s.scopes.getLast? = some scope) (ho : name = "IGNOREEOF" → scope.options = none) :
    (popLocalScope host s).vars name = ((scope.saved name).map binding).getD (s.vars name) := by
  unfold popLocalScope
  rw [hl]
  cases hop : scope.options with
  | none => simp [hop]
  | some options =>
    have hn : name ≠ "IGNOREEOF" := fun hn => by simp [ho hn] at hop
    simp [hop,restoreOptions_vars hn]

theorem globalBinding_popLocalScope (h : s.OptionsApart name) :
    (popLocalScope host s).globalBinding name = s.globalBinding name := by
  rcases eq_nil_or_concat s.scopes with hni | ⟨outer,scope,hs⟩
  · simp [popLocalScope,hni]
  have hl : s.scopes.getLast? = some scope := by simp [hs]
  have hv := popLocalScope_vars host hl fun hn => h hn scope (by simp [hs])
  have hs' : (popLocalScope host s).scopes = outer := by rw [popLocalScope_scopes,hs]; simp
  unfold globalBinding
  rw [globalSavedSnapshot_eq,globalSavedSnapshot_eq,hs',hs,hv]
  cases ho : outer.findSome? fun scope => scope.saved name <;> simp [ho]

theorem popAll_vars (s : Store) (name : String) (h : s.OptionsApart name) :
    (popAll host s).vars name = s.globalBinding name := by
  unfold popAll
  generalize hn : s.scopes.length = n
  induction n generalizing s with
  | zero => simp [globalBinding,globalSavedSnapshot_eq,length_eq_zero_iff.mp hn]
  | succ n ih =>
    have hl : (popLocalScope host s).scopes.length = n := by simp [popLocalScope_scopes,hn]
    have happart : (popLocalScope host s).OptionsApart name := fun hna scope hm =>
      h hna scope ((dropLast_sublist s.scopes).subset (popLocalScope_scopes host s ▸ hm))
    rw [Function.iterate_succ_apply,ih _ happart hl,globalBinding_popLocalScope host h]
end

section
def Scope.keep (name : String) (saved : SavedVar) (scope : Scope) : Scope :=
  { scope with saved := Function.update scope.saved name (some saved) }

/-- The binding reached goes into its scope and the visible one comes back. -/
def putBack (host : Host) (idx : ℕ) (name : String) (visible : Binding) (s : Store) : Store :=
  syncExportEnv host name { s.modify name (fun _ => visible.snapshot.binding) with
    scopes := s.scopes.modify idx (keep name (s.vars name).snapshot) }

theorem snapshot_binding_eq_iff (b : Binding) : b.snapshot.binding = b ↔ b.printOrder = none := by
  cases b
  simp [snapshot,binding,eq_comm]

theorem snapshot_binding_of_none {b : Binding} (h : b.printOrder = none) : b.snapshot.binding = b :=
  (snapshot_binding_eq_iff b).mpr h

theorem findSome?_modify_keep {name : String} {idx : ℕ} (saved : SavedVar) (h : scopes.findIdx? (has · name) = some idx) :
    ((scopes.modify idx (keep name saved)).findSome? fun scope => scope.saved name) = some saved := by
  induction scopes generalizing idx with
  | nil => simp at h
  | cons scope scopes ih =>
    rw [List.findIdx?_cons] at h
    cases hs : scope.saved name with
    | some old =>
      obtain rfl : 0 = idx := by simpa [Scope.has,hs] using h
      simp [keep]
    | none =>
      obtain ⟨i,hi,rfl⟩ : ∃ i, scopes.findIdx? (has · name) = some i ∧ i + 1 = idx := by
        simpa [Scope.has,hs] using h
      simpa [hs] using ih hi

variable (host : Host) {s : Store} {name : String} {idx : ℕ}

variable (hidx : s.globalScopeIndex name = some idx)
include hidx

theorem exists_saved :
    ∃ scope saved, s.scopes[idx]? = some scope ∧ scope.saved name = some saved ∧ s.globalSavedSnapshot name = some saved := by
  obtain ⟨hlt,hh,-⟩ := List.findIdx?_eq_some_iff_getElem.mp hidx
  obtain ⟨saved,hs⟩ := Option.isSome_iff_exists.mp hh
  refine ⟨s.scopes[idx],saved,List.getElem?_eq_getElem hlt,hs,?_⟩
  simp [globalSavedSnapshot,hidx,List.getElem?_eq_getElem hlt,hs]

theorem globalBinding_of_saved
    (hs : s.scopes[idx]? = some scope) (hsa : scope.saved name = some saved) : s.globalBinding name = saved.binding := by
  obtain ⟨scope',saved',hs',hsa',hsn⟩ := exists_saved hidx
  obtain rfl : scope = scope' := Option.some.inj (hs.symm.trans hs')
  obtain rfl : saved = saved' := Option.some.inj (hsa.symm.trans hsa')
  simp [globalBinding,hsn]

theorem withGlobalVar_eq {α : Type} (f : Store → Option (α × Store)) :
    withGlobalVar host name f s = (f (s.swapped name)).map fun p => (p.1,putBack host idx name (s.vars name) p.2) := by
  obtain ⟨scope,saved,hsc,hsa,hs⟩ := exists_saved hidx
  have hsw : s.swapped name = s.modify name fun _ => saved.binding := by
    simp [swapped,globalBinding,hs]
  unfold withGlobalVar
  rw [hidx,hsw]
  simp only [hsc,hsa,Option.bind_some,Option.getD_some]
  rfl

omit hidx

theorem Write.global_eq (w : Write) (calls : ℕ) (s : Store) :
    w.global host calls name s = withGlobalVar host name (w.plain host calls name) s := by
  cases w <;> rfl

theorem putBack_vars (visible : Binding) (s : Store) :
    (putBack host idx name visible s).vars name = visible.snapshot.binding := by
  simp [putBack,syncExportEnv,Store.setEnv,Store.modify]

theorem putBack_scopes (visible : Binding) (s : Store) :
    (putBack host idx name visible s).scopes = s.scopes.modify idx (keep name (s.vars name).snapshot) := rfl

theorem optionsApart_modify {change : Scope → Scope} (hc : ∀ scope, (change scope).options = scope.options)
    (idx : ℕ) (h : ∀ scope ∈ scopes, scope.options = none) : ∀ scope ∈ scopes.modify idx change, scope.options = none := by
  intro scope hm
  obtain ⟨i,hi⟩ := mem_iff_getElem?.mp hm
  rw [List.getElem?_modify] at hi
  obtain ⟨old,ho,rfl⟩ := Option.map_eq_some_iff.mp hi
  have hn := h old (mem_of_getElem? ho)
  split
  · rw [hc,hn]
  · exact hn

theorem popAll_kept (hidx : s.globalScopeIndex name = some idx) (h : s.OptionsApart name)
    (hs : t.scopes = s.scopes.modify idx (keep name saved)) : (popAll host t).vars name = saved.binding := by
  rw [popAll_vars]
  · rw [globalBinding,globalSavedSnapshot_eq,hs,findSome?_modify_keep _ hidx]
    rfl
  · intro hn
    have hk : ∀ scope, (keep name saved scope).options = scope.options := fun _ => rfl
    rw [hs]
    exact optionsApart_modify hk idx (h hn)

theorem popAll_putBack (visible : Binding) (hidx : s.globalScopeIndex name = some idx) (h : s.OptionsApart name)
    (hs : s₁.scopes = s.scopes) : (popAll host (putBack host idx name visible s₁)).vars name = (s₁.vars name).snapshot.binding :=
  popAll_kept host hidx h (by rw [putBack_scopes,hs])

theorem putBack_removed (visible : Binding) (h : s₁.scopes = removeSaved idx name s.scopes) :
    (putBack host idx name visible s₁).scopes = s.scopes.modify idx (keep name (s₁.vars name).snapshot) := by
  rw [putBack_scopes,h,removeSaved,modify_modify_eq]
  congr 1
  funext scope
  simp [keep]
end

/-! ### What a global write should do -/

/-- The write keeps the visible binding, and below all scopes leaves what the plain operation
gives for the old global binding. -/
def OnlyGlobal (host : Host) (w : Write) (name : String) (s : Store) : Prop :=
  ∃ calls outcome s', w.global host calls name s = some (outcome,s') ∧
    s'.vars name = s.vars name ∧
    (∀ i, s.globalScopeIndex name ≠ some i →
      s'.scopes[i]?.map (fun scope => scope.saved name) = s.scopes[i]?.map fun scope => scope.saved name) ∧
    (∃ calls outcome t, w.plain host calls name (topLevel host s name) = some (outcome,t) ∧
      (popAll host s').vars name = t.vars name) ∧
    (w = .unset → (popAll host s').vars name = Binding.unset)

/-- The old global binding gives export the value it has at top level. -/
def ExportsOwnValue (host : Host) (name : String) (s : Store) : Prop :=
  readComputed host s.special name = none →
    ((s.globalBinding name).entry = none → s.processEnv name = none) ∧
      ((s.globalBinding name).attrs.has NAMEREF → (s.globalBinding name).nameref = some name →
        savedScalarValue (s.globalBinding name).snapshot = none)

/-- There is nothing to unset, and unset finds the outermost scope. -/
def NothingToUnset (name : String) (s : Store) : Prop :=
  s.globalBinding name = Binding.unset ∧
    (name ∈ neverUnset ∨ s.currentScopeHas name = false ∧ s.special.shoptOption "localvar_unset" = false ∧
      innermostIndex s.scopes name = s.globalScopeIndex name)

/-- The references that start at the old global binding end in a name that is local and refers
to itself. -/
def EndsInLocalSelf (host : Host) (value name : String) (s : Store) (next : String) : Prop :=
  FollowsReference host name value (s.swapped name) ∧ resolveNameref (s.swapped name) name = some next ∧
    (s.swapped name).localSelfNamerefTarget next

def Write.Safe (host : Host) (name : String) (s : Store) : Write → Prop
  | .assign value => ∀ next, ¬EndsInLocalSelf host value name s next
  | .export => ExportsOwnValue host name s
  | .unset => NothingToUnset name s
  | _ => True

/-- References lead to a local that refers to itself, and the write may still keep to the global
binding. -/
def Write.Astray (host : Host) (name : String) (s : Store) : Write → Prop
  | .assign value => ∃ next, EndsInLocalSelf host value name s next ∧ (next ≠ name ∨ stateValidName name = false)
  | _ => False

section
variable (host : Host) {s : Store} {name : String} {idx : ℕ} {w : Write}

theorem agree_topLevel (s : Store) (name : String) : Agree (s.swapped name) (topLevel host s name) := ⟨rfl,rfl⟩

theorem swapped_vars (s : Store) (name : String) : (s.swapped name).vars name = s.globalBinding name := by
  simp [Store.swapped,Store.modify]

variable (hidx : s.globalScopeIndex name = some idx)
include hidx

theorem globalBinding_printOrder : (s.globalBinding name).printOrder = none := by
  obtain ⟨scope,saved,-,-,hs⟩ := exists_saved hidx
  simp [globalBinding,hs,binding]

omit hidx in
theorem getElem?_modify_keep {i : ℕ} (hi : i ≠ idx) :
    (scopes.modify idx (keep name saved))[i]? = scopes[i]? := by
  simp [Ne.symm hi]

theorem onlyGlobal_of_kept (happart : s.OptionsApart name) (ho : (s.vars name).printOrder = none)
    (hs₁ : w.plain host calls name (s.swapped name) = some (outcome,s₁))
    (ht : w.plain host calls name (topLevel host s name) = some (outcome',t))
    (hs : (putBack host idx name (s.vars name) s₁).scopes = s.scopes.modify idx (keep name saved))
    (hsa : saved.binding = t.vars name) (hu : w = .unset → saved.binding = Binding.unset) : OnlyGlobal host w name s := by
  have hp := popAll_kept host hidx happart hs
  refine ⟨calls,outcome,putBack host idx name (s.vars name) s₁,?_,?_,?_,⟨calls,outcome',t,ht,hp.trans hsa⟩,
    fun hw => hp.trans (hu hw)⟩
  · rw [Write.global_eq,withGlobalVar_eq host hidx,hs₁]
    rfl
  · rw [putBack_vars,snapshot_binding_of_none ho]
  · intro i hi
    have hne : i ≠ idx := by
      rintro rfl
      exact hi hidx
    rw [hs,getElem?_modify_keep hne]

theorem onlyGlobal_of_reached (happart : s.OptionsApart name) (ho : (s.vars name).printOrder = none) (hw : w ≠ .unset)
    (hs₁ : w.plain host calls name (s.swapped name) = some (outcome,s₁))
    (ht : w.plain host calls name (topLevel host s name) = some (outcome',t)) (hs : s₁.scopes = s.scopes)
    (ho₁ : (s₁.vars name).printOrder = none) (hv : s₁.vars name = t.vars name) : OnlyGlobal host w name s := by
  refine onlyGlobal_of_kept host hidx happart ho hs₁ ht (by rw [putBack_scopes,hs]) ?_ fun h => absurd h hw
  rw [snapshot_binding_of_none ho₁,hv]

omit hidx

theorem onlyGlobal_of_matched (calls : ℕ) (hidx : s.globalScopeIndex name = some idx) (happart : s.OptionsApart name)
    (ho : (s.vars name).printOrder = none) (hw : w ≠ .unset)
    (hm : Matched name (s.swapped name) (w.plain host calls name (s.swapped name)) (w.plain host calls name (topLevel host s name))) :
    OnlyGlobal host w name s := by
  obtain ⟨outcome,s₁,t,hs₁,ht,ha,hs,hk⟩ := hm
  have ho₁ := hk (by rw [swapped_vars,globalBinding_printOrder hidx])
  exact onlyGlobal_of_reached host hidx happart ho hw hs₁ ht hs ho₁ (congrFun ha.1 name)

/-! #### Export -/

theorem export_vars (s : Store) (name : String) : («export» host name s).vars name = { s.vars name with
      entry := some ⟨(get host s name).1.getD "",(get host s name).1.isSome,true,
        ((s.vars name).entry.map VariableEntry.readonly).getD false,(s.vars name).attrs ||| EXPORT⟩ } := by
  have hv : (get host s name).2.vars = s.vars := by
    unfold get
    split <;> rfl
  simp [«export»,Store.setEnv,Store.modify,hv]

theorem export_scopes (s : Store) (name : String) : («export» host name s).scopes = s.scopes := by
  have hs : (get host s name).2.scopes = s.scopes := by
    unfold get
    split <;> rfl
  simp [«export»,Store.setEnv,Store.modify,hs]

theorem export_vars_eq_iff {s : Store} (h : s.vars name = t.vars name) :
    («export» host name s).vars name = («export» host name t).vars name ↔ (get host s name).1 = (get host t name).1 := by
  rw [export_vars,export_vars,h]
  constructor
  · intro heq
    obtain ⟨hv,hso⟩ : (get host s name).1.getD "" = (get host t name).1.getD "" ∧
        (get host s name).1.isSome = (get host t name).1.isSome := by simpa using heq
    cases hs : (get host s name).1 <;> cases ht : (get host t name).1 <;> simp_all
  · intro heq
    rw [heq]

theorem topLevel_localSelf (s : Store) (name other : String) : (topLevel host s name).localSelfNamerefTarget other = false := by
  simp [localSelfNamerefTarget,globalScopeIndex,topLevel,syncExportEnv,setEnv]

include hidx

theorem swapped_localSelf :
    (s.swapped name).localSelfNamerefTarget name = decide ((s.globalBinding name).nameref = some name) := by
  have hs : (s.swapped name).globalScopeIndex name = some idx := hidx
  simp [localSelfNamerefTarget,swapped_vars,hs]

theorem swapped_saved :
    (s.swapped name).globalSavedSnapshot name = some (s.globalBinding name).snapshot := by
  obtain ⟨scope,saved,-,-,hs⟩ := exists_saved hidx
  have hsw : (s.swapped name).globalSavedSnapshot name = some saved := hs
  simp [globalBinding,hs,hsw,binding,snapshot]

omit hidx

theorem topLevel_vars (s : Store) (name : String) : (topLevel host s name).vars name = s.globalBinding name :=
  swapped_vars s name

theorem topLevel_env (h : (s.globalBinding name).entry = none) : (topLevel host s name).processEnv name = none := by
  simp [topLevel,syncExportEnv,setEnv,exportedValue,swapped_vars,h]

include hidx

theorem readBinding_eq_iff :
    readBinding (s.swapped name) name = readBinding (topLevel host s name) name ↔
      ((s.globalBinding name).entry = none → s.processEnv name = none) ∧
        ((s.globalBinding name).attrs.has NAMEREF → (s.globalBinding name).nameref = some name →
          savedScalarValue (s.globalBinding name).snapshot = none) := by
  have hen : (s.swapped name).processEnv name = s.processEnv name := rfl
  unfold readBinding
  rw [swapped_vars,topLevel_vars,swapped_localSelf hidx,topLevel_localSelf,swapped_saved hidx,hen]
  cases he : (s.globalBinding name).entry with
  | none =>
    have ha : (s.globalBinding name).attrs.has NAMEREF = false := by simp [attrs,he,VarAttrs.has,NAMEREF]
    simp [topLevel_env host he,ha]
  | some entry =>
    have ha : (s.globalBinding name).attrs = entry.attrs := by simp [attrs,he]
    rw [ha]
    by_cases hs : entry.attrs.has NAMEREF ∧ (s.globalBinding name).nameref = some name
    · simp [hs.1,hs.2]
    · by_cases hat : entry.attrs.has NAMEREF
      · have hne : (s.globalBinding name).nameref ≠ some name := fun h => hs ⟨hat,h⟩
        simp [hne]
      · simp [hat]

theorem export_printOrder : ((«export» host name (s.swapped name)).vars name).printOrder = none := by
  rw [export_vars,swapped_vars]
  exact globalBinding_printOrder hidx

theorem get_eq_iff :
    (get host (s.swapped name) name).1 = (get host (topLevel host s name) name).1 ↔ ExportsOwnValue host name s := by
  have hs : (topLevel host s name).special = s.special := rfl
  have hs' : (s.swapped name).special = s.special := rfl
  unfold get ExportsOwnValue
  rw [hs,hs']
  cases hr : readComputed host s.special name with
  | some p => simp
  | none => simpa using readBinding_eq_iff host hidx

/-! #### Assignment to a reference to itself -/

omit hidx in
theorem stateArrayReference_of_valid (h : stateValidName name) : stateArrayReference name = none := by
  have hb : '[' ∉ name.toList := by
    unfold stateValidName at h
    intro hm
    cases hn : name.toList with
    | nil => simp [hn] at hm
    | cons c rest =>
      rw [hn] at h hm
      obtain ⟨hf,hr⟩ := Bool.and_eq_true_iff.mp h
      rcases mem_cons.mp hm with rfl | hm
      · exact absurd hf (by decide)
      · exact absurd (all_eq_true.mp hr _ hm) (by decide)
  have hd : name.toList.dropWhile (· ≠ '[') = [] := by
    rw [dropWhile_eq_nil_iff]
    intro c hc
    simpa using fun heq : c = '[' => hb (heq ▸ hc)
  unfold stateArrayReference
  rw [hd]

theorem swapped_swapped : (s.swapped name).swapped name = s.swapped name := by
  have hb : (s.swapped name).globalBinding name = s.globalBinding name := by
    obtain ⟨scope,saved,-,-,hs⟩ := exists_saved hidx
    have hsw : (s.swapped name).globalSavedSnapshot name = some saved := hs
    simp [globalBinding,hs,hsw]
  unfold swapped at hb ⊢
  rw [hb]
  simp [Store.modify]

theorem assign_never_returns {value : String} (hv : stateValidName name)
    (hse : EndsInLocalSelf host value name s name) (calls : ℕ) : assign host calls name value (s.swapped name) = none := by
  obtain ⟨⟨hs,hr,ha,ht⟩,-,hl⟩ := hse
  induction calls with
  | zero => rfl
  | succ calls ih =>
    have hidx' : (s.swapped name).globalScopeIndex name = some idx := hidx
    unfold assign
    rw [hs]
    simp only [hr,Bool.false_eq_true,if_false,if_pos ha,if_pos ht,if_pos hl]
    rw [withGlobalVar_eq host hidx',swapped_swapped hidx]
    simp [assignNamerefTarget,stateArrayReference_of_valid hv,hv,ih]

/-! #### Unset -/

omit hidx in
theorem unsetEffects_shoptOption (name : String) (special : SpecialState) :
    (unsetEffects name special).shoptOption "localvar_unset" = special.shoptOption "localvar_unset" := by
  unfold unsetEffects
  repeat' split
  all_goals rfl

theorem exists_innermost :
    ∃ j scope saved, innermostIndex s.scopes name = some j ∧ s.scopes[j]? = some scope ∧ scope.saved name = some saved := by
  obtain ⟨scope,saved,hsc,hs,-⟩ := exists_saved hidx
  have hm := mem_reverse.mpr (mem_of_getElem? hsc)
  obtain ⟨i,hi⟩ : ∃ i, s.scopes.reverse.findIdx? (has · name) = some i := by
    rw [← Option.isSome_iff_exists,List.findIdx?_isSome,any_eq_true]
    exact ⟨scope,hm,by simp [Scope.has,hs]⟩
  obtain ⟨hlt,hh,-⟩ := List.findIdx?_eq_some_iff_getElem.mp hi
  obtain ⟨saved',hs'⟩ := Option.isSome_iff_exists.mp hh
  rw [length_reverse] at hlt
  rw [getElem_reverse] at hs'
  exact ⟨s.scopes.length - 1 - i,_,saved',by simp [innermostIndex,hi],List.getElem?_eq_getElem (by omega),hs'⟩

theorem unset_cases :
    (name ∈ neverUnset ∧ unset host name s = s) ∨
    (name ∉ neverUnset ∧ (s.currentScopeHas name ∨ s.special.shoptOption "localvar_unset") ∧
      (∃ exported, (unset host name s).vars name = Binding.declared exported) ∧ (unset host name s).scopes = s.scopes) ∨
    (name ∉ neverUnset ∧ s.currentScopeHas name = false ∧ s.special.shoptOption "localvar_unset" = false ∧
      ∃ j scope saved, innermostIndex s.scopes name = some j ∧ s.scopes[j]? = some scope ∧ scope.saved name = some saved ∧
        (unset host name s).vars name = saved.binding ∧ (unset host name s).scopes = removeSaved j name s.scopes) := by
  by_cases hn : name ∈ neverUnset
  · exact .inl ⟨hn,by simp [unset,hn]⟩
  apply Or.inr
  unfold unset
  simp only [if_neg hn]
  have hc := currentScopeHas_eq s name
  cases hl : s.scopes.getLast?.bind fun scope => scope.saved name with
  | some saved =>
    exact .inl ⟨hn,.inl (by rw [hc,hl]; rfl),⟨_,by simp [syncExportEnv,Store.setEnv,Store.modify]; rfl⟩,rfl⟩
  | none =>
    obtain ⟨j,scope,saved,hj,hs,hsa⟩ := exists_innermost hidx
    have hc' : s.currentScopeHas name = false := by rw [hc,hl]; rfl
    simp only [hj,unsetEffects_shoptOption]
    by_cases ho : s.special.shoptOption "localvar_unset"
    · simp only [if_pos ho]
      exact .inl ⟨hn,.inr ho,⟨false,by simp [syncExportEnv,Store.setEnv,Store.modify]⟩,rfl⟩
    · simp only [if_neg ho,hs,Option.bind_some,hsa]
      refine .inr ⟨hn,hc',by simpa using ho,j,scope,saved,rfl,hs,hsa,?_,rfl⟩
      simp [syncExportEnv,Store.setEnv,Store.modify]

omit hidx

theorem unset_topLevel (hn : name ∉ neverUnset) : (unset host name (topLevel host s name)).vars name = Binding.unset := by
  have hs : (topLevel host s name).scopes = [] := rfl
  simp [unset,hn,hs,innermostIndex,Store.setEnv,Store.modify]

theorem declared_ne_unset ( exported : Bool) : (Binding.declared exported).snapshot.binding ≠ Binding.unset := by
  simp [Binding.declared,Binding.snapshot,SavedVar.binding,Binding.unset]

include hidx

theorem global_inv {s' : Store} (h : w.global host calls name s = some (outcome,s')) :
    ∃ s₁, w.plain host calls name (s.swapped name) = some (outcome,s₁) ∧ s' = putBack host idx name (s.vars name) s₁ := by
  rw [Write.global_eq,withGlobalVar_eq host hidx] at h
  obtain ⟨⟨outcome₁,s₁⟩,hp,heq⟩ := Option.map_eq_some_iff.mp h
  obtain ⟨rfl,rfl⟩ := Prod.mk.inj heq
  exact ⟨s₁,hp,rfl⟩

theorem onlyGlobal_unset (happart : s.OptionsApart name)
    (hor : (s.vars name).printOrder = none) (h : NothingToUnset name s) : OnlyGlobal host .unset name s := by
  obtain ⟨hu,hw⟩ := h
  have hidx' : (s.swapped name).globalScopeIndex name = some idx := hidx
  -- whichever way unset takes, it reaches the unset binding and its scope keeps it again
  have hs : (putBack host idx name (s.vars name) (unset host name (s.swapped name))).scopes =
      s.scopes.modify idx (Scope.keep name Binding.unset.snapshot) := by
    rcases unset_cases host hidx' with ⟨-,heq⟩ | ⟨hn,hd,-⟩ | ⟨hn,-,-,j,scope,saved,hj,hsc,hsa,hv,hs⟩
    · rw [putBack_scopes,heq,swapped_vars,hu]
      rfl
    · obtain ⟨hc,ho,-⟩ := hw.resolve_left hn
      have hc' : (s.swapped name).currentScopeHas name = false := hc
      have ho' : (s.swapped name).special.shoptOption "localvar_unset" = false := ho
      simp [hc',ho'] at hd
    · obtain ⟨-,-,hi⟩ := hw.resolve_left hn
      obtain rfl : j = idx := by
        have hj' : innermostIndex s.scopes name = some j := hj
        rw [hj',hidx] at hi
        exact Option.some.inj hi
      rw [putBack_removed host _ hs,hv,← globalBinding_of_saved hidx hsc hsa,hu]
      rfl
  have ht : (unset host name (topLevel host s name)).vars name = Binding.unset := by
    by_cases hn : name ∈ neverUnset
    · simp only [unset,if_pos hn]
      rw [topLevel_vars,hu]
    · exact unset_topLevel host hn
  have hp : Write.unset.plain host 0 name (s.swapped name) = some (.ok (),unset host name (s.swapped name)) := rfl
  exact onlyGlobal_of_kept host hidx happart hor hp rfl hs ht.symm fun _ => rfl

theorem nothingToUnset_of_onlyGlobal (happart : s.OptionsApart name)
    (h : OnlyGlobal host .unset name s) : NothingToUnset name s := by
  obtain ⟨calls,outcome,s',hg,-,ho,-,hu⟩ := h
  obtain ⟨s₁,hpl,rfl⟩ := global_inv host hidx hg
  obtain rfl : unset host name (s.swapped name) = s₁ := congrArg Prod.snd (Option.some.inj hpl)
  have hidx' : (s.swapped name).globalScopeIndex name = some idx := hidx
  have hp := hu rfl
  rcases unset_cases host hidx' with ⟨hn,heq⟩ | ⟨-,-,⟨ exported,hv⟩,hs⟩ | ⟨-,hc,hop,j,scope,saved,hj,hsc,hsa,hv,hs⟩
  · rw [popAll_putBack host _ hidx happart (by rw [heq]; rfl),heq,swapped_vars,
      snapshot_binding_of_none (globalBinding_printOrder hidx)] at hp
    exact ⟨hp,.inl hn⟩
  · rw [popAll_putBack host _ hidx happart hs,hv] at hp
    exact absurd hp (declared_ne_unset exported)
  · have hj' : innermostIndex s.scopes name = some j := hj
    -- another scope than the outermost one loses the binding it kept
    have hji : j = idx := by
      by_contra hne
      have hk := ho j (by rw [hidx]; exact fun h => hne (Option.some.inj h).symm)
      have hsc' : s.scopes[j]? = some scope := hsc
      rw [putBack_scopes,hs,getElem?_modify_keep hne,removeSaved,List.getElem?_modify] at hk
      simp [hsc',hsa,Store.swapped,Store.modify] at hk
    subst hji
    rw [popAll_kept host hidx happart (putBack_removed host _ hs),hv] at hp
    exact ⟨(globalBinding_of_saved hidx hsc hsa).trans hp,.inr ⟨hc,hop,hj'.trans hidx.symm⟩⟩

theorem printOrder_of_onlyGlobal (h : OnlyGlobal host w name s) :
    (s.vars name).printOrder = none := by
  obtain ⟨calls,outcome,s',hg,hv,-⟩ := h
  obtain ⟨s₁,-,rfl⟩ := global_inv host hidx hg
  rw [putBack_vars] at hv
  exact (snapshot_binding_eq_iff _).mp hv

variable (happart : s.OptionsApart name)
include happart

theorem onlyGlobal_of_safe (ho : (s.vars name).printOrder = none) (h : w.Safe host name s) : OnlyGlobal host w name s := by
  have ha := agree_topLevel host s name
  cases w with
  | unset => exact onlyGlobal_unset host hidx happart ho h
  | assign value =>
    have hs : FollowsReference host name value (s.swapped name) →
        ∀ next, resolveNameref (s.swapped name) name = some next → ¬(s.swapped name).localSelfNamerefTarget next :=
      fun hf next hn hl => h next ⟨hf,hn,hl⟩
    have hm : Matched name (s.swapped name) ((Write.assign value).plain host 2 name (s.swapped name))
        ((Write.assign value).plain host 2 name (topLevel host s name)) := assign_matched host value ha rfl name hs 0
    exact onlyGlobal_of_matched host 2 hidx happart ho Write.noConfusion hm
  | «export» =>
    have hv := (export_vars_eq_iff host (congrFun ha.1 name)).mpr ((get_eq_iff host hidx).mpr h)
    have hp : Write.export.plain host 0 name (s.swapped name) = some (.ok (),«export» host name (s.swapped name)) := rfl
    exact onlyGlobal_of_reached host hidx happart ho Write.noConfusion hp rfl (export_scopes host _ name)
      (export_printOrder host hidx) hv
  | setAttr attr on =>
    exact onlyGlobal_of_matched host 0 hidx happart ho Write.noConfusion ((steady_setAttr host name attr on).matched ha _)
  | setArray values =>
    exact onlyGlobal_of_matched host 0 hidx happart ho Write.noConfusion ((steady_setArray host name values).matched ha _)
  | setArrayIndexed index value =>
    exact onlyGlobal_of_matched host 0 hidx happart ho Write.noConfusion
      ((steady_setArrayIndexed host name index value).matched ha _)
  | setArrayAssoc key value =>
    exact onlyGlobal_of_matched host 0 hidx happart ho Write.noConfusion
      ((steady_setArrayAssoc host name key value).matched ha _)
  | unsetArrayElem key =>
    exact onlyGlobal_of_matched host 0 hidx happart ho Write.noConfusion ((steady_unsetArrayElem name key).matched ha _)

theorem exportsOwnValue_of_onlyGlobal (h : OnlyGlobal host .export name s) : ExportsOwnValue host name s := by
  obtain ⟨calls,outcome,s',hg,-,-,⟨calls',outcome',t,ht,hp⟩,-⟩ := h
  obtain ⟨s₁,hpl,rfl⟩ := global_inv host hidx hg
  obtain rfl : «export» host name (s.swapped name) = s₁ := congrArg Prod.snd (Option.some.inj hpl)
  obtain rfl : «export» host name (topLevel host s name) = t := congrArg Prod.snd (Option.some.inj ht)
  rw [popAll_putBack host _ hidx happart (export_scopes host (s.swapped name) name),
    snapshot_binding_of_none (export_printOrder host hidx)] at hp
  have ha := agree_topLevel host s name
  exact (get_eq_iff host hidx).mp ((export_vars_eq_iff host (congrFun ha.1 name)).mp hp)

theorem safe_of_onlyGlobal (ha : ¬w.Astray host name s) (h : OnlyGlobal host w name s) : w.Safe host name s := by
  cases w with
  | unset => exact nothingToUnset_of_onlyGlobal host hidx happart h
  | «export» => exact exportsOwnValue_of_onlyGlobal host hidx happart h
  | assign value =>
    intro next hn
    by_cases hv : next = name ∧ stateValidName name
    · obtain ⟨rfl,hv⟩ := hv
      obtain ⟨calls,outcome,s',hg,-⟩ := h
      obtain ⟨s₁,hp,-⟩ := global_inv host hidx hg
      have hne := assign_never_returns host hidx hv hn calls
      exact absurd (hp.symm.trans hne) (by simp)
    · apply ha
      refine ⟨next,hn,?_⟩
      by_cases hna : next = name
      · exact .inr (by simpa [hna] using hv)
      · exact .inl hna
  | _ => trivial
end

/-- When a write keeps to the global binding: the visible one has no listing order, local options
do not write the name, and the operation goes as at top level. -/
theorem onlyGlobal_iff (host : Host) (w : Write) (name : String) (s : Store) (hlocal : ∃ scope ∈ s.scopes, scope.has name) :
    ((s.vars name).printOrder = none ∧ s.OptionsApart name ∧ w.Safe host name s → OnlyGlobal host w name s) ∧
      (s.OptionsApart name → ¬w.Astray host name s → OnlyGlobal host w name s →
        (s.vars name).printOrder = none ∧ w.Safe host name s) := by
  obtain ⟨idx,hidx⟩ : ∃ idx, s.globalScopeIndex name = some idx := by
    rw [← Option.isSome_iff_exists,globalScopeIndex,List.findIdx?_isSome,any_eq_true]
    exact hlocal
  constructor
  · rintro ⟨horder,happart,hsafe⟩
    exact onlyGlobal_of_safe host hidx happart horder hsafe
  · intro happart hastray h
    exact ⟨printOrder_of_onlyGlobal host hidx h,safe_of_onlyGlobal host hidx happart hastray h⟩

/-! ### A local over a global -/

def globalOne : Binding := { Binding.unset with entry := some { value := "1", hasValue := true } }

def localOverOne : Store where
  vars := Function.update (fun _ => Binding.unset) "x" (Binding.declared false)
  processEnv _ := none
  scopes := [⟨Function.update (fun _ => none) "x" (some globalOne.snapshot),none⟩]
  special := startSpecial

theorem onlyGlobal_assign_two : OnlyGlobal plainHost (.assign "2") "x" localOverOne := by
  have hlocal : ∃ scope ∈ localOverOne.scopes, scope.has "x" := ⟨_,mem_cons_self,rfl⟩
  apply (onlyGlobal_iff plainHost (.assign "2") "x" localOverOne hlocal).1
  refine ⟨rfl,fun hname => absurd hname (by decide),fun next hnext => ?_⟩
  have hattr := hnext.1.2.2.1
  exact absurd hattr (by decide)

/-- The unset declares the global again instead of removing it. -/
theorem unsetGlobal_declares :
    ((unsetGlobal plainHost "x" localOverOne).map fun p => ((popAll plainHost p.2).vars "x").entry) = some (some {}) ∧
      ¬OnlyGlobal plainHost .unset "x" localOverOne := by
  constructor
  · rfl
  · intro h
    have hidx : localOverOne.globalScopeIndex "x" = some 0 := rfl
    have hnothing := nothingToUnset_of_onlyGlobal plainHost hidx (fun hname => absurd hname (by decide)) h
    have hentry : (localOverOne.globalBinding "x").entry = none := by rw [hnothing.1]; rfl
    exact absurd hentry (by decide)
end Cherubsh.State
