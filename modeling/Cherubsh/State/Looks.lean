import Cherubsh.State.Attributes
import Cherubsh.State.VariableFrames

/-! # What a script sees of a variable

The look of a binding is its value, whether it is set, its attributes and its elements,
without the way an array is stored. What an assignment, `export` and the attributes for
export and reading do to a binding they do to its look.
-/
namespace Cherubsh.State
open VarAttrs VariableEntry
open Function (update)

structure Look where
  entry : Option VariableEntry
  elements : ℤ → Option String
  assoc : AssocMap
  nameref : Option String
open Look

def VariableEntry.shown (e : VariableEntry) : VariableEntry := if e.hasValue then e else { e with value := "" }

def Binding.look (b : Binding) : Look :=
  ⟨b.entry.map VariableEntry.shown,(b.indexed.map IndexedArray.get).getD fun _ => none,b.assoc.getD fun _ => none,b.nameref⟩

namespace Look
variable (host : Host)

def attrs (l : Look) : VarAttrs := (l.entry.map VariableEntry.attrs).getD 0
def exported (l : Look) : Bool := (l.entry.map VariableEntry.exported).getD false
def readonly (l : Look) : Bool := (l.entry.map VariableEntry.readonly).getD false
def value (l : Look) : Option String := l.entry.bind fun e => if e.hasValue then some e.value else none

/-- The value an assignment stores. An element of an array is not made a number. -/
def stored (text : String) (l : Look) : String :=
  if l.attrs.has ASSOC ∨ l.attrs.has ARRAY then applyCaseAttrs host text l.attrs
  else applyCaseAttrs host (if l.attrs.has INTEGER then
    ((Expander.Arith.parseI64 (Expander.Arith.trim text.toList)).map toString).getD "0" else text) l.attrs

def assign (text : String) (l : Look) : Look :=
  if l.attrs.has ASSOC then
    { l with
      assoc := update l.assoc "0" (some (l.stored host text))
      entry := some ⟨l.stored host text,true,l.exported,false,l.attrs⟩ }
  else if l.attrs.has ARRAY then
    { l with
      elements := update l.elements 0 (some (l.stored host text))
      entry := some ⟨l.stored host text,true,l.exported,false,l.attrs⟩ }
  else { l with entry := some ⟨l.stored host text,true,l.exported,l.readonly,l.attrs⟩ }

def setAttr (attr : VarAttrs) (on : Bool) (l : Look) : Look :=
  let e := l.entry.getD {}
  { l with entry := some { e with
      attrs := if on then e.attrs ||| attr else e.attrs.without attr
      exported := if attr = EXPORT then on else e.exported
      readonly := if attr = READONLY then on else e.readonly } }

def «export» (value : Option String) (l : Look) : Look :=
  { l with entry := some ⟨value.getD "",value.isSome,true,l.readonly,l.attrs ||| EXPORT⟩ }
end Look

section
variable {host : Host} {b : Binding}

theorem shown_of_hasValue {e : VariableEntry} (h : e.hasValue) : e.shown = e := if_pos h

theorem map_shown {α : Type*} (entry : Option VariableEntry) {field : VariableEntry → α}
    (h : ∀ (e : VariableEntry) (v : String), field { e with value := v } = field e) :
    (entry.map shown).map field = entry.map field := by
  cases entry with
  | none => rfl
  | some e =>
    simp only [Option.map_some,shown,Option.some.injEq]
    split
    · rfl
    · exact h e ""

theorem look_attrs (b : Binding) : b.look.attrs = b.attrs := by
  unfold Look.attrs Binding.look Binding.attrs
  rw [map_shown b.entry fun _ _ => rfl]

theorem look_exported (b : Binding) : b.look.exported = b.exported := by
  unfold Look.exported Binding.look Binding.exported
  rw [map_shown b.entry fun _ _ => rfl]

theorem look_readonly (b : Binding) : b.look.readonly = (b.entry.map VariableEntry.readonly).getD false := by
  unfold Look.readonly Binding.look
  rw [map_shown b.entry fun _ _ => rfl]

theorem get_insert_zero (a : IndexedArray) (v : String) : (a.insert 0 v).get = update a.get 0 (some v) := by
  funext i
  rw [Function.update_apply]
  rcases hd : a.dense with _ | ⟨first,rest⟩
  · have hi : a.insert 0 v = { a with dense := [some v], len := a.len + 1 } := by
      simp [IndexedArray.insert,hd,IndexedArray.maxDenseLen]
    grind [IndexedArray.get]
  · have hi : a.insert 0 v = a.insertDense 0 v := by
      simp [IndexedArray.insert,IndexedArray.shouldStoreDense,hd]
    grind [IndexedArray.insertDense,IndexedArray.get]

theorem look_setArrayAssoc_zero (v : String) (h : b.attrs.has ASSOC) :
    (b.setArrayAssoc host "0" v).look = b.look.assign host v := by
  have hs : b.setArrayAssoc host "0" v =
      { b with
        assoc := some (update (b.assoc.getD fun _ => none) "0" (some (applyCaseAttrs host v b.attrs)))
        printOrder := b.printOrder.map fun order => if "0" ∈ order then order else order ++ ["0"]
        entry := some ⟨applyCaseAttrs host v b.attrs,true,b.exported,false,b.attrs ||| ASSOC⟩ } := by
    unfold Binding.setArrayAssoc
    cases b.entry <;> cases b.assoc <;> simp
  have ha : b.look.attrs.has ASSOC := by rw [look_attrs,h]
  rw [hs,Look.assign,if_pos ha,Look.stored,if_pos (.inl ha),or_eq_self h,look_attrs,look_exported]
  rfl

theorem look_setArrayIndexed_zero (v : String) (h : b.attrs.has ARRAY) (hao : b.attrs.has ASSOC = false) :
    (b.setArrayIndexed host 0 v).look = b.look.assign host v := by
  have hs : b.seededIndexed = b.indexed.getD IndexedArray.default := by
    unfold Binding.seededIndexed
    cases hen : b.entry with
    | none => rfl
    | some e =>
      have hm : e.attrs.meets (ARRAY ||| ASSOC) := by
        have hh : e.attrs.has ARRAY := by simpa [Binding.attrs,hen] using h
        exact meets_of_has bit_ARRAY (by decide) hh
      simp [hm]
  have hsl : b.setArrayIndexed host 0 v =
      { b with
        indexed := some ((b.indexed.getD IndexedArray.default).insert 0 (applyCaseAttrs host v b.attrs))
        entry := some ⟨applyCaseAttrs host v b.attrs,true,b.exported,false,b.attrs ||| ARRAY⟩ } := by
    have hz (a : IndexedArray) (w : String) : (a.insert 0 w).get 0 = some w := by
      rw [get_insert_zero,Function.update_self]
    unfold Binding.setArrayIndexed
    rw [hs]
    cases b.entry <;> cases b.indexed <;> simp [hz]
  have ha : b.look.attrs.has ARRAY := by rw [look_attrs,h]
  have hn : ¬b.look.attrs.has ASSOC := by rw [look_attrs,hao]; decide
  have he : b.look.elements = (b.indexed.getD IndexedArray.default).get := by
    unfold Binding.look
    cases b.indexed with
    | none =>
      funext i
      simp [IndexedArray.get,IndexedArray.default]
    | some a => rfl
  rw [hsl,Look.assign,if_neg hn,if_pos ha,Look.stored,if_pos (.inr ha),he,or_eq_self h,
    ← get_insert_zero,look_attrs,look_exported]
  rfl

theorem look_assignScalar (v : String) (har : b.attrs.has ARRAY = false) (hao : b.attrs.has ASSOC = false) :
    (b.assignScalar host v).look = b.look.assign host v := by
  have ha : ¬(b.look.attrs.has ASSOC ∨ b.look.attrs.has ARRAY) := by
    simp [look_attrs,har,hao]
  rw [Look.assign,if_neg (fun h => ha (.inl h)),if_neg (fun h => ha (.inr h)),Look.stored,if_neg ha,look_attrs,
    look_exported,look_readonly]
  rfl

theorem look_setAttr {attr : VarAttrs} (ha : attr = EXPORT ∨ attr = READONLY) (on : Bool) :
    (b.setAttr attr on).look = b.look.setAttr attr on := by
  obtain ⟨entry,_,_,_,_⟩ := b
  rcases ha with rfl | rfl <;> cases on <;> rcases entry with _ | ⟨_,_ | _,_,_,_⟩ <;> rfl
end

namespace Look
variable {host : Host} {l : Look} (w : String)

def Writable (l : Look) : Prop := l.readonly = false ∧ l.attrs.has READONLY = false

theorem assign_eq (h : l.readonly = false) (w : String) : l.assign host w = { l with
        entry := some ⟨l.stored host w,true,l.exported,false,l.attrs⟩
        elements := if l.attrs.has ASSOC = false ∧ l.attrs.has ARRAY then update l.elements 0 (some (l.stored host w)) else l.elements
        assoc := if l.attrs.has ASSOC then update l.assoc "0" (some (l.stored host w)) else l.assoc } := by
  unfold assign
  cases l.attrs.has ASSOC <;> cases l.attrs.has ARRAY <;> simp [h]

variable (l) in
theorem attrs_assign : (l.assign host w).attrs = l.attrs := by
  unfold assign
  split_ifs <;> rfl

variable (l) in
theorem exported_assign : (l.assign host w).exported = l.exported := by
  unfold assign
  split_ifs <;> rfl

variable (l) in
theorem nameref_assign : (l.assign host w).nameref = l.nameref := by
  unfold assign
  split_ifs <;> rfl

variable (l) in
theorem value_assign : (l.assign host w).value = some (l.stored host w) := by
  unfold assign
  split_ifs <;> rfl

theorem readonly_assign (h : l.readonly = false) (w : String) : (l.assign host w).readonly = false := by
  rw [assign_eq h]
  rfl

theorem stored_congr {m : Look} (h : l.attrs = m.attrs) (w : String) : l.stored host w = m.stored host w := by
  unfold stored
  rw [h]

theorem Writable.assign (h : l.Writable) (w : String) : (l.assign host w).Writable :=
  ⟨readonly_assign h.1 w,by rw [attrs_assign]; exact h.2⟩

theorem assign_assign (h : l.readonly = false) (v w : String) : (l.assign host v).assign host w = l.assign host w := by
  rw [assign_eq (readonly_assign h v),stored_congr (attrs_assign l v),attrs_assign,exported_assign,nameref_assign,
    assign_eq h v,assign_eq h w]
  congr 1
  · by_cases ha : l.attrs.has ASSOC = false ∧ l.attrs.has ARRAY
    · simp only [if_pos ha,Function.update_idem]
    · simp only [if_neg ha]
  · by_cases hao : l.attrs.has ASSOC
    · simp only [if_pos hao,Function.update_idem]
    · simp only [if_neg hao]

theorem assign_eq_self_iff {e : VariableEntry} (h : l.readonly = false) (he : l.entry = some e) (hv : e.hasValue)
    (w : String) :
    l.assign host w = l ↔ l.stored host w = e.value ∧ (l.attrs.has ASSOC → l.assoc "0" = some e.value) ∧
      (l.attrs.has ASSOC = false → l.attrs.has ARRAY → l.elements 0 = some e.value) := by
  obtain ⟨text,has,exported,readonly,attrs⟩ := e
  obtain ⟨entry,elements,assoc,nameref⟩ := l
  obtain rfl : has = true := hv
  obtain rfl : entry = _ := he
  obtain rfl : readonly = false := h
  generalize hs : stored host w ⟨some ⟨text,true,exported,false,attrs⟩,elements,assoc,nameref⟩ = stored
  rw [assign_eq rfl,hs,mk.injEq]
  have hat : Look.attrs ⟨some ⟨text,true,exported,false,attrs⟩,elements,assoc,nameref⟩ = attrs := rfl
  rw [hat]
  constructor
  · rintro ⟨hen,hel,ha,-⟩
    obtain rfl : stored = text := congrArg VariableEntry.value (Option.some.inj hen)
    refine ⟨rfl,fun hk => ?_,fun hn hi => ?_⟩
    · rw [if_pos hk] at ha
      exact (Function.update_eq_self_iff.mp ha).symm
    · rw [if_pos ⟨hn,hi⟩] at hel
      exact (Function.update_eq_self_iff.mp hel).symm
  · rintro ⟨rfl,ha,hel⟩
    refine ⟨rfl,?_,?_,rfl⟩
    · split
      · rename_i hi
        exact Function.update_eq_self_iff.mpr (hel hi.1 hi.2).symm
      · rfl
    · split
      · rename_i hk
        exact Function.update_eq_self_iff.mpr (ha hk).symm
      · rfl

variable (l) in
theorem attrs_setAttr (attr : VarAttrs) (on : Bool) :
    (l.setAttr attr on).attrs = if on then l.attrs ||| attr else l.attrs.without attr := by
  unfold setAttr attrs
  cases l.entry <;> rfl

variable (l) in
theorem readonly_setAttr_EXPORT (on : Bool) : (l.setAttr EXPORT on).readonly = l.readonly := by
  unfold setAttr readonly
  cases l.entry <;> rfl

theorem has_setAttr_EXPORT {attr : VarAttrs} {k : ℕ} (hb : Bit attr k) (ho : EXPORT.has attr = false) (on : Bool) :
    (l.setAttr EXPORT on).attrs.has attr = l.attrs.has attr := by
  rw [attrs_setAttr]
  cases on with
  | true => simp [has_or hb,ho]
  | false => simp [has_without hb,ho]

variable (l) in
theorem stored_setAttr_EXPORT (on : Bool) (w : String) : (l.setAttr EXPORT on).stored host w = l.stored host w := by
  unfold stored applyCaseAttrs
  rw [has_setAttr_EXPORT bit_ASSOC (by decide),has_setAttr_EXPORT bit_ARRAY (by decide),
    has_setAttr_EXPORT bit_INTEGER (by decide),has_setAttr_EXPORT bit_UPPERCASE (by decide),
    has_setAttr_EXPORT bit_LOWERCASE (by decide),has_setAttr_EXPORT bit_CAPCASE (by decide)]

theorem Writable.setAttr_EXPORT (h : l.Writable) (on : Bool) : (l.setAttr EXPORT on).Writable :=
  ⟨by rw [readonly_setAttr_EXPORT]; exact h.1,by rw [has_setAttr_EXPORT bit_READONLY (by decide)]; exact h.2⟩

theorem assign_setAttr_EXPORT (h : l.readonly = false) (on : Bool) (w : String) :
    (l.setAttr EXPORT on).assign host w = (l.assign host w).setAttr EXPORT on := by
  rw [assign_eq ((readonly_setAttr_EXPORT l on).trans h),assign_eq h,stored_setAttr_EXPORT,
    has_setAttr_EXPORT bit_ASSOC (by decide),has_setAttr_EXPORT bit_ARRAY (by decide),attrs_setAttr]
  rfl

theorem setAttr_setAttr_EXPORT (b on : Bool) : (l.setAttr EXPORT b).setAttr EXPORT on = l.setAttr EXPORT on := by
  unfold setAttr
  cases b <;> cases on <;> simp +decide [or_or,or_without,without_or,without_without]

variable (l) in
theorem value_setAttr (attr : VarAttrs) (on : Bool) : (l.setAttr attr on).value = l.value := by
  unfold value setAttr
  cases l.entry <;> rfl

theorem setAttr_EXPORT_eq_iff (h : l.entry.isSome) : l.setAttr EXPORT l.exported = l ↔ l.exported = l.attrs.has EXPORT := by
  obtain ⟨_ | ⟨text,has,exported,readonly,attrs⟩,elements,assoc,nameref⟩ := l
  · cases h
  have hs : EXPORT.has EXPORT := by decide
  change setAttr EXPORT exported _ = _ ↔ exported = attrs.has EXPORT
  have hse : setAttr EXPORT exported ⟨some ⟨text,has,exported,readonly,attrs⟩,elements,assoc,nameref⟩ =
      ⟨some ⟨text,has,exported,readonly,attrs⟩,elements,assoc,nameref⟩ ↔
      (if exported then attrs ||| EXPORT else attrs.without EXPORT) = attrs := by
    simp +decide [setAttr]
  rw [hse]
  cases exported with
  | true => exact ⟨fun h => by rw [← h]; simp [has_or bit_EXPORT,hs],fun h => or_eq_self h.symm⟩
  | false => exact ⟨fun h => by rw [← h]; simp [has_without bit_EXPORT,hs],fun h => without_eq_self bit_EXPORT h.symm⟩

theorem export_eq_setAttr (h : l.value.isSome) : l.export l.value = l.setAttr EXPORT true := by
  obtain ⟨_ | ⟨_,_ | _,_,_,_⟩,_,_,_⟩ := l
  · cases h
  · cases h
  · rfl

theorem setAttr_READONLY_of_writable (h : l.Writable) (he : l.entry.isSome) : l.setAttr READONLY false = l := by
  obtain ⟨_ | ⟨_,_,_,readonly,attrs⟩,_,_,_⟩ := l
  · cases he
  obtain rfl : readonly = false := h.1
  have hw : attrs.without READONLY = attrs := without_eq_self bit_READONLY h.2
  simp +decide [setAttr,hw]

theorem assign_setAttr_READONLY (h : l.Writable) (w : String) :
    (l.setAttr READONLY false).assign host w = l.assign host w := by
  by_cases he : l.entry.isSome
  · rw [setAttr_READONLY_of_writable h he]
  · obtain ⟨entry,elements,assoc,nameref⟩ := l
    obtain rfl : entry = none := by simpa using he
    have hb : setAttr READONLY false ⟨none,elements,assoc,nameref⟩ = ⟨some {},elements,assoc,nameref⟩ := by
      simp +decide [setAttr]
    rw [hb,assign_eq rfl,assign_eq rfl]
    rfl
end Look
end Cherubsh.State
