import Cherubsh.Exec.TemporaryRestore

/-! # The variables that assignments before a command leave as they were

A variable with a value is left alone when storing its value again changes nothing and its export
flag and attribute agree; one without when an unset changes nothing.
-/
namespace Cherubsh.Exec.TemporaryAssignments
open State State.VarAttrs Parts Option
variable {l : Look} {w name : String} {v V : View} {host : Host}

def SameOutside (touched : Set String) (s t : Store) : Prop := ∀ name, name ∉ touched → Same (view name t) (view name s)

/-- The command touches no name outside `touched`, and a special builtin finds posix mode off. -/
def Command.Spares (sh : Shell) (command : Command) (assignments : Assignments) (touched : Set String) (s : Store) : Prop :=
  let expanded := expandAssignments sh assignments s
  let s := command.words expanded
  SameOutside touched expanded s ∧
    match command.kind with
    | .external => True
    | .builtin b =>
      let start := prepared sh command.opened assignments (snapshotAssignments sh assignments s).2
      (b.special → posix sh s = false) ∧ SameOutside touched start (ran b command.opened start)
    | .function f =>
      let start := entered sh command.opened assignments (snapshotPrefix sh assignments s).2
      SameOutside touched (popLocalScope sh.host start) (left sh f command.opened start) ∧
        ∀ name, f.persisted start name → name ∈ touched

def Unchanged (name : String) (s t : Store) : Prop :=
  (t.vars name).look = (s.vars name).look ∧
    (t.scopes.map fun scope => scope.saved name) = s.scopes.map fun scope => scope.saved name

/-- Whatever the command, it leaves the names that it does not touch itself as they were. -/
def LeavesNoTrace (sh : Shell) (assignments : Assignments) (s : Store) : Prop :=
  ∀ (command : Command) (touched : Set String), (∀ a ∈ assignments, a.1 ∉ touched) →
    command.Spares sh assignments touched s → ∀ name, name ∉ touched → Unchanged name s (execute sh command assignments s)

def Prefixable (s : Store) (assignments : Assignments) : Prop :=
  ∀ a ∈ assignments, Ordinary a.1 ∧ isReadonly s a.1 = false ∧ (s.vars a.1).attrs.has NAMEREF = false ∧ (s.vars a.1).nameref = none

/-- A value that its variable stores again as it is. -/
structure Kept (host : Host) (b : Binding) (e : VariableEntry) : Prop where
  entry : b.entry = some e
  hasValue : e.hasValue
  exported : e.exported = e.attrs.has EXPORT
  assoc : e.attrs.has ASSOC → (b.assoc.bind fun array => array "0") = some e.value
  array : e.attrs.has ASSOC = false → e.attrs.has ARRAY → (b.indexed.bind fun array => array.get 0) = some e.value
  element : e.attrs.has ASSOC ∨ e.attrs.has ARRAY → applyCaseAttrs host e.value e.attrs = e.value
  scalar : e.attrs.has ASSOC = false → e.attrs.has ARRAY = false → b.assigned host e.value = e.value

/-- Nothing stands under the name, in the store, the environment or a scope. -/
structure Absent (s : Store) (name : String) : Prop where
  look : (s.vars name).look = Binding.unset.look
  env : s.processEnv name = none
  scopes : ∀ scope ∈ s.scopes, scope.saved name = none

/-- The name is local to the running function, as `local name` leaves it. -/
def FreshLocal (s : Store) (name : String) : Prop :=
  ∃ saved, (s.scopes.getLast?.bind fun scope => scope.saved name) = some saved ∧
    (s.vars name).look = (Binding.declared ((saved.entry.map VariableEntry.exported).getD false)).look

def Restorable (host : Host) (s : Store) (name : String) : Prop :=
  (∃ e, Kept host (s.vars name) e) ∨ Absent s name ∨ FreshLocal s name

section
variable {host : Host} {s : Store} {name : String} {assignments : Assignments} {b : Binding} {e : VariableEntry}

theorem Prefixable.assignable (h : Prefixable s assignments) : Assignable s assignments := by
  intro a ha
  obtain ⟨ho,hr,hat,hn⟩ := h a ha
  simp only [isReadonly,Binding.isReadonly,Bool.or_eq_false_iff] at hr
  obtain ⟨⟨-,hre⟩,hb,hf⟩ := hr
  exact ⟨ho,⟨(look_readonly _).trans hf,by rw [view,look_attrs]; exact hb⟩,by rw [view,look_attrs]; exact hat,hn,hre⟩

theorem entry_of_look (h : b.look.entry = some e) (hv : e.hasValue) : b.entry = some e := by
  obtain ⟨e',he',hs⟩ := map_eq_some_iff.mp h
  have hh : e'.hasValue := by
    rw [← hs] at hv
    unfold VariableEntry.shown at hv
    split at hv <;> exact hv
  rw [he',← hs,shown_of_hasValue hh]

theorem look_entry_of_hasValue (h : b.entry = some e) (hv : e.hasValue) :
    b.look.entry = some e := by
  unfold Binding.look
  rw [h,map_some,shown_of_hasValue hv]

theorem value_of_entry (ha : (s.vars name).attrs.has NAMEREF = false) (he : (s.vars name).entry = some e)
    (hv : e.hasValue) : (view name s).value = some e.value := by
  change readBinding s name = _
  rw [readBinding_of_attr ha,he]
  simp [hv]

theorem stored_eq (b : Binding) (w : String) :
    b.look.stored host w = if b.attrs.has ASSOC ∨ b.attrs.has ARRAY = true then applyCaseAttrs host w b.attrs
      else b.assigned host w := by
  unfold Look.stored Binding.assigned
  rw [look_attrs]

theorem kept_iff (hr : b.look.readonly = false) (hen : b.entry = some e) (hv : e.hasValue) :
    Kept host b e ↔ b.look.assign host e.value = b.look ∧ b.look.exported = b.look.attrs.has EXPORT := by
  have ha : b.attrs = e.attrs := by simp [Binding.attrs,hen]
  have hex : b.exported = e.exported := by simp [Binding.exported,hen]
  have hao : b.look.assoc "0" = b.assoc.bind fun array => array "0" := by
    unfold Binding.look
    cases b.assoc <;> rfl
  have har : b.look.elements 0 = b.indexed.bind fun array => array.get 0 := by
    unfold Binding.look
    cases b.indexed <;> rfl
  rw [Look.assign_eq_self_iff hr (look_entry_of_hasValue hen hv) hv,stored_eq,look_attrs,look_exported,ha,
    hex,hao,har]
  constructor
  · intro h
    refine ⟨⟨?_,h.assoc,h.array⟩,h.exported⟩
    split
    · rename_i he
      exact h.element he
    · rename_i hs
      simp only [not_or,Bool.not_eq_true] at hs
      exact h.scalar hs.1 hs.2
  · rintro ⟨⟨hst,hke,hi⟩,hb⟩
    refine ⟨hen,hv,hb,hke,hi,fun he => ?_,fun hk hn => ?_⟩
    · rwa [if_pos he] at hst
    · rwa [if_neg (by simp [hk,hn])] at hst

theorem getLast?_view_saved {saved : SavedVar} :
    (view name s).saved.getLast? = some (some saved) ↔ (s.scopes.getLast?.bind fun scope => scope.saved name) = some saved := by
  rw [getLast?_saved]
  cases s.scopes.getLast? <;> simp

theorem blank_iff (hat : (s.vars name).attrs.has NAMEREF = false) :
    (view name s).value = none ∧ Blank (view name s) ↔ Absent s name ∨ FreshLocal s name := by
  have hw (b : Binding) : view name s = (view name s).withBinding b ↔ (s.vars name).look = b.look ∧ (view name s).value = none :=
    ⟨fun h => ⟨congrArg View.look h,congrArg View.value h⟩,fun ⟨hl,hv⟩ => by
      unfold View.withBinding
      rw [← hl,← hv]
      rfl⟩
  have hf : (∀ saved ∈ (view name s).saved, saved = none) ↔ ∀ scope ∈ s.scopes, scope.saved name = none := by
    simp [view]
  have ha : (view name s).value = none ∧ (s.vars name).look = Binding.unset.look ↔
      s.processEnv name = none ∧ (s.vars name).look = Binding.unset.look := by
    refine and_congr_left fun hl => ?_
    have he := map_eq_none_iff.mp (congrArg Look.entry hl)
    change readBinding s name = none ↔ _
    rw [readBinding_of_attr hat,he]
  have hd (exported : Bool) (hl : (s.vars name).look = (Binding.declared exported).look) : (view name s).value = none := by
    have hso : (s.vars name).entry.isSome := by
      have he := congrArg (fun l : Look => l.entry.isSome) hl
      simpa [Binding.look,Binding.declared] using he
    change readBinding s name = none
    rw [readBinding_of_entry hat hso,hl]
    rfl
  unfold Blank
  simp only [hw,hf,getLast?_view_saved]
  constructor
  · rintro ⟨hv,⟨saved,hla,hl,-⟩ | ⟨hs,hl,-⟩⟩
    · exact .inr ⟨saved,hla,hl⟩
    · exact .inl ⟨hl,(ha.mp ⟨hv,hl⟩).1,hs⟩
  · rintro (⟨hl,hen,hs⟩ | ⟨saved,hla,hl⟩)
    · have hv := (ha.mpr ⟨hen,hl⟩).1
      exact ⟨hv,.inr ⟨hs,hl,hv⟩⟩
    · have hv := hd _ hl
      exact ⟨hv,.inl ⟨saved,hla,hl,hv⟩⟩

theorem look_value_of_view (hp : (view name s).Plain) (he : (view name s).look.entry.isSome) :
    (view name s).value = (view name s).look.value := by
  apply readBinding_of_entry
  · rw [← look_attrs]
    exact hp.attr
  · simpa [view,Binding.look] using he

theorem isSome_entry_of_value (h : l.value = some w) : ∃ e, l.entry = some e ∧ e.hasValue ∧ e.value = w := by
  obtain ⟨e,he,hw⟩ := bind_eq_some_iff.mp h
  have hv : e.hasValue := by
    by_contra hn
    simp [hn] at hw
  rw [if_pos hv] at hw
  exact ⟨e,he,hv,Option.some.inj hw⟩

theorem isSome_entry_of_assign (h : l.assign host w = l) : l.entry.isSome := by
  obtain ⟨e,he,-,-⟩ := isSome_entry_of_value ((congrArg Look.value h).symm.trans (Look.value_assign _ w))
  exact he ▸ rfl

theorem assign_view_eq (hp : (view name s).Plain) (hl : (view name s).look.assign host w = (view name s).look) :
    (view name s).assign host w = view name s := by
  have hv : (view name s).look.value = some ((view name s).look.stored host w) := by
    rw [← Look.value_assign,hl]
  have hva := look_value_of_view hp (isSome_entry_of_assign hl)
  unfold View.assign
  rw [hl,← hv,← hva]

theorem restorable_iff (hp : (view name s).Plain) :
    Restorable host s name ↔ Fixed host (view name s) ∧
      ∀ w, (view name s).value = some w → (view name s).look.exported = (view name s).look.attrs.has EXPORT := by
  have ha : (s.vars name).attrs.has NAMEREF = false := by
    rw [← look_attrs]
    exact hp.attr
  constructor
  · rintro (⟨e,hk⟩ | hb)
    · have hv := value_of_entry ha hk.entry hk.hasValue
      obtain ⟨hl,hbi⟩ := (kept_iff hp.writable.1 hk.entry hk.hasValue).mp hk
      refine ⟨⟨fun w hw => ?_,fun hn => ?_⟩,fun _ _ => hbi⟩
      · obtain rfl := Option.some.inj (hv.symm.trans hw)
        exact assign_view_eq hp hl
      · cases hv.symm.trans hn
    · obtain ⟨hv,hb⟩ := (blank_iff ha).mpr hb
      refine ⟨⟨fun w hw => ?_,fun _ => hb⟩,fun w hw => ?_⟩ <;> cases hv.symm.trans hw
  · rintro ⟨hf,hbi⟩
    cases hv : (view name s).value with
    | none => exact .inr ((blank_iff ha).mp ⟨hv,hf.unset hv⟩)
    | some w =>
      have hl : (view name s).look.assign host w = (view name s).look := congrArg View.look (hf.value w hv)
      obtain ⟨e,he,hh,-⟩ := isSome_entry_of_value ((congrArg Look.value hl).symm.trans (Look.value_assign _ w))
      have hen := entry_of_look he hh
      obtain rfl : e.value = w := Option.some.inj ((value_of_entry ha hen hh).symm.trans hv)
      exact .inl ⟨e,(kept_iff hp.writable.1 hen hh).mpr ⟨hl,hbi _ hv⟩⟩
end

section
variable {sh : Shell} {s t : Store} {name : String} {assignments : Assignments}

theorem Same.eq {w : View} (h : Same v w) : v = { w with keepsLocal := v.keepsLocal } := by
  obtain ⟨look,value,saved,refused,keepsLocal⟩ := v
  obtain ⟨rfl,rfl,rfl,rfl⟩ := h
  rfl

theorem Same.fixed {w : View} (h : Same v w) (hw : Fixed host w) : Fixed host v := by
  rw [h.eq]
  exact hw.keepsLocal _

theorem Same.unchanged (h : Same (view name t) (view name s)) : Unchanged name s t := ⟨h.look,h.saved⟩

variable (sh) in
theorem view_expandAssignments (hnames : Assignable s assignments) (hexport : s.special.options.flags .allexport = false)
    (hr : ∀ a ∈ assignments, ∀ v ∈ Restored sh.host (view a.1 s), v = view a.1 s) :
    (∀ name, view name (expandAssignments sh assignments s) = view name s) ∧
      Assignable (expandAssignments sh assignments s) assignments := by
  obtain ⟨hai,ho⟩ := expandAssignments_views sh hnames hexport
  refine and_iff_left_of_imp (fun hv a ha => hv a.1 ▸ hnames a ha) |>.mpr fun name => ?_
  by_cases hn : ∃ a ∈ assignments, a.1 = name
  · obtain ⟨a,ha,rfl⟩ := hn
    exact hr a ha _ (hai a ha)
  · exact ho name fun a ha heq => hn ⟨a,ha,heq⟩

theorem prefixRestored_eq (hf : Fixed host V) (hp : V.look.entry.isSome → V.value = V.look.value)
    (hb : ∀ w, V.value = some w → V.look.exported = V.look.attrs.has EXPORT) (hv : v ∈ PrefixRestored host V) : v = V := by
  cases hva : V.value with
  | none => exact (hv.2 hva).eq_of_blank (hf.unset hva)
  | some w =>
    have ha := hf.value w hva
    have hs := isSome_entry_of_assign (congrArg View.look ha)
    rw [hv.1 w hva,ha]
    unfold View.setAttr
    rw [Look.value_setAttr,(Look.setAttr_EXPORT_eq_iff hs).mpr (hb w hva),← hp hs]

theorem leavesNoTrace_of_restorable (hnames : Assignable s assignments) (hexport : s.special.options.flags .allexport = false)
    (hre : ∀ a ∈ assignments, Restorable sh.host s a.1) : LeavesNoTrace sh assignments s := by
  intro command touched hfr hsa name hn
  have hf : ∀ a ∈ assignments, Fixed sh.host (view a.1 s) := fun a ha =>
    ((restorable_iff (hnames a ha).2).mp (hre a ha)).1
  have he := (view_expandAssignments sh hnames hexport fun a ha _ hv => (hf a ha).eq_of_restored hv).1
  unfold execute
  obtain ⟨hwo,hr⟩ := hsa
  have hs : ∀ name, name ∉ touched → Same (view name (command.words (expandAssignments sh assignments s))) (view name s) := by
    intro name hn
    rw [← he name]
    exact hwo name hn
  generalize command.words (expandAssignments sh assignments s) = t at hs hr ⊢
  have hnames' : Assignable t assignments := fun a ha => ⟨(hnames a ha).1,(hs a.1 (hfr a ha)).plain (hnames a ha).2⟩
  have hf' : ∀ a ∈ assignments, Fixed sh.host (view a.1 t) := fun a ha => (hs a.1 (hfr a ha)).fixed (hf a ha)
  cases hk : command.kind with
  | external => exact (hs name hn).unchanged
  | builtin b =>
    rw [hk] at hr
    rw [snapshotAssignments_eq hnames'] at hr
    have hp : (b.special && posix sh t && !b.invokedViaCommand) = false := by
      cases hsp : b.special with
      | false => rfl
      | true => rw [hr.1 hsp]; rfl
    exact ((runBuiltin_same hnames' hf' hp hfr hr.2 hn).trans (hs name hn)).unchanged
  | function f =>
    rw [hk] at hr
    rw [snapshotPrefix_eq hnames'] at hr
    obtain ⟨keeps,hai,ho⟩ := callFunction_views sh f command.opened touched hnames' hf' hfr hr.1 hr.2
    by_cases hm : ∃ a ∈ assignments, a.1 = name
    · obtain ⟨a,ha,rfl⟩ := hm
      have hb := ((restorable_iff (hnames a ha).2).mp (hre a ha)).2
      have hvi := hs a.1 hn
      have hve := prefixRestored_eq ((hf' a ha).keepsLocal keeps) (look_value_of_view (hnames' a ha).2)
        (fun w hw => by rw [hvi.look]; exact hb w (hvi.value ▸ hw)) (hai a ha)
      rw [Same.eq hvi] at hve
      exact ⟨congrArg View.look hve,congrArg View.saved hve⟩
    · exact ((ho name hn fun a ha heq => hm ⟨a,ha,heq⟩).trans (hs name hn)).unchanged
end

section
variable {sh : Shell} {s : Store} {assignments : Assignments} {host : Host} {V : View}

/-- A restore leaves the name as it is; an unset local of a caller may stay because it is asked to. -/
structure Settled (host : Host) (V : View) : Prop where
  value : ∀ w, V.value = some w → V.assign host w = V
  unset : V.value = none → Blank V ∨ V.Outer ∧ V.keepsLocal ∧ V = V.withBinding (Binding.declared false)

theorem Settled.eq_of_restored (h : Settled host V) (hv : v ∈ Restored host V) : v = V := by
  cases hva : V.value with
  | some w => rw [hv.1 w hva,h.value w hva]
  | none =>
    rcases h.unset hva with hb | ⟨ho,hk,hV⟩
    · exact (hv.2 hva).eq_of_blank hb
    · rw [hV]
      exact (hv.2 hva).ofKept ho hk

theorem Settled.fixed_or_outer (h : Settled host V) : Fixed host V ∨ V.value = none ∧ V.Outer := by
  cases hv : V.value with
  | some w => exact .inl ⟨h.value,fun hn => by rw [hv] at hn; cases hn⟩
  | none =>
    rcases h.unset hv with hb | ⟨ho,-,-⟩
    · exact .inl ⟨h.value,fun _ => hb⟩
    · exact .inr ⟨rfl,ho⟩

theorem local_cases (V : View) :
    (∃ saved, V.saved.getLast? = some (some saved)) ∨ (∀ saved ∈ V.saved, saved = none) ∨ V.Outer := by
  by_cases hf : ∀ saved ∈ V.saved, saved = none
  · exact .inr (.inl hf)
  · obtain ⟨saved,hm,hne⟩ : ∃ saved ∈ V.saved, saved ≠ none := by
      simpa only [not_forall,exists_prop] using hf
    cases hl : V.saved.getLast?.join with
    | none => exact .inr (.inr ⟨hl,saved,hm,isSome_iff_ne_none.mpr hne⟩)
    | some last => exact .inl ⟨last,join_eq_some_iff.mp hl⟩

theorem settled_of_unchanged (hp : (view name s).Plain)
    (hv : v ∈ Restored host (view name s)) (hl : v.look = (view name s).look) (hs : v.saved = (view name s).saved) :
    Settled host (view name s) where
  value w hw := by
    rw [hv.1 w hw] at hl
    exact assign_view_eq hp hl
  unset hva := by
    have hu := hv.2 hva
    have hwi {b : Binding} (hb : v = (view name s).withBinding b) : view name s = (view name s).withBinding b := by
      rw [hb] at hl
      have hb' : b.look = (view name s).look := hl
      unfold View.withBinding
      rw [hb',← hva]
    rcases local_cases (view name s) with ⟨saved,hla⟩ | hf | ho
    · exact .inl (.inl ⟨saved,hla,hwi (hu.ofLocal saved hla)⟩)
    · exact .inl (.inr ⟨hf,hwi (hu.ofFree hf)⟩)
    · cases hk : (view name s).keepsLocal with
      | true => exact .inr ⟨ho,rfl,hwi (hu.ofKept ho hk)⟩
      | false =>
        have hlt := hu.ofTaken ho hk
        unfold View.locals at hlt
        rw [hs] at hlt
        omega

def forgetLocals : Builtin where
  name := "shopt"
  special := false
  invokedViaCommand := false
  run s := { s with special := s.special.setShopt "localvar_unset" false }
  plain := by decide

theorem same_forgetLocals (name : String) (s : Store) : Same (view name (forgetLocals.run s)) (view name s) := ⟨rfl,rfl,rfl,rfl⟩

/-- The views from which a restore goes on when unset locals do not stay. -/
def Exposed (host : Host) (V : View) : Set View :=
  { v | (Fixed host V → v ∈ Drift host { V with keepsLocal := false }) ∧
    (¬Fixed host V → v ∈ Alike { V with keepsLocal := false } ∨ v.locals < V.locals) }

def Forgotten (host : Host) (V : View) : Set View :=
  { v | (Fixed host V → v = { V with keepsLocal := false }) ∧ (¬Fixed host V → v.locals < V.locals) }

theorem forgotten_subset (hp : V.Plain) : Forgotten host V ⊆ Exposed host V := by
  intro v hv
  refine ⟨fun hf => ?_,fun hn => .inr (hv.2 hn)⟩
  rw [hv.1 hf]
  exact mem_drift_self ⟨hp.1,hp.2,hp.3,hp.4⟩

theorem moves_restoreValue_forgotten (ho : Ordinary name) (hse : Settled sh.host V) :
    Parts.Moves view name (Exposed sh.host V) (Forgotten sh.host V) fun s => restoreValue sh s (name,V.value) := by
  by_cases hf : Fixed sh.host V
  · have hm : Parts.Moves view name (Drift sh.host { V with keepsLocal := false }) (Restored sh.host { V with keepsLocal := false })
        fun s => restoreValue sh s (name,V.value) := moves_restoreValue ho
    exact hm.mono (fun v hv => hv.1 hf) fun v hv =>
      ⟨fun _ => (hf.keepsLocal false).eq_of_restored hv,fun hn => absurd hf hn⟩
  · obtain ⟨hva,hou⟩ := hse.fixed_or_outer.resolve_left hf
    have hm : Parts.Moves view name (Alike { V with keepsLocal := false }) { v | Unset { V with keepsLocal := false } v }
        (unset sh.host name) := moves_unset sh.host ho
    rw [hva]
    constructor
    · intro s hs
      refine ⟨fun h => absurd h hf,fun _ => ?_⟩
      rcases hs.2 hf with ha | hlt
      · exact (hm.own ha).ofTaken hou rfl
      · exact Nat.lt_of_le_of_lt (locals_unset_le name s) hlt
    · exact fun _ other hot => (onlyAt_unset name _).view_other hot

theorem LeavesNoTrace.unchanged (h : LeavesNoTrace sh assignments s) (command : Command) (hs : command.Spares sh assignments ∅ s)
    (name : String) : Unchanged name s (execute sh command assignments s) :=
  h command ∅ (fun _ _ => Set.notMem_empty _) hs name (Set.notMem_empty _)

def bare : Command := ⟨id,true,.external⟩

def idle : Function := ⟨id,fun _ _ => false⟩

variable (hnames : Assignable s assignments) (hexport : s.special.options.flags .allexport = false)
  (h : LeavesNoTrace sh assignments s)
include hnames hexport h

theorem settled_of_leavesNoTrace : ∀ a ∈ assignments, Settled sh.host (view a.1 s) := by
  intro a ha
  obtain ⟨hl,hs⟩ := h.unchanged bare ⟨fun _ _ => Same.refl _,trivial⟩ a.1
  exact settled_of_unchanged (hnames a ha).2 ((expandAssignments_views sh hnames hexport).1 a ha) hl hs

theorem fixed_of_leavesNoTrace : ∀ a ∈ assignments, Fixed sh.host (view a.1 s) := by
  have hse := settled_of_leavesNoTrace hnames hexport h
  obtain ⟨he,hnames'⟩ := view_expandAssignments sh hnames hexport fun a ha _ hv => (hse a ha).eq_of_restored hv
  have hp := (prepared_views sh hnames' true).1
  intro a₀ ha₀
  by_contra hn
  obtain ⟨-,hs⟩ := h.unchanged ⟨id,true,.builtin forgetLocals⟩
    ⟨fun _ _ => Same.refl _,fun hsp => (by cases hsp),fun name _ => same_forgetLocals name _⟩ a₀.1
  have hr : execute sh ⟨id,true,.builtin forgetLocals⟩ assignments s =
      restoreAssignmentValues sh (assignments.map fun a => (a.1,(view a.1 s).value))
        (forgetLocals.run (prepared sh true assignments (expandAssignments sh assignments s))) := by
    have heq : runBuiltin sh forgetLocals true assignments (expandAssignments sh assignments s) = _ := runBuiltin_eq hnames' rfl
    simp only [he] at heq
    exact heq
  rw [hr] at hs
  generalize hst : forgetLocals.run (prepared sh true assignments (expandAssignments sh assignments s)) = t at hs
  have hd : ∀ a ∈ assignments, view a.1 t ∈ Drift sh.host { view a.1 s with keepsLocal := false } := by
    intro a ha
    have hk : (view a.1 t).keepsLocal = false := by
      rw [← hst]
      simp [view,forgetLocals,SpecialState.shoptOption,SpecialState.setShopt]
    have hsa : Same (view a.1 t) (view a.1 (prepared sh true assignments (expandAssignments sh assignments s))) := by
      rw [← hst]
      exact same_forgetLocals a.1 _
    rw [← hk,← he a.1]
    exact hsa.drift (hp a ha)
  unfold restoreAssignmentValues at hs
  rw [List.foldl_map] at hs
  have hlt := ((foldl_moves_of_subset (fun name => Exposed sh.host (view name s)) (fun name => Forgotten sh.host (view name s)) Prod.fst
    (fun a ha => moves_restoreValue_forgotten (hnames a ha).1 (hse a ha)) (fun a ha => forgotten_subset (hnames a ha).2)
    fun a ha => ⟨fun _ => hd a ha,fun _ => .inl (hd a ha).1⟩).1 a₀ ha₀).2 hn
  have hc := congrArg (List.countP Option.isSome) hs
  change (view a₀.1 _).locals = (view a₀.1 s).locals at hc
  omega

theorem exported_of_leavesNoTrace {a : String × String} (ha : a ∈ assignments)
    (hva : (view a.1 s).value = some w) : (view a.1 s).look.exported = (view a.1 s).look.attrs.has EXPORT := by
  have hf := fixed_of_leavesNoTrace hnames hexport h
  obtain ⟨he,hnames'⟩ := view_expandAssignments sh hnames hexport fun a ha _ hv => (hf a ha).eq_of_restored hv
  obtain ⟨hl,-⟩ := h.unchanged ⟨id,true,.function idle⟩
    ⟨fun _ _ => Same.refl _,fun _ _ => Same.refl _,fun _ hp => (by cases hp)⟩ a.1
  obtain ⟨keeps,hag,-⟩ := callFunction_views sh idle true ∅ hnames'
    (fun a ha => by rw [he]; exact hf a ha) (fun _ _ => Set.notMem_empty _) (fun _ _ => Same.refl _)
    fun _ hp => by cases hp
  have hfi := (hag a ha).1 w (by rw [he]; exact hva)
  have hai : (view a.1 s).look.assign sh.host w = (view a.1 s).look := congrArg View.look ((hf a ha).value w hva)
  apply (Look.setAttr_EXPORT_eq_iff (isSome_entry_of_assign hai)).mp
  have hs := (congrArg View.look hfi).symm.trans hl
  simp only [he] at hs
  have hse : ((view a.1 s).look.assign sh.host w).setAttr EXPORT (view a.1 s).look.exported = (view a.1 s).look := hs
  rwa [hai] at hse
end

section
variable {sh : Shell} {s : Store} {assignments : Assignments}

theorem leaves_no_trace_iff (hnames : Prefixable s assignments) (hexport : s.special.options.flags .allexport = false) :
    LeavesNoTrace sh assignments s ↔ ∀ a ∈ assignments, Restorable sh.host s a.1 := by
  have hassignable := hnames.assignable
  constructor
  · intro h a ha
    exact (restorable_iff (hassignable a ha).2).mpr ⟨fixed_of_leavesNoTrace hassignable hexport h a ha,
      fun w hw => exported_of_leavesNoTrace hassignable hexport h ha hw⟩
  · exact leavesNoTrace_of_restorable hassignable hexport

def plainShell : Shell := ⟨plainHost,1,by decide,fun _ => false⟩

def startWith (name : String) (b : Binding) : Store where
  vars := Function.update (fun _ => Binding.unset) name b
  processEnv _ := none
  scopes := []
  special := startSpecial

theorem ordinary_a : Ordinary "a" := ⟨by decide,by decide⟩

/-- `a=5` -/
def five : Binding := { Binding.unset with entry := some ⟨"5",true,false,false,0⟩ }

theorem scalar_leaves_no_trace : LeavesNoTrace plainShell [("a","1")] (startWith "a" five) := by
  refine (leaves_no_trace_iff ?_ rfl).mpr ?_
  · intro a ha
    obtain rfl := List.mem_singleton.mp ha
    exact ⟨ordinary_a,by decide,by decide,rfl⟩
  · intro a ha
    obtain rfl := List.mem_singleton.mp ha
    exact .inl ⟨_,rfl,rfl,by decide,by decide,by decide,by decide,fun _ _ => rfl⟩

/-- `a=([5]=x)` -/
def sparse : Binding :=
  { Binding.unset with
    entry := some ⟨"",false,false,false,ARRAY⟩
    indexed := some (IndexedArray.default.insert 5 "x") }

/-- The command `a=1 command` takes the elements of `a` away when there is none with index 0. -/
theorem sparse_array_is_lost :
    Prefixable (startWith "a" sparse) [("a","1")] ∧ (startWith "a" sparse).special.options.flags .allexport = false ∧
      ((startWith "a" sparse).vars "a").look.elements 5 = some "x" ∧
      ((execute plainShell bare [("a","1")] (startWith "a" sparse)).vars "a").look.elements 5 = none ∧
      ¬LeavesNoTrace plainShell [("a","1")] (startWith "a" sparse) := by
  have hbefore : ((startWith "a" sparse).vars "a").look.elements 5 = some "x" := by decide
  have hafter : ((execute plainShell bare [("a","1")] (startWith "a" sparse)).vars "a").look.elements 5 = none := by decide
  refine ⟨?_,rfl,hbefore,hafter,fun h => ?_⟩
  · intro a ha
    obtain rfl := List.mem_singleton.mp ha
    exact ⟨ordinary_a,by decide,by decide,rfl⟩
  · obtain ⟨hlook,-⟩ := h.unchanged bare ⟨fun _ _ => Same.refl _,trivial⟩ "a"
    rw [← hlook,hafter] at hbefore
    cases hbefore
end
end Cherubsh.Exec.TemporaryAssignments
