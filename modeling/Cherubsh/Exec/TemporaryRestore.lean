import Cherubsh.Exec.TemporaryAssignments
import Cherubsh.Library.Parts

/-! # When the assignments before a command leave no trace

A restore assigns the old value or unsets the name, and that is the old view exactly when an
assignment of its own value, or an unset, does not change the variable.
-/
namespace Cherubsh.Exec.TemporaryAssignments
open State State.VarAttrs Parts List

section
variable (host : Host) {V v : View}

def Alike (V : View) : Set View := { v | v.saved = V.saved ∧ v.refused = V.refused ∧ v.keepsLocal = V.keepsLocal }

def Drift (V : View) : Set View := { v | v ∈ Alike V ∧ v.Plain ∧ ∀ w, v.look.assign host w = V.look.assign host w }

def ExportDrift (V : View) : Set View :=
  { v | v ∈ Alike V ∧ v.Plain ∧
    ∀ w on, (v.look.assign host w).setAttr EXPORT on = (V.look.assign host w).setAttr EXPORT on }

variable {host}

theorem mem_drift_self (h : V.Plain) : V ∈ Drift host V := ⟨⟨rfl,rfl,rfl⟩,h,fun _ => rfl⟩

theorem drift_subset_exportDrift : Drift host V ⊆ ExportDrift host V :=
  fun _ h => ⟨h.1,h.2.1,fun w on => by rw [h.2.2 w]⟩

theorem plain_assign (h : v.Plain) (w : String) : (v.assign host w).Plain where
  writable := h.writable.assign w
  attr := by
    change (v.look.assign host w).attrs.has NAMEREF = false
    rw [Look.attrs_assign]
    exact h.attr
  nameref := (Look.nameref_assign _ w).trans h.nameref
  accepted := h.accepted

theorem plain_setAttr_EXPORT (h : v.Plain) (on : Bool) : (v.setAttr EXPORT on).Plain where
  writable := h.writable.setAttr_EXPORT on
  attr := (Look.has_setAttr_EXPORT bit_NAMEREF (by decide) on).trans h.attr
  nameref := h.nameref
  accepted := h.accepted

theorem assign_mem_drift (hV : V.Plain) (w : String) : V.assign host w ∈ Drift host V :=
  ⟨⟨rfl,rfl,rfl⟩,plain_assign hV w,fun w' => Look.assign_assign hV.writable.1 w w'⟩

theorem stored_of_assign {l l' : Look} {w : String} (h : l.assign host w = l'.assign host w) :
    l.stored host w = l'.stored host w := by
  have hv := congrArg Look.value h
  rw [Look.value_assign,Look.value_assign] at hv
  exact Option.some.inj hv

theorem assign_of_drift (h : v ∈ Drift host V) (w : String) : v.assign host w = V.assign host w := by
  obtain ⟨⟨hs,hr,hk⟩,-,ha⟩ := h
  unfold View.assign
  rw [ha w,stored_of_assign (ha w),hs,hr,hk]

theorem withBinding_of_alike (h : v ∈ Alike V) (b : Binding) : v.withBinding b = V.withBinding b := by
  obtain ⟨hs,hr,hk⟩ := h
  unfold View.withBinding
  rw [hs,hr,hk]
end

section
variable {sh : Shell} {s : Store} {name : String} {V : View}

variable (h : Ordinary name)
include h

variable (hplain : (view name s).Plain)
include hplain

theorem set_of_plain (w : String) : set sh name w s = assignOwn sh.host name w s := by
  obtain ⟨calls,hc⟩ := Nat.exists_eq_succ_of_ne_zero (Nat.ne_of_gt sh.calls_pos)
  unfold set
  rw [hc,assign_of_plain h hplain]
  rfl

theorem view_set (w : String) : view name (set sh name w s) = (view name s).assign sh.host w := by
  rw [set_of_plain h hplain]
  exact view_assignOwn h hplain.attr w

theorem onlyAt_set (w : String) : OnlyAt name s (set sh name w s) := by
  rw [set_of_plain h hplain]
  exact onlyAt_assignOwn h w s

omit hplain

theorem moves_set (w : String) : Parts.Moves view name (Drift sh.host V) { V.assign sh.host w } (set sh name w) where
  own hs := by rw [view_set h hs.2.1,assign_of_drift hs]; rfl
  other hs _ hj := (onlyAt_set h hs.2.1 w).view_other hj

omit h

structure Unset (V v : View) : Prop where
  ofLocal : ∀ saved, V.saved.getLast? = some (some saved) →
    v = V.withBinding (Binding.declared ((saved.entry.map VariableEntry.exported).getD false))
  ofFree : (∀ saved ∈ V.saved, saved = none) → v = V.withBinding Binding.unset
  ofKept : V.Outer → V.keepsLocal → v = V.withBinding (Binding.declared false)
  ofTaken : V.Outer → V.keepsLocal = false → v.locals < V.locals

theorem moves_unset (host : Host) (h : Ordinary name) : Parts.Moves view name (Alike V) { v | Unset V v } (unset host name) where
  own {s} hs := by
    obtain ⟨hsa,-,hk⟩ := id hs
    have ho : V.Outer → (view name s).Outer := fun ho => by rwa [View.Outer,hsa]
    constructor
    · intro saved hl
      rw [view_unset_of_local h (hsa ▸ hl),withBinding_of_alike hs]
    · intro hf
      rw [view_unset_of_free h (hsa ▸ hf),withBinding_of_alike hs]
    · intro hV hke
      rw [view_unset_of_outer h (ho hV) (hk.trans hke),withBinding_of_alike hs]
    · intro hV ht
      exact (locals_unset_lt h (ho hV) (hk.trans ht)).trans_eq (congrArg (List.countP Option.isSome) hsa)
  other _ _ hj := (onlyAt_unset name _).view_other hj

def Restored (host : Host) (V : View) : Set View :=
  { v | (∀ w, V.value = some w → v = V.assign host w) ∧ (V.value = none → Unset V v) }

theorem moves_restoreValue (h : Ordinary name) :
    Parts.Moves view name (Drift sh.host V) (Restored sh.host V) fun s => restoreValue sh s (name,V.value) := by
  unfold restoreValue Restored
  cases hva : V.value with
  | some w =>
    refine (moves_set h w).mono (fun _ hv => hv) fun v hv => ⟨fun w' hw => ?_,fun hn => by cases hn⟩
    obtain rfl := Option.some.inj hw
    exact hv
  | none =>
    refine (moves_unset sh.host h).mono (fun _ hv => hv.1) fun v hv => ⟨fun w' hw => ?_,fun _ => hv⟩
    cases hw
end

/-- What is under the names of the assignments is as said, and nothing else has changed. -/
def Leaves (assignments : Assignments) (ends : String → Set View) (s t : Store) : Prop :=
  (∀ a ∈ assignments, view a.1 t ∈ ends a.1) ∧ ∀ name, (∀ a ∈ assignments, a.1 ≠ name) → view name t = view name s

section
variable {sh : Shell} {s t : Store} {name : String} {names : List String} {state : Values × Store}

theorem assignmentStorageName_of_plain (h : (view name s).Plain) : assignmentStorageName s name = name := by
  have hn : (s.vars name).nameref = none := h.nameref
  unfold assignmentStorageName resolveNameref namerefMaxDepth resolveFrom
  rw [hn]
  by_cases hna : name = "" <;> simp [hna,Option.filter]

theorem unresolved_of_plain (h : Ordinary name) (hplain : (view name s).Plain) (value : String) :
    unresolvedNamerefPrefixAssignment sh name value s = false := by
  have ha : (s.vars name).attrs.has NAMEREF = false := by
    rw [← look_attrs]
    exact hplain.attr
  unfold unresolvedNamerefPrefixAssignment
  rw [h.attrsOf,ha]
  rfl

theorem applyAssignment_of_plain (h : Ordinary name) (hplain : (view name s).Plain)
    (he : s.special.options.flags .allexport = false) (value : String) :
    applyAssignment sh name value s = set sh name value s := by
  have hf : (assignOwn sh.host name value s).special.options.flags = s.special.options.flags :=
    congrArg Prod.fst (modes_assignOwn h value s)
  obtain ⟨calls,hc⟩ := Nat.exists_eq_succ_of_ne_zero (Nat.ne_of_gt sh.calls_pos)
  rw [set_of_plain h hplain]
  unfold applyAssignment
  rw [hc,assign_of_plain h hplain]
  simp [hf,he]

/-- The names met have drifted, and the snapshot has for each of them, once, the value from
before. -/
structure Expanding (host : Host) (s : Store) (names : List String) (state : Values × Store) : Prop where
  once : (state.1.map Prod.fst).Nodup
  covers : ∀ name, name ∈ state.1.map Prod.fst ↔ name ∈ names
  values : ∀ saved ∈ state.1, saved.2 = (view saved.1 s).value
  met : ∀ name ∈ names, view name state.2 ∈ Drift host (view name s)
  unmet : ∀ name, name ∉ names → view name state.2 = view name s
  modes : state.2.special.modes = s.special.modes

theorem Expanding.drift (h : Expanding sh.host s names state)
    (hplain : (view name s).Plain) : view name state.2 ∈ Drift sh.host (view name s) := by
  by_cases hn : name ∈ names
  · exact h.met name hn
  · rw [h.unmet name hn]
    exact mem_drift_self hplain

theorem Expanding.step (h : Expanding sh.host s names state)
    (ho : Ordinary name) (hplain : (view name s).Plain) (he : s.special.options.flags .allexport = false) (value : String) :
    Expanding sh.host s (name :: names) (expandAssignment sh state (name,value)) := by
  obtain ⟨snapshot,t⟩ := state
  have hd : view name t ∈ Drift sh.host (view name s) := h.drift hplain
  have hfl : t.special.options.flags .allexport = false := by
    rw [← he]
    exact congrFun (congrArg Prod.fst h.modes) .allexport
  have hr : rememberAssignmentSnapshot sh name snapshot t =
      (if name ∈ snapshot.map Prod.fst then snapshot else snapshot ++ [(name,readBinding t name)],t) := by
    unfold rememberAssignmentSnapshot
    rw [assignmentStorageName_of_plain hd.2.1]
    dsimp only
    rw [ho.get]
    have ha : (snapshot.any fun saved => saved.1 = name) ↔ name ∈ snapshot.map Prod.fst := by
      simp
    by_cases hm : name ∈ snapshot.map Prod.fst
    · rw [if_pos hm,if_pos (ha.mpr hm)]
    · rw [if_neg hm,if_neg (mt ha.mp hm)]
  have hst : expandAssignment sh (snapshot,t) (name,value) =
      (if name ∈ snapshot.map Prod.fst then snapshot else snapshot ++ [(name,readBinding t name)],set sh name value t) := by
    unfold expandAssignment
    rw [hr]
    simp [unresolved_of_plain ho hd.2.1,applyAssignment_of_plain ho hd.2.1 hfl]
  have hmo : Parts.Moves view name (Drift sh.host (view name s)) { (view name s).assign sh.host value } (set sh name value) :=
    moves_set ho value
  have hvi : view name (set sh name value t) = (view name s).assign sh.host value := hmo.own hd
  have hot := hmo.other hd
  rw [hst]
  constructor
  · dsimp only
    split
    · exact h.once
    · rename_i hne
      simpa [nodup_append,hne] using ⟨h.once,fun n v hv hn => hne (by simpa [← hn] using ⟨v,hv⟩)⟩
  · intro n
    rw [mem_cons,← h.covers n]
    split
    · rename_i hol
      exact ⟨.inr,fun hn => hn.elim (fun hn => hn ▸ hol) id⟩
    · simp [or_comm]
  · intro saved hs
    split at hs
    · exact h.values saved hs
    · rename_i hne
      rcases mem_append.mp hs with hol | hl
      · exact h.values saved hol
      · obtain rfl := mem_singleton.mp hl
        have hf : name ∉ names := fun hn => hne ((h.covers name).mpr hn)
        exact congrArg View.value (h.unmet name hf)
  · intro n hn
    by_cases hna : n = name
    · subst hna
      rw [hvi]
      exact assign_mem_drift hplain value
    · rw [hot n hna]
      exact h.met n ((mem_cons.mp hn).resolve_left hna)
  · intro n hn
    obtain ⟨hna,hre⟩ := not_or.mp (mt mem_cons.mpr hn)
    rw [hot n hna]
    exact h.unmet n hre
  · exact (onlyAt_set ho hd.2.1 value).modes.trans h.modes

def Assignable (s : Store) (assignments : Assignments) : Prop := ∀ a ∈ assignments, Ordinary a.1 ∧ (view a.1 s).Plain

variable {assignments : Assignments}

theorem Expanding.foldl (h : Expanding sh.host s names state)
    (hnames : Assignable s assignments) (he : s.special.options.flags .allexport = false) :
    Expanding sh.host s ((assignments.map Prod.fst).reverse ++ names) (assignments.foldl (expandAssignment sh) state) := by
  induction assignments generalizing names state with
  | nil => exact h
  | cons a rest ih =>
    obtain ⟨ho,hplain⟩ := hnames a mem_cons_self
    have hr := ih (h.step ho hplain he a.2) fun b hb => hnames b (mem_cons_of_mem a hb)
    rw [map_cons,reverse_cons,append_assoc]
    exact hr

variable (sh) in
theorem expandAssignments_views (hnames : Assignable s assignments) (he : s.special.options.flags .allexport = false) :
    Leaves assignments (fun name => Restored sh.host (view name s)) s (expandAssignments sh assignments s) := by
  have hst : Expanding sh.host s [] ([],s) :=
    ⟨nodup_nil,fun _ => Iff.rfl,fun _ h => absurd h not_mem_nil,fun _ h => absurd h not_mem_nil,
      fun _ _ => rfl,rfl⟩
  have hd := hst.foldl hnames he
  rw [append_nil] at hd
  unfold expandAssignments
  generalize assignments.foldl (expandAssignment sh) ([],s) = state at hd ⊢
  obtain ⟨snapshot,t⟩ := state
  have hk : ∀ name, (∃ saved ∈ snapshot, saved.1 = name) ↔ ∃ a ∈ assignments, a.1 = name := by
    intro name
    simpa only [mem_reverse,mem_map] using hd.covers name
  have hs : ∀ saved ∈ snapshot, Ordinary saved.1 ∧ (view saved.1 s).Plain := by
    intro saved hm
    obtain ⟨a,ha,heq⟩ := (hk saved.1).mp ⟨saved,hm,rfl⟩
    rw [← heq]
    exact hnames a ha
  have hse : ∀ saved ∈ snapshot, Parts.Moves view saved.1 (Drift sh.host (view saved.1 s)) (Restored sh.host (view saved.1 s))
      fun s => restoreValue sh s saved := by
    intro saved hm
    have hv : saved = (saved.1,(view saved.1 s).value) := Prod.ext rfl (hd.values saved hm)
    rw [hv]
    exact moves_restoreValue (hs saved hm).1
  have ho : snapshot.Pairwise fun saved saved' => saved.1 = saved'.1 →
      Restored sh.host (view saved.1 s) ⊆ Drift sh.host (view saved.1 s) :=
    List.Pairwise.imp (fun hne heq => absurd heq hne) (pairwise_map.mp hd.once)
  have hf := foldl_moves (fun name => Drift sh.host (view name s)) (fun name => Restored sh.host (view name s)) Prod.fst
    hse ho fun saved hm => hd.drift (hs saved hm).2
  constructor
  · intro a ha
    obtain ⟨saved,hm,heq⟩ := (hk a.1).mpr ⟨a,ha,rfl⟩
    rw [← heq]
    exact hf.1 saved hm
  · intro name hn
    have hno : ∀ saved ∈ snapshot, saved.1 ≠ name := by
      intro saved hm heq
      obtain ⟨a,ha,hne⟩ := (hk name).mp ⟨saved,hm,heq⟩
      exact hn a ha hne
    refine (hf.2 name hno).trans (hd.unmet name fun hm => ?_)
    obtain ⟨a,ha,heq⟩ := mem_map.mp (mem_reverse.mp hm)
    exact hn a ha heq
end

section
variable {host : Host} {V v : View}

def Blank (V : View) : Prop :=
  (∃ saved, V.saved.getLast? = some (some saved) ∧
      V = V.withBinding (Binding.declared ((saved.entry.map VariableEntry.exported).getD false))) ∨
    (∀ saved ∈ V.saved, saved = none) ∧ V = V.withBinding Binding.unset

/-- A restore leaves the name as it is, whether locals stay local or not. -/
structure Fixed (host : Host) (V : View) : Prop where
  value : ∀ w, V.value = some w → V.assign host w = V
  unset : V.value = none → Blank V

theorem Unset.eq_of_blank (h : Unset V v) (hb : Blank V) : v = V := by
  rcases hb with ⟨saved,hl,hV⟩ | ⟨hf,hV⟩
  · rw [hV]
    exact h.ofLocal saved hl
  · rw [hV]
    exact h.ofFree hf

theorem Fixed.eq_of_restored (h : Fixed host V) (hv : v ∈ Restored host V) : v = V := by
  cases hva : V.value with
  | some w => rw [hv.1 w hva,h.value w hva]
  | none => exact (hv.2 hva).eq_of_blank (h.unset hva)

theorem Fixed.keepsLocal (h : Fixed host V) (keeps : Bool) : Fixed host { V with keepsLocal := keeps } where
  value w hw := congrArg (fun v : View => { v with keepsLocal := keeps }) (h.value w hw)
  unset hv := by
    rcases h.unset hv with ⟨saved,hl,hV⟩ | ⟨hf,hV⟩
    · exact .inl ⟨saved,hl,congrArg (fun v : View => { v with keepsLocal := keeps }) hV⟩
    · exact .inr ⟨hf,congrArg (fun v : View => { v with keepsLocal := keeps }) hV⟩

variable {sh : Shell} {s : Store} {assignments : Assignments}

variable (sh) in
theorem restore_fixed (W : String → View) (hnames : ∀ a ∈ assignments, Ordinary a.1 ∧ (W a.1).Plain)
    (hf : ∀ a ∈ assignments, Fixed sh.host (W a.1)) (hd : ∀ a ∈ assignments, view a.1 s ∈ Drift sh.host (W a.1)) :
    Leaves assignments (fun name => { W name }) s
      (restoreAssignmentValues sh (assignments.map fun a => (a.1,(W a.1).value)) s) := by
  have hs : ∀ a ∈ assignments, Parts.Moves view a.1 (Drift sh.host (W a.1)) { W a.1 }
      fun s => restoreValue sh s (a.1,(W a.1).value) := fun a ha =>
    (moves_restoreValue (hnames a ha).1).mono (fun _ hv => hv) fun _ hv => (hf a ha).eq_of_restored hv
  have hb : ∀ a ∈ assignments, { W a.1 } ⊆ Drift sh.host (W a.1) := by
    rintro a ha _ rfl
    exact mem_drift_self (hnames a ha).2
  unfold restoreAssignmentValues
  rw [foldl_map]
  exact foldl_moves_of_subset (fun name => Drift sh.host (W name)) (fun name => { W name }) Prod.fst hs hb hd
end

structure Same (v w : View) : Prop where
  look : v.look = w.look
  value : v.value = w.value
  saved : v.saved = w.saved
  refused : v.refused = w.refused

section
variable {host : Host} {u v w V : View}

theorem Same.refl (v : View) : Same v v := ⟨rfl,rfl,rfl,rfl⟩

theorem Same.trans (h : Same u v) (h' : Same v w) : Same u w :=
  ⟨h.look.trans h'.look,h.value.trans h'.value,h.saved.trans h'.saved,h.refused.trans h'.refused⟩

variable (h : Same v w)
include h

theorem Same.plain (hw : w.Plain) : v.Plain :=
  ⟨h.look ▸ hw.writable,h.look ▸ hw.attr,h.look ▸ hw.nameref,h.refused ▸ hw.accepted⟩

theorem Same.alike (hw : w ∈ Alike V) : v ∈ Alike { V with keepsLocal := v.keepsLocal } :=
  ⟨h.saved.trans hw.1,h.refused.trans hw.2.1,rfl⟩

theorem Same.drift (hw : w ∈ Drift host V) : v ∈ Drift host { V with keepsLocal := v.keepsLocal } :=
  ⟨h.alike hw.1,h.plain hw.2.1,fun text => h.look ▸ hw.2.2 text⟩

theorem Same.exportDrift (hw : w ∈ ExportDrift host V) : v ∈ ExportDrift host { V with keepsLocal := v.keepsLocal } :=
  ⟨h.alike hw.1,h.plain hw.2.1,fun text on => h.look ▸ hw.2.2 text on⟩
end

section
variable {sh : Shell} {s : Store} {assignments : Assignments}

variable (hnames : Assignable s assignments)
include hnames

theorem snapshotAssignments_eq :
    snapshotAssignments sh assignments s = (assignments.map fun a => (a.1,(view a.1 s).value),s) := by
  induction assignments with
  | nil => rfl
  | cons a rest ih =>
    obtain ⟨ho,hplain⟩ := hnames a mem_cons_self
    unfold snapshotAssignments
    rw [assignmentStorageName_of_plain hplain]
    dsimp only
    rw [ho.get]
    rw [ih fun b hb => hnames b (mem_cons_of_mem a hb)]
    rfl

theorem applyBuiltinAssignments_views :
    Leaves assignments (fun name => Drift sh.host (view name s)) s (applyBuiltinAssignments sh false assignments s) := by
  have hs : ∀ a ∈ assignments, Parts.Moves view a.1 (Drift sh.host (view a.1 s)) (Drift sh.host (view a.1 s))
      fun s => set sh a.1 a.2 s := by
    intro a ha
    obtain ⟨ho,hplain⟩ := hnames a ha
    refine (moves_set ho a.2).mono (fun _ hv => hv) ?_
    rintro _ rfl
    exact assign_mem_drift hplain a.2
  exact foldl_moves_of_subset (fun name => Drift sh.host (view name s)) (fun name => Drift sh.host (view name s)) Prod.fst
    hs (fun _ _ _ hv => hv) fun a ha => mem_drift_self (hnames a ha).2

omit hnames in
def prepared (sh : Shell) (opened : Bool) (assignments : Assignments) (s : Store) : Store :=
  if opened then applyBuiltinAssignments sh false assignments s else s

variable (sh) in
theorem prepared_views (opened : Bool) :
    Leaves assignments (fun name => Drift sh.host (view name s)) s (prepared sh opened assignments s) := by
  cases opened with
  | false => exact ⟨fun a ha => mem_drift_self (hnames a ha).2,fun _ _ => rfl⟩
  | true => exact applyBuiltinAssignments_views hnames

omit hnames in
def ran (b : Builtin) (opened : Bool) (s : Store) : Store := if opened then b.run s else s

theorem runBuiltin_eq {b : Builtin} {opened : Bool} (hp : (b.special && posix sh s && !b.invokedViaCommand) = false) :
    runBuiltin sh b opened assignments s =
      restoreAssignmentValues sh (assignments.map fun a => (a.1,(view a.1 s).value))
        (ran b opened (prepared sh opened assignments s)) := by
  unfold runBuiltin ran prepared
  rw [hp]
  simp only [Bool.false_eq_true,if_false]
  rw [snapshotAssignments_eq hnames]
  cases opened <;> rfl

theorem runBuiltin_same {b : Builtin} {opened : Bool} {touched : Set String}
    (hf : ∀ a ∈ assignments, Fixed sh.host (view a.1 s))
    (hpo : (b.special && posix sh s && !b.invokedViaCommand) = false) (hfr : ∀ a ∈ assignments, a.1 ∉ touched)
    (hs : ∀ name, name ∉ touched →
      Same (view name (ran b opened (prepared sh opened assignments s))) (view name (prepared sh opened assignments s)))
    {name : String} (hn : name ∉ touched) :
    Same (view name (runBuiltin sh b opened assignments s)) (view name s) := by
  have hp := prepared_views sh hnames opened
  rw [runBuiltin_eq hnames hpo]
  generalize ran b opened (prepared sh opened assignments s) = t at hs ⊢
  let keeps := t.special.shoptOption "localvar_unset"
  have hr := restore_fixed (s := t) sh (fun name => { view name s with keepsLocal := keeps })
    (fun a ha => ⟨(hnames a ha).1,(hnames a ha).2.1,(hnames a ha).2.2,(hnames a ha).2.3,(hnames a ha).2.4⟩)
    (fun a ha => (hf a ha).keepsLocal keeps) fun a ha => (hs a.1 (hfr a ha)).drift (hp.1 a ha)
  by_cases hai : ∃ a ∈ assignments, a.1 = name
  · obtain ⟨a,ha,rfl⟩ := hai
    have hv := hr.1 a ha
    rw [hv]
    exact ⟨rfl,rfl,rfl,rfl⟩
  · have ho : ∀ a ∈ assignments, a.1 ≠ name := fun a ha heq => hai ⟨a,ha,heq⟩
    have hv := hr.2 name ho
    rw [hv,← hp.2 name ho]
    exact hs name hn
end

section
variable {sh : Shell} {s : Store} {name : String} {V : View} {assignments : Assignments} {v : View}

theorem snapshotPrefix_eq (hnames : Assignable s assignments) :
    snapshotPrefix sh assignments s =
      (assignments.map fun a => ⟨a.1,(view a.1 s).value,(view a.1 s).look.exported,(view a.1 s).look.attrs⟩,s) := by
  induction assignments with
  | nil => rfl
  | cons a rest ih =>
    obtain ⟨ho,hplain⟩ := hnames a mem_cons_self
    unfold snapshotPrefix
    rw [assignmentStorageName_of_plain hplain]
    dsimp only
    rw [ho.get]
    rw [ih fun b hb => hnames b (mem_cons_of_mem a hb),ho.attrsOf,← look_attrs,← look_exported]
    rfl

variable (h : Ordinary name)
include h

variable (hplain : (view name s).Plain)
include hplain

theorem view_export_of_value (hv : (view name s).value = (view name s).look.value) (hs : (view name s).value.isSome) :
    view name («export» sh.host name s) = (view name s).setAttr EXPORT true := by
  rw [view_export h hplain.attr]
  unfold View.export View.setAttr
  rw [Look.value_setAttr,← hv]
  rw [hv] at hs
  rw [hv,Look.export_eq_setAttr hs]

theorem view_set_export (w : String) :
    view name («export» sh.host name (set sh name w s)) = ((view name s).assign sh.host w).setAttr EXPORT true := by
  have hv : view name (set sh name w s) = (view name s).assign sh.host w := view_set h hplain w
  have ha : (view name (set sh name w s)).Plain := by
    rw [hv]
    exact plain_assign hplain w
  rw [view_export_of_value h ha,hv]
  · rw [hv]
    exact (Look.value_assign _ w).symm
  · rw [hv]
    rfl

theorem onlyAt_set_export (w : String) :
    OnlyAt name s («export» sh.host name (set sh name w s)) := (onlyAt_set h hplain w).trans (onlyAt_export h _)

omit hplain

omit h in
theorem plain_set_export (hplain : v.Plain) (host : Host) (w : String) :
    ((v.assign host w).setAttr EXPORT true).Plain := plain_setAttr_EXPORT (plain_assign hplain w) true

theorem moves_set_export (w : String) :
    Parts.Moves view name (ExportDrift sh.host V) (ExportDrift sh.host V) fun s => «export» sh.host name (set sh name w s) where
  own {s} hs := by
    obtain ⟨ha,hplain,hd⟩ := hs
    rw [view_set_export h hplain]
    refine ⟨ha,plain_set_export hplain sh.host w,fun w' on => ?_⟩
    change ((((view name s).look.assign sh.host w).setAttr EXPORT true).assign sh.host w').setAttr EXPORT on = _
    rw [Look.assign_setAttr_EXPORT (Look.readonly_assign hplain.writable.1 w),Look.setAttr_setAttr_EXPORT,
      Look.assign_assign hplain.writable.1,hd]
  other hs _ hj := (onlyAt_set_export h hs.2.1 w).view_other hj

omit h

variable (hnames : Assignable s assignments)
include hnames

theorem scopes_applyAssignments : (applyAssignments sh assignments s).scopes = s.scopes := by
  induction assignments generalizing s with
  | nil => rfl
  | cons a rest ih =>
    obtain ⟨ho,hplain⟩ := hnames a mem_cons_self
    have hr : Assignable («export» sh.host a.1 (set sh a.1 a.2 s)) rest := by
      intro b hb
      obtain ⟨hob,hp⟩ := hnames b (mem_cons_of_mem a hb)
      refine ⟨hob,?_⟩
      by_cases hab : b.1 = a.1
      · rw [hab,view_set_export ho hplain]
        exact plain_set_export hplain sh.host a.2
      · rw [(onlyAt_set_export ho hplain a.2).view_other hab]
        exact hp
    have hs : («export» sh.host a.1 (set sh a.1 a.2 s)).scopes = s.scopes := by
      rw [set_of_plain ho hplain]
      unfold «export»
      rw [ho.get]
      exact (steady_assignOwn sh.host a.1 a.2).scopes s
    exact (ih hr).trans hs

theorem assignable_pushLocalScope : Assignable (pushLocalScope s) assignments := by
  intro a ha
  obtain ⟨ho,hplain⟩ := hnames a ha
  rw [view_pushLocalScope]
  exact ⟨ho,hplain.1,hplain.2,hplain.3,hplain.4⟩

variable (sh) in
theorem entered_views (opened : Bool) :
    Leaves assignments (fun name => ExportDrift sh.host (view name s)) s (popLocalScope sh.host (entered sh opened assignments s)) := by
  have hp := assignable_pushLocalScope hnames
  have hs : (entered sh opened assignments s).scopes = s.scopes ++ [⟨fun _ => none,none⟩] := by
    cases opened with
    | false => rfl
    | true => exact scopes_applyAssignments hp
  have hvi : Leaves assignments (fun name => ExportDrift sh.host (view name (pushLocalScope s))) (pushLocalScope s)
      (entered sh opened assignments s) := by
    cases opened with
    | false => exact ⟨fun a ha => drift_subset_exportDrift (mem_drift_self (hp a ha).2),fun _ _ => rfl⟩
    | true =>
      exact foldl_moves_of_subset (fun name => ExportDrift sh.host (view name (pushLocalScope s)))
        (fun name => ExportDrift sh.host (view name (pushLocalScope s))) Prod.fst
        (fun a ha => moves_set_export (hp a ha).1 a.2) (fun _ _ _ hv => hv)
        fun a ha => drift_subset_exportDrift (mem_drift_self (hp a ha).2)
  constructor
  · intro a ha
    obtain ⟨hal,hplain,hd⟩ := hvi.1 a ha
    rw [view_pushLocalScope] at hal hd
    rw [view_popLocalScope hs]
    exact ⟨⟨rfl,hal.2.1,hal.2.2⟩,⟨hplain.1,hplain.2,hplain.3,hplain.4⟩,hd⟩
  · intro name hn
    have hve := hvi.2 name hn
    rw [view_pushLocalScope] at hve
    rw [view_popLocalScope hs,hve]
    rfl

omit hnames

def PrefixRestored (host : Host) (V : View) : Set View :=
  { v | (∀ w, V.value = some w → v = (V.assign host w).setAttr EXPORT V.look.exported) ∧ (V.value = none → Unset V v) }

theorem plain_setAttr_READONLY (h : v.Plain) : (v.setAttr READONLY false).Plain where
  writable := by
    have hs : READONLY.has READONLY := by decide
    refine ⟨rfl,?_⟩
    change (v.look.setAttr READONLY false).attrs.has READONLY = false
    rw [Look.attrs_setAttr,if_neg Bool.false_ne_true,has_without bit_READONLY,hs]
    simp
  attr := by
    change (v.look.setAttr READONLY false).attrs.has NAMEREF = false
    rw [Look.attrs_setAttr,if_neg Bool.false_ne_true,has_without bit_NAMEREF,h.attr]
    rfl
  nameref := h.nameref
  accepted := h.accepted

theorem view_setAttr_READONLY (h : (view name s).Plain) :
    view name (setAttr sh.host name READONLY false s) = (view name s).setAttr READONLY false :=
  view_setAttr false (look_setAttr (.inr rfl) false) (plain_setAttr_READONLY h).attr

theorem plain_writable (h : (view name s).Plain) : (view name (setAttr sh.host name READONLY false s)).Plain := by
  rw [view_setAttr_READONLY h]
  exact plain_setAttr_READONLY h

theorem assign_setAttr_READONLY (h : v.Plain) (host : Host) (w : String) :
    (v.setAttr READONLY false).assign host w = v.assign host w := by
  have hl : (v.look.setAttr READONLY false).assign host w = v.look.assign host w := Look.assign_setAttr_READONLY h.writable w
  exact congrArg₂ (fun look value => { v with look := look, value := some value }) hl (stored_of_assign hl)

include h

theorem view_set_writable (hplain : (view name s).Plain) (w : String) :
    view name (setAttr sh.host name READONLY false (set sh name w (setAttr sh.host name READONLY false s))) =
      (view name s).assign sh.host w := by
  have hs : view name (set sh name w (setAttr sh.host name READONLY false s)) = (view name s).assign sh.host w := by
    rw [view_set h (plain_writable hplain),view_setAttr_READONLY hplain]
    exact assign_setAttr_READONLY hplain sh.host w
  have ha : ((view name s).assign sh.host w).Plain := plain_assign hplain w
  have hen : ((view name s).look.assign sh.host w).entry.isSome := by
    have hv : ((view name s).look.assign sh.host w).value = some _ := Look.value_assign _ w
    obtain ⟨e,he,-⟩ := Option.bind_eq_some_iff.mp hv
    rw [he]
    rfl
  rw [view_setAttr_READONLY (hs ▸ ha),hs]
  have hl := Look.setAttr_READONLY_of_writable ha.writable hen
  unfold View.setAttr
  rw [hl]
  exact congrArg (fun value => { (view name s).assign sh.host w with value := value }) (Look.value_assign _ w)

theorem onlyAt_set_writable (hplain : (view name s).Plain) (w : String) :
    OnlyAt name s (setAttr sh.host name READONLY false (set sh name w (setAttr sh.host name READONLY false s))) :=
  (onlyAt_setAttr READONLY false s).trans ((onlyAt_set h (plain_writable hplain) w).trans (onlyAt_setAttr READONLY false _))

omit h in
theorem view_setAttr_EXPORT (h : (view name s).Plain) (on : Bool) :
    view name (setAttr sh.host name EXPORT on s) = (view name s).setAttr EXPORT on :=
  view_setAttr on (look_setAttr (.inl rfl) on) (plain_setAttr_EXPORT h on).attr

theorem view_exportAgain (hvi : view name s = v) (hplain : v.Plain)
    (hv : v.value = v.look.value) (hs : v.value.isSome) ( exported : Bool) :
    view name (if exported then «export» sh.host name s else (setAttr sh.host name EXPORT false s).setEnv name none) =
      v.setAttr EXPORT exported := by
  subst hvi
  cases exported with
  | true => exact view_export_of_value h hplain hv hs
  | false =>
    have ho : view name (setAttr sh.host name EXPORT false s) = (view name s).setAttr EXPORT false :=
      view_setAttr_EXPORT hplain false
    have hplain' := plain_setAttr_EXPORT hplain false
    rw [if_neg Bool.false_ne_true,view_setEnv (ho ▸ hplain'.attr) (ho ▸ rfl),ho]

omit h in
theorem setAttr_EXPORT_of_exportDrift {host : Host} (h : v ∈ ExportDrift host V) (w : String) (on : Bool) :
    (v.assign host w).setAttr EXPORT on = (V.assign host w).setAttr EXPORT on := by
  obtain ⟨⟨hs,hr,hk⟩,-,hd⟩ := h
  unfold View.setAttr View.assign
  simp only [hd w on,hs,hr,hk]

theorem moves_restorePrefix (hV : V.Plain) :
    Parts.Moves view name (ExportDrift sh.host V) (PrefixRestored sh.host V)
      fun s => restorePrefix sh s ⟨name,V.value,V.look.exported,V.look.attrs⟩ := by
  unfold restorePrefix PrefixRestored
  cases hva : V.value with
  | some w =>
    simp only [hV.writable.2]
    constructor
    · intro s hs
      refine ⟨fun w' hw => ?_,fun hn => by cases hn⟩
      obtain rfl := Option.some.inj hw
      rw [view_exportAgain h (view_set_writable h hs.2.1 w) (plain_assign hs.2.1 w) (Look.value_assign _ w).symm rfl,
        setAttr_EXPORT_of_exportDrift hs]
    · intro s hs other ho
      have hon : OnlyAt name s (setAttr sh.host name READONLY false (set sh name w (setAttr sh.host name READONLY false s))) :=
        onlyAt_set_writable h hs.2.1 w
      exact (hon.trans (.ite (onlyAt_export h _) ((onlyAt_setAttr EXPORT false _).trans (.setEnv ..)))).view_other ho
  | none =>
    have hf : Parts.Moves view name (ExportDrift sh.host V) (Alike V) (setAttr sh.host name READONLY false) :=
      ⟨fun hs => by rw [view_setAttr_READONLY hs.2.1]; exact hs.1,fun _ _ hj => (onlyAt_setAttr READONLY false _).view_other hj⟩
    refine (hf.comp (moves_unset sh.host h)).mono (fun _ hv => hv) fun v hv => ⟨fun w hw => ?_,fun _ => hv⟩
    cases hw

omit h

theorem prefixRestored_subset {host : Host} (hV : V.Plain) (hf : Fixed host V) :
    PrefixRestored host V ⊆ ExportDrift host V := by
  intro v hv
  cases hva : V.value with
  | some w =>
    rw [hv.1 w hva,hf.value w hva]
    refine ⟨⟨rfl,rfl,rfl⟩,plain_setAttr_EXPORT hV _,fun w' on => ?_⟩
    change ((V.look.setAttr EXPORT V.look.exported).assign host w').setAttr EXPORT on = _
    rw [Look.assign_setAttr_EXPORT hV.writable.1,Look.setAttr_setAttr_EXPORT]
  | none =>
    rw [(hv.2 hva).eq_of_blank (hf.unset hva)]
    exact drift_subset_exportDrift (mem_drift_self hV)

variable (sh) in
theorem callFunction_views (f : Function) (opened : Bool) (touched : Set String) (hnames : Assignable s assignments)
    (hfi : ∀ a ∈ assignments, Fixed sh.host (view a.1 s)) (hf : ∀ a ∈ assignments, a.1 ∉ touched)
    (hs : ∀ name, name ∉ touched → Same (view name (left sh f opened (entered sh opened assignments s)))
      (view name (popLocalScope sh.host (entered sh opened assignments s))))
    (hpe : ∀ name, f.persisted (entered sh opened assignments s) name → name ∈ touched) :
    ∃ keeps, (∀ a ∈ assignments, view a.1 (callFunction sh f opened assignments s) ∈
        PrefixRestored sh.host { view a.1 s with keepsLocal := keeps }) ∧
      ∀ name, name ∉ touched → (∀ a ∈ assignments, a.1 ≠ name) →
        Same (view name (callFunction sh f opened assignments s)) (view name s) := by
  have he := entered_views sh hnames opened
  have hal : ∀ a ∈ assignments, (if opened then f.persisted (entered sh opened assignments s) else fun _ => false) a.1 = false := by
    intro a ha
    cases opened with
    | false => rfl
    | true => exact Bool.eq_false_iff.mpr fun hp => hf a ha (hpe a.1 hp)
  have hc : callFunction sh f opened assignments s =
      (assignments.map fun a => PrefixAssignmentSnapshot.mk a.1 (view a.1 s).value (view a.1 s).look.exported
        (view a.1 s).look.attrs).foldl (restorePrefix sh) (left sh f opened (entered sh opened assignments s)) := by
    unfold callFunction
    rw [snapshotPrefix_eq hnames]
    dsimp only
    rw [filter_eq_self.mpr]
    intro snapshot hm
    obtain ⟨a,ha,rfl⟩ := mem_map.mp hm
    rw [hal a ha]
    rfl
  rw [hc,foldl_map]
  generalize left sh f opened (entered sh opened assignments s) = t at hs ⊢
  let W : String → View := fun name => { view name s with keepsLocal := t.special.shoptOption "localvar_unset" }
  have hplain : ∀ a ∈ assignments, (W a.1).Plain := fun a ha =>
    ⟨(hnames a ha).2.1,(hnames a ha).2.2,(hnames a ha).2.3,(hnames a ha).2.4⟩
  have hb : ∀ a ∈ assignments, PrefixRestored sh.host (W a.1) ⊆ ExportDrift sh.host (W a.1) := fun a ha =>
    prefixRestored_subset (hplain a ha) ((hfi a ha).keepsLocal _)
  have hst : ∀ a ∈ assignments, Parts.Moves view a.1 (ExportDrift sh.host (W a.1)) (PrefixRestored sh.host (W a.1)) fun u =>
      restorePrefix sh u ⟨a.1,(view a.1 s).value,(view a.1 s).look.exported,(view a.1 s).look.attrs⟩ :=
    fun a ha => moves_restorePrefix (hnames a ha).1 (hplain a ha)
  obtain ⟨hai,ho⟩ := foldl_moves_of_subset (fun name => ExportDrift sh.host (W name))
    (fun name => PrefixRestored sh.host (W name)) Prod.fst hst hb
    fun a ha => (hs a.1 (hf a ha)).exportDrift (he.1 a ha)
  refine ⟨t.special.shoptOption "localvar_unset",hai,fun name hna hn => ?_⟩
  have hv := ho name hn
  have hsa := hs name hna
  rw [he.2 name hn,← hv] at hsa
  exact hsa
end
end Cherubsh.Exec.TemporaryAssignments
