import Mathlib.Data.List.InsertIdx
import Mathlib.Data.List.Nodup
import Cherubsh.Common.HistoryLedger

/-! # The marker of the history table against the ledger

The invariant cuts the ledger in two at the marker: settled records in front of it, fresh ones
behind. Written records are settled and never fresh again, so the identities written over a run
are distinct.
-/
namespace Cherubsh.Common
open GuardedRun Record Ledger HistoryTable List
variable {r : Record} {entries : List HistoryEntry} {nextId : ℕ}

def Cut (mark : ℕ) (records : List Record) : Prop :=
  ∃ old new, records = old ++ new ∧ old.length = mark ∧
    (∀ r ∈ old, r.fresh = false) ∧ ∀ r ∈ new, r.fresh

namespace Cut
variable {mark : ℕ} {records : List Record}

variable (h : Cut mark records)
include h

theorem push (hr : r.fresh) : Cut mark (records ++ [r]) := by
  obtain ⟨old,new,rfl,hl,ho,hn⟩ := h
  refine ⟨old,new ++ [r],append_assoc ..,hl,ho,?_⟩
  intro x hx
  rcases mem_append.mp hx with hx | hx
  · exact hn x hx
  · exact (mem_singleton.mp hx) ▸ hr

theorem drop (k : ℕ) : Cut (mark - k) (records.drop k) := by
  obtain ⟨old,new,rfl,hl,ho,hn⟩ := h
  refine ⟨old.drop k,new.drop (k - old.length),drop_append,by simp [hl],?_,?_⟩
  · intro r hr
    exact ho r (mem_of_mem_drop hr)
  · intro r hr
    exact hn r (mem_of_mem_drop hr)

theorem dropLast : Cut (Nat.min mark records.dropLast.length) records.dropLast := by
  obtain ⟨old,new,rfl,hl,ho,hn⟩ := h
  cases new using List.reverseRecOn with
  | nil =>
    refine ⟨old.dropLast,[],by simp,?_,?_,by simp⟩
    · simp only [append_nil,length_dropLast,Nat.min_def]
      split <;> omega
    · intro r hr
      exact ho r (dropLast_subset _ hr)
  | append_singleton new last _ =>
    refine ⟨old,new,by simp [← append_assoc],?_,ho,?_⟩
    · simp only [← append_assoc,dropLast_concat,length_append,Nat.min_def]
      split <;> omega
    · intro r hr
      exact hn r (mem_append_left _ hr)

theorem filter {p : Record → Bool} (hp : ∀ r ∈ records.take mark, p r) :
    Cut mark (records.filter p) := by
  obtain ⟨old,new,rfl,rfl,ho,hn⟩ := h
  rw [take_left] at hp
  refine ⟨old,new.filter p,?_,rfl,ho,?_⟩
  · rw [filter_append,filter_eq_self.mpr hp]
  · intro r hr
    exact hn r (mem_filter.mp hr).1

theorem eraseIdx {i : ℕ} (hi : mark ≤ i) : Cut mark (records.eraseIdx i) := by
  obtain ⟨old,new,rfl,rfl,ho,hn⟩ := h
  refine ⟨old,new.eraseIdx (i - old.length),eraseIdx_append_of_length_le hi _,rfl,ho,?_⟩
  intro r hr
  exact hn r (mem_of_mem_eraseIdx hr)

theorem splice {s e : ℕ} (hs : mark ≤ s) (he : s ≤ e) :
    Cut mark (records.take s ++ records.drop e) := by
  obtain ⟨old,new,rfl,rfl,ho,hn⟩ := h
  refine ⟨old,new.take (s - old.length) ++ new.drop (e - old.length),?_,rfl,ho,?_⟩
  · rw [take_append,drop_append,take_of_length_le hs,drop_of_length_le (hs.trans he)]
    simp
  · intro r hr
    rcases mem_append.mp hr with hr | hr
    · exact hn r (mem_of_mem_take hr)
    · exact hn r (mem_of_mem_drop hr)

omit h in
theorem settled (records : List Record) :
    Cut records.length (records.map fun r => { r with fresh := false }) := by
  refine ⟨_,[],(append_nil _).symm,by simp,?_,by simp⟩
  intro r hr
  obtain ⟨x,-,rfl⟩ := mem_map.mp hr
  rfl

theorem congr {rs : List Record} (hm : rs.map fresh = records.map fresh) : Cut mark rs := by
  obtain ⟨old,new,rfl,rfl,hol,hne⟩ := h
  rw [map_append,map_eq_append_iff] at hm
  obtain ⟨old',new',rfl,ho,hn⟩ := hm
  refine ⟨old',new',rfl,by simpa using congrArg List.length ho,?_,?_⟩
  · simpa using (congrArg (∀ b ∈ ·,b = false) ho).mpr (by simpa using hol)
  · simpa using (congrArg (∀ b ∈ ·,b = true) hn).mpr (by simpa using hne)

theorem le_length : mark ≤ records.length := by
  obtain ⟨old,new,rfl,rfl,-,-⟩ := h
  simp

theorem filter_fresh : records.filter fresh = records.drop mark := by
  obtain ⟨old,new,rfl,rfl,ho,hn⟩ := h
  rw [filter_append,drop_left,filter_eq_nil_iff.mpr (by simpa using ho),
    filter_eq_self.mpr hn,nil_append]
end Cut

/-- The table shows the ledger's entries and its marker cuts the ledger. -/
structure Follows (t : HistoryTable) (l : Ledger) : Prop where
  entries : t.entries = l.entries
  max : t.max = l.max
  base : t.base = l.base
  cut : Cut t.newSinceSave l.records

namespace Follows
variable {t : HistoryTable} {l : Ledger}

variable (h : Follows t l)
include h

theorem length_eq : t.entries.length = l.records.length := by
  rw [h.entries,Ledger.entries,length_map]

theorem trim : Follows t.trim l.trim := by
  have hk : t.entries.length - t.max = l.records.length - l.max := by rw [h.length_eq,h.max]
  rw [HistoryTable.trim,HistoryTable.trimFrom_eq]
  refine ⟨?_,h.max,?_,?_⟩
  · simp only [hk,Ledger.entries,Ledger.trim,map_drop]
    rw [h.entries,Ledger.entries]
  · simp only [hk,h.base,Ledger.trim]
  · simp only [hk]
    exact h.cut.drop _

theorem push (entry : HistoryEntry) :
    Follows (HistoryTable.trim { t with entries := t.entries ++ [entry] }) (l.push entry) := by
  have hp : Follows { t with entries := t.entries ++ [entry] }
      { l with records := l.records ++ [⟨l.nextId,entry,true⟩], nextId := l.nextId + 1 } :=
    ⟨by simp [h.entries,Ledger.entries],h.max,h.base,h.cut.push rfl⟩
  exact hp.trim

theorem addRefused_eq (line : Text) (control : HistControl) :
    l.table.addRefused line control = t.addRefused line control := by
  rw [addRefused,addRefused,h.entries]
  rfl

theorem rangePositions_eq (start stop : ℕ) :
    l.table.rangePositions start stop = t.rangePositions start stop := by
  rw [rangePositions,rangePositions,h.entries,h.base]
  rfl
end Follows

/-- Erasing duplicates takes nothing out in front of the marker. -/
def SafeAdd (t : HistoryTable) (line : Text) (control : HistControl) : Prop :=
  control.erasedups → t.addRefused line control = false →
    ∀ e ∈ t.entries.take t.newSinceSave, e.line ≠ line

instance (t : HistoryTable) (line : Text) (control : HistControl) : Decidable (SafeAdd t line control) :=
  inferInstanceAs (Decidable (_ → _))

/-- Deletions start behind the marker, a failed load has read nothing, and no write fails after a
line of its append. -/
def SafeHistory (t : HistoryTable) : HistoryOp → Prop
  | .add line control _ => SafeAdd t line control
  | .replaceLast line control _ => SafeAdd t.popLast line control
  | .removeAt idx => (t.removeAt idx).1 → t.newSinceSave ≤ idx - t.base - 1
  | .removeRange start stop => ∀ p ∈ t.rangePositions start stop, p.1 < p.2 → t.newSinceSave ≤ p.1
  | .loadFrom file => (t.loadFrom file).1 = false → (t.loadFrom file).2.entries.length = t.entries.length
  | .appendTo _ (.writeError written) => t.newCount = 0 ∨ written = 0
  | _ => True

theorem map_entry_relabel (nextId : ℕ) (records : List Record) (entries : List HistoryEntry) :
    (relabel nextId records entries).map entry = entries := by
  induction records generalizing entries with
  | nil => simp [relabel,mapIdx_eq_zipIdx_map,Function.comp_def]
  | cons r rs ih =>
    cases entries with
    | nil => rfl
    | cons e es => simp [relabel,ih]

theorem map_fresh_relabel (nextId : ℕ) {records : List Record}
    (hl : entries.length = records.length) : (relabel nextId records entries).map fresh = records.map fresh := by
  induction records generalizing entries with
  | nil => simp [length_eq_zero_iff.mp hl,relabel]
  | cons r rs ih =>
    cases entries with
    | nil => simp at hl
    | cons e es => simp [relabel,ih (by simpa using hl)]

namespace Follows
variable {t : HistoryTable} {l : Ledger}

variable (h : Follows t l)
include h

theorem add {line : Text} {control : HistControl} (now : Option ℕ)
    (hs : SafeAdd t line control) : Follows (t.add line control now).2 (l.add line control now) := by
  unfold HistoryTable.add Ledger.add
  rw [h.addRefused_eq]
  by_cases hr : t.addRefused line control
  · simpa only [if_pos hr] using h
  · simp only [if_neg hr]
    have hk : Follows
        { t with entries := if control.erasedups then t.entries.filter (fun e => e.line ≠ line) else t.entries }
        { l with records := if control.erasedups then l.records.filter (fun r => r.entry.line ≠ line)
                            else l.records } := by
      by_cases he : control.erasedups
      · simp only [if_pos he]
        refine ⟨?_,h.max,h.base,h.cut.filter ?_⟩
        · simp only [h.entries,Ledger.entries,filter_map]
          rfl
        · intro r hre
          have hm : r.entry ∈ t.entries.take t.newSinceSave := by
            rw [h.entries,Ledger.entries,← map_take]
            exact mem_map_of_mem hre
          simpa using hs he (by simpa using hr) _ hm
      · simpa only [if_neg he] using h
    exact hk.push _

theorem popLast : Follows t.popLast { l with records := l.records.dropLast } := by
  have hm : ({ l with records := l.records.dropLast } : Ledger).entries = t.entries.dropLast := by
    rw [h.entries,Ledger.entries,Ledger.entries,map_dropLast]
  have hc := h.cut.dropLast
  have hl : l.records.dropLast.length = t.entries.dropLast.length := by
    rw [length_dropLast,length_dropLast,h.length_eq]
  rw [hl] at hc
  unfold HistoryTable.popLast
  split
  · rename_i he
    have hr : l.records = [] := by
      rw [← length_eq_zero_iff,← h.length_eq,he]
      rfl
    refine ⟨by rw [hm,he]; rfl,h.max,h.base,?_⟩
    simpa [hr] using h.cut
  · exact ⟨hm.symm,h.max,h.base,hc⟩

theorem removeAt {idx : ℕ} (hs : (t.removeAt idx).1 → t.newSinceSave ≤ idx - t.base - 1) :
    Follows (t.removeAt idx).2 (l.removeAt idx) := by
  unfold HistoryTable.removeAt Ledger.removeAt at *
  rw [← h.base]
  by_cases h0 : idx = 0 ∨ idx ≤ t.base
  · simpa only [if_pos h0] using h
  · simp only [if_neg h0] at hs ⊢
    by_cases hl : t.entries.length ≤ idx - t.base - 1
    · simp only [if_pos hl]
      have ho : l.records.length ≤ idx - t.base - 1 := by rwa [← h.length_eq]
      rw [eraseIdx_of_length_le ho]
      exact ⟨h.entries,h.max,rfl,h.cut⟩
    · simp only [if_neg hl,forall_const] at hs ⊢
      refine ⟨?_,h.max,rfl,h.cut.eraseIdx hs⟩
      rw [h.entries,Ledger.entries,Ledger.entries,eraseIdx_map]

theorem removeRange {start stop : ℕ} (hs : ∀ p ∈ t.rangePositions start stop, p.1 < p.2 → t.newSinceSave ≤ p.1) :
    Follows (t.removeRange start stop) (l.removeRange start stop) := by
  unfold HistoryTable.removeRange Ledger.removeRange
  rw [h.rangePositions_eq]
  cases hp : t.rangePositions start stop with
  | none => exact h
  | some p =>
    by_cases hlt : p.1 < p.2
    · simp only [if_pos hlt]
      refine ⟨?_,h.max,h.base,h.cut.splice (hs p hp hlt) hlt.le⟩
      simp [h.entries,Ledger.entries]
    · simpa only [if_neg hlt] using h

theorem markSaved : Follows t.markSaved l.settle := by
  refine ⟨?_,h.max,h.base,?_⟩
  · rw [HistoryTable.markSaved,h.entries]
    simp [Ledger.entries,Ledger.settle,Function.comp_def]
  · rw [HistoryTable.markSaved,h.length_eq]
    exact Cut.settled l.records

theorem extend (entries : List HistoryEntry) :
    Follows (HistoryTable.trim { t with entries := entries }).markSaved (l.extend entries).trim.settle := by
  have hr : (l.extend entries).records.map Record.entry = entries := map_entry_relabel _ _ _
  have hl : (l.extend entries).records.length = entries.length := by
    conv_rhs => rw [← hr]
    rw [length_map]
  have hm : (l.extend entries).max = t.max := h.max.symm
  rw [HistoryTable.trim,HistoryTable.trimFrom_eq,HistoryTable.markSaved]
  refine ⟨?_,h.max,?_,?_⟩
  · simp only [Ledger.entries,Ledger.settle,Ledger.trim,map_map,hl,hm]
    rw [map_drop]
    exact congrArg (List.drop _) hr.symm
  · rw [h.base,Ledger.settle,Ledger.trim,hl,hm]
    rfl
  · have hc := Cut.settled (l.extend entries).trim.records
    simpa [Ledger.trim,Ledger.settle,hl,hm] using hc

theorem loadFrom {file : HistoryFile}
    (hs : (t.loadFrom file).1 = false → (t.loadFrom file).2.entries.length = t.entries.length) :
    Follows (t.loadFrom file).2 (l.loadFrom file) := by
  cases file with
  | notFound | openError => exact h
  | lines reads =>
    unfold HistoryTable.loadFrom Ledger.loadFrom at *
    rw [← h.entries]
    rcases hr : loadLines ⟨t.entries,none,[],none⟩ reads with ⟨ok,s⟩
    simp only [hr] at hs ⊢
    cases ok with
    | false =>
      refine ⟨(map_entry_relabel _ _ _).symm,h.max,h.base,h.cut.congr (map_fresh_relabel _ ?_)⟩
      rw [← h.length_eq]
      exact hs rfl
    | true => exact h.extend _

theorem newEntries_eq : t.newEntries = l.freshRecords.map entry := by
  have hle : t.newSinceSave ≤ t.entries.length := by
    rw [h.length_eq]
    exact h.cut.le_length
  have hs : t.entries.length - t.newCount = t.newSinceSave := by
    rw [newCount]
    omega
  rw [newEntries,hs,h.entries,freshRecords,h.cut.filter_fresh,map_drop]
  rfl

theorem appendTo {withTimestamps : Bool} {outcome : AppendOutcome} (hs : SafeHistory t (.appendTo withTimestamps outcome)) :
    (t.appendTo withTimestamps outcome).1 = owed (withTimestamps,(l.appendTo outcome).1) ∧
      Follows (t.appendTo withTimestamps outcome).2 (l.appendTo outcome).2 := by
  have ho : t.newEntries.flatMap (entryLines withTimestamps) =
      owed (withTimestamps,l.freshRecords) := by
    rw [h.newEntries_eq,owed,flatMap_map]
  unfold HistoryTable.appendTo Ledger.appendTo
  by_cases hn : t.newCount = 0
  · -- nothing is fresh, and the marker stands at the end already
    have hno : t.newEntries = [] := by simp [newEntries,hn]
    have hle := h.cut.le_length
    have hm : t.markSaved = t := by
      rw [newCount] at hn
      rw [← h.length_eq] at hle
      rw [HistoryTable.markSaved,show t.entries.length = t.newSinceSave by omega]
    rw [hno] at ho
    simp only [if_pos hn]
    cases outcome with
    | ok => exact ⟨ho,hm ▸ h.markSaved⟩
    | openError | writeError written => exact ⟨rfl,h⟩
  · simp only [if_neg hn]
    cases outcome with
    | ok => exact ⟨ho,h.markSaved⟩
    | openError => exact ⟨rfl,h⟩
    | writeError written =>
      rcases hs with hs | rfl
      · exact absurd hs hn
      · have hl : t.newEntries.length = t.newCount := by
          simp only [newEntries,newCount,length_drop]
          omega
        obtain ⟨e,he⟩ := exists_mem_of_length_pos (show 0 < t.newEntries.length by omega)
        have hp : 0 < (t.newEntries.flatMap (entryLines withTimestamps)).length :=
          length_pos_of_mem (mem_flatMap.mpr ⟨e,he,mem_append_right _ mem_cons_self⟩)
        simp only [if_pos hp]
        exact ⟨rfl,h⟩
end Follows

/-- Tables and outputs agree: each append wrote the lines it owed. -/
def RunFollows (c : HistoryRun) (a : LedgerRun) : Prop :=
  Follows c.table a.ledger ∧ c.written = a.written.map owed

theorem runFollows_step (c : HistoryRun) (a : LedgerRun) (op : HistoryOp) (h : RunFollows c a) (hs : SafeHistory c.table op) :
    RunFollows (historyStep c op) (ledgerStep a op) := by
  obtain ⟨ht,hw⟩ := h
  cases op with
  | loadFrom file => exact ⟨ht.loadFrom hs,hw⟩
  | add line control now => exact ⟨ht.add now hs,hw⟩
  | addForced line timestamp => exact ⟨ht.push _,hw⟩
  | removeAt idx => exact ⟨ht.removeAt hs,hw⟩
  | removeRange start stop => exact ⟨ht.removeRange hs,hw⟩
  | replaceLast line control now => exact ⟨ht.popLast.add now hs,hw⟩
  | clear => exact ⟨⟨rfl,ht.max,rfl,[],[],rfl,rfl,by simp,by simp⟩,hw⟩
  | setMax max =>
    have hse : Follows { c.table with max := Nat.max max 1 } { a.ledger with max := Nat.max max 1 } :=
      ⟨ht.entries,rfl,ht.base,ht.cut⟩
    exact ⟨hse.trim,hw⟩
  | appendTo withTimestamps outcome =>
    obtain ⟨hl,hf⟩ := ht.appendTo hs
    refine ⟨hf,?_⟩
    simp [historyStep,ledgerStep,hw,hl]

section
variable {records : List Record}

def writtenIds (a : LedgerRun) : List ℕ := a.written.flatMap fun p => p.2.map Record.id

structure Distinct (a : LedgerRun) : Prop where
  nodup : (a.ledger.records.map Record.id).Nodup
  bound : ∀ r ∈ a.ledger.records, r.id < a.ledger.nextId
  written_nodup : (writtenIds a).Nodup
  written_bound : ∀ i ∈ writtenIds a, i < a.ledger.nextId
  unwritten : ∀ r ∈ a.ledger.records, r.fresh → r.id ∉ writtenIds a

namespace Distinct
variable {a : LedgerRun}

variable (h : Distinct a)
include h

theorem sublist (hs : records.Sublist a.ledger.records)
    (max base : ℕ) : Distinct { a with ledger := ⟨records,max,base,a.ledger.nextId⟩ } :=
  ⟨h.nodup.sublist (hs.map _),fun r hr => h.bound r (hs.subset hr),h.written_nodup,h.written_bound,
    fun r hr => h.unwritten r (hs.subset hr)⟩

theorem trim : Distinct { a with ledger := a.ledger.trim } :=
  h.sublist (drop_sublist _ _) _ _

theorem push (entry : HistoryEntry) : Distinct { a with ledger := a.ledger.push entry } := by
  have hn : ∀ i, i ∈ a.ledger.records.map Record.id → i ≠ a.ledger.nextId := by
    intro i hi
    obtain ⟨r,hr,rfl⟩ := mem_map.mp hi
    exact (h.bound r hr).ne
  refine Distinct.trim (a := { a with ledger := { a.ledger with
    records := a.ledger.records ++ [⟨a.ledger.nextId,entry,true⟩], nextId := a.ledger.nextId + 1 } }) ?_
  refine ⟨?_,?_,h.written_nodup,fun i hi => (h.written_bound i hi).trans (Nat.lt_succ_self _),?_⟩
  · simp only [map_append,map_cons,map_nil]
    exact nodup_append.mpr ⟨h.nodup,by simp,
      fun i hi j hj => (mem_singleton.mp hj) ▸ hn i hi⟩
  · intro r hr
    rcases mem_append.mp hr with hr | hr
    · exact (h.bound r hr).trans (Nat.lt_succ_self _)
    · rw [mem_singleton.mp hr]
      exact Nat.lt_succ_self _
  · intro r hr hf
    rcases mem_append.mp hr with hr | hr
    · exact h.unwritten r hr hf
    · rw [mem_singleton.mp hr]
      intro hm
      exact lt_irrefl _ (h.written_bound _ hm)

theorem add (line : Text) (control : HistControl) (now : Option ℕ) :
    Distinct { a with ledger := a.ledger.add line control now } := by
  unfold Ledger.add
  split
  · exact h
  · refine Distinct.push (a := { a with ledger := { a.ledger with records := _ } }) (h.sublist ?_ _ _) _
    split
    · exact filter_sublist
    · exact List.Sublist.refl _

theorem removeRange (start stop : ℕ) :
    Distinct { a with ledger := a.ledger.removeRange start stop } := by
  unfold Ledger.removeRange
  split
  · exact h
  · split
    · rename_i s e _ hlt
      refine h.sublist ?_ _ _
      have hd : (a.ledger.records.drop e).Sublist (a.ledger.records.drop s) := by
        rw [← Nat.add_sub_cancel' hlt.le,← drop_drop]
        exact drop_sublist _ _
      simpa using (List.Sublist.refl (a.ledger.records.take s)).append hd
    · exact h

theorem settle : Distinct { a with ledger := a.ledger.settle } := by
  have hi : a.ledger.settle.records.map Record.id = a.ledger.records.map Record.id := by
    simp [Ledger.settle,Function.comp_def]
  refine ⟨hi ▸ h.nodup,?_,h.written_nodup,h.written_bound,?_⟩
  · intro r hr
    obtain ⟨x,hx,rfl⟩ := mem_map.mp hr
    exact h.bound x hx
  · intro r hr hf
    obtain ⟨x,-,rfl⟩ := mem_map.mp hr
    cases hf

omit h

theorem mem_relabel (hr : r ∈ relabel nextId records entries) :
    (∃ x ∈ records, x.id = r.id ∧ x.fresh = r.fresh) ∨
      (∃ i < entries.length, r.id = nextId + i) ∧ r.fresh = false := by
  induction records generalizing entries with
  | nil =>
    obtain ⟨i,hi,rfl⟩ := mem_mapIdx.mp hr
    exact Or.inr ⟨⟨i,hi,rfl⟩,rfl⟩
  | cons x xs ih =>
    cases entries with
    | nil => cases hr
    | cons e es =>
      rcases mem_cons.mp hr with rfl | hr
      · exact Or.inl ⟨x,mem_cons_self,rfl,rfl⟩
      · rcases ih hr with ⟨y,hy,h⟩ | ⟨⟨i,hi,h⟩,hf⟩
        · exact Or.inl ⟨y,mem_cons_of_mem _ hy,h⟩
        · exact Or.inr ⟨⟨i,Nat.lt_succ_of_lt hi,h⟩,hf⟩

theorem nodup_relabel (entries : List HistoryEntry) (hn : (records.map Record.id).Nodup) (hb : ∀ r ∈ records, r.id < nextId) :
    ((Ledger.relabel nextId records entries).map Record.id).Nodup := by
  induction records generalizing entries with
  | nil =>
    have his : (Ledger.relabel nextId [] entries).map Record.id = (List.range entries.length).map (nextId + ·) := by
      apply ext_getElem
      · simp [Ledger.relabel]
      · intro i h1 h2
        simp [Ledger.relabel]
    rw [his]
    exact List.Nodup.map (fun i j hij => Nat.add_left_cancel hij) nodup_range
  | cons x xs ih =>
    cases entries with
    | nil => simp [Ledger.relabel]
    | cons e es =>
      obtain ⟨hx,hxs⟩ := nodup_cons.mp hn
      refine nodup_cons.mpr ⟨?_,ih es hxs fun r hr => hb r (mem_cons_of_mem _ hr)⟩
      intro hm
      obtain ⟨r,hr,hid⟩ := mem_map.mp hm
      rcases mem_relabel hr with ⟨y,hy,hyi,-⟩ | ⟨⟨i,-,hi⟩,-⟩
      · exact hx (mem_map.mpr ⟨y,hy,hyi.trans hid⟩)
      · have := hb x mem_cons_self
        simp only at hid
        omega

include h

theorem extend (entries : List HistoryEntry) :
    Distinct { a with ledger := a.ledger.extend entries } := by
  refine ⟨nodup_relabel entries h.nodup h.bound,?_,h.written_nodup,?_,?_⟩
  · intro r hr
    rcases mem_relabel hr with ⟨x,hx,hid,-⟩ | ⟨⟨i,hi,hid⟩,-⟩
    · rw [← hid]
      exact Nat.lt_add_right _ (h.bound x hx)
    · simp only [Ledger.extend]
      omega
  · intro i hi
    exact Nat.lt_add_right _ (h.written_bound i hi)
  · intro r hr hf
    rcases mem_relabel hr with ⟨x,hx,hid,hfr⟩ | ⟨-,hfr⟩
    · rw [← hid]
      exact h.unwritten x hx (hfr.trans hf)
    · exact absurd (hfr.symm.trans hf) (by simp)

theorem loadFrom (file : HistoryFile) : Distinct { a with ledger := a.ledger.loadFrom file } := by
  cases file with
  | notFound => exact h
  | openError => exact h
  | lines reads =>
    simp only [Ledger.loadFrom]
    split
    · exact h.extend _
    · exact (h.extend _).trim.settle

theorem append (withTimestamps : Bool) :
    Distinct ⟨a.ledger.settle,a.written ++ [(withTimestamps,a.ledger.freshRecords)]⟩ := by
  have hid : writtenIds ⟨a.ledger.settle,a.written ++ [(withTimestamps,a.ledger.freshRecords)]⟩ =
      writtenIds a ++ a.ledger.freshRecords.map Record.id := by simp [writtenIds]
  have hs := h.settle
  refine ⟨hs.nodup,hs.bound,?_,?_,?_⟩
  · rw [hid]
    refine nodup_append.mpr ⟨h.written_nodup,h.nodup.sublist (filter_sublist.map _),?_⟩
    intro i hi j hj
    obtain ⟨r,hr,rfl⟩ := mem_map.mp hj
    obtain ⟨hm,hf⟩ := mem_filter.mp hr
    rintro rfl
    exact h.unwritten r hm hf hi
  · intro i hi
    rw [hid] at hi
    rcases mem_append.mp hi with hi | hi
    · exact h.written_bound i hi
    · obtain ⟨r,hr,rfl⟩ := mem_map.mp hi
      exact h.bound r (mem_filter.mp hr).1
  · intro r hr hf
    obtain ⟨x,-,rfl⟩ := mem_map.mp hr
    cases hf
end Distinct

theorem distinct_step (a : LedgerRun) (op : HistoryOp) (h : Distinct a) : Distinct (ledgerStep a op) := by
  cases op with
  | loadFrom file => exact h.loadFrom file
  | add line control now => exact h.add line control now
  | addForced line timestamp => exact h.push _
  | removeAt idx =>
    simp only [ledgerStep,Ledger.removeAt]
    split
    · exact h
    · exact h.sublist (eraseIdx_sublist _ _) _ _
  | removeRange start stop => exact h.removeRange start stop
  | replaceLast line control now =>
    exact Distinct.add (a := { a with ledger := { a.ledger with records := _ } })
      (h.sublist (dropLast_sublist _) _ _) line control now
  | clear => exact h.sublist (nil_sublist _) _ _
  | setMax max =>
    exact Distinct.trim (a := { a with ledger := { a.ledger with max := _ } }) (h.sublist (List.Sublist.refl _) _ _)
  | appendTo withTimestamps outcome =>
    have hf : Distinct { a with written := a.written ++ [(withTimestamps,[])] } := by
      have hi : writtenIds { a with written := a.written ++ [(withTimestamps,[])] } = writtenIds a := by
        simp [writtenIds]
      exact ⟨h.nodup,h.bound,hi ▸ h.written_nodup,hi ▸ h.written_bound,hi ▸ h.unwritten⟩
    cases outcome with
    | ok => exact h.append withTimestamps
    | openError | writeError written => exact hf

theorem distinct_run (max : ℕ) (ops : List HistoryOp) :
    Distinct (run ledgerStep ⟨new max,[]⟩ ops) := by
  have ha : ∀ a, Distinct a → Distinct (run ledgerStep a ops) := by
    induction ops with
    | nil => exact fun a h => h
    | cons op ops ih => exact fun a h => ih _ (distinct_step a op h)
  apply ha
  constructor <;> simp [writtenIds,Ledger.new]
end

/-- Each append has written, in order and once, the entries added since the last save or load that
are still there. -/
theorem run_appends (max : ℕ) (ops : List HistoryOp)
    (h : Guarded historyStep (fun c op => SafeHistory c.table op) ⟨new max,[]⟩ ops) :
    (run historyStep ⟨new max,[]⟩ ops).written =
        (run ledgerStep ⟨new max,[]⟩ ops).written.map owed ∧
      (run historyStep ⟨new max,[]⟩ ops).table.entries =
        (run ledgerStep ⟨new max,[]⟩ ops).ledger.entries ∧
      (writtenIds (run ledgerStep ⟨new max,[]⟩ ops)).Nodup := by
  have hstart : RunFollows ⟨new max,[]⟩ ⟨new max,[]⟩ :=
    ⟨⟨rfl,rfl,rfl,[],[],rfl,rfl,by simp,by simp⟩,rfl⟩
  obtain ⟨hf,hw⟩ := Guarded.simulation runFollows_step hstart h
  exact ⟨hw,hf.entries,(distinct_run max ops).written_nodup⟩

/-- The first entry is saved and then deleted; the second one is never written. -/
theorem run_loses_entry :
    let ops : List HistoryOp := [.addForced ['a'] none,.appendTo false .ok,.removeAt 1,
      .addForced ['b'] none,.appendTo false .ok]
    (run historyStep ⟨new 10,[]⟩ ops).written ≠
      (run ledgerStep ⟨new 10,[]⟩ ops).written.map owed := by
  decide

/-- Saved entries, a deletion behind the marker and a trim, each within its condition. -/
theorem run_appends_after_trim :
    let ops : List HistoryOp := [.loadFrom (.lines [some ['a'],some ['b']]),.addForced ['c'] none,
      .addForced ['d'] none,.removeAt 3,.setMax 2,.appendTo false .ok,.appendTo false .ok]
    Guarded historyStep (fun c op => SafeHistory c.table op) ⟨new 10,[]⟩ ops ∧
    (run historyStep ⟨new 10,[]⟩ ops).written =
      (run ledgerStep ⟨new 10,[]⟩ ops).written.map owed := by
  intro ops
  have h : Guarded historyStep (fun c op => SafeHistory c.table op) ⟨new 10,[]⟩ ops := by
    refine ⟨?_,?_,?_,?_,?_,?_,?_,trivial⟩ <;> simp only [SafeHistory] <;> decide
  exact ⟨h,(run_appends 10 ops h).1⟩
end Cherubsh.Common
