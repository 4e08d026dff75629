import Cherubsh.Library.GuardedRun
import Cherubsh.State.IndexedArray

/-! # Indexed arrays against finite maps

The two stores represent one finite map as long as no key of the ordered map lies below the length
of the vector; insertion keeps that exactly when the vector does not grow over a key of the map.
-/
namespace Cherubsh.State.IndexedArray
open GuardedRun List Option

section
variable {dense : List (Option String)}

theorem mem_denseEntries {start : ℕ} {i : Int} {v : String} :
    (i,v) ∈ denseEntries start dense ↔ ∃ n, i = ((start + n : ℕ) : Int) ∧ dense[n]? = some (some v) := by
  induction dense generalizing start with
  | nil => simp [denseEntries]
  | cons slot rest ih =>
    rw [← Nat.or_exists_add_one]
    cases slot with
    | none | some w => simp [denseEntries,ih,Int.add_assoc,Int.add_comm 1,@eq_comm _ v]

theorem denseEntries_ge {start : ℕ} {p : Int × String} (h : p ∈ denseEntries start dense) : (start : Int) ≤ p.1 := by
  obtain ⟨n,hn,_⟩ := mem_denseEntries.mp h
  omega

theorem denseEntries_sorted (start : ℕ) (dense : List (Option String)) :
    (denseEntries start dense).Pairwise (fun p q => p.1 < q.1) := by
  induction dense generalizing start with
  | nil => exact List.Pairwise.nil
  | cons slot rest ih =>
    cases slot with
    | none => exact ih (start + 1)
    | some v =>
      refine pairwise_cons.mpr ⟨fun q hq => ?_,ih (start + 1)⟩
      have := denseEntries_ge hq
      push_cast at this
      omega

theorem denseEntries_length (start : ℕ) (dense : List (Option String)) :
    (denseEntries start dense).length = dense.countP Option.isSome := by
  induction dense generalizing start with
  | nil => rfl
  | cons slot rest ih =>
    cases slot with
    | none | some v => simp [denseEntries,ih]
end

def denseCount (a : IndexedArray) : ℕ := a.dense.countP Option.isSome

/-- No key of the ordered map is shadowed by the vector, and the counter counts
every entry of both stores. -/
structure Coherent (a : IndexedArray) : Prop where
  apart : ∀ (k : Int) (v : String), a.sparse[k]? = some v → ¬(0 ≤ k ∧ k.toNat < a.dense.length)
  count : a.len = a.denseCount + a.sparse.size

/-- What a reader of the array sees, for the finite map `m`. -/
structure Observes (a : IndexedArray) (m : Int → Option String) : Prop where
  get_eq : ∀ i, a.get i = m i
  all_sorted : a.all.Pairwise (fun p q => p.1 < q.1)
  mem_all : ∀ i v, (i,v) ∈ a.all ↔ m i = some v
  keys_eq : a.keys = a.all.map Prod.fst
  values_eq : a.values = a.all.map Prod.snd
  len_eq : a.len = a.all.length
  maxIndex_none : a.maxIndex = none ↔ ∀ i, m i = none
  maxIndex_some : ∀ k, a.maxIndex = some k ↔ m k ≠ none ∧ ∀ i, m i ≠ none → i ≤ k

section
/-- The greatest of a set of integers, if there is one in it. -/
def Greatest (P : Int → Prop) : Option Int → Prop
  | none => ∀ i, ¬P i
  | some k => P k ∧ ∀ i, P i → i ≤ k

variable {P Q : Int → Prop} {x y : Option Int}

theorem Greatest.eq_none_iff (h : Greatest P x) : x = none ↔ ∀ i, ¬P i := by
  cases x with
  | none => exact iff_of_true rfl h
  | some k => exact iff_of_false (by simp) fun hn => hn k h.1

theorem Greatest.eq_some_iff (h : Greatest P x) (k : Int) : x = some k ↔ P k ∧ ∀ i, P i → i ≤ k := by
  cases x with
  | none => exact iff_of_false (by simp) fun hk => h k hk.1
  | some n =>
    refine ⟨?_,fun hk => congrArg some (le_antisymm (hk.2 n h.1) (h.2 k hk.1))⟩
    rintro ⟨⟩
    exact h

theorem Greatest.or : Greatest P x → Greatest Q y → Greatest (fun i => P i ∨ Q i) (match x, y with
    | some x, some y => some (max x y)
    | some x, none => some x
    | none, some y => some y
    | none, none => none) := by
  intro hx hy
  cases x with
  | none =>
    cases y with
    | none => exact fun i h => h.elim (hx i) (hy i)
    | some n => exact ⟨.inr hy.1,fun i h => hy.2 i (h.resolve_left (hx i))⟩
  | some m =>
    cases y with
    | none => exact ⟨.inl hx.1,fun i h => hx.2 i (h.resolve_right (hy i))⟩
    | some n =>
      refine ⟨?_,fun i h => h.elim (fun h => (hx.2 i h).trans (le_max_left m n)) fun h => (hy.2 i h).trans (le_max_right m n)⟩
      rcases le_total m n with h | h
      · rw [max_eq_right h]; exact .inr hy.1
      · rw [max_eq_left h]; exact .inl hx.1

theorem greatest_getLast? {l : List (Int × String)} (hl : l.Pairwise (fun p q => p.1 < q.1)) :
    Greatest (fun k => ∃ v, (k,v) ∈ l) (l.getLast?.map Prod.fst) := by
  induction l using List.reverseRecOn with
  | nil => simp [Greatest]
  | append_singleton l p _ =>
    have hp := (pairwise_append.mp hl).2.2
    rw [List.getLast?_concat]
    refine ⟨⟨p.2,by simp⟩,?_⟩
    rintro i ⟨v,hv⟩
    rcases mem_append.mp hv with hv | hv
    · exact (hp _ hv p (by simp)).le
    · exact (congrArg Prod.fst (mem_singleton.mp hv)).le
end

section
variable {a : IndexedArray} {i : Int}

abbrev InDense (a : IndexedArray) (i : Int) : Prop := 0 ≤ i ∧ i.toNat < a.dense.length

theorem get_of_dense (h : a.InDense i) : a.get i = a.dense.getD i.toNat none := if_pos h
theorem get_of_sparse (h : ¬a.InDense i) : a.get i = a.sparse[i]? := if_neg h

theorem mem_dense {v : String} : (i,v) ∈ denseEntries 0 a.dense ↔ a.InDense i ∧ a.get i = some v := by
  rw [mem_denseEntries]
  constructor
  · rintro ⟨n,hn,hv⟩
    have hlt := (List.getElem?_eq_some_iff.mp hv).1
    have hi : i.toNat = n := by omega
    have hin : a.InDense i := ⟨by omega,by omega⟩
    exact ⟨hin,by simp [get_of_dense hin,hi,hv]⟩
  · rintro ⟨h,hv⟩
    refine ⟨i.toNat,by omega,?_⟩
    rw [get_of_dense h,getD_eq_getElem?_getD,List.getElem?_eq_getElem h.2] at hv
    rw [List.getElem?_eq_getElem h.2]
    simpa using hv

theorem toList_eq_nil (h : a.sparse.isEmpty) : a.sparse.toList = [] := by
  rw [← List.isEmpty_iff,Std.TreeMap.isEmpty_toList]
  exact h

theorem all_of_isEmpty (h : a.sparse.isEmpty) : a.all = denseEntries 0 a.dense := by
  simp [all,h,toList_eq_nil h]
theorem all_of_not_isEmpty (h : ¬a.sparse.isEmpty) :
    a.all = (denseEntries 0 a.dense ++ a.sparse.toList).insertionSort (fun p q => p.1 ≤ q.1) := by
  simp [all,h]

theorem all_perm (a : IndexedArray) : a.all.Perm (denseEntries 0 a.dense ++ a.sparse.toList) := by
  by_cases h : a.sparse.isEmpty
  · simp [all_of_isEmpty h,toList_eq_nil h]
  · rw [all_of_not_isEmpty h]
    exact perm_insertionSort _ _

theorem sparse_sorted (a : IndexedArray) : a.sparse.toList.Pairwise (fun p q => p.1 < q.1) :=
  Std.TreeMap.ordered_keys_toList.imp fun h => compare_lt_iff_lt.mp h

theorem keys_eq_map (a : IndexedArray) : a.keys = a.all.map Prod.fst := by
  by_cases h : a.sparse.isEmpty
  · simp [keys,h,all_of_isEmpty h]
  · simp [keys,h]

variable (ha : Coherent a)
include ha

theorem sparse_eq_none (h : a.InDense i) : a.sparse[i]? = none := by
  cases hs : a.sparse[i]? with
  | none => rfl
  | some v => exact absurd h (ha.apart i v hs)

theorem mem_entries (i : Int) (v : String) : (i,v) ∈ denseEntries 0 a.dense ++ a.sparse.toList ↔ a.get i = some v := by
  rw [mem_append,mem_dense,Std.TreeMap.mem_toList_iff_getElem?_eq_some]
  by_cases h : a.InDense i
  · rw [sparse_eq_none ha h,or_iff_left (by simp)]
    exact and_iff_right h
  · rw [get_of_sparse h]
    exact or_iff_right fun hd => h hd.1

theorem entries_keys_ne : (denseEntries 0 a.dense ++ a.sparse.toList).Pairwise (fun p q => p.1 ≠ q.1) := by
  refine pairwise_append.mpr ⟨(denseEntries_sorted 0 a.dense).imp ne_of_lt,
    (sparse_sorted a).imp ne_of_lt,?_⟩
  rintro ⟨i,v⟩ hp ⟨j,w⟩ hq rfl
  exact ha.apart i w (Std.TreeMap.mem_toList_iff_getElem?_eq_some.mp hq) (mem_dense.mp hp).1

theorem all_sorted_of_coherent : a.all.Pairwise (fun p q => p.1 < q.1) := by
  have hne := (all_perm a).symm.pairwise (entries_keys_ne ha) Ne.symm
  by_cases h : a.sparse.isEmpty
  · rw [all_of_isEmpty h]
    exact denseEntries_sorted 0 a.dense
  · rw [all_of_not_isEmpty h] at hne ⊢
    have hle := pairwise_insertionSort (fun p q : Int × String => p.1 ≤ q.1)
      (denseEntries 0 a.dense ++ a.sparse.toList)
    exact hle.imp₂ (fun _ _ h hne => lt_of_le_of_ne h hne) hne

theorem len_eq_length : a.len = a.all.length := by
  rw [(all_perm a).length_eq,length_append,denseEntries_length,Std.TreeMap.length_toList,ha.count]
  rfl

theorem greatest_maxIndex : Greatest (fun i => a.get i ≠ none) a.maxIndex := by
  have hs := greatest_getLast? (sparse_sorted a)
  rw [← List.getLast?_map,Std.TreeMap.map_fst_toList_eq_keys] at hs
  have hm : (fun i => a.get i ≠ none) =
      fun i => (∃ v, (i,v) ∈ denseEntries 0 a.dense) ∨ ∃ v, (i,v) ∈ a.sparse.toList := by
    funext i
    rw [ne_none_iff_exists']
    simp only [← mem_entries ha,mem_append,exists_or]
  rw [hm]
  exact (greatest_getLast? (denseEntries_sorted 0 a.dense)).or hs

theorem observes_of_coherent {m : Int → Option String} (hm : ∀ i, a.get i = m i) : Observes a m := by
  have hma := greatest_maxIndex ha
  simp only [hm] at hma
  refine ⟨hm,all_sorted_of_coherent ha,fun i v => ?_,keys_eq_map a,rfl,len_eq_length ha,?_,hma.eq_some_iff⟩
  · rw [(all_perm a).mem_iff,mem_entries ha,hm]
  · simpa using hma.eq_none_iff
end

section
variable {a b : IndexedArray} {index : Int} {v : String} (dense : List (Option String))

def write (m : Int → Option String) (i : Int) (v : Option String) : Int → Option String :=
  Function.update m i v

theorem exists_rdropWhile :
    ∃ n, dense = dense.rdropWhile Option.isNone ++ List.replicate n none := by
  induction dense using List.reverseRecOn with
  | nil => exact ⟨0,rfl⟩
  | append_singleton rest slot ih =>
    cases slot with
    | some v => exact ⟨0,by rw [rdropWhile_concat_neg _ _ _ (by simp)]; simp⟩
    | none =>
      obtain ⟨n,hn⟩ := ih
      refine ⟨n + 1,?_⟩
      rw [rdropWhile_concat_pos _ _ _ (by simp),replicate_succ',← append_assoc,← hn]

theorem getD_append_replicate (n i : ℕ) :
    (dense ++ List.replicate n none).getD i none = dense.getD i none := by
  simp only [getD_eq_getElem?_getD,List.getElem?_append]
  split
  · rfl
  · rw [List.getElem?_eq_none (l := dense) (by omega),List.getElem?_replicate]
    split <;> rfl

theorem trimDenseTail_same (ha : Coherent a) : Coherent a.trimDenseTail ∧ ∀ i, a.trimDenseTail.get i = a.get i := by
  obtain ⟨n,hn⟩ := exists_rdropWhile a.dense
  unfold trimDenseTail
  generalize a.dense.rdropWhile Option.isNone = dense at hn
  have hle : dense.length ≤ a.dense.length := by simp [hn]
  refine ⟨⟨fun k v hk hd => ha.apart k v hk ⟨hd.1,lt_of_lt_of_le hd.2 hle⟩,?_⟩,fun i => ?_⟩
  · rw [ha.count,denseCount,hn]
    simp [denseCount,countP_replicate]
  by_cases hi : a.InDense i
  · rw [get_of_dense hi,hn,getD_append_replicate]
    by_cases ht : i.toNat < dense.length
    · exact get_of_dense (a := { a with dense }) ⟨hi.1,ht⟩
    · rw [get_of_sparse fun h => ht h.2,getD_eq_getElem?_getD,List.getElem?_eq_none (by omega)]
      exact (sparse_eq_none ha hi :)
  · rw [get_of_sparse hi]
    exact get_of_sparse (a := { a with dense }) fun h => hi ⟨h.1,lt_of_lt_of_le h.2 hle⟩

/-- Dense storage never grows over a key of the ordered map. -/
def SafeInsert (a : IndexedArray) (index : Int) : Prop :=
  a.shouldStoreDense index → ∀ k ∈ a.sparse.keys,
    (a.dense.length : Int) ≤ k → k ≤ index → k = index ∧ index.toNat ≠ a.dense.length

instance (a : IndexedArray) (index : Int) : Decidable (SafeInsert a index) :=
  inferInstanceAs (Decidable (_ → _))

theorem SafeInsert.free (hs : SafeInsert a index) (hd : a.shouldStoreDense index)
    {k : Int} (hk : a.sparse[k]? = some v) (hlo : (a.dense.length : Int) ≤ k) (hhi : k ≤ index) :
    k = index ∧ index.toNat ≠ a.dense.length := by
  refine hs hd k ?_ hlo hhi
  rw [Std.TreeMap.mem_keys,Std.TreeMap.mem_iff_isSome_getElem?,hk]
  rfl

def grown (a : IndexedArray) (n : ℕ) : List (Option String) :=
  if a.dense.length ≤ n then resizeDense a.dense (n + 1) else a.dense

theorem length_grown (a : IndexedArray) (n : ℕ) : (grown a n).length = max a.dense.length (n + 1) := by
  unfold grown resizeDense
  split
  · simp only [length_append,length_replicate]
    omega
  · omega

theorem getD_grown (a : IndexedArray) (n i : ℕ) : (grown a n).getD i none = a.dense.getD i none := by
  unfold grown
  split
  · exact getD_append_replicate a.dense _ i
  · rfl

theorem countP_grown (a : IndexedArray) (n : ℕ) : (grown a n).countP Option.isSome = a.denseCount := by
  unfold grown resizeDense
  split
  · simp [denseCount,countP_replicate]
  · rfl

theorem countP_set_add {n : ℕ} (hn : n < dense.length) (slot : Option String) :
    (dense.set n slot).countP Option.isSome + (if (dense.getD n none).isSome then 1 else 0) =
      dense.countP Option.isSome + if slot.isSome then 1 else 0 := by
  have hp : (dense[n]).isSome → 0 < dense.countP Option.isSome := fun h =>
    countP_pos_iff.mpr ⟨_,getElem_mem hn,h⟩
  rw [countP_set hn,getD_eq_getElem?_getD,List.getElem?_eq_getElem hn,getD_some]
  split
  · have := hp (by assumption)
    omega
  · omega

theorem size_erase_add (a : IndexedArray) (k : Int) :
    (a.sparse.erase k).size + (if (a.sparse[k]?).isSome then 1 else 0) = a.sparse.size := by
  rw [Std.TreeMap.size_erase,Std.TreeMap.contains_eq_isSome_getElem?]
  split
  · have hm : k ∈ a.sparse := Std.TreeMap.mem_iff_isSome_getElem?.mpr (by assumption)
    have : a.sparse.isEmpty = false := Std.TreeMap.isEmpty_eq_false_iff_exists_mem.mpr ⟨k,hm⟩
    rw [Std.TreeMap.isEmpty_eq_size_eq_zero] at this
    simp only [beq_eq_false_iff_ne] at this
    omega
  · rfl

theorem getElem?_erase (a : IndexedArray) (i k : Int) : (a.sparse.erase i)[k]? = if k = i then none else a.sparse[k]? := by
  rw [Std.TreeMap.getElem?_erase]
  simp only [compare_eq_iff_eq,eq_comm (a := i)]

variable (ha : Coherent a) {slot : Option String} (hlen : b.len = b.denseCount + b.sparse.size)
include ha hlen

theorem dense_writes {n : ℕ} (hde : b.dense = (grown a n).set n slot)
    (hsp : ∀ k : Int, b.sparse[k]? = if k = n then none else a.sparse[k]?)
    (hf : ∀ (k : Int) (w : String), a.sparse[k]? = some w → 0 ≤ k → k.toNat < n → False) :
    Coherent b ∧ ∀ i, b.get i = write a.get (n : Int) slot i := by
  have hl : b.dense.length = max a.dense.length (n + 1) := by
    rw [hde,length_set,length_grown]
  have hlt : n < (grown a n).length := by
    rw [length_grown]
    omega
  refine ⟨⟨fun k w hk hd => ?_,hlen⟩,fun i => ?_⟩
  · rw [hsp] at hk
    split at hk
    · cases hk
    · rw [hl] at hd
      by_cases hkl : k.toNat < a.dense.length
      · exact ha.apart k w hk ⟨hd.1,hkl⟩
      · exact hf k w hk hd.1 (by omega)
  simp only [write,Function.update_apply]
  by_cases hd : b.InDense i
  · rw [get_of_dense hd,hde]
    rw [InDense,hl] at hd
    simp only [getD_eq_getElem?_getD,List.getElem?_set]
    by_cases hi : i = n
    · simp [hi,hlt]
    · rw [if_neg hi,if_neg (by omega),← getD_eq_getElem?_getD,getD_grown]
      by_cases hdl : i.toNat < a.dense.length
      · rw [get_of_dense ⟨hd.1,hdl⟩]
      · rw [get_of_sparse (fun h => hdl h.2),getD_eq_getElem?_getD,List.getElem?_eq_none (by omega)]
        cases hs : a.sparse[i]? with
        | none => rfl
        | some w => exact (hf i w hs hd.1 (by omega)).elim
  · rw [get_of_sparse hd,hsp]
    rw [InDense,hl] at hd
    have hi : i ≠ n := by
      rintro rfl
      exact hd ⟨by omega,by omega⟩
    rw [if_neg hi,if_neg hi]
    exact (get_of_sparse fun h => hd ⟨h.1,by omega⟩).symm

theorem sparse_writes (hde : b.dense = a.dense) (ho : ¬a.InDense index)
    (hs : ∀ k : Int, b.sparse[k]? = if k = index then slot else a.sparse[k]?) :
    Coherent b ∧ ∀ i, b.get i = write a.get index slot i := by
  refine ⟨⟨fun k w hk hd => ?_,hlen⟩,fun i => ?_⟩
  · rw [hde] at hd
    rw [hs,if_neg (by rintro rfl; exact ho hd)] at hk
    exact ha.apart k w hk hd
  simp only [write,Function.update_apply]
  by_cases hd : a.InDense i
  · rw [if_neg (by rintro rfl; exact ho hd),get_of_dense hd,← hde]
    exact get_of_dense (by rwa [InDense,hde])
  · rw [get_of_sparse hd,← hs]
    exact get_of_sparse (by rwa [InDense,hde])

omit hlen

theorem len_insertDense (n : ℕ) (v : String) :
    (insertDense a n v).len = (insertDense a n v).denseCount + (insertDense a n v).sparse.size := by
  have hlt : n < (grown a n).length := by
    rw [length_grown]
    omega
  have hs := countP_set_add _ hlt (some v)
  have hsi := size_erase_add a n
  have hc := ha.count
  rw [countP_grown] at hs
  change (if ((grown a n).getD n none).isNone then (if (a.sparse[(n : Int)]?).isSome then a.len - 1 else a.len) + 1
    else if (a.sparse[(n : Int)]?).isSome then a.len - 1 else a.len) =
      ((grown a n).set n (some v)).countP Option.isSome + (a.sparse.erase (n : Int)).size
  revert hs hsi
  cases (grown a n).getD n none <;> cases a.sparse[(n : Int)]? <;> simp <;> omega

theorem insert_writes (v : String) (hs : SafeInsert a index) :
    Coherent (a.insert index v) ∧ ∀ i, (a.insert index v).get i = write a.get index (some v) i := by
  have hco := ha.count
  unfold insert
  split
  · rename_i h
    obtain ⟨h0,hlen,hm⟩ := h
    have hd : a.shouldStoreDense index := by simp [shouldStoreDense,not_lt.mpr h0,hlen ▸ hm,hlen]
    have hca : ((a.dense.length : ℕ) : Int) = index := by omega
    have hn : a.sparse[index]? = none := by
      cases hk : a.sparse[index]? with
      | none => rfl
      | some w => exact absurd hlen (hs.free hd hk (by omega) le_rfl).2
    rw [← hca] at hn ⊢
    refine dense_writes ha ?_ (by simp [grown,resizeDense]) (fun k => ?_) fun k w hk h0 hlt => ha.apart k w hk ⟨h0,hlt⟩
    · simp only [denseCount,countP_append] at hco ⊢
      simp
      omega
    · split
      · simp_all
      · rfl
  · split
    · rename_i hf hd
      have h0 : 0 ≤ index := by
        by_contra hne
        simp [shouldStoreDense,not_le.mp hne] at hd
      have hca := Int.toNat_of_nonneg h0
      have hw := dense_writes ha (len_insertDense ha index.toNat v) rfl (getElem?_erase a _) fun k w hk hk0 hlt => by
        have hlo : (a.dense.length : Int) ≤ k := by
          have := ha.apart k w hk
          omega
        have := (hs.free hd hk hlo (by omega)).1
        omega
      simpa only [hca] using hw
    · rename_i hd
      have ho : ¬a.InDense index := by
        rintro ⟨h0,hlt⟩
        simp [shouldStoreDense,not_lt.mpr h0,hlt] at hd
      let b : IndexedArray := { a with
        sparse := a.sparse.insert index v
        len := if (a.sparse[index]?).isNone then a.len + 1 else a.len }
      have hlen : b.len = b.denseCount + b.sparse.size := by
        simp only [b,denseCount,Std.TreeMap.size_insert,Std.TreeMap.contains_eq_isSome_getElem?] at hco ⊢
        cases a.sparse[index]? <;> simp <;> omega
      have hsp : ∀ k : Int, b.sparse[k]? = if k = index then some v else a.sparse[k]? := by
        intro k
        rw [Std.TreeMap.getElem?_insert]
        simp only [compare_eq_iff_eq,eq_comm (a := index)]
      obtain ⟨hc,hg⟩ := sparse_writes ha hlen rfl ho hsp
      obtain ⟨hc,ht⟩ := trimDenseTail_same hc
      simp only [insertSparse,ho,if_false,false_and]
      exact ⟨hc,fun i => (ht i).trans (hg i)⟩

theorem remove_erases (index : Int) :
    (a.remove index).1 = a.get index ∧ Coherent (a.remove index).2 ∧
      ∀ i, (a.remove index).2.get i = write a.get index none i := by
  have hco := ha.count
  by_cases hn : a.get index = none
  · have heq : a.remove index = (none,a) := by
      by_cases hin : a.InDense index
      · simp only [remove,if_pos hin,← get_of_dense hin,hn,sparse_eq_none ha hin]
      · simp only [remove,if_neg hin,← get_of_sparse hin,hn]
    rw [heq]
    refine ⟨hn.symm,ha,fun i => ?_⟩
    by_cases hi : i = index <;> simp [write,hi,hn]
  obtain ⟨v,hv⟩ := ne_none_iff_exists'.mp hn
  by_cases hin : a.InDense index
  · have hca := Int.toNat_of_nonneg hin.1
    have hgr : a.dense = grown a index.toNat := (if_neg (Nat.not_le.mpr hin.2)).symm
    let b : IndexedArray := { a with dense := a.dense.set index.toNat none, len := a.len - 1 }
    have hlen : b.len = b.denseCount + b.sparse.size := by
      have hse := countP_set_add a.dense hin.2 none
      rw [← get_of_dense hin,hv] at hse
      simp only [b,denseCount,isSome_some,isSome_none,if_true,Bool.false_eq_true,if_false] at hse hco ⊢
      omega
    have hsp : ∀ k : Int, b.sparse[k]? = if k = index.toNat then none else a.sparse[k]? := by
      intro k
      split
      · simp_all [b,sparse_eq_none ha hin]
      · rfl
    obtain ⟨hc,hg⟩ := dense_writes ha hlen (congrArg (List.set · index.toNat none) hgr) hsp
      fun k w hk h0 hlt => ha.apart k w hk ⟨h0,hlt.trans hin.2⟩
    obtain ⟨hc,ht⟩ := trimDenseTail_same hc
    simp only [remove,if_pos hin,← get_of_dense hin,hv]
    exact ⟨trivial,hc,fun i => (ht i).trans (hca ▸ hg i)⟩
  · let b : IndexedArray := { a with sparse := a.sparse.erase index, len := a.len - 1 }
    have hlen : b.len = b.denseCount + b.sparse.size := by
      have hs := size_erase_add a index
      rw [← get_of_sparse hin,hv] at hs
      simp only [b,denseCount,isSome_some,if_true] at hs hco ⊢
      omega
    simp only [remove,if_neg hin,← get_of_sparse hin,hv]
    exact ⟨trivial,sparse_writes ha hlen rfl hin (getElem?_erase a index)⟩
end

section
variable (a : IndexedArray)

inductive Op where
  | fromValues (values : List String)
  | fromPairs (values : List (Int × String))
  | insert (index : Int) (value : String)
  | remove (index : Int)

def apply : Op → IndexedArray
  | .fromValues values => fromValues values
  | .fromPairs values => fromPairs values
  | .insert index value => a.insert index value
  | .remove index => (a.remove index).2

def applyMap (m : Int → Option String) : Op → (Int → Option String)
  | .fromValues values => fun i => if 0 ≤ i then values[i.toNat]? else none
  | .fromPairs values => values.foldl (fun m p => write m p.1 (some p.2)) (fun _ => none)
  | .insert index value => write m index (some value)
  | .remove index => write m index none

/-- Only insertions carry a condition; a list of pairs is inserted one by one. -/
def Safe : Op → Prop
  | .fromPairs values => Guarded (fun a p => a.insert p.1 p.2) (fun a p => SafeInsert a p.1) default values
  | .insert index _ => SafeInsert a index
  | _ => True

instance (a : IndexedArray) : ∀ op, Decidable (Safe a op)
  | .fromValues _ => isTrue trivial
  | .fromPairs values => inferInstanceAs (Decidable (Guarded
      (fun (a : IndexedArray) (p : Int × String) => a.insert p.1 p.2) (fun a p => SafeInsert a p.1) default values))
  | .insert index _ => inferInstanceAs (Decidable (SafeInsert a index))
  | .remove _ => isTrue trivial

def Represents (m : Int → Option String) : Prop := Coherent a ∧ ∀ i, a.get i = m i

theorem represents_default : Represents default (fun _ => none) := by
  refine ⟨⟨fun k v hk => ?_,rfl⟩,fun i => ?_⟩
  · simp [default] at hk
  · simp [default,get]

theorem represents_insert (m : Int → Option String) (p : Int × String)
    (h : Represents a m) (hs : SafeInsert a p.1) : Represents (a.insert p.1 p.2) (write m p.1 (some p.2)) := by
  obtain ⟨hc,hg⟩ := insert_writes h.1 p.2 hs
  refine ⟨hc,fun i => ?_⟩
  rw [hg,funext h.2]

theorem represents_fromValues (values : List String) :
    Represents (fromValues values) (fun i => if 0 ≤ i then values[i.toNat]? else none) := by
  refine ⟨⟨fun k v hk => ?_,?_⟩,fun i => ?_⟩
  · simp [fromValues] at hk
  · simp [fromValues,denseCount,countP_map,Function.comp_def]
  · by_cases h0 : 0 ≤ i
    · by_cases hlt : i.toNat < values.length
      · simp [get,fromValues,h0,hlt]
      · simp [get,fromValues,h0,hlt]
    · simp [get,fromValues,h0]

theorem represents_apply (m : Int → Option String) (op : Op)
    (h : Represents a m) (hs : Safe a op) : Represents (apply a op) (applyMap m op) := by
  cases op with
  | fromValues values => exact represents_fromValues values
  | fromPairs values => exact Guarded.simulation represents_insert represents_default hs
  | insert index value => exact represents_insert a m (index,value) h hs
  | remove index =>
    obtain ⟨-,hc,hg⟩ := remove_erases h.1 index
    refine ⟨hc,fun i => ?_⟩
    rw [apply,hg,funext h.2]
    rfl

/-- Every state of a run whose insertions meet the condition shows the finite map
of the operations so far. -/
theorem run_observes (ops : List Op) (h : Guarded apply Safe default ops) :
    Observes (run apply default ops) (run applyMap (fun _ => none) ops) := by
  obtain ⟨hc,hg⟩ := Guarded.simulation represents_apply represents_default h
  exact observes_of_coherent hc hg

/-- A write that grows the vector over a key of the map: its entry is lost to every reader. -/
theorem run_shadows_entry : ¬Observes
    (run apply default [.insert 1030 "a",.insert 6 "b",.insert 1031 "c"])
    (run applyMap (fun _ => none) [.insert 1030 "a",.insert 6 "b",.insert 1031 "c"]) := by
  intro h
  have hread := h.get_eq 1030
  have hlost : (run apply default [.insert 1030 "a",.insert 6 "b",.insert 1031 "c"]).get 1030 = none := by
    decide +kernel
  rw [hlost] at hread
  simp [applyMap,write] at hread

/-- A run through both stores that meets the condition at every insertion. -/
theorem run_observes_both_stores :
    Guarded apply Safe default [.fromValues ["x","y"],.insert 5000 "z",.insert 2 "w",.remove 0] ∧
    Observes (run apply default [.fromValues ["x","y"],.insert 5000 "z",.insert 2 "w",.remove 0])
      (run applyMap (fun _ => none) [.fromValues ["x","y"],.insert 5000 "z",.insert 2 "w",.remove 0]) := by
  have h : Guarded apply Safe default [.fromValues ["x","y"],.insert 5000 "z",.insert 2 "w",.remove 0] :=
    by decide +kernel
  exact ⟨h,run_observes _ h⟩
end
end Cherubsh.State.IndexedArray
