import Cherubsh.Expander.Substring

/-! # The law of substrings

The law over any list, and where the code keeps it: exactly when the offset does not lead before
the beginning (or nothing would be taken there) and the length does not lead out of 64 bits.
-/
namespace Cherubsh.Expander.Substring
open Utf8 ShellString List
variable {k start stop : ℕ} {bytes : Bytes} {maxIndex : ℤ}

section
variable {α : Type} {l : List α} {off : ℤ} (n : ℕ) (len : Option ℤ)

def pointed (off : ℤ) : ℤ := if 0 ≤ off then off else n + off

def ended (start : ℤ) : Option ℤ → ℤ
  | none => n
  | some l => if 0 ≤ l then min n (start + l) else n + l

def lawful (l : List α) (off : ℤ) (len : Option ℤ) : List α :=
  let start := pointed l.length off
  if start < 0 ∨ l.length < start then [] else (l.take (ended l.length start len).toNat).drop start.toNat

def startOf (off : ℤ) : ℤ := if off < 0 then max (n + off) 0 else min off n

def stopOf (start : ℤ) : Option ℤ → ℤ
  | some l => if l < 0 then max (n + l) start else min (start + l) n
  | none => n

/-- The offset is not before the beginning, or nothing is taken from there. -/
def NotBefore (off : ℤ) (len : Option ℤ) : Prop :=
  -n ≤ off ∨ n = 0 ∨ len = some 0 ∨ ∃ l ∈ len, l ≤ -n

/-- A length that is added to the start stays within 64 bits. -/
def Fits (off : ℤ) (len : Option ℤ) : Prop := ∀ l ∈ len, 0 ≤ l → startOf n off + l < 2 ^ 63

theorem startOf_nonneg (off : ℤ) : 0 ≤ startOf n off := by
  unfold startOf
  split <;> omega

theorem startOf_le (off : ℤ) : startOf n off ≤ n := by
  unfold startOf
  split <;> omega

theorem stopOf_bounds (off : ℤ) (len : Option ℤ) :
    startOf n off ≤ stopOf n (startOf n off) len ∧ stopOf n (startOf n off) len ≤ n := by
  have hle := startOf_le n off
  cases len with
  | none => exact ⟨hle,Int.le_refl _⟩
  | some l =>
    unfold stopOf
    split <;> omega

def taken (l : List α) (off : ℤ) (len : Option ℤ) : List α :=
  (l.take (stopOf l.length (startOf l.length off) len).toNat).drop (startOf l.length off).toNat

theorem taken_eq_lawful (h : -l.length ≤ off) : taken l off len = lawful l off len := by
  unfold taken lawful
  have hp : pointed l.length off = startOf l.length off ∨ l.length < pointed l.length off ∧ startOf l.length off = l.length := by
    unfold pointed startOf
    split <;> split <;> omega
  have h0 := startOf_nonneg l.length off
  rcases hp with heq | ⟨hlt,heq⟩
  · have hle := startOf_le l.length off
    rw [heq,if_neg (by omega)]
    -- the two ends differ only where nothing is left
    by_cases he : (stopOf l.length (startOf l.length off) len).toNat = (ended l.length (startOf l.length off) len).toNat
    · rw [he]
    · have hl : ended l.length (startOf l.length off) len < startOf l.length off ∧
          stopOf l.length (startOf l.length off) len = startOf l.length off := by
        cases len with
        | none => exact absurd rfl he
        | some n =>
          simp only [stopOf,ended] at he ⊢
          split at he <;> split at he <;> simp_all <;> omega
      rw [drop_eq_nil_of_le,drop_eq_nil_of_le]
      · rw [length_take]
        omega
      · rw [length_take]
        omega
  · rw [if_pos (.inr hlt),heq]
    exact drop_eq_nil_of_le (by rw [length_take]; omega)

theorem taken_eq_nil_iff (h : off < -l.length) :
    taken l off len = [] ↔ l.length = 0 ∨ len = some 0 ∨ ∃ m ∈ len, m ≤ -(l.length : ℤ) := by
  have hs : startOf l.length off = 0 := by
    unfold startOf
    split <;> omega
  have hl : (taken l off len).length = (stopOf l.length 0 len).toNat := by
    have hst := stopOf_bounds l.length off len
    rw [hs] at hst
    simp only [taken,hs,length_drop,length_take]
    omega
  rw [← length_eq_zero_iff,hl]
  cases len with
  | none => simp [stopOf]
  | some m =>
    simp only [stopOf,Option.some.injEq,Option.mem_def,exists_eq_left']
    split <;> omega

theorem taken_front (hk : k ≤ l.length) : taken l 0 (some k) = l.take k := by
  have hs : startOf l.length 0 = 0 := by
    rw [startOf,if_neg (by omega)]
    omega
  have hst : stopOf l.length 0 (some k) = k := by
    rw [stopOf,if_neg (by omega)]
    omega
  rw [taken,hs,hst]
  rfl

theorem taken_back (hk : k ≤ l.length) : taken l k none = l.drop k := by
  have hs : startOf l.length k = k := by
    rw [startOf,if_neg (by omega)]
    omega
  rw [taken,hs,stopOf,Int.toNat_natCast,Int.toNat_natCast,take_length]

theorem lawful_of_lt (h : off < -l.length) : lawful l off len = [] := by
  have hp : pointed l.length off < 0 := by
    unfold pointed
    split <;> omega
  exact if_pos (.inl hp)

theorem taken_eq_lawful_iff (l : List α) (off : ℤ) (len : Option ℤ) :
    taken l off len = lawful l off len ↔ NotBefore l.length off len := by
  by_cases h : -(l.length : ℤ) ≤ off
  · exact ⟨fun _ => .inl h,fun _ => taken_eq_lawful len h⟩
  · rw [lawful_of_lt len (by omega),taken_eq_nil_iff len (by omega)]
    exact ⟨.inr,fun hor => hor.resolve_left h⟩
end

theorem ok_bind {α β : Type} (a : α) (f : α → Outcome β) : ((.ok a : Outcome α) >>= f) = f a := rfl

section
variable {n : ℕ} {off : ℤ} {len : Option ℤ}

theorem substringStart_eq (hn : n < 2 ^ 63) (ho : Within off) :
    substringStart n off = .ok (startOf n off) := by
  unfold substringStart startOf
  split
  · have hs : Within ((n : ℤ) + off) := by
      unfold Within at *
      omega
    rw [addI64_of_within hs]
    rfl
  · rfl

theorem substringStop_of_fits (hn : n < 2 ^ 63) (hle : ∀ l ∈ len, Within l) (hf : Fits n off len) :
    substringStop n (startOf n off) len = .ok (stopOf n (startOf n off) len) := by
  have h0 := startOf_nonneg n off
  cases len with
  | none => rfl
  | some l =>
    have hl := hle l rfl
    have hs := hf l rfl
    rw [substringStop,stopOf]
    by_cases hne : l < 0
    · have hw : Within ((n : ℤ) + l) := by
        unfold Within at *
        omega
      rw [if_pos hne,if_pos hne,addI64_of_within hw]
      rfl
    · have hw : Within (startOf n off + l) := by
        unfold Within at *
        omega
      rw [if_neg hne,if_neg hne,addI64_of_within hw]
      rfl

theorem overflow_of_not_fits (h : ¬Fits n off len) : ∃ l, len = some l ∧ 0 ≤ l ∧ addI64 (startOf n off) l = .error .overflow := by
  simp only [Fits,not_forall,Int.not_lt] at h
  obtain ⟨l,hle,hl,hs⟩ := h
  refine ⟨l,hle,hl,if_neg fun hw => ?_⟩
  unfold Within at hw
  omega

theorem substringStop_of_not_fits (hf : ¬Fits n off len) :
    substringStop n (startOf n off) len = .error .overflow := by
  obtain ⟨l,rfl,hl,hs⟩ := overflow_of_not_fits hf
  rw [substringStop,if_neg (by omega),hs]
  rfl
end

def characters (utf8 : Bool) (value : Text) : List Bytes :=
  match utf8,(fromUtf8 (shellStringToBytes value)).toOption with
  | true, some text => text.map String.utf8EncodeChar
  | _, _ => (shellStringToBytes value).map fun b => [b]

theorem flatten_singletons (l : Bytes) : (l.map fun b => [b]).flatten = l := by
  rw [← flatMap_def,flatMap_singleton']

theorem encode_eq_flatten (text : Text) : encode text = (text.map String.utf8EncodeChar).flatten := by
  rw [encode,flatMap_def]

theorem encode_of_toOption {text : Text} (h : (fromUtf8 bytes).toOption = some text) : bytes = encode text := by
  cases hr : fromUtf8 bytes with
  | error e => simp [hr,Except.toOption] at h
  | ok s => exact encode_of_fromUtf8 (by simpa [hr,Except.toOption] using h)

theorem flatten_characters (utf8 : Bool) (value : Text) : (characters utf8 value).flatten = shellStringToBytes value := by
  unfold characters
  split
  · rename_i text ht
    rw [← encode_eq_flatten]
    exact (encode_of_toOption ht).symm
  · exact flatten_singletons _

theorem ne_nil_of_mem_characters {utf8 : Bool} {value : Text} {c : Bytes} (h : c ∈ characters utf8 value) : c ≠ [] := by
  unfold characters at h
  split at h
  · obtain ⟨ch,-,rfl⟩ := mem_map.1 h
    exact fun hni => absurd (congrArg List.length hni) (by simpa using Nat.ne_of_gt ch.utf8Size_pos)
  · obtain ⟨b,-,rfl⟩ := mem_map.1 h
    exact cons_ne_nil b []

theorem length_le_length_flatten {L : List Bytes} (h : ∀ c ∈ L, c ≠ []) : L.length ≤ L.flatten.length := by
  induction L with
  | nil => exact Nat.le_refl _
  | cons c L ih =>
    have hc : c.length ≠ 0 := fun hl => h c (by simp) (length_eq_zero_iff.1 hl)
    have hm := ih fun c hc => h c (by simp [hc])
    simp only [length_cons,flatten_cons,length_append]
    omega

theorem slice_flatten (L : List Bytes) (h : start ≤ stop) :
    slice L.flatten (L.take start).flatten.length (L.take stop).flatten.length = .ok ((L.take stop).drop start).flatten := by
  have hf : L.flatten = (L.take stop).flatten ++ (L.drop stop).flatten := by
    rw [← flatten_append,take_append_drop]
  have hc : (L.take stop).flatten = (L.take start).flatten ++ ((L.take stop).drop start).flatten := by
    rw [← flatten_append]
    congr 1
    have ht : L.take start = (L.take stop).take start := by rw [take_take,Nat.min_eq_left h]
    rw [ht,take_append_drop]
  rw [slice_eq_ok]
  · rw [hf,take_left,hc,drop_left]
  · rw [hc,length_append]
    exact Nat.le_add_right ..
  · rw [hf,length_append]
    exact Nat.le_add_right ..

def place (idx byte : ℕ) (value : Text) (known n : ℕ) : ℕ :=
  if idx ≤ n ∧ n - idx < value.length then byte + (encode (value.take (n - idx))).length else known

theorem place_cons (idx byte : ℕ) (c : Char) (value : Text) (known n : ℕ) :
    place idx byte (c :: value) known n = if idx = n then byte else place (idx + 1) (byte + c.utf8Size) value known n := by
  unfold place
  by_cases heq : idx = n
  · simp [heq]
  rw [if_neg heq]
  by_cases hle : idx + 1 ≤ n
  · have hs : n - idx = (n - (idx + 1)) + 1 := by omega
    simp [hs,hle,Nat.le_of_succ_le hle,encode_cons,Nat.add_assoc]
  · rw [if_neg (by omega),if_neg (by omega)]

theorem charRangeFrom_eq (h : start ≤ stop) (idx byte : ℕ) (range : ℕ × ℕ) (value : Text) :
    charRangeFrom start stop idx byte range value = (place idx byte value range.1 start,place idx byte value range.2 stop) := by
  induction value generalizing idx byte range with
  | nil => simp [charRangeFrom,place]
  | cons c value ih =>
    have hp : ∀ known n, n ≤ idx → place (idx + 1) (byte + c.utf8Size) value known n = known := fun known n hn => if_neg (by omega)
    simp only [charRangeFrom,place_cons]
    by_cases hst : idx = stop
    · rw [if_pos hst,if_pos hst,hp range.1 start (by omega)]
    · rw [if_neg hst,if_neg hst,ih]
      by_cases hs : idx = start
      · rw [if_pos hs,if_pos hs,hp byte start (by omega)]
      · rw [if_neg hs,if_neg hs]

theorem charRangeToByteRange_eq (value : Text) (h : start ≤ stop) (hs : stop ≤ value.length) :
    charRangeToByteRange value start stop = ((encode (value.take start)).length,(encode (value.take stop)).length) := by
  have he : ∀ i ≤ value.length, (if i = value.length then (encode value).length else place 0 0 value (encode value).length i) =
      (encode (value.take i)).length := by
    intro i hi
    by_cases heq : i = value.length
    · rw [if_pos heq,heq,take_length]
    · rw [if_neg heq,place,if_pos (by omega),Nat.zero_add,Nat.sub_zero]
  rw [charRangeToByteRange,charRangeFrom_eq h]
  exact Prod.ext (he start (by omega)) (he stop hs)

section
variable {utf8 : Bool} {value : Text} {off : ℤ} {len : Option ℤ}

theorem length_characters_eq (utf8 : Bool) (value : Text) :
    (if utf8 then ((((fromUtf8 (shellStringToBytes value)).toOption.map List.length).getD (shellStringToBytes value).length : ℕ) : ℤ)
      else (shellStringToBytes value).length) = (characters utf8 value).length := by
  unfold characters
  cases utf8 with
  | false => simp
  | true => cases (fromUtf8 (shellStringToBytes value)).toOption <;> simp

theorem slice_characters (utf8 : Bool) (value : Text) (h : start ≤ stop) (hst : stop ≤ (characters utf8 value).length) :
    slice (shellStringToBytes value)
      (byteRange utf8 (fromUtf8 (shellStringToBytes value)).toOption start stop).1
      (byteRange utf8 (fromUtf8 (shellStringToBytes value)).toOption start stop).2 =
        .ok (((characters utf8 value).take stop).drop start).flatten := by
  have hb : ∀ i ≤ (shellStringToBytes value).length, ((((shellStringToBytes value).map fun b => [b]).take i).flatten).length = i := by
    intro i hi
    rw [← map_take,flatten_singletons,length_take,Nat.min_eq_left hi]
  have hp : characters utf8 value = (shellStringToBytes value).map (fun b => [b]) →
      slice (shellStringToBytes value) start stop = .ok (((characters utf8 value).take stop).drop start).flatten := by
    intro hc
    have hl : stop ≤ (shellStringToBytes value).length := by simpa [hc] using hst
    have hs := slice_flatten ((shellStringToBytes value).map fun b => [b]) h
    rwa [flatten_singletons,hb start (by omega),hb stop hl,← hc] at hs
  cases utf8 with
  | false => exact hp rfl
  | true =>
    cases ht : (fromUtf8 (shellStringToBytes value)).toOption with
    | none => simpa [byteRange] using hp (by simp [characters,ht])
    | some text =>
      have hc : characters true value = text.map String.utf8EncodeChar := by simp [characters,ht]
      have hl : stop ≤ text.length := by simpa [hc] using hst
      have hs := slice_flatten (text.map String.utf8EncodeChar) h
      rw [← map_take,← map_take,← encode_eq_flatten,← encode_eq_flatten,← encode_eq_flatten,← encode_of_toOption ht] at hs
      simpa [byteRange,charRangeToByteRange_eq text h hl,hc] using hs

theorem length_characters_le (utf8 : Bool) (value : Text) : (characters utf8 value).length ≤ (shellStringToBytes value).length := by
  rw [← flatten_characters utf8 value]
  exact length_le_length_flatten fun c => ne_nil_of_mem_characters

variable (hn : (shellStringToBytes value).length < 2 ^ 63)
include hn

theorem pushScalarSubstring_of_fits (ho : Within off) (hl : ∀ l ∈ len, Within l)
    (hf : Fits (characters utf8 value).length off len) :
    pushScalarSubstring utf8 value off len = .ok (taken (characters utf8 value) off len).flatten := by
  have hc : (characters utf8 value).length < 2 ^ 63 := Nat.lt_of_le_of_lt (length_characters_le utf8 value) hn
  have h0 := startOf_nonneg (characters utf8 value).length off
  have hst := stopOf_bounds (characters utf8 value).length off len
  have hs := slice_characters utf8 value (Int.toNat_le_toNat hst.1) (by omega)
  simp only [pushScalarSubstring,length_characters_eq]
  rw [substringStart_eq hc ho,ok_bind,if_neg (Int.not_lt.2 h0),substringStop_of_fits hc hl hf,ok_bind,
    asUsize_eq_toNat h0 (by omega),asUsize_eq_toNat (by omega) (by omega),hs,taken]

theorem pushScalarSubstring_of_not_fits (ho : Within off)
    (hf : ¬Fits (characters utf8 value).length off len) : pushScalarSubstring utf8 value off len = .error .overflow := by
  have hc : (characters utf8 value).length < 2 ^ 63 := Nat.lt_of_le_of_lt (length_characters_le utf8 value) hn
  simp only [pushScalarSubstring,length_characters_eq]
  rw [substringStart_eq hc ho,ok_bind,if_neg (Int.not_lt.2 (startOf_nonneg _ off)),substringStop_of_not_fits hf]
  rfl

theorem pushScalarSubstring_iff (ho : Within off) (hl : ∀ l ∈ len, Within l) :
    pushScalarSubstring utf8 value off len = .ok (lawful (characters utf8 value) off len).flatten ↔
      NotBefore (characters utf8 value).length off len ∧ Fits (characters utf8 value).length off len := by
  by_cases hf : Fits (characters utf8 value).length off len
  · rw [pushScalarSubstring_of_fits hn ho hl hf,← taken_eq_lawful_iff,and_iff_left hf,Except.ok.injEq]
    constructor
    · intro hfl
      by_cases hb : -((characters utf8 value).length : ℤ) ≤ off
      · exact taken_eq_lawful len hb
      · rw [lawful_of_lt len (by omega)] at hfl ⊢
        refine eq_nil_iff_forall_not_mem.2 fun c hc => ?_
        have hm := mem_of_mem_take (mem_of_mem_drop hc)
        exact ne_nil_of_mem_characters hm (flatten_eq_nil_iff.1 hfl c hc)
    · exact congrArg List.flatten
  · rw [pushScalarSubstring_of_not_fits hn ho hf]
    exact ⟨nofun,fun h => absurd h.2 hf⟩

theorem pushScalarSubstring_halves (hk : k ≤ (characters utf8 value).length) :
    ∃ front back, pushScalarSubstring utf8 value 0 (some k) = .ok front ∧ pushScalarSubstring utf8 value k none = .ok back ∧
      front ++ back = shellStringToBytes value := by
  have hc := length_characters_le utf8 value
  have hw : Within k := by
    unfold Within
    omega
  have hz : Within 0 := by decide
  have hfi : Fits (characters utf8 value).length 0 (some k) := by
    rintro l ⟨⟩ -
    have hle : startOf (characters utf8 value).length 0 = 0 := by
      unfold startOf
      split <;> omega
    omega
  have hf := pushScalarSubstring_of_fits hn hz (by rintro l ⟨⟩; exact hw) hfi
  have hb : pushScalarSubstring utf8 value k none = _ := pushScalarSubstring_of_fits hn hw nofun nofun
  refine ⟨_,_,hf,hb,?_⟩
  rw [taken_front hk,taken_back hk,← flatten_append,take_append_drop,flatten_characters]
end

section
variable {α : Type} {off : ℤ} {len : Option ℤ}

/-- The elements of an indexed array, as they are listed: by increasing index. -/
structure Elements (α : Type) where
  items : List (ℤ × α)
  bounds : ∀ p ∈ items, 0 ≤ p.1 ∧ p.1 < 2 ^ 63
  sorted : items.Pairwise fun p q => p.1 < q.1

def Elements.extent (e : Elements α) : ℤ := ((e.items.map Prod.fst).max?.map (· + 1)).getD 0

/-- The elements from the index an offset stands for, as many as the length says. -/
def Elements.lawful (e : Elements α) (off : ℤ) (len : Option ℤ) : List α :=
  let start := if 0 ≤ off then off else e.extent + off
  if start < 0 ∨ e.extent < start then []
  else
    let values := (e.items.filter fun p => start ≤ p.1).map Prod.snd
    (len.map fun l => values.take l.toNat).getD values

theorem rejectNegative_of_nonneg (hl : ∀ l ∈ len, 0 ≤ l) (lenExpr : Option Text) :
    rejectNegativeArraySubstringLen len lenExpr = .ok () := by
  cases len with
  | none => rfl
  | some l => exact if_neg (Int.not_lt.2 (hl l rfl))

theorem take_eq {values : List α} (hle : ∀ l ∈ len, 0 ≤ l ∧ Within l) (hln : values.length < 2 ^ 63) :
    values.take (asUsize (arrayTake values.length len)) = (len.map fun l => values.take l.toNat).getD values := by
  cases len with
  | none =>
    rw [arrayTake,asUsize_eq_toNat (by omega) (by omega),Int.toNat_natCast,take_length]
    rfl
  | some l =>
    obtain ⟨h0,hl⟩ := hle l rfl
    unfold Within at hl
    rw [arrayTake,if_neg (by omega),Int.max_eq_left h0,asUsize_eq_toNat h0 (by omega)]
    rfl

theorem taken_values_eq_nil_iff {values : List α} (hl : ∀ l ∈ len, 0 ≤ l ∧ Within l) (hne : values ≠ []) :
    (len.map fun l => values.take l.toNat).getD values = [] ↔ len = some 0 := by
  cases len with
  | none => simpa using hne
  | some l =>
    have h0 := (hl l rfl).1
    simp only [Option.map_some,Option.getD_some,take_eq_nil_iff,hne,or_false,Option.some.injEq]
    omega

theorem firstIndex_of_nonneg (h : 0 ≤ off) : firstIndex maxIndex off = .ok off := if_neg (Int.not_lt.2 h)

theorem firstIndex_of_neg (hm : 0 ≤ maxIndex) (hof : Within off) (h : off < 0) :
    firstIndex maxIndex off = if maxIndex + 1 < 2 ^ 63 then .ok (max (maxIndex + 1 + off) 0) else .error .overflow := by
  unfold Within at hof
  rw [firstIndex,if_pos h]
  by_cases hf : maxIndex + 1 < 2 ^ 63
  · have ho : Within (maxIndex + 1) := by
      unfold Within
      omega
    have ht : Within (maxIndex + 1 + off) := by
      unfold Within
      omega
    rw [if_pos hf,addI64_of_within ho,ok_bind,addI64_of_within ht]
    rfl
  · have ho : ¬Within (maxIndex + 1) := by
      unfold Within
      omega
    rw [if_neg hf,addI64,if_neg ho]
    rfl

theorem indexedArraySubstringElems_iff (e : Elements α) (hlg : e.items.length < 2 ^ 63) (ho : Within off)
    (hln : ∀ l ∈ len, 0 ≤ l ∧ Within l) (lenExpr : Option Text) :
    indexedArraySubstringElems e.items off len lenExpr = .ok (e.lawful off len) ↔
      (-e.extent ≤ off ∨ e.items = [] ∨ len = some 0) ∧ (off < 0 → e.extent < 2 ^ 63) := by
  rw [indexedArraySubstringElems,rejectNegative_of_nonneg fun l hl => (hln l hl).1,ok_bind]
  cases hm : (e.items.map Prod.fst).max? with
  | none =>
    have hni : e.items = [] := by simpa using hm
    have he : e.extent = 0 := by rw [Elements.extent,hm]; rfl
    have hla : e.lawful off len = [] := by
      cases len <;> simp [Elements.lawful,hni]
    rw [hla,he]
    exact ⟨fun _ => ⟨.inr (.inl hni),fun _ => by omega⟩,fun _ => rfl⟩
  | some m =>
    have he : e.extent = m + 1 := by rw [Elements.extent,hm]; rfl
    obtain ⟨hme,hle⟩ := List.max?_eq_some_iff.1 hm
    obtain ⟨p,hp,rfl⟩ := mem_map.1 hme
    have hbo := e.bounds p hp
    have hls : ∀ q ∈ e.items, q.1 ≤ p.1 := fun q hq => hle _ (mem_map_of_mem hq)
    have hne : e.items ≠ [] := ne_nil_of_mem hp
    have hv : ∀ start : ℤ, ((e.items.filter fun q => start ≤ q.1).map Prod.snd).length < 2 ^ 63 := fun start =>
      Nat.lt_of_le_of_lt (by simpa using length_filter_le _ e.items) hlg
    dsimp only
    by_cases hng : off < 0
    · rw [firstIndex_of_neg hbo.1 ho hng]
      by_cases hf : p.1 + 1 < 2 ^ 63
      · rw [if_pos hf,ok_bind,take_eq hln (hv _)]
        by_cases hb : 0 ≤ p.1 + 1 + off
        · rw [Int.max_eq_left hb,Elements.lawful,he,if_neg (Int.not_le.2 hng),if_neg (by omega)]
          exact ⟨fun _ => ⟨.inl (by omega),fun _ => by omega⟩,fun _ => rfl⟩
        · have hla : e.lawful off len = [] := by
            rw [Elements.lawful,he,if_neg (Int.not_le.2 hng),if_pos (.inl (by omega))]
          have ha := filter_eq_self.2 fun q hq => decide_eq_true (e.bounds q hq).1
          have hv' : (e.items.map Prod.snd) ≠ [] := by simpa using hne
          rw [Int.max_eq_right (by omega),ha,hla]
          have hi := taken_values_eq_nil_iff hln hv'
          constructor
          · intro hok
            exact ⟨.inr (.inr (hi.1 (Except.ok.inj hok))),fun _ => by omega⟩
          · rintro ⟨hor,-⟩
            have hz : len = some 0 := (hor.resolve_left (by omega)).resolve_left hne
            exact congrArg Except.ok (hi.2 hz)
      · rw [if_neg hf]
        exact ⟨nofun,fun h => absurd (he ▸ h.2 hng) hf⟩
    · have hpo : 0 ≤ off := by omega
      rw [firstIndex_of_nonneg hpo,ok_bind,take_eq hln (hv _)]
      refine ⟨fun _ => ⟨.inl (by omega),fun h => absurd h hng⟩,fun _ => congrArg Except.ok ?_⟩
      simp only [Elements.lawful,he,if_pos hpo]
      by_cases hbe : p.1 + 1 < off
      · have hno : (e.items.filter fun q => off ≤ q.1) = [] :=
          filter_eq_nil_iff.2 fun q hq => by simpa using Int.lt_of_le_of_lt (hls q hq) (by omega)
        rw [if_pos (.inr hbe),hno]
        cases len <;> simp
      · rw [if_neg (by omega)]

theorem assocSubstringElems_iff (elems : List α) (hlg : elems.length < 2 ^ 63) (ho : Within off)
    (hln : ∀ l ∈ len, 0 ≤ l ∧ Within l) (lenExpr : Option Text) :
    assocSubstringElems elems off len lenExpr = .ok (lawful elems off len) ↔
      NotBefore elems.length off len ∧ Fits elems.length off len := by
  have h0 := startOf_nonneg elems.length off
  have hle := startOf_le elems.length off
  rw [assocSubstringElems,rejectNegative_of_nonneg fun l hl => (hln l hl).1,ok_bind]
  dsimp only
  rw [substringStart_eq hlg ho,ok_bind]
  by_cases hf : Fits elems.length off len
  · have hs : Within (startOf elems.length off + assocTake elems.length (startOf elems.length off) len) := by
      cases len with
      | none =>
        rw [assocTake]
        unfold Within
        omega
      | some l =>
        obtain ⟨hl,-⟩ := hln l rfl
        have hfi := hf l rfl hl
        rw [assocTake,if_neg (by omega)]
        unfold Within
        omega
    have hst : max (min (startOf elems.length off + assocTake elems.length (startOf elems.length off) len) elems.length)
        (startOf elems.length off) = stopOf elems.length (startOf elems.length off) len := by
      cases len with
      | none =>
        rw [assocTake,stopOf]
        omega
      | some l =>
        obtain ⟨hl,-⟩ := hln l rfl
        rw [assocTake,stopOf,if_neg (by omega),if_neg (by omega)]
        omega
    have hb := stopOf_bounds elems.length off len
    rw [addI64_of_within hs,ok_bind,hst,asUsize_eq_toNat h0 (by omega),asUsize_eq_toNat (by omega) (by omega),
      slice_eq_ok (Int.toNat_le_toNat hb.1) (by omega),Except.ok.injEq,and_iff_left hf]
    exact taken_eq_lawful_iff elems off len
  · have hs : addI64 (startOf elems.length off) (assocTake elems.length (startOf elems.length off) len) = .error .overflow := by
      obtain ⟨l,rfl,hl,hs⟩ := overflow_of_not_fits hf
      rw [assocTake,if_neg (by omega),hs]
    rw [hs]
    exact ⟨(by cases ·),fun h => absurd h.2 hf⟩
end

section
variable (ar : Arithmetic) (name : Text) {offset : Bytes}

def isFlat (b : UInt8) : Bool := !isOpening b && !isClosing b && b ≠ '?' && b ≠ ':'

variable (h : offset.all isFlat)
include h

theorem splitOffset_append (tail : Bytes) :
    splitOffset 0 0 (offset ++ tail) = (offset ++ (splitOffset 0 0 tail).1,(splitOffset 0 0 tail).2) := by
  induction offset with
  | nil => rfl
  | cons b offset ih =>
    simp only [all_cons,Bool.and_eq_true,isFlat,Bool.not_eq_eq_eq_not,Bool.not_true,ne_eq,decide_not,decide_eq_false_iff_not] at h
    obtain ⟨⟨⟨⟨ho,hcl⟩,hc⟩,hco⟩,hm⟩ := h
    simp [splitOffset,ho,hcl,hc,hco,ih hm]

theorem splitOffset_flat : splitOffset 0 0 offset = (offset,none) := by
  simpa [splitOffset] using splitOffset_append h []

theorem splitOffset_colon (length : Bytes) :
    splitOffset 0 0 (offset ++ ':'.toUInt8 :: length) = (offset,some length) := by
  simpa +decide [splitOffset] using splitOffset_append h (':' :: length)

omit h

/-- The two numbers an operator's text stands for. -/
inductive Bounds : Bytes → ℤ → Option ℤ → Prop
  | offset {offset : Bytes} {off : ℤ} (hflat : offset.all isFlat) (hne : offset ≠ []) (hoff : evalPart ar name (textOf offset) = .ok off) :
      Bounds offset off none
  | length {offset length : Bytes} {off len : ℤ} (hflat : offset.all isFlat) (hoff : evalPart ar name (textOf offset) = .ok off)
      (hlen : evalPart ar name (textOf length) = .ok len) : Bounds (offset ++ ':'.toUInt8 :: length) off (some len)

variable {ar name} {rest : Bytes} {off : ℤ} {len : Option ℤ}

theorem Bounds.eq (h : Bounds ar name rest off len) (hna : name ≠ ['#']) :
    ∃ lenExpr, substringBounds ar name rest = .ok (off,len,lenExpr) := by
  cases h with
  | offset hf hne ho =>
    refine ⟨none,?_⟩
    simp only [substringBounds,if_neg hne,hna,false_and,if_false,splitOffset_flat hf,ho]
    rfl
  | @length offset length off len hf ho hl =>
    refine ⟨some (textOf length),?_⟩
    have hne : offset ++ ':'.toUInt8 :: length ≠ [] := by simp
    simp only [substringBounds,if_neg hne,hna,false_and,if_false,splitOffset_colon hf,ho,hl]
    rfl
end

theorem map_value_eq_iff {result : Outcome Bytes} :
    (Pushed.value <$> result : Outcome Pushed) = .ok (.value bytes) ↔ result = .ok bytes := by
  cases result with
  | error e => exact ⟨nofun,nofun⟩
  | ok b => simp [Functor.map,Except.map]

theorem map_elements_eq_iff {result : Outcome (List Text)} {elems : List Text} :
    (Pushed.elements <$> result : Outcome Pushed) = .ok (.elements elems) ↔ result = .ok elems := by
  cases result with
  | error e => exact ⟨nofun,nofun⟩
  | ok b => simp [Functor.map,Except.map]

/-- A value or an array that can be held in memory. -/
def Operand.Small : Operand → Prop
  | .scalar value => (shellStringToBytes value).length < 2 ^ 63
  | .indexed elems => elems.length < 2 ^ 63
  | .assoc elems => elems.length < 2 ^ 63
  | .unset => True

/-- The substring operator over every parameter, offset and length. -/
theorem handleSubstring_law (ar : Arithmetic) (utf8 : Bool) (name : Text) (hname : name ≠ ['#']) :
    (∀ value rest off len, Operand.Small (.scalar value) → Bounds ar name rest off len → Within off → (∀ l ∈ len, Within l) →
      (handleSubstring ar utf8 name rest (.scalar value) = .ok (.value (lawful (characters utf8 value) off len).flatten) ↔
        NotBefore (characters utf8 value).length off len ∧ Fits (characters utf8 value).length off len)) ∧
    (∀ (e : Elements Text) rest off len, Operand.Small (.indexed e.items) → Bounds ar name rest off len → Within off →
      (∀ l ∈ len, 0 ≤ l ∧ Within l) →
      (handleSubstring ar utf8 name rest (.indexed e.items) = .ok (.elements (e.lawful off len)) ↔
        (-e.extent ≤ off ∨ e.items = [] ∨ len = some 0) ∧ (off < 0 → e.extent < 2 ^ 63))) ∧
    (∀ elems rest off len, Operand.Small (.assoc elems) → Bounds ar name rest off len → Within off → (∀ l ∈ len, 0 ≤ l ∧ Within l) →
      (handleSubstring ar utf8 name rest (.assoc elems) = .ok (.elements (lawful elems off len)) ↔
        NotBefore elems.length off len ∧ Fits elems.length off len)) ∧
    ∀ value (k : ℕ) front back, Operand.Small (.scalar value) → k ≤ (characters utf8 value).length →
      Bounds ar name front 0 (some k) → Bounds ar name back k none →
      ∃ first second, handleSubstring ar utf8 name front (.scalar value) = .ok (.value first) ∧
        handleSubstring ar utf8 name back (.scalar value) = .ok (.value second) ∧ first ++ second = shellStringToBytes value := by
  refine ⟨?_,?_,?_,?_⟩
  · intro value rest off len hsmall hbounds hoff hlen
    obtain ⟨lenExpr,heq⟩ := hbounds.eq hname
    rw [handleSubstring,heq,ok_bind,← pushScalarSubstring_iff hsmall hoff hlen]
    exact map_value_eq_iff
  · intro e rest off len hsmall hbounds hoff hlen
    obtain ⟨lenExpr,heq⟩ := hbounds.eq hname
    rw [handleSubstring,heq,ok_bind,← indexedArraySubstringElems_iff e hsmall hoff hlen lenExpr]
    exact map_elements_eq_iff
  · intro elems rest off len hsmall hbounds hoff hlen
    obtain ⟨lenExpr,heq⟩ := hbounds.eq hname
    rw [handleSubstring,heq,ok_bind,← assocSubstringElems_iff elems hsmall hoff hlen lenExpr]
    exact map_elements_eq_iff
  · intro value k front back hsmall hk hfront hback
    obtain ⟨lenExpr,heq⟩ := hfront.eq hname
    obtain ⟨lenExpr',heq'⟩ := hback.eq hname
    obtain ⟨first,second,hfirst,hsecond,happend⟩ := pushScalarSubstring_halves hsmall hk
    refine ⟨first,second,?_,?_,happend⟩
    · rw [handleSubstring,heq,ok_bind]
      simp only [hfirst]
      rfl
    · rw [handleSubstring,heq',ok_bind]
      simp only [hsecond]
      rfl

def decimal : Arithmetic where
  expand text := .ok text
  eval name text := ((Arith.parseI64 (Arith.trim text)).map .ok).getD (.error (.arithmetic name))

theorem handleSubstring_from_one : handleSubstring decimal false ['v'] ['1'] (.scalar "abc") = .ok (.value ['b','c']) :=
  ((handleSubstring_law decimal false ['v'] (by decide)).1 "abc" ['1'] 1 none (by rw [Operand.Small]; decide)
    (.offset (by decide) (by decide) (by decide +kernel)) (by decide) nofun).2 ⟨.inl (by decide),nofun⟩

/-- `${v: -4}` of `abc` is the whole value, and `${v:1:9223372036854775807}` overflows. -/
theorem offset_before_the_beginning :
    handleSubstring decimal false ['v'] (" -4".toList.map Char.toUInt8) (.scalar "abc".toList) =
        .ok (.value ("abc".toList.map Char.toUInt8)) ∧
      (lawful (characters false "abc") (-4) none).flatten = [] ∧
      handleSubstring decimal false ['v'] ("1:9223372036854775807".toList.map Char.toUInt8) (.scalar "abc".toList) =
        .error .overflow := by
  refine ⟨by decide +kernel,by decide +kernel,by decide +kernel⟩
end Cherubsh.Expander.Substring
