import Mathlib.Algebra.Ring.Int.Defs
import Mathlib.Algebra.Ring.Nat
import Mathlib.Data.List.Basic

/-! # Checking bytes for UTF-8

`fromUtf8` reads characters off the front of a byte string until none is left or no
character starts there. It then says how far it came and how many bytes the wrong
sequence has; no number means that the bytes end inside a sequence that was right so far.
-/
namespace Utf8
open List
open String (utf8EncodeChar)
variable {bytes rest : Bytes} {c a : Char} {b : UInt8} {s : List Char}

abbrev Bytes := List UInt8

instance charByte : Coe Char UInt8 := ⟨Char.toUInt8⟩

/-- What holds of the characters of a text is decided on the text, not over all characters. -/
instance decidableForallChars (p : Char → Prop) [DecidablePred p] (l : List Char) : Decidable (∀ c ∈ l, p c) :=
  List.decidableBAll p l

instance decidableForallBytes (p : UInt8 → Prop) [DecidablePred p] (l : List UInt8) : Decidable (∀ b ∈ l, p b) :=
  List.decidableBAll p l

instance decidableMemTexts (t : List Char) (l : List (List Char)) : Decidable (t ∈ l) := inferInstance

theorem toNat_of_isAlpha (h : c.isAlpha) : 65 ≤ c.toNat ∧ c.toNat ≤ 90 ∨ 97 ≤ c.toNat ∧ c.toNat ≤ 122 := by
  change (decide (65 ≤ c.val ∧ c.val ≤ 90) || (decide (97 ≤ c.val) && decide (c.val ≤ 122))) = true at h
  simp only [Bool.or_eq_true,Bool.and_eq_true,decide_eq_true_eq,UInt32.le_iff_toNat_le] at h
  exact h

theorem forall_byte {p : UInt8 → Prop} (h : ∀ n : Fin 256, p (.ofFin n)) (b : UInt8) : p b := h b.toFin

def firstChar? (bytes : Bytes) : Option Char := bytes.toByteArray.utf8DecodeChar? 0

theorem firstChar?_append (c : Char) (rest : Bytes) : firstChar? (utf8EncodeChar c ++ rest) = some c := by
  unfold firstChar?
  rw [toByteArray_append]
  exact ByteArray.utf8DecodeChar?_utf8EncodeChar_append

theorem firstChar?_eq_some_iff :
    firstChar? bytes = some c ↔ ∃ rest, bytes = utf8EncodeChar c ++ rest := by
  constructor
  · intro h
    obtain ⟨rest,hr⟩ := ByteArray.exists_of_utf8DecodeChar?_eq_some h
    refine ⟨rest.data.toList,?_⟩
    have hd := congrArg (fun b => b.data.toList) hr
    simpa [ByteArray.data_append] using hd
  · rintro ⟨rest,rfl⟩
    exact firstChar?_append c rest

def isContinuation (b : UInt8) : Bool := 0x80 ≤ b && b ≤ 0xBF

/-- How many bytes a character that starts with this byte has; 0 when none does. -/
def charWidth (b : UInt8) : ℕ :=
  if b < 0x80 then 1
  else if 0xC2 ≤ b ∧ b ≤ 0xDF then 2
  else if 0xE0 ≤ b ∧ b ≤ 0xEF then 3
  else if 0xF0 ≤ b ∧ b ≤ 0xF4 then 4
  else 0

def secondAllowed (first second : UInt8) : Bool :=
  if first = 0xE0 then 0xA0 ≤ second && second ≤ 0xBF
  else if first = 0xED then 0x80 ≤ second && second ≤ 0x9F
  else if first = 0xF0 then 0x90 ≤ second && second ≤ 0xBF
  else if first = 0xF4 then 0x80 ≤ second && second ≤ 0x8F
  else isContinuation second

/-- The number of bytes to leave out where no character starts. -/
def errorLen : Bytes → Option ℕ
  | [] => none
  | first :: rest =>
    if charWidth first < 2 then some 1
    else match rest with
    | [] => none
    | second :: rest =>
      if !secondAllowed first second then some 1
      else match rest with
      | [] => none
      | third :: rest =>
        if !isContinuation third then some 2
        else match rest with
        | [] => none
        | _ => some 3

/-- The characters of the bytes, or how far they go and how long the wrong sequence is. -/
def fromUtf8With : ℕ → Bytes → Except (ℕ × Option ℕ) (List Char)
  | 0, _ => .ok []
  | _ + 1, [] => .ok []
  | fuel + 1, bytes =>
    match firstChar? bytes with
    | none => .error (0,errorLen bytes)
    | some c =>
      match fromUtf8With fuel (bytes.drop c.utf8Size) with
      | .ok s => .ok (c :: s)
      | .error (validUpTo,len) => .error (c.utf8Size + validUpTo,len)

def fromUtf8 (bytes : Bytes) : Except (ℕ × Option ℕ) (List Char) := fromUtf8With bytes.length bytes

/-- `from_utf8_lossy`: every invalid part becomes a replacement character. -/
def fromUtf8LossyWith : ℕ → Bytes → List Char
  | 0, _ => []
  | fuel + 1, bytes =>
    match fromUtf8 bytes with
    | .ok text => text
    | .error (validUpTo,errorLen) =>
      (fromUtf8 (bytes.take validUpTo)).toOption.getD [] ++
        Char.ofNat 0xFFFD :: fromUtf8LossyWith fuel (bytes.drop (validUpTo + errorLen.getD bytes.length))

def fromUtf8Lossy (bytes : Bytes) : List Char := fromUtf8LossyWith bytes.length bytes

def encode (s : List Char) : Bytes := s.flatMap utf8EncodeChar

@[simp] theorem encode_nil : encode [] = [] := rfl
@[simp] theorem encode_cons (c : Char) (s : List Char) : encode (c :: s) = utf8EncodeChar c ++ encode s := rfl

@[simp] theorem encode_append (s t : List Char) : encode (s ++ t) = encode s ++ encode t := flatMap_append

theorem drop_utf8Size (c : Char) (rest : Bytes) : (utf8EncodeChar c ++ rest).drop c.utf8Size = rest := by
  rw [← String.length_utf8EncodeChar,drop_left]

theorem fromUtf8With_append (fuel : ℕ) (c : Char) (rest : Bytes) :
    fromUtf8With (fuel + 1) (utf8EncodeChar c ++ rest) =
      match fromUtf8With fuel rest with
      | .ok s => .ok (c :: s)
      | .error (validUpTo,len) => .error (c.utf8Size + validUpTo,len) := by
  rw [fromUtf8With.eq_3 _ _ (by simp),firstChar?_append]
  simp only [drop_utf8Size]

theorem length_append_lt (c : Char) (rest : Bytes) : rest.length < (utf8EncodeChar c ++ rest).length := by
  rw [length_append,String.length_utf8EncodeChar]
  exact Nat.lt_add_of_pos_left c.utf8Size_pos

theorem fromUtf8_encode (s : List Char) : fromUtf8 (encode s) = .ok s := by
  have hr : ∀ fuel, (encode s).length ≤ fuel → fromUtf8With fuel (encode s) = .ok s := by
    induction s with
    | nil => rintro (_ | fuel) _ <;> rfl
    | cons c s ih =>
      intro fuel hf
      have hlt := length_append_lt c (encode s)
      rw [encode_cons] at hf ⊢
      obtain ⟨fuel,rfl⟩ := Nat.exists_eq_add_one_of_ne_zero (n := fuel) (by omega)
      rw [fromUtf8With_append,ih fuel (by omega)]
  exact hr _ le_rfl

theorem fromUtf8_cases (bytes : Bytes) :
    (∃ s, fromUtf8 bytes = .ok s ∧ bytes = encode s) ∨
      ∃ s rest, fromUtf8 bytes = .error ((encode s).length,errorLen rest) ∧ bytes = encode s ++ rest ∧ rest ≠ [] ∧
        firstChar? rest = none := by
  have hr : ∀ fuel bytes, bytes.length ≤ fuel → (∃ s, fromUtf8With fuel bytes = .ok s ∧ bytes = encode s) ∨
      ∃ s rest, fromUtf8With fuel bytes = .error ((encode s).length,errorLen rest) ∧ bytes = encode s ++ rest ∧
        rest ≠ [] ∧ firstChar? rest = none := by
    intro fuel
    induction fuel with
    | zero => exact fun bytes hfu => .inl ⟨[],rfl,length_eq_zero_iff.mp (Nat.le_zero.mp hfu)⟩
    | succ fuel ih =>
      intro bytes hfu
      by_cases hn : bytes = []
      · exact .inl ⟨[],by rw [hn]; rfl,hn⟩
      cases hf : firstChar? bytes with
      | none =>
        refine .inr ⟨[],bytes,?_,rfl,hn,hf⟩
        rw [fromUtf8With.eq_3 _ _ hn,hf]
        rfl
      | some c =>
        obtain ⟨rest,rfl⟩ := firstChar?_eq_some_iff.mp hf
        have hlt := length_append_lt c rest
        rw [fromUtf8With_append]
        rcases ih rest (by omega) with ⟨s,hr,rfl⟩ | ⟨s,rest',hr,rfl,hne,hno⟩
        · exact .inl ⟨c :: s,by rw [hr],rfl⟩
        · refine .inr ⟨c :: s,rest',?_,by rw [encode_cons,append_assoc],hne,hno⟩
          rw [hr,encode_cons,length_append,String.length_utf8EncodeChar]
  exact hr _ bytes le_rfl

theorem encode_of_fromUtf8 (h : fromUtf8 bytes = .ok s) : bytes = encode s := by
  obtain ⟨_,hs,he⟩ | ⟨_,_,hs,-⟩ := fromUtf8_cases bytes
  · cases h.symm.trans hs
    exact he
  · cases h.symm.trans hs

theorem isContinuation_of_mem_tail {c : Char} {b : UInt8} (h : b ∈ (utf8EncodeChar c).tail) :
    isContinuation b := by
  have hl : ∀ n : ℕ, isContinuation (UInt8.ofNat (n % 64 + 128)) := by
    intro n
    have hv : (UInt8.ofNat (n % 64 + 128)).toNat = n % 64 + 128 := by
      rw [UInt8.toNat_ofNat']
      omega
    unfold isContinuation
    rw [Bool.and_eq_true,decide_eq_true_iff,decide_eq_true_iff,UInt8.le_iff_toNat_le,UInt8.le_iff_toNat_le,hv]
    exact ⟨Nat.le_add_left _ _,by change _ ≤ 191; omega⟩
  unfold utf8EncodeChar at h
  dsimp only at h
  split at h
  · simp at h
  split at h
  · simp only [tail_cons,mem_singleton] at h
    exact h ▸ hl _
  split at h
  · simp only [tail_cons,mem_cons,not_mem_nil,or_false] at h
    rcases h with rfl | rfl <;> exact hl _
  · simp only [tail_cons,mem_cons,not_mem_nil,or_false] at h
    rcases h with rfl | rfl | rfl <;> exact hl _

theorem lead_of_multibyte (h : 1 < (utf8EncodeChar c).length) :
    ∃ b rest, utf8EncodeChar c = b :: rest ∧ 0xC0 ≤ b := by
  have hl : ∀ n : ℕ, 192 ≤ n → n < 256 → 0xC0 ≤ UInt8.ofNat n := by
    intro n hlo hh
    rw [UInt8.le_iff_toNat_le,UInt8.toNat_ofNat',Nat.mod_eq_of_lt hh]
    exact hlo
  unfold utf8EncodeChar at *
  by_cases ho : c.val.toNat ≤ 127
  · rw [if_pos ho] at h
    exact absurd h (by simp)
  rw [if_neg ho]
  split
  · exact ⟨_,_,rfl,hl _ (by omega) (by omega)⟩
  split
  · exact ⟨_,_,rfl,hl _ (by omega) (by omega)⟩
  · exact ⟨_,_,rfl,hl _ (by omega) (by omega)⟩

theorem high_of_multibyte (h : 1 < (utf8EncodeChar c).length) (hb : b ∈ utf8EncodeChar c) : 0x80 ≤ b := by
  obtain ⟨lead,tail,hc,hl⟩ := lead_of_multibyte h
  rw [hc,mem_cons] at hb
  obtain rfl | hb := hb
  · exact UInt8.le_trans (by decide) hl
  · have hco := isContinuation_of_mem_tail (c := c) (by rw [hc]; exact hb)
    simp only [isContinuation,Bool.and_eq_true,decide_eq_true_eq] at hco
    exact hco.1

theorem ascii_of_single (h : ¬1 < (utf8EncodeChar c).length) :
    ∃ b, utf8EncodeChar c = [b] ∧ b.toNat = c.val.toNat ∧ b < 0x80 := by
  have ho : c.utf8Size = 1 := by
    have := c.utf8Size_pos
    rw [String.length_utf8EncodeChar] at h
    omega
  have hl := ho
  rw [Char.utf8Size_eq_one_iff,UInt32.le_iff_toNat_le] at hl
  change c.val.toNat ≤ 127 at hl
  have hm := UInt32.toNat_toUInt8 c.val
  refine ⟨_,String.utf8EncodeChar_eq_singleton ho,by omega,?_⟩
  rw [UInt8.lt_iff_toNat_lt]
  change _ < 128
  omega

theorem isContinuation_head (h : utf8EncodeChar c = b :: rest) : isContinuation b = false := by
  by_cases hl : 1 < (utf8EncodeChar c).length
  · obtain ⟨_,_,heq,hb⟩ := lead_of_multibyte hl
    cases h.symm.trans heq
    unfold isContinuation
    grind
  · obtain ⟨_,heq,-,hb⟩ := ascii_of_single hl
    cases h.symm.trans heq
    unfold isContinuation
    grind

theorem firstChar?_continuation (h : isContinuation b) : firstChar? (b :: rest) = none := by
  by_contra hs
  obtain ⟨c,hc⟩ := Option.ne_none_iff_exists'.mp hs
  obtain ⟨after,ha⟩ := firstChar?_eq_some_iff.mp hc
  cases hb : utf8EncodeChar c with
  | nil => simp at hb
  | cons d tail =>
    rw [hb] at ha
    obtain rfl := (List.cons.inj ha).1
    rw [isContinuation_head hb] at h
    cases h

theorem firstChar?_lead (hl : 1 < (utf8EncodeChar c).length) {tail : Bytes}
    (hc : utf8EncodeChar c = b :: tail) (hr : ∀ x ∈ rest.head?, isContinuation x = false) :
    firstChar? (b :: rest) = none := by
  by_contra hs
  obtain ⟨d,hd⟩ := Option.ne_none_iff_exists'.mp hs
  obtain ⟨after,ha⟩ := firstChar?_eq_some_iff.mp hd
  obtain ⟨_,_,heq,hb⟩ := lead_of_multibyte hl
  cases hc.symm.trans heq
  by_cases hl' : 1 < (utf8EncodeChar d).length
  · match hby : utf8EncodeChar d with
    | [] | [_] => simp [hby] at hl'
    | _ :: second :: more =>
      have hco : isContinuation second := isContinuation_of_mem_tail (c := d) (by simp [hby])
      rw [hby] at ha
      cases ha
      simp [hco] at hr
  · obtain ⟨_,heq',-,hlo⟩ := ascii_of_single hl'
    rw [heq'] at ha
    cases ha
    grind

theorem mem_utf8EncodeChar (ha : utf8EncodeChar a = [b]) : b ∈ utf8EncodeChar c ↔ c = a := by
  constructor
  · intro h
    obtain ⟨_,heq,hv,hlo⟩ := ascii_of_single (c := a) (by simp [ha])
    cases ha.symm.trans heq
    by_cases hl : 1 < (utf8EncodeChar c).length
    · obtain ⟨first,rest,heq,hf⟩ := lead_of_multibyte hl
      rw [heq,mem_cons] at h
      obtain rfl | h := h
      · exact absurd hf (by grind)
      · have hco : isContinuation b := isContinuation_of_mem_tail (c := c) (by rw [heq]; exact h)
        rw [isContinuation_head ha] at hco
        cases hco
    · obtain ⟨_,heq,hc,-⟩ := ascii_of_single hl
      rw [heq,mem_singleton] at h
      subst h
      exact Char.ext (UInt32.toNat_inj.mp (hc.symm.trans hv))
  · rintro rfl
    simp [ha]

theorem mem_encode (ha : utf8EncodeChar a = [b]) : b ∈ encode s ↔ a ∈ s := by
  simp [encode,mem_utf8EncodeChar ha]

theorem zero_mem_utf8EncodeChar : 0 ∈ utf8EncodeChar c ↔ c = '\x00' := mem_utf8EncodeChar rfl

theorem zero_mem_encode : 0 ∈ encode s ↔ '\x00' ∈ s := mem_encode rfl

theorem isContinuation_of_secondAllowed {first second : UInt8} (h : secondAllowed first second) :
    isContinuation second := by
  unfold secondAllowed isContinuation at *
  grind

def invalidLen (bytes : Bytes) : ℕ := Nat.min ((errorLen bytes).getD bytes.length) bytes.length

theorem invalidLen_pos (h : bytes ≠ []) : 0 < invalidLen bytes := by
  have hl := length_pos_iff.mpr h
  unfold invalidLen
  rw [Nat.lt_min]
  refine ⟨?_,hl⟩
  unfold errorLen
  grind

theorem forall_mem_invalid (bytes : Bytes) :
    ∀ b ∈ (bytes.take (invalidLen bytes)).tail, isContinuation b := by
  unfold invalidLen
  fun_cases errorLen bytes with
  | case1 => simp
  | case2 first rest hw => simp
  | case3 first hw => simp
  | case4 first hw second rest hs => simp
  | case5 first hw second hs | case6 first hw second hs third rest ht =>
    simpa using isContinuation_of_secondAllowed (by simpa using hs)
  | case7 first hw second hs third ht | case8 first hw second hs third rest ht hr =>
    have hs' := isContinuation_of_secondAllowed (by simpa using hs)
    simpa using ⟨hs',by simpa using ht⟩
end Utf8
