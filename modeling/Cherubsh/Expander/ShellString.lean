import Cherubsh.Library.Utf8

/-! # Byte strings as shell strings

Decoding takes every character of the private block for a byte, so exactly the byte strings
without such a character come back.
-/
namespace Cherubsh.Expander.ShellString
open Utf8 List
open String (utf8EncodeChar)
variable {b : UInt8} {bytes tail rest : Bytes}

def rawByteBase : ℕ := 0xF0000

def charFromU32 (n : ℕ) : Option Char := if n.isValidChar then some (Char.ofNat n) else none

def pushRawByteMarker (out : List Char) (byte : UInt8) : List Char :=
  match charFromU32 (rawByteBase + byte.toNat) with
  | some ch => out ++ [ch]
  | none => out

def bytesToShellStringFrom : ℕ → List Char → Bytes → List Char
  | 0, out, _ => out
  | fuel + 1, out, bytes =>
    if bytes = [] then out
    else match fromUtf8 bytes with
    | .ok valid => out ++ valid
    | .error (validUpTo,errorLen) =>
      let out := if 0 < validUpTo then out ++ (fromUtf8 (bytes.take validUpTo)).toOption.getD [] else out
      let bytes := if 0 < validUpTo then bytes.drop validUpTo else bytes
      let invalidLen := Nat.min (errorLen.getD bytes.length) bytes.length
      bytesToShellStringFrom fuel ((bytes.take invalidLen).foldl pushRawByteMarker out) (bytes.drop invalidLen)

def bytesToShellString (bytes : Bytes) : List Char := bytesToShellStringFrom bytes.length [] bytes

/-- What the loop makes of bytes: valid characters stay, any other byte becomes its marker. -/
inductive Decodes : Bytes → List Char → Prop where
  | nil : Decodes [] []
  | char (c : Char) {rest : Bytes} {s : List Char} (h : Decodes rest s) : Decodes (utf8EncodeChar c ++ rest) (c :: s)
  | byte {b : UInt8} {rest : Bytes} {s : List Char} (hn : firstChar? (b :: rest) = none) (h : Decodes rest s) :
    Decodes (b :: rest) (Char.ofNat (rawByteBase + b.toNat) :: s)

section
variable {s t : List Char}

theorem foldl_pushRawByteMarker (bytes : Bytes) (out : List Char) :
    bytes.foldl pushRawByteMarker out = out ++ bytes.map fun b => Char.ofNat (rawByteBase + b.toNat) := by
  induction bytes generalizing out with
  | nil => simp
  | cons b bytes ih =>
    have hv : (rawByteBase + b.toNat).isValidChar := by
      have hb := b.toNat_lt
      exact .inr ⟨by unfold rawByteBase; omega,by unfold rawByteBase; omega⟩
    simp [ih,pushRawByteMarker,charFromU32,hv]

theorem bytesToShellStringFrom_step (fuel : ℕ) (out s : List Char) (hne : rest ≠ [])
    (h : fromUtf8 (encode s ++ rest) = .error ((encode s).length,errorLen rest)) :
    bytesToShellStringFrom (fuel + 1) out (encode s ++ rest) =
      bytesToShellStringFrom fuel ((rest.take (invalidLen rest)).foldl pushRawByteMarker (out ++ s))
        (rest.drop (invalidLen rest)) := by
  rw [bytesToShellStringFrom,if_neg (by simp [hne]),h]
  dsimp only
  rw [take_left,drop_left,fromUtf8_encode]
  split
  · rfl
  · rename_i hz
    cases s with
    | nil => simp [invalidLen]
    | cons ch s => simp [String.length_utf8EncodeChar,Nat.pos_iff_ne_zero.mp ch.utf8Size_pos] at hz

theorem Decodes.encode_append (s : List Char) (h : Decodes rest t) : Decodes (encode s ++ rest) (s ++ t) := by
  induction s with
  | nil => exact h
  | cons c s ih =>
    rw [encode_cons,append_assoc]
    exact .char c ih

theorem Decodes.continuation (h : Decodes rest t) (hc : ∀ b ∈ tail, isContinuation b = true) :
    Decodes (tail ++ rest) (tail.map (fun b => Char.ofNat (rawByteBase + b.toNat)) ++ t) := by
  induction tail with
  | nil => exact h
  | cons b tail ih =>
    rw [forall_mem_cons] at hc
    exact .byte (firstChar?_continuation hc.1) (ih hc.2)

theorem Decodes.unique (h : Decodes bytes s) (ht : Decodes bytes t) : s = t := by
  induction h generalizing t with
  | nil =>
    generalize hb : ([] : Bytes) = bytes at ht
    cases ht with
    | nil => rfl
    | char c => simp at hb
    | byte => cases hb
  | char c _ ih =>
    have hf := firstChar?_append c
    generalize hb : utf8EncodeChar c ++ _ = bytes at ht
    cases ht with
    | nil => simp at hb
    | char d ht =>
      obtain rfl := Option.some_inj.mp ((hf _).symm.trans ((congrArg firstChar? hb).trans (firstChar?_append d _)))
      rw [ih (append_cancel_left hb ▸ ht)]
    | byte hn => simp [← hb,hf] at hn
  | byte hn _ ih =>
    generalize hb : _ :: _ = bytes at hn ht
    cases ht with
    | nil => cases hb
    | char d => simp [firstChar?_append] at hn
    | byte _ ht =>
      cases hb
      rw [ih ht]

theorem decodes_loop (fuel : ℕ) (out : List Char) (bytes : Bytes) (hf : bytes.length ≤ fuel) :
    ∃ s, bytesToShellStringFrom fuel out bytes = out ++ s ∧ Decodes bytes s := by
  induction fuel generalizing out bytes with
  | zero =>
    rw [length_eq_zero_iff.mp (Nat.le_zero.mp hf)]
    exact ⟨[],by simp [bytesToShellStringFrom],.nil⟩
  | succ fuel ih =>
    by_cases hn : bytes = []
    · subst hn
      exact ⟨[],by simp [bytesToShellStringFrom],.nil⟩
    rcases fromUtf8_cases bytes with ⟨s,hr,rfl⟩ | ⟨s,rest,hr,rfl,hne,hno⟩
    · refine ⟨s,by rw [bytesToShellStringFrom,if_neg hn,hr],?_⟩
      simpa using Decodes.nil.encode_append s
    · have hp := invalidLen_pos hne
      have hc := forall_mem_invalid rest
      obtain ⟨t,ht,hd⟩ := ih ((rest.take (invalidLen rest)).foldl pushRawByteMarker (out ++ s))
        (rest.drop (invalidLen rest)) (by rw [length_append] at hf; rw [length_drop]; omega)
      obtain ⟨b,rest,rfl⟩ := exists_cons_of_ne_nil hne
      obtain ⟨n,hn⟩ := Nat.exists_eq_add_one_of_ne_zero (Nat.pos_iff_ne_zero.mp hp)
      rw [bytesToShellStringFrom_step fuel out s hne hr,ht,foldl_pushRawByteMarker]
      rw [hn,take_succ_cons,tail_cons] at hc
      rw [hn,drop_succ_cons] at hd
      have hb := Decodes.byte (by rwa [take_append_drop]) (hd.continuation hc)
      rw [take_append_drop] at hb
      exact ⟨_,by simp [hn],hb.encode_append s⟩

theorem decodes (bytes : Bytes) : Decodes bytes (bytesToShellString bytes) := by
  obtain ⟨s,hs,hd⟩ := decodes_loop bytes.length [] bytes le_rfl
  rw [bytesToShellString,hs]
  exact hd

theorem bytesToShellString_encode (s : List Char) : bytesToShellString (encode s) = s := by
  have hd := Decodes.nil.encode_append s
  rw [append_nil,append_nil] at hd
  exact (decodes _).unique hd
end

def charToBytes (ch : Char) : Bytes :=
  if rawByteBase ≤ ch.toNat ∧ ch.toNat ≤ rawByteBase + 0xff then [UInt8.ofNat (ch.toNat - rawByteBase)]
  else utf8EncodeChar ch

def shellStringToBytes (s : List Char) : Bytes := s.flatMap charToBytes

def Raw (ch : Char) : Prop := rawByteBase ≤ ch.toNat ∧ ch.toNat ≤ rawByteBase + 0xff

/-- The bytes start with the encoding of a character of the private block. -/
def RawAtFront (bytes : Bytes) : Prop :=
  ∃ x y rest, bytes = 0xF3 :: 0xB0 :: x :: y :: rest ∧ (0x80 ≤ x ∧ x ≤ 0x83) ∧ (0x80 ≤ y ∧ y ≤ 0xBF)

def HasRaw (bytes : Bytes) : Prop := ∃ suffix, suffix <:+ bytes ∧ RawAtFront suffix

theorem hasRaw_cons : HasRaw (b :: bytes) ↔ RawAtFront (b :: bytes) ∨ HasRaw bytes := by
  unfold HasRaw
  simp only [suffix_cons_iff]
  constructor
  · rintro ⟨suffix,rfl | hs,hr⟩
    · exact .inl hr
    · exact .inr ⟨suffix,hs,hr⟩
  · rintro (hr | ⟨suffix,hs,hr⟩)
    · exact ⟨_,.inl rfl,hr⟩
    · exact ⟨suffix,.inr hs,hr⟩

theorem not_hasRaw_nil : ¬HasRaw [] := by
  rintro ⟨suffix,hs,x,y,rest,rfl,-⟩
  simp at hs

theorem hasRaw_append_of_continuation (h : ∀ b ∈ tail, isContinuation b = true) :
    HasRaw (tail ++ bytes) ↔ HasRaw bytes := by
  induction tail with
  | nil => rfl
  | cons b tail ih =>
    rw [forall_mem_cons] at h
    rw [cons_append,hasRaw_cons,ih h.2,or_iff_right]
    rintro ⟨x,y,rest,heq,-⟩
    rw [(List.cons.inj heq).1] at h
    exact absurd h.1 (by decide)

theorem utf8EncodeChar_raw (n : ℕ) (h : n < 256) : utf8EncodeChar (Char.ofNat (rawByteBase + n)) =
    [0xF3,0xB0,UInt8.ofNat (0x80 + n / 64),UInt8.ofNat (0x80 + n % 64)] := by
  have ha : ∀ k : Fin 256, utf8EncodeChar (Char.ofNat (rawByteBase + k)) =
      [0xF3,0xB0,UInt8.ofNat (0x80 + k / 64),UInt8.ofNat (0x80 + k % 64)] := by
    decide +kernel
  exact ha ⟨n,h⟩

theorem toNat_raw {n : ℕ} (h : n < 256) : (Char.ofNat (rawByteBase + n)).toNat = rawByteBase + n := by
  have hv : (rawByteBase + n).isValidChar := .inr ⟨by unfold rawByteBase; omega,by unfold rawByteBase; omega⟩
  rw [Char.ofNat,dif_pos hv]
  rfl

theorem rawAtFront_iff {bytes : Bytes} : RawAtFront bytes ↔ ∃ ch, Raw ch ∧ firstChar? bytes = some ch := by
  constructor
  · rintro ⟨x,y,rest,rfl,⟨hx,hx'⟩,hy,hy'⟩
    rw [UInt8.le_iff_toNat_le] at hx hx' hy hy'
    change 128 ≤ _ at hx hy
    change _ ≤ 131 at hx'
    change _ ≤ 191 at hy'
    have hn : (x.toNat - 128) * 64 + (y.toNat - 128) < 256 := by omega
    have hx'' : UInt8.ofNat (0x80 + ((x.toNat - 128) * 64 + (y.toNat - 128)) / 64) = x := by
      rw [← UInt8.toNat_inj,UInt8.toNat_ofNat']
      omega
    have hy'' : UInt8.ofNat (0x80 + ((x.toNat - 128) * 64 + (y.toNat - 128)) % 64) = y := by
      rw [← UInt8.toNat_inj,UInt8.toNat_ofNat']
      omega
    refine ⟨Char.ofNat (rawByteBase + ((x.toNat - 128) * 64 + (y.toNat - 128))),?_,?_⟩
    · rw [Raw,toNat_raw hn]
      omega
    · rw [firstChar?_eq_some_iff,utf8EncodeChar_raw _ hn,hx'',hy'']
      exact ⟨rest,rfl⟩
  · rintro ⟨ch,hr,hf⟩
    obtain ⟨rest,rfl⟩ := firstChar?_eq_some_iff.mp hf
    have hn : ch.toNat - rawByteBase < 256 := by unfold Raw at hr; omega
    have hch : ch = Char.ofNat (rawByteBase + (ch.toNat - rawByteBase)) := by
      rw [Nat.add_sub_cancel' hr.1,Char.ofNat_toNat]
    rw [hch,utf8EncodeChar_raw _ hn]
    refine ⟨_,_,rest,rfl,⟨?_,?_⟩,?_,?_⟩ <;> rw [UInt8.le_iff_toNat_le]
    all_goals rw [UInt8.toNat_ofNat']
    · change 128 ≤ _
      omega
    · change _ ≤ 131
      omega
    · change 128 ≤ _
      omega
    · change _ ≤ 191
      omega

theorem hasRaw_utf8EncodeChar {ch : Char} :
    HasRaw (utf8EncodeChar ch ++ bytes) ↔ Raw ch ∨ HasRaw bytes := by
  have hf : RawAtFront (utf8EncodeChar ch ++ bytes) ↔ Raw ch := by
    rw [rawAtFront_iff,firstChar?_append]
    constructor
    · rintro ⟨ch',hr,hs⟩
      rwa [Option.some_inj.mp hs]
    · exact fun hr => ⟨ch,hr,rfl⟩
  have ht := fun b => @isContinuation_of_mem_tail ch b
  cases hb : utf8EncodeChar ch with
  | nil => simp at hb
  | cons b tail =>
    rw [hb] at hf
    rw [hb,tail_cons] at ht
    rw [cons_append,hasRaw_cons,hasRaw_append_of_continuation ht,← cons_append,hf]

theorem charToBytes_marker (b : UInt8) : charToBytes (Char.ofNat (rawByteBase + b.toNat)) = [b] := by
  unfold charToBytes
  have hb := b.toNat_lt
  rw [toNat_raw (by omega),if_pos (by omega),Nat.add_sub_cancel_left,UInt8.ofNat_toNat]

theorem charToBytes_eq_iff (ch : Char) : charToBytes ch = utf8EncodeChar ch ↔ ¬Raw ch := by
  unfold charToBytes
  split
  · rename_i hr
    refine iff_of_false (fun h => ?_) (fun h => h hr)
    have hf := (@rawAtFront_iff (utf8EncodeChar ch ++ [])).mpr ⟨ch,hr,firstChar?_append ch []⟩
    obtain ⟨x,y,rest,heq,-⟩ := hf
    rw [← h] at heq
    simp at heq
  · rename_i hr
    exact iff_of_true rfl hr

theorem length_charToBytes_le (ch : Char) : (charToBytes ch).length ≤ (utf8EncodeChar ch).length := by
  unfold charToBytes
  split
  · rw [String.length_utf8EncodeChar]
    exact ch.utf8Size_pos
  · exact le_rfl

theorem append_inj_of_length_le {a b c d : Bytes} (hac : a.length ≤ c.length) (hbd : b.length ≤ d.length)
    (h : a ++ b = c ++ d) : a = c ∧ b = d := by
  have hl := congrArg List.length h
  rw [length_append,length_append] at hl
  exact append_inj h (by omega)

theorem length_shellStringToBytes_le (s : List Char) : (shellStringToBytes s).length ≤ (encode s).length := by
  induction s with
  | nil => exact le_rfl
  | cons ch s ih =>
    rw [encode_cons,length_append]
    change (charToBytes ch ++ shellStringToBytes s).length ≤ _
    rw [length_append]
    exact Nat.add_le_add (length_charToBytes_le ch) ih

theorem shellStringToBytes_eq_iff (s : List Char) : shellStringToBytes s = encode s ↔ ¬∃ ch ∈ s, Raw ch := by
  induction s with
  | nil => simp [shellStringToBytes]
  | cons ch s ih =>
    have hm : (∃ c ∈ ch :: s, Raw c) ↔ Raw ch ∨ ∃ c ∈ s, Raw c := by simp
    rw [hm,not_or,← ih,← charToBytes_eq_iff,encode_cons]
    change charToBytes ch ++ shellStringToBytes s = _ ↔ _
    exact ⟨append_inj_of_length_le (length_charToBytes_le ch) (length_shellStringToBytes_le s),
      fun h => by rw [h.1,h.2]⟩

theorem bytesToShellString_lead {c : Char} (hlo : 1 < (utf8EncodeChar c).length)
    (hc : utf8EncodeChar c = b :: tail) (hr : ∀ x ∈ rest.head?, isContinuation x = false) (s : List Char) :
    s ++ [Char.ofNat (rawByteBase + b.toNat)] <+: bytesToShellString (encode s ++ b :: rest) := by
  have hd := (Decodes.byte (firstChar?_lead hlo hc hr) (decodes rest)).encode_append s
  rw [(decodes _).unique hd]
  exact ⟨bytesToShellString rest,by simp⟩

theorem Decodes.shellStringToBytes_iff {s : List Char} (h : Decodes bytes s) :
    (shellStringToBytes s).length ≤ bytes.length ∧ (shellStringToBytes s = bytes ↔ ¬HasRaw bytes) := by
  induction h with
  | nil => exact ⟨le_rfl,iff_of_true rfl not_hasRaw_nil⟩
  | @char c _ s _ ih =>
    have hl := length_charToBytes_le c
    rw [hasRaw_utf8EncodeChar,not_or,← ih.2,← charToBytes_eq_iff,
      show shellStringToBytes (c :: s) = charToBytes c ++ shellStringToBytes s from rfl]
    refine ⟨?_,append_inj_of_length_le hl ih.1,fun h => by rw [h.1,h.2]⟩
    rw [length_append,length_append]
    exact Nat.add_le_add hl ih.1
  | byte hn h ih =>
    rw [hasRaw_cons,rawAtFront_iff,hn,or_iff_right (by simp),← ih.2]
    simpa [shellStringToBytes,charToBytes_marker] using ih.1

/-- A byte string comes back exactly when the encoding of no character of the private
block stands in it. -/
theorem shellStringToBytes_bytesToShellString_iff (b : Bytes) :
    shellStringToBytes (bytesToShellString b) = b ↔
      ¬∃ before x y after, b = before ++ [0xF3,0xB0,x,y] ++ after ∧ (0x80 ≤ x ∧ x ≤ 0x83) ∧ (0x80 ≤ y ∧ y ≤ 0xBF) := by
  have hraw : HasRaw b ↔
      ∃ before x y after, b = before ++ [0xF3,0xB0,x,y] ++ after ∧ (0x80 ≤ x ∧ x ≤ 0x83) ∧ (0x80 ≤ y ∧ y ≤ 0xBF) := by
    constructor
    · rintro ⟨suffix,⟨before,rfl⟩,x,y,rest,rfl,hx,hy⟩
      exact ⟨before,x,y,rest,by simp,hx,hy⟩
    · rintro ⟨before,x,y,after,rfl,hx,hy⟩
      exact ⟨0xF3 :: 0xB0 :: x :: y :: after,⟨before,by simp⟩,x,y,after,rfl,hx,hy⟩
  rw [← hraw]
  exact (decodes b).shellStringToBytes_iff.2

/-- The first character of the block is taken for the byte 0. -/
theorem shellStringToBytes_takes_raw :
    shellStringToBytes (bytesToShellString [0xF3,0xB0,0x80,0x80]) ≠ [0xF3,0xB0,0x80,0x80] := by
  decide +kernel
end Cherubsh.Expander.ShellString
