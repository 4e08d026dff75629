import Cherubsh.Builtins.Read

/-! # What read takes from its input

Up to the delimiter every byte is turned into a shell string on its own. With a limit the loop
goes on while what it has is no text at all.
-/
namespace Cherubsh.Builtins.Read
open Expander.Arith (Text)
open Expander.ShellString Utf8 List
open String (utf8EncodeChar)

def pushByteChar (out : Text) (byte : UInt8) : Text := out ++ bytesToShellString [byte]

/-- The loop up to the delimiter: the marked line, what is left of the input, and whether the
delimiter was met. -/
def readDelimited (raw big5Locale : Bool) (delim : UInt8) : Text → Bool → Bytes → Text × Bytes × Bool
  | line, hit, [] => (line,[],hit)
  | line, hit, b :: rest =>
    if b = delim then (line,rest,true)
    else if !raw && b = '\\' then
      match rest with
      | [] => (line,[],hit)
      | next :: rest =>
        if next = delim then readDelimited raw big5Locale delim line true rest
        else readDelimited raw big5Locale delim (pushByteChar (line ++ [escapedChar]) next) hit rest
    else if big5Locale && b = 0xa3 then
      match rest with
      | [] => (pushByteChar line b,[],hit)
      | next :: rest => readDelimited raw big5Locale delim (pushByteChar (pushByteChar line b) next) hit rest
    else readDelimited raw big5Locale delim (pushByteChar line b) hit rest

def readLimitNotReached (utf8Locale : Bool) (buf : Bytes) (n : ℕ) : Bool :=
  if !utf8Locale then buf.length < n
  else match fromUtf8 buf with
  | .ok text => text.length < n
  | .error _ => true

/-- The loop of `-N`, and of `-n` with `-r`: what was taken, and what is left of the input. -/
def readLimited (utf8Locale ncharsExact : Bool) (delim : UInt8) (n : ℕ) : Bytes → Bytes → Bytes × Bytes
  | buf, [] => (buf,[])
  | buf, b :: rest =>
    if !readLimitNotReached utf8Locale buf n then (buf,b :: rest)
    else if !ncharsExact && b = delim then (buf,rest)
    else readLimited utf8Locale ncharsExact delim n (buf ++ [b]) rest

section
variable {bytes : Bytes}

/-- The line ends with the first byte of a pair of the double-byte encoding. -/
def dangling : Bytes → Bool
  | [] => false
  | [b] => b = 0xa3
  | b :: next :: rest => if b = 0xa3 then dangling rest else dangling (next :: rest)

def HasLong (bytes : Bytes) : Prop := ∃ before c after, bytes = before ++ utf8EncodeChar c ++ after ∧ 1 < c.utf8Size

def singles (bytes : Bytes) : Text := bytes.flatMap fun b => bytesToShellString [b]

theorem readDelimited_raw (big5 : Bool) (delim : UInt8) : ∀ (out : Text) (hit : Bool) (input : Bytes), ∃ t,
    (readDelimited true big5 delim out hit input).1 = out ++ singles t ∧
    ∀ line rest, delim ∉ line → input = line ++ delim :: rest →
      line <+: t ∧ (t = line ↔ ¬(big5 ∧ dangling line))
  | out, hit, [] => ⟨[],by simp [readDelimited,singles],by simp⟩
  | out, hit, b :: input => by
    by_cases hb : b = delim
    · refine ⟨[],by simp [readDelimited.eq_def,hb,singles],fun line rest hl he => ?_⟩
      cases line with
      | nil => simp [dangling]
      | cons x line => exact absurd (by simp [← hb,(List.cons.inj he).1]) hl
    by_cases hp : big5 ∧ b = 0xa3
    · obtain ⟨rfl,rfl⟩ := hp
      match input with
      | [] =>
        refine ⟨[0xa3],by simp [readDelimited.eq_def,hb,singles,pushByteChar],fun line rest hl he => ?_⟩
        cases line with
        | nil => exact absurd (List.cons.inj he).1 hb
        | cons x line => simp at he
      | next :: input =>
        obtain ⟨t,ht,hi⟩ := readDelimited_raw true delim (pushByteChar (pushByteChar out 0xa3) next) hit input
        refine ⟨0xa3 :: next :: t,?_,fun line rest hl he => ?_⟩
        · unfold readDelimited
          simpa [hb,singles,pushByteChar] using ht
        · match line with
          | [] => exact absurd (List.cons.inj he).1 hb
          | [x] =>
            obtain ⟨rfl,he⟩ := List.cons.inj he
            simp_all [dangling]
          | x :: y :: line =>
            obtain ⟨rfl,hr⟩ := List.cons.inj he
            obtain ⟨rfl,hs⟩ := List.cons.inj hr
            simp only [mem_cons,not_or] at hl
            simpa [dangling] using hi line rest hl.2.2 hs
    · obtain ⟨t,ht,hi⟩ := readDelimited_raw big5 delim (pushByteChar out b) hit input
      refine ⟨b :: t,?_,fun line rest hl he => ?_⟩
      · unfold readDelimited
        simpa [hb,hp,singles,pushByteChar] using ht
      · cases line with
        | nil => exact absurd (List.cons.inj he).1 hb
        | cons x line =>
          obtain ⟨rfl,hr⟩ := List.cons.inj he
          simp only [mem_cons,not_or] at hl
          have hd : big5 ∧ dangling (b :: line) ↔ big5 ∧ dangling line := by
            refine and_congr_right fun h5 => ?_
            cases line <;> simp_all [dangling]
          rw [hd,cons_prefix_cons,cons_inj_right]
          have hi := hi line rest hl.2 hr
          exact ⟨⟨rfl,hi.1⟩,hi.2⟩

theorem single_spec (b : UInt8) : (bytesToShellString [b]).length = 1 ∧ escapedChar ∉ bytesToShellString [b] := by
  revert b
  exact forall_byte (by decide +kernel)

theorem hasLong_cons {b : UInt8} : HasLong (b :: bytes) ↔
    (∃ c, firstChar? (b :: bytes) = some c ∧ 1 < c.utf8Size) ∨ HasLong bytes := by
  constructor
  · rintro ⟨before,c,after,h,hc⟩
    cases before with
    | nil => exact .inl ⟨c,firstChar?_eq_some_iff.mpr ⟨after,h⟩,hc⟩
    | cons x before => exact .inr ⟨before,c,after,(List.cons.inj h).2,hc⟩
  · rintro (⟨c,h,hc⟩ | ⟨before,c,after,rfl,hc⟩)
    · obtain ⟨after,ha⟩ := firstChar?_eq_some_iff.mp h
      exact ⟨[],c,after,ha,hc⟩
    · exact ⟨b :: before,c,after,rfl,hc⟩

theorem length_singles (bytes : Bytes) : (singles bytes).length = bytes.length := by
  simp [singles,length_flatMap,(single_spec _).1]

theorem singles_iff {s : Text} (h : Decodes bytes s) :
    s.length ≤ bytes.length ∧ (singles bytes = s ↔ ¬HasLong bytes) := by
  induction h with
  | nil => simp [HasLong,singles]
  | @char c rest s h ih =>
    have hl := String.length_utf8EncodeChar c
    by_cases hc : 1 < c.utf8Size
    · have hx : HasLong (utf8EncodeChar c ++ rest) := ⟨[],c,rest,rfl,hc⟩
      have hle : (c :: s).length < (utf8EncodeChar c ++ rest).length := by
        rw [length_cons,length_append,hl]
        omega
      refine ⟨hle.le,iff_of_false (fun he => ?_) (not_not.mpr hx)⟩
      rw [← he,length_singles] at hle
      omega
    · obtain ⟨b,hb,-,-⟩ := ascii_of_single (c := c) (by omega)
      have hs : bytesToShellString [b] = [c] := by
        rw [← hb]
        simpa using bytesToShellString_encode [c]
      have hf := firstChar?_append c rest
      rw [hb] at hf ⊢
      rw [singleton_append] at hf ⊢
      rw [hasLong_cons,hf,or_iff_right (by simpa using hc),← ih.2]
      simpa [singles,hs] using ih.1
  | @byte b rest s hn h ih =>
    have hb : firstChar? [b] = none := by
      by_contra hs
      obtain ⟨c,hc⟩ := Option.ne_none_iff_exists'.mp hs
      obtain ⟨after,ha⟩ := firstChar?_eq_some_iff.mp hc
      rw [← singleton_append,ha,append_assoc,firstChar?_append] at hn
      cases hn
    have hs := (decodes [b]).unique (.byte hb .nil)
    rw [hasLong_cons,hn,or_iff_right (by simp),← ih.2]
    simpa [singles,hs] using ih.1

theorem dequoteMarked_of_plain {s : Text} (h : escapedChar ∉ s) : dequoteMarked s = s := by
  induction s with
  | nil => rfl
  | cons c s ih =>
    rw [mem_cons,not_or] at h
    unfold dequoteMarked markedChars
    rw [if_neg (Ne.symm h.1)]
    exact congrArg (c :: ·) (ih h.2)

def readRawLine (big5 : Bool) (line rest : Bytes) : Text :=
  (readValues (readDelimited true big5 0x0a [] false (line ++ 0x0a :: rest)).1 [] ["name"]).flatMap Prod.snd

/-- The value is the line exactly when no character has several bytes and no pair takes the end. -/
theorem readRawLine_iff (big5 : Bool) (line rest : Bytes) (hl : 0x0a ∉ line) :
    readRawLine big5 line rest = bytesToShellString line ↔ ¬HasLong line ∧ ¬(big5 ∧ dangling line) := by
  obtain ⟨t,ht,hi⟩ := readDelimited_raw big5 0x0a [] false (line ++ 0x0a :: rest)
  obtain ⟨hp,hi⟩ := hi line rest hl rfl
  obtain ⟨hle,hs⟩ := singles_iff (decodes line)
  have hv : readRawLine big5 line rest = singles t := by
    have hn : escapedChar ∉ singles t := by simp [singles,(single_spec _).2]
    simp only [readRawLine,ht,readValues,nil_append,if_true,flatMap_cons,flatMap_nil,append_nil]
    exact dequoteMarked_of_plain hn
  rw [hv,← hi,← hs]
  constructor
  · intro h
    have hlt := congrArg List.length h
    rw [length_singles] at hlt
    have he := hp.eq_of_length_le (by omega)
    exact ⟨he ▸ h,he.symm⟩
  · rintro ⟨h,rfl⟩
    exact h

theorem readRawLine_plain : 0x0a ∉ (['a','b'] : Bytes) ∧
    (readRawLine false ['a','b'] [] = bytesToShellString ['a','b'] ↔ ¬HasLong ['a','b'] ∧ ¬(false ∧ dangling ['a','b'])) :=
  have hl : 0x0a ∉ (['a','b'] : Bytes) := by decide
  ⟨hl,readRawLine_iff false ['a','b'] [] hl⟩

/-- The two bytes of a letter with an accent are stored as two markers. -/
theorem readRawLine_splits : readRawLine false [0xc3,0xa9] [] ≠ bytesToShellString [0xc3,0xa9] := by decide +kernel
end

def readable (ncharsExact : Bool) (delim : UInt8) : Bytes → Bytes
  | [] => []
  | b :: rest => if !ncharsExact && b = delim then [b] else b :: readable ncharsExact delim rest

def consumed (ncharsExact : Bool) (delim : UInt8) (n : ℕ) (input : Bytes) : Bytes :=
  input.take (input.length - (readLimited true ncharsExact delim n [] input).2.length)

theorem readLimited_spec (exact : Bool) (delim : UInt8) (n : ℕ) (buf input : Bytes) :
    ∃ t, input = t ++ (readLimited true exact delim n buf input).2 ∧ t <+: readable exact delim input ∧
      (∀ p, p <+: t → p ≠ t → readLimitNotReached true (buf ++ p) n) ∧
      (readLimitNotReached true (buf ++ t) n = false ∨ t = readable exact delim input) := by
  induction input generalizing buf with
  | nil => exact ⟨[],by simp [readLimited],by simp,by simp,.inr rfl⟩
  | cons b rest ih =>
    cases hr : readLimitNotReached true buf n with
    | false => exact ⟨[],by simp [readLimited,hr],by simp,by simp,.inl (by simpa using hr)⟩
    | true =>
      by_cases hd : (!exact && b = delim)
      · refine ⟨[b],by simp_all [readLimited],by simp_all [readable],fun p hp hn => ?_,.inr (by simp_all [readable])⟩
        obtain rfl | hne := eq_or_ne p []
        · simpa using hr
        · exact absurd (hp.eq_of_length_le (length_pos_iff.mpr hne)) hn
      · obtain ⟨t,ht,hp,hb,hl⟩ := ih (buf ++ [b])
        refine ⟨b :: t,by simpa [readLimited,hr,hd] using ht,by simpa [readable,hd] using hp,fun p hp hn => ?_,?_⟩
        · cases p with
          | nil => simpa using hr
          | cons x p =>
            obtain ⟨rfl,hq⟩ := cons_prefix_cons.mp hp
            simpa using hb p hq (by simpa using hn)
        · simpa [readable,hd] using hl

theorem readLimitNotReached_encode (s : Text) (n : ℕ) : readLimitNotReached true (encode s) n = decide (s.length < n) := by
  simp [readLimitNotReached,fromUtf8_encode]

theorem length_le_four {bytes : Bytes} {s : Text} (h : Decodes bytes s) : bytes.length ≤ 4 * s.length := by
  induction h with
  | nil => exact le_rfl
  | char c h ih =>
    have hc := c.utf8Size_le_four
    simp only [length_append,String.length_utf8EncodeChar,length_cons]
    omega
  | byte hn h ih =>
    simp only [length_cons]
    omega

/-- No more is consumed exactly when that many characters stand at the front, or nothing is left. -/
theorem consumed_le_iff (exact : Bool) (delim : UInt8) (n : ℕ) (input : Bytes) :
    (bytesToShellString (consumed exact delim n input)).length ≤ n ∧ (consumed exact delim n input).length ≤ 4 * n ↔
      (∃ s rest, readable exact delim input = encode s ++ rest ∧ s.length = n) ∨
        (bytesToShellString (readable exact delim input)).length ≤ n := by
  obtain ⟨t,ht,hp,hb,hl⟩ := readLimited_spec exact delim n [] input
  have hc : consumed exact delim n input = t := by
    have hn := congrArg List.length ht
    rw [length_append] at hn
    rw [consumed,hn,Nat.add_sub_cancel]
    conv_lhs => rw [ht]
    exact take_left
  have hf := length_le_four (decodes t)
  -- A text with enough characters in front of more is not read past them.
  have hs : ∀ s rest, t = encode s ++ rest → s.length = n → rest = [] := by
    intro s rest he hn
    by_contra hr
    have hx := hb (encode s) ⟨rest,he.symm⟩ (by simp [he,hr])
    rw [nil_append,readLimitNotReached_encode] at hx
    simp [hn] at hx
  rw [hc]
  rcases hl with hl | rfl
  · obtain ⟨s,hr,rfl⟩ | ⟨s,rest,hr,-⟩ := fromUtf8_cases t
    · rw [nil_append,readLimitNotReached_encode,decide_eq_false_iff_not,not_lt] at hl
      have hd := hs (s.take n) (encode (s.drop n)) (by rw [← encode_append,take_append_drop]) (length_take_of_le hl)
      have hn : s.length = n := by
        have hz := congrArg bytesToShellString hd
        rw [bytesToShellString_encode] at hz
        exact Nat.le_antisymm (by simpa [bytesToShellString,bytesToShellStringFrom] using hz) hl
      obtain ⟨rest,hr⟩ := hp
      rw [bytesToShellString_encode] at hf ⊢
      exact iff_of_true ⟨hn.le,hn ▸ hf⟩ (.inl ⟨s,rest,hr.symm,hn⟩)
    · simp [readLimitNotReached,hr] at hl
  · constructor
    · exact fun h => .inr h.1
    · rintro (⟨s,rest,he,hn⟩ | h)
      · obtain rfl := hs s rest he hn
        rw [append_nil] at he
        rw [he,bytesToShellString_encode] at hf ⊢
        exact ⟨hn.le,hn ▸ hf⟩
      · exact ⟨h,by omega⟩

/-- After a byte that is no character a limit of one does not stop the loop. -/
theorem consumed_all : ¬((bytesToShellString (consumed true 0x0a 1 [0xff,0x61,0x61])).length ≤ 1 ∧
    (consumed true 0x0a 1 [0xff,0x61,0x61]).length ≤ 4 * 1) := by
  decide +kernel
end Cherubsh.Builtins.Read
