import Cherubsh.Builtins.PrintfFormat

/-! # The numbers that printf accepts

A sign is taken off by `printf` and again by the conversion, which also takes one behind `0x`.
-/
namespace Cherubsh.Builtins.Printf
open Expander.Arith (Text trim)
open List

def isSign (c : Char) : Bool := c = '-' || c = '+'

def inI64 (n : ℤ) : Bool := i64Min ≤ n ∧ n ≤ i64Max

def radixOf (digits : Text) : ℕ := if 1 < digits.length ∧ digits.head? = some '0' then 8 else 10

def literalOf : Text → Option ℕ
  | '0' :: 'x' :: digits => digitsValue 16 digits
  | '0' :: 'X' :: digits => digitsValue 16 digits
  | digits => digitsValue (radixOf digits) digits

def denoted : Text → Option ℤ
  | '\'' :: rest => rest.head?.map fun c => (c.toNat : ℤ)
  | '"' :: rest => rest.head?.map fun c => (c.toNat : ℤ)
  | '-' :: rest => ((literalOf rest).map fun n : ℕ => -(n : ℤ)).filter inI64
  | '+' :: rest => ((literalOf rest).map fun n : ℕ => (n : ℤ)).filter inI64
  | t => ((literalOf t).map fun n : ℕ => (n : ℤ)).filter inI64

def Overflows (s : Text) : Prop := ∃ rest, trim s = '-' :: rest ∧ i64FromStrRadix (radixOf rest) rest = some i64Min

def ReadsDenoted (s : Text) : Prop :=
  (∀ v, parseIntegerArg s true = (v,false) ↔ denoted (trim s) = some v) ∧ ¬Overflows s

def SignedDigits (radix : ℕ) (s : Text) : Prop := s.head?.any isSign ∧ (i64FromStrRadix radix s).isSome

def Hexadecimal (s : Text) : Prop := ∃ x digits, (x = 'x' ∨ x = 'X') ∧ s = '0' :: x :: digits

/-- The forms that are read otherwise: a quote alone, a sign behind `0x` or behind a sign, `0x`
behind a sign, and the smallest number. -/
inductive Misread : Text → Prop
  | quote {q : Char} (h : q = '\'' ∨ q = '"') : Misread [q]
  | prefixed {x : Char} {s : Text} (hx : x = 'x' ∨ x = 'X') (h : SignedDigits 16 s) : Misread ('0' :: x :: s)
  | twice {sign : Char} {s : Text} (hs : isSign sign) (h : SignedDigits 10 s) : Misread (sign :: s)
  | behind {sign : Char} {s : Text} (hs : isSign sign) (hx : Hexadecimal s) (h : (denoted (sign :: s)).isSome) : Misread (sign :: s)
  | smallest {s : Text} (h : literalOf s = some (2 ^ 63)) (hx : ¬Hexadecimal s) : Misread ('-' :: s)

section
variable {radix : ℕ} {s : Text} {c : Char}

theorem foldl_bind_none (f : Char → ℕ → Option ℕ) (l : Text) : l.foldl (fun n c => n.bind (f c)) none = none := by
  induction l with
  | nil => rfl
  | cons c l ih => rw [foldl_cons,Option.bind_none,ih]

theorem digitsValue_sign (hc : isSign c) (rest : Text) : digitsValue radix (c :: rest) = none := by
  simp only [isSign,Bool.or_eq_true,decide_eq_true_eq] at hc
  obtain rfl | rfl := hc <;> exact foldl_bind_none _ rest

theorem i64FromStrRadix_plain (h : ¬s.head?.any isSign) :
    i64FromStrRadix radix s = ((digitsValue radix s).map fun n : ℕ => (n : ℤ)).filter inI64 := by
  unfold i64FromStrRadix
  split
  · exact absurd rfl h
  · exact absurd rfl h
  · cases digitsValue radix s <;> rfl

theorem i64FromStrRadix_eq_iff :
    i64FromStrRadix radix s = ((digitsValue radix s).map fun n : ℕ => (n : ℤ)).filter inI64 ↔ ¬SignedDigits radix s := by
  by_cases hs : s.head?.any isSign
  · obtain _ | ⟨c,rest⟩ := s
    · cases hs
    rw [digitsValue_sign hs]
    cases hv : i64FromStrRadix radix (c :: rest) <;> simp [SignedDigits,hv]
    simpa using hs
  · exact iff_of_true (i64FromStrRadix_plain hs) fun h => hs h.1

theorem radix_encode (s : Text) :
    (if 1 < (Utf8.encode s).length ∧ s.head? = some '0' then 8 else 10) = radixOf s := by
  have hc : s.head? = some '0' → (1 < (Utf8.encode s).length ↔ 1 < s.length) := by
    intro h
    obtain ⟨rest,rfl⟩ := head?_eq_some_iff.mp h
    cases rest with
    | nil => decide
    | cons c rest =>
      have hp := c.utf8Size_pos
      have hz := ('0').utf8Size_pos
      simp [String.length_utf8EncodeChar]
      omega
  unfold radixOf
  simp only [and_congr_left hc]

theorem radixOf_sign (h : s.head?.any isSign) : radixOf s = 10 := by
  refine if_neg fun h' => ?_
  rw [h'.2] at h
  cases h

theorem literalOf_plain (h : ¬Hexadecimal s) : literalOf s = digitsValue (radixOf s) s := by
  unfold literalOf
  split
  · exact absurd ⟨'x',_,.inl rfl,rfl⟩ h
  · exact absurd ⟨'X',_,.inr rfl,rfl⟩ h
  · rfl

theorem i64FromStrRadix_hexadecimal (h : Hexadecimal s) : i64FromStrRadix (radixOf s) s = none := by
  obtain ⟨x,digits,hx,rfl⟩ := h
  have hd : digitsValue 8 ('0' :: x :: digits) = none := by
    obtain rfl | rfl := hx <;> exact foldl_bind_none _ digits
  rw [i64FromStrRadix_plain (by simp [isSign]),radixOf,if_pos (by simp),hd]
  rfl
end

def accepted : Text → Option ℤ
  | '0' :: 'x' :: rest => i64FromStrRadix 16 rest
  | '0' :: 'X' :: rest => i64FromStrRadix 16 rest
  | '\'' :: rest => some ((rest.head?.map fun c => (c.toNat : ℤ)).getD 0)
  | '"' :: rest => some ((rest.head?.map fun c => (c.toNat : ℤ)).getD 0)
  | '-' :: rest => (i64FromStrRadix (radixOf rest) rest).map i64Neg
  | '+' :: rest => i64FromStrRadix (radixOf rest) rest
  | t => i64FromStrRadix (radixOf t) t

theorem parseSigned_iff (negative : Bool) (s : Text) (v : ℤ) : parseSigned negative s = (v,false) ↔
    (i64FromStrRadix (radixOf s) s).map (fun n => if negative then i64Neg n else n) = some v := by
  rw [parseSigned,radix_encode]
  cases i64FromStrRadix (radixOf s) s with
  | none =>
    dsimp only
    split <;> simp
  | some n => simp

theorem parseIntegerArg_iff (s : Text) (v : ℤ) : parseIntegerArg s true = (v,false) ↔ accepted (trim s) = some v := by
  have hh : ∀ o : Option ℤ, (o.elim (0,true) fun n => (n,false)) = (v,false) ↔ o = some v := by
    intro o
    cases o <;> simp
  unfold parseIntegerArg
  rw [if_neg (by decide)]
  split
  · rename_i hs
    rw [hs,show accepted (trim []) = none by decide]
    simp
  generalize trim s = t
  unfold accepted
  split
  · exact hh _
  · exact hh _
  · simp
  · simp
  · simpa using parseSigned_iff true _ v
  · simpa using parseSigned_iff false _ v
  · simpa using parseSigned_iff false _ v

section
variable {s : Text}

theorem accepted_hexadecimal {x : Char} (hx : x = 'x' ∨ x = 'X') :
    accepted ('0' :: x :: s) = denoted ('0' :: x :: s) ↔ ¬Misread ('0' :: x :: s) := by
  have hd : denoted ('0' :: x :: s) = ((digitsValue 16 s).map fun n : ℕ => (n : ℤ)).filter inI64 := by
    obtain rfl | rfl := hx <;> rfl
  have ha : accepted ('0' :: x :: s) = i64FromStrRadix 16 s := by
    obtain rfl | rfl := hx <;> rfl
  rw [ha,hd,i64FromStrRadix_eq_iff,not_iff_not]
  refine ⟨.prefixed hx,fun h => ?_⟩
  cases h with
  | prefixed hx h => exact h
  | twice hs | behind hs => cases hs

theorem misread_sign_iff {sign : Char} (hs : isSign sign) : Misread (sign :: s) ↔
    SignedDigits 10 s ∨ (Hexadecimal s ∧ (denoted (sign :: s)).isSome) ∨
      (sign = '-' ∧ literalOf s = some (2 ^ 63) ∧ ¬Hexadecimal s) := by
  constructor
  · intro h
    cases h with
    | quote h => obtain rfl | rfl := h <;> cases hs
    | prefixed hx h => cases hs
    | twice _ h => exact .inl h
    | behind _ hx h => exact .inr (.inl ⟨hx,h⟩)
    | smallest h hx => exact .inr (.inr ⟨rfl,h,hx⟩)
  · rintro (h | ⟨hx,h⟩ | ⟨rfl,h,hx⟩)
    · exact .twice hs h
    · exact .behind hs hx h
    · exact .smallest h hx

theorem accepted_sign {sign : Char} (hs : isSign sign) : accepted (sign :: s) = denoted (sign :: s) ↔ ¬Misread (sign :: s) := by
  have hsign : sign = '-' ∨ sign = '+' := by simpa [isSign] using hs
  rw [misread_sign_iff hs]
  by_cases hx : Hexadecimal s
  · have ha : accepted (sign :: s) = none := by
      obtain rfl | rfl := hsign
      · exact congrArg (Option.map i64Neg) (i64FromStrRadix_hexadecimal hx)
      · exact i64FromStrRadix_hexadecimal hx
    have hn : ¬SignedDigits 10 s := by
      obtain ⟨x,digits,-,rfl⟩ := hx
      exact fun h => (by cases h.1)
    rw [ha]
    cases hd : denoted (sign :: s) <;> simp [hx,hn]
  have hl := literalOf_plain hx
  by_cases hh : s.head?.any isSign
  · have hn : literalOf s = none := by
      obtain _ | ⟨c,rest⟩ := s
      · rfl
      · rw [hl,digitsValue_sign hh]
    have hd : denoted (sign :: s) = none := by
      obtain rfl | rfl := hsign <;> simp [denoted,hn]
    have ha : accepted (sign :: s) = none ↔ i64FromStrRadix 10 s = none := by
      obtain rfl | rfl := hsign <;> simp [accepted,radixOf_sign hh]
    rw [hd,ha]
    simp [hx,hn,SignedDigits,hh]
  · have hp : i64FromStrRadix (radixOf s) s = _ := i64FromStrRadix_plain hh
    rw [← hl] at hp
    obtain rfl | rfl := hsign
    · simp only [accepted,denoted,hp,SignedDigits,hh,hx]
      cases literalOf s with
      | none => simp
      | some n =>
        have hin : inI64 n = decide (n < 2 ^ 63) ∧ inI64 (-n) = decide (n ≤ 2 ^ 63) := by
          constructor <;> exact decide_eq_decide.mpr (by simp only [i64Min,i64Max]; omega)
        have hne : i64Neg n = -n := if_neg (by unfold i64Min; omega)
        simp only [Option.map_some,Option.filter_some,hin,decide_eq_true_eq]
        obtain h | h | h := Nat.lt_trichotomy n (2 ^ 63)
        · rw [if_pos h,if_pos (Nat.le_of_lt h),Option.map_some,hne]
          simp
          omega
        · simp [h]
        · rw [if_neg (Nat.not_lt_of_gt h),if_neg (Nat.not_le_of_gt h)]
          simp
          omega
    · simp [accepted,denoted,hp,SignedDigits,hh,hx]

theorem accepted_eq_denoted_iff (t : Text) : accepted t = denoted t ↔ ¬Misread t := by
  have hq : ∀ {q : Char} {rest : Text}, q = '\'' ∨ q = '"' →
    accepted (q :: rest) = some ((rest.head?.map fun c => (c.toNat : ℤ)).getD 0) →
      denoted (q :: rest) = (rest.head?.map fun c => (c.toNat : ℤ)) →
        (accepted (q :: rest) = denoted (q :: rest) ↔ ¬Misread (q :: rest)) := by
    intro q rest hq ha hd
    rw [ha,hd]
    cases rest with
    | nil => simpa using Misread.quote hq
    | cons c rest =>
      refine iff_of_true rfl fun h => ?_
      cases h with
      | prefixed => obtain h | h := hq <;> cases h
      | twice hs | behind hs => obtain rfl | rfl := hq <;> cases hs
      | smallest => obtain h | h := hq <;> cases h
  fun_cases accepted t with
  | case1 rest => exact accepted_hexadecimal (.inl rfl)
  | case2 rest => exact accepted_hexadecimal (.inr rfl)
  | case3 rest => exact hq (.inl rfl) rfl rfl
  | case4 rest => exact hq (.inr rfl) rfl rfl
  | case5 rest => exact @accepted_sign rest '-' rfl
  | case6 rest => exact @accepted_sign rest '+' rfl
  | case7 _ h1 h2 h3 h4 h5 h6 =>
    have hx : ¬Hexadecimal t := by
      rintro ⟨x,digits,rfl | rfl,rfl⟩
      · exact h1 _ rfl
      · exact h2 _ rfl
    have hs : ∀ c rest, t = c :: rest → ¬isSign c := by
      intro c rest ht hc
      obtain rfl | rfl : c = '-' ∨ c = '+' := by simpa [isSign] using hc
      · exact h5 _ ht
      · exact h6 _ ht
    have hd : denoted t = ((literalOf t).map fun n : ℕ => (n : ℤ)).filter inI64 := by
      unfold denoted
      split
      · exact (h3 _ rfl).elim
      · exact (h4 _ rfl).elim
      · exact (h5 _ rfl).elim
      · exact (h6 _ rfl).elim
      · rfl
    rw [hd,literalOf_plain hx]
    refine iff_of_true (i64FromStrRadix_plain fun h => ?_) fun h => ?_
    · obtain _ | ⟨c,rest⟩ := t
      · cases h
      · exact hs c rest rfl h
    · cases h with
      | quote h =>
        obtain rfl | rfl := h
        · exact h3 _ rfl
        · exact h4 _ rfl
      | prefixed hx' => exact hx ⟨_,_,hx',rfl⟩
      | twice hc | behind hc => exact hs _ _ rfl hc
      | smallest => exact h5 _ rfl
end

theorem misread_of_overflows {s : Text} (h : Overflows s) : Misread (trim s) := by
  obtain ⟨rest,ht,hr⟩ := h
  have hs : rest.head?.any isSign := by
    by_contra hn
    rw [i64FromStrRadix_plain hn] at hr
    cases hd : digitsValue (radixOf rest) rest <;> simp [hd,i64Min] at hr
  rw [ht]
  rw [radixOf_sign hs] at hr
  exact .twice rfl ⟨hs,by simp [hr]⟩

/-- Every argument has the value it denotes or is reported, but for the misread forms. -/
theorem parseIntegerArg_denoted_iff (s : Text) : ReadsDenoted s ↔ ¬Misread (trim s) := by
  rw [← accepted_eq_denoted_iff]
  constructor
  · exact fun h => Option.ext fun v => (parseIntegerArg_iff s v).symm.trans (h.1 v)
  · exact fun h => ⟨fun v => (parseIntegerArg_iff s v).trans (by rw [h]),
      fun ho => (accepted_eq_denoted_iff _).mp h (misread_of_overflows ho)⟩

/-- Two signs are taken, the smallest number is not. -/
theorem parseIntegerArg_misreads : parseIntegerArg ['-','-','5'] true = (5,false) ∧
    parseIntegerArg ("-9223372036854775808".toList) true = (i64Min,true) ∧
      ¬ReadsDenoted ['-','-','5'] ∧ ¬ReadsDenoted ("-9223372036854775808".toList) := by
  refine ⟨by decide,by decide +kernel,fun h => ?_,fun h => ?_⟩
  · cases (h.1 5).mp (by decide)
  · cases (h.1 i64Min).mpr (by decide +kernel)
end Cherubsh.Builtins.Printf
