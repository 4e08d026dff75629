import Cherubsh.Expander.Arith.Denotation
import Mathlib.Data.Nat.Digits.Defs

/-! # Numbers in any radix

The digits of a radix are the first ones of an alphabet; up to 36 the case of a letter does
not matter. A literal has its radix in front of a `#`, or is hexadecimal or octal by the way
it starts. It is one token, and its value is that of its digits in 64 bits.
-/
namespace Cherubsh.Expander.Arith
open Lexer
variable {Env LVal E : Type} {b : ℕ} {digits raw : Text} {c : Char}

def alphabet : Text := "0123456789abcdefghijklmnopqrstuvwxyzABCDEFGHIJKLMNOPQRSTUVWXYZ@_"

def digitValue (b : ℕ) (c : Char) : ℕ := alphabet.idxOf (if b ≤ 36 then c.toLower else c)

def literalValue (b : ℕ) (digits : Text) : Option I64 :=
  if (2 ≤ b ∧ b ≤ 64) ∧ digits ≠ [] ∧ ∀ c ∈ digits, digitValue b c < b then
    some (BitVec.ofNat 64 (Nat.ofDigits b (digits.reverse.map (digitValue b))))
  else none

theorem radixDigit_eq (hc : c ∈ alphabet) : radixDigit b c = some (digitValue b c) := by
  have ha : ∀ c ∈ alphabet, radixDigit 36 c = some (digitValue 36 c) ∧ radixDigit 37 c = some (digitValue 37 c) := by decide
  by_cases hb : b ≤ 36
  · simpa [radixDigit,digitValue,hb] using (ha c hc).1
  · simpa [radixDigit,digitValue,hb] using (ha c hc).2

theorem isNumberChar_of_mem (hc : c ∈ alphabet) : isNumberChar c ∧ c ≠ '#' := by
  have ha : ∀ c ∈ alphabet, isNumberChar c ∧ c ≠ '#' := by decide
  exact ha c hc

theorem toOption_foldRadix (raw : Text) (hd : ∀ c ∈ digits, c ∈ alphabet) (n : ℕ) :
    (foldRadix b raw digits (BitVec.ofNat 64 n) : Except (ArithError E) I64).toOption =
      if ∀ c ∈ digits, digitValue b c < b then
        some (BitVec.ofNat 64 (digits.foldl (fun n c => digitValue b c + b * n) n)) else none := by
  induction digits generalizing n with
  | nil => rfl
  | cons c digits ih =>
    rw [foldRadix,radixDigit_eq (hd c (by simp))]
    dsimp only
    by_cases hc : b ≤ digitValue b c
    · rw [if_pos hc,if_neg fun h => Nat.not_lt.2 hc (h c (by simp))]
      rfl
    · have hv : BitVec.ofNat 64 n * BitVec.ofNat 64 b + BitVec.ofNat 64 (digitValue b c) =
          BitVec.ofNat 64 (digitValue b c + b * n) := by
        rw [← BitVec.ofNat_mul,← BitVec.ofNat_add,Nat.mul_comm,Nat.add_comm]
      rw [if_neg hc,hv,ih fun c hc => hd c (by simp [hc])]
      simp [Nat.lt_of_not_le hc]

theorem literalValue_eq_none (hm : c ∈ digits) (hc : b ≤ digitValue b c) : literalValue b digits = none :=
  if_neg fun h => Nat.not_lt.2 hc (h.2.2 c hm)

theorem toOption_foldWrapping (hb : b ≤ 36) (raw : Text) (value : I64) :
    (foldWrapping b raw digits value : Except (ArithError E) I64).toOption =
      (foldRadix b raw digits value : Except (ArithError E) I64).toOption := by
  induction digits generalizing value with
  | nil => rfl
  | cons c digits ih =>
    have hdi : radixDigit b c = radixDigit 36 c := by simp [radixDigit,hb]
    rw [foldWrapping,foldRadix,charToDigit,hdi]
    cases radixDigit 36 c with
    | none => rfl
    | some d =>
      by_cases hd : d < b
      · simpa [hd,Nat.not_le.2 hd] using ih _
      · simp [hd,Nat.not_lt.1 hd,Except.toOption]

theorem toOption_foldRadix_zero (raw : Text) (hd : ∀ c ∈ digits, c ∈ alphabet) (hb : 2 ≤ b ∧ b ≤ 64) (hne : digits ≠ []) :
    (foldRadix b raw digits 0 : Except (ArithError E) I64).toOption = literalValue b digits := by
  have hv : Nat.ofDigits b (digits.reverse.map (digitValue b)) = digits.foldl (fun n c => digitValue b c + b * n) 0 := by
    simp [Nat.ofDigits_eq_foldr,List.foldl_map]
  rw [literalValue,hv]
  simpa [hb,hne] using toOption_foldRadix raw hd 0

theorem toOption_parseRadixWrapping (raw : Text) (hd : ∀ c ∈ digits, c ∈ alphabet) (hb : 2 ≤ b ∧ b ≤ 36) :
    (parseRadixWrapping digits b raw : Except (ArithError E) I64).toOption = literalValue b digits := by
  unfold parseRadixWrapping
  split
  · rename_i hn
    simp [literalValue,List.isEmpty_iff.1 hn,Except.toOption]
  · rename_i hne
    rw [toOption_foldWrapping hb.2,toOption_foldRadix_zero raw hd ⟨hb.1,by omega⟩ (by simpa using hne)]

section
inductive Literal : ℕ → Text → Text → Prop
  | radix {base : Text} (digits : Text) (hne : base ≠ []) (hbase : ∀ c ∈ base, c.isDigit) :
      Literal (Nat.ofDigitChars 10 base 0) digits (base ++ '#' :: digits)
  | hexadecimal {x : Char} (digits : Text) (hx : x = 'x' ∨ x = 'X') : Literal 16 digits ('0' :: x :: digits)
  | octal {c : Char} {digits : Text} (hx : c ≠ 'x' ∧ c ≠ 'X') : Literal 8 (c :: digits) ('0' :: c :: digits)

theorem parseI64_digits {base : Text} (hne : base ≠ []) (hb : ∀ c ∈ base, c.isDigit) :
    parseI64 base = if Nat.ofDigitChars 10 base 0 < 2 ^ 63 then some (Nat.ofDigitChars 10 base 0 : ℤ) else none := by
  have hs : ∀ c rest, base = c :: rest → c ≠ '-' ∧ c ≠ '+' := by
    rintro c rest rfl
    constructor <;>
    · rintro rfl
      exact absurd (hb _ List.mem_cons_self) (by decide)
  have ha : base.all Char.isDigit := List.all_eq_true.mpr hb
  unfold parseI64
  split
  rename_i sign rest heq
  split at heq
  · exact absurd rfl (hs _ _ rfl).1
  · exact absurd rfl (hs _ _ rfl).2
  · cases heq
    rw [if_neg (by simp [hne,ha]),Int.one_mul,← Nat.ofDigitChars_eq_foldl]
    have hbo : (-2 ^ 63 ≤ (Nat.ofDigitChars 10 base 0 : ℤ) ∧ (Nat.ofDigitChars 10 base 0 : ℤ) < 2 ^ 63) ↔
      Nat.ofDigitChars 10 base 0 < 2 ^ 63 := by omega
    simp only [hbo]

variable (h : Literal b digits raw)
include h

theorem toOption_parseNumber (hdi : ∀ c ∈ digits, c ∈ alphabet) :
    (parseNumber raw : Except (ArithError E) I64).toOption = literalValue b digits := by
  have hh : '#' ∉ digits := fun hm => (isNumberChar_of_mem (hdi _ hm)).2 rfl
  cases h with
  | @radix base digits hne hba =>
    have hn : ∀ c ∈ base, decide (c ≠ '#') := by
      intro c hc
      refine decide_eq_true ?_
      rintro rfl
      exact absurd (hba _ hc) (by decide)
    have ht : (base ++ '#' :: digits).takeWhile (· ≠ '#') = base := by
      rw [List.takeWhile_append_of_pos hn,List.takeWhile_cons_of_neg (by simp),List.append_nil]
    have hdr : (base ++ '#' :: digits).dropWhile (· ≠ '#') = '#' :: digits := by
      rw [List.dropWhile_append_of_pos hn,List.dropWhile_cons_of_neg (by simp)]
    unfold parseNumber
    rw [if_pos (by simp)]
    dsimp only
    rw [ht,hdr,parseI64_digits hne hba,List.tail_cons]
    generalize Nat.ofDigitChars 10 base 0 = b
    by_cases hb : 2 ≤ b ∧ b ≤ 64
    · rw [if_pos (by omega)]
      dsimp only
      rw [if_neg (by omega),if_neg (by omega)]
      split
      · rename_i hni
        simp [literalValue,List.isEmpty_iff.1 hni,Except.toOption]
      · rename_i hdg
        exact toOption_foldRadix_zero _ hdi hb (by simpa using hdg)
    · have hno : literalValue b digits = none := if_neg fun h => hb h.1
      have ho : (b : ℤ) < 2 ∨ 64 < (b : ℤ) := by omega
      rw [hno]
      by_cases hs : b < 2 ^ 63
      · rw [if_pos hs]
        dsimp only
        rw [if_pos ho]
        split <;> rfl
      · rw [if_neg hs]
        rfl
  | @hexadecimal x digits hx =>
    have hn : '#' ∉ '0' :: x :: digits := by rcases hx with rfl | rfl <;> simp [hh]
    have hb : 2 ≤ 16 ∧ 16 ≤ 36 := by decide
    rcases hx with rfl | rfl <;> rw [parseNumber,if_neg hn] <;> exact toOption_parseRadixWrapping _ hdi hb
  | @octal c digits hx =>
    have hn : '#' ∉ '0' :: c :: digits := by simpa using hh
    rw [parseNumber,if_neg hn]
    · split
      · exact toOption_parseRadixWrapping _ hdi (by decide)
      · rename_i hdg
        obtain ⟨d,hd,hn⟩ : ∃ d ∈ c :: digits, d.isDigit = false := by
          by_contra! h
          exact hdg (List.all_eq_true.2 fun d hd => by simpa using h d hd)
        have ha : ∀ d ∈ alphabet, d.isDigit = false → 10 ≤ digitValue 10 d ∧ 8 ≤ digitValue 8 d := by decide
        have hl := ha d (hdi d hd) hn
        have hr : ∀ d ∈ '0' :: c :: digits, d ∈ alphabet := List.forall_mem_cons.2 ⟨by decide,hdi⟩
        rw [toOption_parseRadixWrapping _ hr (by decide),literalValue_eq_none (List.mem_cons_of_mem _ hd) hl.1,
          literalValue_eq_none hd hl.2]
    · exact hx.1
    · exact hx.2

theorem Literal.head : ∃ c rest, raw = c :: rest ∧ c.isDigit := by
  cases h with
  | @radix base digits hne hb =>
    obtain ⟨c,rest,rfl⟩ := List.exists_cons_of_ne_nil hne
    exact ⟨c,rest ++ '#' :: digits,rfl,hb c List.mem_cons_self⟩
  | hexadecimal | octal => exact ⟨'0',_,rfl,rfl⟩

theorem Literal.isNumberChar (hdi : ∀ c ∈ digits, c ∈ alphabet) : ∀ c ∈ raw, isNumberChar c := by
  have hd : ∀ c ∈ digits, Arith.isNumberChar c := fun c hc => (isNumberChar_of_mem (hdi c hc)).1
  cases h with
  | radix digits hne hb =>
    exact List.forall_mem_append.2 ⟨fun c hc => isNumberChar_of_isDigit (hb c hc),List.forall_mem_cons.2 ⟨rfl,hd⟩⟩
  | hexadecimal digits hx => exact List.forall_mem_cons.2 ⟨rfl,List.forall_mem_cons.2 ⟨by rcases hx with rfl | rfl <;> rfl,hd⟩⟩
  | octal => exact List.forall_mem_cons.2 ⟨rfl,hd⟩

theorem tokenAt_literal (hd : ∀ c ∈ digits, c ∈ alphabet) {src after : Text} {start : ℕ}
    (hdr : src.drop start = raw ++ after) (ha : ∀ c ∈ after.head?, isNumberChar c = false) :
    (tokenAt src start : Except (ArithError E) Lexer).toOption =
      (literalValue b digits).map fun v => take src start (.num v) raw.length := by
  have hch := h.isNumberChar hd
  have hv := toOption_parseNumber (E := E) h hd
  obtain ⟨c,rest,rfl,hc⟩ := h.head
  rw [tokenAt_number hc hch ha hdr,← hv]
  cases (parseNumber (c :: rest) : Except (ArithError E) I64) <;> rfl

omit h

theorem prefixPostfixLvalueError_digit (hc : c.isDigit) (rest : Text) :
    (prefixPostfixLvalueError (c :: rest) : Option (ArithError E)) = none := by
  have hs : trimStart (c :: rest) = c :: rest :=
    List.dropWhile_cons_of_neg (by rw [(not_blank_of_isDigit hc).1]; exact Bool.false_ne_true)
  refine prefixPostfixLvalueError_eq_none fun d hd hdo => ?_
  obtain ⟨more,hm⟩ := hdo.trans (hs ▸ trim_prefix (c :: rest))
  obtain rfl := (List.cons.inj hm).1
  rcases hd with rfl | rfl <;> cases hc

/-- A literal is one token and an expression, with the value of its digits or an error where they
have none. -/
theorem radix_literals (acc : Access Env LVal E) (h : Literal b digits raw) (hdigits : ∀ c ∈ digits, c ∈ alphabet) :
    (∀ (src after : Text) (start : ℕ), src.drop start = raw ++ after → (∀ c ∈ after.head?, isNumberChar c = false) →
      (tokenAt src start : Except (ArithError E) Lexer).toOption =
        (literalValue b digits).map fun v => take src start (.num v) raw.length) ∧
    ∀ depth < maxArithNesting, ∀ env,
      (evalInner acc depth raw env).1.toOption = literalValue b digits ∧ (evalInner acc depth raw env).2 = env := by
  refine ⟨fun src after start => tokenAt_literal h hdigits,fun depth hdepth env => ?_⟩
  obtain ⟨c,rest,hraw,hc⟩ := h.head
  have hfull : trim raw ≠ [] := hraw ▸ trim_ne_nil (not_blank_of_isDigit hc).1 rest
  have hlvalue : (prefixPostfixLvalueError raw : Option (ArithError E)) = none := hraw ▸ prefixPostfixLvalueError_digit hc rest
  have hnew : (new raw : Except (ArithError E) Lexer) = tokenAt raw 0 := by
    simp [hraw,new,advance,(not_blank_of_isDigit hc).2]
  have htoken := @tokenAt_literal E _ _ _ h hdigits raw [] 0 (by simp) (by simp)
  rw [← hnew] at htoken
  cases hlex : (new raw : Except (ArithError E) Lexer) with
  | error e =>
    have hnone : literalValue b digits = none := by simpa [hlex,Except.toOption] using htoken.symm
    rw [hnone,evalInner,if_neg (by rwa [List.isEmpty_iff]),hlvalue,hlex]
    simp [Nat.not_lt.2 hdepth,Except.toOption]
  | ok lex =>
    obtain ⟨v,hv,rfl⟩ : ∃ v, literalValue b digits = some v ∧ take raw 0 (.num v) raw.length = lex := by
      simpa [hlex,Except.toOption] using htoken.symm
    have hat : At E (take raw 0 (.num v) raw.length) [.num v] := ⟨rfl,advance_ahead (by simp) (by simp [take,ahead])⟩
    have hsize : (Expr.const v).size ≤ raw.length := by simp [Expr.size,hraw]
    have hparse := (parses_and_loops acc (.const v)).1 raw.length raw.length 0 true [] hsize hsize (Nat.zero_le _) fun m hm => by cases hm
    have hrun := evalInner_of_new acc hdepth hfull hlvalue hlex hat hparse env
    rw [hv]
    obtain ⟨hvalue,henv⟩ := Prod.mk.inj hrun
    refine ⟨?_,henv⟩
    cases hr : (evalInner acc depth raw env).1 with
    | ok w => simpa [hr,Except.mapError,Except.toOption] using hvalue
    | error e => simp [hr,Except.mapError] at hvalue

theorem radix_literals_ff :
    (evalInner scalars 0 "16#fF" []).1.toOption = some 255 ∧ (evalInner scalars 0 "0xfF" []).1.toOption = some 255 := by
  have hdigits : ∀ c ∈ "fF".toList, c ∈ alphabet := by decide
  have hradix : Literal 16 "fF" "16#fF" := @Literal.radix "16" _ (by decide) (by decide)
  exact ⟨((radix_literals scalars hradix hdigits).2 0 (by decide) []).1.trans (by decide +kernel),
    ((radix_literals scalars (.hexadecimal _ (.inl rfl)) hdigits).2 0 (by decide) []).1.trans (by decide +kernel)⟩
end
end Cherubsh.Expander.Arith
