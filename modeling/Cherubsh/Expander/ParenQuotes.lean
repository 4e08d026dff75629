import Cherubsh.Expander.ParenText
import Mathlib.Algebra.Group.Nat.Even

/-! # Quotations and escapes on the way to a closing byte

How far a quotation is read. A backslash hides the byte behind it in every kind of
quotation, so it is the number of backslashes at the end of a single-quoted text that
decides whether the quote behind it closes.
-/
namespace Cherubsh.Expander.ParamScanning
open Utf8 List
open Braces (throughQuote)

section
variable {q b : UInt8} {s rest : Bytes}

theorem throughQuote_self (q : UInt8) (rest : Bytes) : throughQuote q (q :: rest) = ([q],rest) := by
  cases rest with
  | nil => rfl
  | cons c rest => exact if_pos rfl

theorem throughQuote_cons (hb : b ≠ q) (hba : b ≠ '\\') (rest : Bytes) :
    throughQuote q (b :: rest) = (b :: (throughQuote q rest).1,(throughQuote q rest).2) := by
  cases rest with
  | nil => rfl
  | cons c rest => rw [throughQuote,if_neg hb,if_neg hba]

theorem throughQuote_escape (hq : q ≠ '\\') (b : UInt8) (rest : Bytes) :
    throughQuote q ('\\'.toUInt8 :: b :: rest) = ('\\'.toUInt8 :: b :: (throughQuote q rest).1,(throughQuote q rest).2) := by
  rw [throughQuote,if_neg hq.symm,if_pos rfl]

theorem throughQuote_append (q : UInt8) (text : Bytes) : (throughQuote q text).1 ++ (throughQuote q text).2 = text := by
  fun_induction throughQuote q text with
  | case1 => rfl
  | case2 => rfl
  | case3 => rfl
  | case4 c rest _ ih => rw [cons_append,cons_append,ih]
  | case5 b c rest _ _ ih => rw [cons_append,ih]

theorem isPrefix_throughQuote (hs : q ∉ s) (rest : Bytes) : s <+: (throughQuote q (s ++ rest)).1 := by
  fun_induction throughQuote q s with
  | case1 => exact nil_prefix
  | case2 b =>
    -- a backslash at the end hides the first byte behind the text
    simp only [mem_singleton] at hs
    by_cases hba : b = '\\'
    · subst hba
      cases rest with
      | nil => exact prefix_refl _
      | cons c rest => simp [throughQuote_escape hs]
    · simp [throughQuote_cons (Ne.symm hs) hba]
  | case3 => simp at hs
  | case4 c s hb ih =>
    simp only [mem_cons,not_or] at hs
    simpa [throughQuote_escape hs.1] using ih hs.2.2
  | case5 b c s hb hba ih =>
    obtain ⟨-,hs⟩ := not_or.mp (mt mem_cons.mpr hs)
    simpa [throughQuote_cons hb hba] using ih hs
end

section
def backslashes (s : Bytes) : ℕ := (s.reverse.takeWhile (· = '\\'.toUInt8)).length

theorem backslashes_cons (b : UInt8) (s : Bytes) :
    backslashes (b :: s) = if backslashes s = s.length then s.length + (if b = '\\' then 1 else 0) else backslashes s := by
  have hr : backslashes (b :: s) = (if backslashes s = s.reverse.length then s.reverse ++ [b].takeWhile (· = '\\'.toUInt8)
      else s.reverse.takeWhile (· = '\\'.toUInt8)).length := by
    rw [backslashes,reverse_cons,takeWhile_append,backslashes]
  rw [hr,length_reverse]
  by_cases ha : backslashes s = s.length
  · rw [if_pos ha,if_pos ha]
    by_cases hb : b = '\\' <;> simp [hb]
  · rw [if_neg ha,if_neg ha,backslashes]

theorem backslashes_le (s : Bytes) : backslashes s ≤ s.length := by
  simpa [backslashes] using (List.takeWhile_prefix (p := fun b => decide (b = '\\')) (l := s.reverse)).length_le

theorem backslashes_cons_of_ne {b : UInt8} (hb : b ≠ '\\') (s : Bytes) : backslashes (b :: s) = backslashes s := by
  rw [backslashes_cons,if_neg hb]
  split
  · rename_i ha
    exact ha.symm
  · rfl

theorem even_backslashes_escape (b : UInt8) (s : Bytes) :
    Even (backslashes ('\\' :: b :: s)) ↔ Even (backslashes s) := by
  have hle := backslashes_le s
  rw [backslashes_cons,backslashes_cons,length_cons]
  by_cases ha : backslashes s = s.length
  · by_cases hb : b = '\\'
    · simp [ha,hb,Nat.even_add_one]
    · simp [ha,hb]
  · have hne : backslashes s ≠ s.length + 1 := by omega
    simp [ha,hne]

variable {q : UInt8} {s : Bytes}

/-- Behind an odd number of backslashes a quote does not close. -/
theorem throughQuote_quote (hq : q ≠ '\\') (hs : q ∉ s) (rest : Bytes) : throughQuote q (s ++ q :: rest) =
    if Even (backslashes s) then (s ++ [q],rest) else (s ++ q :: (throughQuote q rest).1,(throughQuote q rest).2) := by
  fun_induction throughQuote q s with
  | case1 => exact throughQuote_self q rest
  | case2 b =>
    simp only [mem_singleton] at hs
    by_cases hba : b = '\\'
    · subst hba
      exact throughQuote_escape hq q rest
    · rw [cons_append,throughQuote_cons (Ne.symm hs) hba,backslashes_cons_of_ne hba]
      exact congrArg (fun p => (b :: p.1,p.2)) (throughQuote_self q rest)
  | case3 => simp at hs
  | case4 c s hb ih =>
    simp only [mem_cons,not_or] at hs
    rw [cons_append,cons_append,throughQuote_escape hq,ih hs.2.2]
    simp only [even_backslashes_escape]
    split <;> rfl
  | case5 b c s hb hba ih =>
    obtain ⟨-,hs⟩ := not_or.mp (mt mem_cons.mpr hs)
    rw [cons_append,throughQuote_cons hb hba,ih hs,backslashes_cons_of_ne hba]
    split <;> rfl
end

section
inductive Glyph where
  | plain (b : UInt8)
  | escaped (b : UInt8)
  deriving DecidableEq

def Glyph.write : Glyph → Bytes
  | .plain b => [b]
  | .escaped b => ['\\',b]

def writeGlyphs (l : List Glyph) : Bytes := l.flatMap Glyph.write

/-- No byte of the quotation is a quote or a backslash by itself. -/
def Glyph.Fits (q : UInt8) : Glyph → Prop
  | .plain b => b ≠ q ∧ b ≠ '\\'
  | .escaped _ => True

instance (q : UInt8) (g : Glyph) : Decidable (g.Fits q) := by
  cases g <;> unfold Glyph.Fits <;> infer_instance

variable {q : UInt8} {l : List Glyph}

theorem throughQuote_glyphs (hq : q ≠ '\\') (hl : ∀ g ∈ l, g.Fits q) (rest : Bytes) :
    throughQuote q (writeGlyphs l ++ q :: rest) = (writeGlyphs l ++ [q],rest) := by
  induction l with
  | nil => exact throughQuote_self q rest
  | cons g l ih =>
    have hm := ih fun g hg => hl g (by simp [hg])
    have hg : g.Fits q := hl g (by simp)
    cases g with
    | plain b =>
      have hw : writeGlyphs (.plain b :: l) = b :: writeGlyphs l := rfl
      rw [hw,cons_append,throughQuote_cons hg.1 hg.2,hm]
      rfl
    | escaped b =>
      have hw : writeGlyphs (.escaped b :: l) = '\\'.toUInt8 :: b :: writeGlyphs l := rfl
      rw [hw,cons_append,cons_append,throughQuote_escape hq,hm]
      rfl

theorem quotationEnds_glyphs (hl : ∀ g ∈ l, g.Fits '"') (brace : Bool) (rest : Bytes) :
    (quotationEnds brace (writeGlyphs l ++ '"'.toUInt8 :: rest)).1 = true := by
  induction l generalizing brace with
  | nil => cases rest <;> rfl
  | cons g l ih =>
    have hm := fun brace => ih (fun g hg => hl g (by simp [hg])) brace
    have hg : g.Fits '"' := hl g (by simp)
    cases g with
    | plain b =>
      obtain ⟨c,tail,ht⟩ : ∃ c tail, writeGlyphs l ++ '"'.toUInt8 :: rest = c :: tail :=
        exists_cons_of_ne_nil (by simp)
      have hw : writeGlyphs (.plain b :: l) ++ '"'.toUInt8 :: rest = b :: c :: tail := by rw [← ht]; rfl
      rw [hw,quotationEnds,if_neg hg.1,if_neg hg.2,← ht]
      exact hm _
    | escaped b =>
      have hw : writeGlyphs (.escaped b :: l) ++ '"'.toUInt8 :: rest =
          '\\'.toUInt8 :: b :: (writeGlyphs l ++ '"'.toUInt8 :: rest) := rfl
      rw [hw,quotationEnds,if_neg (by decide),if_pos rfl]
      exact hm _
end

/-- The inside of `$((…))`: bytes, escapes and parentheses that balance. -/
inductive Sum where
  | done
  | byte (b : UInt8) (more : Sum)
  | escape (b : UInt8) (more : Sum)
  | parens (inner more : Sum)

def Sum.write : Sum → Bytes
  | .done => []
  | .byte b more => b :: more.write
  | .escape b more => '\\' :: b :: more.write
  | .parens inner more => '('.toUInt8 :: (inner.write ++ ')'.toUInt8 :: more.write)

def isSumByte (b : UInt8) : Bool :=
  b ≠ '\\' && b ≠ '\'' && b ≠ '"' && b ≠ '\x60' && b ≠ '(' && b ≠ ')'

def Sum.WellFormed : Sum → Prop
  | .done => True
  | .byte b more => isSumByte b ∧ more.WellFormed
  | .escape _ more => more.WellFormed
  | .parens inner more => inner.WellFormed ∧ more.WellFormed

def Sum.rounds : Sum → ℕ
  | .done => 0
  | .byte _ more => more.rounds + 1
  | .escape _ more => more.rounds + 1
  | .parens inner more => more.rounds + 1 + inner.rounds + 1

theorem Sum.rounds_le (a : Sum) : a.rounds ≤ a.write.length := by
  induction a with
  | done => exact Nat.le_refl _
  | byte b more ih => simpa [rounds,write] using ih
  | escape b more ih =>
    simp only [rounds,write,length_cons]
    omega
  | parens inner more ihinner ihmore =>
    simp only [rounds,write,length_cons,length_append]
    omega

theorem arithDparenScanFrom_open (fuel depth : ℕ) (inside s : Bytes) : arithDparenScanFrom (fuel + 1) depth inside ('(' :: s) =
    arithDparenScanFrom fuel (depth + 1) (inside ++ ['('.toUInt8]) s := by
  rw [arithDparenScanFrom]
  simp +decide

theorem arithDparenScanFrom_close (fuel depth : ℕ) (inside s : Bytes) : arithDparenScanFrom (fuel + 1) (depth + 2) inside (')' :: s) =
    arithDparenScanFrom fuel (depth + 1) (inside ++ [')'.toUInt8]) s := by
  rw [arithDparenScanFrom]
  simp +decide

theorem arithDparenScanFrom_write (a : Sum) (h : a.WellFormed) (fuel depth : ℕ) (inside tail : Bytes) :
    arithDparenScanFrom (fuel + a.rounds) (depth + 1) inside (a.write ++ tail) =
      arithDparenScanFrom fuel (depth + 1) (inside ++ a.write) tail := by
  induction a generalizing fuel depth inside tail with
  | done => simp [Sum.write,Sum.rounds]
  | byte b more ih =>
    have hm := ih h.2 fuel depth (inside ++ [b]) tail
    have hb := h.1
    simp only [isSumByte,ne_eq,decide_not,Bool.and_eq_true,Bool.not_eq_eq_eq_not,Bool.not_true,decide_eq_false_iff_not] at hb
    obtain ⟨⟨⟨⟨⟨hbc,hs⟩,hd⟩,hba⟩,ho⟩,hc⟩ := hb
    rw [Sum.write,Sum.rounds,cons_append,← Nat.add_assoc,arithDparenScanFrom]
    simp [hbc,hs,hd,hba,ho,hc,hm]
  | escape b more ih =>
    have hm := ih h fuel depth (inside ++ ['\\'.toUInt8,b]) tail
    rw [Sum.write,Sum.rounds,cons_append,← Nat.add_assoc,arithDparenScanFrom]
    simp [hm]
  | parens inner more ihinner ihmore =>
    have hw : (Sum.parens inner more).write ++ tail = '('.toUInt8 :: (inner.write ++ ')'.toUInt8 :: (more.write ++ tail)) := by
      simp [Sum.write]
    have hf : fuel + (Sum.parens inner more).rounds = fuel + more.rounds + 1 + inner.rounds + 1 := by
      rw [Sum.rounds]
      omega
    rw [hw,hf,arithDparenScanFrom_open,ihinner h.1,arithDparenScanFrom_close,ihmore h.2]
    simp [Sum.write]

theorem extractDoubleParen_write (a : Sum) (h : a.WellFormed) (rest : Bytes) :
    extractDoubleParen (a.write ++ ')'.toUInt8 :: ')'.toUInt8 :: rest) = .ok (a.write,rest) := by
  have hle := a.rounds_le
  have hf : (a.write ++ ')'.toUInt8 :: ')'.toUInt8 :: rest).length =
    (rest.length + 1 + (a.write.length - a.rounds)) + 1 + a.rounds := by
    rw [length_append,length_cons,length_cons]
    omega
  have hs := arithDparenScanFrom_write a h ((rest.length + 1 + (a.write.length - a.rounds)) + 1) 0 [] (')' :: ')' :: rest)
  rw [extractDoubleParen,arithDparenScan,hf,hs,arithDparenScanFrom]
  simp +decide
end Cherubsh.Expander.ParamScanning
