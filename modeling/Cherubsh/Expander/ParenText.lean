import Cherubsh.Expander.ParamScanning
import Cherubsh.Library.Nesting

/-! # How the scanner of `$(…)` goes over text

What a round does at a byte that is not special, at a name and at a blank, and that what has
been copied into the body stays in it.
-/
namespace Cherubsh.Expander.ParamScanning
open Utf8 Forward List

section
variable {ext : Extractors} {s : Paren} {b : UInt8} {rest : Bytes}

/-- A round, or its result, has what was copied before. -/
abbrev Keeps (body : Bytes) : Round Paren UInt8 Extracted → Prop :=
  Round.Holds (fun t => body <+: t.body) fun result => ∀ p, result = .ok p → body <+: p.1

theorem keeps_heredocLine (delimiter : Bytes) (stripTabs : Bool) (others : List (Bytes × Bool)) (text : Bytes) :
    Keeps s.body (heredocLine s delimiter stripTabs others text) := by
  unfold heredocLine
  dsimp only
  split
  · rintro p ⟨⟩
    rw [append_assoc]
    exact prefix_append ..
  · exact prefix_append ..

theorem keeps_otherByte : Keeps s.body (otherByte s b rest) := by
  unfold otherByte
  split
  · exact prefix_append ..
  · split
    · split
      · exact prefix_append ..
      · split
        · rintro p ⟨⟩
          exact prefix_refl _
        · exact prefix_append ..
    · exact prefix_append ..

theorem keeps_parenMove : Keeps s.body (parenMove ext s b rest) := by
  unfold parenMove
  split
  · exact keeps_heredocLine ..
  · split
    · exact prefix_append ..
    split
    · exact prefix_append ..
    split
    · exact prefix_append ..
    split
    · exact prefix_append ..
    split
    · split
      · rintro p ⟨⟩
      · exact prefix_append ..
    split
    · exact prefix_append ..
    split
    · exact prefix_append ..
    · exact keeps_otherByte

theorem keeps_parenStep : Keeps s.body (parenStep ext s b rest) := by
  have hm : Keeps s.body (parenMove ext s b rest) := keeps_parenMove
  unfold parenStep
  cases h : parenMove ext s b rest with
  | stop result | next t after => simpa [Keeps,Round.Holds,h] using hm

theorem body_isPrefix_of_leads {previous : Option UInt8} {text m : Bytes} {t : Paren} {p : Bytes × Bytes}
    (h : Leads (parenStep ext) (.start previous) text t m) (hp : extractParenWith ext previous text = .ok p) :
    t.body <+: p.1 := by
  have ha : ∀ q, extractParenWith ext previous text = .ok q → t.body <+: q.1 := by
    refine run_holds_of_leads (P := fun u => t.body <+: u.body)
      (Q := fun result : Extracted => ∀ q, result = .ok q → t.body <+: q.1) h (prefix_refl _) ?_ ?_
    · intro u a rest hu
      have hr : Keeps u.body (parenStep ext u a rest) := keeps_parenStep
      cases hs : parenStep ext u a rest with
      | stop result =>
        rw [hs] at hr
        exact fun q hq => hu.trans (hr q hq)
      | next v after =>
        rw [hs] at hr
        exact hu.trans hr
    · rintro u - q ⟨⟩
  exact ha p hp
end

section
variable {ext : Extractors} {s : Paren} {b : UInt8} {rest : Bytes}

/-- Bytes that are more than themselves to the scanner, the parentheses apart. -/
def isSpecial (b : UInt8) : Bool :=
  b = 0x0A || b = '#' || b = '\\' || b = '\'' || b = '"' || b = '\x60' || isNameStart b

/-- A dollar sign or a less-than sign is more only with the byte behind it. -/
def Alone (b : UInt8) (rest : Bytes) : Prop :=
  (b = '$' → rest.head? ≠ some '\''.toUInt8) ∧ (b = '<' → rest.head? ≠ some '<'.toUInt8)

theorem alone_of_ne (hd : b ≠ '$') (hl : b ≠ '<') : Alone b rest :=
  ⟨fun h => absurd h hd,fun h => absurd h hl⟩

theorem appendAnsiCLiteral_eq_none (h : b = '$' → rest.head? ≠ some '\'') : appendAnsiCLiteral (b :: rest) = none := by
  cases rest with
  | nil => rfl
  | cons c rest =>
    refine if_neg ?_
    rintro ⟨hb,hc⟩
    exact h hb (by rw [hc]; rfl)

theorem appendAnsiCLiteral_of_ne (hb : b ≠ '$') : appendAnsiCLiteral (b :: rest) = none :=
  appendAnsiCLiteral_eq_none fun h => absurd h hb

theorem parenMove_otherByte (hdo : s.heredocs = []) (hb : isSpecial b = false) (ha : Alone b rest) :
    parenMove ext s b rest = otherByte s b rest := by
  simp only [isSpecial,Bool.or_eq_false_iff,decide_eq_false_iff_not] at hb
  obtain ⟨⟨⟨⟨⟨⟨hnl,hh⟩,hbc⟩,hs⟩,hd⟩,hba⟩,hn⟩ := hb
  have hl : ¬(b = '<' ∧ rest.head? = some '<'.toUInt8) := fun h => ha.2 h.1 h.2
  simp [parenMove,hdo,appendAnsiCLiteral_eq_none ha.1,hnl,hh,hbc,hs,hd,hba,hl,hn]

theorem ne_of_holds {p : UInt8 → Bool} {c : UInt8} (hb : p b) (hc : p c = false) : b ≠ c := by
  rintro rfl
  simp [hb] at hc

theorem parenMove_name (hd : s.heredocs = []) (hb : isNameStart b) : parenMove ext s b rest =
      .next { s.add (b :: rest.takeWhile isNameByte) false with caseDepth := s.caseDepthAfter (b :: rest.takeWhile isNameByte) }
        (rest.dropWhile isNameByte) := by
  have hne : ∀ c, isNameStart c = false → b ≠ c := fun c => ne_of_holds hb
  have ha : Alone b rest := alone_of_ne (hne '$' (by decide)) (hne '<' (by decide))
  simp [parenMove,hd,appendAnsiCLiteral_eq_none ha.1,hne 0x0A (by decide),hne '#' (by decide),
    hne '\\' (by decide),hne '\'' (by decide),hne '"' (by decide),hne '\x60' (by decide),
    hne '<' (by decide),hb]

@[simp] theorem readBetween_append (chunk rest : Bytes) : readBetween (chunk ++ rest) rest = chunk := by
  simp [readBetween]

theorem parenStep_of_move {t : Paren} {chunk : Bytes} (h : parenMove ext s b (chunk ++ rest) = .next t rest) :
    parenStep ext s b (chunk ++ rest) =
      .next { t with previous := lastSignificant (b :: chunk) s.previous } rest := by
  have hr : readBetween (b :: (chunk ++ rest)) rest = b :: chunk := readBetween_append (b :: chunk) rest
  simp only [parenStep,h,hr]
end

abbrev depthOver (depth : ℕ) (l : List Bytes) : ℕ := Nesting.depth (asciiBytes "case") (asciiBytes "esac") depth l

/-- Some parentheses open, no here-document announced, and an `esac` may close. -/
structure At (parens : ℕ) (front : Bytes) (cases : ℕ) (s : Paren) : Prop where
  depth : s.depth = parens
  heredocs : s.heredocs = []
  body : s.body = front
  caseDepth : s.caseDepth = cases
  settled : cases = 0 ∨ s.previous ≠ some '|'.toUInt8 ∧ s.previous ≠ some '('.toUInt8

section
variable {b : UInt8}

theorem not_isAsciiWhitespace_of_isNameByte (hb : isNameByte b) : isAsciiWhitespace b = false := by
  have ha : ∀ b, isNameByte b → isAsciiWhitespace b = false := forall_byte (by decide +kernel)
  exact ha b hb

theorem isSpecial_of_isDigit (hb : isDigit b) : isSpecial b = false := by
  have ha : ∀ b, isDigit b → isSpecial b = false := forall_byte (by decide +kernel)
  exact ha b hb

theorem lastSignificant_name {w : Bytes} (hne : w ≠ []) (hw : ∀ b ∈ w, isNameByte b) (before : Option UInt8) :
    ∃ c ∈ w, lastSignificant w before = some c := by
  unfold lastSignificant
  cases h : w.reverse.find? fun b => !isAsciiWhitespace b with
  | none =>
    obtain ⟨c,hc⟩ := exists_mem_of_ne_nil w hne
    have hn := List.find?_eq_none.1 h c (by simpa using hc)
    simp [not_isAsciiWhitespace_of_isNameByte (hw c hc)] at hn
  | some c => exact ⟨c,by simpa using mem_of_find?_eq_some h,rfl⟩
end

section
variable (ext : Extractors) {parens : ℕ} {body : Bytes} {depth : ℕ} {s : Paren} {b : UInt8} {w tail : Bytes}

variable (h : At parens body depth s)
include h

theorem at_byte (hb : isSpecial b = false) (ha : Alone b tail) (ho : b ≠ '(') (hc : b ≠ ')') (hba : depth = 0 ∨ b ≠ '|') :
    Reaches (parenStep ext) (At parens (body ++ [b]) depth) s (b :: tail) tail := by
  have hm : parenMove ext s b ([] ++ tail) = .next (s.add [b] (isAsciiWhitespace b || isShellMetacharacter b)) tail := by
    rw [nil_append,parenMove_otherByte h.heredocs hb ha]
    simp [otherByte,ho,hc]
  refine .one (parenStep_of_move hm) (Nat.le_refl _) ⟨h.depth,h.heredocs,?_,h.caseDepth,?_⟩
  · simp [Paren.add,h.body]
  · rcases h.settled with hz | hp
    · exact .inl hz
    · refine hba.imp_right fun hba => ?_
      by_cases hs : isAsciiWhitespace b
      · simpa [lastSignificant,hs] using hp
      · simp [lastSignificant,hs,ho,hba]

theorem caseDepthAfter_eq (word : Bytes) : s.caseDepthAfter word = depthOver depth [word] := by
  rcases h.settled with hz | ⟨hb,ho⟩
  · simp only [Paren.caseDepthAfter,h.caseDepth,hz,Nesting.depth,List.foldl,Nesting.step]
    split <;> simp
  · simp [Paren.caseDepthAfter,h.caseDepth,Nesting.depth,Nesting.step,hb,ho]

theorem at_name (hb : isNameStart b) (hw : ∀ c ∈ w, isNameByte c) (ht : ∀ c ∈ tail.head?, isNameByte c = false) :
    Reaches (parenStep ext) (At parens (body ++ b :: w) (depthOver depth [b :: w])) s (b :: w ++ tail) tail := by
  have hs : tail.takeWhile isNameByte = [] ∧ tail.dropWhile isNameByte = tail := by
    cases tail with
    | nil => exact ⟨rfl,rfl⟩
    | cons c tail => simp [ht c rfl]
  have hta : (w ++ tail).takeWhile isNameByte = w := by
    rw [takeWhile_append_of_pos hw,hs.1,append_nil]
  have hd : (w ++ tail).dropWhile isNameByte = tail := by
    rw [dropWhile_append_of_pos hw,hs.2]
  have hm : parenMove ext s b (w ++ tail) = _ := parenMove_name h.heredocs hb
  rw [hta,hd] at hm
  have ha : ∀ c ∈ b :: w, isNameByte c := by
    rintro c (_ | ⟨_,hc⟩)
    · simp [isNameByte,hb]
    · exact hw c hc
  obtain ⟨c,hc,hp⟩ := lastSignificant_name (cons_ne_nil b w) ha s.previous
  refine .one (parenStep_of_move hm) (by simp) ⟨h.depth,h.heredocs,?_,?_,.inr ?_⟩
  · simp [Paren.add,h.body]
  · exact caseDepthAfter_eq h (b :: w)
  · simp only [hp,ne_eq,Option.some.injEq]
    exact ⟨ne_of_holds (ha c hc) (by decide),ne_of_holds (ha c hc) (by decide)⟩

theorem at_segment (hw : ∀ c ∈ w, isNameByte c) (ht : ∀ c ∈ tail.head?, isNameByte c = false) :
    Reaches (parenStep ext) (At parens (body ++ w) (depthOver depth [w.dropWhile isDigit])) s (w ++ tail) tail := by
  induction w generalizing body s with
  | nil =>
    refine .here ?_
    simpa [Nesting.depth,Nesting.step,asciiBytes] using h
  | cons b w ih =>
    by_cases hd : isDigit b
    · have hb : isNameByte b := hw b (by simp)
      have hne : ∀ c, isNameByte c = false → b ≠ c := fun c => ne_of_holds hb
      have ho : Reaches (parenStep ext) (At parens (body ++ [b]) depth) s (b :: (w ++ tail)) (w ++ tail) :=
        at_byte ext h (isSpecial_of_isDigit hd) (alone_of_ne (hne _ (by decide)) (hne _ (by decide))) (hne _ (by decide))
          (hne _ (by decide)) (.inr (hne _ (by decide)))
      refine ho.bind fun u hu => ?_
      simpa [dropWhile_cons,hd] using ih hu fun c hc => hw c (by simp [hc])
    · have hs : isNameStart b := by simpa [isNameByte,hd] using hw b (by simp)
      simpa [dropWhile_cons,hd] using at_name ext h hs (fun c hc => hw c (by simp [hc])) ht

omit h

theorem notName_head (hb : isNameByte b = false) : ∀ c ∈ (b :: tail).head?, isNameByte c = false := by
  rintro c ⟨⟩
  exact hb

theorem at_start (previous : Option UInt8) : At 1 [] 0 (.start previous) := ⟨rfl,rfl,rfl,rfl,.inl rfl⟩
end

theorem extractParenWith_eq_iff_of_reaches {ext : Extractors} {previous : Option UInt8} {text rest : Bytes} {depth : ℕ}
    (h : Reaches (parenStep ext) (At 1 text depth) (.start previous) (text ++ ')'.toUInt8 :: rest) (')'.toUInt8 :: rest)) :
    extractParenWith ext previous (text ++ ')'.toUInt8 :: rest) = .ok (text,rest) ↔ depth = 0 := by
  obtain ⟨t,hl,ht⟩ := h
  have hm : parenMove ext t ')' rest = otherByte t ')' rest :=
    parenMove_otherByte ht.heredocs (by decide) (alone_of_ne (by decide) (by decide))
  constructor
  · intro hok
    by_contra hd
    have hs : parenStep ext t ')' ([] ++ rest) =
        .next { t.add [')'] true with previous := lastSignificant [')'] t.previous } rest := by
      refine parenStep_of_move ?_
      rw [nil_append,hm]
      simp +decide [otherByte,ht.caseDepth,ht.depth,Nat.pos_of_ne_zero hd]
    have hf := body_isPrefix_of_leads (hl.trans (.one hs (Nat.le_refl _))) hok
    have hle : text.length + 1 ≤ text.length := by simpa [Paren.add,ht.body] using hf.length_le
    omega
  · rintro rfl
    refine run_of_leads_stop hl ?_
    simp +decide [parenStep,hm,otherByte,ht.caseDepth,ht.depth,ht.body]
end Cherubsh.Expander.ParamScanning
