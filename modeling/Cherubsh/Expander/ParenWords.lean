import Cherubsh.Expander.ParenText
import Cherubsh.Parser.Token

/-! # Words inside `$(…)`

A name `case` hides the next closing parenthesis until a name `esac` comes, wherever the two
stand.
-/
namespace Cherubsh.Expander.ParamScanning
open Utf8 Forward List

def isWordByte (b : UInt8) : Bool := isNameByte b || b = '-'

def names (w : Bytes) : List Bytes := (w.splitOn '-'.toUInt8).map (·.dropWhile isDigit)

def sentence (words : List Bytes) : Bytes := [0x20].intercalate words

def OrdinaryWords (words : List Bytes) : Prop :=
  words ≠ [] ∧ (∀ w ∈ words, w ≠ [] ∧ w.all isWordByte) ∧
    ∀ w ∈ words.head?, Lexer.isReservedWordText (w.map fun b => Char.ofNat b.toNat) = false

section
variable (ext : Extractors) {body : Bytes} {depth : ℕ} {s : Paren} {b : UInt8} {w tail : Bytes}

variable (h : At 1 body depth s)
include h

theorem at_hyphen : Reaches (parenStep ext) (At 1 (body ++ ['-'.toUInt8]) depth) s ('-'.toUInt8 :: tail) tail :=
  at_byte ext h (by decide) (alone_of_ne (by decide) (by decide)) (by decide) (by decide) (.inr (by decide))

theorem at_blank : Reaches (parenStep ext) (At 1 (body ++ [0x20]) depth) s (0x20 :: tail) tail :=
  at_byte ext h (by decide) (alone_of_ne (by decide) (by decide)) (by decide) (by decide) (.inr (by decide))

omit h in
theorem isNameByte_of_isWordByte (hb : isWordByte b) (hne : b ≠ '-') : isNameByte b := by
  simpa [isWordByte,hne] using hb

theorem at_word (hw : ∀ c ∈ w, isWordByte c) (hta : ∀ c ∈ tail.head?, isNameByte c = false) :
    Reaches (parenStep ext) (At 1 (body ++ w) (depthOver depth (names w))) s (w ++ tail) tail := by
  induction hl : w.length using Nat.strong_induction_on generalizing w body depth s with
  | _ length ih =>
    by_cases hm : '-'.toUInt8 ∈ w
    · obtain ⟨before,after,rfl,hb⟩ := eq_append_cons_of_mem hm
      have hn : names (before ++ '-'.toUInt8 :: after) = before.dropWhile isDigit :: names after := by
        rw [names,splitOn_append_cons_self_of_not_mem hb,map_cons,names]
      have hs : Reaches (parenStep ext) (At 1 (body ++ before) (depthOver depth [before.dropWhile isDigit])) s
          (before ++ '-'.toUInt8 :: (after ++ tail)) ('-'.toUInt8 :: (after ++ tail)) := by
        refine at_segment ext h (fun c hc => isNameByte_of_isWordByte (hw c (by simp [hc])) ?_) (notName_head (by decide))
        rintro rfl
        exact hb hc
      rw [hn,append_assoc,cons_append]
      refine hs.bind fun t ht => (at_hyphen ext ht).bind fun u hu => ?_
      have ha := ih after.length (by rw [← hl]; simp; omega) hu (fun c hc => hw c (by simp [hc])) rfl
      simpa [append_assoc] using ha
    · have hn : names w = [w.dropWhile isDigit] := by rw [names,splitOn_eq_singleton hm,map_singleton]
      rw [hn]
      refine at_segment ext h (fun c hc => isNameByte_of_isWordByte (hw c hc) ?_) hta
      rintro rfl
      exact hm hc

theorem at_sentence {words : List Bytes} (hwo : ∀ w ∈ words, ∀ c ∈ w, isWordByte c)
    (hta : ∀ c ∈ tail.head?, isNameByte c = false) :
    Reaches (parenStep ext) (At 1 (body ++ sentence words) (depthOver depth (words.flatMap names))) s (sentence words ++ tail) tail := by
  induction words generalizing body depth s with
  | nil =>
    refine .here ?_
    simpa [sentence,Nesting.depth] using h
  | cons w words ih =>
    cases words with
    | nil => simpa [sentence] using at_word ext h (hwo w (by simp)) hta
    | cons v words =>
      have hs : sentence (w :: v :: words) = w ++ 0x20 :: sentence (v :: words) := by simp [sentence,List.intercalate]
      have hwr : Reaches (parenStep ext) (At 1 (body ++ w) (depthOver depth (names w))) s
          (w ++ 0x20 :: (sentence (v :: words) ++ tail)) (0x20 :: (sentence (v :: words) ++ tail)) :=
        at_word ext h (hwo w (by simp)) (notName_head (by decide))
      rw [hs,append_assoc,cons_append,flatMap_cons]
      refine hwr.bind fun t ht => (at_blank ext ht).bind fun u hu => ?_
      have hm := ih hu fun w hw => hwo w (by simp [hw])
      simpa [append_assoc,Nesting.depth_append] using hm
end

/-- The words come back exactly when no final part of their names has more `case` than `esac`. -/
theorem extractParen_sentence_iff (previous : Option UInt8) (words : List Bytes) (rest : Bytes)
    (hwords : ∀ w ∈ words, ∀ c ∈ w, isWordByte c) :
    extractParen previous (sentence words ++ ')'.toUInt8 :: rest) = .ok (sentence words,rest) ↔
      Nesting.Closed (asciiBytes "case") (asciiBytes "esac") (words.flatMap names) := by
  have hreach : Reaches (parenStep (extractors (sentence words ++ ')'.toUInt8 :: rest).length))
      (At 1 (sentence words) (depthOver 0 (words.flatMap names))) (.start previous) (sentence words ++ ')'.toUInt8 :: rest)
      (')'.toUInt8 :: rest) := at_sentence _ (at_start previous) hwords (notName_head (by decide))
  rw [extractParen,extractParenWith_eq_iff_of_reaches hreach]
  exact Nesting.depth_eq_zero_iff (by decide) _

/-- Two words that look for a word: the names are `grep` and `x`. -/
theorem extractParen_grep : extractParen (some '('.toUInt8) (sentence ["grep","-1x"] ++ [')'.toUInt8]) =
      .ok (sentence ["grep","-1x"],[]) :=
  (extractParen_sentence_iff _ [asciiBytes "grep",asciiBytes "-1x"] [] (by decide)).2 (by decide)

/-- In `$(grep --ignore-case x)` the option opens a case command, and the substitution has
no end. -/
theorem ignoreCase_hides_parenthesis :
    OrdinaryWords ["grep","--ignore-case","x"] ∧
      extractParen (some '('.toUInt8) (sentence ["grep","--ignore-case","x"] ++ [')'.toUInt8]) =
        .error (.badSubstitution "missing ')'") := by
  refine ⟨⟨by decide,by decide,by decide⟩,by decide +kernel⟩
end Cherubsh.Expander.ParamScanning
