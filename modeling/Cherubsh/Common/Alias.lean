import Cherubsh.Common.History

/-! # Expanding the first word of a command

`expandAliasChain` follows the first word of each value. `Chain` is its rule: replace the first
word while it is an alias that the chain has not used yet.
-/
namespace Cherubsh.Common.Alias
open List

abbrev Aliases := List (Text × Text)

def isWhitespace (ch : Char) : Bool :=
  let n := ch.toNat
  (0x09 ≤ n && n ≤ 0x0D) || n = 0x20 || n = 0x85 || n = 0xA0 || n = 0x1680 || (0x2000 ≤ n && n ≤ 0x200A) ||
    n = 0x2028 || n = 0x2029 || n = 0x202F || n = 0x205F || n = 0x3000

def isAliasWordChar (ch : Char) : Bool :=
  ch.isAlphanum || ch = '_' || ch = '.' || ch = '-' || ch = '!' || ch = '%' || ch = ':' || ch = '@'

def aliasGet (aliases : Aliases) (word : Text) : Option Text := aliases.lookup word

def firstAliasWord (value : Text) : Option Text :=
  let out := (value.dropWhile isWhitespace).takeWhile isAliasWordChar
  if out = [] then none else some out

def firstAliasWordSpan (value : Text) : Option (Text × Text × Text) :=
  let rest := value.dropWhile isWhitespace
  if rest.takeWhile isAliasWordChar = [] then none
  else some (value.takeWhile isWhitespace,rest.takeWhile isAliasWordChar,rest.dropWhile isAliasWordChar)

def replaceFirstAliasWord (value replacement : Text) : Text :=
  match firstAliasWordSpan value with
  | none => value
  | some (before,_,after) => before ++ replacement ++ after

inductive AliasExpand where
  | expanded (text : Text)
  | noAlias
  | cycle
  deriving DecidableEq

def expandAliasChainInner (aliases : Aliases) : ℕ → Text → List Text → AliasExpand
  | 0, _, _ => .cycle
  | fuel + 1, word, seen =>
    if word ∈ seen then .cycle
    else match aliasGet aliases word with
    | none => .noAlias
    | some value =>
      match firstAliasWord value with
      | none => .expanded value
      | some first =>
        if first ∈ word :: seen then
          if first = word ∧ (word :: seen).length = 1 then .expanded value else .cycle
        else match expandAliasChainInner aliases fuel first (word :: seen) with
        | .expanded expandedFirst => .expanded (replaceFirstAliasWord value expandedFirst)
        | .noAlias => .expanded value
        | .cycle => .cycle

def expandAliasChain (aliases : Aliases) (word : Text) : Option Text :=
  match expandAliasChainInner aliases (aliases.length + 2) word [] with
  | .expanded value => some value
  | .noAlias => none
  | .cycle => none

/-- The first word is replaced by its value while it is an unused alias. -/
inductive Chain (aliases : Aliases) : List Text → Text → Text → Prop
  | stop {used : List Text} {text : Text} (h : ∀ before word after, firstAliasWordSpan text = some (before,word,after) →
      word ∈ used ∨ aliasGet aliases word = none) : Chain aliases used text text
  | step {used : List Text} {text before word after value result : Text}
      (hspan : firstAliasWordSpan text = some (before,word,after)) (hused : word ∉ used)
      (hvalue : aliasGet aliases word = some value)
      (hrest : Chain aliases (word :: used) (before ++ value ++ after) result) : Chain aliases used text result

section
theorem not_isWhitespace_of_isAliasWordChar {ch : Char} (h : isAliasWordChar ch = true) : isWhitespace ch = false := by
  have hr : 0x21 ≤ ch.toNat ∧ ch.toNat ≤ 0x7A := by
    unfold isAliasWordChar at h
    simp only [Bool.or_eq_true,decide_eq_true_eq,Char.isAlphanum,Char.isDigit,Bool.and_eq_true,ge_iff_le,
      UInt32.le_iff_toNat_le] at h
    rcases h with ((((((((h | h) | h) | h) | h) | h) | h) | h) | h)
    · have hn := Utf8.toNat_of_isAlpha h
      omega
    · exact ⟨Nat.le_trans (by decide) h.1,Nat.le_trans h.2 (by decide)⟩
    all_goals rw [h]; decide
  unfold isWhitespace
  simp only [Bool.or_eq_false_iff,Bool.and_eq_false_iff,decide_eq_false_iff_not]
  omega

variable {text before word after : Text}

structure Split (text before word after : Text) : Prop where
  eq : text = before ++ word ++ after
  blank : ∀ c ∈ before, isWhitespace c = true
  nonempty : word ≠ []
  chars : ∀ c ∈ word, isAliasWordChar c = true
  ends : ∀ c, after.head? = some c → isAliasWordChar c = false

theorem firstAliasWordSpan_eq_some_iff :
    firstAliasWordSpan text = some (before,word,after) ↔ Split text before word after := by
  unfold firstAliasWordSpan
  dsimp only
  constructor
  · intro h
    split at h
    · cases h
    rename_i hne
    simp only [Option.some.injEq,Prod.mk.injEq] at h
    obtain ⟨rfl,rfl,rfl⟩ := h
    refine ⟨?_,fun c hc => mem_takeWhile_imp hc,hne,fun c hc => mem_takeWhile_imp hc,?_⟩
    · rw [append_assoc,takeWhile_append_dropWhile,takeWhile_append_dropWhile]
    · intro c hc
      have hn := List.head?_dropWhile_not isAliasWordChar (text.dropWhile isWhitespace)
      rw [hc] at hn
      simpa using hn
  · rintro ⟨rfl,hb,hne,hch,he⟩
    obtain ⟨c,word,rfl⟩ := exists_cons_of_ne_nil hne
    have hc := not_isWhitespace_of_isAliasWordChar (hch c mem_cons_self)
    have hdr : (before ++ (c :: word) ++ after).dropWhile isWhitespace = (c :: word) ++ after := by
      rw [append_assoc,dropWhile_append_of_pos hb,cons_append,dropWhile_cons_of_neg (by simp [hc])]
    have ht : (before ++ (c :: word) ++ after).takeWhile isWhitespace = before := by
      rw [append_assoc,takeWhile_append_of_pos hb,cons_append,takeWhile_cons_of_neg (by simp [hc]),
        append_nil]
    have hw : ((c :: word) ++ after).takeWhile isAliasWordChar = c :: word ∧
        ((c :: word) ++ after).dropWhile isAliasWordChar = after := by
      rw [takeWhile_append_of_pos hch,dropWhile_append_of_pos hch]
      cases after with
      | nil => simp
      | cons d after =>
        have hd := he d rfl
        rw [takeWhile_cons_of_neg (by simp [hd]),dropWhile_cons_of_neg (by simp [hd]),append_nil]
        exact ⟨rfl,rfl⟩
    rw [hdr,ht,hw.1,hw.2,if_neg hne]

theorem firstAliasWord_eq (value : Text) : firstAliasWord value = (firstAliasWordSpan value).map fun parts => parts.2.1 := by
  unfold firstAliasWord firstAliasWordSpan
  dsimp only
  split <;> rfl
end
end Cherubsh.Common.Alias
