import Cherubsh.Expander.BraceUnits

/-! # Brace expansion as a product

Words of parts and of lists in braces, what they stand for, and that brace expansion gives just
that as long as no part disturbs the search for commas and closing braces.
-/
namespace Cherubsh.Expander.Braces
open Utf8 List
open Arith (trim trimStart parseI64)

section
mutual
inductive Word (α : Type) where
  | done
  | part (a : α) (rest : Word α)
  | list (alternatives : Alternatives α) (rest : Word α)

inductive Alternatives (α : Type) where
  | two (first second : Word α)
  | more (first : Word α) (others : Alternatives α)
end

variable {α : Type} (text : α → Bytes)

mutual
def Word.bytes : Word α → Bytes
  | .done => []
  | .part a rest => text a ++ rest.bytes
  | .list alternatives rest => '{'.toUInt8 :: (alternatives.bytes ++ '}'.toUInt8 :: rest.bytes)

def Alternatives.bytes : Alternatives α → Bytes
  | .two first second => first.bytes ++ ','.toUInt8 :: second.bytes
  | .more first others => first.bytes ++ ','.toUInt8 :: others.bytes
end

mutual
/-- What a word stands for: side by side is a product, a list its alternatives one after another. -/
def Word.denotation : Word α → List Bytes
  | .done => [[]]
  | .part a rest => rest.denotation.map (text a ++ ·)
  | .list alternatives rest => alternatives.denotation.flatMap fun x => rest.denotation.map (x ++ ·)

def Alternatives.denotation : Alternatives α → List Bytes
  | .two first second => first.denotation ++ second.denotation
  | .more first others => first.denotation ++ others.denotation
end

def Alternatives.texts : Alternatives α → List Bytes
  | .two first second => [first.bytes text,second.bytes text]
  | .more first others => first.bytes text :: others.texts
end

/-- A byte that no scan of a word takes for anything but itself. -/
def isLiteral (b : UInt8) : Bool := b ∉ ['{','}',',','$','\'','"','\x60','\\'].map Char.toUInt8

/-- Something about a text at some depth of braces, shown from its end to its start. -/
structure Scan (top : Prop) (P : ℕ → Bytes → Bytes → Prop) : Prop where
  plain : ∀ {d cur rest} {b : UInt8}, quotedChunk (b :: rest) = none → b ∉ ['{','}',','].map Char.toUInt8 →
    P d (cur ++ [b]) rest → P d cur (b :: rest)
  opening : ∀ {d cur rest}, P (d + 1) (cur ++ ['{'.toUInt8]) rest → P d cur ('{'.toUInt8 :: rest)
  closing : ∀ {d cur rest}, P d (cur ++ ['}'.toUInt8]) rest → P (d + 1) cur ('}'.toUInt8 :: rest)
  comma : ∀ {d cur rest}, top ∨ 0 < d → P d (cur ++ [','.toUInt8]) rest → P d cur (','.toUInt8 :: rest)

def ClosesAs (result : Option (Bytes × Bytes)) (d : ℕ) (cur text : Bytes) : Prop := ∀ fuel, text.length ≤ fuel →
  (untilClosing '{' '}' fuel d text).map (fun p => (cur ++ p.1,p.2)) = result

def SplitsAs (pieces : List Bytes) (d : ℕ) (cur text : Bytes) : Prop := ∀ fuel, text.length ≤ fuel →
  topLevelSplitFrom fuel d cur text = pieces

theorem ClosesAs.cons {result : Option (Bytes × Bytes)} {d d' : ℕ} {cur rest : Bytes} {b : UInt8}
    (hq : quotedChunk (b :: rest) = none) (hb : ¬(b = '}' ∧ d = 0))
    (hd : (if b = '{' then d + 1 else if b = '}' then d - 1 else d) = d')
    (h : ClosesAs result d' (cur ++ [b]) rest) : ClosesAs result d cur (b :: rest) := by
  rintro (_ | fuel) hf
  · cases hf
  rw [untilClosing,hq]
  dsimp only
  rw [if_neg hb,hd,Option.map_map]
  simpa [Function.comp_def] using h fuel (by simpa using hf)

theorem SplitsAs.cons {pieces : List Bytes} {d d' : ℕ} {cur rest : Bytes} {b : UInt8} (hq : quotedChunk (b :: rest) = none)
    (hb : ¬(b = ',' ∧ (d : ℤ) = 0)) (hd : (if b = '{' then (d : ℤ) + 1 else if b = '}' then d - 1 else d) = d')
    (h : SplitsAs pieces d' (cur ++ [b]) rest) : SplitsAs pieces d cur (b :: rest) := by
  rintro (_ | fuel) hf
  · cases hf
  rw [topLevelSplitFrom,hq]
  dsimp only
  rw [if_neg hb,hd]
  exact h fuel (by simpa using hf)

theorem scan_closesAs (result : Option (Bytes × Bytes)) : Scan True (ClosesAs result) where
  plain hq hb := .cons hq (by simp_all) (by simp_all)
  opening := .cons rfl (fun h => absurd h.1 (by decide)) rfl
  closing := .cons rfl (by simp) rfl
  comma _ := .cons rfl (fun h => absurd h.1 (by decide)) rfl

theorem scan_splitsAs (pieces : List Bytes) : Scan False (SplitsAs pieces) where
  plain hq hb := .cons hq (by simp_all) (by simp_all)
  opening := .cons rfl (fun h => absurd h.1 (by decide)) rfl
  closing := .cons rfl (fun h => absurd h.1 (by decide)) (by rw [if_neg (by decide)]; simp)
  comma hd := .cons rfl (by simpa [Nat.pos_iff_ne_zero] using hd) rfl

/-- A text that every scan passes over, and the search for a brace expression too. -/
structure Atomic (p : Bytes) : Prop where
  inside : ∀ {top P d cur rest}, Scan top P → P d (cur ++ p) rest → P d cur (p ++ rest)
  outside : ∀ rest, findTopBrace (p ++ rest) = (findTopBrace rest).map fun q => (p ++ q.1,q.2)

theorem atomic_of_isLiteral {b : UInt8} (hb : isLiteral b = true) : Atomic [b] := by
  simp only [isLiteral,List.map,mem_cons,not_mem_nil,or_false,not_or,decide_eq_true_eq] at hb
  have hq (rest : Bytes) : quotedChunk (b :: rest) = none := by
    rw [quotedChunk.eq_def]
    simp [hb]
  refine ⟨fun hs h => hs.plain (hq _) (by simp [hb]) h,fun rest => findTopBrace_of_skip ?_⟩
  simp [topBraceStep,hq,hb]

theorem findDotdot_eq {d : ℤ} {text start after : Bytes} (h : findDotdot d text = some (start,after)) :
    text = start ++ '.'.toUInt8 :: '.'.toUInt8 :: after := by
  fun_induction findDotdot d text generalizing start with
  | case4 => simp_all
  | case6 => cases h
  | _ =>
    rename_i ih
    obtain ⟨p,hp,heq⟩ := Option.map_eq_some_iff.mp h
    cases heq
    rw [ih hp]
    rfl

theorem mem_trim {c : Char} (hc : Arith.isWhitespace c = false) {s : List Char} (h : c ∈ s) : c ∈ trim s := by
  have hd (s : List Char) (h : c ∈ s) : c ∈ trimStart s := by
    unfold trimStart
    induction s <;> grind [dropWhile_cons]
  exact mem_reverse.mpr (hd _ (mem_reverse.mpr (hd _ h)))

theorem parseSeqNum_of_comma {s : Bytes} (h : ','.toUInt8 ∈ s) : parseSeqNum s = none := by
  rcases fromUtf8_cases s with ⟨text,hr,rfl⟩ | ⟨_,_,hr,-⟩
  · have hm : ',' ∈ trim text := mem_trim rfl ((mem_encode rfl).mp h)
    have hn : parseI64 (trim text) = none := by
      unfold parseI64
      split
      rename_i _ digits heq
      have hd : ',' ∈ digits := by split at heq <;> simp_all
      rw [if_pos]
      rw [Bool.or_eq_true,Bool.not_eq_true',all_eq_false]
      exact .inr ⟨_,hd,by decide⟩
    rw [parseSeqNum,hr]
    dsimp only
    rw [hn,Option.map_none,ite_self]
  · rw [parseSeqNum,hr]

theorem rawStep_of_comma {part : Bytes} (h : ','.toUInt8 ∈ part) : rawStep (some part) = none := by
  rw [rawStep,parseSeqNum_of_comma h]
  rfl

theorem expandRange_of_comma {start stop : Bytes} {step : Option Bytes}
    (h : ','.toUInt8 ∈ start ∨ ','.toUInt8 ∈ stop ∨ rawStep step = none) : expandRange start stop step = none := by
  unfold expandRange
  split
  · rfl
  split
  · rename_i s e hs he
    rcases h with h | h | h
    · simp [parseSeqNum_of_comma h] at hs
    · simp [parseSeqNum_of_comma h] at he
    · rw [expandNumbers,h]
  · split
    · rename_i s e _
      rcases h with h | h | h
      · rw [← mem_singleton.mp h]
        rfl
      · rw [← mem_singleton.mp h]
        simp [show isAlphabetic ',' = false from rfl]
      · rw [expandLetters,h,ite_self]
    · rfl

theorem expandSequence_of_comma {body : Bytes} (h : ','.toUInt8 ∈ body) : expandSequence body = none := by
  unfold expandSequence
  split
  · rfl
  · rename_i start after hf
    rw [findDotdot_eq hf] at h
    split
    · rename_i stop step hs
      rw [findDotdot_eq hs] at h
      refine expandRange_of_comma ?_
      have := @rawStep_of_comma step
      simp at h
      tauto
    · refine expandRange_of_comma ?_
      simp at h
      tauto

theorem braceExpandWith_part {p rest : Bytes} (hp : Atomic p) (fuel : ℕ) :
    braceExpandWith fuel (p ++ rest) = (braceExpandWith fuel rest).map (p ++ ·) := by
  cases fuel with
  | zero => rfl
  | succ fuel =>
    rw [braceExpandWith,braceExpandWith,hp.outside]
    cases findTopBrace rest with
    | none => rfl
    | some q =>
      dsimp only [Option.map_some]
      split <;> simp [map_flatMap,Function.comp_def]

section
variable {α : Type} {text : α → Bytes}

variable (htext : ∀ a, Atomic (text a))
include htext

section
variable {top : Prop} {P : ℕ → Bytes → Bytes → Prop}
omit htext

mutual
theorem Word.scan (htext : ∀ a, Atomic (text a)) (hs : Scan top P) {d : ℕ} {cur rest : Bytes} (w : Word α)
    (h : P d (cur ++ w.bytes text) rest) : P d cur (w.bytes text ++ rest) := by
  cases w with
  | done => simpa [Word.bytes] using h
  | part a w =>
    rw [Word.bytes,append_assoc]
    exact (htext a).inside hs (w.scan htext hs (by simpa [Word.bytes] using h))
  | list alts w =>
    simp only [Word.bytes,cons_append,append_assoc]
    refine hs.opening (alts.scan htext hs (.inr (Nat.succ_pos d)) ?_)
    exact hs.closing (w.scan htext hs (by simpa [Word.bytes] using h))

theorem Alternatives.scan (htext : ∀ a, Atomic (text a)) (hs : Scan top P) {d : ℕ} {cur rest : Bytes} (hd : top ∨ 0 < d)
    (alts : Alternatives α) (h : P d (cur ++ alts.bytes text) rest) : P d cur (alts.bytes text ++ rest) := by
  cases alts with
  | two first second =>
    simp only [Alternatives.bytes,cons_append,append_assoc]
    exact first.scan htext hs (hs.comma hd (second.scan htext hs (by simpa [Alternatives.bytes] using h)))
  | more first others =>
    simp only [Alternatives.bytes,cons_append,append_assoc]
    exact first.scan htext hs (hs.comma hd (others.scan htext hs hd (by simpa [Alternatives.bytes] using h)))
end
end

theorem Alternatives.closes (alts : Alternatives α) (suffix : Bytes) :
    untilClosing '{' '}' (alts.bytes text ++ '}'.toUInt8 :: suffix).length 0 (alts.bytes text ++ '}'.toUInt8 :: suffix) =
      some (alts.bytes text,suffix) := by
  have he : ClosesAs (some (alts.bytes text,suffix)) 0 (alts.bytes text) ('}'.toUInt8 :: suffix) := by
    rintro (_ | fuel) hf
    · cases hf
    simp [untilClosing,show ∀ rest, quotedChunk ('}'.toUInt8 :: rest) = none from fun _ => rfl]
  have ha : ClosesAs _ 0 [] (alts.bytes text ++ _) := alts.scan htext (scan_closesAs _) (.inl trivial) he
  simpa using ha _ le_rfl

theorem Word.splitsAs (first : Word α) {pieces : List Bytes} {after : Bytes} (h : SplitsAs pieces 0 [] after) :
    SplitsAs (first.bytes text :: pieces) 0 [] (first.bytes text ++ ','.toUInt8 :: after) := by
  refine first.scan htext (scan_splitsAs _) ?_
  rintro (_ | fuel) hf
  · cases hf
  exact congrArg (first.bytes text :: ·) (h fuel (by simpa using hf))

theorem Alternatives.splitsAs : ∀ alts : Alternatives α, SplitsAs (alts.texts text) 0 [] (alts.bytes text)
  | .two first second => by
    have he : SplitsAs [second.bytes text] 0 (second.bytes text) [] := fun fuel _ => by cases fuel <;> rfl
    have ha : SplitsAs _ 0 [] (second.bytes text ++ []) := second.scan htext (scan_splitsAs _) he
    rw [append_nil] at ha
    exact first.splitsAs htext ha
  | .more first others => first.splitsAs htext others.splitsAs

theorem findTopBrace_list (alts : Alternatives α) (rest : Bytes) :
    findTopBrace ('{'.toUInt8 :: (alts.bytes text ++ '}'.toUInt8 :: rest)) = some ([],alts.bytes text,rest) := by
  have hb : isExpandableBody (alts.bytes text) = true := by
    have hs : topLevelSplit _ = _ := alts.splitsAs htext _ le_rfl
    rw [isExpandableBody,hs]
    rcases alts with _ | ⟨_,_ | _⟩ <;> simp [Alternatives.texts]
  have hst : topBraceStep ('{'.toUInt8 :: (alts.bytes text ++ '}'.toUInt8 :: rest)) = some (.inl (alts.bytes text,rest)) := by
    unfold topBraceStep
    simp only [alts.closes htext rest,hb]
    rfl
  rw [findTopBrace,length_cons,findTopBraceFrom,hst]

omit htext

mutual
theorem Word.expand (htext : ∀ a, Atomic (text a)) : ∀ (w : Word α) {fuel : ℕ}, (w.bytes text).length < fuel →
    braceExpandWith fuel (w.bytes text) = w.denotation text
  | .done, fuel + 1, _ => rfl
  | .part a w, fuel, hf => by
    simp only [Word.bytes,Word.denotation,length_append] at hf ⊢
    rw [braceExpandWith_part (htext a),w.expand htext (by omega)]
  | .list alts w, fuel + 1, hf => by
    simp only [Word.bytes,length_cons,length_append] at hf
    have hs : topLevelSplit _ = _ := alts.splitsAs htext _ le_rfl
    have hc : ','.toUInt8 ∈ alts.bytes text := by cases alts <;> simp [Alternatives.bytes]
    rw [braceExpandWith,Word.bytes,findTopBrace_list htext]
    dsimp only
    rw [expandSequence_of_comma hc,w.expand htext (by omega),hs]
    dsimp only
    rw [← flatMap_assoc,alts.expand htext (by omega)]
    rfl

theorem Alternatives.expand (htext : ∀ a, Atomic (text a)) : ∀ (alts : Alternatives α) {fuel : ℕ}, (alts.bytes text).length < fuel →
    (alts.texts text).flatMap (braceExpandWith fuel) = alts.denotation text
  | .two first second, fuel, hf => by
    simp only [Alternatives.bytes,length_append,length_cons] at hf
    rw [Alternatives.texts,flatMap_cons,flatMap_singleton,first.expand htext (by omega),second.expand htext (by omega)]
    rfl
  | .more first others, fuel, hf => by
    simp only [Alternatives.bytes,length_append,length_cons] at hf
    rw [Alternatives.texts,flatMap_cons,first.expand htext (by omega),others.expand htext (by omega)]
    rfl
end

/-- Brace expansion gives the strings that a word of literal text and lists stands for. -/
theorem braceExpand_product (w : Word {b : UInt8 // isLiteral b = true}) :
    braceExpand (w.bytes fun b => [b.1]) = w.denotation fun b => [b.1] :=
  w.expand (fun b => atomic_of_isLiteral b.2) (Nat.lt_succ_self _)
end
end Cherubsh.Expander.Braces
