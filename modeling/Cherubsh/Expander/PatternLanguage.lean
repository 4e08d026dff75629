import Cherubsh.Library.Slices
import Cherubsh.Expander.Pattern

/-! # The language of a pattern and the matcher's ends

The matcher finds exactly the spans of the language of the tokens, unless a group asks for one or
more repetitions of something that may be empty: it follows only ends that advance.
-/
namespace Cherubsh.Expander.Pattern
open Slices Language List
open scoped Computability
variable {L : Language UInt8} {branches : List (List Tok)} {si k c : ℕ}

section
def oneByte (p : UInt8 → Bool) : Language UInt8 := {w | ∃ b, p b ∧ w = [b]}

def oneOrMore (L : Language UInt8) : Language UInt8 := L * L∗

def nonempty (L : Language UInt8) : Language UInt8 := {w | w ∈ L ∧ w ≠ []}

/-- One or more words, none of them empty: what repetition by advancing ends gives. -/
def oneOrMoreAdvancing (L : Language UInt8) : Language UInt8 := oneOrMore (nonempty L)

variable (opts : GlobOpts) (plus : Language UInt8 → Language UInt8)

def groupLanguage (kind : ExtKind) (L : Language UInt8) : Language UInt8 :=
  match kind with
  | .q => 1 + L
  | .star => L∗
  | .plus => plus L
  | .at => L
  | .bang => Lᶜ

mutual
/-- The language of a pattern, for a given meaning of the groups of one or more. -/
def languageWith : List Tok → Language UInt8
  | [] => 1
  | tok :: rest => tokLanguageWith tok * languageWith rest

def tokLanguageWith : Tok → Language UInt8
  | .lit b => oneByte (litEq opts b)
  | .star => ⊤
  | .question => oneByte fun _ => true
  | .cls negate items => oneByte fun b => classMatches opts items b != negate
  | .ext kind branches => groupLanguage plus kind (branchLanguageWith branches)

def branchLanguageWith : List (List Tok) → Language UInt8
  | [] => 0
  | br :: rest => languageWith br + branchLanguageWith rest
end

def language (p : List Tok) : Language UInt8 := languageWith opts oneOrMore p
end

mutual
/-- Whether the empty string is a word, read off the syntax. -/
def nullable : List Tok → Bool
  | [] => true
  | tok :: rest => tokNullable tok && nullable rest

def tokNullable : Tok → Bool
  | .lit _ => false
  | .star => true
  | .question => false
  | .cls _ _ => false
  | .ext .q _ => true
  | .ext .star _ => true
  | .ext .plus branches => anyNullable branches
  | .ext .at branches => anyNullable branches
  | .ext .bang branches => !anyNullable branches

def anyNullable : List (List Tok) → Bool
  | [] => false
  | br :: rest => nullable br || anyNullable rest
end

theorem nil_mem_mul {M : Language UInt8} : [] ∈ L * M ↔ [] ∈ L ∧ [] ∈ M := by
  rw [mem_mul]
  constructor
  · rintro ⟨a,ha,b,hb,hab⟩
    obtain ⟨rfl,rfl⟩ := append_eq_nil_iff.mp hab
    exact ⟨ha,hb⟩
  · rintro ⟨ha,hb⟩
    exact ⟨[],ha,[],hb,rfl⟩

theorem nil_not_mem_oneByte (p : UInt8 → Bool) : [] ∉ oneByte p := by
  rintro ⟨b,-,h⟩
  cases h

mutual
theorem nullable_iff_with (opts : GlobOpts) : ∀ p, nullable p ↔ [] ∈ languageWith opts oneOrMore p
  | [] => by simp [nullable,languageWith,mem_one]
  | tok :: rest => by
    rw [nullable,languageWith,nil_mem_mul,Bool.and_eq_true,tokNullable_iff opts tok,nullable_iff_with opts rest]

theorem tokNullable_iff (opts : GlobOpts) :
    ∀ tok, tokNullable tok ↔ [] ∈ tokLanguageWith opts oneOrMore tok
  | .lit b => by simp [tokNullable,tokLanguageWith,nil_not_mem_oneByte]
  | .star => by
    simp only [tokNullable,tokLanguageWith,true_iff]
    trivial
  | .question | .cls negate items => by simp [tokNullable,tokLanguageWith,nil_not_mem_oneByte]
  | .ext .q branches => by
    rw [tokNullable,tokLanguageWith,groupLanguage,mem_add,mem_one]
    simp
  | .ext .star branches => by simp [tokNullable,tokLanguageWith,groupLanguage,nil_mem_kstar]
  | .ext .plus branches => by
    rw [tokNullable,tokLanguageWith,groupLanguage,oneOrMore,nil_mem_mul,anyNullable_iff opts branches]
    simp [nil_mem_kstar]
  | .ext .at branches => by
    rw [tokNullable,tokLanguageWith,groupLanguage,anyNullable_iff opts branches]
  | .ext .bang branches => by
    rw [tokNullable,tokLanguageWith,groupLanguage,Bool.not_eq_true',← Bool.not_eq_true,
      anyNullable_iff opts branches]
    rfl

theorem anyNullable_iff (opts : GlobOpts) :
    ∀ branches, anyNullable branches ↔ [] ∈ branchLanguageWith opts oneOrMore branches
  | [] => by simp [anyNullable,branchLanguageWith,notMem_zero]
  | br :: rest => by
    rw [anyNullable,branchLanguageWith,Bool.or_eq_true,mem_add,nullable_iff_with opts br,
      anyNullable_iff opts rest]
end

theorem anyNullable_eq_false :
    anyNullable branches = false ↔ ∀ br ∈ branches, nullable br = false := by
  induction branches with
  | nil => simp [anyNullable]
  | cons br rest ih => simp [anyNullable,ih]

/-- The matcher comes to the token: it stands in the pattern, or in an alternative of a group it
comes to, behind tokens that it can get over. -/
inductive Reaches (live : Tok → Prop) : List Tok → Tok → Prop
  | here (tok : Tok) (rest : List Tok) : Reaches live (tok :: rest) tok
  | behind {tok t : Tok} {rest : List Tok} (hl : live tok) (h : Reaches live rest t) : Reaches live (tok :: rest) t
  | inside {kind : ExtKind} {branches : List (List Tok)} {rest br : List Tok} {t : Tok} (hb : br ∈ branches)
      (h : Reaches live br t) : Reaches live (.ext kind branches :: rest) t

/-- Some text gets over the token. -/
def Passable (opts : GlobOpts) (tok : Tok) : Prop := tokLanguageWith opts oneOrMoreAdvancing tok ≠ 0

/-- No group of one or more that the matcher comes to has an alternative that may be empty. -/
def Proper (opts : GlobOpts) (p : List Tok) : Prop :=
  ∀ branches, Reaches (Passable opts) p (.ext .plus branches) → ∀ br ∈ branches, nullable br = false

section
variable {opts : GlobOpts} {text : List UInt8}

theorem mem_positionsFrom {len : ℕ} : k ∈ positionsFrom si len ↔ si ≤ k ∧ k ≤ len := by
  rw [positionsFrom,mem_range'_1]
  omega

theorem mem_foldl_insert (es ends : List ℕ) (k : ℕ) :
    k ∈ es.foldl (fun ends e => ends.insert e) ends ↔ k ∈ ends ∨ k ∈ es := by
  induction es generalizing ends with
  | nil => simp
  | cons e es ih =>
    rw [foldl_cons,ih,mem_insert_iff,mem_cons]
    tauto

theorem slice_succ (h : si < text.length) : slice text si (si + 1) = [text[si]] := by
  simp [slice,take_one,List.head?_drop,List.getElem?_eq_getElem h]

theorem spans_oneByte (p : UInt8 → Bool) :
    Spans text (oneByte p) si k ↔ (text[si]?).any p ∧ k = si + 1 := by
  constructor
  · rintro ⟨hle,hk,b,hb,hs⟩
    have hl := length_slice (i := si) hk
    rw [hs] at hl
    simp only [length_singleton] at hl
    have hsi : si < text.length := by omega
    obtain rfl : k = si + 1 := by omega
    rw [slice_succ hsi] at hs
    obtain rfl : text[si] = b := by simpa using hs
    exact ⟨by simpa [List.getElem?_eq_getElem hsi] using hb,rfl⟩
  · rintro ⟨ha,rfl⟩
    by_cases hsi : si < text.length
    · rw [List.getElem?_eq_getElem hsi] at ha
      exact ⟨by omega,hsi,text[si],ha,slice_succ hsi⟩
    · rw [List.getElem?_eq_none (not_lt.mp hsi)] at ha
      cases ha

theorem advances_nonempty {i : ℕ} : Advances text (nonempty L) i k ↔ Advances text L i k := by
  refine and_congr_right fun hik => ⟨fun h => ⟨h.1,h.2.1,h.2.2.1⟩,fun h => ⟨h.1,h.2.1,h.2.2,?_⟩⟩
  intro hn
  have hl := length_slice (i := i) h.2.1
  rw [hn] at hl
  simp only [length_nil] at hl
  omega

section
variable {oneStep : ℕ → List ℕ} {L : Language UInt8}
  (hone : ∀ c ≤ text.length, ∀ k, k ∈ oneStep c ↔ Spans text L c k)
include hone

theorem mem_advancing (hc : c ≤ text.length) :
    k ∈ enumerateExtEnds.advancing oneStep c ↔ Advances text L c k := by
  rw [enumerateExtEnds.advancing,mem_filter,hone c hc,decide_eq_true_eq,Advances,and_comm]

theorem reaches_advancing (hc : c ≤ text.length) :
    Relation.ReflTransGen (fun a b => b ∈ enumerateExtEnds.advancing oneStep a) c k ↔
      Relation.ReflTransGen (Advances text L) c k := by
  constructor
  · intro h
    induction h using Relation.ReflTransGen.head_induction_on with
    | refl => exact .refl
    | head hs _ ih =>
      have ha := (mem_advancing hone hc).mp hs
      exact .head ha (ih ha.2.le_length)
  · intro h
    induction h using Relation.ReflTransGen.head_induction_on with
    | refl => exact .refl
    | head hs _ ih => exact .head ((mem_advancing hone hc).mpr hs) (ih hs.2.le_length)

theorem mem_repeatEnds (hsi : si ≤ text.length) (ends : List ℕ) :
    k ∈ enumerateExtEnds.repeatEnds oneStep text.length si ends ↔
      k ∈ ends ∨ Relation.TransGen (Advances text L) si k := by
  have hb : ∀ c ≤ text.length, ∀ e ∈ enumerateExtEnds.advancing oneStep c, e ≤ text.length :=
    fun c hc e he => ((mem_advancing hone hc).mp he).2.le_length
  rw [enumerateExtEnds.repeatEnds,Worklist.mem_drain_iff (U := Finset.range (text.length + 1))]
  · rw [Relation.TransGen.head'_iff]
    refine or_congr_right (exists_congr fun s => ?_)
    constructor
    · rintro ⟨hs,hr⟩
      have ha := (mem_advancing hone hsi).mp hs
      exact ⟨ha,(reaches_advancing hone ha.2.le_length).mp hr⟩
    · rintro ⟨ha,hr⟩
      exact ⟨(mem_advancing hone hsi).mpr ha,(reaches_advancing hone ha.2.le_length).mpr hr⟩
  · intro x hx y hy
    rw [Finset.mem_range] at hx ⊢
    exact Nat.lt_succ_of_le (hb x (by omega) y hy)
  · intro x hx
    exact Finset.mem_range.mpr (Nat.lt_succ_of_le (hb si hsi x hx))
  · rw [Finset.card_range]

theorem mem_enumerateExtEnds (kind : ExtKind) (hsi : si ≤ text.length) :
    k ∈ enumerateExtEnds kind oneStep text.length si ↔
      Spans text (groupLanguage oneOrMoreAdvancing kind L) si k := by
  cases kind with
  | q =>
    rw [enumerateExtEnds,mem_foldl_insert,hone si hsi,groupLanguage,spans_add,spans_one,mem_singleton]
    exact or_congr_left ⟨fun h => ⟨h.symm,hsi⟩,fun h => h.1.symm⟩
  | star =>
    rw [enumerateExtEnds,mem_repeatEnds hone hsi,groupLanguage,spans_kstar hsi,mem_singleton,
      Relation.reflTransGen_iff_eq_or_transGen]
  | plus =>
    have hr : Advances text (nonempty L) = Advances text L := by
      funext i j
      exact propext advances_nonempty
    rw [enumerateExtEnds,mem_repeatEnds hone hsi,groupLanguage,oneOrMoreAdvancing,oneOrMore,
      spans_mul_kstar fun h => h.2 rfl,hr]
    simp
  | «at» => rw [enumerateExtEnds,hone si hsi,groupLanguage]
  | bang =>
    rw [enumerateExtEnds,mem_filter,mem_positionsFrom,groupLanguage]
    by_cases hk : si ≤ k ∧ k ≤ text.length
    · rw [spans_compl hk.1 hk.2,← hone si hsi]
      simp [hk]
    · constructor
      · exact fun h => absurd h.1 hk
      · exact fun h => absurd ⟨h.le,h.le_length⟩ hk
end

theorem mem_ite_singleton {b : Bool} {n : ℕ} : k ∈ (if b = true then [n] else []) ↔ b ∧ k = n := by
  cases b <;> simp

mutual
theorem mem_collectMatchEnds : ∀ p {si k}, si ≤ text.length →
    (k ∈ collectMatchEnds opts text p si ↔ Spans text (languageWith opts oneOrMoreAdvancing p) si k)
  | [], si, k, hsi => by
    rw [collectMatchEnds,languageWith,spans_one,mem_singleton]
    exact ⟨fun h => ⟨h.symm,hsi⟩,fun h => h.1.symm⟩
  | tok :: rest, si, k, hsi => by
    rw [collectMatchEnds,languageWith,spans_mul,mem_flatMap]
    constructor
    · rintro ⟨j,hj,hk⟩
      have hs := (mem_tokEnds tok hsi).mp hj
      exact ⟨j,hs,(mem_collectMatchEnds rest hs.le_length).mp hk⟩
    · rintro ⟨j,hj,hk⟩
      exact ⟨j,(mem_tokEnds tok hsi).mpr hj,(mem_collectMatchEnds rest hj.le_length).mpr hk⟩

theorem mem_tokEnds : ∀ tok {si k}, si ≤ text.length →
    (k ∈ tokEnds opts text tok si ↔ Spans text (tokLanguageWith opts oneOrMoreAdvancing tok) si k)
  | .lit b, si, k, _ => by rw [tokEnds,tokLanguageWith,spans_oneByte,mem_ite_singleton]
  | .star, si, k, _ => by
    rw [tokEnds,tokLanguageWith,mem_positionsFrom]
    exact ⟨fun h => ⟨h.1,h.2,trivial⟩,fun h => ⟨h.le,h.le_length⟩⟩
  | .question, si, k, _ => by
    rw [tokEnds,tokLanguageWith,spans_oneByte]
    by_cases h : si < text.length
    · simp [h]
    · simp [h]
  | .cls negate items, si, k, _ => by rw [tokEnds,tokLanguageWith,spans_oneByte,mem_ite_singleton]
  | .ext kind branches, si, k, hsi => by
    rw [tokEnds,tokLanguageWith]
    exact mem_enumerateExtEnds (fun c hc k => mem_branchEnds branches hc) kind hsi

theorem mem_branchEnds : ∀ branches {c k}, c ≤ text.length →
    (k ∈ branchEnds opts text branches c ↔
      Spans text (branchLanguageWith opts oneOrMoreAdvancing branches) c k)
  | [], c, k, _ => by
    rw [branchEnds,branchLanguageWith]
    exact ⟨fun h => absurd h not_mem_nil,fun h => absurd h.2.2 (notMem_zero _)⟩
  | br :: rest, c, k, hc => by
    rw [branchEnds,branchLanguageWith,spans_add,mem_append,mem_collectMatchEnds br hc,
      mem_branchEnds rest hc]
end

theorem matchTokens_iff (p : List Tok) (s : List UInt8) :
    matchTokens opts p s ↔ s ∈ languageWith opts oneOrMoreAdvancing p := by
  rw [matchTokens,contains_iff_mem,mem_collectMatchEnds p (Nat.zero_le _),Spans,slice_all]
  simp
end

section
variable {opts : GlobOpts}

theorem oneOrMoreAdvancing_eq (h : [] ∉ L) : oneOrMoreAdvancing L = oneOrMore L := by
  have hL : nonempty L = L := by
    ext w
    exact ⟨fun hw => hw.1,fun hw => ⟨hw,fun hn => h (hn ▸ hw)⟩⟩
  rw [oneOrMoreAdvancing,hL]

theorem nil_not_mem_oneOrMoreAdvancing (L : Language UInt8) : [] ∉ oneOrMoreAdvancing L := by
  rw [oneOrMoreAdvancing,oneOrMore,nil_mem_mul]
  exact fun h => h.1.2 rfl

theorem Proper.tail {tok : Tok} {rest : List Tok} (h : Proper opts (tok :: rest)) (hl : Passable opts tok) : Proper opts rest :=
  fun branches hr => h branches (.behind hl hr)

theorem Proper.branch {kind : ExtKind} {rest br : List Tok} (h : Proper opts (.ext kind branches :: rest)) (hb : br ∈ branches) :
    Proper opts br :=
  fun inner hr => h inner (.inside hb hr)

mutual
theorem languageWith_advancing : ∀ p, Proper opts p →
    languageWith opts oneOrMoreAdvancing p = languageWith opts oneOrMore p
  | [], _ => by rw [languageWith,languageWith]
  | tok :: rest, h => by
    rw [languageWith,languageWith,← tokLanguageWith_advancing tok rest h]
    by_cases hl : Passable opts tok
    · rw [languageWith_advancing rest (h.tail hl)]
    · rw [not_not.mp hl,zero_mul,zero_mul]

theorem tokLanguageWith_advancing : ∀ tok rest, Proper opts (tok :: rest) →
    tokLanguageWith opts oneOrMoreAdvancing tok = tokLanguageWith opts oneOrMore tok
  | .lit b, _, _ | .star, _, _ | .question, _, _ | .cls negate items, _, _ => by rw [tokLanguageWith,tokLanguageWith]
  | .ext kind branches, rest, h => by
    rw [tokLanguageWith,tokLanguageWith,branchLanguageWith_advancing branches fun br hb => h.branch hb]
    cases kind with
    | plus =>
      have hn := anyNullable_eq_false.mpr (h branches (.here _ rest))
      refine oneOrMoreAdvancing_eq ?_
      rw [← anyNullable_iff,hn]
      exact Bool.false_ne_true
    | _ => rfl

theorem branchLanguageWith_advancing : ∀ branches, (∀ br ∈ branches, Proper opts br) →
    branchLanguageWith opts oneOrMoreAdvancing branches = branchLanguageWith opts oneOrMore branches
  | [], _ => by rw [branchLanguageWith,branchLanguageWith]
  | br :: rest, h => by
    rw [branchLanguageWith,branchLanguageWith,languageWith_advancing br (h br mem_cons_self),
      branchLanguageWith_advancing rest fun q hq => h q (mem_cons_of_mem _ hq)]
end

theorem exact_of_proper {p : List Tok} (h : Proper opts p) (s : List UInt8) : matchTokens opts p s ↔ s ∈ language opts p := by
  rw [matchTokens_iff,languageWith_advancing p h,language]

theorem Reaches.trans {live : Tok → Prop} {p : List Tok} {tok t : Tok} (h : Reaches live p tok) (ht : Reaches live [tok] t) :
    Reaches live p t := by
  induction h with
  | here tok rest =>
    cases ht with
    | here => exact .here _ rest
    | behind _ h => cases h
    | inside hb h => exact .inside hb h
  | behind hl _ ih => exact .behind hl (ih ht)
  | inside hb _ ih => exact .inside hb (ih ht)

theorem nil_mem_group {br : List Tok} (hbr : br ∈ branches)
    (hn : nullable br) : [] ∈ language opts [.ext .plus branches] := by
  have ht : tokNullable (.ext .plus branches) := by
    rw [tokNullable,← Bool.not_eq_false,anyNullable_eq_false]
    intro ha
    simp [ha br hbr] at hn
  rw [language,← nullable_iff_with,nullable,nullable,ht]
  rfl

theorem matchTokens_group_nil (branches : List (List Tok)) :
    matchTokens opts [.ext .plus branches] [] = false := by
  rw [← Bool.not_eq_true,matchTokens_iff,languageWith,languageWith,tokLanguageWith,groupLanguage,nil_mem_mul]
  exact fun h => nil_not_mem_oneOrMoreAdvancing _ h.1

/-- The matcher is right about a pattern and about every token it comes to in it exactly when none of
these is a group of one or more with an alternative that can be empty. -/
theorem matchTokens_exact_iff (opts : GlobOpts) (p : List Tok) :
    ((∀ s, matchTokens opts p s ↔ s ∈ language opts p) ∧
      ∀ tok, Reaches (Passable opts) p tok → ∀ s, matchTokens opts [tok] s ↔ s ∈ language opts [tok]) ↔
      ∀ branches, Reaches (Passable opts) p (.ext .plus branches) → ∀ br ∈ branches, nullable br = false := by
  constructor
  · rintro ⟨-,htok⟩ branches hr br hbr
    by_contra hnull
    rw [Bool.not_eq_false] at hnull
    have hmatch := (htok _ hr []).mpr (nil_mem_group hbr hnull)
    rw [matchTokens_group_nil] at hmatch
    cases hmatch
  · intro hproper
    exact ⟨exact_of_proper hproper,fun tok hr => exact_of_proper fun branches ht => hproper branches (hr.trans ht)⟩

/-- `+(|a)` has an empty alternative, and the matcher rejects the empty string. -/
theorem matchTokens_misses_nil :
    ¬(matchTokens ⟨false,true,true⟩ [.ext .plus [[],[.lit 97]]] [] ↔
      [] ∈ language ⟨false,true,true⟩ [.ext .plus [[],[.lit 97]]]) := by
  intro h
  have hmatch := h.mpr (nil_mem_group mem_cons_self rfl)
  rw [matchTokens_group_nil] at hmatch
  cases hmatch
end

theorem languageWith_append (opts : GlobOpts) (plus : Language UInt8 → Language UInt8) (p q : List Tok) :
    languageWith opts plus (p ++ q) = languageWith opts plus p * languageWith opts plus q := by
  induction p with
  | nil => rw [List.nil_append,languageWith,one_mul]
  | cons tok p ih => rw [List.cons_append,languageWith,ih,languageWith,mul_assoc]

/-- The texts of a pattern and another one behind it are those of the first followed by those of the second. -/
theorem matchTokens_append (opts : GlobOpts) (p q : List Tok) (s : List UInt8) :
    matchTokens opts (p ++ q) s ↔ ∃ a, matchTokens opts p a ∧ ∃ b, matchTokens opts q b ∧ a ++ b = s := by
  simp only [matchTokens_iff,languageWith_append,mem_mul]
end Cherubsh.Expander.Pattern
