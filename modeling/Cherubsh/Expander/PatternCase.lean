import Cherubsh.Expander.PatternLanguage
import Cherubsh.Library.Utf8

/-! # Matching without regard to case

With `nocaseglob` a range is taken from its first end in lower case to its last in lower case, so
one that reaches over only some of the capitals loses bytes. The named classes see the byte as it is.
-/
namespace Cherubsh.Expander.Pattern
open Utf8 Language List
open scoped Computability
variable {L M : Bool → Language UInt8} {b b' : UInt8} {opts : GlobOpts} {i : ClassItem} {items : List ClassItem}

def withCase (opts : GlobOpts) (ignore : Bool) : GlobOpts := { opts with nocaseglob := ignore }

def foldCase (w : List UInt8) : List UInt8 := w.map toAsciiLowercase

/-- What the class takes, with or without regard to case, it takes in both cases when case is ignored. -/
def KeepsCase (opts : GlobOpts) (items : List ClassItem) : Prop :=
  ∀ ignore b b', classMatches (withCase opts ignore) items b → toAsciiLowercase b = toAsciiLowercase b' →
    classMatches (withCase opts true) items b'

/-- A range lies before or behind the end of the capitals, or reaches over the letters of both cases. -/
def ItemKeepsCase : ClassItem → Prop
  | .single _ => True
  | .range lo hi => lo ≤ hi → hi ≤ 'Z' ∨ 'Z' < lo ∨ lo < 'A' ∧ 'z' ≤ hi
  | .named cls => cls ≠ .lower ∧ cls ≠ .upper

/-- There are no negated classes and groups, at any depth. -/
def Positive (p : List Tok) : Prop :=
  ∀ tok, Reaches (fun _ => True) p tok → (∀ items, tok ≠ .cls true items) ∧ ∀ branches, tok ≠ .ext .bang branches

/-- Some text gets over the token, with or without regard to case. -/
def PassableSomehow (opts : GlobOpts) (tok : Tok) : Prop := ∃ ignore, Passable (withCase opts ignore) tok

/-- Every class that the matcher comes to keeps its case. -/
def ClassesKeepCase (opts : GlobOpts) (p : List Tok) : Prop :=
  ∀ items, Reaches (PassableSomehow opts) p (.cls false items) → KeepsCase opts items

/-- Ignoring case adds matches and makes the case of the text irrelevant. -/
def IgnoresCase (opts : GlobOpts) (p : List Tok) : Prop :=
  (∀ s, matchTokens (withCase opts false) p s → matchTokens (withCase opts true) p s) ∧
    ∀ s s', foldCase s = foldCase s' → matchTokens (withCase opts true) p s = matchTokens (withCase opts true) p s'

/-- The words of either language are in the one that ignores case, with the letters in any case. -/
def Folds (L : Bool → Language UInt8) : Prop := ∀ i, ∀ w ∈ L i, ∀ w', foldCase w = foldCase w' → w' ∈ L true

theorem Folds.mul (h : Folds L) (h' : Folds M) : Folds fun i => L i * M i := by
  intro i w hw w' he
  obtain ⟨u,hu,v,hv,rfl⟩ := mem_mul.mp hw
  rw [foldCase,map_append] at he
  obtain ⟨u',v',rfl,heu,hev⟩ := map_eq_append_iff.mp he.symm
  exact mem_mul.mpr ⟨u',h i u hu u' heu.symm,v',h' i v hv v' hev.symm,rfl⟩

theorem Folds.add (h : Folds L) (h' : Folds M) : Folds fun i => L i + M i := by
  rintro i w (hw | hw) w' he
  · exact .inl (h i w hw w' he)
  · exact .inr (h' i w hw w' he)

theorem folds_one : Folds 1 := by
  rintro i w rfl w' he
  exact (mem_one _).mpr (map_eq_nil_iff.mp he.symm)

theorem Folds.kstar (h : Folds L) : Folds fun i => (L i)∗ := by
  intro i w hw
  rw [mem_kstar] at hw
  obtain ⟨words,rfl,hw⟩ := hw
  induction words with
  | nil => exact fun w' he => map_eq_nil_iff.mp he.symm ▸ nil_mem_kstar _
  | cons u words ih =>
    obtain ⟨hu,hw⟩ := forall_mem_cons.mp hw
    intro w' he
    rw [flatten_cons,foldCase,map_append] at he
    obtain ⟨u',v',rfl,heu,hev⟩ := map_eq_append_iff.mp he.symm
    beta_reduce
    rw [← one_add_self_mul_kstar_eq_kstar]
    exact .inr (mem_mul.mpr ⟨u',h i u hu u' heu.symm,v',ih hw v' hev.symm,rfl⟩)

theorem Folds.nonempty (h : Folds L) : Folds fun i => nonempty (L i) := by
  rintro i w ⟨hw,hne⟩ w' he
  refine ⟨h i w hw w' he,fun hn => hne ?_⟩
  subst hn
  exact map_eq_nil_iff.mp he

theorem folds_oneByte {p : Bool → UInt8 → Bool}
    (h : ∀ i b b', p i b → toAsciiLowercase b = toAsciiLowercase b' → p true b') : Folds fun i => oneByte (p i) := by
  rintro i w ⟨b,hb,rfl⟩ w' he
  obtain ⟨b',rfl,heb⟩ := map_eq_singleton_iff.mp he.symm
  exact ⟨b',h i b b' hb heb.symm,rfl⟩

theorem toNat_toAsciiLowercase (b : UInt8) :
    (toAsciiLowercase b).toNat = if 65 ≤ b.toNat ∧ b.toNat ≤ 90 then b.toNat + 32 else b.toNat := by
  revert b
  exact forall_byte (by decide +kernel)

theorem namedMatches_fold {cls : NamedClass} (hc : cls ≠ .lower ∧ cls ≠ .upper) :
    ∀ b, namedMatches cls (toAsciiLowercase b) = namedMatches cls b := by
  cases cls <;> first | exact forall_byte (by decide +kernel) | simp at hc

theorem itemMatches_fold (hi : ItemKeepsCase i) {ignore : Bool} (h : itemMatches (withCase opts ignore) b i)
    (he : toAsciiLowercase b = toAsciiLowercase b') : itemMatches (withCase opts true) b' i := by
  cases i with
  | single s => cases ignore <;> simp_all [itemMatches,fold,withCase]
  | named cls =>
    rw [itemMatches] at h ⊢
    rw [← namedMatches_fold hi,← he,namedMatches_fold hi,h]
  | range lo hi' =>
    have hlo := toNat_toAsciiLowercase lo
    have hhi := toNat_toAsciiLowercase hi'
    have hb := toNat_toAsciiLowercase b
    cases ignore with
    | true => simpa [itemMatches,fold,withCase,he] using h
    | false =>
      simp only [itemMatches,fold,withCase,Bool.false_eq_true,if_false,if_true,Bool.and_eq_true,decide_eq_true_eq,← he,
        UInt8.le_iff_toNat_le] at h ⊢
      have hk : hi'.toNat ≤ 90 ∨ 90 < lo.toNat ∨ lo.toNat < 65 ∧ 122 ≤ hi'.toNat := hi h.1.1
      grind

theorem keepsCase_of_items (h : ∀ i ∈ items, ItemKeepsCase i) : KeepsCase opts items := by
  intro ignore b b' hb he
  obtain ⟨item,hi,hb⟩ := any_eq_true.mp hb
  exact any_eq_true.mpr ⟨item,hi,itemMatches_fold (h item hi) hb he⟩

theorem Positive.tail {tok : Tok} {rest : List Tok} (h : Positive (tok :: rest)) : Positive rest :=
  fun t ht => h t (.behind trivial ht)

theorem Positive.branch {kind : ExtKind} {branches : List (List Tok)} {rest br : List Tok}
    (h : Positive (.ext kind branches :: rest)) (hb : br ∈ branches) : Positive br :=
  fun t ht => h t (.inside hb ht)

theorem ClassesKeepCase.tail {tok : Tok} {rest : List Tok} (h : ClassesKeepCase opts (tok :: rest)) (hl : PassableSomehow opts tok) :
    ClassesKeepCase opts rest :=
  fun items hr => h items (.behind hl hr)

theorem ClassesKeepCase.branch {kind : ExtKind} {branches : List (List Tok)} {rest br : List Tok}
    (h : ClassesKeepCase opts (.ext kind branches :: rest)) (hb : br ∈ branches) : ClassesKeepCase opts br :=
  fun items hr => h items (.inside hb hr)

mutual
theorem folds_languageWith :
    ∀ p, Positive p → ClassesKeepCase opts p → Folds fun i => languageWith (withCase opts i) oneOrMoreAdvancing p
  | [], _, _ => by
    simp only [languageWith]
    exact folds_one
  | tok :: rest, hp, hk => by
    simp only [languageWith]
    by_cases hl : PassableSomehow opts tok
    · exact (folds_tok tok rest hp hk).mul (folds_languageWith rest hp.tail (hk.tail hl))
    · intro i w hw
      have hz := not_not.mp fun h => hl ⟨i,h⟩
      beta_reduce at hw
      rw [hz,zero_mul] at hw
      exact absurd hw (notMem_zero _)

theorem folds_tok : ∀ tok rest, Positive (tok :: rest) → ClassesKeepCase opts (tok :: rest) →
    Folds fun i => tokLanguageWith (withCase opts i) oneOrMoreAdvancing tok
  | .lit a, _, _, _ => by
    simp only [tokLanguageWith]
    refine folds_oneByte fun i b b' hb he => ?_
    cases i <;> simp_all [litEq,withCase]
  | .star, _, _, _ => by
    simp only [tokLanguageWith]
    exact fun _ _ _ _ _ => trivial
  | .question, _, _, _ => by
    simp only [tokLanguageWith]
    exact folds_oneByte fun _ _ _ _ _ => rfl
  | .cls true items, rest, hp, _ => absurd rfl ((hp _ (.here _ rest)).1 items)
  | .cls false items, rest, _, hk => by
    simp only [tokLanguageWith,Bool.bne_false]
    exact folds_oneByte (hk items (.here _ rest))
  | .ext kind branches, rest, hp, hk => by
    have hb := folds_branches branches (fun br hb => hp.branch hb) fun br hb => hk.branch hb
    simp only [tokLanguageWith]
    cases kind with
    | q => exact folds_one.add hb
    | star => exact hb.kstar
    | plus => exact hb.nonempty.mul hb.nonempty.kstar
    | «at» => exact hb
    | bang => exact absurd rfl ((hp _ (.here _ rest)).2 branches)

theorem folds_branches : ∀ branches, (∀ br ∈ branches, Positive br) → (∀ br ∈ branches, ClassesKeepCase opts br) →
    Folds fun i => branchLanguageWith (withCase opts i) oneOrMoreAdvancing branches
  | [], _, _ => by
    simp only [branchLanguageWith]
    exact fun _ _ hw => absurd hw (notMem_zero _)
  | br :: rest, hp, hk => by
    simp only [branchLanguageWith]
    exact (folds_languageWith br (hp br mem_cons_self) (hk br mem_cons_self)).add
      (folds_branches rest (fun q hq => hp q (mem_cons_of_mem _ hq)) fun q hq => hk q (mem_cons_of_mem _ hq))
end

theorem ignoresCase_of_classes {p : List Tok} (hp : Positive p) (hk : ClassesKeepCase opts p) : IgnoresCase opts p := by
  have hf : ∀ ignore s s', foldCase s = foldCase s' → matchTokens (withCase opts ignore) p s →
    matchTokens (withCase opts true) p s' := by
    intro ignore s s' he hm
    rw [matchTokens_iff] at hm ⊢
    exact folds_languageWith p hp hk ignore s hm s' he
  exact ⟨fun s => hf false s s rfl,fun s s' he => Bool.eq_iff_iff.mpr ⟨hf true s s' he,hf true s' s he.symm⟩⟩

theorem matchTokens_cls : matchTokens opts [.cls false items] [b] = classMatches opts items b := by
  cases h : classMatches opts items b <;> simp [matchTokens,collectMatchEnds,tokEnds,h]

theorem keepsCase_of_ignoresCase (h : IgnoresCase opts [.cls false items]) : KeepsCase opts items := by
  intro ignore b b' hb he
  have hfold : matchTokens (withCase opts true) [.cls false items] [b] = matchTokens (withCase opts true) [.cls false items] [b'] :=
    h.2 [b] [b'] (congrArg ([·]) he)
  rw [← matchTokens_cls] at hb ⊢
  rw [← hfold]
  cases ignore with
  | false => exact h.1 [b] hb
  | true => exact hb

/-- A class of one item keeps its case just when the item is not `[:lower:]`, `[:upper:]` or a range
that loses bytes. -/
theorem keepsCase_item_iff (opts : GlobOpts) (i : ClassItem) : KeepsCase opts [i] ↔ ItemKeepsCase i := by
  refine ⟨fun h => ?_,fun h => keepsCase_of_items (by simpa using h)⟩
  have hc : ∀ {ignore b b'}, itemMatches (withCase opts ignore) b i → toAsciiLowercase b = toAsciiLowercase b' →
      itemMatches (withCase opts true) b' i := by
    intro ignore b b' hb he
    simpa [classMatches] using h ignore b b' (by simpa [classMatches] using hb) he
  cases i with
  | single s => trivial
  | named cls =>
    have ha := @hc true 'a' 'A'
    have hA := @hc true 'A' 'a'
    simp only [itemMatches] at ha hA
    constructor <;> rintro rfl <;> revert ha hA <;> decide
  | range lo hi' =>
    -- one of the two bytes at the end of the capitals is lost
    have hZ := @hc false 90 90
    have hB := @hc false 91 91
    have hlo := toNat_toAsciiLowercase lo
    have hhi := toNat_toAsciiLowercase hi'
    intro hle
    change hi'.toNat ≤ 90 ∨ 90 < lo.toNat ∨ lo.toNat < 65 ∧ 122 ≤ hi'.toNat
    simp only [itemMatches,fold,withCase,Bool.false_eq_true,if_false,if_true,Bool.and_eq_true,
      decide_eq_true_eq,UInt8.le_iff_toNat_le,toNat_toAsciiLowercase,UInt8.reduceToNat] at hZ hB hle
    grind

/-- Ignoring case adds matches and makes the case of the text irrelevant, for a pattern and for every
class that the matcher comes to in it, just when each of these classes keeps its case. -/
theorem ignoring_case_iff (opts : GlobOpts) (p : List Tok) (hp : Positive p) :
    ((IgnoresCase opts p ∧ ∀ items, Reaches (PassableSomehow opts) p (.cls false items) → IgnoresCase opts [.cls false items]) ↔
      ClassesKeepCase opts p) ∧
      (∀ items, (∀ i ∈ items, ItemKeepsCase i) → KeepsCase opts items) ∧ ∀ i, KeepsCase opts [i] ↔ ItemKeepsCase i := by
  refine ⟨⟨fun h items hr => keepsCase_of_ignoresCase (h.2 items hr),fun hk => ⟨ignoresCase_of_classes hp hk,fun items hr => ?_⟩⟩,
    fun _ => keepsCase_of_items,keepsCase_item_iff opts⟩
  refine ignoresCase_of_classes (fun tok ht => ?_) fun items' ht => hk items' (hr.trans ht)
  cases ht with
  | here => exact ⟨by simp,by simp⟩
  | behind _ h => cases h

/-- `*[[:alnum:][:upper:]]`: what the second item loses the first one has. -/
theorem ignoring_case_alnum : IgnoresCase ⟨false,true,true⟩ [.star,.cls false [.named .alnum,.named .upper]] := by
  refine ((ignoring_case_iff _ _ fun tok ht => ?_).1.mpr fun items ht => ?_).1
  · cases ht with
    | here => exact ⟨by simp,by simp⟩
    | behind _ h =>
      cases h with
      | here => exact ⟨by simp,by simp⟩
      | behind _ h => cases h
  · cases ht with
    | behind _ h =>
      cases h with
      | here =>
        intro ignore b b' hb he
        have hsub : ∀ b, namedMatches .upper b → namedMatches .alnum b := forall_byte (by decide +kernel)
        have hfold := @namedMatches_fold .alnum (by decide)
        simp only [classMatches,any_cons,any_nil,itemMatches,Bool.or_false,Bool.or_eq_true] at hb ⊢
        left
        rw [← hfold,← he,hfold]
        exact hb.elim id (hsub b)
      | behind _ h => cases h

/-- The underscore is between `A` and `z`, and not between `a` and `z`. -/
theorem ignoring_case_loses_match : matchTokens (withCase ⟨false,true,true⟩ false) [.cls false [.range 'A' 'z']] ['_'] ∧
    matchTokens (withCase ⟨false,true,true⟩ true) [.cls false [.range 'A' 'z']] ['_'] = false := by decide
end Cherubsh.Expander.Pattern
