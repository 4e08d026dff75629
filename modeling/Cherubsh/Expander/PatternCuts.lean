import Cherubsh.Expander.PatternLanguage
import Cherubsh.Expander.PatternSubst

/-! # What removal and substitution cut out of a value

Matching is local, so removal takes the shortest or longest accepted piece at one side, and
substitution cuts the value into longest accepted pieces and copied bytes.
-/
namespace Cherubsh.Expander.Pattern
open Utf8 Slices List
variable {opts : GlobOpts} {toks : List Tok} {s pat : Bytes}

def fnmatch (pat text : Bytes) (opts : GlobOpts) : Bool := matchTokens opts (parse pat opts) text

theorem mem_ends_iff {i k : ℕ} (hi : i ≤ s.length) :
    k ∈ collectMatchEnds opts s toks i ↔ i ≤ k ∧ k ≤ s.length ∧ matchTokens opts toks (slice s i k) := by
  rw [mem_collectMatchEnds toks hi,Spans,matchTokens_iff]

def partAt (prefixed : Bool) (s : Bytes) (k : ℕ) : Bytes := if prefixed then s.take k else s.drop k

/-- The result leaves out the shortest or longest accepted part at one side, if there is one. -/
def Removes (accepts : Bytes → Bool) (prefixed longest : Bool) (s result : Bytes) : Prop :=
  (∃ k ≤ s.length, result = partAt (!prefixed) s k ∧ accepts (partAt prefixed s k) ∧
    ∀ j ≤ s.length, accepts (partAt prefixed s j) →
      if longest then (partAt prefixed s j).length ≤ (partAt prefixed s k).length
      else (partAt prefixed s k).length ≤ (partAt prefixed s j).length) ∨
  ((∀ k ≤ s.length, accepts (partAt prefixed s k) = false) ∧ result = s)

theorem extreme_spec (greatest : Bool) (hits : List ℕ) :
    match if greatest then hits.max? else hits.min? with
    | some k => k ∈ hits ∧ ∀ j ∈ hits, if greatest then j ≤ k else k ≤ j
    | none => hits = [] := by
  cases greatest with
  | false =>
    cases hm : hits.min? with
    | none => simpa using hm
    | some k => simpa using min?_eq_some_iff.mp hm
  | true =>
    cases hm : hits.max? with
    | none => simpa using hm
    | some k => simpa using max?_eq_some_iff.mp hm

theorem removes_of_hits {prefixed longest g : Bool} {hits : List ℕ} (hg : g = (longest == prefixed))
    (hm : ∀ k, k ∈ hits ↔ k ≤ s.length ∧ matchTokens opts toks (partAt prefixed s k)) :
    Removes (matchTokens opts toks) prefixed longest s
      (match if g then hits.max? else hits.min? with
        | some k => partAt (!prefixed) s k
        | none => s) := by
  have he := extreme_spec g hits
  subst hg
  split at he
  · rename_i k _
    obtain ⟨hl,ha⟩ := (hm k).mp he.1
    refine .inl ⟨k,hl,by simp,ha,fun j hj hja => ?_⟩
    have hjk := he.2 j ((hm j).mpr ⟨hj,hja⟩)
    cases longest <;> cases prefixed <;> simp [partAt] at hjk ⊢ <;> omega
  · refine .inr ⟨fun k hl => ?_,by simp⟩
    rw [← Bool.not_eq_true]
    exact fun ha => not_mem_nil (he ▸ (hm k).mpr ⟨hl,ha⟩)

theorem mem_suffix_starts (k : ℕ) :
    k ∈ (range (s.length + 1)).filter (fun k => (collectMatchEnds opts s toks k).contains s.length) ↔
      k ≤ s.length ∧ matchTokens opts toks (partAt false s k) := by
  rw [mem_filter,mem_range,contains_iff_mem,Nat.lt_succ_iff]
  refine and_congr_right fun hk => ?_
  rw [mem_ends_iff hk,slice,take_of_length_le (by simp)]
  simp [partAt,hk]

theorem removePattern_removes (prefixed longest : Bool) (hp : literalPattern opts pat = none) :
    Removes (fnmatch pat · opts) prefixed longest s (removePattern s pat prefixed longest opts) := by
  unfold removePattern fnmatch
  simp only [hp]
  split
  next he =>
    rw [List.isEmpty_iff.mp he]
    refine .inl ⟨if prefixed then 0 else s.length,by split <;> simp,by cases prefixed <;> simp [partAt],?_,?_⟩
    · cases prefixed <;> simp [partAt,matchTokens,collectMatchEnds]
    · cases prefixed <;> cases longest <;> simp [partAt,matchTokens,collectMatchEnds]
  next =>
    cases prefixed with
    | true =>
      refine removes_of_hits (by simp) fun k => ?_
      rw [mem_ends_iff (Nat.zero_le _)]
      simp [partAt,slice]
    | false =>
      cases longest with
      | true => exact removes_of_hits (g := false) rfl mem_suffix_starts
      | false => exact removes_of_hits (g := true) rfl mem_suffix_starts

theorem removePattern_removes_star :
    literalPattern ⟨false,false,true⟩ ['*','a'] = none ∧ Removes (fnmatch ['*','a'] · ⟨false,false,true⟩) true false
      ['b','a','b'] (removePattern ['b','a','b'] ['*','a'] true false ⟨false,false,true⟩) :=
  have hp : literalPattern ⟨false,false,true⟩ ['*','a'] = none := by decide
  ⟨hp,removePattern_removes true false hp⟩

section
/-- A value cut from left to right into the longest accepted pieces and the bytes at which no
accepted piece starts. -/
inductive Cut (accepts : Bytes → Bool) : Bytes → List (Bytes ⊕ UInt8) → Prop where
  | nil : Cut accepts [] []
  | matched {m rest pieces} (hn : m ≠ []) (hm : accepts m)
    (hl : ∀ t, t <+: m ++ rest → accepts t → t.length ≤ m.length) (hr : Cut accepts rest pieces) :
    Cut accepts (m ++ rest) (.inl m :: pieces)
  | copied {c rest pieces} (hn : ∀ t, t <+: c :: rest → accepts t → t = []) (hr : Cut accepts rest pieces) :
    Cut accepts (c :: rest) (.inr c :: pieces)

def replaceAll (replacement : Bytes → Bytes) (pieces : List (Bytes ⊕ UInt8)) : Bytes :=
  pieces.flatMap (Sum.elim replacement ([·]))

def replaceFirst (replacement : Bytes → Bytes) : List (Bytes ⊕ UInt8) → Bytes
  | [] => []
  | .inl m :: pieces => replacement m ++ replaceAll id pieces
  | .inr c :: pieces => c :: replaceFirst replacement pieces

variable {accepts : Bytes → Bool} {run : Bool → (Bytes → Bytes) → Bytes} {pieces : List (Bytes ⊕ UInt8)} {m rest : Bytes} {c : UInt8}

theorem Cut.text (h : Cut accepts s pieces) : replaceAll id pieces = s := by
  induction h with
  | nil => rfl
  | matched _ _ _ _ ih | copied _ _ ih => simp_all [replaceAll]

theorem Cut.pieces_nil (h : Cut accepts s pieces) (hs : s = []) : pieces = [] := by
  cases h with
  | nil => rfl
  | matched hn => exact absurd (append_eq_nil_iff.mp hs).1 hn
  | copied => cases hs

/-- A scan that replaces the pieces of a cut, all of them or the first. -/
def Scans (accepts : Bytes → Bool) (s : Bytes) (run : Bool → (Bytes → Bytes) → Bytes) : Prop :=
  ∃ pieces, Cut accepts s pieces ∧ ∀ replacement,
    run false replacement = replaceAll replacement pieces ∧ run true replacement = replaceFirst replacement pieces

theorem Scans.nil : Scans accepts [] fun _ _ => [] := ⟨[],.nil,fun _ => ⟨rfl,rfl⟩⟩

theorem Scans.matched (h : Scans accepts rest run) (hn : m ≠ []) (hm : accepts m)
    (hl : ∀ t, t <+: m ++ rest → accepts t → t.length ≤ m.length) :
    Scans accepts (m ++ rest) fun first replacement =>
      replacement m ++ if first then rest else run first replacement := by
  obtain ⟨pieces,hc,hr⟩ := h
  refine ⟨.inl m :: pieces,.matched hn hm hl hc,fun replacement => ⟨?_,?_⟩⟩
  · simp [(hr replacement).1,replaceAll]
  · simp [replaceFirst,hc.text]

theorem Scans.copied (h : Scans accepts rest run)
    (hn : ∀ t, t <+: c :: rest → accepts t → t = []) :
    Scans accepts (c :: rest) fun first replacement => c :: run first replacement := by
  obtain ⟨pieces,hc,hr⟩ := h
  refine ⟨.inr c :: pieces,.copied hn hc,fun replacement => ⟨?_,?_⟩⟩
  · simp [(hr replacement).1,replaceAll]
  · simp [replaceFirst,(hr replacement).2]

theorem Scans.whole (hn : ∀ t, accepts t → t = []) (s : Bytes) : Scans accepts s fun _ _ => s := by
  induction s with
  | nil => exact .nil
  | cons c rest ih => exact ih.copied fun t _ => hn t

section
variable {literal : Bytes}

theorem literalEq_cons (b c : UInt8) (text literal : Bytes) :
    literalEq opts (c :: text) (b :: literal) = (litEq opts b c && literalEq opts text literal) := by
  by_cases hl : text.length = literal.length
  · cases hn : opts.nocaseglob <;> simp [literalEq,litEq,hl,hn,eq_comm]
  · simp [literalEq,hl]

theorem matchTokens_literal (literal text : Bytes) :
    matchTokens opts (literal.map .lit) text = literalEq opts text literal := by
  rw [Bool.eq_iff_iff,matchTokens_iff]
  induction literal generalizing text with
  | nil => cases text <;> simp [languageWith,literalEq,Language.mem_one]
  | cons b literal ih =>
    rw [map_cons,languageWith,Language.mem_mul,tokLanguageWith]
    constructor
    · rintro ⟨_,⟨c,hc,rfl⟩,w,hw,rfl⟩
      simp [literalEq_cons,hc,(ih w).mp hw]
    · intro h
      cases text with
      | nil => simp [literalEq] at h
      | cons c w =>
        rw [literalEq_cons,Bool.and_eq_true] at h
        exact ⟨[c],⟨c,h.1,rfl⟩,w,(ih w).mpr h.2,rfl⟩

theorem length_of_literalEq (h : literalEq opts s literal) : s.length = literal.length := by
  by_contra hl
  simp [literalEq,hl] at h

theorem literal_of_start {t : Bytes} (ht : t <+: s) (h : literalEq opts t literal) :
    literalStartsWith opts s literal := by
  have hl := length_of_literalEq h
  rw [literalStartsWith,← hl,← prefix_iff_eq_take.mp ht,h]
  simpa using ht.length_le

variable {first : Bool} {replacement : Bytes → Bytes} {fuel : ℕ}

theorem substLiteralLoop_matched (h : literalStartsWith opts (c :: rest) literal) :
    substLiteralLoop opts literal first replacement (fuel + 1) (c :: rest) =
      replacement ((c :: rest).take literal.length) ++
        if first then (c :: rest).drop literal.length
        else substLiteralLoop opts literal first replacement fuel ((c :: rest).drop literal.length) := by
  simp [substLiteralLoop,findLiteral,h]

theorem substLiteralLoop_copied (h : literalStartsWith opts (c :: rest) literal = false) :
    substLiteralLoop opts literal first replacement (fuel + 1) (c :: rest) =
      c :: substLiteralLoop opts literal first replacement (fuel + 1) rest := by
  cases hr : findLiteral opts literal rest <;> simp [substLiteralLoop,findLiteral,h,hr,Nat.add_right_comm]

theorem scans_literal (hn : literal ≠ []) (hf : s.length ≤ fuel) :
    Scans (literalEq opts · literal) s fun first replacement =>
      substLiteralLoop opts literal first replacement fuel s := by
  induction hs : s.length using Nat.strong_induction_on generalizing s fuel with
  | _ n ih =>
    match s, fuel with
    | [], 0 => exact .nil
    | [], fuel + 1 => exact .nil
    | c :: rest, fuel + 1 =>
      simp only [length_cons] at hs hf
      cases h : literalStartsWith opts (c :: rest) literal with
      | false =>
        simp only [substLiteralLoop_copied h]
        refine (ih rest.length (by omega) (by omega) rfl).copied fun t ht ha => ?_
        rw [literal_of_start ht ha] at h
        cases h
      | true =>
        simp only [substLiteralLoop_matched h]
        rw [literalStartsWith,Bool.and_eq_true,decide_eq_true_eq] at h
        have hp := length_pos_iff.mpr hn
        have hd : ((c :: rest).drop literal.length).length < n := by
          simp only [length_drop,length_cons]
          omega
        have hr := @ih _ hd ((c :: rest).drop literal.length) fuel (by omega) rfl
        have hm := hr.matched (m := (c :: rest).take literal.length) (by simp [hn]) h.2 fun t _ ha => ?_
        · rwa [take_append_drop] at hm
        · rw [length_of_literalEq ha,length_of_literalEq h.2]
end

theorem mem_advancing_ends {i : ℕ} {t : Bytes} (hi : i ≤ s.length) (ht : t <+: s.drop i) (hn : t ≠ [])
    (ha : matchTokens opts toks t) : i + t.length ∈ (collectMatchEnds opts s toks i).filter fun e => i < e := by
  have hl := ht.length_le
  have hp := length_pos_iff.mpr hn
  rw [length_drop] at hl
  rw [mem_filter,mem_ends_iff hi,slice,Nat.add_sub_cancel_left,← prefix_iff_eq_take.mp ht]
  exact ⟨⟨by omega,by omega,ha⟩,by simpa using hp⟩

theorem scans_tokens {i fuel : ℕ} (hf : s.length < i + fuel) :
    Scans (matchTokens opts toks) (s.drop i) fun first replacement =>
      substTokensLoop opts toks first replacement s fuel i := by
  induction fuel generalizing i with
  | zero =>
    rw [drop_eq_nil_of_le (by omega)]
    exact .nil
  | succ fuel ih =>
    by_cases hi : s.length < i
    · rw [drop_eq_nil_of_le hi.le]
      simp only [substTokensLoop,hi,if_true]
      exact .nil
    · have hx := extreme_spec true ((collectMatchEnds opts s toks i).filter fun e => i < e)
      simp only [if_true] at hx
      simp only [substTokensLoop,hi,if_false]
      have hle : i ≤ s.length := not_lt.mp hi
      cases he : ((collectMatchEnds opts s toks i).filter fun e => i < e).max? with
      | some e =>
        simp only [he] at hx ⊢
        obtain ⟨hm,hlt⟩ := mem_filter.mp hx.1
        obtain ⟨-,hel,ha⟩ := (mem_ends_iff hle).mp hm
        rw [decide_eq_true_eq] at hlt
        have hs : slice s i e ++ s.drop e = s.drop i := by
          rw [slice,show s.drop e = (s.drop i).drop (e - i) by rw [drop_drop,Nat.add_sub_cancel' hlt.le],
            take_append_drop]
        have hl : (slice s i e).length = e - i := length_slice hel
        have hm := (ih (i := e) (by omega)).matched (ne_nil_of_length_pos (by omega)) ha fun t ht hat => ?_
        · rw [hs] at hm
          exact hm
        · by_cases hn : t = []
          · simp [hn]
          · have hj := hx.2 _ (mem_advancing_ends hle (hs ▸ ht) hn hat)
            omega
      | none =>
        simp only [he] at hx ⊢
        have hr := ih (i := i + 1) (by omega)
        by_cases hlt : i < s.length
        · rw [drop_eq_getElem_cons hlt]
          simp only [List.getElem?_eq_getElem hlt,Option.toList_some,singleton_append]
          refine hr.copied fun t ht hat => ?_
          by_contra hn
          have hj := mem_advancing_ends hle (drop_eq_getElem_cons hlt ▸ ht) hn hat
          rw [hx] at hj
          exact not_mem_nil hj
        · rw [drop_eq_nil_of_le (by omega)] at hr ⊢
          simpa [List.getElem?_eq_none (not_lt.mp hlt)] using hr

/-- A pattern whose tokens are all stars or groups of any number of repetitions. -/
def OnlyStars (toks : List Tok) : Prop := toks ≠ [] ∧ ∀ tok ∈ toks, tok = .star ∨ ∃ branches, tok = .ext .star branches

theorem starPattern_iff : starPatternMatchesEmptyForSubstitution toks ↔ OnlyStars toks := by
  rw [starPatternMatchesEmptyForSubstitution,Bool.and_eq_true,all_eq_true,OnlyStars]
  refine and_congr (by simp) (forall₂_congr fun tok _ => ?_)
  cases tok with
  | ext kind branches => cases kind <;> simp
  | _ => simp

theorem mapM_litByte {literal} (h : toks.mapM litByte = some literal) : toks = literal.map .lit := by
  induction toks generalizing literal with
  | nil =>
    obtain rfl : literal = [] := by simpa using h.symm
    rfl
  | cons tok toks ih =>
    simp only [mapM_cons,Option.bind_eq_bind,Option.bind_eq_some_iff] at h
    obtain ⟨b,hb,bs,hbs,hl⟩ := h
    obtain rfl : b :: bs = literal := by simpa using hl
    cases tok with
    | lit c =>
      obtain rfl : c = b := by simpa [litByte] using hb
      rw [map_cons,ih hbs]
    | _ => simp [litByte] at hb

theorem parse_of_literal {literal} (h : literalPattern opts pat = some literal) :
    parse pat opts = literal.map .lit := by
  unfold literalPattern at h
  split at h
  · cases h
  · exact mapM_litByte h

theorem OnlyStars.not_literal (h : OnlyStars (parse pat opts)) : literalPattern opts pat = none := by
  cases hl : literalPattern opts pat with
  | none => rfl
  | some literal =>
    rw [parse_of_literal hl] at h
    cases literal with
    | nil => exact absurd rfl h.1
    | cons b literal => simpa using h.2 (.lit b) (by simp)

theorem scans_subst (hs : ¬(s = [] ∧ OnlyStars (parse pat opts))) :
    Scans (fnmatch pat · opts) s fun first replacement =>
      patSubstWithReplacer s pat (if first then .first else .all) opts replacement := by
  unfold patSubstWithReplacer fnmatch
  cases hl : literalPattern opts pat with
  | some literal =>
    simp only [parse_of_literal hl,matchTokens_literal,patSubstLiteral]
    by_cases hn : literal = []
    · convert Scans.whole (fun t ht => length_eq_zero_iff.mp _) s using 3 with first replacement
      · cases first <;> simp [hn,substEmpty]
      · rw [length_of_literalEq ht,hn]
        rfl
    · convert scans_literal hn le_rfl using 3 with first replacement
      cases first <;> simp [hn]
  | none =>
    have hs' : ¬(s.isEmpty ∧ starPatternMatchesEmptyForSubstitution (parse pat opts)) := by
      rwa [starPattern_iff,List.isEmpty_iff]
    simp only [patSubstTokens]
    by_cases hn : parse pat opts = []
    · convert Scans.whole (fun t ht => _) s using 3 with first replacement
      · cases first <;> simp [hn,substEmpty]
      · simpa [hn,matchTokens,collectMatchEnds,eq_comm] using ht
    · have ht := @scans_tokens opts (parse pat opts) s 0 (s.length + 1) (by omega)
      rw [drop_zero] at ht
      convert ht using 3 with first replacement
      cases first <;> simp_all

/-- Substitution is leftmost and longest, except that a pattern of stars also replaces the empty value. -/
theorem patSubst_leftmost_longest (opts : GlobOpts) (s pat : Bytes) :
    (s = [] ∧ OnlyStars (parse pat opts) ∧ ∀ replacement,
      patSubstWithReplacer s pat .all opts replacement = replacement [] ∧
      patSubstWithReplacer s pat .first opts replacement = replacement []) ∨
    (¬(s = [] ∧ OnlyStars (parse pat opts)) ∧ ∃ pieces, Cut (fnmatch pat · opts) s pieces ∧
      replaceAll id pieces = s ∧ ∀ replacement,
        patSubstWithReplacer s pat .all opts replacement = replaceAll replacement pieces ∧
        patSubstWithReplacer s pat .first opts replacement = replaceFirst replacement pieces) := by
  by_cases hs : s = [] ∧ OnlyStars (parse pat opts)
  · obtain ⟨rfl,hp⟩ := hs
    refine .inl ⟨rfl,hp,fun replacement => ?_⟩
    simp [patSubstWithReplacer,hp.not_literal,patSubstTokens,starPattern_iff.mpr hp,hp.1]
  · obtain ⟨pieces,hc,hr⟩ := scans_subst hs
    exact .inr ⟨hs,pieces,hc,hc.text,hr⟩

/-- `${v//*/r}` puts the replacement in the place of the empty value. -/
theorem patSubst_replaces_empty :
    ¬∃ pieces, Cut (fnmatch ['*'] · ⟨false,false,true⟩) [] pieces ∧ replaceAll id pieces = [] ∧ ∀ replacement,
      patSubstWithReplacer [] ['*'] .all ⟨false,false,true⟩ replacement = replaceAll replacement pieces ∧
      patSubstWithReplacer [] ['*'] .first ⟨false,false,true⟩ replacement = replaceFirst replacement pieces := by
  rintro ⟨pieces,hc,-,hr⟩
  have ha := (hr fun _ => [0]).1
  rw [hc.pieces_nil rfl] at ha
  revert ha
  decide
end
end Cherubsh.Expander.Pattern
