import Cherubsh.Expander.Braces

/-! # How brace expansion cuts a word

The chunks that the search for a brace passes over, quoted ones as a whole.
-/
namespace Cherubsh.Expander.Braces
open Utf8 List

section
variable {text chunk rest : Bytes}

@[simp] theorem throughQuote_append (quote : UInt8) (text : Bytes) :
    (throughQuote quote text).1 ++ (throughQuote quote text).2 = text := by
  fun_induction throughQuote quote text <;> simp_all

@[simp] theorem throughSingleQuote_append (text : Bytes) :
    (throughSingleQuote text).1 ++ (throughSingleQuote text).2 = text := by
  fun_induction throughSingleQuote text <;> simp_all

theorem quotedChunk_eq (h : quotedChunk text = some (chunk,rest)) :
    text = chunk ++ rest ∧ chunk ≠ [] := by
  unfold quotedChunk at h
  split at h
  · cases h
  · split at h
    · split at h
      · cases h
      · cases h
        exact ⟨rfl,cons_ne_nil _ _⟩
    · split at h
      · cases h
        simp
      · split at h
        · cases h
          simp
        · cases h

theorem untilClosing_eq {opening closing : UInt8} {fuel depth : ℕ} {text body rest : Bytes}
    (h : untilClosing opening closing fuel depth text = some (body,rest)) : text = body ++ closing :: rest := by
  induction fuel generalizing depth text body with
  | zero => cases h
  | succ fuel ih =>
    unfold untilClosing at h
    split at h
    · rename_i chunk rest' hc
      obtain ⟨p,hp,heq⟩ := Option.map_eq_some_iff.mp h
      cases heq
      rw [(quotedChunk_eq hc).1,ih hp,append_assoc]
    · split at h
      · cases h
      · rename_i c rest'
        split at h
        · rename_i hcl
          cases h
          rw [hcl.1,nil_append]
        · obtain ⟨p,hp,heq⟩ := Option.map_eq_some_iff.mp h
          cases heq
          rw [ih hp,cons_append]

theorem skipBalanced_suffix (opening closing : UInt8) (text : Bytes) : skipBalanced opening closing text <:+ text := by
  unfold skipBalanced
  cases h : untilClosing opening closing text.length 0 text with
  | none => exact nil_suffix
  | some p =>
    refine ⟨p.1 ++ [closing],?_⟩
    rw [append_assoc]
    exact (untilClosing_eq h).symm

theorem take_append_of_suffix {after text : Bytes} (h : after <:+ text) : text.take (text.length - after.length) ++ after = text := by
  obtain ⟨before,rfl⟩ := h
  simp

theorem topBraceStep_eq {text : Bytes} {r : (Bytes × Bytes) ⊕ (Bytes × Bytes)} (h : topBraceStep text = some r) :
    (∃ body suffix, r = .inl (body,suffix) ∧ text = '{'.toUInt8 :: (body ++ '}'.toUInt8 :: suffix) ∧ isExpandableBody body) ∨
      ∃ chunk rest, r = .inr (chunk,rest) ∧ text = chunk ++ rest ∧ chunk ≠ [] := by
  unfold topBraceStep at h
  split at h
  · rename_i p hch
    cases h
    exact .inr ⟨p.1,p.2,rfl,quotedChunk_eq hch⟩
  · split at h
    · cases h
    · rename_i b rest _
      have ho : ∃ chunk rest', (.inr ([b],rest) : (Bytes × Bytes) ⊕ (Bytes × Bytes)) = .inr (chunk,rest') ∧
          b :: rest = chunk ++ rest' ∧ chunk ≠ [] := ⟨[b],rest,rfl,rfl,cons_ne_nil _ _⟩
      have hsk (opening closing : UInt8) : ∃ chunk rest',
          (.inr ((b :: rest).take ((b :: rest).length - (skipBalanced opening closing rest.tail).length),
            skipBalanced opening closing rest.tail) : (Bytes × Bytes) ⊕ (Bytes × Bytes)) = .inr (chunk,rest') ∧
          b :: rest = chunk ++ rest' ∧ chunk ≠ [] := by
        have hs := (skipBalanced_suffix opening closing rest.tail).trans (tail_suffix rest)
        refine ⟨_,_,rfl,(take_append_of_suffix (hs.trans (suffix_cons b rest))).symm,?_⟩
        have hl := hs.length_le
        rw [length_cons,Nat.succ_sub hl,take_succ_cons]
        exact cons_ne_nil _ _
      split at h
      · cases h
        exact .inr (hsk _ _)
      · split at h
        · cases h
          exact .inr (hsk _ _)
        · split at h
          · cases h
            exact .inr ⟨_,_,rfl,by rw [cons_append,throughQuote_append],cons_ne_nil _ _⟩
          · split at h
            · rename_i hb
              split at h
              · rename_i body suffix hc
                cases h
                split
                · rename_i hbo
                  exact .inl ⟨body,suffix,rfl,by rw [hb,untilClosing_eq hc],hbo⟩
                · exact .inr ho
              · cases h
                exact .inr ho
            · cases h
              exact .inr ho

theorem length_lt_of_topBraceStep (h : topBraceStep text = some (.inr (chunk,rest))) :
    rest.length < text.length := by
  obtain ⟨_,_,heq,_⟩ | ⟨_,_,heq,rfl,hne⟩ := topBraceStep_eq h
  · cases heq
  · cases heq
    have := length_pos_iff.mpr hne
    rw [length_append]
    omega

theorem findTopBraceFrom_eq_findTopBrace {fuel : ℕ} {text : Bytes} (h : text.length ≤ fuel) :
    findTopBraceFrom fuel text = findTopBrace text := by
  suffices ha : ∀ fuel₁ fuel₂ : ℕ, ∀ text : Bytes, text.length ≤ fuel₁ → text.length ≤ fuel₂ →
      findTopBraceFrom fuel₁ text = findTopBraceFrom fuel₂ text from ha _ _ text h (Nat.le_refl _)
  have hn : ∀ fuel : ℕ, findTopBraceFrom fuel [] = none := fun fuel => by cases fuel <;> rfl
  intro fuel₁
  induction fuel₁ with
  | zero =>
    intro fuel₂ text h₁ _
    rw [length_eq_zero_iff.mp (Nat.le_zero.mp h₁),hn,hn]
  | succ fuel₁ ih =>
    intro fuel₂ text h₁ h₂
    cases fuel₂ with
    | zero => rw [length_eq_zero_iff.mp (Nat.le_zero.mp h₂),hn,hn]
    | succ fuel₂ =>
      unfold findTopBraceFrom
      split
      · rfl
      · rfl
      · rename_i hs
        have hlt := length_lt_of_topBraceStep hs
        rw [ih fuel₂ _ (by omega) (by omega)]

theorem findTopBrace_of_skip (h : topBraceStep text = some (.inr (chunk,rest))) :
    findTopBrace text = (findTopBrace rest).map fun p => (chunk ++ p.1,p.2) := by
  have hlt := length_lt_of_topBraceStep h
  rw [← findTopBraceFrom_eq_findTopBrace (Nat.le_succ text.length),findTopBraceFrom,h]
  dsimp only
  rw [findTopBraceFrom_eq_findTopBrace (by omega)]
end
end Cherubsh.Expander.Braces
