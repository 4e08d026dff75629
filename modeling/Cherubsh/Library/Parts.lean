import Mathlib.Data.Set.Basic

/-! # Steps on the parts of a state

A step on one name leaves the parts of the other names alone, so steps in a row bring each part to
where its own step brings it.
-/
namespace Cherubsh.Parts
open List

variable {ι σ V κ : Type*} (part : ι → σ → V)

/-- The step takes the part of `i` from `A` into `B` and leaves the other parts alone. -/
structure Moves (i : ι) (A B : Set V) (f : σ → σ) : Prop where
  own : ∀ {s}, part i s ∈ A → part i (f s) ∈ B
  other : ∀ {s}, part i s ∈ A → ∀ j, j ≠ i → part j (f s) = part j s

variable {part} {i : ι} {A B C : Set V} {f g : σ → σ}

theorem Moves.comp (hf : Moves part i A B f) (hg : Moves part i B C g) : Moves part i A C fun s => g (f s) where
  own hs := hg.own (hf.own hs)
  other hs j hj := (hg.other (hf.own hs) j hj).trans (hf.other hs j hj)

theorem Moves.mono {A' B' : Set V} (h : Moves part i A B f) (hA : A' ⊆ A) (hB : B ⊆ B') : Moves part i A' B' f where
  own hs := hB (h.own (hA hs))
  other hs := h.other (hA hs)

section
variable (A B : ι → Set V) (key : κ → ι) {step : σ → κ → σ} {ks : List κ}

variable (hstep : ∀ k ∈ ks, Moves part (key k) (A (key k)) (B (key k)) fun s => step s k)
include hstep

theorem foldl_moves
    (ha : ks.Pairwise fun k k' => key k = key k' → B (key k) ⊆ A (key k)) {s : σ} (hs : ∀ k ∈ ks, part (key k) s ∈ A (key k)) :
    (∀ k ∈ ks, part (key k) (ks.foldl step s) ∈ B (key k)) ∧
      ∀ j, (∀ k ∈ ks, key k ≠ j) → part j (ks.foldl step s) = part j s := by
  induction ks generalizing s with
  | nil => exact ⟨fun k hk => absurd hk not_mem_nil,fun _ _ => rfl⟩
  | cons k ks ih =>
    obtain ⟨hb,hl⟩ := pairwise_cons.mp ha
    have hm := hstep k mem_cons_self
    have hf := hs k mem_cons_self
    have hn : ∀ k' ∈ ks, part (key k') (step s k) ∈ A (key k') := by
      intro k' hk'
      by_cases hke : key k' = key k
      · rw [hke]
        exact hb k' hk' hke.symm (hm.own hf)
      · rw [hm.other hf _ hke]
        exact hs k' (mem_cons_of_mem _ hk')
    obtain ⟨hme,hr⟩ := ih (fun k' hk' => hstep k' (mem_cons_of_mem _ hk')) hl hn
    rw [foldl_cons]
    constructor
    · intro k' hk'
      rcases mem_cons.mp hk' with rfl | hmm
      · -- the last step on the name decides
        by_cases hmo : ∃ k'' ∈ ks, key k'' = key k'
        · obtain ⟨k'',hk'',hke⟩ := hmo
          rw [← hke]
          exact hme k'' hk''
        · rw [hr (key k') fun k'' hk'' hke => hmo ⟨k'',hk'',hke⟩]
          exact hm.own hf
      · exact hme k' hmm
    · intro j hj
      rw [hr j fun k' hk' => hj k' (mem_cons_of_mem _ hk')]
      exact hm.other hf j (hj k mem_cons_self).symm

theorem foldl_moves_of_subset (hsu : ∀ k ∈ ks, B (key k) ⊆ A (key k)) {s : σ} (hs : ∀ k ∈ ks, part (key k) s ∈ A (key k)) :
    (∀ k ∈ ks, part (key k) (ks.foldl step s) ∈ B (key k)) ∧
      ∀ j, (∀ k ∈ ks, key k ≠ j) → part j (ks.foldl step s) = part j s := by
  refine foldl_moves A B key hstep ?_ hs
  have ht : ks.Pairwise fun _ _ => True := pairwise_of_forall fun _ _ => trivial
  exact ht.imp_of_mem fun hk _ _ _ => hsu _ hk
end
end Cherubsh.Parts
