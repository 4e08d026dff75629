import Mathlib.Computability.Language

/-! # Languages read off the positions of one text

A language spans from one position of a text to another when the piece between them is one of its
words. The operations on languages become operations on positions.
-/
namespace Cherubsh.Slices
open List
open scoped Computability
variable {α : Type*} (text : List α)

def slice (i k : ℕ) : List α := (text.drop i).take (k - i)

def Spans (L : Language α) (i k : ℕ) : Prop := i ≤ k ∧ k ≤ text.length ∧ slice text i k ∈ L

variable {text}

theorem length_slice {i k : ℕ} (hk : k ≤ text.length) : (slice text i k).length = k - i := by
  simp only [slice,length_take,length_drop]
  omega

@[simp] theorem slice_self (i : ℕ) : slice text i i = [] := by simp [slice]

theorem slice_all : slice text 0 text.length = text := by simp [slice]

theorem slice_append {i j k : ℕ} (hij : i ≤ j) (hjk : j ≤ k) :
    slice text i j ++ slice text j k = slice text i k := by
  have hs : k - i = (j - i) + (k - j) := by omega
  have hd : text.drop j = (text.drop i).drop (j - i) := by
    rw [drop_drop]
    congr 1
    omega
  rw [slice,slice,slice,hs,take_add,hd]

/-- Any way to cut a piece in two is a cut at a position. -/
theorem slice_eq_append {i k : ℕ} (hik : i ≤ k) (hk : k ≤ text.length) {xs ys : List α} (h : xs ++ ys = slice text i k) :
    i ≤ i + xs.length ∧ i + xs.length ≤ k ∧ xs = slice text i (i + xs.length) ∧
      ys = slice text (i + xs.length) k := by
  have hl := congrArg List.length h
  rw [length_append,length_slice hk] at hl
  have hc : i + xs.length ≤ k := by omega
  have hp := @slice_append _ text _ _ _ (Nat.le_add_right i xs.length) hc
  rw [← h] at hp
  have hx : (slice text i (i + xs.length)).length = xs.length := by
    rw [length_slice (hc.trans hk)]
    omega
  obtain ⟨h1,h2⟩ := append_inj hp hx
  exact ⟨by omega,hc,h1.symm,h2.symm⟩

section
variable {L M : Language α} {i k : ℕ}

theorem Spans.le (h : Spans text L i k) : i ≤ k := h.1
theorem Spans.le_length (h : Spans text L i k) : k ≤ text.length := h.2.1

theorem spans_one : Spans text (1 : Language α) i k ↔ i = k ∧ i ≤ text.length := by
  constructor
  · rintro ⟨hik,hk,hm⟩
    have hl := length_slice (i := i) hk
    rw [Language.mem_one] at hm
    rw [hm] at hl
    simp only [length_nil] at hl
    omega
  · rintro ⟨rfl,hi⟩
    exact ⟨le_rfl,hi,by simp [Language.mem_one]⟩

theorem spans_add : Spans text (L + M) i k ↔ Spans text L i k ∨ Spans text M i k := by
  simp only [Spans,Language.mem_add]
  tauto

theorem spans_mul : Spans text (L * M) i k ↔ ∃ j, Spans text L i j ∧ Spans text M j k := by
  constructor
  · rintro ⟨hik,hk,hm⟩
    obtain ⟨xs,hxs,ys,hys,ha⟩ := Language.mem_mul.mp hm
    obtain ⟨h1,h2,h3,h4⟩ := slice_eq_append hik hk ha
    exact ⟨i + xs.length,⟨h1,h2.trans hk,h3 ▸ hxs⟩,⟨h2,hk,h4 ▸ hys⟩⟩
  · rintro ⟨j,⟨hij,-,hL⟩,⟨hjk,hk,hM⟩⟩
    refine ⟨hij.trans hjk,hk,?_⟩
    rw [← slice_append hij hjk]
    exact Language.append_mem_mul hL hM

theorem spans_compl (hik : i ≤ k) (hk : k ≤ text.length) : Spans text Lᶜ i k ↔ ¬Spans text L i k := by
  simp only [Spans,hik,hk,true_and]
  rfl

/-- A step of iteration that makes progress. -/
def Advances (text : List α) (L : Language α) (i j : ℕ) : Prop := i < j ∧ Spans text L i j

theorem spans_kstar (hi : i ≤ text.length) :
    Spans text (L∗) i k ↔ Relation.ReflTransGen (Advances text L) i k := by
  constructor
  · rintro ⟨hik,hk,hme⟩
    obtain ⟨S,hS,hwo⟩ := Language.mem_kstar_iff_exists_nonempty.mp hme
    induction S generalizing i with
    | nil =>
      have hl := length_slice (i := i) hk
      rw [hS] at hl
      simp only [flatten_nil,length_nil] at hl
      obtain rfl : i = k := by omega
      exact Relation.ReflTransGen.refl
    | cons y S ih =>
      rw [flatten_cons] at hS
      obtain ⟨h1,h2,h3,h4⟩ := slice_eq_append hik hk hS.symm
      obtain ⟨hy,hne⟩ := hwo y mem_cons_self
      have hre : ∀ w ∈ S, w ∈ L ∧ w ≠ [] := fun w hw => hwo w (mem_cons_of_mem _ hw)
      have hp : 0 < y.length := length_pos_of_ne_nil hne
      have hj := h2.trans hk
      refine Relation.ReflTransGen.head ⟨by omega,h1,hj,h3 ▸ hy⟩ (ih hj h2 ?_ h4.symm hre)
      rw [← h4]
      exact Language.join_mem_kstar fun w hw => (hre w hw).1
  · intro hr
    induction hr with
    | refl => exact ⟨le_rfl,hi,by simpa using Language.nil_mem_kstar L⟩
    | tail _ hs ih =>
      have hm := spans_mul.mpr ⟨_,ih,hs.2⟩
      refine ⟨hm.1,hm.2.1,?_⟩
      have hle : L∗ * L ≤ L∗ := by
        conv_rhs => rw [← Language.one_add_kstar_mul_self_eq_kstar]
        exact le_sup_right
      exact hle hm.2.2

theorem spans_mul_kstar (hn : [] ∉ L) :
    Spans text (L * L∗) i k ↔ Relation.TransGen (Advances text L) i k := by
  have ha : ∀ a b, Spans text L a b → Advances text L a b := by
    intro a b h
    refine ⟨lt_of_le_of_ne h.1 ?_,h⟩
    rintro rfl
    exact hn (by simpa using h.2.2)
  rw [spans_mul,Relation.TransGen.head'_iff]
  constructor
  · rintro ⟨j,hL,hs⟩
    exact ⟨j,ha i j hL,(spans_kstar hL.le_length).mp hs⟩
  · rintro ⟨j,hL,hs⟩
    exact ⟨j,hL.2,(spans_kstar hL.2.le_length).mpr hs⟩
end
end Cherubsh.Slices
