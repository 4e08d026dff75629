import Mathlib.Data.List.Infix
import Mathlib.Data.List.Count

/-! # Nesting depths that stop at zero

A list of marks is read from the left. One mark opens, one closes, and a closing mark at
depth zero changes nothing. Depth zero is reached at the end exactly when no final part of
the list opens more than it closes.
-/
namespace Cherubsh.Nesting
open List
variable {α : Type} [DecidableEq α] (opening closing : α)

def step (depth : ℕ) (a : α) : ℕ := if a = opening then depth + 1 else if a = closing then depth - 1 else depth

def depth (start : ℕ) (l : List α) : ℕ := l.foldl (step opening closing) start

/-- No final part of the list opens more than it closes. -/
def Closed (l : List α) : Prop := ∀ t, t <:+ l → t.count opening ≤ t.count closing

instance (l : List α) : Decidable (Closed opening closing l) :=
  decidable_of_iff (∀ t ∈ l.tails, t.count opening ≤ t.count closing) (by simp [Closed,mem_tails])

variable {opening closing}

@[simp] theorem depth_nil (start : ℕ) : depth opening closing start [] = start := rfl

@[simp] theorem depth_cons (start : ℕ) (a : α) (l : List α) :
    depth opening closing start (a :: l) = depth opening closing (step opening closing start a) l := rfl

theorem depth_append (start : ℕ) (l m : List α) :
    depth opening closing start (l ++ m) = depth opening closing (depth opening closing start l) m := foldl_append ..

theorem closed_cons (a : α) (l : List α) :
    Closed opening closing (a :: l) ↔
      Closed opening closing l ∧ (a :: l).count opening ≤ (a :: l).count closing := by
  constructor
  · intro h
    exact ⟨fun t ht => h t (ht.trans (suffix_cons a l)),h _ (suffix_refl _)⟩
  · rintro ⟨hl,ha⟩ t ht
    rcases suffix_cons_iff.1 ht with rfl | ht
    · exact ha
    · exact hl t ht

theorem Closed.count_le {l : List α} (h : Closed opening closing l) : l.count opening ≤ l.count closing := h l (suffix_refl l)

theorem depth_eq_zero_iff_of_start (hne : opening ≠ closing) (start : ℕ) (l : List α) :
    depth opening closing start l = 0 ↔ Closed opening closing l ∧ start + l.count opening ≤ l.count closing := by
  induction l generalizing start with
  | nil => simp [depth,Closed]
  | cons a l ih =>
    rw [depth_cons,ih,closed_cons]
    -- a closing mark at depth zero is lost, which the closedness of the rest makes up for
    by_cases ho : a = opening
    · subst ho
      simp only [step,if_true,count_cons_self,count_cons_of_ne hne]
      constructor
      · rintro ⟨hl,hle⟩
        exact ⟨⟨hl,by omega⟩,by omega⟩
      · rintro ⟨⟨hl,-⟩,hle⟩
        exact ⟨hl,by omega⟩
    · by_cases hc : a = closing
      · subst hc
        simp only [step,if_neg ho,if_true,count_cons_self,count_cons_of_ne ho]
        constructor
        · rintro ⟨hl,hle⟩
          exact ⟨⟨hl,by omega⟩,by omega⟩
        · rintro ⟨⟨hl,-⟩,hle⟩
          have := hl.count_le
          exact ⟨hl,by omega⟩
      · simp only [step,if_neg ho,if_neg hc,count_cons_of_ne ho,count_cons_of_ne hc]
        constructor
        · rintro ⟨hl,hle⟩
          exact ⟨⟨hl,hl.count_le⟩,hle⟩
        · rintro ⟨⟨hl,-⟩,hle⟩
          exact ⟨hl,hle⟩

theorem depth_eq_zero_iff (hne : opening ≠ closing) (l : List α) :
    depth opening closing 0 l = 0 ↔ Closed opening closing l := by
  rw [depth_eq_zero_iff_of_start hne]
  exact ⟨And.left,fun h => ⟨h,by simpa using h.count_le⟩⟩
end Cherubsh.Nesting
