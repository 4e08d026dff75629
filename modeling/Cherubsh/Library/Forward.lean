import Mathlib.Data.List.Basic

/-! # Loops that move forward over a list

A round looks at the next element and what follows it, and ends the loop or goes on somewhere
behind the element. Rounds that lead from one place of the list to another compose.
-/
namespace Cherubsh.Forward
variable {σ α β : Type}

inductive Round (σ α β : Type) where
  | stop (result : β)
  | next (state : σ) (rest : List α)

def loop (step : σ → α → List α → Round σ α β) (finish : σ → β) : ℕ → σ → List α → β
  | _, s, [] => finish s
  | 0, s, _ :: _ => finish s
  | rounds + 1, s, a :: rest =>
    match step s a rest with
    | .stop result => result
    | .next s rest => loop step finish rounds s rest

def run (step : σ → α → List α → Round σ α β) (finish : σ → β) (s : σ) (l : List α) : β := loop step finish l.length s l

/-- Some rounds lead from a place in the list to a later one. -/
inductive Leads (step : σ → α → List α → Round σ α β) : σ → List α → σ → List α → Prop
  | here (s : σ) (l : List α) : Leads step s l s l
  | round {s s₁ t : σ} {a : α} {rest rest₁ l : List α} (h : step s a rest = .next s₁ rest₁) (hle : rest₁.length ≤ rest.length)
      (more : Leads step s₁ rest₁ t l) : Leads step s (a :: rest) t l

variable {step : σ → α → List α → Round σ α β} {finish : σ → β} {s t u : σ} {l m n : List α}

theorem Leads.trans (h : Leads step s l t m) (h' : Leads step t m u n) : Leads step s l u n := by
  induction h with
  | here => exact h'
  | round hs hle _ ih => exact .round hs hle (ih h')

theorem Leads.one {a : α} {rest rest₁ : List α} (h : step s a rest = .next t rest₁) (hle : rest₁.length ≤ rest.length) :
    Leads step s (a :: rest) t rest₁ := .round h hle (.here t rest₁)

theorem loop_of_leads (h : Leads step s l t m) {rounds : ℕ} (hr : l.length ≤ rounds) :
    ∃ left, m.length ≤ left ∧ loop step finish rounds s l = loop step finish left t m := by
  induction h generalizing rounds with
  | here => exact ⟨rounds,hr,rfl⟩
  | @round s s₁ t a rest rest₁ l hs hle _ ih =>
    cases rounds with
    | zero => simp at hr
    | succ rounds =>
      have hle' : rest₁.length ≤ rounds := by
        rw [List.length_cons] at hr
        omega
      obtain ⟨left,hl,heq⟩ := ih hle'
      exact ⟨left,hl,by rw [loop,hs]; exact heq⟩

theorem run_of_leads_stop {a : α} {rest : List α} {result : β} (h : Leads step s l t (a :: rest))
    (hs : step t a rest = .stop result) : run step finish s l = result := by
  have hl : ∃ left, (a :: rest).length ≤ left ∧ loop step finish l.length s l = loop step finish left t (a :: rest) :=
    loop_of_leads h (Nat.le_refl _)
  obtain ⟨left,hle,heq⟩ := hl
  rw [run,heq]
  cases left with
  | zero => simp at hle
  | succ left => rw [loop,hs]

/-- What a round ends with has the one property, what it goes on with the other. -/
def Round.Holds (P : σ → Prop) (Q : β → Prop) : Round σ α β → Prop
  | .stop result => Q result
  | .next state _ => P state

section
variable {P : σ → Prop} {Q : β → Prop}

theorem loop_holds (hst : ∀ s a rest, P s → (step s a rest).Holds P Q) (hf : ∀ s, P s → Q (finish s))
    (rounds : ℕ) (hs : P s) : Q (loop step finish rounds s l) := by
  induction rounds generalizing s l with
  | zero => cases l <;> exact hf s hs
  | succ rounds ih =>
    cases l with
    | nil => exact hf s hs
    | cons a rest =>
      have hr := hst s a rest hs
      rw [loop]
      cases h : step s a rest with
      | stop result => simpa [Round.Holds,h] using hr
      | next t rest => exact ih (by simpa [Round.Holds,h] using hr)

theorem run_holds_of_leads (h : Leads step s l t m) (ht : P t) (hs : ∀ s a rest, P s → (step s a rest).Holds P Q)
    (hf : ∀ s, P s → Q (finish s)) : Q (run step finish s l) := by
  have hl : ∃ left, m.length ≤ left ∧ loop step finish l.length s l = loop step finish left t m :=
    loop_of_leads h (Nat.le_refl _)
  obtain ⟨left,-,heq⟩ := hl
  rw [run,heq]
  exact loop_holds hs hf left ht
end

/-- Some rounds lead to a later place and to one of the given states. -/
def Reaches (step : σ → α → List α → Round σ α β) (P : σ → Prop) (s : σ) (l m : List α) : Prop := ∃ t, Leads step s l t m ∧ P t

section
variable {P Q : σ → Prop}

theorem Reaches.here (h : P s) : Reaches step P s l l := ⟨s,.here s l,h⟩

theorem Reaches.one {a : α} {rest rest₁ : List α} (h : step s a rest = .next t rest₁) (hle : rest₁.length ≤ rest.length)
    (ht : P t) : Reaches step P s (a :: rest) rest₁ := ⟨t,.one h hle,ht⟩

theorem Reaches.bind (h : Reaches step P s l m) (h' : ∀ t, P t → Reaches step Q t m n) : Reaches step Q s l n := by
  obtain ⟨t,hl,ht⟩ := h
  obtain ⟨u,hl',hu⟩ := h' t ht
  exact ⟨u,hl.trans hl',hu⟩
end
end Cherubsh.Forward
