import Mathlib.Tactic.Common

/-! # What a stateful computation ensures when it succeeds

A computation over a state that may fail ensures a postcondition from a precondition when every
successful run has it. The rules follow the ways computations are put together; a loop has an
invariant.
-/
namespace Cherubsh
variable {σ ε α β γ : Type}

/-- Rounds of a step, each of which either goes on or ends the loop. -/
def iterate (exhausted : ε) (step : β → StateT σ (Except ε) (β ⊕ γ)) : ℕ → β → StateT σ (Except ε) γ
  | 0, _ => throw exhausted
  | fuel + 1, b => do
    match ← step b with
    | .inl b => iterate exhausted step fuel b
    | .inr c => return c

theorem exists_ok_of_map {x : Except ε α} {f : α → β} {b : β} (h : x.toOption.map f = some b) :
    ∃ a, x = .ok a ∧ f a = b := by
  cases x with
  | error e => cases h
  | ok a => exact ⟨a,rfl,Option.some.inj h⟩

theorem bind_of_ok {p : StateT σ (Except ε) α} {k : α → StateT σ (Except ε) β} {s t : σ} {a : α} (h : p s = .ok (a,t)) :
    (p >>= k) s = k a t := by
  change (p s >>= fun r => k r.1 r.2) = _
  rw [h]
  rfl

theorem get_bind (k : σ → StateT σ (Except ε) β) (s : σ) : (get >>= k) s = k s s := rfl

theorem exists_of_bind {p : StateT σ (Except ε) α} {k : α → StateT σ (Except ε) β} {s s' : σ} {b : β}
    (h : (p >>= k) s = .ok (b,s')) : ∃ a t, p s = .ok (a,t) ∧ k a t = .ok (b,s') := by
  change (p s >>= fun r => k r.1 r.2) = _ at h
  rcases hp : p s with e | ⟨a,t⟩
  · rw [hp] at h
    cases h
  · rw [hp] at h
    exact ⟨a,t,rfl,h⟩

def Ensures (pre : σ → Prop) (p : StateT σ (Except ε) α) (post : α → σ → Prop) : Prop :=
  ∀ s, pre s → ∀ a s', p s = .ok (a,s') → post a s'

namespace Ensures
variable {pre : σ → Prop} {p : StateT σ (Except ε) α} {post : α → σ → Prop}

theorem bind {k : α → StateT σ (Except ε) β} {final : β → σ → Prop} (h : Ensures pre p post)
    (hk : ∀ a, Ensures (post a) (k a) final) : Ensures pre (p >>= k) final := by
  intro s hs b s' hr
  obtain ⟨a,t,hp,hr⟩ := exists_of_bind hr
  exact hk a t (h s hs a t hp) b s' hr

theorem ofBind {k : α → StateT σ (Except ε) β} {final : β → σ → Prop} (hk : ∀ a, Ensures (fun _ => True) (k a) final) :
    Ensures pre (p >>= k) final :=
  have h : Ensures pre p fun _ _ => True := fun _ _ _ _ _ => trivial
  h.bind hk

theorem pure (a : α) (h : ∀ s, pre s → post a s) : Ensures pre (Pure.pure a : StateT σ (Except ε) α) post := by
  intro s hs b s' hr
  cases hr
  exact h s hs

theorem fail (e : ε) : Ensures pre (throw e : StateT σ (Except ε) α) post := by
  intro s _ b s' hr
  cases hr

theorem get : Ensures pre (get : StateT σ (Except ε) σ) fun s s' => s = s' ∧ pre s := by
  intro s hs b s' hr
  cases hr
  exact ⟨rfl,hs⟩

theorem loop {exhausted : ε} {step : β → StateT σ (Except ε) (β ⊕ γ)} {inv : β → σ → Prop} {final : γ → σ → Prop}
    (h : ∀ b, Ensures (inv b) (step b) (Sum.elim inv final)) (fuel : ℕ) (b : β) :
    Ensures (inv b) (iterate exhausted step fuel b) final := by
  induction fuel generalizing b with
  | zero => exact fail exhausted
  | succ fuel ih =>
    refine (h b).bind fun r => ?_
    cases r with
    | inl b => exact ih b
    | inr c => exact pure c fun _ hs => hs

theorem ite {c : Prop} [Decidable c] {q : StateT σ (Except ε) α} (hp : Ensures pre p post) (hq : Ensures pre q post) :
    Ensures pre (if c then p else q) post := by
  split
  · exact hp
  · exact hq
end Ensures

end Cherubsh
