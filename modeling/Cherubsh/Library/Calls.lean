import Mathlib.Data.List.Basic

/-! # Programs that call out

A program returns, or makes a request and goes on with the answer. A handler that may
fail to answer runs it; the requests that a total handler receives are its demands. A
run ends exactly when each of its demands is answered.
-/
namespace Cherubsh
variable {ρ β α γ : Type}

inductive Program (ρ β α : Type) where
  | pure (a : α)
  | ask (r : ρ) (next : β → Program ρ β α)

namespace Program

def bind : Program ρ β α → (α → Program ρ β γ) → Program ρ β γ
  | .pure a, k => k a
  | .ask r next, k => .ask r fun b => (next b).bind k

instance : Monad (Program ρ β) where
  pure := .pure
  bind := bind

def call (r : ρ) : Program ρ β β := .ask r .pure

def answerWith (f : ρ → Option β) : Program ρ β α → Option α
  | .pure a => some a
  | .ask r next => (f r).bind fun b => (next b).answerWith f

def demands (g : ρ → β) : Program ρ β α → List ρ
  | .pure _ => []
  | .ask r next => r :: (next (g r)).demands g

def result (g : ρ → β) : Program ρ β α → α
  | .pure a => a
  | .ask r next => (next (g r)).result g

/-- Whatever is answered, the requests have the one property and what is returned the other. -/
def Every (asks : ρ → Prop) (returns : α → Prop) : Program ρ β α → Prop
  | .pure a => returns a
  | .ask r next => asks r ∧ ∀ b, (next b).Every asks returns

section
variable {asks : ρ → Prop} {returns : α → Prop} {p : Program ρ β α}

theorem every_pure {a : α} (h : returns a) : (Pure.pure a : Program ρ β α).Every asks returns := h

theorem every_bind {k : α → Program ρ β γ} {final : γ → Prop} (hp : p.Every asks returns)
    (hk : ∀ a, returns a → (k a).Every asks final) : (p >>= k).Every asks final := by
  induction p with
  | pure a => exact hk a hp
  | ask r next ih => exact ⟨hp.1,fun b => ih b (hp.2 b)⟩

theorem every_call {r : ρ} (h : asks r) : (call r : Program ρ β β).Every asks fun _ => True := ⟨h,fun _ => trivial⟩

variable (h : p.Every asks returns)
include h

theorem Every.mono {asks' : ρ → Prop} {returns' : α → Prop}
    (ha : ∀ r, asks r → asks' r) (hr : ∀ a, returns a → returns' a) : p.Every asks' returns' := by
  induction p with
  | pure a => exact hr a h
  | ask r next ih => exact ⟨ha r h.1,fun b => ih b (h.2 b)⟩

theorem Every.demands (g : ρ → β) : ∀ r ∈ p.demands g, asks r := by
  induction p with
  | pure a => exact fun r hr => absurd hr List.not_mem_nil
  | ask r next ih =>
    intro r' hr'
    rcases List.mem_cons.mp hr' with rfl | hr'
    · exact h.1
    · exact ih (g r) (h.2 (g r)) r' hr'

theorem Every.result (g : ρ → β) : returns (p.result g) := by
  induction p with
  | pure a => exact h
  | ask r next ih => exact ih (g r) (h.2 (g r))
end

section
variable {f : ρ → Option β} {g : ρ → β} {p : Program ρ β α}

theorem answerWith_bind (p : Program ρ β α) (k : α → Program ρ β γ) :
    (p >>= k).answerWith f = (p.answerWith f).bind fun a => (k a).answerWith f := by
  induction p with
  | pure a => rfl
  | ask r next ih =>
    rw [answerWith,Option.bind_assoc]
    exact congrArg (Option.bind (f r)) (funext fun b => ih b)

theorem Every.answerWith {asks : ρ → Prop} {returns : α → Prop} {a : α} (h : p.Every asks returns)
    (ha : p.answerWith f = some a) : returns a := by
  induction p with
  | pure b =>
    cases ha
    exact h
  | ask r next ih =>
    obtain ⟨b,-,hr⟩ := Option.bind_eq_some_iff.mp ha
    exact ih b (h.2 b) hr

theorem answerWith_eq_result (h : ∀ r ∈ p.demands g, f r = some (g r)) :
    p.answerWith f = some (p.result g) := by
  induction p with
  | pure a => rfl
  | ask r next ih =>
    rw [answerWith,h r List.mem_cons_self,Option.bind_some,ih (g r) fun r' hr' => h r' (List.mem_cons_of_mem r hr')]
    rfl

theorem answered_of_answerWith {a : α} (hf : ∀ r b, f r = some b → b = g r)
    (h : p.answerWith f = some a) : ∀ r ∈ p.demands g, (f r).isSome := by
  induction p with
  | pure _ => exact fun r hr => absurd hr List.not_mem_nil
  | ask r next ih =>
    obtain ⟨b,hb,hre⟩ := Option.bind_eq_some_iff.mp h
    obtain rfl := hf r b hb
    intro r' hr'
    rcases List.mem_cons.mp hr' with rfl | hr'
    · exact Option.isSome_of_mem hb
    · exact ih (g r) hre r' hr'
end
end Program
end Cherubsh
