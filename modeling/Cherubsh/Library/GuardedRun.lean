import Mathlib.Data.List.Basic

/-! # Runs whose steps carry a condition on the state before them

A condition cuts out the runs in which every step meets it. A relation that the conditioned step
keeps is kept by whole runs.
-/
namespace Cherubsh.GuardedRun
variable {σ τ ω : Type*}

def run (step : σ → ω → σ) (s : σ) (ops : List ω) : σ := ops.foldl step s

@[simp] theorem run_nil (step : σ → ω → σ) (s : σ) : run step s [] = s := rfl
@[simp] theorem run_cons (step : σ → ω → σ) (s : σ) (o : ω) (ops : List ω) :
    run step s (o :: ops) = run step (step s o) ops := rfl

/-- Every operation meets its condition in the state it is made in. -/
def Guarded (step : σ → ω → σ) (ok : σ → ω → Prop) : σ → List ω → Prop
  | _, [] => True
  | s, o :: ops => ok s o ∧ Guarded step ok (step s o) ops

instance Guarded.decidable (step : σ → ω → σ) (ok : σ → ω → Prop)
    [h : ∀ s o, Decidable (ok s o)] : ∀ s ops, Decidable (Guarded step ok s ops)
  | _, [] => isTrue trivial
  | s, o :: ops =>
    match h s o, Guarded.decidable step ok (step s o) ops with
    | isTrue ho, isTrue hr => isTrue ⟨ho,hr⟩
    | isFalse ho, _ => isFalse fun hg => ho hg.1
    | _, isFalse hr => isFalse fun hg => hr hg.2

variable {step : σ → ω → σ} {ok : σ → ω → Prop}

theorem Guarded.simulation {abs : τ → ω → τ} {R : σ → τ → Prop} (hs : ∀ s t o, R s t → ok s o → R (step s o) (abs t o))
    {s : σ} {t : τ} (hR : R s t) {ops : List ω} (hg : Guarded step ok s ops) :
    R (run step s ops) (run abs t ops) := by
  induction ops generalizing s t with
  | nil => exact hR
  | cons o ops ih =>
    obtain ⟨ho,hr⟩ := hg
    exact ih (hs s t o hR ho) hr

theorem guarded_iff_prefixes {pre : σ → ω → Prop} {I good : σ → Prop} (hgo : ∀ s, I s → good s)
    (hk : ∀ s o, I s → pre s o → ok s o → I (step s o)) (he : ∀ s o, I s → pre s o → good (step s o) → ok s o) {s : σ}
    (hI : I s) {ops : List ω} (hp : Guarded step pre s ops) :
    (∀ n, good (run step s (ops.take n))) ↔ Guarded step ok s ops := by
  induction ops generalizing s with
  | nil => simpa [Guarded] using hgo s hI
  | cons o ops ih =>
    obtain ⟨ho,hr⟩ := hp
    constructor
    · intro ha
      have hok : ok s o := he s o hI ho (by simpa using ha 1)
      exact ⟨hok,(ih (hk s o hI ho hok) hr).mp fun n => ha (n + 1)⟩
    · rintro ⟨hok,hg⟩ n
      cases n with
      | zero => exact hgo s hI
      | succ n => exact (ih (hk s o hI ho hok) hr).mpr hg n
end Cherubsh.GuardedRun
