import Cherubsh.State.LocalScopes
import Mathlib.Dynamics.PeriodicPts.Defs

/-! # Following name references

A name is resolved by following targets for a number of rounds; the names met so far are kept to
notice a cycle.
-/
namespace Cherubsh.State
open Function
variable {s : Store} {rounds : ℕ} {seen : List String} {name cur t : String}

/-- The target of a reference; any other name stands for itself. -/
def followed (s : Store) (name : String) : String := (s.vars name).nameref.getD name

/-- The chain ends at `t` soon enough. -/
def EndsAt (s : Store) (rounds : ℕ) (name t : String) : Prop :=
  ∃ k, (followed s)^[k] name = t ∧ ((s.vars t).nameref = none ∧ k ≤ rounds ∨ (s.vars t).nameref = some t ∧ k < rounds)

theorem EndsAt.fixed (h : EndsAt s rounds name t) : followed s t = t ∧ ∃ k ≤ rounds, (followed s)^[k] name = t := by
  obtain ⟨k,he,hk⟩ := h
  refine ⟨?_,k,by omega,he⟩
  rcases hk with hk | hk <;> simp [followed,hk]

theorem endsAt_of_end (h : (s.vars name).nameref = none ∨ (s.vars name).nameref = some name ∧ 0 < rounds) :
    EndsAt s rounds name t ↔ name = t := by
  have hf : followed s name = name := by rcases h with h | h <;> simp [followed,h]
  constructor
  · rintro ⟨k,rfl,-⟩
    exact (iterate_fixed hf k).symm
  · rintro rfl
    exact ⟨0,rfl,h.imp_left (⟨·,Nat.zero_le _⟩)⟩

theorem endsAt_succ (h : followed s name ≠ name) : EndsAt s (rounds + 1) name t ↔ EndsAt s rounds (followed s name) t := by
  constructor
  · intro he
    have hf := he.fixed.1
    obtain ⟨_ | k,rfl,hr⟩ := he
    · exact absurd hf h
    · exact ⟨k,rfl,by simpa using hr⟩
  · rintro ⟨k,hk,hr⟩
    exact ⟨k + 1,hk,by simpa using hr⟩

/-- A cycle that comes to an end is one name. -/
theorem fixed_of_periodic {p k : ℕ} (hp : (followed s)^[p + 1] cur = cur)
    (hf : followed s ((followed s)^[k] cur) = (followed s)^[k] cur) : followed s cur = cur := by
  have hc : (followed s)^[(p + 1) * k] cur = cur := IsPeriodicPt.mul_const hp k
  rw [Nat.add_one_mul,iterate_add_apply,iterate_fixed hf] at hc
  rwa [hc] at hf

theorem resolveFrom_eq (hs : ∀ x ∈ seen, ∃ p, (followed s)^[p] x = cur) :
    resolveFrom s rounds seen cur = some t ↔ 0 < rounds ∧ EndsAt s rounds cur t := by
  have hft : ∀ {cur target}, (s.vars cur).nameref = some target → followed s cur = target := fun hr => by simp [followed,hr]
  fun_induction resolveFrom s rounds seen cur with
  | case1 => simp
  | case2 rounds seen cur hr => simp [endsAt_of_end (.inr ⟨hr,Nat.succ_pos rounds⟩)]
  | case3 rounds seen cur target hr hc hm =>
    obtain ⟨p,hp⟩ := hs target hm
    refine iff_of_false (by simp) fun he => hc ((hft hr).symm.trans ?_)
    obtain ⟨hf,k,-,rfl⟩ := he.2.fixed
    exact fixed_of_periodic (p := p) (by rwa [iterate_succ_apply,hft hr]) hf
  | case4 rounds seen cur target hr hc hm hn =>
    rw [endsAt_succ (by rwa [hft hr]),hft hr,endsAt_of_end (.inl (by simpa using hn))]
    simp
  | case5 rounds seen cur target hr hc hm hn ih =>
    refine (ih fun x hx => ?_).trans ?_
    · rcases List.mem_cons.mp hx with rfl | hx
      · exact ⟨0,rfl⟩
      · obtain ⟨p,hp⟩ := hs x hx
        exact ⟨p + 1,by rw [iterate_succ_apply',hp,hft hr]⟩
    · rw [endsAt_succ (by rwa [hft hr]),hft hr,and_iff_right (Nat.succ_pos rounds),and_iff_right_iff_imp]
      rintro ⟨_ | k,rfl,ho⟩
      · exact Nat.zero_lt_of_lt (ho.resolve_left fun ho => hn (Option.isNone_iff_eq_none.mpr ho.1)).2
      · omega
  | case6 rounds seen cur hr => simp [endsAt_of_end (.inl hr)]

/-- With at least one round a name is resolved exactly when its chain ends soon enough; a cycle of two
or more names and a chain of more names than there are rounds are given up. -/
theorem resolveFrom_reaches (s : Store) {rounds : ℕ} (hr : 0 < rounds) (name : String) :
    (∀ t, resolveFrom s rounds [name] name = some t ↔ EndsAt s rounds name t) ∧
      (∀ i p, (followed s)^[p + 1] ((followed s)^[i] name) = (followed s)^[i] name →
        followed s ((followed s)^[i] name) ≠ (followed s)^[i] name → resolveFrom s rounds [name] name = none) ∧
      ∀ k, rounds < k → (∀ i < k, (followed s)^[i] name ≠ (followed s)^[k] name) → resolveFrom s rounds [name] name = none := by
  have hi : ∀ t, resolveFrom s rounds [name] name = some t ↔ EndsAt s rounds name t := by
    intro t
    rw [resolveFrom_eq (by simpa using ⟨0,rfl⟩),and_iff_right hr]
  refine ⟨hi,fun i p hp hn => ?_,fun k hk hn => ?_⟩
  all_goals
    by_contra hs
    obtain ⟨t,ht⟩ := Option.ne_none_iff_exists'.mp hs
    obtain ⟨hf,j,hj,rfl⟩ := ((hi t).mp ht).fixed
  · refine hn (fixed_of_periodic hp (k := j) ?_)
    rwa [← iterate_add_apply,Nat.add_comm,iterate_add_apply,iterate_fixed hf]
  · refine hn j (by omega) ?_
    rw [show k = (k - j) + j by omega,iterate_add_apply,iterate_fixed hf]

/-- A reference `n` to a plain variable, under the limit of the shell. -/
theorem resolveNameref_reaches_variable :
    resolveNameref { startStore with vars := fun x => if x = "n" then { Binding.unset with nameref := some "v" } else .unset } "n" =
      some "v" :=
  ((resolveFrom_reaches _ (by decide : 0 < namerefMaxDepth) "n").1 "v").mpr ⟨1,rfl,.inl ⟨rfl,by decide⟩⟩
end Cherubsh.State
