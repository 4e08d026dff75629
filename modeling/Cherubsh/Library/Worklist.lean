import Mathlib.Data.Finset.Card

/-! # Reachability by a worklist

A stack of elements still to be expanded and a list of the elements ever put on it. Over a finite
universe that the successors do not leave, as many rounds as it has elements are enough.
-/
namespace Cherubsh.Worklist
open List
variable {α : Type*} [DecidableEq α]

def visit (s : List α × List α) (e : α) : List α × List α :=
  if e ∈ s.2 then s else (e :: s.1,e :: s.2)

def visitAll (s : List α × List α) (es : List α) : List α × List α := es.foldl visit s

/-- Expand until the stack is empty, collecting what is expanded. -/
def drain (succ : α → List α) : ℕ → List α × List α → List α → List α
  | 0, _, done => done
  | _ + 1, ([],_), done => done
  | fuel + 1, (c :: stack,seen), done => drain succ fuel (visitAll (stack,seen) (succ c)) (done.insert c)

theorem visitAll_spec (stack seen es : List α) :
    ∃ new, visitAll (stack,seen) es = (new ++ stack,new ++ seen) ∧ new.Nodup ∧
      ∀ x, x ∈ new ↔ x ∈ es ∧ x ∉ seen := by
  induction es generalizing stack seen with
  | nil => exact ⟨[],rfl,nodup_nil,by simp⟩
  | cons e es ih =>
    by_cases he : e ∈ seen
    · obtain ⟨new,hv,hn,hm⟩ := ih stack seen
      refine ⟨new,?_,hn,fun x => ?_⟩
      · simpa [visitAll,visit,he] using hv
      · rw [hm,mem_cons]
        constructor
        · exact fun h => ⟨Or.inr h.1,h.2⟩
        · rintro ⟨rfl | h,hx⟩
          · exact absurd he hx
          · exact ⟨h,hx⟩
    · obtain ⟨new,hv,hn,hm⟩ := ih (e :: stack) (e :: seen)
      refine ⟨new ++ [e],?_,?_,fun x => ?_⟩
      · simpa [visitAll,visit,he] using hv
      · exact hn.append (nodup_singleton e) fun x hx hy => ((hm x).mp hx).2 (by simp_all)
      · rw [mem_append,mem_singleton,hm,mem_cons,mem_cons,not_or]
        constructor
        · rintro (⟨h1,h2,h3⟩ | rfl)
          · exact ⟨Or.inr h1,h3⟩
          · exact ⟨Or.inl rfl,he⟩
        · rintro ⟨rfl | h1,h2⟩
          · exact Or.inr rfl
          · by_cases hx : x = e
            · exact Or.inr hx
            · exact Or.inl ⟨h1,hx,h2⟩

/-- Elements off the stack are expanded, everything seen is reachable, and the fuel suffices. -/
structure Invariant (succ : α → List α) (U : Finset α) (start : List α)
    (fuel : ℕ) (stack seen done : List α) : Prop where
  stack_nodup : stack.Nodup
  stack_seen : ∀ x ∈ stack, x ∈ seen
  seen_nodup : seen.Nodup
  seen_mem : ∀ x ∈ seen, x ∈ U
  start_seen : ∀ x ∈ start, x ∈ seen
  expanded : ∀ x ∈ seen, x ∉ stack → x ∈ done ∧ ∀ y ∈ succ x, y ∈ seen
  reachable : ∀ x ∈ seen, ∃ s ∈ start, Relation.ReflTransGen (fun a b => b ∈ succ a) s x
  fuel_le : stack.length + (U.card - seen.length) ≤ fuel

variable {succ : α → List α} {U : Finset α} {start extra stack seen done : List α} {fuel : ℕ}

theorem length_le_card (hn : seen.Nodup) (hs : ∀ x ∈ seen, x ∈ U) : seen.length ≤ U.card := by
  rw [← toFinset_card_of_nodup hn]
  exact Finset.card_le_card fun x hx => hs x (mem_toFinset.mp hx)

theorem Invariant.step (hU : ∀ x ∈ U, ∀ y ∈ succ x, y ∈ U) {c : α}
    (h : Invariant succ U start (fuel + 1) (c :: stack) seen done) :
    Invariant succ U start fuel (visitAll (stack,seen) (succ c)).1 (visitAll (stack,seen) (succ c)).2
      (done.insert c) := by
  obtain ⟨new,hv,hn,hm⟩ := visitAll_spec stack seen (succ c)
  rw [hv]
  have hc : c ∈ seen := h.stack_seen c mem_cons_self
  have hsu : ∀ x ∈ new ++ seen, x ∈ U := by
    intro x hx
    rcases mem_append.mp hx with hx | hx
    · exact hU c (h.seen_mem c hc) x ((hm x).mp hx).1
    · exact h.seen_mem x hx
  have hno := hn.append h.seen_nodup fun x hx hy => ((hm x).mp hx).2 hy
  have hca := length_le_card hno hsu
  refine ⟨?_,?_,hno,hsu,fun x hx => mem_append_right _ (h.start_seen x hx),?_,?_,?_⟩
  · exact hn.append (nodup_cons.mp h.stack_nodup).2 fun x hx hy =>
      ((hm x).mp hx).2 (h.stack_seen x (mem_cons_of_mem _ hy))
  · intro x hx
    rcases mem_append.mp hx with hx | hx
    · exact mem_append_left _ hx
    · exact mem_append_right _ (h.stack_seen x (mem_cons_of_mem _ hx))
  · intro x hx ho
    have hxn : x ∉ new := fun hxn => ho (mem_append_left _ hxn)
    have hxs : x ∈ seen := (mem_append.mp hx).resolve_left hxn
    by_cases hxc : x = c
    · subst hxc
      refine ⟨mem_insert_self,fun y hy => ?_⟩
      by_cases hys : y ∈ seen
      · exact mem_append_right _ hys
      · exact mem_append_left _ ((hm y).mpr ⟨hy,hys⟩)
    · have hxt : x ∉ c :: stack := by
        simp only [mem_cons,not_or]
        exact ⟨hxc,fun hst => ho (mem_append_right _ hst)⟩
      obtain ⟨hd,hs⟩ := h.expanded x hxs hxt
      exact ⟨mem_insert_of_mem hd,fun y hy => mem_append_right _ (hs y hy)⟩
  · intro x hx
    rcases mem_append.mp hx with hx | hx
    · obtain ⟨s,hs,hr⟩ := h.reachable c hc
      exact ⟨s,hs,hr.tail ((hm x).mp hx).1⟩
    · exact h.reachable x hx
  · have hf := h.fuel_le
    simp only [length_cons,length_append] at hf hca ⊢
    omega

omit [DecidableEq α] in
theorem Invariant.finished (h : Invariant succ U start fuel [] seen done)
    (hd : ∀ x ∈ done, x ∈ extra ∨ x ∈ seen) (he : ∀ x ∈ extra, x ∈ done) (x : α) :
    x ∈ done ↔ x ∈ extra ∨ ∃ s ∈ start, Relation.ReflTransGen (fun a b => b ∈ succ a) s x := by
  constructor
  · intro hx
    rcases hd x hx with hx | hx
    · exact Or.inl hx
    · exact Or.inr (h.reachable x hx)
  · rintro (hx | ⟨s,hs,hr⟩)
    · exact he x hx
    · suffices x ∈ seen from (h.expanded x this (by simp)).1
      induction hr with
      | refl => exact h.start_seen s hs
      | tail _ hst ih => exact (h.expanded _ ih (by simp)).2 _ hst

variable (hU : ∀ x ∈ U, ∀ y ∈ succ x, y ∈ U)
include hU

theorem Invariant.mem_drain (h : Invariant succ U start fuel stack seen done) (hd : ∀ x ∈ done, x ∈ extra ∨ x ∈ seen)
    (he : ∀ x ∈ extra, x ∈ done) (x : α) :
    x ∈ drain succ fuel (stack,seen) done ↔
      x ∈ extra ∨ ∃ s ∈ start, Relation.ReflTransGen (fun a b => b ∈ succ a) s x := by
  induction fuel generalizing stack seen done with
  | zero =>
    have hf := h.fuel_le
    obtain rfl : stack = [] := length_eq_zero_iff.mp (by omega)
    exact h.finished hd he x
  | succ fuel ih =>
    cases stack with
    | nil => exact h.finished hd he x
    | cons c stack =>
      obtain ⟨new,hv,-,-⟩ := visitAll_spec stack seen (succ c)
      refine ih (h.step hU) ?_ fun y hy => mem_insert_of_mem (he y hy)
      intro y hy
      change y ∈ extra ∨ y ∈ (visitAll (stack,seen) (succ c)).2
      rw [hv]
      rcases mem_insert_iff.mp hy with rfl | hy
      · exact Or.inr (mem_append_right _ (h.stack_seen y mem_cons_self))
      · exact (hd y hy).imp_right (mem_append_right _)

theorem mem_drain_iff (hs : ∀ x ∈ start, x ∈ U) (done : List α) (hf : U.card ≤ fuel) (x : α) :
    x ∈ drain succ fuel (visitAll ([],[]) start) done ↔
      x ∈ done ∨ ∃ s ∈ start, Relation.ReflTransGen (fun a b => b ∈ succ a) s x := by
  obtain ⟨new,hv,hn,hm⟩ := visitAll_spec ([] : List α) [] start
  simp only [append_nil,not_mem_nil,not_false_eq_true,and_true] at hv hm
  have hsu : ∀ x ∈ new, x ∈ U := fun x hx => hs x ((hm x).mp hx)
  have hc := length_le_card hn hsu
  rw [hv]
  have hi : Invariant succ U start fuel new new done :=
    ⟨hn,fun x hx => hx,hn,hsu,fun x hx => (hm x).mpr hx,fun x hx ho => absurd hx ho,
      fun x hx => ⟨x,(hm x).mp hx,Relation.ReflTransGen.refl⟩,by omega⟩
  exact hi.mem_drain hU (fun x hx => Or.inl hx) (fun x hx => hx) x
end Cherubsh.Worklist
