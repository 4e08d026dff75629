import Cherubsh.Library.Fields

/-! # Cutting a list at dropped elements

A list is cut into groups of kept elements. Between two groups some elements are dropped, and
a last group that is empty does not count.
-/
namespace Cherubsh.Cuts
open List Fields
variable {α β : Type}

inductive Cut (dropped kept : α → Prop) : List α → List (List α) → Prop
  | last {g : List α} (hg : ∀ x ∈ g, kept x) : Cut dropped kept g [g]
  | group {g d l : List α} {gs : List (List α)} (hg : ∀ x ∈ g, kept x) (hne : d ≠ []) (hd : ∀ x ∈ d, dropped x)
      (h : Cut dropped kept l gs) : Cut dropped kept (g ++ (d ++ l)) (g :: gs)

def trimLast (gs : List (List α)) : List (List α) := if gs.getLast?.any List.isEmpty then gs.dropLast else gs

/-- The groups, where elements may be dropped in front too. -/
def CutsInto (dropped kept : α → Prop) (l : List α) (groups : List (List α)) : Prop :=
  ∃ lead rest gs, l = lead ++ rest ∧ (∀ x ∈ lead, dropped x) ∧ Cut dropped kept rest gs ∧ groups = trimLast gs

section
variable {dropped kept : α → Prop} {l : List α} {gs : List (List α)} {groups : List (List α)} {dropped' kept' : α → Prop}
  {before mid after : List α}

theorem Cut.mem_and_kept (h : Cut dropped kept l gs) : ∀ g ∈ gs, ∀ x ∈ g, x ∈ l ∧ kept x := by
  induction h with
  | last hg => exact forall_mem_singleton.mpr fun x hx => ⟨hx,hg x hx⟩
  | @group g d l gs hg hne hd h ih =>
    refine forall_mem_cons.mpr ⟨fun x hx => ⟨mem_append_left _ hx,hg x hx⟩,fun g' hg' x hx => ?_⟩
    exact (ih g' hg' x hx).imp_left fun hm => mem_append_right g (mem_append_right d hm)

theorem Cut.ne_nil (h : Cut dropped kept l gs) : gs ≠ [] := by
  cases h <;> simp

theorem Cut.singleton_nil_iff (h : Cut dropped kept l gs) : gs = [[]] ↔ l = [] := by
  cases h with
  | last hg => simp
  | @group g d l gs hg hne hd h => cases h <;> simp [hne]

theorem Cut.eq_of_not_dropped (h : Cut dropped kept l gs) (hl : ∀ x ∈ l, ¬dropped x) : gs = [l] := by
  cases h with
  | last => rfl
  | group _ hne hd _ =>
    obtain ⟨x,d,rfl⟩ := exists_cons_of_ne_nil hne
    exact absurd (hd x mem_cons_self) (hl x (by simp))

theorem Cut.cons_of_not_dropped {g rest : List α} {d : α} (h : Cut dropped kept (g ++ d :: rest) gs) (hg : ∀ x ∈ g, ¬dropped x)
    (hd : ¬kept d) (hr : ∀ x ∈ rest.head?, ¬dropped x) : ∃ gs', gs = g :: gs' ∧ Cut dropped kept rest gs' := by
  generalize hl : g ++ d :: rest = l at h
  cases h with
  | last hk => exact absurd (hk d (by simp [← hl])) hd
  | @group g' d' l' gs' hg' hne hd' h' =>
    obtain ⟨x,d',rfl⟩ := exists_cons_of_ne_nil hne
    obtain ⟨hx,hd'⟩ := forall_mem_cons.mp hd'
    obtain ⟨c,rfl,hc⟩ | ⟨c,rfl,hc⟩ := append_eq_append_iff.mp hl
    · obtain _ | ⟨y,c⟩ := c
      · obtain ⟨-,hr'⟩ := List.cons.inj hc
        obtain _ | ⟨z,d'⟩ := d'
        · exact ⟨gs',by simp,by simpa [hr'] using h'⟩
        · exact absurd (hd' z mem_cons_self) (hr z (by simp [hr']))
      · obtain ⟨rfl,-⟩ := List.cons.inj hc
        exact absurd (hg' d (by simp)) hd
    · obtain _ | ⟨y,c⟩ := c
      · obtain ⟨-,hr'⟩ := List.cons.inj hc
        obtain _ | ⟨z,d'⟩ := d'
        · exact ⟨gs',by simp,by simpa [← hr'] using h'⟩
        · exact absurd (hd' z mem_cons_self) (hr z (by simp [← hr']))
      · obtain ⟨rfl,-⟩ := List.cons.inj hc
        exact absurd hx (hg x (by simp))

theorem Cut.imp (h : Cut dropped kept l gs) (hdr : ∀ x ∈ l, dropped x → dropped' x)
    (hk : ∀ x ∈ l, kept x → kept' x) : Cut dropped' kept' l gs := by
  induction h with
  | last hg => exact .last fun x hx => hk x hx (hg x hx)
  | group hg hne hd _ ih =>
    simp only [mem_append] at hdr hk
    exact .group (fun x hx => hk x (.inl hx) (hg x hx)) hne (fun x hx => hdr x (.inr (.inl hx)) (hd x hx))
      (ih (fun x hx => hdr x (.inr (.inr hx))) fun x hx => hk x (.inr (.inr hx)))

theorem Cut.exists_infix (h : Cut dropped kept l gs) (hl : l = before ++ (mid ++ after)) (hne : mid ≠ [])
    (hm : ∀ x ∈ mid, ¬dropped x) : ∃ g ∈ gs, mid <:+: g := by
  induction h generalizing before mid after with
  | @last g hg => exact ⟨g,mem_singleton_self g,before,after,by rw [hl,append_assoc]⟩
  | @group g d l gs hg hd_ne hd _ ih =>
    have later : ∀ {before : List α}, l = before ++ (mid ++ after) → ∃ g' ∈ g :: gs, mid <:+: g' := fun hl =>
      (ih hl hne hm).imp fun g' hg' => ⟨mem_cons_of_mem _ hg'.1,hg'.2⟩
    obtain ⟨c,rfl,hr⟩ | ⟨c,rfl,hr⟩ := append_eq_append_iff.mp hl
    · obtain ⟨e,rfl,ht⟩ | ⟨e,rfl,ht⟩ := append_eq_append_iff.mp hr
      · exact later ht
      · obtain _ | ⟨x,e⟩ := e
        · exact later (show l = [] ++ (mid ++ after) from ht.symm)
        · obtain ⟨y,mid,rfl⟩ := exists_cons_of_ne_nil hne
          rw [cons_append,cons_append,List.cons.injEq] at ht
          exact absurd (hd x (by simp)) (ht.1 ▸ hm y mem_cons_self)
    · obtain ⟨e,rfl,ht⟩ | ⟨e,rfl,ht⟩ := append_eq_append_iff.mp hr
      · exact ⟨_,mem_cons_self,before,e,by rw [append_assoc]⟩
      · obtain _ | ⟨x,e⟩ := e
        · exact ⟨_,mem_cons_self,before,[],by simp⟩
        · obtain ⟨y,d,rfl⟩ := exists_cons_of_ne_nil hd_ne
          rw [cons_append,cons_append,List.cons.injEq] at ht
          exact absurd (ht.1 ▸ hd y mem_cons_self) (hm x (by simp))

theorem Cut.of_map {f : β → α} {l : List β} {images : List α} (hi : images = l.map f) (h : Cut dropped kept images gs) :
    ∃ gs' : List (List β), gs = gs'.map (List.map f) ∧ Cut (dropped ∘ f) (kept ∘ f) l gs' := by
  induction h generalizing l with
  | last hg =>
    subst hi
    exact ⟨[l],rfl,.last fun x hx => hg _ (mem_map_of_mem hx)⟩
  | group hg hne hd _ ih =>
    obtain ⟨g',rest,rfl,rfl,hr⟩ := append_eq_map_iff.mp hi
    obtain ⟨d',l',rfl,rfl,hl'⟩ := append_eq_map_iff.mp hr.symm
    obtain ⟨gs',rfl,h'⟩ := ih hl'.symm
    exact ⟨g' :: gs',rfl,.group (fun x hx => hg _ (mem_map_of_mem hx)) (by simpa using hne)
      (fun x hx => hd _ (mem_map_of_mem hx)) h'⟩

theorem Cut.flatMap {f : α → List β} {dropped' kept' : β → Prop} (h : Cut dropped kept l gs) (hf : ∀ x ∈ l, f x ≠ [])
    (hd : ∀ x ∈ l, dropped x → ∀ y ∈ f x, dropped' y) (hk : ∀ x ∈ l, kept x → ∀ y ∈ f x, kept' y) :
    Cut dropped' kept' (l.flatMap f) (gs.map (List.flatMap f)) := by
  induction h with
  | last hg => exact .last (forall_mem_flatMap.mpr fun x hx => hk x hx (hg x hx))
  | @group g d l gs hg hne hd' h ih =>
    simp only [mem_append] at hf hd hk
    rw [flatMap_append,flatMap_append]
    refine .group (forall_mem_flatMap.mpr fun x hx => hk x (.inl hx) (hg x hx)) ?_
      (forall_mem_flatMap.mpr fun x hx => hd x (.inr (.inl hx)) (hd' x hx)) (ih (fun x hx => hf x (.inr (.inr hx)))
        (fun x hx => hd x (.inr (.inr hx))) fun x hx => hk x (.inr (.inr hx)))
    obtain ⟨x,d,rfl⟩ := exists_cons_of_ne_nil hne
    simp [hf x]

theorem trimLast_map (f : List β → List α) {gs : List (List β)} (hf : ∀ g ∈ gs, f g = [] ↔ g = []) :
    trimLast (gs.map f) = (trimLast gs).map f := by
  have hl : (gs.map f).getLast?.any List.isEmpty = gs.getLast?.any List.isEmpty := by
    rw [List.getLast?_map]
    cases h : gs.getLast? with
    | none => rfl
    | some g => exact Bool.eq_iff_iff.mpr (by simpa using hf g (mem_of_getLast? h))
  unfold trimLast
  rw [hl]
  split
  · rw [map_dropLast]
  · rfl

theorem mem_trimLast {g : List α} (hg : g ∈ gs) (hne : g ≠ []) : g ∈ trimLast gs := by
  unfold trimLast
  split
  · rename_i he
    cases hl : gs.getLast? with
    | none => simp [List.getLast?_eq_none_iff.mp hl] at hg
    | some last =>
      rw [hl,Option.any_some,List.isEmpty_iff] at he
      rw [← dropLast_append_getLast? _ hl] at hg
      simpa [he,hne] using hg
  · exact hg

theorem trimLast_of_ne_nil (h : ∀ g ∈ gs, g ≠ []) : trimLast gs = gs := by
  refine if_neg fun hl => ?_
  obtain ⟨g,hg,he⟩ := (Option.any_eq_true _ _).mp hl
  exact h g (mem_of_getLast? hg) (isEmpty_iff.mp he)

variable (h : CutsInto dropped kept l groups)
include h

theorem CutsInto.of_head (hl : ∀ x ∈ l.head?, ¬dropped x) :
    ∃ gs, Cut dropped kept l gs ∧ groups = trimLast gs := by
  obtain ⟨lead,rest,gs,rfl,hle,hc,rfl⟩ := h
  obtain _ | ⟨x,lead⟩ := lead
  · exact ⟨gs,hc,rfl⟩
  · exact absurd (hle x mem_cons_self) (hl x rfl)

theorem CutsInto.exists_infix
    (hl : l = before ++ (mid ++ after)) (hne : mid ≠ []) (hm : ∀ x ∈ mid, ¬dropped x) : ∃ g ∈ groups, mid <:+: g := by
  obtain ⟨lead,rest,gs,rfl,hle,hcu,rfl⟩ := h
  have hr : ∃ before', rest = before' ++ (mid ++ after) := by
    obtain ⟨c,-,hr⟩ | ⟨c,hc,hr⟩ := append_eq_append_iff.mp hl
    · exact ⟨c,hr⟩
    · obtain _ | ⟨x,c⟩ := c
      · exact ⟨[],hr.symm⟩
      · obtain ⟨y,mid,rfl⟩ := exists_cons_of_ne_nil hne
        rw [cons_append,cons_append,List.cons.injEq] at hr
        exact absurd (hle x (by simp [hc])) (hr.1 ▸ hm y mem_cons_self)
  obtain ⟨before',hr⟩ := hr
  obtain ⟨g,hg,hme⟩ := hcu.exists_infix hr hne hm
  exact ⟨g,mem_trimLast hg fun h => hne (infix_nil.mp (h ▸ hme)),hme⟩

theorem CutsInto.mem_and_kept : ∀ g ∈ groups, ∀ x ∈ g, x ∈ l ∧ kept x := by
  obtain ⟨lead,rest,gs,rfl,-,hc,rfl⟩ := h
  intro g hg x hx
  have hm : g ∈ gs := by
    unfold trimLast at hg
    split at hg
    exacts [dropLast_subset gs hg,hg]
  exact (hc.mem_and_kept g hm x hx).imp_left (mem_append_right lead)

omit h in
theorem CutsInto.of_map {f : β → α} {l : List β} (h : CutsInto dropped kept (l.map f) groups) :
    ∃ groups' : List (List β), groups = groups'.map (List.map f) ∧ CutsInto (dropped ∘ f) (kept ∘ f) l groups' := by
  obtain ⟨lead,rest,gs,hl,hle,hc,rfl⟩ := h
  obtain ⟨lead',rest',rfl,rfl,rfl⟩ := map_eq_append_iff.mp hl
  obtain ⟨gs',rfl,hc'⟩ := hc.of_map rfl
  exact ⟨trimLast gs',trimLast_map _ (by simp),lead',rest',gs',rfl,fun x hx => hle _ (mem_map_of_mem hx),hc',rfl⟩

theorem CutsInto.imp
    (hd : ∀ x ∈ l, dropped x → dropped' x) (hk : ∀ x ∈ l, kept x → kept' x) : CutsInto dropped' kept' l groups := by
  obtain ⟨lead,rest,gs,rfl,hl,hc,rfl⟩ := h
  simp only [mem_append] at hd hk
  exact ⟨lead,rest,gs,rfl,fun x hx => hd x (.inl hx) (hl x hx),
    hc.imp (fun x hx => hd x (.inr hx)) fun x hx => hk x (.inr hx),rfl⟩

theorem CutsInto.flatMap {f : α → List β} {dropped' kept' : β → Prop} (hf : ∀ x ∈ l, f x ≠ [])
    (hd : ∀ x ∈ l, dropped x → ∀ y ∈ f x, dropped' y) (hk : ∀ x ∈ l, kept x → ∀ y ∈ f x, kept' y) :
    CutsInto dropped' kept' (l.flatMap f) (groups.map (List.flatMap f)) := by
  obtain ⟨lead,rest,gs,rfl,hl,hc,rfl⟩ := h
  simp only [mem_append] at hf hd hk
  refine ⟨lead.flatMap f,rest.flatMap f,_,flatMap_append,forall_mem_flatMap.mpr fun x hx => hd x (.inl hx) (hl x hx),
    hc.flatMap (fun x hx => hf x (.inr hx)) (fun x hx => hd x (.inr hx)) fun x hx => hk x (.inr hx),
    (trimLast_map _ fun g hg => ?_).symm⟩
  rw [flatMap_eq_nil_iff,eq_nil_iff_forall_not_mem]
  exact ⟨fun h x hx => hf x (.inr (hc.mem_and_kept g hg x hx).1) (h x hx),fun h x hx => absurd hx (h x)⟩
end

/-! ### Fields -/

variable (role : α → Role)

theorem cut_fieldsFrom (l : List α) :
    ∃ gs, Cut (role · ≠ .content) (role · = .content) l gs ∧ fieldsFrom role l = trimLast gs := by
  induction hn : l.length using Nat.strong_induction_on generalizing l with
  | h n ih =>
    by_cases hl : l = []
    · subst hl
      exact ⟨[[]],.last (by simp),rfl⟩
    obtain ⟨gs,hc,he⟩ := ih _ (hn ▸ length_after_field_lt role hl) _ rfl
    have hk : ∀ x ∈ l.takeWhile (isContent role), role x = .content := fun x hx => by
      simpa [isContent] using mem_takeWhile_imp hx
    have hs := takeWhile_append_dropWhile (p := isContent role) (l := l)
    have hx := List.head?_dropWhile_not (isContent role) l
    obtain ⟨d,hd,hdr⟩ := exists_dropDelimiter role (l.dropWhile (isContent role))
    rw [fieldsFrom_eq role hl,he]
    generalize l.takeWhile (isContent role) = g, l.dropWhile (isContent role) = rest at *
    cases rest with
    | nil =>
      rw [append_nil] at hs
      rw [hs] at hk ⊢
      refine ⟨[l],.last hk,?_⟩
      rw [hc.singleton_nil_iff.mpr rfl]
      simp [trimLast,hl]
    | cons x rest =>
      have hr : role x ≠ .content := by simpa [isContent] using hx
      have hne : d ≠ [] := by
        rintro rfl
        have hle := (dropDelimiter_cons_suffix role (l := rest) hr).length_le
        rw [show dropDelimiter role (x :: rest) = x :: rest from hd,length_cons] at hle
        omega
      refine ⟨g :: gs,by rw [← hs,← hd]; exact .group hk hne hdr hc,?_⟩
      obtain ⟨h,gs,rfl⟩ := exists_cons_of_ne_nil hc.ne_nil
      unfold trimLast
      rw [List.getLast?_cons_cons]
      split <;> rfl

theorem cutsInto_fields (l : List α) : CutsInto (role · ≠ .content) (role · = .content) l (fields role l) := by
  obtain ⟨d,hd,hc⟩ := exists_dropWhite role l
  obtain ⟨gs,hg,he⟩ := cut_fieldsFrom role (dropWhite role l)
  exact ⟨d,_,gs,hd.symm,hc,hg,he⟩
end Cherubsh.Cuts
