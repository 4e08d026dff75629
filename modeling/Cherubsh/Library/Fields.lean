import Mathlib.Data.List.DropRight

/-! # Splitting a list into fields

Every element is content, white, or another delimiter. White elements at both ends do
not count; every other delimiter, with the white elements next to it, ends a field, and
so does a run of white elements between contents; a delimiter at the end begins no field.
-/
namespace Cherubsh.Fields
open List

inductive Role where
  | content
  | white
  | other
  deriving DecidableEq

variable {α : Type*} (role : α → Role)

def isContent (x : α) : Bool := role x = .content
def isWhite (x : α) : Bool := role x = .white

def dropWhite (l : List α) : List α := l.dropWhile (isWhite role)

/-- White elements, and one other delimiter with the white elements behind it. -/
def dropDelimiter (l : List α) : List α :=
  match dropWhite role l with
  | [] => []
  | x :: rest => if role x = .other then dropWhite role rest else x :: rest

/-- A list that does not start with white elements; every round takes one field. -/
def fieldsWith : ℕ → List α → List (List α)
  | 0, _ => []
  | _ + 1, [] => []
  | fuel + 1, l => l.takeWhile (isContent role) :: fieldsWith fuel (dropDelimiter role (l.dropWhile (isContent role)))

def fieldsFrom (l : List α) : List (List α) := fieldsWith role l.length l

def fields (l : List α) : List (List α) := fieldsFrom role (dropWhite role l)

section
variable {x : α} {l : List α}

theorem dropDelimiter_cons_of_white (hx : role x = .white) : dropDelimiter role (x :: l) = dropDelimiter role l := by
  unfold dropDelimiter dropWhite
  rw [dropWhile_cons_of_pos (by simp [isWhite,hx])]

theorem dropDelimiter_cons_of_other (hx : role x = .other) : dropDelimiter role (x :: l) = dropWhite role l := by
  unfold dropDelimiter
  rw [dropWhite,dropWhile_cons_of_neg (by simp [isWhite,hx])]
  exact if_pos hx

theorem dropDelimiter_cons_of_content (hx : role x = .content) : dropDelimiter role (x :: l) = x :: l := by
  unfold dropDelimiter
  rw [dropWhite,dropWhile_cons_of_neg (by simp [isWhite,hx])]
  exact if_neg (by simp [hx])

theorem exists_dropWhite (l : List α) : ∃ d, d ++ dropWhite role l = l ∧ ∀ x ∈ d, role x ≠ .content := by
  refine ⟨_,takeWhile_append_dropWhile,fun x hx => ?_⟩
  have hw := mem_takeWhile_imp hx
  simp only [isWhite,decide_eq_true_eq] at hw
  simp [hw]

theorem exists_dropDelimiter (l : List α) : ∃ d, d ++ dropDelimiter role l = l ∧ ∀ x ∈ d, role x ≠ .content := by
  induction l with
  | nil => exact ⟨[],rfl,by simp⟩
  | cons x l ih =>
    cases hx : role x with
    | content => exact ⟨[],dropDelimiter_cons_of_content role hx,by simp⟩
    | white =>
      obtain ⟨d,hd,hc⟩ := ih
      exact ⟨x :: d,by rw [dropDelimiter_cons_of_white role hx,cons_append,hd],by simpa [hx] using hc⟩
    | other =>
      obtain ⟨d,hd,hc⟩ := exists_dropWhite role l
      exact ⟨x :: d,by rw [dropDelimiter_cons_of_other role hx,cons_append,hd],by simpa [hx] using hc⟩

theorem filter_of_dropped {rest : List α} (h : ∃ d, d ++ rest = l ∧ ∀ x ∈ d, role x ≠ .content) :
    rest.filter (isContent role) = l.filter (isContent role) := by
  obtain ⟨d,rfl,hd⟩ := h
  have hn : d.filter (isContent role) = [] := filter_eq_nil_iff.mpr fun x hx => by simpa [isContent] using hd x hx
  rw [filter_append,hn,nil_append]

theorem dropDelimiter_suffix (l : List α) : dropDelimiter role l <:+ l :=
  (exists_dropDelimiter role l).imp fun _ h => h.1

theorem dropDelimiter_cons_suffix (hx : role x ≠ .content) : dropDelimiter role (x :: l) <:+ l := by
  cases hr : role x with
  | content => exact absurd hr hx
  | white => exact (dropDelimiter_cons_of_white role hr).symm ▸ dropDelimiter_suffix role l
  | other => exact (dropDelimiter_cons_of_other role hr).symm ▸ dropWhile_suffix _
end

theorem length_after_field_lt {l : List α} (hl : l ≠ []) :
    (dropDelimiter role (l.dropWhile (isContent role))).length < l.length := by
  have hs := congrArg List.length (takeWhile_append_dropWhile (p := isContent role) (l := l))
  rw [length_append] at hs
  cases hr : l.dropWhile (isContent role) with
  | nil => exact length_pos_iff.mpr hl
  | cons x rest =>
    have hx : role x ≠ .content := by
      have hn := List.head?_dropWhile_not (isContent role) l
      rw [hr] at hn
      simpa [isContent] using hn
    have hlt : (dropDelimiter role (x :: rest)).length ≤ rest.length := (dropDelimiter_cons_suffix role hx).length_le
    rw [hr,length_cons] at hs
    omega

/-- The fields hold the content in order and nothing else. -/
theorem flatten_fields (l : List α) : (fields role l).flatten = l.filter (isContent role) := by
  have hw : ∀ fuel l, l.length ≤ fuel → (fieldsWith role fuel l).flatten = l.filter (isContent role) := by
    intro fuel
    induction fuel with
    | zero =>
      intro l hf
      rw [length_eq_zero_iff.mp (Nat.le_zero.mp hf)]
      rfl
    | succ fuel ih =>
      intro l hf
      by_cases hl : l = []
      · rw [hl]
        rfl
      have hlt := length_after_field_lt role hl
      have ht : (l.takeWhile (isContent role)).filter (isContent role) = l.takeWhile (isContent role) :=
        filter_eq_self.mpr fun x hx => mem_takeWhile_imp hx
      rw [fieldsWith.eq_3 _ _ _ hl,flatten_cons,ih _ (by omega),filter_of_dropped role (exists_dropDelimiter role _)]
      conv_rhs => rw [← takeWhile_append_dropWhile (p := isContent role) (l := l),filter_append,ht]
  rw [fields,fieldsFrom,hw _ _ le_rfl,filter_of_dropped role (exists_dropWhite role l)]

theorem fieldsWith_eq {n k : ℕ} {l : List α} (hn : l.length ≤ n) (hk : l.length ≤ k) :
    fieldsWith role n l = fieldsWith role k l := by
  induction n generalizing l k with
  | zero =>
    rw [length_eq_zero_iff.mp (Nat.le_zero.mp hn)]
    cases k <;> rfl
  | succ n ih =>
    by_cases hl : l = []
    · rw [hl]
      cases k <;> rfl
    have hlt := length_after_field_lt role hl
    obtain ⟨k,rfl⟩ := Nat.exists_eq_add_one_of_ne_zero (n := k) (by omega)
    rw [fieldsWith.eq_3 _ _ _ hl,fieldsWith.eq_3 _ _ _ hl,ih (k := k) (by omega) (by omega)]

@[simp] theorem fieldsFrom_nil : fieldsFrom role [] = [] := rfl

theorem fieldsFrom_eq {l : List α} (hl : l ≠ []) :
    fieldsFrom role l = l.takeWhile (isContent role) :: fieldsFrom role (dropDelimiter role (l.dropWhile (isContent role))) := by
  have hlt := length_after_field_lt role hl
  unfold fieldsFrom
  obtain ⟨n,hn⟩ := Nat.exists_eq_add_one_of_ne_zero (length_pos_iff.mpr hl).ne'
  rw [hn,fieldsWith.eq_3 _ _ _ hl,fieldsWith_eq role (k := (dropDelimiter role (l.dropWhile (isContent role))).length) (by omega) le_rfl]

def behind : ℕ → List α → List α
  | 0,l => dropWhite role l
  | n + 1,l => dropDelimiter role ((behind n l).dropWhile (isContent role))

theorem fieldsFrom_behind (n : ℕ) (l : List α) : fieldsFrom role (behind role n l) = (fields role l).drop n := by
  induction n with
  | zero => rfl
  | succ n ih =>
    rw [← tail_drop,← ih]
    by_cases hl : behind role n l = []
    · simp [behind,hl,dropDelimiter,dropWhite]
    · rw [fieldsFrom_eq role hl]
      rfl

theorem getD_fields (n : ℕ) (l : List α) : (fields role l)[n]?.getD [] = (behind role n l).takeWhile (isContent role) := by
  rw [← List.head?_drop,← fieldsFrom_behind]
  by_cases hl : behind role n l = []
  · simp [hl]
  · rw [fieldsFrom_eq role hl]
    rfl

theorem dropWhite_dropDelimiter (l : List α) : dropWhite role (dropDelimiter role l) = dropDelimiter role l := by
  have hi : ∀ l,dropWhite role (dropWhite role l) = dropWhite role l := fun l => dropWhile_idempotent _ _
  unfold dropDelimiter
  cases hl : dropWhite role l with
  | nil => rfl
  | cons x rest =>
    dsimp only
    split
    · exact hi rest
    · rw [← hl,hi]

theorem dropWhite_behind (n : ℕ) (l : List α) : dropWhite role (behind role n l) = behind role n l := by
  cases n with
  | zero => exact dropWhile_idempotent _ _
  | succ n => exact dropWhite_dropDelimiter role _

theorem takeWhile_congr {p q : α → Bool} {l : List α} (h : ∀ x ∈ l, p x = q x) :
    l.takeWhile p = l.takeWhile q ∧ l.dropWhile p = l.dropWhile q := by
  induction l with
  | nil => exact ⟨rfl,rfl⟩
  | cons x rest ih =>
    obtain ⟨ht,hd⟩ := ih fun y hy => h y (mem_cons_of_mem x hy)
    rw [takeWhile_cons,takeWhile_cons,dropWhile_cons,dropWhile_cons,h x mem_cons_self,ht,hd]
    exact ⟨rfl,rfl⟩

section
variable {role} {role' : α → Role} {l : List α}

theorem dropWhite_congr (h : ∀ x ∈ l, role x = role' x) : dropWhite role l = dropWhite role' l :=
  (takeWhile_congr fun x hx => by unfold isWhite; rw [h x hx]).2

theorem dropDelimiter_congr (h : ∀ x ∈ l, role x = role' x) :
    dropDelimiter role l = dropDelimiter role' l := by
  unfold dropDelimiter
  rw [dropWhite_congr h]
  cases hd : dropWhite role' l with
  | nil => rfl
  | cons x rest =>
    have hs : (x :: rest).Sublist l := hd ▸ dropWhile_sublist _
    dsimp only
    rw [h x (hs.subset mem_cons_self),
      dropWhite_congr fun y hy => h y (hs.subset (mem_cons_of_mem x hy))]

theorem fields_congr (h : ∀ x ∈ l, role x = role' x) : fields role l = fields role' l := by
  have hw : ∀ fuel l, (∀ x ∈ l, role x = role' x) → fieldsWith role fuel l = fieldsWith role' fuel l := by
    intro fuel
    induction fuel with
    | zero => exact fun _ _ => rfl
    | succ fuel ih =>
      intro l h
      by_cases hl : l = []
      · rw [hl]
        rfl
      obtain ⟨ht,hd⟩ := takeWhile_congr (p := isContent role) (q := isContent role') (l := l)
        fun x hx => by unfold isContent; rw [h x hx]
      have hr : ∀ x ∈ l.dropWhile (isContent role'), role x = role' x :=
        fun x hx => h x ((dropWhile_sublist _).subset hx)
      rw [fieldsWith.eq_3 _ _ _ hl,fieldsWith.eq_3 _ _ _ hl,ht,hd,dropDelimiter_congr hr,
        ih _ fun x hx => hr x ((dropDelimiter_suffix role' _).subset hx)]
  unfold fields fieldsFrom
  rw [dropWhite_congr h]
  exact hw _ _ fun x hx => h x ((dropWhile_sublist _).subset hx)
end
end Cherubsh.Fields
