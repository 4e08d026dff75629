import Cherubsh.Expander.Assignment

/-! # Scalar assignments and lists

A list is searched for in the whole text of a word, by `=(` somewhere and `)` at its end, so the
right side of a scalar assignment can be taken for one.
-/
namespace Cherubsh.Expander.Assignment
open List
open Arith (Text)
variable {c : Char} {pattern text : Text} {pos : ℕ}

section
variable {name : Text}

variable (h : isValidName name)
include h

theorem isAlphanum_or_of_mem (hc : c ∈ name) : c.isAlphanum ∨ c = '_' := by
  cases name with
  | nil => cases hc
  | cons d rest =>
    have hs : (d.isAlpha ∨ d = '_') ∧ ∀ c ∈ rest, c.isAlphanum ∨ c = '_' := by
      simpa [isValidName] using h
    cases hc with
    | head => exact hs.1.imp (fun ha => by simp [Char.isAlphanum,ha]) id
    | tail _ hc => exact hs.2 c hc

theorem notMem_name (hc : c.isAlphanum = false ∧ c ≠ '_') : c ∉ name := by
  intro hm
  rcases isAlphanum_or_of_mem h hm with ha | rfl
  · rw [hc.1] at ha
    cases ha
  · exact hc.2 rfl

theorem name_ne_nil : name ≠ [] := by
  rintro rfl
  cases h
end

theorem find_eq_none_iff (hne : pattern ≠ []) : find pattern text = none ↔ ¬pattern <:+: text := by
  induction text with
  | nil => simp [find,hne]
  | cons c rest ih =>
    unfold find
    rw [infix_cons_iff]
    by_cases hp : pattern <+: c :: rest
    · simp [hp]
    · simp [hp,ih]

theorem prefix_of_find (h : find pattern text = some pos) : pattern <+: text.drop pos := by
  induction text generalizing pos with
  | nil =>
    unfold find at h
    split at h
    · rename_i hn
      rw [hn]
      exact nil_prefix
    · cases h
  | cons c rest ih =>
    unfold find at h
    split at h
    · rename_i hp
      cases h
      exact isPrefixOf_iff_prefix.mp hp
    · obtain ⟨k,hk,rfl⟩ := Option.map_eq_some_iff.mp h
      exact ih hk

theorem infix_of_find (h : find pattern text = some pos) : pattern <:+: text :=
  (prefix_of_find h).isInfix.trans (drop_suffix pos text).isInfix

theorem append_cons_inj_of_first {a : Char} {x y u w : Text} (hx : a ∉ x) (hy : a ∉ y)
    (h : x ++ a :: u = y ++ a :: w) : x = y ∧ u = w := by
  induction x generalizing y with
  | nil =>
    cases y with
    | nil => exact ⟨rfl,tail_eq_of_cons_eq h⟩
    | cons d y => exact absurd (head_eq_of_cons_eq h ▸ mem_cons_self) hy
  | cons c x ih =>
    cases y with
    | nil => exact absurd (head_eq_of_cons_eq h ▸ mem_cons_self) hx
    | cons d y =>
      obtain ⟨rfl,ht⟩ := cons_eq_cons.mp h
      have hx' : a ∉ x := fun hm => hx (mem_cons_of_mem _ hm)
      have hy' : a ∉ y := fun hm => hy (mem_cons_of_mem _ hm)
      obtain ⟨rfl,rfl⟩ := ih hx' hy' ht
      exact ⟨rfl,rfl⟩

theorem occurrence_in_rhs {pre r q a b : Text} (hp : '=' ∉ pre) (hr : r.head? ≠ some '(') (hq : '=' ∉ q)
    (h : pre ++ '=' :: r = a ++ (q ++ '=' :: '(' :: b)) :
    ∃ a', a = pre ++ '=' :: a' ∧ r = a' ++ (q ++ '=' :: '(' :: b) := by
  by_cases ha : '=' ∈ a
  · obtain ⟨a₁,a₂,rfl,ha₁⟩ := eq_append_cons_of_mem ha
    rw [append_assoc,cons_append] at h
    obtain ⟨rfl,rfl⟩ := append_cons_inj_of_first hp ha₁ h
    exact ⟨a₂,rfl,rfl⟩
  · rw [← append_assoc] at h
    have hn : '=' ∉ a ++ q := by simp [ha,hq]
    obtain ⟨-,rfl⟩ := append_cons_inj_of_first hp hn h
    exact absurd rfl hr

theorem arrayLhs_name {name : Text} (h : isValidName name) : arrayLhs name = none := by
  have hf : find ['['] name = none := (find_eq_none_iff (by decide)).mpr fun hin =>
    notMem_name h (by decide) (List.IsInfix.subset hin (mem_singleton_self '['))
  rw [arrayLhs,hf]

theorem compoundParts_eq_none_iff (text : Text) :
    compoundParts text = none ↔ ¬(['=','('] <:+: text ∧ text.getLast? = some ')') := by
  have hp : ['+','=','('] <:+: text → ['=','('] <:+: text := List.IsInfix.trans ⟨['+'],[],rfl⟩
  unfold compoundParts
  cases hf : find ['+','=','('] text with
  | some pos => simp [hp (infix_of_find hf)]
  | none =>
    cases hs : find ['=','('] text with
    | some pos => simp [infix_of_find hs]
    | none =>
      have hn := (find_eq_none_iff (by decide)).mp hs
      simp [hn]

theorem compoundParts_occurrence {listName body : Text} {append : Bool} (h : compoundParts text = some (listName,body,append)) :
    ∃ q b, '=' ∉ q ∧ text = listName ++ (q ++ '=' :: '(' :: b) := by
  obtain ⟨q,pos,hq,hfi,hn⟩ : ∃ q pos, '=' ∉ q ∧ find (q ++ ['=','(']) text = some pos ∧ text.take pos = listName := by
    unfold compoundParts at h
    cases hf : find ['+','=','('] text with
    | some pos =>
      refine ⟨['+'],pos,by decide,hf,?_⟩
      by_cases hl : text.getLast? = some ')' <;> simp [hf,hl] at h
      exact h.1
    | none =>
      cases hs : find ['=','('] text with
      | some pos =>
        refine ⟨[],pos,by decide,hs,?_⟩
        by_cases hl : text.getLast? = some ')' <;> simp [hf,hs,hl] at h
        exact h.1
      | none => simp [hf,hs] at h
  obtain ⟨b,hb⟩ := prefix_of_find hfi
  refine ⟨q,b,hq,?_⟩
  calc text = text.take pos ++ text.drop pos := (take_append_drop pos text).symm
    _ = listName ++ (q ++ '=' :: '(' :: b) := by rw [← hb,hn]; simp

section
variable {name r : Text} {append : Bool}

/-- The right side has `=(` somewhere and ends with a parenthesis. -/
def Lookalike (r : Text) : Prop := ['=','('] <:+: r ∧ r.getLast? = some ')'

instance (r : Text) : Decidable (Lookalike r) := inferInstanceAs (Decidable (_ ∧ _))

def beforeSign (name : Text) (append : Bool) : Text := if append then name ++ ['+'] else name

def assignmentText (name : Text) (append : Bool) (r : Text) : Text := beforeSign name append ++ '=' :: r

theorem notMem_beforeSign (h : isValidName name) (hc : c.isAlphanum = false ∧ c ≠ '_')
    (hp : c ≠ '+') : c ∉ beforeSign name append := by
  have hn := notMem_name h hc
  cases append <;> simp [beforeSign,hn,hp]

theorem getLast?_assignmentText : (assignmentText name append r).getLast? = some ')' ↔ r.getLast? = some ')' := by
  unfold assignmentText
  rw [List.getLast?_append]
  cases r with
  | nil => simp
  | cons c r => rw [List.getLast?_cons_cons]; simp [List.getLast?_cons]

theorem infix_assignmentText (hn : isValidName name) (hr : r.head? ≠ some '(') :
    ['=','('] <:+: assignmentText name append r ↔ ['=','('] <:+: r := by
  constructor
  · rintro ⟨a,b,h⟩
    rw [append_assoc] at h
    obtain ⟨a',-,hr'⟩ := occurrence_in_rhs (q := []) (notMem_beforeSign hn (by decide) (by decide)) hr (by simp) h.symm
    exact ⟨a',b,by rw [hr']; simp⟩
  · rintro ⟨a,b,h⟩
    exact ⟨beforeSign name append ++ '=' :: a,b,by rw [assignmentText,← h]; simp⟩

theorem compoundParts_assignmentText (hn : isValidName name) (hr : r.head? ≠ some '(') :
    compoundParts (assignmentText name append r) = none ↔ ¬Lookalike r := by
  rw [compoundParts_eq_none_iff,infix_assignmentText hn hr,getLast?_assignmentText,Lookalike]

theorem operatorFrom_append {s : Text} {fuel : ℕ} (pre : Text)
    (hp : ∀ c ∈ pre, c.isAlphanum ∨ c = '_' ∨ c = '+') (hf : pre.length < fuel) :
    operatorFrom fuel (pre ++ '=' :: s) = some ('=' :: s) := by
  induction pre generalizing fuel with
  | nil =>
    obtain ⟨fuel,rfl⟩ := Nat.exists_eq_add_of_lt hf
    simp [operatorFrom]
  | cons c pre ih =>
    obtain ⟨fuel,rfl⟩ : ∃ n, fuel = n + 1 := ⟨fuel - 1,by omega⟩
    have hc := hp c mem_cons_self
    have hne : c ≠ '[' ∧ c ≠ '=' ∧ c ≠ '\'' ∧ c ≠ '"' ∧ c ≠ '\\' := by
      refine ⟨?_,?_,?_,?_,?_⟩ <;> rintro rfl <;> revert hc <;> decide
    rw [cons_append,operatorFrom]
    simp only [hne.1,hne.2.1,hne.2.2.1,hne.2.2.2.1,hne.2.2.2.2,if_false]
    exact ih (fun d hd => hp d (mem_cons_of_mem _ hd)) (by simp at hf; omega)

theorem splitAssignmentText_assignmentText (hn : isValidName name) :
    splitAssignmentText (assignmentText name append r) = some (name,r,append) := by
  have hch : ∀ c ∈ beforeSign name append, c.isAlphanum ∨ c = '_' ∨ c = '+' := by
    intro c hc
    have hm : c ∈ name ∨ c = '+' := by
      cases append <;> simp [beforeSign] at hc <;> tauto
    rcases hm with hm | rfl
    · exact (isAlphanum_or_of_mem hn hm).imp id .inl
    · exact .inr (.inr rfl)
  have ho : operatorFrom (assignmentText name append r).length (assignmentText name append r) = some ('=' :: r) :=
    operatorFrom_append _ hch (by simp [assignmentText])
  have hpo : (assignmentText name append r).length - ('=' :: r).length = (beforeSign name append).length := by
    simp [assignmentText]
  have hb : (assignmentText name append r).drop ((beforeSign name append).length + 1) = r := by
    simp [assignmentText]
  have hl : 0 < name.length := length_pos_iff.mpr (name_ne_nil hn)
  have hp : '+' ∉ name := notMem_name hn (by decide)
  have hs : (0 < (beforeSign name append).length ∧
      (assignmentText name append r)[(beforeSign name append).length - 1]? = some '+') ↔ append := by
    cases append with
    | true => simp [assignmentText,beforeSign]
    | false =>
      refine iff_of_false ?_ (by decide)
      rintro ⟨-,h⟩
      have hin : name[name.length - 1]? = some '+' := by
        rw [← h]
        exact (List.getElem?_append_left (by omega)).symm
      exact hp (mem_of_getElem? hin)
  have ht : (assignmentText name append r).take
      (if append = true then (beforeSign name append).length - 1 else (beforeSign name append).length) = name := by
    cases append <;> simp [assignmentText,beforeSign]
  rw [splitAssignmentText,assignmentOperator,ho]
  simp only [Option.map_some,hpo,hb,hs,Bool.decide_eq_true,ht]
end

section
variable {S E : Type} (W : World S E)

def runAt {A : Type} (x : Expand S E A) (s : S) : Except (ExpandError E) A × S := x.run.run s

theorem runAt_bind {A B : Type} (x : Expand S E A) (k : A → Expand S E B) (s : S) : runAt (x >>= k) s =
    match runAt x s with
    | (.ok a,s') => runAt (k a) s'
    | (.error e,s') => (.error e,s') := by
  change (StateT.bind x.run (ExceptT.bindCont k)) s = _
  unfold StateT.bind runAt
  change (match x.run.run s with | (a,s') => ExceptT.bindCont k a s') = _
  rcases x.run.run s with ⟨a | e,s'⟩ <;> rfl

@[simp] theorem runAt_pure {A : Type} (a : A) (s : S) : runAt (pure a : Expand S E A) s = (.ok a,s) := rfl
@[simp] theorem runAt_get (s : S) : runAt (get : Expand S E S) s = (.ok s,s) := rfl
@[simp] theorem runAt_fail {A : Type} (m : Text) (s : S) : runAt (fail m : Expand S E A) s = (.error (.other m),s) := rfl

/-- The name is an integer variable, or a name reference, before and behind the
expansion of the right side. -/
structure Marked (W : World S E) (name r : Text) (integer nameref : Bool) (s : S) : Prop where
  before : W.nameref s name = nameref
  behind : W.nameref (runAt (W.expandAssignmentRhs r) s).2 name = nameref
  integer : W.integer (runAt (W.expandAssignmentRhs r) s).2 name = integer

/-- The expansion of the right side, added to the old value for `+=`. -/
def scalarAssignment (W : World S E) (name : Text) (append : Bool) (r : Text) : Expand S E (Option ExpandedAssignment) := do
  let value ← W.expandAssignmentRhs r
  let old := (W.get (← get) name).getD []
  return some (.scalar name (if append then old ++ value else value))

/-- In every world the word is the scalar assignment, for a name with these attributes. -/
def TakenAsScalar (name : Text) (append : Bool) (r : Text) (compassign integer nameref : Bool) : Prop :=
  ∀ (S E : Type) (W : World S E) (s : S), Marked W name r integer nameref s →
    runAt (expandAssignmentWord W ⟨assignmentText name append r,compassign⟩) s = runAt (scalarAssignment W name append r) s

variable {name r : Text} {append compassign integer nameref : Bool}

theorem expandAssignmentWord_of_not_lookalike (hn : isValidName name) (hr : r.head? ≠ some '(') (hl : ¬Lookalike r)
    (hm : compassign → compoundAssignmentHasTrailingText (assignmentText name append r)) :
    expandAssignmentWord W ⟨assignmentText name append r,compassign⟩ = expandScalarAssignment W name r append := by
  have hp : (compoundParts (assignmentText name append r)).isSome = false := by
    rw [(compoundParts_assignmentText hn hr).mpr hl]
    rfl
  have hc : ¬(compassign ∧
      ¬compoundAssignmentHasTrailingText (assignmentText name append r)) := fun h => h.2 (hm h.1)
  unfold expandAssignmentWord
  rw [hp,if_neg Bool.false_ne_true,if_neg hc,splitAssignmentText_assignmentText hn]
  simp [arrayLhs_name hn,hn]

theorem runAt_expandScalarAssignment {s : S} (h : Marked W name r false false s) :
    runAt (expandScalarAssignment W name r append) s = runAt (scalarAssignment W name append r) s := by
  obtain ⟨hbe,hb,hi⟩ := h
  have ht : assignmentTargetName W s name = name := by simp [assignmentTargetName,hbe]
  unfold expandScalarAssignment scalarAssignment
  rw [runAt_bind,runAt_get]
  simp only [ht,ne_eq,not_true,if_false]
  rw [runAt_bind,runAt_bind]
  rcases ho : runAt (W.expandAssignmentRhs r) s with ⟨e | value,s'⟩
  · rfl
  · rw [ho] at hb hi
    simp only [runAt_bind,runAt_get]
    cases append with
    | true =>
      simp only [hb,hi,Bool.false_eq_true,and_false,if_true,if_false]
      unfold appendValue
      cases hol : (W.get s' name).getD [] with
      | nil => simp
      | cons c old => simp
    | false =>
      have hu : unresolvedNameref W s' name = false := by simp [unresolvedNameref,hb]
      simp [hu,hi,maybeArithValue]

theorem expandCompoundAssignment_fails
    (h : ∀ listName body append, compoundParts text = some (listName,body,append) → isValidName listName = false) (s : S) :
    ∃ m, runAt (expandCompoundAssignment W text) s = (.error (.other m),s) := by
  unfold expandCompoundAssignment
  cases hp : compoundParts text with
  | none => exact ⟨_,rfl⟩
  | some parts =>
    obtain ⟨listName,body,append⟩ := parts
    have hi := h listName body append hp
    dsimp only
    split
    · exact ⟨_,rfl⟩
    · rw [if_pos (by simp [hi])]
      exact ⟨_,rfl⟩

/-- A name reference resolves to an array element here, and every expansion and
evaluation succeeds. -/
def probe (integer nameref : Bool) : World Unit Unit where
  kind _ _ := .scalar
  integer _ _ := integer
  nameref _ _ := nameref
  resolveNameref _ _ := some "a[0]".toList
  namerefTarget _ _ := some "a[0]".toList
  get _ _ := some ['1']
  getArrayAssoc _ _ _ := none
  getArrayIndexed _ _ _ := none
  arrayMaxIndex _ _ := none
  expandAssignmentRhs _ := pure ['1']
  expandSubscriptText t := pure t
  evalIndexedSubscriptText _ := pure 0
  evalPreexpanded _ := pure 0
  parseAssocCompound _ _ _ := pure []
  parseIndexedCompound _ _ _ := pure []

theorem marked_probe : Marked (probe integer nameref) name r integer nameref () := ⟨rfl,rfl,rfl⟩

theorem runAt_scalarAssignment_probe : runAt (scalarAssignment (probe integer nameref) name append r) () =
    (.ok (some (.scalar name (if append then ['1','1'] else ['1']))),()) := rfl

theorem fails_of_lookalike (hn : isValidName name) (hr : r.head? ≠ some '(') (s : S)
    (h : Lookalike r ∨ compassign ∧ compoundAssignmentHasTrailingText (assignmentText name append r) = false) :
    ∃ m, runAt (expandAssignmentWord W ⟨assignmentText name append r,compassign⟩) s = (.error (.other m),s) := by
  have hi : ∀ listName body append', compoundParts (assignmentText name append r) = some (listName,body,append') →
      isValidName listName = false := by
    intro listName body append' hp
    obtain ⟨q,b,hq,ht⟩ := compoundParts_occurrence hp
    obtain ⟨a,rfl,-⟩ := occurrence_in_rhs (notMem_beforeSign hn (by decide) (by decide)) hr hq ht
    cases hv : isValidName (beforeSign name append ++ '=' :: a) with
    | false => rfl
    | true => exact absurd (by simp) (notMem_name hv (c := '=') (by decide))
  obtain ⟨m,hm⟩ := expandCompoundAssignment_fails W hi s
  refine ⟨m,?_⟩
  unfold expandAssignmentWord
  by_cases hl : Lookalike r
  · have hp : (compoundParts (assignmentText name append r)).isSome := by
      rw [← Option.ne_none_iff_isSome]
      exact fun hno => (compoundParts_assignmentText hn hr).mp hno hl
    rw [if_pos hp,runAt_bind,hm]
  · have hp : ¬(compoundParts (assignmentText name append r)).isSome := by
      rw [(compoundParts_assignmentText hn hr).mpr hl]
      decide
    have hma := h.resolve_left hl
    rw [if_neg hp,if_pos (by simp [hma]),runAt_bind,hm]

theorem not_nameref_of_taken (hn : isValidName name)
    (h : runAt (expandScalarAssignment (probe integer nameref) name r append) () =
      runAt (scalarAssignment (probe integer nameref) name append r) ()) : nameref = false := by
  cases nameref with
  | false => rfl
  | true =>
    have hne : "a[0]" ≠ name := fun heq => notMem_name hn (c := '[') (by decide) (heq ▸ by decide)
    have he : ∃ index value, runAt (expandScalarAssignment (probe integer true) name r append) () =
        (.ok (some (.indexedElem ['a'] index value)),()) := by
      unfold expandScalarAssignment
      rw [runAt_bind,runAt_get]
      have ht : assignmentTargetName (probe integer true) () name = "a[0]" := rfl
      simp only [ht]
      rw [if_pos hne]
      cases append <;> cases integer <;> exact ⟨_,_,rfl⟩
    obtain ⟨index,value,he⟩ := he
    rw [he,runAt_scalarAssignment_probe] at h
    cases h

theorem not_integer_of_taken (h : runAt (expandScalarAssignment (probe integer false) name r append) () =
      runAt (scalarAssignment (probe integer false) name append r) ()) : integer = false := by
  cases integer with
  | false => rfl
  | true =>
    have hz : runAt (expandScalarAssignment (probe true false) name r append) () =
        (.ok (some (.scalar name ['0'])),()) := by
      unfold expandScalarAssignment
      rw [runAt_bind,runAt_get]
      have ht : assignmentTargetName (probe true false) () name = name := rfl
      simp only [ht]
      rw [if_neg (not_not_intro rfl)]
      cases append with
      | true =>
        rw [runAt_bind]
        simp [probe,appendValue]
        rfl
      | false => rfl
    rw [hz,runAt_scalarAssignment_probe] at h
    cases append <;> cases h

theorem taken_as_scalar_iff (name r : Text) (append compassign integer nameref : Bool) (hname : isValidName name)
    (hr : r.head? ≠ some '(') : TakenAsScalar name append r compassign integer nameref ↔
      ¬Lookalike r ∧ integer = false ∧ nameref = false ∧
        (compassign → compoundAssignmentHasTrailingText (assignmentText name append r)) := by
  constructor
  · intro h
    have hprobe := h Unit Unit (probe integer nameref) () marked_probe
    have hpass : ¬(Lookalike r ∨ compassign ∧
        compoundAssignmentHasTrailingText (assignmentText name append r) = false) := by
      intro hfail
      obtain ⟨m,hm⟩ := fails_of_lookalike (probe integer nameref) hname hr () hfail
      rw [hm,runAt_scalarAssignment_probe] at hprobe
      cases hprobe
    rw [not_or,not_and,Bool.not_eq_false] at hpass
    rw [expandAssignmentWord_of_not_lookalike _ hname hr hpass.1 hpass.2] at hprobe
    have hnameref := not_nameref_of_taken hname hprobe
    subst hnameref
    exact ⟨hpass.1,not_integer_of_taken hprobe,rfl,hpass.2⟩
  · rintro ⟨hlook,rfl,rfl,hmark⟩ S E W s hmarked
    rw [expandAssignmentWord_of_not_lookalike W hname hr hlook hmark]
    exact runAt_expandScalarAssignment W hmarked

/-- `x=$(f a)` is a scalar assignment. -/
theorem substitution_taken_as_scalar : TakenAsScalar ['x'] false "$(f a)" false false false :=
  (taken_as_scalar_iff ['x'] "$(f a)" false false false false rfl (by decide)).mpr
    ⟨by decide,rfl,rfl,by decide⟩

/-- `x=$((a=(1)))` is taken for a list and fails. -/
theorem substitution_taken_for_list : ¬TakenAsScalar ['x'] false "$((a=(1)))" false false false := by
  intro h
  have hprobe := h Unit Unit (probe false false) () marked_probe
  exact absurd (congrArg (fun out => out.1.toOption.isSome) hprobe) (by decide)
end
end Cherubsh.Expander.Assignment
