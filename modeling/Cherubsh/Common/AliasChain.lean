import Mathlib.Logic.Relation
import Cherubsh.Common.Alias

/-! # The alias chain against its rule

A node is where the expansion stands: the names used, the newest value, and the text around it.
The expansion and the rule follow the same steps on nodes and part at the end: at a used name, and
behind a blank value.
-/
namespace Cherubsh.Common.Alias
open List
variable {p q value : Text} {b : Node}
structure Node where
  used : List Text
  before : Text
  value : Text
  after : Text

def Node.text (a : Node) : Text := a.before ++ a.value ++ a.after

/-- Blanks stand in front and what follows does not go on with a word. -/
structure Node.Framed (a : Node) : Prop where
  blank : ∀ c ∈ a.before, isWhitespace c
  ends : ∀ c, a.after.head? = some c → isAliasWordChar c = false

def Next (aliases : Aliases) (a b : Node) : Prop :=
  ∃ p name q value, Split a.value p name q ∧ name ∉ a.used ∧ aliasGet aliases name = some value ∧
    b = ⟨name :: a.used,a.before ++ p,value,q ++ a.after⟩

/-- The expansion gives up where it meets a used name, except at the first one. -/
def GivesUp (b : Node) : Prop := ∃ p name q, Split b.value p name q ∧ name ∈ b.used ∧ b.used.length ≠ 1

def IsWord (name : Text) : Prop := name ≠ [] ∧ ∀ c ∈ name, isAliasWordChar c

/-- Values that are nothing but a name lead from the second name to the first one,
through names that are not used. -/
inductive LeadsBack (aliases : Aliases) (target : Text) : List Text → Text → Prop
  | back {used : List Text} {name : Text} : name ∉ used → aliasGet aliases name = some target →
      LeadsBack aliases target used name
  | next {used : List Text} {name value : Text} : name ∉ used → aliasGet aliases name = some value → IsWord value →
      LeadsBack aliases target (name :: used) value → LeadsBack aliases target used name

/-- A used name comes first only behind the first value or as the command word, and behind a blank
value comes no unused alias but one that leads back to itself. -/
structure Agrees (aliases : Aliases) (command : Text) (b : Node) : Prop where
  fresh : ∀ p name q, Split b.value p name q → name ∈ b.used → b.used.length = 1 ∨ b.text = command
  blank : (∀ c ∈ b.value, isWhitespace c) → ∀ p name q, Split b.after p name q → name ∉ b.used →
    aliasGet aliases name ≠ none → LeadsBack aliases name b.used name

variable {aliases : Aliases} {used : List Text} {text before word after result : Text}

section
variable (h : Split text before word after)
include h

theorem Split.span : firstAliasWordSpan text = some (before,word,after) :=
  firstAliasWordSpan_eq_some_iff.mpr h

theorem Split.unique {before' word' after' : Text}
    (h' : Split text before' word' after') : before = before' ∧ word = word' ∧ after = after' := by
  simpa using h.span.symm.trans h'.span

theorem Split.surround (hp : ∀ c ∈ p, isWhitespace c)
    (hq : ∀ c, q.head? = some c → isAliasWordChar c = false) : Split (p ++ text ++ q) (p ++ before) word (after ++ q) := by
  refine ⟨by rw [h.eq]; simp only [append_assoc],?_,h.nonempty,h.chars,?_⟩
  · intro c hc
    exact (mem_append.mp hc).elim (hp c) (h.blank c)
  · intro c hc
    cases after with
    | nil => exact hq c hc
    | cons d after => exact h.ends c hc

theorem Split.leading :
    text.takeWhile isWhitespace = before ∧ text.dropWhile isWhitespace = word ++ after := by
  obtain ⟨c,rest,hw⟩ := exists_cons_of_ne_nil h.nonempty
  have hc := not_isWhitespace_of_isAliasWordChar (h.chars c (hw ▸ mem_cons_self))
  rw [h.eq,append_assoc,takeWhile_append_of_pos h.blank,dropWhile_append_of_pos h.blank,hw,cons_append,
    takeWhile_cons_of_neg (by simp [hc]),dropWhile_cons_of_neg (by simp [hc]),append_nil]
  exact ⟨rfl,rfl⟩

theorem Split.not_blank : ¬∀ c ∈ text, isWhitespace c := by
  intro hb
  obtain ⟨c,rest,hw⟩ := exists_cons_of_ne_nil h.nonempty
  have hc : c ∈ word := hw ▸ mem_cons_self
  have hs := hb c (by rw [h.eq]; simp [hc])
  rw [not_isWhitespace_of_isAliasWordChar (h.chars c hc)] at hs
  cases hs

omit h

theorem split_of_dropWhile (hd : text.dropWhile isWhitespace = word ++ after) (hne : word ≠ [])
    (hch : ∀ c ∈ word, isAliasWordChar c) (he : ∀ c, after.head? = some c → isAliasWordChar c = false) :
    Split text (text.takeWhile isWhitespace) word after := by
  refine ⟨?_,fun c hc => mem_takeWhile_imp hc,hne,hch,he⟩
  rw [append_assoc,← hd,takeWhile_append_dropWhile]

theorem Split.of_surround (h : Split (p ++ text ++ q) before word after)
    (hp : ∀ c ∈ p, isWhitespace c) (hq : ∀ c, q.head? = some c → isAliasWordChar c = false) :
    (∃ before' after', Split text before' word after' ∧ before = p ++ before' ∧ after = after' ++ q) ∨
      (∀ c ∈ text, isWhitespace c) ∧ ∃ before', Split q before' word after ∧ before = p ++ text ++ before' := by
  obtain ⟨ht,hdr⟩ := h.leading
  rw [append_assoc,takeWhile_append_of_pos hp] at ht
  rw [append_assoc,dropWhile_append_of_pos hp] at hdr
  by_cases hb : ∀ c ∈ text, isWhitespace c
  · rw [takeWhile_append_of_pos hb] at ht
    rw [dropWhile_append_of_pos hb] at hdr
    exact .inr ⟨hb,_,split_of_dropWhile hdr h.nonempty h.chars h.ends,by rw [← ht,append_assoc]⟩
  · have hr : text.dropWhile isWhitespace ≠ [] := fun hn => hb fun c hc => by
      rw [dropWhile_eq_nil_iff] at hn
      exact hn c hc
    have hi : ∃ after', text.dropWhile isWhitespace = word ++ after' ∧ after = after' ++ q := by
      rw [dropWhile_append,if_neg (by simpa using hr)] at hdr
      rcases append_eq_append_iff.mp hdr with ⟨d,hw,hqd⟩ | ⟨d,hd,ha⟩
      · cases d with
        | nil => exact ⟨[],by simpa using hw.symm,by simpa using hqd.symm⟩
        | cons c d =>
          have hc := hq c (by rw [hqd]; rfl)
          rw [h.chars c (by rw [hw]; simp)] at hc
          cases hc
      · exact ⟨d,hd,ha⟩
    obtain ⟨after',hin,ha⟩ := hi
    refine .inl ⟨_,after',split_of_dropWhile hin h.nonempty h.chars ?_,?_,ha⟩
    · intro c hc
      apply h.ends c
      rw [ha,List.head?_append,hc]
      rfl
    · rw [← ht,takeWhile_append,if_neg]
      intro hl
      have hal := (List.takeWhile_prefix isWhitespace).eq_of_length hl
      exact hb (takeWhile_eq_self_iff.mp hal)

theorem IsWord.split {name : Text} (h : IsWord name) : Split name [] name [] :=
  ⟨by simp,by simp,h.1,h.2,by simp⟩
end

section
variable (h : Chain aliases used text result)
include h

theorem Chain.eq_of_stop (hs : ∀ before word after, Split text before word after → word ∈ used ∨ aliasGet aliases word = none) :
    result = text := by
  cases h with
  | stop _ => rfl
  | step hsp hu hv _ =>
    rcases hs _ _ _ (firstAliasWordSpan_eq_some_iff.mp hsp) with hm | hn
    · exact absurd hm hu
    · rw [hn] at hv
      cases hv

theorem Chain.of_step (hs : Split text before word after) (hu : word ∉ used) (hv : aliasGet aliases word = some value) :
    Chain aliases (word :: used) (before ++ value ++ after) result := by
  cases h with
  | stop hst =>
    rcases hst _ _ _ hs.span with hm | hn
    · exact absurd hm hu
    · rw [hn] at hv
      cases hv
  | step hsp hu' hv' hr =>
    obtain ⟨rfl,rfl,rfl⟩ := hs.unique (firstAliasWordSpan_eq_some_iff.mp hsp)
    rw [hv] at hv'
    cases hv'
    exact hr

theorem Chain.unique {result' : Text} (h' : Chain aliases used text result') :
    result' = result := by
  induction h with
  | stop hst => exact h'.eq_of_stop fun _ _ _ hs => hst _ _ _ hs.span
  | step hsp hu hv _ ih => exact ih (h'.of_step (firstAliasWordSpan_eq_some_iff.mp hsp) hu hv)

omit h

def unused (aliases : Aliases) (used : List Text) : List Text := (aliases.map Prod.fst).filter (· ∉ used)

theorem length_unused_cons_lt (hv : aliasGet aliases word = some value) (hu : word ∉ used) :
    (unused aliases (word :: used)).length < (unused aliases used).length := by
  have hm : word ∈ unused aliases used := by
    obtain ⟨l₁,l₂,hl,-⟩ := lookup_eq_some_iff.mp hv
    simp [unused,hl,hu]
  have hf : unused aliases (word :: used) = (unused aliases used).filter (· ≠ word) := by
    unfold unused
    rw [filter_filter]
    congr 1
    funext name
    simp
  rw [hf,length_filter_lt_length_iff_exists]
  exact ⟨word,hm,by simp⟩

theorem Chain.exists (aliases : Aliases) (used : List Text) (text : Text) : ∃ result, Chain aliases used text result := by
  induction hn : (unused aliases used).length using Nat.strong_induction_on generalizing used text with
  | _ n ih =>
    by_cases hs : ∀ before word after, firstAliasWordSpan text = some (before,word,after) →
        word ∈ used ∨ aliasGet aliases word = none
    · exact ⟨text,.stop hs⟩
    · push Not at hs
      obtain ⟨before,word,after,hsp,hu,hv⟩ := hs
      obtain ⟨value,hv⟩ := Option.ne_none_iff_exists'.mp hv
      obtain ⟨result,hr⟩ := ih _ (hn ▸ length_unused_cons_lt hv hu) (word :: used) (before ++ value ++ after) rfl
      exact ⟨result,.step hsp hu hv hr⟩
end

section
theorem next_unique (aliases : Aliases) : Relator.RightUnique (Next aliases) := by
  rintro a b c ⟨p,name,q,value,hs,-,hv,rfl⟩ ⟨p',name',q',value',hs',-,hv',rfl⟩
  obtain ⟨rfl,rfl,rfl⟩ := hs.unique hs'
  rw [hv] at hv'
  cases hv'
  rfl

variable {a b : Node}

theorem Node.Framed.next (ha : a.Framed) (h : Next aliases a b) : b.Framed := by
  obtain ⟨p,name,q,value,hs,-,-,rfl⟩ := h
  have hf := hs.surround ha.blank ha.ends
  exact ⟨hf.blank,hf.ends⟩

theorem chain_next (ha : a.Framed) (h : Next aliases a b) (hc : Chain aliases a.used a.text result) :
    Chain aliases b.used b.text result := by
  obtain ⟨p,name,q,value,hs,hu,hv,rfl⟩ := h
  exact hc.of_step (hs.surround ha.blank ha.ends) hu hv

theorem chain_reaches (ha : a.Framed) (h : Relation.ReflTransGen (Next aliases) a b)
    (hc : Chain aliases a.used a.text result) : b.Framed ∧ Chain aliases b.used b.text result := by
  induction h with
  | refl => exact ⟨ha,hc⟩
  | tail _ hn ih => exact ⟨ih.1.next hn,chain_next ih.1 hn ih.2⟩

/-- The chain from here ends at a node, and the outcome is what that node stands for. -/
def EndsWith (aliases : Aliases) (a : Node) (outcome : AliasExpand) : Prop :=
  ∃ b x y, Relation.ReflTransGen (Next aliases) a b ∧ (∀ c, ¬Next aliases b c) ∧ b.before = a.before ++ x ∧ b.after = y ++ a.after ∧
    (GivesUp b ∧ outcome = .cycle ∨ ¬GivesUp b ∧ outcome = .expanded (x ++ b.value ++ y))

theorem EndsWith.here {outcome : AliasExpand} (hl : ∀ c, ¬Next aliases a c)
    (h : GivesUp a ∧ outcome = .cycle ∨ ¬GivesUp a ∧ outcome = .expanded a.value) : EndsWith aliases a outcome :=
  ⟨a,[],[],.refl,hl,by simp,by simp,by simpa using h⟩

theorem expandAliasChainInner_reaches (fuel : ℕ) {seen : List Text} (hsn : word ∉ seen)
    (hv : aliasGet aliases word = some value) (hfu : (unused aliases seen).length < fuel) (before after : Text) :
    EndsWith aliases ⟨word :: seen,before,value,after⟩ (expandAliasChainInner aliases fuel word seen) := by
  induction fuel generalizing word seen value before after with
  | zero => omega
  | succ fuel ih =>
    have hlt := length_unused_cons_lt hv hsn
    rw [expandAliasChainInner,if_neg hsn,hv]
    simp only [firstAliasWord_eq]
    cases hsp : firstAliasWordSpan value with
    | none =>
      have hn : ∀ p name q, ¬Split value p name q := fun p name q hs => by
        rw [hs.span] at hsp
        cases hsp
      refine .here ?_ (.inr ⟨?_,rfl⟩)
      · rintro c ⟨p,name,q,_,hs,-⟩
        exact hn p name q hs
      · rintro ⟨p,name,q,hs,-⟩
        exact hn p name q hs
    | some parts =>
      obtain ⟨p,name,q⟩ := parts
      have hs := firstAliasWordSpan_eq_some_iff.mp hsp
      simp only [Option.map_some]
      by_cases hu : name ∈ word :: seen
      · rw [if_pos hu]
        refine .here ?_ ?_
        · rintro c ⟨p',name',q',_,hs',hf,-⟩
          rw [← (hs.unique hs').2.1] at hf
          exact hf hu
        · split
          · rename_i hse
            refine .inr ⟨?_,rfl⟩
            rintro ⟨_,_,_,-,-,hl⟩
            exact hl hse.2
          · rename_i hse
            refine .inl ⟨⟨p,name,q,hs,hu,fun hl => hse ⟨?_,hl⟩⟩,rfl⟩
            have hni : seen = [] := by simpa using hl
            simpa [hni] using hu
      · rw [if_neg hu]
        cases hv' : aliasGet aliases name with
        | none =>
          obtain ⟨fuel,rfl⟩ := Nat.exists_eq_add_one_of_ne_zero (n := fuel) (by omega)
          rw [expandAliasChainInner,if_neg hu,hv']
          refine .here ?_ (.inr ⟨?_,rfl⟩)
          · rintro c ⟨p',name',q',value',hs',-,hso,-⟩
            rw [← (hs.unique hs').2.1,hv'] at hso
            cases hso
          · rintro ⟨p',name',q',hs',hm,-⟩
            rw [← (hs.unique hs').2.1] at hm
            exact hu hm
        | some value' =>
          obtain ⟨b,x,y,hr,hla,hb,ha,hc⟩ := ih hu hv' (by omega) (before ++ p) (q ++ after)
          have hst : Next aliases ⟨word :: seen,before,value,after⟩ ⟨name :: word :: seen,before ++ p,value',q ++ after⟩ :=
            ⟨p,name,q,value',hs,hu,hv',rfl⟩
          refine ⟨b,p ++ x,y ++ q,.head hst hr,hla,by rw [hb,append_assoc],
            by rw [ha,append_assoc],hc.imp ?_ ?_⟩
          · exact fun h => ⟨h.1,by rw [h.2]⟩
          · refine fun h => ⟨h.1,?_⟩
            rw [h.2]
            simp [replaceFirstAliasWord,hsp]
end

section
theorem length_takeWhile_le (h : Chain aliases used text result) :
    (text.takeWhile isWhitespace).length ≤ (result.takeWhile isWhitespace).length := by
  induction h with
  | stop _ => exact le_rfl
  | step hsp _ _ _ ih =>
    have hs := firstAliasWordSpan_eq_some_iff.mp hsp
    refine Nat.le_trans ?_ ih
    rw [hs.leading.1,append_assoc,takeWhile_append_of_pos hs.blank,length_append]
    exact Nat.le_add_right _ _

variable {p q name target : Text} (hp : ∀ c ∈ p, isWhitespace c) (hq : ∀ c, q.head? = some c → isAliasWordChar c = false)
include hp hq

theorem Chain.ne_of_not_word (ht : IsWord target) {middle : Text}
    (hm : middle = [] ∨ ∃ c ∈ middle, isAliasWordChar c = false) (h : Chain aliases used (p ++ middle ++ q) result) :
    result ≠ p ++ target ++ q := by
  intro hr
  generalize hte : p ++ middle ++ q = text at h
  induction h generalizing middle with
  | stop _ =>
    rw [← hte] at hr
    have hsa : middle = target := append_cancel_left (append_cancel_right hr)
    rcases hm with hn | ⟨c,hc,hch⟩
    · exact ht.1 (hsa ▸ hn)
    · rw [ht.2 c (hsa ▸ hc)] at hch
      cases hch
  | @step used text before word after value result hsp hu hv hre ih =>
    have hs := firstAliasWordSpan_eq_some_iff.mp hsp
    rw [← hte] at hs
    rcases hs.of_surround hp hq with ⟨before',after',hi,rfl,rfl⟩ | ⟨hb,before',hi,rfl⟩
    · refine @ih (before' ++ value ++ after') ?_ hr (by simp only [append_assoc])
      rw [hi.eq] at hm
      rcases hm with hn | ⟨c,hc,hch⟩
      · simp [hi.nonempty] at hn
      · have hw : c ∉ word := fun hme => by
          rw [hi.chars c hme] at hch
          cases hch
        refine .inr ⟨c,?_,hch⟩
        simp only [mem_append,hw,or_false] at hc ⊢
        exact hc.imp .inl id
    · -- the word stands behind at least one blank of `q`
      have hne : before' ≠ [] := by
        rintro rfl
        obtain ⟨c,rest,hw⟩ := exists_cons_of_ne_nil hi.nonempty
        have hc := hq c (by rw [hi.eq,hw]; rfl)
        rw [hi.chars c (hw ▸ mem_cons_self)] at hc
        cases hc
      have hl := length_takeWhile_le hre
      have hta := (ht.split.surround hp hq).leading.1
      rw [hr,hta,append_assoc,takeWhile_append_of_pos hs.blank] at hl
      have hpo := length_pos_iff.mpr hne
      simp only [length_append,length_nil] at hl
      omega

theorem IsWord.split_between (hn : IsWord name) : Split (p ++ name ++ q) p name q := by
  simpa using hn.split.surround hp hq

theorem LeadsBack.chain (h : LeadsBack aliases target used name) (ht : IsWord target) (hn : IsWord name)
    (hme : name = target ∨ target ∈ used) : Chain aliases used (p ++ name ++ q) (p ++ target ++ q) := by
  induction h with
  | @back used name hu hv =>
    refine .step (hn.split_between hp hq).span hu hv (.stop ?_)
    intro before word after hs
    obtain ⟨-,rfl,-⟩ := (ht.split_between hp hq).unique (firstAliasWordSpan_eq_some_iff.mp hs)
    rcases hme with rfl | hm
    · exact .inl mem_cons_self
    · exact .inl (mem_cons_of_mem _ hm)
  | @next used name value hu hv hw _ ih =>
    refine .step (hn.split_between hp hq).span hu hv (ih hw (.inr ?_))
    rcases hme with rfl | hm
    · exact mem_cons_self
    · exact mem_cons_of_mem _ hm

theorem Chain.leadsBack (hta : IsWord target) (hn : IsWord name) (hu : name ∉ used) (ha : aliasGet aliases name ≠ none)
    (h : Chain aliases used (p ++ name ++ q) result) (hr : result = p ++ target ++ q) :
    LeadsBack aliases target used name := by
  generalize ht : p ++ name ++ q = text at h
  induction h generalizing name with
  | stop hs =>
    rw [← ht] at hs
    rcases hs _ _ _ (hn.split_between hp hq).span with hm | hno
    · exact absurd hm hu
    · exact absurd hno ha
  | @step used text before word after value result hsp _ hv hre ih =>
    rw [← ht] at hsp
    obtain ⟨rfl,rfl,rfl⟩ := (hn.split_between hp hq).unique (firstAliasWordSpan_eq_some_iff.mp hsp)
    by_cases hw : IsWord value
    · by_cases hsa : value = target
      · exact .back hu (hsa ▸ hv)
      by_cases hs : value ∈ name :: used ∨ aliasGet aliases value = none
      · -- the chain ends at another name
        have he := hre.eq_of_stop fun before word after hsl => by
          rwa [← ((hw.split_between hp hq).unique hsl).2.1]
        rw [hr] at he
        exact absurd (append_cancel_left (append_cancel_right he)).symm hsa
      · push Not at hs
        exact .next hu hv hw (ih hw hs.1 hs.2 hr rfl)
    · refine absurd hr (hre.ne_of_not_word hp hq hta ?_)
      by_cases hni : value = []
      · exact .inl hni
      · refine .inr ?_
        by_contra hal
        push Not at hal
        exact hw ⟨hni,fun c hc => by simpa using hal c hc⟩
end

theorem agrees_of_next {a : Node} (h : Next aliases a b) (command : Text) : Agrees aliases command a := by
  obtain ⟨p,name,q,value,hs,hu,-⟩ := h
  constructor
  · intro p' name' q' hs' hm
    rw [← (hs.unique hs').2.1] at hm
    exact absurd hm hu
  · exact fun hb => absurd hb hs.not_blank

theorem chain_last_iff (hb : b.Framed) (hl : ∀ c, ¬Next aliases b c) (h : Chain aliases b.used b.text result) :
    result = b.text ↔ ((∀ c ∈ b.value, isWhitespace c) → ∀ p name q, Split b.after p name q → name ∉ b.used →
      aliasGet aliases name ≠ none → LeadsBack aliases name b.used name) := by
  -- the text as blanks, the word found behind the value, and the rest
  have hpa : ∀ {p name q}, Split b.after p name q →
      b.text = b.before ++ b.value ++ p ++ name ++ q := fun hs => by
    rw [Node.text,hs.eq]
    simp only [append_assoc]
  have hf : ∀ {p name q}, (∀ c ∈ b.value, isWhitespace c) → Split b.after p name q →
      ∀ c ∈ b.before ++ b.value ++ p, isWhitespace c := fun hbl hs c hc => by
    simp only [mem_append] at hc
    rcases hc with (hc | hc) | hc
    · exact hb.blank c hc
    · exact hbl c hc
    · exact hs.blank c hc
  constructor
  · intro hr hbl p name q hs hu ha
    rw [hpa hs] at h hr
    have hn : IsWord name := ⟨hs.nonempty,hs.chars⟩
    exact h.leadsBack (hf hbl hs) hs.ends hn hn hu ha hr
  · intro hba
    by_cases hst : ∀ before word after, Split b.text before word after → word ∈ b.used ∨ aliasGet aliases word = none
    · exact h.eq_of_stop hst
    · push Not at hst
      obtain ⟨before,word,after,hs,hu,ha⟩ := hst
      rcases hs.of_surround hb.blank hb.ends with ⟨p,q,hi,-,-⟩ | ⟨hbl,p,hi,-⟩
      · obtain ⟨value,hv⟩ := Option.ne_none_iff_exists'.mp ha
        exact absurd ⟨p,word,q,value,hi,hu,hv,rfl⟩ (hl _)
      · have hn : IsWord word := ⟨hi.nonempty,hi.chars⟩
        have hre := (hba hbl p word after hi hu ha).chain (hf hbl hi) hi.ends hn hn
          (.inl rfl)
        rw [← hpa hi] at hre
        exact hre.unique h

/-- The expansion is the text the rule reaches exactly when every node on the way agrees. -/
theorem expandAliasChain_iff (aliases : Aliases) (word : Text) (hword : IsWord word) :
    ∃ result, Chain aliases [] word result ∧ (∀ result', Chain aliases [] word result' → result' = result) ∧
      ((expandAliasChain aliases word).getD word = result ↔ ∀ value, aliasGet aliases word = some value →
        ∀ b, Relation.ReflTransGen (Next aliases) ⟨[word],[],value,[]⟩ b → Agrees aliases word b) := by
  obtain ⟨result,hchain⟩ := Chain.exists aliases [] word
  refine ⟨result,hchain,fun result' h => hchain.unique h,?_⟩
  have hsplit := hword.split
  cases hvalue : aliasGet aliases word with
  | none =>
    have hnone : expandAliasChain aliases word = none := by
      unfold expandAliasChain
      rw [expandAliasChainInner,if_neg not_mem_nil,hvalue]
    have hresult : result = word := hchain.eq_of_stop fun before name after h => by
      rw [← (hsplit.unique h).2.1]
      exact .inr hvalue
    exact iff_of_true (by rw [hnone,hresult]; rfl) fun _ h => by cases h
  | some value =>
    have hfuel : (unused aliases []).length < aliases.length + 2 := by
      have hle := length_filter_le (· ∉ []) (aliases.map Prod.fst)
      rw [length_map] at hle
      exact Nat.lt_of_le_of_lt hle (by omega)
    obtain ⟨b,x,y,hreach,hlast,hbefore,hafter,hcases⟩ :=
      expandAliasChainInner_reaches (aliases.length + 2) not_mem_nil hvalue hfuel [] []
    have hstart : Node.Framed ⟨[word],[],value,[]⟩ := ⟨by simp,by simp⟩
    have hfirst : Chain aliases [word] (Node.text ⟨[word],[],value,[]⟩) result := by
      simpa [Node.text] using hchain.of_step hsplit not_mem_nil hvalue
    obtain ⟨hframed,hchain'⟩ := chain_reaches hstart hreach hfirst
    have htext : x ++ b.value ++ y = b.text := by
      rw [Node.text,hbefore,hafter]
      simp
    have hall : (∀ value', some value = some value' → ∀ c, Relation.ReflTransGen (Next aliases) ⟨[word],[],value',[]⟩ c →
        Agrees aliases word c) ↔ Agrees aliases word b := by
      refine ⟨fun h => h value rfl b hreach,?_⟩
      intro hb value' hsome c hc
      cases hsome
      rcases Relation.ReflTransGen.total_of_right_unique (next_unique aliases) hreach hc with hbc | hcb
      · rcases hbc.cases_head with rfl | ⟨d,hnext,-⟩
        · exact hb
        · exact absurd hnext (hlast d)
      · rcases hcb.cases_head with rfl | ⟨d,hnext,-⟩
        · exact hb
        · exact agrees_of_next hnext word
    rw [hall]
    have hkeeps := chain_last_iff hframed hlast hchain'
    rcases hcases with ⟨⟨p,name,q,hname,hmem,hlength⟩,hinner⟩ | ⟨hgives,hinner⟩
    · have hexpand : expandAliasChain aliases word = none := by
        unfold expandAliasChain
        rw [hinner]
      have hfilled := hname.not_blank
      rw [hexpand,hkeeps.mpr fun hblank => absurd hblank hfilled]
      constructor
      · intro hsame
        exact ⟨fun _ _ _ _ _ => .inr hsame.symm,fun hblank => absurd hblank hfilled⟩
      · intro hagrees
        exact ((hagrees.fresh p name q hname hmem).resolve_left hlength).symm
    · have hexpand : expandAliasChain aliases word = some b.text := by
        unfold expandAliasChain
        rw [hinner,htext]
      rw [hexpand,Option.getD_some,eq_comm,hkeeps]
      constructor
      · intro hback
        refine ⟨fun p name q hname hmem => .inl ?_,hback⟩
        by_contra hlength
        exact hgives ⟨p,name,q,hname,hmem,hlength⟩
      · exact fun hagrees => hagrees.blank

theorem chain_two_names {value word after : Text} (h : firstAliasWordSpan (value ++ " x".toList) = some ([],word,after))
    (hw : word ∈ ["b".toList,"a".toList] ∨ aliasGet [("a".toList,"b x".toList),("b".toList,value)] word = none) :
    Chain [("a".toList,"b x".toList),("b".toList,value)] [] "a".toList (value ++ " x".toList) := by
  have ha : firstAliasWordSpan "a".toList = some ([],"a".toList,[]) := by decide
  have hb : firstAliasWordSpan "b x".toList = some ([],"b".toList," x".toList) := by decide
  refine .step ha (by decide) rfl (.step hb (by decide) rfl (.stop fun before word' after' h' => ?_))
  cases h.symm.trans h'
  exact hw

/-- `a` stands for `b x` and `b` for `echo`. -/
theorem expandAliasChain_two_names :
    ∃ result, Chain [("a".toList,"b x".toList),("b".toList,"echo".toList)] [] "a".toList result ∧
      (expandAliasChain [("a".toList,"b x".toList),("b".toList,"echo".toList)] "a".toList).getD "a".toList = result ∧
      ∀ b, Relation.ReflTransGen (Next [("a".toList,"b x".toList),("b".toList,"echo".toList)])
        ⟨["a".toList],[],"b x".toList,[]⟩ b →
        Agrees [("a".toList,"b x".toList),("b".toList,"echo".toList)] "a".toList b := by
  obtain ⟨result,hchain,hunique,hiff⟩ := expandAliasChain_iff [("a".toList,"b x".toList),("b".toList,"echo".toList)]
    "a".toList ⟨by decide,by decide⟩
  have hexpand : (expandAliasChain [("a".toList,"b x".toList),("b".toList,"echo".toList)] "a".toList).getD "a".toList =
      result := by
    rw [← hunique _ (chain_two_names (by decide : _ = some ([],"echo".toList," x".toList)) (.inr (by decide)))]
    decide
  exact ⟨result,hchain,hexpand,hiff.mp hexpand "b x".toList (by decide)⟩

/-- `a` stands for `b x` and `b` for `a y`: the rule stops at `a y x`, the expansion at `a`. -/
theorem expandAliasChain_undone :
    Chain [("a".toList,"b x".toList),("b".toList,"a y".toList)] [] "a".toList "a y x".toList ∧
      (expandAliasChain [("a".toList,"b x".toList),("b".toList,"a y".toList)] "a".toList).getD "a".toList ≠
        "a y x".toList :=
  ⟨chain_two_names (by decide : _ = some ([],"a".toList," y x".toList)) (.inl (by decide)),by decide⟩
end Cherubsh.Common.Alias
