import Cherubsh.Common.History

/-! # When one line is a finished entry

A line is a finished entry when it is plain characters, escaped characters and closed quotes, and
no run of `<` announces a delimiter.
-/
namespace Cherubsh.Common
open List

section
variable {st : QuoteState}

inductive DoubleQuoted : Text → Prop
  | nil : DoubleQuoted []
  | plain {c : Char} {s : Text} : c ≠ '\\' → c ≠ '"' → DoubleQuoted s → DoubleQuoted (c :: s)
  | escape {c : Char} {s : Text} : DoubleQuoted s → DoubleQuoted ('\\' :: c :: s)

/-- Every quote is closed and every backslash has a character to escape. -/
inductive WellQuoted : Text → Prop
  | nil : WellQuoted []
  | plain {c : Char} {s : Text} : c ≠ '\\' → c ≠ '\'' → c ≠ '"' → WellQuoted s → WellQuoted (c :: s)
  | escape {c : Char} {s : Text} : WellQuoted s → WellQuoted ('\\' :: c :: s)
  | single {inner s : Text} : '\'' ∉ inner → WellQuoted s → WellQuoted ('\'' :: (inner ++ '\'' :: s))
  | double {inner s : Text} : DoubleQuoted inner → WellQuoted s → WellQuoted ('"' :: (inner ++ '"' :: s))

/-- The texts that lead from a state of the scan to a balanced end. -/
def Closes : QuoteState → Text → Prop
  | ⟨none,false⟩, s => WellQuoted s
  | ⟨none,true⟩, s => ∃ c rest, s = c :: rest ∧ WellQuoted rest
  | ⟨some '\'',false⟩, s => ∃ inner rest, s = inner ++ '\'' :: rest ∧ '\'' ∉ inner ∧ WellQuoted rest
  | ⟨some '"',false⟩, s => ∃ inner rest, s = inner ++ '"' :: rest ∧ DoubleQuoted inner ∧ WellQuoted rest
  | ⟨some '"',true⟩, s => ∃ c inner rest, s = c :: (inner ++ '"' :: rest) ∧ DoubleQuoted inner ∧ WellQuoted rest
  | _, _ => False

def QuoteState.Valid (st : QuoteState) : Prop :=
  st.quote = none ∨ st.quote = some '"' ∨ st = ⟨some '\'',false⟩

theorem quoteStep_valid (hst : st.Valid) (c : Char) : (quoteStep st c).Valid := by
  rcases st with ⟨quote,escaped⟩
  unfold QuoteState.Valid
  rcases hst with h | h | h <;> cases h <;> grind [quoteStep]

theorem Closes.cons (hst : st.Valid) {c : Char} {s : Text} (h : Closes (quoteStep st c) s) : Closes st (c :: s) := by
  rcases st with ⟨quote,_ | _⟩
  · rcases hst with hq | hq | hq
    · cases hq
      simp only [quoteStep] at h
      by_cases hb : c = '\\'
      · subst hb
        obtain ⟨d,rest,rfl,hr⟩ := h
        exact .escape hr
      by_cases hs : c = '\''
      · subst hs
        obtain ⟨inner,rest,rfl,hi,hr⟩ := h
        exact .single hi hr
      by_cases hd : c = '"'
      · subst hd
        obtain ⟨inner,rest,rfl,hi,hr⟩ := h
        exact .double hi hr
      · simp only [hb,hs,hd] at h
        exact .plain hb hs hd h
    · cases hq
      simp only [quoteStep] at h
      by_cases hb : c = '\\'
      · subst hb
        obtain ⟨d,inner,rest,rfl,hi,hr⟩ := h
        exact ⟨'\\' :: d :: inner,rest,rfl,.escape hi,hr⟩
      by_cases hd : c = '"'
      · subst hd
        exact ⟨[],s,rfl,.nil,h⟩
      · simp only [hb,hd] at h
        obtain ⟨inner,rest,rfl,hi,hr⟩ := h
        exact ⟨c :: inner,rest,rfl,.plain hb hd hi,hr⟩
    · cases hq
      simp only [quoteStep] at h
      by_cases hs : c = '\''
      · subst hs
        exact ⟨[],s,rfl,not_mem_nil,h⟩
      · simp only [hs] at h
        obtain ⟨inner,rest,rfl,hi,hr⟩ := h
        exact ⟨c :: inner,rest,rfl,by simp [Ne.symm hs,hi],hr⟩
  · rcases hst with hq | hq | hq
    · cases hq
      exact ⟨c,s,rfl,h⟩
    · cases hq
      obtain ⟨inner,rest,rfl,hi,hr⟩ := h
      exact ⟨c,inner,rest,rfl,hi,hr⟩
    · cases hq

theorem closes_of_foldl (hst : st.Valid) {s : Text} (h : s.foldl quoteStep st = ⟨none,false⟩) : Closes st s := by
  induction s generalizing st with
  | nil =>
    rw [show st = ⟨none,false⟩ from h]
    exact .nil
  | cons c s ih => exact .cons hst (ih (quoteStep_valid hst c) h)

theorem foldl_doubleQuoted {inner : Text} (h : DoubleQuoted inner) :
    inner.foldl quoteStep ⟨some '"',false⟩ = ⟨some '"',false⟩ := by
  induction h with
  | nil => rfl
  | plain hb hq _ ih =>
    rw [foldl_cons]
    simpa [quoteStep,hb,hq] using ih
  | escape _ ih => exact ih

theorem foldl_singleQuoted {inner : Text} (h : '\'' ∉ inner) :
    inner.foldl quoteStep ⟨some '\'',false⟩ = ⟨some '\'',false⟩ := by
  induction inner with
  | nil => rfl
  | cons c inner ih =>
    have hc : c ≠ '\'' := fun hc => h (hc ▸ mem_cons_self)
    rw [foldl_cons]
    simpa [quoteStep,hc] using ih fun hm => h (mem_cons_of_mem c hm)

theorem foldl_wellQuoted {s : Text} (h : WellQuoted s) : s.foldl quoteStep ⟨none,false⟩ = ⟨none,false⟩ := by
  induction h with
  | nil => rfl
  | plain hb hs hd _ ih =>
    rw [foldl_cons]
    simpa [quoteStep,hb,hs,hd] using ih
  | escape _ ih => exact ih
  | single hi _ ih =>
    rw [foldl_cons,foldl_append]
    change List.foldl _ (quoteStep (List.foldl quoteStep ⟨some '\'',false⟩ _) '\'') _ = _
    rw [foldl_singleQuoted hi]
    exact ih
  | double hi _ ih =>
    rw [foldl_cons,foldl_append]
    change List.foldl _ (quoteStep (List.foldl quoteStep ⟨some '"',false⟩ _) '"') _ = _
    rw [foldl_doubleQuoted hi]
    exact ih

theorem quotesBalanced_iff (s : Text) : quotesBalanced s = true ↔ WellQuoted s := by
  have he : quotesBalanced s = true ↔ s.foldl quoteStep ⟨none,false⟩ = ⟨none,false⟩ := by
    unfold quotesBalanced
    rcases s.foldl quoteStep ⟨none,false⟩ with ⟨_ | quote,_ | _⟩ <;> simp
  rw [he]
  exact ⟨fun h => @closes_of_foldl ⟨none,false⟩ (.inl rfl) s h,foldl_wellQuoted⟩
end

section
variable {rest : Text} {c : Char} {s : Text}

/-- A word follows from which something is left when its quotes are taken out. -/
def Named (s : Text) : Prop :=
  ∃ sign blanks word after, s = sign ++ blanks ++ word ++ after ∧ (sign = ['-'] ∨ sign = [] ∧ s.head? ≠ some '-') ∧
    (∀ c ∈ blanks, c = ' ' ∨ c = '\t') ∧ (∀ c ∈ word, isDelimiterEnd c = false) ∧
    ∃ c ∈ word, c ≠ '\'' ∧ c ≠ '"' ∧ c ≠ '\\'

/-- A run of `<` that is two over a multiple of three (each three are a here-string)
stands in front of a delimiter. -/
def Announces (line : Text) : Prop :=
  ∃ before run after, line = before ++ (List.replicate run '<' ++ after) ∧ before.getLast? ≠ some '<' ∧
    after.head? ≠ some '<' ∧ run % 3 = 2 ∧ Named after

theorem replicate_append_inj {m n : ℕ} {s t : Text} (hs : s.head? ≠ some c) (ht : t.head? ≠ some c)
    (h : List.replicate m c ++ s = List.replicate n c ++ t) : m = n ∧ s = t := by
  induction m generalizing n with
  | zero =>
    cases n with
    | zero => exact ⟨rfl,h⟩
    | succ n => exact absurd (by simp only [replicate_zero,nil_append] at h; rw [h]; rfl) hs
  | succ m ih =>
    cases n with
    | zero => exact absurd (by simp only [replicate_zero,nil_append] at h; rw [← h]; rfl) ht
    | succ n =>
      obtain ⟨hmn,hst⟩ := ih (List.cons.inj h).2
      exact ⟨by omega,hst⟩

theorem announces_run {n : ℕ} (hs : s.head? ≠ some '<') :
    Announces (List.replicate n '<' ++ s) ↔ n % 3 = 2 ∧ Named s ∨ Announces s := by
  constructor
  · rintro ⟨before,run,after,heq,hb,haf,hr,hna⟩
    rcases append_eq_append_iff.mp heq with ⟨a,hn,ht⟩ | ⟨a,hn,ht⟩
    · -- `before` is longer than the run, so it ends behind it
      have ha : a ≠ [] := by
        rintro rfl
        cases run with
        | zero => omega
        | succ run => exact hs (by rw [ht]; rfl)
      refine .inr ⟨a,run,after,ht,?_,haf,hr,hna⟩
      rwa [hn,List.getLast?_append_of_ne_nil _ ha] at hb
    · have hni : before = [] := by
        by_contra hne
        have hm : before.getLast hne ∈ List.replicate n '<' := hn ▸ mem_append_left a (getLast_mem hne)
        exact hb (by rw [List.getLast?_eq_some_getLast hne,eq_of_mem_replicate hm])
      subst hni
      rw [nil_append] at hn
      obtain ⟨rfl,rfl⟩ := replicate_append_inj haf hs (hn ▸ ht)
      exact .inl ⟨hr,hna⟩
  · rintro (⟨hn,hna⟩ | ⟨before,run,after,rfl,hb,haf,hr,hna⟩)
    · exact ⟨[],n,s,rfl,by simp,hs,hn,hna⟩
    · have hne : before ≠ [] := by
        rintro rfl
        cases run with
        | zero => omega
        | succ run => exact hs rfl
      refine ⟨List.replicate n '<' ++ before,run,after,by rw [append_assoc],?_,haf,hr,hna⟩
      rwa [List.getLast?_append_of_ne_nil _ hne]

theorem announces_cons (hc : c ≠ '<') : Announces (c :: s) ↔ Announces s := by
  constructor
  · rintro ⟨before,run,after,heq,hb,ha,hr,hn⟩
    cases before with
    | nil =>
      cases run with
      | zero => omega
      | succ run => exact absurd (List.cons.inj heq).1 hc
    | cons d before =>
      obtain ⟨rfl,rfl⟩ := List.cons.inj heq
      refine ⟨before,run,after,rfl,?_,ha,hr,hn⟩
      cases before with
      | nil => simp
      | cons d before => exact hb
  · rintro ⟨before,run,after,rfl,hb,ha,hr,hn⟩
    refine ⟨c :: before,run,after,rfl,?_,ha,hr,hn⟩
    cases before with
    | nil => simpa using hc
    | cons d before => exact hb

theorem announces_append {a s : Text} (ha : '<' ∉ a) : Announces (a ++ s) ↔ Announces s := by
  induction a with
  | nil => rfl
  | cons c a ih =>
    rw [mem_cons,not_or] at ha
    rw [cons_append,announces_cons (Ne.symm ha.1),ih ha.2]

theorem announces_three (s : Text) : Announces ('<' :: '<' :: '<' :: s) ↔ Announces s := by
  have hs : s = List.replicate (s.takeWhile (· = '<')).length '<' ++ s.dropWhile (· = '<') := by
    conv_lhs => rw [← takeWhile_append_dropWhile (p := (· = '<')) (l := s)]
    congr 1
    exact eq_replicate_iff.mpr ⟨rfl,fun c hc => by simpa using mem_takeWhile_imp hc⟩
  have hh : (s.dropWhile (· = '<')).head? ≠ some '<' := by
    intro h
    have := List.head?_dropWhile_not (· = '<') s
    rw [h] at this
    simp at this
  rw [hs,announces_run hh]
  change Announces (List.replicate (_ + 3) '<' ++ _) ↔ _
  rw [announces_run hh,Nat.add_mod_right]

/-- What the scan looks at behind the two `<`: the optional `-` and the blanks skipped. -/
def wordStart (rest : Text) : Text :=
  (match rest with
    | '-' :: rest => rest
    | rest => rest).dropWhile (fun ch => ch = ' ' || ch = '\t')

theorem wordStart_of_ne (h : rest.head? ≠ some '-') :
    wordStart rest = rest.dropWhile (fun ch => ch = ' ' || ch = '\t') := by
  unfold wordStart
  split
  · exact absurd rfl h
  · rfl

theorem wordStart_eq (rest : Text) :
    ∃ sign blanks, rest = sign ++ blanks ++ wordStart rest ∧ (sign = ['-'] ∨ sign = [] ∧ rest.head? ≠ some '-') ∧
      ∀ c ∈ blanks, c = ' ' ∨ c = '\t' := by
  have hb : ∀ s : Text, ∀ c ∈ s.takeWhile (fun ch => ch = ' ' || ch = '\t'), c = ' ' ∨ c = '\t' :=
    fun s c hc => by simpa using mem_takeWhile_imp hc
  unfold wordStart
  split
  · rename_i rest
    refine ⟨['-'],rest.takeWhile (fun ch => ch = ' ' || ch = '\t'),?_,.inl rfl,hb rest⟩
    rw [append_assoc,takeWhile_append_dropWhile]
    rfl
  · rename_i hs
    refine ⟨[],rest.takeWhile (fun ch => ch = ' ' || ch = '\t'),?_,.inr ⟨rfl,?_⟩,hb rest⟩
    · rw [append_assoc,takeWhile_append_dropWhile]
      rfl
    · intro h
      obtain ⟨tail,rfl⟩ := List.head?_eq_some_iff.mp h
      exact hs tail rfl

theorem named_iff (rest : Text) : Named rest ↔
    ((wordStart rest).takeWhile (fun ch => !isDelimiterEnd ch)).filter
      (fun ch => !(ch = '\'' || ch = '"' || ch = '\\')) ≠ [] := by
  rw [Ne,filter_eq_nil_iff]
  constructor
  · rintro ⟨sign,blanks,word,after,heq,hs,hb,hw,c,hc,hp⟩ hn
    -- the word is not empty and starts where the scan does
    have hst : wordStart rest = word ++ after := by
      have ht : wordStart rest = (blanks ++ (word ++ after)).dropWhile (fun ch => ch = ' ' || ch = '\t') := by
        rcases hs with rfl | ⟨rfl,hh⟩
        · rw [heq,append_assoc,append_assoc]
          rfl
        · rw [wordStart_of_ne hh,heq,append_assoc,append_assoc]
          rfl
      obtain ⟨d,word,rfl⟩ := exists_cons_of_ne_nil (ne_nil_of_mem hc)
      have hd := hw d mem_cons_self
      unfold isDelimiterEnd at hd
      rw [ht,dropWhile_append_of_pos fun c hc => by simpa using hb c hc,cons_append,
        dropWhile_cons_of_neg (by simp_all)]
    apply hn c
    · rw [hst,takeWhile_append_of_pos fun c hc => by simpa using hw c hc]
      exact mem_append_left _ hc
    · simpa [and_assoc] using hp
  · intro h
    push Not at h
    obtain ⟨c,hc,hp⟩ := h
    obtain ⟨sign,blanks,heq,hs,hb⟩ := wordStart_eq rest
    refine ⟨sign,blanks,_,(wordStart rest).dropWhile (fun ch => !isDelimiterEnd ch),?_,hs,hb,?_,
      c,hc,by simpa [and_assoc] using hp⟩
    · rw [append_assoc,takeWhile_append_dropWhile]
      exact heq
    · exact fun c hc => by simpa using mem_takeWhile_imp hc

theorem extractHeredocDelimiters_two (fuel : ℕ) (h : rest.head? ≠ some '<') :
    extractHeredocDelimiters (fuel + 1) ('<' :: '<' :: rest) = [] ↔ ¬Named rest ∧
      extractHeredocDelimiters fuel ((wordStart rest).dropWhile (fun ch => !isDelimiterEnd ch)) = [] := by
  rw [named_iff,not_not]
  have hs : extractHeredocDelimiters (fuel + 1) ('<' :: '<' :: rest) =
      (let raw := (wordStart rest).takeWhile (fun ch => !isDelimiterEnd ch)
      let delimiter := raw.filter (fun ch => !(ch = '\'' || ch = '"' || ch = '\\'))
      let later := extractHeredocDelimiters fuel ((wordStart rest).dropWhile (fun ch => !isDelimiterEnd ch))
      if delimiter = [] then later else delimiter :: later) := by
    conv_lhs => unfold extractHeredocDelimiters
    split
    · rename_i hl
      cases hl
      exact absurd rfl h
    · rename_i hf hl
      cases hf
      cases hl
      rfl
    · rename_i ho _ hl
      cases hl
      exact (ho rest rfl rfl).elim
    · rename_i ho
      exact (ho fuel '<' ('<' :: rest) rfl rfl).elim
  rw [hs]
  dsimp only
  split
  · rename_i hn
    exact ⟨fun hla => ⟨hn,hla⟩,fun hb => hb.2⟩
  · rename_i hso
    exact ⟨fun hla => absurd hla (cons_ne_nil _ _),fun hb => absurd hb.1 hso⟩

theorem extractHeredocDelimiters_one (fuel : ℕ) (h : c ≠ '<' ∨ rest.head? ≠ some '<') :
    extractHeredocDelimiters (fuel + 1) (c :: rest) = extractHeredocDelimiters fuel rest := by
  conv_lhs => unfold extractHeredocDelimiters
  split
  · rename_i hl
    cases hl
    simp at h
  · rename_i hl
    cases hl
    simp at h
  · rename_i hf hl
    cases hf
    cases hl
    rfl
  · rename_i ho
    exact (ho fuel c rest rfl rfl).elim

theorem announces_behind_word (h : ¬Named rest) :
    Announces rest ↔ Announces ((wordStart rest).dropWhile (fun ch => !isDelimiterEnd ch)) := by
  obtain ⟨sign,blanks,heq,hs,hb⟩ := wordStart_eq rest
  rw [named_iff,not_not,filter_eq_nil_iff] at h
  have hw := takeWhile_append_dropWhile (p := fun ch => !isDelimiterEnd ch) (l := wordStart rest)
  conv_lhs => rw [heq,← hw,← append_assoc]
  apply announces_append
  simp only [mem_append,not_or]
  refine ⟨⟨?_,fun hm => absurd (hb _ hm) (by decide)⟩,fun hm => h _ hm (by decide)⟩
  rcases hs with rfl | ⟨rfl,-⟩
  · decide
  · exact not_mem_nil

theorem length_wordStart_le (rest : Text) : (wordStart rest).length ≤ rest.length := by
  obtain ⟨sign,blanks,heq,-⟩ := wordStart_eq rest
  have hl := congrArg List.length heq
  simp only [length_append] at hl
  omega

theorem extractHeredocDelimiters_eq_nil_iff (fuel : ℕ) (line : Text) (hf : line.length ≤ fuel) :
    extractHeredocDelimiters fuel line = [] ↔ ¬Announces line := by
  have hn : ¬Announces [] := by
    rintro ⟨before,run,after,heq,-,-,hr,-⟩
    have hl := congrArg List.length heq
    simp only [length_nil,length_append,length_replicate] at hl
    omega
  induction fuel generalizing line with
  | zero =>
    rw [length_eq_zero_iff.mp (Nat.le_zero.mp hf)]
    exact iff_of_true rfl hn
  | succ fuel ih =>
    cases line with
    | nil => exact iff_of_true rfl hn
    | cons c line =>
      have hl : line.length ≤ fuel := by simpa using hf
      by_cases hc : c = '<'
      · subst hc
        by_cases hh : line.head? = some '<'
        · obtain ⟨rest,rfl⟩ := List.head?_eq_some_iff.mp hh
          by_cases ht : rest.head? = some '<'
          · obtain ⟨rest,rfl⟩ := List.head?_eq_some_iff.mp ht
            rw [announces_three]
            exact ih rest (by simp only [length_cons] at hl; omega)
          · have hr : Announces ('<' :: '<' :: rest) ↔ Named rest ∨ Announces rest := by
              simpa using announces_run (n := 2) ht
            have hs : ((wordStart rest).dropWhile (fun ch => !isDelimiterEnd ch)).length ≤ fuel := by
              have hd := (dropWhile_sublist (fun ch => !isDelimiterEnd ch) (l := wordStart rest)).length_le
              have hst := length_wordStart_le rest
              simp only [length_cons] at hl
              omega
            rw [extractHeredocDelimiters_two fuel ht,hr,not_or]
            exact and_congr_right fun hna => (ih _ hs).trans (not_congr (announces_behind_word hna).symm)
        · rw [extractHeredocDelimiters_one fuel (.inr hh)]
          exact (ih line hl).trans (not_congr (by simpa using (announces_run (n := 1) hh).symm))
      · rw [extractHeredocDelimiters_one fuel (.inl hc),announces_cons hc]
        exact ih line hl

theorem linesFrom_of_not_mem (hs : '\n' ∉ s) (line : Text) (hne : line ++ s ≠ []) :
    linesFrom line s = [line ++ s] := by
  induction s generalizing line with
  | nil =>
    rw [append_nil] at hne ⊢
    simp [linesFrom,hne]
  | cons c s ih =>
    rw [mem_cons,not_or] at hs
    unfold linesFrom
    split
    · contradiction
    · rename_i heq
      exact absurd (List.cons.inj heq).1.symm hs.1
    · rename_i heq
      obtain ⟨rfl,rfl⟩ := List.cons.inj heq
      simpa using ih hs.2 (line ++ [c]) (by simp)

theorem historyEntryComplete_iff {line : Text} (hne : line ≠ []) (hl : '\n' ∉ line) :
    historyEntryComplete line = true ↔ WellQuoted line ∧ ¬Announces line := by
  unfold historyEntryComplete heredocsClosed
  rw [Bool.and_eq_true,quotesBalanced_iff,linesFrom_of_not_mem hl [] (by simpa using hne)]
  simp only [List.nil_append,List.foldl_cons,List.foldl_nil,heredocStep,List.isEmpty_iff]
  rw [extractHeredocDelimiters_eq_nil_iff _ line le_rfl]
end
end Cherubsh.Common
