import Cherubsh.Builtins.Read
import Cherubsh.Library.Fields

/-! # The fields that read should assign

For several names the cursor follows the rule, unless `IFS` is the pair of bytes looked for as a
whole; a single name gets a trimmed line instead.
-/
namespace Cherubsh.Builtins.Read
open Expander.Arith (Text)
open Expander.ShellString Utf8 Fields List

section
variable (ifs : Text)

def role (item : Marked) : Role :=
  if item.2 ∨ item.1 ∉ ifs then .content else if isSpace item.1 then .white else .other

def IsDelimiter (d : List Marked) : Prop := d ≠ [] ∧ dropDelimiter (role ifs) d = []

instance (d : List Marked) : Decidable (IsDelimiter ifs d) := inferInstanceAs (Decidable (_ ∧ _))

def lastByRule (rest : List Marked) : Text :=
  if IsDelimiter ifs (rest.dropWhile (isContent (role ifs))) then dequoteItems (rest.takeWhile (isContent (role ifs)))
  else dequoteItems (rest.rdropWhile (isWhite (role ifs)))

def valuesByRule (line : List Marked) (n : ℕ) : List Text :=
  (List.range (n - 1)).map (fun i => dequoteItems ((fields (role ifs) line)[i]?.getD [])) ++
    [lastByRule ifs (behind (role ifs) (n - 1) line)]

def ByRule (line : Text) (names : List String) : Prop :=
  readValues line ifs names = names.zip (valuesByRule ifs (markedChars line) names.length)

def core (line : List Marked) : List Marked := (dropWhite (role ifs) line).rdropWhile (isWhite (role ifs))

/-- No escaped white space at an end, and the line is not one field and a delimiter. -/
def PlainForOne (line : List Marked) : Prop :=
  ifs = [] ∨ ((∀ item ∈ (core ifs line).head?,isIfsWhitespace ifs item.1 = false) ∧
    (∀ item ∈ (core ifs line).getLast?,isIfsWhitespace ifs item.1 = false) ∧
    ¬(IsDelimiter ifs ((dropWhite (role ifs) line).dropWhile (isContent (role ifs))) ∧
      ∃ item ∈ (dropWhite (role ifs) line).dropWhile (isContent (role ifs)),role ifs item = .other))
end

section
variable {ifs : Text}

theorem isWhite_role (item : Marked) : isWhite (role ifs) item = unescapedWhite ifs item := by
  obtain ⟨c,escaped⟩ := item
  by_cases hc : c ∈ ifs <;> by_cases hs : isSpace c <;> cases escaped <;>
    simp [isWhite,role,unescapedWhite,isIfsWhitespace,hc,hs]

theorem isContent_role (item : Marked) : isContent (role ifs) item = (item.2 || !decide (item.1 ∈ ifs)) := by
  obtain ⟨c,escaped⟩ := item
  by_cases hc : c ∈ ifs <;> by_cases hs : isSpace c <;> cases escaped <;> simp [isContent,role,hc,hs]

theorem role_eq_other_iff (item : Marked) : role ifs item = .other ↔ (!item.2 && isIfsNonWhitespace ifs item.1) := by
  obtain ⟨c,escaped⟩ := item
  by_cases hc : c ∈ ifs <;> by_cases hs : isSpace c <;> cases escaped <;> simp [role,isIfsNonWhitespace,hc,hs]

theorem isWhite_role_eq : isWhite (role ifs) = unescapedWhite ifs := funext isWhite_role

theorem isContent_role_eq : isContent (role ifs) = fun item => item.2 || !decide (item.1 ∈ ifs) := funext isContent_role

theorem afterWord_eq (sep : List Marked) (hs : ∀ item ∈ sep.head?,isContent (role ifs) item = false) :
    afterWord ifs sep = dropDelimiter (role ifs) sep := by
  cases sep with
  | nil => rfl
  | cons sep rest =>
    have hc := hs sep rfl
    unfold dropDelimiter dropWhite
    rw [isWhite_role_eq]
    by_cases hw : unescapedWhite ifs sep
    · simp only [afterWord,dropWhile_cons_of_pos hw,if_pos hw,role_eq_other_iff]
      cases rest.dropWhile (unescapedWhite ifs) <;> rfl
    · have ho : role ifs sep = .other := by
        rw [← isWhite_role] at hw
        cases hr : role ifs sep <;> simp [isWhite,isContent,hr] at hw hc ⊢
      simp only [afterWord,dropWhile_cons_of_neg hw,if_neg hw,if_pos ho]

theorem getWordFromMarked_eq {chars : List Marked} (hw : dropWhite (role ifs) chars = chars) :
    (getWordFromMarked ifs chars).1.getD [] = dequoteItems (chars.takeWhile (isContent (role ifs))) ∧
      (getWordFromMarked ifs chars).2 = dropDelimiter (role ifs) (chars.dropWhile (isContent (role ifs))) := by
  have hs : chars.dropWhile (unescapedWhite ifs) = chars := by
    rw [← isWhite_role_eq]
    exact hw
  unfold getWordFromMarked
  rw [hs]
  by_cases hn : chars = []
  · subst hn
    exact ⟨rfl,rfl⟩
  · simp only [hn,if_false,← isContent_role_eq]
    refine ⟨rfl,afterWord_eq _ ?_⟩
    intro item hi
    have hno := List.head?_dropWhile_not (isContent (role ifs)) chars
    rw [Option.mem_def.mp hi] at hno
    simpa using hno

theorem getWordFromMarked_dropWhite (chars : List Marked) :
    getWordFromMarked ifs chars = getWordFromMarked ifs (dropWhite (role ifs) chars) := by
  unfold getWordFromMarked dropWhite
  rw [isWhite_role_eq,dropWhile_idempotent]
end

section
variable {ifs : Text} {line chars : List Marked}

theorem getWordFromMarked_behind (k : ℕ) (hc : dropWhite (role ifs) chars = behind (role ifs) k line) :
    (getWordFromMarked ifs chars).1.getD [] = dequoteItems ((fields (role ifs) line)[k]?.getD []) ∧
      (getWordFromMarked ifs chars).2 = behind (role ifs) (k + 1) line := by
  rw [getWordFromMarked_dropWhite,hc,getD_fields]
  exact getWordFromMarked_eq (dropWhite_behind (role ifs) k line)

theorem firstWords_eq (n k : ℕ) (hc : dropWhite (role ifs) chars = behind (role ifs) k line) :
    firstWords ifs (n + 1) chars = ((List.range (n + 1)).map (fun i => dequoteItems ((fields (role ifs) line)[k + i]?.getD [])),
      behind (role ifs) (k + n + 1) line) := by
  obtain ⟨hw,hr⟩ := getWordFromMarked_behind k hc
  induction n generalizing k chars with
  | zero => simp [firstWords,hw,hr]
  | succ n ih =>
    have hn : dropWhite (role ifs) (getWordFromMarked ifs chars).2 = behind (role ifs) (k + 1) line := by
      rw [hr]
      exact dropWhite_behind (role ifs) (k + 1) line
    obtain ⟨hw₁,hr₁⟩ := getWordFromMarked_behind (k + 1) hn
    have hm : (List.range (n + 1)).map (fun i => dequoteItems ((fields (role ifs) line)[k + 1 + i]?.getD [])) =
        (List.range (n + 1)).map ((fun i => dequoteItems ((fields (role ifs) line)[k + i]?.getD [])) ∘ Nat.succ) := by
      apply map_congr_left
      intro i _
      rw [Function.comp_apply,Nat.add_right_comm,Nat.add_assoc]
    rw [range_succ_eq_map,map_cons,map_map,← hm]
    simp only [firstWords.eq_2 ifs chars (n + 1),ih (k + 1) hn hw₁ hr₁,hw]
    rw [Nat.add_right_comm k 1 n,← Nat.add_assoc]
    rfl

theorem rdropWhile_content {l : List Marked} (h : ∀ item ∈ l,isContent (role ifs) item) :
    l.rdropWhile (isWhite (role ifs)) = l := by
  rw [rdropWhile_eq_self_iff]
  intro hl
  have hla := h _ (getLast_mem hl)
  simp only [isContent,decide_eq_true_eq] at hla
  simp [isWhite,hla]

theorem lastValue_eq {chars : List Marked} (h : dropWhite (role ifs) chars = chars) : lastValue ifs chars = lastByRule ifs chars := by
  obtain ⟨hw,hr⟩ := getWordFromMarked_eq h
  unfold lastValue lastByRule
  by_cases hn : chars = []
  · subst hn
    rfl
  · rw [if_neg hn]
    dsimp only
    rw [hw,hr]
    by_cases hs : chars.dropWhile (isContent (role ifs)) = []
    · -- a single field without a delimiter
      have ha := dropWhile_eq_nil_iff.mp hs
      have ht := takeWhile_eq_self_iff.mpr ha
      simp [IsDelimiter,hs,dropDelimiter,dropWhite,ht,rdropWhile_content ha]
    · unfold stripTrailingIfsWhitespaceItems IsDelimiter
      rw [isWhite_role_eq]
      simp [hs]

theorem behind_nil (line : List Marked) : behind (role []) 0 line = line ∧ ∀ n,behind (role []) (n + 1) line = [] := by
  have hc : ∀ item : Marked,isContent (role []) item := by simp [isContent_role]
  have hw : ∀ item : Marked,isWhite (role []) item = false := by simp [isWhite_role,unescapedWhite,isIfsWhitespace]
  have hz : behind (role []) 0 line = line := by
    cases line with
    | nil => rfl
    | cons item rest => exact dropWhile_cons_of_neg (by simp [hw])
  refine ⟨hz,fun n => ?_⟩
  have hd : ∀ l : List Marked,l.dropWhile (isContent (role [])) = [] :=
    fun l => dropWhile_eq_nil_iff.mpr fun item _ => hc item
  rw [behind,hd]
  rfl

theorem valuesByRule_nil (line : List Marked) (n : ℕ) :
    valuesByRule [] line (n + 1) = dequoteItems line :: List.replicate n [] := by
  obtain ⟨hz,hs⟩ := behind_nil line
  have ha : line.takeWhile (isContent (role [])) = line := takeWhile_eq_self_iff.mpr (by simp [isContent_role])
  have hn : line.dropWhile (isContent (role [])) = [] := dropWhile_eq_nil_iff.mpr (by simp [isContent_role])
  have hl : lastByRule [] [] = [] := by decide
  unfold valuesByRule
  simp only [getD_fields,Nat.add_sub_cancel]
  cases n with
  | zero =>
    have hst : line.rdropWhile (isWhite (role [])) = line := rdropWhile_content (by simp [isContent_role])
    simp [hz,lastByRule,IsDelimiter,hn,hst]
  | succ n =>
    rw [range_succ_eq_map,map_cons,map_map,hz,ha,hs,hl]
    simp only [Function.comp_def,Nat.succ_eq_add_one,hs,takeWhile_nil,cons_append]
    rw [map_const',length_range,replicate_succ']
    rfl

theorem splitReadVariablesMarked_eq (line : Text) (hp : shellStringToBytes ifs ≠ big5Alpha) (n : ℕ) :
    splitReadVariablesMarked line ifs (n + 2) = valuesByRule ifs (markedChars line) (n + 2) := by
  unfold splitReadVariablesMarked
  rw [if_neg (Nat.succ_ne_zero _),if_neg hp]
  by_cases hi : ifs = []
  · subst hi
    rw [if_pos (.inr rfl),if_pos rfl,valuesByRule_nil]
    rfl
  · have hm : ¬(n + 2 = 1 ∨ ifs = []) := by simp [hi]
    rw [if_neg hm,show n + 2 - 1 = n + 1 from rfl,firstWords_eq n 0 rfl]
    dsimp only
    rw [lastValue_eq (dropWhite_behind (role ifs) _ _)]
    simp [valuesByRule]
end

section
variable {ifs : Text} {p : Marked → Bool} {l white : List Marked}

def anyWhite (ifs : Text) (item : Marked) : Bool := isIfsWhitespace ifs item.1

theorem trim_eq (line : Text) : trimIfsWhitespaceMarked ifs line true =
    dequoteItems (((markedChars line).dropWhile (anyWhite ifs)).rdropWhile (anyWhite ifs)) := by
  simp only [trimIfsWhitespaceMarked,Bool.or_true,Bool.true_and]
  rfl

theorem anyWhite_of_isWhite {item : Marked} (h : isWhite (role ifs) item) : anyWhite ifs item := by
  rw [isWhite_role,unescapedWhite,Bool.and_eq_true] at h
  exact h.2

theorem dropWhile_dropWhite (l : List Marked) : (dropWhite (role ifs) l).dropWhile (anyWhite ifs) = l.dropWhile (anyWhite ifs) := by
  induction l with
  | nil => rfl
  | cons item rest ih =>
    by_cases h : isWhite (role ifs) item
    · rw [dropWhite,dropWhile_cons_of_pos h,dropWhile_cons_of_pos (anyWhite_of_isWhite h)]
      exact ih
    · rw [dropWhite,dropWhile_cons_of_neg h]

theorem rdropWhile_append_all (h : ∀ item ∈ white,p item) :
    (l ++ white).rdropWhile p = l.rdropWhile p := by
  have hr : ∀ item ∈ white.reverse,p item := by simpa using h
  rw [List.rdropWhile,reverse_append,dropWhile_append_of_pos hr]
  rfl

theorem dropWhile_append_all (h : ∀ item ∈ white,p item) :
    ((l ++ white).dropWhile p).rdropWhile p = (l.dropWhile p).rdropWhile p := by
  rw [dropWhile_append]
  split_ifs with hn
  · rw [isEmpty_iff.mp hn,dropWhile_eq_nil_iff.mpr h]
  · exact rdropWhile_append_all h

theorem trim_core (line : Text) : trimIfsWhitespaceMarked ifs line true =
    dequoteItems (((core ifs (markedChars line)).dropWhile (anyWhite ifs)).rdropWhile (anyWhite ifs)) := by
  rw [trim_eq,← dropWhile_dropWhite,core]
  generalize dropWhite (role ifs) (markedChars line) = rest
  conv_lhs => rw [← rdropWhile_append_rtakeWhile (p := isWhite (role ifs)) (l := rest)]
  rw [dropWhile_append_all fun item hi => anyWhite_of_isWhite (mem_rtakeWhile_imp hi)]

theorem dequote_trim_iff (l : List Marked) :
    dequoteItems ((l.dropWhile (anyWhite ifs)).rdropWhile (anyWhite ifs)) = dequoteItems l ↔
      (∀ item ∈ l.head?,anyWhite ifs item = false) ∧ ∀ item ∈ l.getLast?,anyWhite ifs item = false := by
  have hsu : ((l.dropWhile (anyWhite ifs)).rdropWhile (anyWhite ifs)).Sublist l :=
    (List.rdropWhile_prefix _ _).sublist.trans (dropWhile_sublist _)
  have hs : dequoteItems ((l.dropWhile (anyWhite ifs)).rdropWhile (anyWhite ifs)) = dequoteItems l ↔
      (l.dropWhile (anyWhite ifs)).rdropWhile (anyWhite ifs) = l := by
    constructor
    · intro h
      apply hsu.eq_of_length
      simpa [dequoteItems] using congrArg List.length h
    · intro h
      rw [h]
  rw [hs]
  constructor
  · intro h
    have hd : l.dropWhile (anyWhite ifs) = l := by
      apply (dropWhile_sublist _).eq_of_length_le
      have hle := (List.rdropWhile_prefix (anyWhite ifs) (l.dropWhile (anyWhite ifs))).length_le
      rwa [h] at hle
    rw [hd,rdropWhile_eq_self_iff] at h
    refine ⟨?_,?_⟩
    · intro item hi
      have hn := List.head?_dropWhile_not (anyWhite ifs) l
      rw [hd,Option.mem_def.mp hi] at hn
      simpa using hn
    · intro item hi
      obtain ⟨hl,rfl⟩ := mem_getLast?_eq_getLast hi
      simpa using h hl
  · rintro ⟨hh,hla⟩
    have hd : l.dropWhile (anyWhite ifs) = l := by
      cases l with
      | nil => rfl
      | cons item rest => exact dropWhile_cons_of_neg (by simp [hh item rfl])
    rw [hd,rdropWhile_eq_self_iff]
    intro hl
    simp [hla _ (List.getLast?_eq_some_getLast hl)]

theorem isDelimiter_cases {d : List Marked} (h : IsDelimiter ifs d) :
    (∀ item ∈ d,isWhite (role ifs) item) ∨
      ∃ white x more,d = white ++ x :: more ∧ role ifs x = .other ∧ ∀ item ∈ more,isWhite (role ifs) item := by
  have hdr := h.2
  unfold dropDelimiter at hdr
  cases hd : dropWhite (role ifs) d with
  | nil => exact .inl (dropWhile_eq_nil_iff.mp hd)
  | cons x more =>
    rw [hd] at hdr
    by_cases hx : role ifs x = .other
    · simp only [hx,if_true] at hdr
      refine .inr ⟨d.takeWhile (isWhite (role ifs)),x,more,?_,hx,dropWhile_eq_nil_iff.mp hdr⟩
      rw [← hd]
      exact takeWhile_append_dropWhile.symm
    · simp [hx] at hdr

theorem dequote_trim_ne {field mid : List Marked} {x : Marked} (hx : anyWhite ifs x = false) :
    dequoteItems (((field ++ mid ++ [x]).dropWhile (anyWhite ifs)).rdropWhile (anyWhite ifs)) ≠ dequoteItems field := by
  have hn : ¬anyWhite ifs x := by simp [hx]
  have hd : (field ++ mid ++ [x]).dropWhile (anyWhite ifs) = (field ++ mid).dropWhile (anyWhite ifs) ++ [x] := by
    rw [dropWhile_append]
    split_ifs with hni
    · rw [isEmpty_iff.mp hni,dropWhile_cons_of_neg hn,nil_append]
    · rfl
  rw [hd,rdropWhile_concat_neg _ _ _ hn,← hd]
  intro h
  have hk := List.head?_dropWhile_not (anyWhite ifs) (field ++ mid ++ [x])
  have hh := congrArg List.head? h
  cases field with
  | nil =>
    rw [hd] at h
    simp [dequoteItems] at h
  | cons f rest =>
    by_cases hf : anyWhite ifs f
    · -- the first character that is kept is not white, but the field's first is
      obtain ⟨y,hy,hyf⟩ := Option.map_eq_some_iff.mp (List.head?_map.symm.trans hh)
      rw [hy] at hk
      unfold anyWhite at hk hf
      simp [hyf,hf] at hk
    · have hl := congrArg List.length h
      rw [cons_append,cons_append,dropWhile_cons_of_neg hf] at hl
      simp [dequoteItems] at hl

theorem trim_eq_lastByRule_iff (line : Text) :
    trimIfsWhitespaceMarked ifs line true = lastByRule ifs (dropWhite (role ifs) (markedChars line)) ↔
      (∀ item ∈ (core ifs (markedChars line)).head?,isIfsWhitespace ifs item.1 = false) ∧
      (∀ item ∈ (core ifs (markedChars line)).getLast?,isIfsWhitespace ifs item.1 = false) ∧
      ¬(IsDelimiter ifs ((dropWhite (role ifs) (markedChars line)).dropWhile (isContent (role ifs))) ∧
        ∃ item ∈ (dropWhite (role ifs) (markedChars line)).dropWhile (isContent (role ifs)),role ifs item = .other) := by
  rw [trim_core]
  unfold core lastByRule
  generalize dropWhite (role ifs) (markedChars line) = rest
  have hs : rest = rest.takeWhile (isContent (role ifs)) ++ rest.dropWhile (isContent (role ifs)) :=
    takeWhile_append_dropWhile.symm
  have hf : (rest.takeWhile (isContent (role ifs))).rdropWhile (isWhite (role ifs)) = rest.takeWhile (isContent (role ifs)) :=
    rdropWhile_content fun item hi => mem_takeWhile_imp hi
  by_cases hd : IsDelimiter ifs (rest.dropWhile (isContent (role ifs)))
  · rw [if_pos hd]
    rcases isDelimiter_cases hd with hw | ⟨white,x,more,hp,hx,hm⟩
    · have hc : rest.rdropWhile (isWhite (role ifs)) = rest.takeWhile (isContent (role ifs)) := by
        conv_lhs => rw [hs]
        rw [rdropWhile_append_all hw,hf]
      have hno : ¬∃ item ∈ rest.dropWhile (isContent (role ifs)),role ifs item = .other := by
        rintro ⟨item,hi,ho⟩
        simpa [isWhite,ho] using hw item hi
      rw [hc,dequote_trim_iff]
      simp only [hno,and_false,not_false_eq_true,and_true]
      rfl
    · have hn : ¬isWhite (role ifs) x := by simp [isWhite,hx]
      have hc : rest.rdropWhile (isWhite (role ifs)) = rest.takeWhile (isContent (role ifs)) ++ white ++ [x] := by
        conv_lhs => rw [hs,hp]
        rw [← append_assoc,append_cons,rdropWhile_append_all hm,rdropWhile_concat_neg _ _ _ hn]
      have hme : ∃ item ∈ rest.dropWhile (isContent (role ifs)),role ifs item = .other := ⟨x,by simp [hp],hx⟩
      have hxw : anyWhite ifs x = false := by
        have ho := (role_eq_other_iff x).mp hx
        simp only [isIfsNonWhitespace,Bool.and_eq_true,Bool.not_eq_true'] at ho
        simp [anyWhite,isIfsWhitespace,ho.2.2]
      rw [hc]
      simp only [hd,hme,and_self,not_true_eq_false,and_false,iff_false]
      exact dequote_trim_ne hxw
  · rw [if_neg hd,dequote_trim_iff]
    simp only [hd,false_and,not_false_eq_true,and_true]
    rfl
end

theorem charToBytes_ne_nil (c : Char) : charToBytes c ≠ [] := by
  unfold charToBytes
  split_ifs
  · simp
  · exact fun h => absurd (congrArg List.length h) (Nat.ne_of_gt (String.length_utf8EncodeChar c ▸ c.utf8Size_pos))

theorem charToBytes_ne_big5Alpha (c : Char) : charToBytes c ≠ big5Alpha := by
  unfold charToBytes
  split_ifs
  · simp [big5Alpha]
  · intro h
    have hv : fromUtf8 big5Alpha = .ok [c] := by
      rw [← h]
      simpa [encode] using fromUtf8_encode [c]
    have hi : (fromUtf8 big5Alpha).toOption = none := by decide
    rw [hv] at hi
    cases hi

theorem big5_pair {ifs : Text} (h : shellStringToBytes ifs = big5Alpha) :
    ∃ a b,ifs = [a,b] ∧ charToBytes a = [0xa3] ∧ charToBytes b = [0x5c] := by
  cases ifs with
  | nil => simp [shellStringToBytes,big5Alpha] at h
  | cons a rest =>
    change charToBytes a ++ shellStringToBytes rest = [0xa3,0x5c] at h
    rcases append_eq_cons_iff.mp h with ⟨ha,_⟩ | ⟨bytes,ha,hr⟩
    · exact absurd ha (charToBytes_ne_nil a)
    · rcases singleton_eq_append_iff.mp hr with ⟨rfl,hb⟩ | ⟨rfl,_⟩
      · cases rest with
        | nil => simp [shellStringToBytes] at hb
        | cons b more =>
          rcases append_eq_singleton_iff.mp hb with ⟨hn,_⟩ | ⟨hby,hm⟩
          · exact absurd hn (charToBytes_ne_nil b)
          · cases more with
            | nil => exact ⟨a,b,rfl,ha,hby⟩
            | cons c more => exact absurd (append_eq_nil_iff.mp hm).1 (charToBytes_ne_nil c)
      · exact absurd ha (charToBytes_ne_big5Alpha a)

theorem byRule_one_iff (ifs line : Text) (name : String) : ByRule ifs line [name] ↔ PlainForOne ifs (markedChars line) := by
  have hv : valuesByRule ifs (markedChars line) 1 = [lastByRule ifs (dropWhite (role ifs) (markedChars line))] := rfl
  unfold ByRule PlainForOne readValues
  rw [length_singleton,hv]
  by_cases hi : ifs = []
  · subst hi
    have hn := valuesByRule_nil (markedChars line) 0
    rw [hv] at hn
    simp [singleton_inj.mp hn,dequoteMarked]
  · simp only [hi,if_false,zip_cons_cons,zip_nil_left,List.cons.injEq,Prod.mk.injEq,true_and,and_true,false_or]
    exact trim_eq_lastByRule_iff line

theorem not_byRule_pair {ifs : Text} (h : shellStringToBytes ifs = big5Alpha) (name second : String) (more : List String) :
    ∃ line,¬ByRule ifs line (name :: second :: more) := by
  obtain ⟨a,b,rfl,ha,hb⟩ := big5_pair h
  have hne : ∀ {c c' : Char},charToBytes c ≠ charToBytes c' → c ≠ c' := by
    rintro c _ hby rfl
    exact hby rfl
  have hax : 'x' ≠ a := hne (by rw [ha]; decide)
  have hbx : 'x' ≠ b := hne (by rw [hb]; decide)
  have hm : b ≠ escapedChar := hne (by rw [hb]; decide)
  have hsp : isSpace b = false := by
    unfold isSpace
    simp only [mem_cons,not_mem_nil,or_false,decide_eq_false_iff_not,not_or]
    refine ⟨?_,?_,?_,?_,?_,?_⟩ <;> exact hne (by rw [hb]; decide)
  have hl : markedChars ['x',b,'y'] = [('x',false),(b,false),('y',false)] := by
    have hx : 'x' ≠ escapedChar := by decide
    have hy : 'y' ≠ escapedChar := by decide
    simp [markedChars,hx,hm,hy]
  have hby : shellStringToBytes (dequoteMarked ['x',b,'y']) = [0x78,0x5c,0x79] := by
    rw [dequoteMarked,hl]
    change charToBytes 'x' ++ (charToBytes b ++ (charToBytes 'y' ++ [])) = _
    rw [hb]
    decide
  have hc : ∃ values,splitReadVariablesMarked ['x',b,'y'] [a,b] (more.length + 2) = ['x','\\','y'] :: values := by
    unfold splitReadVariablesMarked splitReadVariablesBytes
    rw [if_neg (Nat.succ_ne_zero _),if_pos h,hby]
    have hcu : cutAt big5Alpha [0x78,0x5c,0x79] = none := by decide
    have ht : bytesToShellString [0x78,0x5c,0x79] = ['x','\\','y'] := by decide
    exact ⟨_,by rw [show more.length + 2 - 1 = more.length + 1 from rfl,splitBytes,hcu,ht]⟩
  have hs : ∃ values,valuesByRule [a,b] (markedChars ['x',b,'y']) (more.length + 2) = ['x'] :: values := by
    have hf : (behind (role [a,b]) 0 (markedChars ['x',b,'y'])).takeWhile (isContent (role [a,b])) = [('x',false)] := by
      rw [hl]
      simp [behind,dropWhite,isWhite,isContent,role,hax,hbx,hsp]
    unfold valuesByRule
    rw [show more.length + 2 - 1 = more.length + 1 from rfl,range_succ_eq_map,map_cons,getD_fields,hf]
    exact ⟨_,rfl⟩
  obtain ⟨codeRest,hc⟩ := hc
  obtain ⟨specRest,hs⟩ := hs
  refine ⟨['x',b,'y'],fun hr => ?_⟩
  unfold ByRule readValues at hr
  simp only [length_cons] at hr
  rw [hc,hs,zip_cons_cons,zip_cons_cons] at hr
  simp at hr

theorem byRule_several_iff (ifs : Text) (name second : String) (more : List String) :
    (∀ line,ByRule ifs line (name :: second :: more)) ↔ shellStringToBytes ifs ≠ big5Alpha := by
  constructor
  · intro ha hp
    obtain ⟨line,hl⟩ := not_byRule_pair hp name second more
    exact hl (ha line)
  · intro hp line
    unfold ByRule readValues
    dsimp only
    rw [length_cons,length_cons,splitReadVariablesMarked_eq line hp]

/-- One name follows the rule on the plain lines, several names follow it on every line, but for
one value of `IFS`. -/
theorem read_by_rule_iff (ifs : Text) (name second : String) (more : List String) :
    (∀ line,ByRule ifs line [name] ↔ PlainForOne ifs (markedChars line)) ∧
      ((∀ line,ByRule ifs line (name :: second :: more)) ↔ shellStringToBytes ifs ≠ big5Alpha) :=
  ⟨fun line => byRule_one_iff ifs line name,byRule_several_iff ifs name second more⟩

/-- `IFS=: read x` of the line `a:` keeps the delimiter, and an escaped blank is trimmed. -/
theorem one_name_keeps_delimiter :
    ¬ByRule [':'] ['a',':'] ["x"] ∧ ¬ByRule [' '] ['a',escapedChar,' '] ["x"] := by
  unfold ByRule
  decide
end Cherubsh.Builtins.Read
