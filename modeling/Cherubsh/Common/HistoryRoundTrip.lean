import Cherubsh.Common.HistoryHeuristics

/-! # A history file read back

A physical line adds at most one text, and one that does anything else leaves a newline in a text
for good.
-/
namespace Cherubsh.Common
open HistoryTable HistoryEntry LoadState List

/-- A timestamp line: `#`, an optional plus sign, and a number of 64 bits in decimal. -/
def IsStamp (line : Text) : Prop :=
  ∃ sign digits, line = '#' :: (sign ++ digits) ∧ (sign = [] ∨ sign = ['+']) ∧ digits ≠ [] ∧
    (∀ c ∈ digits, c.isDigit) ∧ Nat.ofDigitChars 10 digits 0 < 2 ^ 64

theorem parseU64_isSome_iff (s : Text) : (parseU64 s).isSome ↔
    ∃ sign digits, s = sign ++ digits ∧ (sign = [] ∨ sign = ['+']) ∧ digits ≠ [] ∧
      (∀ c ∈ digits, c.isDigit) ∧ Nat.ofDigitChars 10 digits 0 < 2 ^ 64 := by
  have hn : ∀ digits : Text, (if digits = [] ∨ ¬digits.all Char.isDigit then none
      else
        let n := digits.foldl (fun n ch => 10 * n + (ch.toNat - '0'.toNat)) 0
        if n < 2 ^ 64 then some n else none : Option ℕ).isSome ↔
      digits ≠ [] ∧ (∀ c ∈ digits, c.isDigit) ∧ Nat.ofDigitChars 10 digits 0 < 2 ^ 64 := by
    intro digits
    rw [Nat.ofDigitChars_eq_foldl,← all_eq_true]
    split
    · rename_i hb
      exact iff_of_false (by simp) fun h => hb.elim h.1 fun ha => ha h.2.1
    · rename_i hg
      push Not at hg
      dsimp only
      split
      · exact iff_of_true rfl ⟨hg.1,hg.2,‹_›⟩
      · exact iff_of_false (by simp) fun h => absurd h.2.2 ‹_›
  unfold parseU64
  split
  · rename_i rest
    refine (hn rest).trans ⟨fun h => ⟨['+'],rest,rfl,.inr rfl,h⟩,?_⟩
    rintro ⟨sign,digits,heq,rfl | rfl,h⟩
    · exact absurd (h.2.1 '+' (by rw [← show _ = digits from heq]; exact mem_cons_self)) (by decide)
    · cases heq
      exact h
  · rename_i hp
    refine (hn s).trans ⟨fun h => ⟨[],s,rfl,.inl rfl,h⟩,?_⟩
    rintro ⟨sign,digits,heq,rfl | rfl,h⟩
    · cases heq
      exact h
    · exact (hp digits heq).elim

theorem timestampLine_isSome_iff (line : Text) : (timestampLine line).isSome ↔ IsStamp line := by
  unfold timestampLine IsStamp
  split
  · rw [parseU64_isSome_iff]
    simp
  · rename_i hh
    refine iff_of_false (by simp) ?_
    rintro ⟨sign,digits,heq,-⟩
    exact hh _ heq

theorem isStamp_toString {ts : ℕ} (h : ts < 2 ^ 64) : IsStamp ('#' :: (toString ts).toList) := by
  have hd : (toString ts).toList = Nat.toDigits 10 ts := by
    simp [toString,Nat.repr]
  refine ⟨[],Nat.toDigits 10 ts,by rw [hd]; rfl,.inl rfl,Nat.toDigits_ne_nil,?_,?_⟩
  · exact fun c hc => Nat.isDigit_of_mem_toDigits (by decide) (by decide) hc
  · rwa [Nat.ofDigitChars_toDigits (by decide) (by decide)]

theorem IsStamp.not_mem_newline {line : Text} (h : IsStamp line) : '\n' ∉ line := by
  obtain ⟨sign,digits,rfl,hs,-,hd,-⟩ := h
  have hm : '\n' ∉ digits := fun hm => absurd (hd _ hm) (by decide)
  rcases hs with rfl | rfl <;> simpa using hm

theorem IsStamp.strip {line : Text} (h : IsStamp line) : stripCarriageReturn line = line := by
  obtain ⟨sign,digits,rfl,-,hne,hd,-⟩ := h
  unfold stripCarriageReturn
  rw [if_neg]
  intro hl
  rw [← cons_append,List.getLast?_append_of_ne_nil _ hne] at hl
  exact absurd (hd _ (mem_of_getLast? hl)) (by decide)

section
def LoadState.texts (s : LoadState) : List Text :=
  s.entries.map line ++ if s.entry = [] then [] else [s.entry]

def Merged (texts : List Text) : Prop := ∃ text ∈ texts, '\n' ∈ text

def Grows (texts texts' : List Text) : Prop := texts <+: texts' ∨ Merged texts'

theorem Grows.merged {texts texts' : List Text} (hg : Grows texts texts') (h : Merged texts) : Merged texts' := by
  rcases hg with hp | h'
  · obtain ⟨text,hm,hn⟩ := h
    exact ⟨text,hp.subset hm,hn⟩
  · exact h'

theorem Grows.trans {a b c : List Text} (hab : Grows a b) (hbc : Grows b c) : Grows a c := by
  rcases hab with hp | hm
  · exact hbc.imp hp.trans id
  · exact .inr (hbc.merged hm)

theorem texts_flushEntry {s : LoadState} (h : s.entry ≠ []) :
    (flushEntry s).texts = s.entries.map line ++ [s.entry] := by
  unfold flushEntry texts
  split
  · simp
  · simp

theorem length_pushNewline (entries : List HistoryEntry) : (pushNewline entries).length = entries.length := by
  fun_induction pushNewline entries <;> simp_all

theorem merged_pushNewline {entries : List HistoryEntry} (h : entries ≠ []) :
    Merged ((pushNewline entries).map line) := by
  fun_induction pushNewline entries with
  | case1 => exact absurd rfl h
  | case2 e => exact ⟨e.line ++ ['\n'],by simp,by simp⟩
  | case3 e es hes ih =>
    obtain ⟨text,hm,hn⟩ := ih (by rintro rfl; exact hes rfl)
    exact ⟨text,mem_cons_of_mem _ hm,hn⟩

variable {s : LoadState} {line : Text}

theorem texts_loadLine_blank (h : s.entry = []) :
    (loadLine s []).texts.length = s.texts.length ∧ ((loadLine s []).texts = s.texts ∨ Merged (loadLine s []).texts) := by
  unfold loadLine
  rw [if_pos ⟨h,rfl⟩]
  split
  · simp only [texts,h]
    refine ⟨by simp [length_pushNewline],?_⟩
    by_cases hn : s.entries = []
    · exact .inl (by rw [hn]; rfl)
    · exact .inr (by simpa using merged_pushNewline hn)
  · exact ⟨rfl,.inl rfl⟩

theorem loadLine_stamp (h : s.entry = []) (hs : IsStamp line) :
    (loadLine s line).texts = s.texts ∧ (loadLine s line).entry = [] := by
  obtain ⟨ts,hts⟩ := Option.isSome_iff_exists.mp ((timestampLine_isSome_iff line).mpr hs)
  have hne : line ≠ [] := by
    obtain ⟨_,_,rfl,-⟩ := hs
    exact cons_ne_nil _ _
  unfold loadLine
  rw [if_neg fun hb => hne hb.2,if_pos h,hts]
  exact ⟨rfl,h⟩

theorem loadLine_fresh (h : s.entry = []) (hne : line ≠ []) (hs : ¬IsStamp line) :
    (loadLine s line).texts = s.texts ++ [line] ∧
      (loadLine s line).entry = if historyEntryComplete line then [] else line := by
  have hn : timestampLine line = none := by
    rw [← timestampLine_isSome_iff] at hs
    simpa using hs
  unfold loadLine
  rw [if_neg fun hb => hne hb.2,if_pos h,hn]
  constructor
  · rw [texts_flushEntry hne]
    simp [texts,h]
  · simp only [flushEntry]
    split <;> rfl

theorem texts_loadLine_continued (h : s.entry ≠ []) :
    (loadLine s line).texts = s.entries.map HistoryEntry.line ++ [s.entry ++ '\n' :: line] := by
  unfold loadLine
  rw [if_neg fun hb => h hb.1,if_neg h,texts_flushEntry (by simp)]

theorem texts_loadLine (s : LoadState) (line : Text) :
    (loadLine s line).texts.length ≤ s.texts.length + 1 ∧
      Grows s.texts (loadLine s line).texts := by
  by_cases hen : s.entry = []
  · by_cases hb : line = []
    · subst hb
      obtain ⟨hl,h⟩ := texts_loadLine_blank hen
      exact ⟨by omega,h.imp (fun h => ⟨[],by rw [h,append_nil]⟩) id⟩
    by_cases hs : IsStamp line
    · rw [(loadLine_stamp hen hs).1]
      exact ⟨Nat.le_succ _,.inl (prefix_refl _)⟩
    · rw [(loadLine_fresh hen hb hs).1]
      exact ⟨by simp,.inl (prefix_append _ _)⟩
  · rw [texts_loadLine_continued hen]
    exact ⟨by simp [texts,hen],.inr ⟨_,mem_append_right _ mem_cons_self,by simp⟩⟩
end

section
/-- An entry of one line with a timestamp that fits its type. -/
structure HistoryEntry.OneLine (e : HistoryEntry) : Prop where
  nonempty : e.line ≠ []
  newlineFree : '\n' ∉ e.line
  stamped : ∀ ts ∈ e.timestamp, ts < 2 ^ 64

@[mk_iff]
structure Survives (line : Text) : Prop where
  noReturn : line.getLast? ≠ some '\r'
  noStamp : ¬IsStamp line

@[mk_iff]
structure Finished (line : Text) : Prop where
  quoted : WellQuoted line
  noHereDoc : ¬Announces line

def loadEntry (withTimestamps : Bool) (s : LoadState) (e : HistoryEntry) : LoadState :=
  ((entryLines withTimestamps e).map stripCarriageReturn).foldl loadLine s

section
variable (withTimestamps : Bool) {e : HistoryEntry} (he : e.OneLine) {s : LoadState}
include he

theorem entryLines_eq :
    entryLines withTimestamps e = [e.line] ∨ ∃ stamp, IsStamp stamp ∧ entryLines withTimestamps e = [stamp,e.line] := by
  unfold entryLines
  split
  · cases hts : e.timestamp with
    | none => exact .inl rfl
    | some ts => exact .inr ⟨_,isStamp_toString (he.stamped ts hts),rfl⟩
  · exact .inl rfl

theorem loadEntry_eq (s : LoadState) :
    ∃ s', loadEntry withTimestamps s e = loadLine s' (stripCarriageReturn e.line) ∧
      s'.texts.length = s.texts.length ∧ Grows s.texts s'.texts ∧
      (s.entry = [] → s'.texts = s.texts ∧ s'.entry = []) ∧ (s.entry ≠ [] → s'.entry ≠ [] ∨ Merged s'.texts) := by
  unfold loadEntry
  rcases entryLines_eq withTimestamps he with h | ⟨stamp,hs,h⟩
  · rw [h]
    exact ⟨s,rfl,rfl,.inl (prefix_refl _),fun hen => ⟨rfl,hen⟩,.inl⟩
  · rw [h]
    refine ⟨loadLine s stamp,?_,?_,(texts_loadLine s stamp).2,fun hen => loadLine_stamp hen hs,?_⟩
    · rw [map_cons,hs.strip]
      rfl
    · by_cases hen : s.entry = []
      · rw [(loadLine_stamp hen hs).1]
      · rw [texts_loadLine_continued hen]
        simp [texts,hen]
    · intro hen
      rw [texts_loadLine_continued hen]
      exact .inr ⟨_,mem_append_right _ mem_cons_self,by simp⟩

theorem texts_loadEntry : (loadEntry withTimestamps s e).texts.length ≤ s.texts.length + 1 ∧
    Grows s.texts (loadEntry withTimestamps s e).texts := by
  obtain ⟨s',heq,hl,hg,-⟩ := loadEntry_eq withTimestamps he s
  obtain ⟨hli,hg'⟩ := texts_loadLine s' (stripCarriageReturn e.line)
  rw [heq,← hl]
  exact ⟨hli,hg.trans hg'⟩

theorem merged_loadEntry (h : s.entry ≠ []) : Merged (loadEntry withTimestamps s e).texts := by
  obtain ⟨s',heq,-,-,-,ho⟩ := loadEntry_eq withTimestamps he s
  rw [heq]
  rcases ho h with hen | hm
  · rw [texts_loadLine_continued hen]
    exact ⟨_,mem_append_right _ mem_cons_self,by simp⟩
  · exact (texts_loadLine _ _).2.merged hm

omit he in
theorem stripCarriageReturn_eq_iff {line : Text} (hne : line ≠ []) :
    stripCarriageReturn line = line ↔ line.getLast? ≠ some '\r' := by
  unfold stripCarriageReturn
  split
  · rename_i hl
    refine iff_of_false (fun h => ?_) (fun h => h hl)
    have hle := congrArg List.length h
    have hp := length_pos_iff.mpr hne
    rw [length_dropLast] at hle
    omega
  · rename_i hl
    exact iff_of_true rfl hl

theorem texts_loadEntry_iff (h : s.entry = []) :
    (loadEntry withTimestamps s e).texts = s.texts ++ [e.line] ↔ Survives e.line := by
  obtain ⟨s',heq,-,-,hr,-⟩ := loadEntry_eq withTimestamps he s
  obtain ⟨ht,hen⟩ := hr h
  rw [heq,← ht]
  have hsh : ∀ texts : List Text, texts.length = s'.texts.length → texts ≠ s'.texts ++ [e.line] := by
    rintro texts hl rfl
    simp at hl
  by_cases hst : stripCarriageReturn e.line = e.line
  · have hla := (stripCarriageReturn_eq_iff he.nonempty).mp hst
    rw [hst]
    by_cases hs : IsStamp e.line
    · rw [(loadLine_stamp hen hs).1]
      exact iff_of_false (hsh _ rfl) fun hsu => hsu.noStamp hs
    · exact iff_of_true (loadLine_fresh hen he.nonempty hs).1 ⟨hla,hs⟩
  · refine iff_of_false ?_ fun hsu => hst ((stripCarriageReturn_eq_iff he.nonempty).mpr hsu.noReturn)
    by_cases hb : stripCarriageReturn e.line = []
    · rw [hb]
      exact hsh _ (texts_loadLine_blank hen).1
    by_cases hs : IsStamp (stripCarriageReturn e.line)
    · rw [(loadLine_stamp hen hs).1]
      exact hsh _ rfl
    · rw [(loadLine_fresh hen hb hs).1]
      intro hsa
      exact hst (List.cons.inj (append_cancel_left hsa)).1

theorem entry_loadEntry (h : s.entry = []) (hs : Survives e.line) :
    (loadEntry withTimestamps s e).entry = [] ↔ Finished e.line := by
  obtain ⟨s',heq,-,-,hr,-⟩ := loadEntry_eq withTimestamps he s
  rw [heq,(stripCarriageReturn_eq_iff he.nonempty).mpr hs.noReturn,
    (loadLine_fresh (hr h).2 he.nonempty hs.noStamp).2]
  rw [finished_iff,← historyEntryComplete_iff he.nonempty he.newlineFree]
  split
  · rename_i hd
    exact iff_of_true rfl hd
  · rename_i hd
    exact iff_of_false he.nonempty hd

end

variable {withTimestamps : Bool} {e : HistoryEntry} {s : LoadState} {entries : List HistoryEntry}

theorem texts_foldl (withTimestamps : Bool) (hl : ∀ e ∈ entries, e.OneLine) (s : LoadState) :
    (entries.foldl (loadEntry withTimestamps) s).texts.length ≤ s.texts.length + entries.length ∧
      Grows s.texts (entries.foldl (loadEntry withTimestamps) s).texts := by
  induction entries generalizing s with
  | nil => exact ⟨le_rfl,.inl (prefix_refl _)⟩
  | cons e entries ih =>
    obtain ⟨hs,hg⟩ := @texts_loadEntry withTimestamps e (hl e mem_cons_self) s
    obtain ⟨hr,hg'⟩ := ih (fun e he => hl e (mem_cons_of_mem _ he)) (loadEntry withTimestamps s e)
    rw [foldl_cons,length_cons]
    exact ⟨by omega,hg.trans hg'⟩

theorem not_merged_append {texts : List Text} (hc : ¬Merged texts) (hl : ∀ e ∈ entries, e.OneLine) :
    ¬Merged (texts ++ entries.map line) := by
  rintro ⟨text,hm,hn⟩
  rcases mem_append.mp hm with hm | hm
  · exact hc ⟨text,hm,hn⟩
  · obtain ⟨e,he,rfl⟩ := mem_map.mp hm
    exact (hl e he).newlineFree hn

theorem survives_of_texts_foldl (hli : ∀ e' ∈ e :: entries, e'.OneLine) (hen : s.entry = []) (hc : ¬Merged s.texts)
    (h : ((e :: entries).foldl (loadEntry withTimestamps) s).texts = s.texts ++ (e :: entries).map line) :
    Survives e.line := by
  have he := hli e mem_cons_self
  have hr : ∀ e' ∈ entries, e'.OneLine := fun e' he' => hli e' (mem_cons_of_mem _ he')
  rw [foldl_cons] at h
  obtain ⟨hlo,hg⟩ := texts_foldl withTimestamps hr (loadEntry withTimestamps s e)
  have hp : (loadEntry withTimestamps s e).texts <+: s.texts ++ (e :: entries).map line := by
    rcases hg with hp | hm
    · rwa [h] at hp
    · rw [h] at hm
      exact absurd hm (not_merged_append hc hli)
  have hl : (loadEntry withTimestamps s e).texts.length = s.texts.length + 1 := by
    have hu := (@texts_loadEntry withTimestamps e he s).1
    rw [h,length_append,length_map,length_cons] at hlo
    omega
  rw [← texts_loadEntry_iff withTimestamps he hen]
  have hf : s.texts ++ [e.line] <+: s.texts ++ (e :: entries).map line :=
    ⟨entries.map line,by simp⟩
  have hl' : (s.texts ++ [e.line]).length = (loadEntry withTimestamps s e).texts.length := by
    rw [hl,length_append,length_singleton]
  exact (prefix_of_prefix_length_le hp hf hl'.ge).eq_of_length hl'.symm

theorem texts_foldl_iff (hl : ∀ e ∈ entries, e.OneLine) (hen : s.entry = []) (hc : ¬Merged s.texts) :
    (entries.foldl (loadEntry withTimestamps) s).texts = s.texts ++ entries.map line ↔
      (∀ e ∈ entries, Survives e.line) ∧ ∀ e ∈ entries.dropLast, Finished e.line := by
  induction entries generalizing s with
  | nil => simp
  | cons e entries ih =>
    have he := hl e mem_cons_self
    have hr : ∀ e ∈ entries, e.OneLine := fun e he => hl e (mem_cons_of_mem _ he)
    by_cases hs : Survives e.line
    · have hst := (texts_loadEntry_iff withTimestamps he hen).mpr hs
      have ho := entry_loadEntry withTimestamps he hen hs
      have hc' : ¬Merged (loadEntry withTimestamps s e).texts := by
        rw [hst]
        exact @not_merged_append [e] _ hc (by simpa using he)
      have ht : s.texts ++ (e :: entries).map line =
          (loadEntry withTimestamps s e).texts ++ entries.map line := by
        rw [hst]
        simp
      rw [foldl_cons,ht]
      cases entries with
      | nil => simpa using hs
      | cons e' entries =>
        rw [dropLast_cons_cons,forall_mem_cons,forall_mem_cons (a := e)]
        by_cases hf : Finished e.line
        · rw [ih hr (ho.mpr hf) hc']
          exact ⟨fun h => ⟨⟨hs,h.1⟩,hf,h.2⟩,fun h => ⟨h.1.2,h.2.2⟩⟩
        · -- the entry stays open and the next line goes into it
          refine iff_of_false (fun h => ?_) fun h => hf h.2.1
          have hm := merged_loadEntry withTimestamps (hr e' mem_cons_self)
            fun hcl => hf (ho.mp hcl)
          have hg := (texts_foldl withTimestamps (fun e he => hr e (mem_cons_of_mem _ he))
            (loadEntry withTimestamps (loadEntry withTimestamps s e) e')).2
          rw [foldl_cons] at h
          exact not_merged_append hc' hr (h ▸ hg.merged hm)
    · exact iff_of_false (fun h => hs (survives_of_texts_foldl hl hen hc h))
        fun h => hs (h.1 e mem_cons_self)
end

theorem linesFrom_append {line : Text} (hl : '\n' ∉ line) (begun rest : Text) :
    linesFrom begun (line ++ '\n' :: rest) = stripCarriageReturn (begun ++ line) :: linesFrom [] rest := by
  induction line generalizing begun with
  | nil => simp [linesFrom]
  | cons c line ih =>
    rw [mem_cons,not_or] at hl
    rw [cons_append,linesFrom.eq_3 _ _ _ fun h => hl.1 h.symm,ih hl.2]
    simp

theorem linesFrom_flatMap {lines : List Text} (hl : ∀ line ∈ lines, '\n' ∉ line) :
    linesFrom [] (lines.flatMap (· ++ ['\n'])) = lines.map stripCarriageReturn := by
  induction lines with
  | nil => rfl
  | cons line lines ih =>
    rw [flatMap_cons,append_assoc,singleton_append,linesFrom_append (hl line mem_cons_self),
      ih fun line hli => hl line (mem_cons_of_mem _ hli)]
    rfl

theorem loadLines_some (s : LoadState) (lines : List Text) :
    loadLines s (lines.map some) = (true,lines.foldl loadLine s) := by
  induction lines generalizing s with
  | nil => rfl
  | cons line lines ih => exact ih _

theorem entryLines_newlineFree {withTimestamps : Bool} {e : HistoryEntry} (he : e.OneLine) :
    ∀ line ∈ entryLines withTimestamps e, '\n' ∉ line := by
  rcases entryLines_eq withTimestamps he with h | ⟨stamp,hs,h⟩
  · simpa [h] using he.newlineFree
  · simpa [h] using ⟨hs.not_mem_newline,he.newlineFree⟩

theorem linesFrom_writeTo {t : HistoryTable} {maxSize : ℕ} {withTimestamps : Bool}
    (hl : ∀ e ∈ t.entries, e.OneLine) (s : LoadState) :
    (linesFrom [] (t.writeTo maxSize withTimestamps)).foldl loadLine s =
      (t.entries.drop (t.entries.length - maxSize)).foldl (loadEntry withTimestamps) s := by
  unfold writeTo
  rw [← flatMap_assoc,linesFrom_flatMap,map_flatMap,foldl_flatMap]
  · rfl
  · intro line hli
    obtain ⟨e,he,hm⟩ := mem_flatMap.mp hli
    exact entryLines_newlineFree (hl e (mem_of_mem_drop he)) line hm

theorem loadFrom_holding {empty : HistoryTable} (hem : empty.entries = []) (text : Text) :
    let texts := ((linesFrom [] text).foldl loadLine ⟨[],none,[],none⟩).texts
    (empty.loadFrom (.holding text)).1 ∧
      (empty.loadFrom (.holding text)).2.entries.map line = texts.drop (texts.length - empty.max) := by
  intro texts
  unfold HistoryTable.loadFrom HistoryFile.holding
  simp only [loadLines_some,hem,true_and]
  simp only [texts]
  generalize (linesFrom [] text).foldl loadLine ⟨[],none,[],none⟩ = s
  have ht : (if s.entry = [] then s.entries else s.entries ++ [⟨s.entry,s.entryTs,true⟩]).map line =
      s.texts := by
    unfold LoadState.texts
    split <;> simp
  rw [markSaved,trim,trimFrom_eq]
  rw [← ht,map_drop,length_map]

/-- The texts come back exactly when no entry is cut off, ends in a carriage return or reads as a
timestamp, and every entry but the last is finished on its line. -/
theorem loadFrom_writeTo_iff (t empty : HistoryTable) (maxSize : ℕ) (withTimestamps : Bool)
    (hempty : empty.entries = []) (hlines : ∀ e ∈ t.entries, e.OneLine) :
    ((empty.loadFrom (.holding (t.writeTo maxSize withTimestamps))).1 ∧
      (empty.loadFrom (.holding (t.writeTo maxSize withTimestamps))).2.entries.map line =
        t.entries.map line) ↔
      t.entries.length ≤ maxSize ∧ t.entries.length ≤ empty.max ∧ (∀ e ∈ t.entries, Survives e.line) ∧
        ∀ e ∈ t.entries.dropLast, Finished e.line := by
  obtain ⟨hok,hload⟩ := loadFrom_holding hempty (t.writeTo maxSize withTimestamps)
  rw [hload,linesFrom_writeTo hlines]
  have hkept : ∀ e ∈ t.entries.drop (t.entries.length - maxSize), e.OneLine :=
    fun e he => hlines e (mem_of_mem_drop he)
  have hcount := (texts_foldl withTimestamps hkept ⟨[],none,[],none⟩).1
  have hnone : (mk [] none [] none).texts = [] := rfl
  rw [hnone,length_nil,length_drop] at hcount
  by_cases hfits : t.entries.length ≤ maxSize ∧ t.entries.length ≤ empty.max
  · have hdrop : t.entries.length - maxSize = 0 := by omega
    rw [hdrop,drop_zero] at hcount ⊢
    have hall : ¬Merged (mk [] none [] none).texts := by rintro ⟨text,hmem,-⟩; exact absurd hmem not_mem_nil
    have htexts := @texts_foldl_iff withTimestamps _ _ hlines rfl hall
    rw [hnone,nil_append] at htexts
    have hmax : ((t.entries.foldl (loadEntry withTimestamps) ⟨[],none,[],none⟩).texts.length - empty.max) = 0 := by omega
    rw [hmax,drop_zero,htexts]
    exact ⟨fun h => ⟨hfits.1,hfits.2,h.2⟩,fun h => ⟨hok,h.2.2⟩⟩
  · -- a limit leaves fewer texts than entries
    refine iff_of_false (fun h => ?_) fun h => hfits ⟨h.1,h.2.1⟩
    have hlength := congrArg List.length h.2
    rw [length_drop,length_map] at hlength
    omega

/-- Closed quotes and a here-string, and a last entry that opens a quote. -/
theorem loadFrom_writeTo_open_last :
    ((HistoryTable.new 500).loadFrom (.holding (HistoryTable.writeTo
      ⟨[⟨"cat <<< 'a b'".toList,some 7,false⟩,⟨"echo \"".toList,none,false⟩],500,0,0⟩ 500 true))).2.entries.map
        line = ["cat <<< 'a b'".toList,"echo \"".toList] := by
  have hlines : ∀ e ∈ [mk "cat <<< 'a b'".toList (some 7) false,⟨"echo \"".toList,none,false⟩], e.OneLine := by
    rw [forall_mem_cons,forall_mem_singleton]
    exact ⟨⟨by decide,by decide,by simp⟩,⟨by decide,by decide,by simp⟩⟩
  refine ((loadFrom_writeTo_iff _ (HistoryTable.new 500) 500 true rfl hlines).mpr ⟨by decide,by decide,?_,?_⟩).2
  · rw [forall_mem_cons,forall_mem_singleton]
    simp only [← timestampLine_isSome_iff,survives_iff]
    decide
  · rw [dropLast_cons_cons,dropLast_singleton,forall_mem_singleton]
    rw [finished_iff,← historyEntryComplete_iff (by decide) (by decide)]
    decide

/-- An entry that opens a quote takes the next one in. -/
theorem loadFrom_writeTo_merges :
    (∀ e ∈ [mk "echo \"".toList none false,⟨"ls".toList,none,false⟩], e.line ≠ [] ∧ '\n' ∉ e.line) ∧
      ((HistoryTable.new 500).loadFrom (.holding (HistoryTable.writeTo
        ⟨[⟨"echo \"".toList,none,false⟩,⟨"ls".toList,none,false⟩],500,0,0⟩ 500 false))).2.entries.map line ≠
          ["echo \"".toList,"ls".toList] := by
  decide
end Cherubsh.Common
