import Mathlib.Data.List.Flatten
import Cherubsh.Expander.Split

/-! # Field splitting against its specification

A buffer decodes into marks; the specification splits the list of marks, each of them
content, IFS white space or another delimiter. The splitter gives the same fields, up to
the IFS bytes that it takes for the inside of a multi-byte character.
-/
namespace Cherubsh.Expander.Split
open Utf8 Fields IfsState List Option
variable {b : UInt8} {bytes cur : Bytes} {i next : ℕ} {m : Mark} {value : Option (List Char)}

/-- What stands at one place of a buffer: its bytes, and the byte it is when unquoted. -/
structure Mark where
  start : ℕ
  raw : Bytes
  literal : Option UInt8
  deriving DecidableEq

def plain (b : UInt8) : Option UInt8 := if b = ctlesc ∨ b = ctlnul then none else some b

def marksFrom (pos : ℕ) : Bytes → List Mark
  | [] => []
  | [a] => [⟨pos,[a],plain a⟩]
  | [a,b] => if a = ctlesc then [⟨pos,[a,b],none⟩] else ⟨pos,[a],plain a⟩ :: marksFrom (pos + 1) [b]
  | a :: b :: c :: rest =>
    if a = ctlesc ∧ b = ctlraw then ⟨pos,[a,b,c],some c⟩ :: marksFrom (pos + 3) rest
    else if a = ctlesc then ⟨pos,[a,b],none⟩ :: marksFrom (pos + 2) (c :: rest)
    else ⟨pos,[a],plain a⟩ :: marksFrom (pos + 1) (b :: c :: rest)

def marks (bytes : Bytes) : List Mark := marksFrom 0 bytes

def encodeMarks (ms : List Mark) : Bytes := ms.flatMap Mark.raw

theorem encodeMarks_marksFrom (pos : ℕ) (bytes : Bytes) : encodeMarks (marksFrom pos bytes) = bytes := by
  fun_induction marksFrom pos bytes <;> simp_all [encodeMarks]

/-- An unquoted byte of IFS delimits, and a blank of IFS is white. -/
def markRole (ifs : Bytes) (m : Mark) : Role :=
  match m.literal with
  | none => .content
  | some b => if ifs.contains b then if isBlank b then .white else .other else .content

def marksAt (bytes : Bytes) (i : ℕ) : List Mark := marksFrom i (bytes.drop i)

/-- The place is behind a lead byte and continuation bytes, in a buffer long enough for the
character. -/
def Covered (bytes : Bytes) (i : ℕ) : Prop :=
  ∃ start < i, ∃ lead, bytes[start]? = some lead ∧ 1 < utf8Width lead ∧ i < start + utf8Width lead ∧
    start + utf8Width lead ≤ bytes.length ∧ ∀ k, start < k → k ≤ i → bytes[k]?.any isUtf8Continuation

theorem utf8Width_of_continuation (h : isUtf8Continuation b) : utf8Width b = 1 := by
  have ha : ∀ b, isUtf8Continuation b → utf8Width b = 1 := forall_byte (by decide +kernel)
  exact ha b h

theorem charStart_le (bytes : Bytes) (i : ℕ) : charStart bytes i ≤ i := by
  fun_induction charStart bytes i <;> omega

theorem continuation_of_charStart_lt {bytes : Bytes} {i k : ℕ} (h : charStart bytes i < k) (hk : k ≤ i) :
    bytes[k]?.any isUtf8Continuation := by
  fun_induction charStart bytes i with
  | case1 => omega
  | case2 n hc ih =>
    by_cases hkn : k = n + 1
    · rwa [hkn]
    · exact ih h (by omega)
  | case3 n hc => omega

theorem charStart_le_of_continuation {start : ℕ} (hst : start ≤ i)
    (h : ∀ k, start < k → k ≤ i → bytes[k]?.any isUtf8Continuation) : charStart bytes i ≤ start := by
  fun_induction charStart bytes i with
  | case1 => omega
  | case2 n hc ih =>
    by_cases hn : start = n + 1
    · have := charStart_le bytes n
      omega
    · exact ih (by omega) fun k hk hk' => h k hk (by omega)
  | case3 n hc =>
    by_contra hlt
    exact hc (h (n + 1) (by omega) le_rfl)

theorem isInsideValidUtf8Char_iff : isInsideValidUtf8Char bytes i ↔ Covered bytes i := by
  have hle := charStart_le bytes i
  unfold isInsideValidUtf8Char
  constructor
  · intro h
    split at h
    · exact absurd h Bool.false_ne_true
    dsimp only at h
    split at h
    · exact absurd h Bool.false_ne_true
    cases hl : bytes[charStart bytes i]? with
    | none => simp [hl] at h
    | some lead =>
      simp only [hl,map_some,getD_some,Bool.and_eq_true,decide_eq_true_eq] at h
      exact ⟨_,by omega,lead,hl,h.1.1,h.1.2,h.2,fun k hk hk' => continuation_of_charStart_lt hk hk'⟩
  · rintro ⟨start,hlt,lead,hl,hw,hi,hln,hc⟩
    have hb := charStart_le_of_continuation hlt.le hc
    -- A lead byte is no continuation byte, so the scan back ends at it.
    have hst : charStart bytes i = start := by
      by_contra hne
      have hl' := @continuation_of_charStart_lt bytes i start (by omega) hlt.le
      rw [hl,any_some] at hl'
      have := utf8Width_of_continuation hl'
      omega
    rw [if_neg (by simp [hc i hlt le_rfl]),hst,if_neg hlt.ne,hl]
    simp only [map_some,getD_some,Bool.and_eq_true,decide_eq_true_eq]
    exact ⟨⟨hw,hi⟩,hln⟩

instance (bytes : Bytes) (i : ℕ) : Decidable (Covered bytes i) := decidable_of_iff _ isInsideValidUtf8Char_iff

theorem high_of_covered (h : Covered bytes i) (hb : bytes[i]? = some b) : 0x80 ≤ b := by
  obtain ⟨start,hlt,-,-,-,-,-,hc⟩ := h
  have hb' := hc i hlt le_rfl
  rw [hb,any_some] at hb'
  have ha : ∀ b, isUtf8Continuation b → 0x80 ≤ b := forall_byte (by decide +kernel)
  exact ha b hb'

theorem rawLiteralAt_eq : rawLiteralAt bytes i =
    match bytes.drop i with
    | a :: b :: c :: _ => if a = ctlesc ∧ b = ctlraw then some (c,i + 3) else none
    | _ => none := by
  have hg : ∀ k, bytes[i + k]? = (bytes.drop i)[k]? := fun k => List.getElem?_drop.symm
  have h₀ := hg 0
  rw [Nat.add_zero] at h₀
  unfold rawLiteralAt
  rw [h₀,hg 1,hg 2]
  match bytes.drop i with
  | [] => rfl
  | [_] => rfl
  | [_,_] => rfl
  | _ :: _ :: _ :: _ => rfl

theorem unquotedIfsAt_of_length_le {ifs : IfsState} (hi : bytes.length ≤ i) : unquotedIfsAt bytes i ifs = none := by
  have hg : bytes[i]? = none := List.getElem?_eq_none hi
  unfold unquotedIfsAt
  rw [rawLiteralAt_eq,drop_eq_nil_iff.mpr hi,hg]

/-- From a place that is no delimiter the loop copies these bytes, in one round or in several. -/
structure Copies (bytes : Bytes) (ifs : IfsState) (i : ℕ) (s : Bytes) : Prop where
  ne_nil : s ≠ []
  none : unquotedIfsAt bytes i ifs = none
  loop : ∀ fuel fields cur, s.length ≤ fuel → ∃ fuel', fuel ≤ fuel' + s.length ∧
    splitLoop bytes ifs fuel fields cur i = splitLoop bytes ifs fuel' fields (cur ++ s) (i + s.length)

/-- The marks that the splitter reads one after another, from a place to the end. -/
inductive Reads (bytes : Bytes) (ifs : IfsState) (role : Mark → Role) : ℕ → List Mark → Prop
  | done : Reads bytes ifs role bytes.length []
  | content {i : ℕ} {m : Mark} {ms : List Mark} (hm : role m = .content) (hc : Copies bytes ifs i m.raw)
      (h : Reads bytes ifs role (i + m.raw.length) ms) : Reads bytes ifs role i (m :: ms)
  | delimiter {i : ℕ} {m : Mark} {ms : List Mark} {b : UInt8} (hm : role m = if ifs.isIfsWs b then .white else .other)
      (hb : ifs.isIfs b) (hp : m.raw ≠ []) (hu : unquotedIfsAt bytes i ifs = some (b,i + m.raw.length))
      (h : Reads bytes ifs role (i + m.raw.length) ms) : Reads bytes ifs role i (m :: ms)

/-- The fields that the loop still has to make, given the bytes of the one it is in. -/
def fieldsBehind (role : Mark → Role) (cur : Bytes) (ms : List Mark) : List Bytes :=
  if cur = [] ∧ ms = [] then []
  else (cur ++ encodeMarks (ms.takeWhile (isContent role))) ::
    (fieldsFrom role (dropDelimiter role (ms.dropWhile (isContent role)))).map encodeMarks

def closeField (fields : List Bytes) (cur : Bytes) : List Bytes := if cur = [] then fields else fields ++ [cur]

section
variable {ifs : IfsState} {role : Mark → Role} {ms : List Mark} {s s' : Bytes}

theorem copies_round (hn : unquotedIfsAt bytes i ifs = none) (hb : bytes[i]? = some b)
    (hc : copyAt bytes i b = (s,i + s.length)) (hs : s ≠ []) : Copies bytes ifs i s := by
  refine ⟨hs,hn,fun fuel fields cur hf => ?_⟩
  have hl := length_pos_iff.mpr hs
  obtain ⟨fuel,rfl⟩ := Nat.exists_eq_add_one_of_ne_zero (n := fuel) (by omega)
  refine ⟨fuel,by omega,?_⟩
  rw [splitLoop,hb]
  simp only [hn,hc]

theorem fieldsBehind_nil (role : Mark → Role) (ms : List Mark) :
    fieldsBehind role [] ms = (fieldsFrom role ms).map encodeMarks := by
  unfold fieldsBehind
  by_cases hms : ms = []
  · rw [hms]
    rfl
  · rw [if_neg fun h => hms h.2,fieldsFrom_eq role hms]
    rfl

theorem fieldsBehind_content (hm : role m = .content)
    (hp : 0 < m.raw.length) : fieldsBehind role cur (m :: ms) = fieldsBehind role (cur ++ m.raw) ms := by
  have hm' : isContent role m := by simp [isContent,hm]
  have hne : cur ++ m.raw ≠ [] := by
    rw [← length_pos_iff,length_append]
    omega
  unfold fieldsBehind
  rw [if_neg (by simp),if_neg fun h => hne h.1,takeWhile_cons_of_pos hm',dropWhile_cons_of_pos hm']
  simp [encodeMarks]

theorem fieldsBehind_delimiter (hm : role m ≠ .content) :
    fieldsBehind role cur (m :: ms) = cur :: fieldsBehind role [] (dropDelimiter role (m :: ms)) := by
  have hm' : ¬isContent role m := by simp [isContent,hm]
  rw [fieldsBehind_nil,fieldsBehind,if_neg (by simp),takeWhile_cons_of_neg hm',dropWhile_cons_of_neg hm']
  simp [encodeMarks]

theorem fields_all_content (h : ∀ m ∈ ms, role m = .content) :
    (fields role ms).map encodeMarks = if ms = [] then [] else [encodeMarks ms] := by
  cases ms with
  | nil => rfl
  | cons m rest =>
    have hc : ∀ n ∈ m :: rest, isContent role n := fun n hn => by simp [isContent,h n hn]
    have hw : ¬isWhite role m := by simp [isWhite,h m mem_cons_self]
    have ht := takeWhile_eq_self_iff.mpr hc
    have hd := dropWhile_eq_nil_iff.mpr hc
    rw [fields,dropWhite,dropWhile_cons_of_neg hw,fieldsFrom_eq role (cons_ne_nil m rest),ht,hd]
    rfl

theorem encodeMarks_cons (m : Mark) (ms : List Mark) : encodeMarks (m :: ms) = m.raw ++ encodeMarks ms := rfl

theorem Reads.lengths (h : Reads bytes ifs role i ms) :
    i + (encodeMarks ms).length = bytes.length ∧ ms.length ≤ (encodeMarks ms).length := by
  induction h with
  | done => exact ⟨rfl,le_rfl⟩
  | content hm hc h ih =>
    have := length_pos_iff.mpr hc.ne_nil
    simp only [encodeMarks_cons,length_append,length_cons]
    omega
  | delimiter hm hb hp hu h ih =>
    have := length_pos_iff.mpr hp
    simp only [encodeMarks_cons,length_append,length_cons]
    omega

theorem Reads.skipIfsWs (h : Reads bytes ifs role i ms) (fuel : ℕ) (hf : ms.length ≤ fuel) :
    Reads bytes ifs role (skipIfsWs bytes ifs fuel i) (dropWhite role ms) := by
  induction h generalizing fuel with
  | done =>
    cases fuel with
    | zero => exact .done
    | succ fuel =>
      rw [Split.skipIfsWs,unquotedIfsAt_of_length_le le_rfl]
      exact .done
  | content hm hc h ih =>
    obtain ⟨fuel,rfl⟩ := Nat.exists_eq_add_one_of_ne_zero (Nat.lt_of_lt_of_le (Nat.succ_pos _) hf).ne'
    rw [Split.skipIfsWs,hc.none,dropWhite,dropWhile_cons_of_neg (by simp [isWhite,hm])]
    exact .content hm hc h
  | delimiter hm hb hp hu h ih =>
    obtain ⟨fuel,rfl⟩ := Nat.exists_eq_add_one_of_ne_zero (Nat.lt_of_lt_of_le (Nat.succ_pos _) hf).ne'
    rw [Split.skipIfsWs,hu]
    dsimp only
    split
    · rename_i hw
      rw [dropWhite,dropWhile_cons_of_pos (by simp [isWhite,hm,hw])]
      exact ih fuel (Nat.le_of_succ_le_succ hf)
    · rename_i hw
      rw [dropWhite,dropWhile_cons_of_neg (by simp [isWhite,hm,hw])]
      exact .delimiter hm hb hp hu h

theorem Reads.afterDelimiter (hm : role m = if ifs.isIfsWs b then .white else .other) (h : Reads bytes ifs role next ms) :
    Reads bytes ifs role (afterDelimiter bytes ifs b next) (dropDelimiter role (m :: ms)) := by
  have hs : ∀ {k ms}, Reads bytes ifs role k ms →
      Reads bytes ifs role (Split.skipIfsWs bytes ifs bytes.length k) (dropWhite role ms) := fun h =>
    h.skipIfsWs _ (by have := h.lengths; omega)
  unfold Split.afterDelimiter
  cases hw : ifs.isIfsWs b with
  | false =>
    rw [dropDelimiter_cons_of_other role (by simpa [hw] using hm)]
    exact hs h
  | true =>
    have hd : dropWhite role (m :: ms) = dropWhite role ms := dropWhile_cons_of_pos (by simp [isWhite,hm,hw])
    -- What stands behind the white space is read once more.
    have hn := hs h
    unfold dropDelimiter
    rw [hd]
    generalize Split.skipIfsWs bytes ifs bytes.length next = k, dropWhite role ms = l at hn
    dsimp only
    cases hn with
    | done =>
      rw [unquotedIfsAt_of_length_le le_rfl]
      exact .done
    | content hm hc h =>
      rw [hc.none]
      simpa [hm] using Reads.content hm hc h
    | @delimiter _ n l c hm hb hp hu h =>
      have hnw : ifs.isIfsNonws c = !ifs.isIfsWs c := by simp [isIfsNonws,isIfsWs,show ifs.cmap c from hb]
      rw [hu]
      cases hc : ifs.isIfsWs c with
      | true => simpa [hnw,hc,hm] using Reads.delimiter hm hb hp hu h
      | false => simpa [hnw,hc,hm] using hs h

theorem Reads.closeField_splitLoop (h : Reads bytes ifs role i ms) (fuel : ℕ) (hf : (encodeMarks ms).length ≤ fuel)
    (fields : List Bytes) (cur : Bytes) :
    closeField (splitLoop bytes ifs fuel fields cur i).1 (splitLoop bytes ifs fuel fields cur i).2 =
      fields ++ fieldsBehind role cur ms := by
  -- Behind a delimiter the list that is left is shorter by more than the mark.
  induction hn : ms.length using Nat.strong_induction_on generalizing i ms fuel fields cur with
  | h n ih =>
    cases h with
    | done =>
      have he : splitLoop bytes ifs fuel fields cur bytes.length = (fields,cur) := by
        cases fuel <;> simp [splitLoop]
      rw [he]
      cases cur <;> simp [closeField,fieldsBehind,encodeMarks,dropDelimiter,dropWhite]
    | content hm hc h =>
      rw [encodeMarks_cons,length_append] at hf
      obtain ⟨fuel',hf',he⟩ := hc.loop fuel fields cur (by omega)
      rw [he,ih _ (by simp [← hn]) h fuel' (by omega) fields _ rfl,fieldsBehind_content hm (length_pos_iff.mpr hc.ne_nil)]
    | @delimiter _ m ms b hm hb hp hu h =>
      have hro : role m ≠ .content := by
        rw [hm]
        split <;> simp
      have hsu := dropDelimiter_cons_suffix role (l := ms) hro
      have hle : (encodeMarks (dropDelimiter role (m :: ms))).length ≤ (encodeMarks ms).length :=
        (hsu.sublist.flatMap Mark.raw).length_le
      have hpo := length_pos_iff.mpr hp
      rw [encodeMarks_cons,length_append] at hf
      obtain ⟨fuel,rfl⟩ := Nat.exists_eq_add_one_of_ne_zero (n := fuel) (by omega)
      have hg : ∃ c, bytes[i]? = some c := by
        have := (Reads.delimiter hm hb hp hu h).lengths
        exact ⟨_,List.getElem?_eq_getElem (by simp at this; omega)⟩
      obtain ⟨c,hg⟩ := hg
      rw [splitLoop,hg]
      rw [hu]
      rw [ih _ (by simpa [← hn] using Nat.lt_succ_of_le hsu.length_le) (h.afterDelimiter hm) fuel (by omega) _ _ rfl,
        fieldsBehind_delimiter hro,append_assoc]
      rfl

theorem Reads.split (h : Reads bytes ifs role 0 ms) (he : encodeMarks ms = bytes)
    (hn : ifs.isNull → ∀ m ∈ ms, role m = .content) : split bytes ifs = (fields role ms).map encodeMarks := by
  unfold Split.split
  split
  · rename_i hi
    rw [fields_all_content (hn hi),he]
    cases bytes with
    | nil =>
      have hz := h.lengths
      rw [if_pos (length_eq_zero_iff.mp (show ms.length = 0 by simp only [length_nil] at hz; omega))]
      rfl
    | cons b rest =>
      have hne : ms ≠ [] := fun h => by simp [h,encodeMarks] at he
      rw [if_neg hne]
      rfl
  have hk := h.skipIfsWs bytes.length (by have := h.lengths; omega)
  unfold fields
  rw [← fieldsBehind_nil]
  generalize Split.skipIfsWs bytes ifs bytes.length 0 = k, dropWhite role ms = l at hk
  have hle := hk.lengths
  have hl := hk.closeField_splitLoop bytes.length (by omega) [] []
  rw [nil_append] at hl
  by_cases hkl : bytes.length ≤ k
  · rw [if_pos hkl,length_eq_zero_iff.mp (show l.length = 0 by omega)]
    rfl
  rw [if_neg hkl,← hl]
  -- A mark is left, so the loop leaves a field or the bytes of one.
  have hne : fieldsBehind role [] l ≠ [] := by
    rw [fieldsBehind,if_neg]
    · exact cons_ne_nil _ _
    · rintro ⟨-,rfl⟩
      simp [encodeMarks] at hle
      omega
  rw [← hl] at hne
  generalize splitLoop bytes ifs bytes.length [] [] k = p at hne ⊢
  obtain ⟨done,cur⟩ := p
  cases cur with
  | nil =>
    cases done with
    | nil => exact absurd rfl hne
    | cons field done => rfl
  | cons b cur => rfl
end

structure IfsState.Holds (ifs : IfsState) (raw : Bytes) : Prop where
  separators : ifs.utf8Separators = []
  isIfs : ∀ b, ifs.isIfs b = raw.contains b
  isIfsWs : ∀ b, ifs.isIfsWs b = (raw.contains b && isBlank b)

section
variable (bytes raw : Bytes)

def splitterRole (m : Mark) : Role :=
  if m.raw.length = 1 ∧ isInsideValidUtf8Char bytes m.start then .content else markRole raw m

structure ReadsMark (ifs : IfsState) (i : ℕ) (m : Mark) : Prop where
  start : m.start = i
  pos : 0 < m.raw.length
  marks : marksAt bytes i = m :: marksAt bytes (i + m.raw.length)
  delimiter : splitterRole bytes raw m ≠ .content →
    ∃ b, m.literal = some b ∧ raw.contains b ∧ unquotedIfsAt bytes i ifs = some (b,i + m.raw.length)
  content : splitterRole bytes raw m = .content → unquotedIfsAt bytes i ifs = none
  copy : ∀ b, bytes[i]? = some b → copyAt bytes i b = (m.raw,i + m.raw.length)

variable {bytes raw} {ifs : IfsState} {i : ℕ}

theorem markRole_eq_content_iff :
    markRole raw m = .content ↔ ∀ b, m.literal = some b → raw.contains b = false := by
  unfold markRole
  cases m.literal with
  | none => simp
  | some b => cases hb : raw.contains b <;> simp only [hb] <;> grind

theorem exists_literal (h : markRole raw m ≠ .content) : ∃ b, m.literal = some b ∧ raw.contains b := by
  rw [Ne,markRole_eq_content_iff] at h
  simpa using h

theorem splitterRole_eq_content (h : markRole raw m = .content) : splitterRole bytes raw m = .content := by
  unfold splitterRole
  rw [h,ite_self]

section
variable (hs : ifs.Holds raw) {rest : Bytes} {b : UInt8} {m : Mark} {role : Mark → Role} {ms : List Mark}
include hs

theorem readsMark_literal {c : UInt8} (hd : bytes.drop i = ctlesc :: ctlraw :: c :: rest) :
    ReadsMark bytes raw ifs i ⟨i,[ctlesc,ctlraw,c],some c⟩ := by
  have hra : rawLiteralAt bytes i = some (c,i + 3) := by
    rw [rawLiteralAt_eq,hd]
    rfl
  have hr : unquotedIfsAt bytes i ifs = if raw.contains c then some (c,i + 3) else none := by
    unfold unquotedIfsAt
    rw [hra,← hs.isIfs c]
  have hro : splitterRole bytes raw ⟨i,[ctlesc,ctlraw,c],some c⟩ = markRole raw ⟨i,[ctlesc,ctlraw,c],some c⟩ :=
    if_neg (by simp)
  constructor
  · rfl
  · simp
  · unfold marksAt
    rw [← drop_drop,hd]
    rfl
  · intro h
    rw [hro] at h
    obtain ⟨b,hb,hm⟩ := exists_literal h
    obtain rfl := Option.some.inj hb
    exact ⟨c,rfl,hm,hr.trans (if_pos hm)⟩
  · intro h
    rw [hro,markRole_eq_content_iff] at h
    rw [hr,h c rfl]
    rfl
  · intro b hb
    unfold copyAt
    rw [hra]
    dsimp only
    rw [hd,Nat.add_sub_cancel_left]
    rfl

omit hs in
theorem readsMark_quoted (hd : bytes.drop i = ctlesc :: b :: rest)
    (hr : rawLiteralAt bytes i = none) (hm : marksFrom i (ctlesc :: b :: rest) = ⟨i,[ctlesc,b],none⟩ :: marksFrom (i + 2) rest) :
    ReadsMark bytes raw ifs i ⟨i,[ctlesc,b],none⟩ := by
  have hg : ∀ k, bytes[i + k]? = (ctlesc :: b :: rest)[k]? := fun k => hd ▸ List.getElem?_drop.symm
  have hro : splitterRole bytes raw ⟨i,[ctlesc,b],none⟩ = .content := if_neg (by simp)
  constructor
  · rfl
  · simp
  · unfold marksAt
    rw [← drop_drop,hd,hm]
    rfl
  · exact fun h => absurd hro h
  · intro _
    unfold unquotedIfsAt
    rw [hr,show bytes[i]? = some ctlesc from hg 0]
    rfl
  · intro c hc
    have hc' : ctlesc = c := Option.some.inj ((hg 0).symm.trans hc)
    unfold copyAt
    rw [hr,hg 1,← hc']
    rfl

theorem readsMark_plain {a : UInt8} (hd : bytes.drop i = a :: rest) (hra : rawLiteralAt bytes i = none)
    (ha : a = ctlesc → rest = []) (hma : marksFrom i (a :: rest) = ⟨i,[a],plain a⟩ :: marksFrom (i + 1) rest) :
    ReadsMark bytes raw ifs i ⟨i,[a],plain a⟩ := by
  have hg : ∀ k, bytes[i + k]? = (a :: rest)[k]? := fun k => hd ▸ List.getElem?_drop.symm
  have hg₀ : bytes[i]? = some a := hg 0
  have hr : unquotedIfsAt bytes i ifs =
      if splitterRole bytes raw ⟨i,[a],plain a⟩ = .content then none else some (a,i + 1) := by
    unfold unquotedIfsAt
    rw [hra,hg₀,hs.separators]
    dsimp only [List.find?_nil]
    by_cases hm : a = ctlesc ∨ a = ctlnul
    · have hco : markRole raw ⟨i,[a],plain a⟩ = .content :=
        markRole_eq_content_iff.mpr fun b hb => by simp [plain,hm] at hb
      rw [if_pos hm,if_pos (splitterRole_eq_content hco)]
    rw [if_neg hm,hs.isIfs a]
    by_cases hin : isInsideValidUtf8Char bytes i
    · have hh := high_of_covered (isInsideValidUtf8Char_iff.mp hin) hg₀
      have hco : splitterRole bytes raw ⟨i,[a],plain a⟩ = .content := if_pos ⟨rfl,hin⟩
      rw [if_pos ⟨hh,hin⟩,if_pos hco]
    · have hro : splitterRole bytes raw ⟨i,[a],plain a⟩ = markRole raw ⟨i,[a],plain a⟩ := if_neg (fun h => hin h.2)
      rw [if_neg fun h => hin h.2,hro]
      simp only [markRole_eq_content_iff,plain,if_neg hm,Option.some.injEq,forall_eq']
      cases raw.contains a <;> rfl
  constructor
  · rfl
  · simp
  · unfold marksAt
    rw [← drop_drop,hd,hma]
    rfl
  · intro h
    obtain ⟨b,hb,hme⟩ := exists_literal (mt splitterRole_eq_content h)
    obtain rfl : a = b := by
      simp only [plain,ite_none_left_eq_some,Option.some.injEq] at hb
      exact hb.2
    exact ⟨a,hb,hme,by rw [hr,if_neg h]; rfl⟩
  · intro h
    rw [hr,if_pos h]
  · intro c hc
    obtain rfl : a = c := Option.some.inj (hg₀.symm.trans hc)
    unfold copyAt
    rw [hra]
    dsimp only
    split
    · rename_i he
      rw [hg 1,ha he]
      rfl
    · rfl

theorem exists_readsMark (hi : i < bytes.length) : ∃ m, ReadsMark bytes raw ifs i m := by
  have hr := @rawLiteralAt_eq bytes i
  match hd : bytes.drop i with
  | [] =>
    rw [drop_eq_nil_iff] at hd
    omega
  | [a] =>
    rw [hd] at hr
    exact ⟨_,readsMark_plain hs hd hr (fun _ => rfl) rfl⟩
  | [a,b] =>
    rw [hd] at hr
    by_cases ha : a = ctlesc
    · subst ha
      exact ⟨_,readsMark_quoted hd hr rfl⟩
    · exact ⟨_,readsMark_plain hs hd hr (fun h => absurd h ha) (if_neg ha)⟩
  | a :: b :: c :: rest =>
    by_cases ha : a = ctlesc
    · subst ha
      by_cases hb : b = ctlraw
      · subst hb
        exact ⟨_,readsMark_literal hs hd⟩
      · have hno : ¬(ctlesc = ctlesc ∧ b = ctlraw) := fun h => hb h.2
        rw [hd] at hr
        dsimp only at hr
        rw [if_neg hno] at hr
        refine ⟨_,readsMark_quoted hd hr ?_⟩
        rw [marksFrom,if_neg hno,if_pos rfl]
    · have hno : ¬(a = ctlesc ∧ b = ctlraw) := fun h => ha h.1
      rw [hd] at hr
      dsimp only at hr
      rw [if_neg hno] at hr
      refine ⟨_,readsMark_plain hs hd hr (fun h => absurd h ha) ?_⟩
      rw [marksFrom,if_neg hno,if_neg ha]

theorem reads_marksAt (hi : i ≤ bytes.length) : Reads bytes ifs (splitterRole bytes raw) i (marksAt bytes i) := by
  induction hn : bytes.length - i using Nat.strong_induction_on generalizing i with
  | h n ih =>
    obtain rfl | hlt := Nat.eq_or_lt_of_le hi
    · unfold marksAt
      rw [drop_length]
      exact .done
    obtain ⟨m,hm⟩ := exists_readsMark hs hlt
    have hp := hm.pos
    have hle : i + m.raw.length ≤ bytes.length := by
      have he : encodeMarks (marksAt bytes i) = bytes.drop i := encodeMarks_marksFrom i _
      have hl := congrArg List.length he
      rw [hm.marks,encodeMarks_cons,length_append,length_drop] at hl
      omega
    have hr := ih _ (by omega) hle rfl
    rw [hm.marks]
    by_cases hc : splitterRole bytes raw m = .content
    · have hb := List.getElem?_eq_getElem hlt
      exact .content hc (copies_round (hm.content hc) hb (hm.copy _ hb) (length_pos_iff.mp hp)) hr
    · obtain ⟨b,hl,hb,hu⟩ := hm.delimiter hc
      have hro : splitterRole bytes raw m = markRole raw m := if_neg fun h => hc (if_pos h)
      refine .delimiter ?_ (by rw [hs.isIfs,hb]) (length_pos_iff.mp hp) hu hr
      unfold markRole at hro
      rw [hro,hl,hs.isIfsWs,hb]
      exact if_pos hb

theorem split_eq_fields (hn : ifs.isNull → raw = []) :
    split bytes ifs = (fields (splitterRole bytes raw) (marks bytes)).map encodeMarks := by
  refine (reads_marksAt hs (Nat.zero_le _)).split (encodeMarks_marksFrom 0 bytes) fun hi m _ => ?_
  rw [hn hi]
  exact splitterRole_eq_content (markRole_eq_content_iff.mpr fun b hb => rfl)
end
end

/-! ### The value of IFS -/

def ifsBytes : Option (List Char) → Bytes
  | none => [0x20,0x09,0x0A]
  | some value => ShellString.shellStringToBytes value

/-- IFS is made of single-byte characters: bytes that are no text, or text of one byte a character. -/
def SingleByte (value : Option (List Char)) : Prop :=
  ∀ text, fromUtf8 (ifsBytes value) = .ok text → ∀ c ∈ text, c.utf8Size = 1

theorem fromEnv_eq (value : Option (List Char)) : fromEnv value = buildFor (ifsBytes value) (value = some []) := by
  match value with
  | none => rfl
  | some [] => rfl
  | some (c :: rest) => rfl

theorem holds_fromEnv (h : SingleByte value) : (fromEnv value).Holds (ifsBytes value) := by
  rw [fromEnv_eq]
  constructor
  · unfold buildFor
    cases ht : fromUtf8 (ifsBytes value) with
    | error e => rfl
    | ok text =>
      rw [filter_eq_nil_iff]
      intro bytes hb
      obtain ⟨c,hc,rfl⟩ := mem_map.mp hb
      simp [String.length_utf8EncodeChar,h text ht c hc]
  · exact fun _ => rfl
  · exact fun _ => rfl

theorem eq_of_length_encodeMarks_le {ms ns : List Mark} (h : ms.Sublist ns) (hp : ∀ m ∈ ns, 0 < m.raw.length)
    (hl : (encodeMarks ns).length ≤ (encodeMarks ms).length) : ms = ns := by
  induction h with
  | slnil => rfl
  | @cons ms ns m h ih =>
    have hle : (encodeMarks ms).length ≤ (encodeMarks ns).length := (h.flatMap Mark.raw).length_le
    have hm := hp m mem_cons_self
    rw [encodeMarks_cons,length_append] at hl
    omega
  | @cons_cons ms ns m h ih =>
    rw [encodeMarks_cons,encodeMarks_cons,length_append,length_append] at hl
    rw [ih (fun n hn => hp n (mem_cons_of_mem m hn)) (by omega)]

theorem raw_pos_of_mem_marksFrom {pos : ℕ} (hm : m ∈ marksFrom pos bytes) : 0 < m.raw.length := by
  fun_induction marksFrom pos bytes <;> grind

theorem flatten_map_encodeMarks (role : Mark → Role) (ms : List Mark) :
    ((fields role ms).map encodeMarks).flatten = encodeMarks (ms.filter (isContent role)) := by
  rw [← flatten_fields role ms]
  induction fields role ms with
  | nil => rfl
  | cons field rest ih =>
    rw [map_cons,flatten_cons,flatten_cons,ih]
    exact flatMap_append.symm

theorem splitterRole_of_not_covered {raw : Bytes}
    (h : m.raw.length = 1 → markRole raw m ≠ .content → ¬Covered bytes m.start) : splitterRole bytes raw m = markRole raw m := by
  by_cases hm : markRole raw m = .content
  · rw [splitterRole_eq_content hm,hm]
  · exact if_neg fun hin => h hin.1 hm (isInsideValidUtf8Char_iff.mp hin.2)

theorem split_fromEnv (hsi : SingleByte value) (bytes : Bytes) :
    split bytes (fromEnv value) = (fields (splitterRole bytes (ifsBytes value)) (marks bytes)).map encodeMarks := by
  apply split_eq_fields (holds_fromEnv hsi)
  intro hn
  rw [fromEnv_eq] at hn
  obtain rfl : value = some [] := of_decide_eq_true hn
  rfl

/-- The splitter gives the fields just when it sees no unquoted IFS byte as the inside of a
character. -/
theorem split_eq_iff (value : Option (List Char)) (bytes : Bytes) (hsingle : SingleByte value) :
    (split bytes (fromEnv value) = (fields (markRole (ifsBytes value)) (marks bytes)).map encodeMarks ∧
      (split bytes (fromEnv value)).flatten =
        encodeMarks ((marks bytes).filter (isContent (markRole (ifsBytes value))))) ↔
      ∀ m ∈ marks bytes, m.raw.length = 1 → markRole (ifsBytes value) m ≠ .content → ¬Covered bytes m.start := by
  rw [split_fromEnv hsingle]
  constructor
  · rintro ⟨-,hflat⟩ m hm hlen hrole hcovered
    rw [flatten_map_encodeMarks] at hflat
    have hcontent : splitterRole bytes (ifsBytes value) m = .content :=
      if_pos ⟨hlen,isInsideValidUtf8Char_iff.mpr hcovered⟩
    have hsub := monotone_filter_right (marks bytes) (p := isContent (markRole (ifsBytes value)))
      (q := isContent (splitterRole bytes (ifsBytes value)))
      fun n hn => by simpa [isContent] using splitterRole_eq_content (by simpa [isContent] using hn)
    have hsame := eq_of_length_encodeMarks_le hsub
      (fun n hn => raw_pos_of_mem_marksFrom (mem_of_mem_filter hn)) (congrArg List.length hflat).le
    have hkept := mem_filter.mpr ⟨hm,show isContent (splitterRole bytes (ifsBytes value)) m = true by simp [isContent,hcontent]⟩
    rw [← hsame,mem_filter] at hkept
    exact hrole (by simpa [isContent] using hkept.2)
  · intro h
    have hroles : ∀ m ∈ marks bytes, splitterRole bytes (ifsBytes value) m = markRole (ifsBytes value) m :=
      fun m hm => splitterRole_of_not_covered (h m hm)
    rw [fields_congr hroles]
    exact ⟨rfl,flatten_map_encodeMarks _ _⟩

/-- A comma between fields and a quoted one. -/
theorem split_eq_comma :
    split [0x20,0x61,0x20,0x2C,0x01,0x2C,0x2C] (fromEnv (some [' ',','])) = [[0x61],[0x01,0x2C]] := by
  have hsingle : SingleByte (some [' ',',']) := by
    intro text htext
    obtain rfl : [' ',','] = text := Except.ok.inj htext
    decide
  exact ((split_eq_iff (some [' ',',']) [0x20,0x61,0x20,0x2C,0x01,0x2C,0x2C] hsingle).mpr (by decide +kernel)).1

/-- The byte 0xA9 is IFS, unquoted, and in no character: 0xE2 0xA9 0x41 is not UTF-8. -/
theorem split_misses_delimiter :
    SingleByte (some [Char.ofNat 0xF00A9]) ∧
      split [0xE2,0xA9,0x41] (fromEnv (some [Char.ofNat 0xF00A9])) = [[0xE2,0xA9,0x41]] ∧
      (fields (markRole (ifsBytes (some [Char.ofNat 0xF00A9]))) (marks [0xE2,0xA9,0x41])).map encodeMarks =
        [[0xE2],[0x41]] := by
  refine ⟨fun text htext => ?_,by decide +kernel,by decide +kernel⟩
  have herror : fromUtf8 (ifsBytes (some [Char.ofNat 0xF00A9])) = .error (0,some 1) := rfl
  rw [herror] at htext
  exact absurd htext (by simp)
end Cherubsh.Expander.Split
