import Cherubsh.Expander.Buffer
import Cherubsh.Expander.SplitFields

/-! # Reading one piece of a buffer

What the splitter sees at a piece: quoted bytes and quoted empty strings are never taken for
delimiters, whatever IFS holds.
-/
namespace Cherubsh.Expander.Buffer
open Utf8 Split List

/-- The separators of several bytes are made of bytes of IFS that are no ASCII. -/
structure Separated (ifs : IfsState) : Prop where
  high : ∀ sep ∈ ifs.utf8Separators, ∀ b ∈ sep, 0x80 ≤ b ∧ ifs.isIfs b = true
  ne_nil : ∀ sep ∈ ifs.utf8Separators, sep ≠ []
  null : ifs.isNull = true → ∀ b, ifs.isIfs b = false

theorem mem_utf8Separators_iff {value : Option (List Char)} {sep : Bytes} :
    sep ∈ (IfsState.fromEnv value).utf8Separators ↔
      ∃ text, fromUtf8 (ifsBytes value) = .ok text ∧ ∃ c ∈ text, 1 < (String.utf8EncodeChar c).length ∧
        sep = String.utf8EncodeChar c := by
  rw [fromEnv_eq]
  unfold IfsState.buildFor
  cases fromUtf8 (ifsBytes value) with
  | error e => simp
  | ok text =>
    simp only [mem_filter,mem_map,decide_eq_true_eq,Except.ok.injEq,exists_eq_left']
    constructor
    · rintro ⟨⟨c,hc,rfl⟩,hl⟩
      exact ⟨c,hc,hl,rfl⟩
    · rintro ⟨c,hc,hl,rfl⟩
      exact ⟨⟨c,hc,rfl⟩,hl⟩

theorem separated_fromEnv (value : Option (List Char)) : Separated (IfsState.fromEnv value) := by
  refine ⟨fun sep hm b hb => ?_,fun sep hm => ?_,fun hn b => ?_⟩
  · obtain ⟨text,ht,c,hc,hl,rfl⟩ := mem_utf8Separators_iff.mp hm
    refine ⟨high_of_multibyte hl hb,?_⟩
    rw [fromEnv_eq,IfsState.isIfs,IfsState.buildFor,encode_of_fromUtf8 ht]
    exact contains_iff_mem.mpr (mem_flatMap.mpr ⟨c,hc,hb⟩)
  · obtain ⟨_,-,_,-,hl,rfl⟩ := mem_utf8Separators_iff.mp hm
    exact ne_nil_of_length_pos (by omega)
  · match value with
    | none => cases hn
    | some [] => rfl
    | some (c :: rest) => cases hn

def Stays (ifs : IfsState) : Piece → Prop
  | .quoted b => b ≠ 0
  | .plain b => b < 0x80 ∧ ifs.isIfs b = false
  | .empty => True
  | .field => False

section
variable {bytes : Bytes} {ifs : IfsState} {i : ℕ} {b : UInt8} {rest : Bytes}

theorem getElem?_of_drop (h : bytes.drop i = b :: rest) : bytes[i]? = some b := by
  have hg : bytes[i + 0]? = (bytes.drop i)[0]? := List.getElem?_drop.symm
  simpa [h] using hg

theorem rawLiteralAt_eq_none (hb : b ≠ ctlesc) (hd : bytes.drop i = b :: rest) :
    rawLiteralAt bytes i = none := by
  rw [rawLiteralAt_eq,hd]
  match rest with
  | [] => rfl
  | [_] => rfl
  | _ :: _ :: _ => exact if_neg fun h => hb h.1

theorem find?_separator_eq_none (hs : Separated ifs) (hb : b < 0x80) (hd : bytes.drop i = b :: rest) :
    ifs.utf8Separators.find? (fun sep => (bytes.drop i).take sep.length = sep) = none := by
  rw [List.find?_eq_none]
  intro sep hm heq
  obtain ⟨c,rest',rfl⟩ := exists_cons_of_ne_nil (hs.ne_nil sep hm)
  have hc := (hs.high _ hm c mem_cons_self).1
  rw [hd] at heq
  simp only [length_cons,take_succ_cons,decide_eq_true_eq,List.cons.injEq] at heq
  rw [heq.1] at hb
  exact absurd hc (UInt8.not_le.mpr hb)

theorem unquotedIfsAt_ascii (hs : Separated ifs) (hb : b < 0x80) (hd : bytes.drop i = (Piece.plain b).bytes ++ rest) :
    unquotedIfsAt bytes i ifs = if ifs.isIfs b then some (b,i + (Piece.plain b).bytes.length) else none := by
  cases hc : isCtl b with
  | false =>
    have hd' : bytes.drop i = b :: rest := by simpa [Piece.bytes,hc] using hd
    obtain ⟨he,-,hn⟩ := isCtl_eq_false_iff.mp hc
    unfold unquotedIfsAt
    rw [rawLiteralAt_eq_none he hd',getElem?_of_drop hd',find?_separator_eq_none hs hb hd']
    simp [he,hn,UInt8.not_le.mpr hb,Piece.bytes,hc]
  | true =>
    have hr : rawLiteralAt bytes i = some (b,i + 3) := by
      rw [rawLiteralAt_eq,hd]
      simp [Piece.bytes,hc]
    simp [unquotedIfsAt,hr,Piece.bytes,hc]

theorem reads_stays (hse : Separated ifs) {p : Piece} (hp : Stays ifs p) (hd : bytes.drop i = p.bytes ++ rest) :
    unquotedIfsAt bytes i ifs = none ∧
      ∃ b, bytes[i]? = some b ∧ copyAt bytes i b = (p.bytes,i + p.bytes.length) := by
  cases p with
  | quoted b =>
    have hb : b ≠ ctlraw := hp
    have hg := getElem?_of_drop hd
    have hne : bytes[i + 1]? = some b := by
      have hg : bytes[i + 1]? = (bytes.drop i)[1]? := List.getElem?_drop.symm
      simpa [hd,Piece.bytes] using hg
    have hn : rawLiteralAt bytes i = none := by
      rw [rawLiteralAt_eq,hd]
      cases rest <;> simp [Piece.bytes,hb]
    refine ⟨?_,_,hg,?_⟩
    · simp [unquotedIfsAt,hn,hg]
    · simp [copyAt,hn,hne,Piece.bytes]
  | plain b =>
    obtain ⟨ha,hi⟩ := hp
    refine ⟨by rw [unquotedIfsAt_ascii hse ha hd,hi]; rfl,?_⟩
    cases hc : isCtl b with
    | false =>
      have hd' : bytes.drop i = b :: rest := by simpa [Piece.bytes,hc] using hd
      obtain ⟨he,-,-⟩ := isCtl_eq_false_iff.mp hc
      exact ⟨b,getElem?_of_drop hd',by simp [copyAt,rawLiteralAt_eq_none he hd',he,Piece.bytes,hc]⟩
    | true =>
      have hd' : bytes.drop i = ctlesc :: ctlraw :: b :: rest := by simpa [Piece.bytes,hc] using hd
      exact ⟨_,getElem?_of_drop hd',by simp [copyAt,rawLiteralAt_eq,hd',Piece.bytes,hc]⟩
  | empty =>
    have hg := getElem?_of_drop hd
    have hn := rawLiteralAt_eq_none (by decide) hd
    refine ⟨by simp [unquotedIfsAt,hn,hg],_,hg,?_⟩
    simp +decide [copyAt,hn,Piece.bytes]
  | field => exact hp.elim
end
end Cherubsh.Expander.Buffer
