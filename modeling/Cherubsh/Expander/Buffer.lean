import Cherubsh.Expander.Split

/-! # Expansion buffers

While a word is expanded its bytes are kept with marks between them. A buffer is the bytes of a
list of pieces, one for each push, and comes apart into the same pieces as long as no quoted byte
is NUL.
-/
namespace Cherubsh.Expander.Buffer
open Utf8 Split List
variable {ps : List Piece} {p : Piece}

def ctlfield : UInt8 := 0x1E

def isCtl (b : UInt8) : Bool := b = ctlesc || b = ctlfield || b = ctlnul

/-- The bytes, and the places of the empty strings that an empty `"$@"` takes away. -/
structure ExpandBuf where
  bytes : Bytes
  paramNulls : List ℕ
  deriving DecidableEq

namespace ExpandBuf
variable (out : ExpandBuf)

def new : ExpandBuf := ⟨[],[]⟩

def pushLiteral (b : UInt8) : ExpandBuf :=
  { out with bytes := out.bytes ++ if isCtl b then [ctlesc,ctlraw,b] else [b] }

def pushQuoted (b : UInt8) : ExpandBuf := { out with bytes := out.bytes ++ [ctlesc,b] }

def pushQuotedNull : ExpandBuf := { out with bytes := out.bytes ++ [ctlnul] }

def pushQuotedParamNull : ExpandBuf :=
  ⟨out.bytes ++ [ctlnul],out.paramNulls ++ [out.bytes.length]⟩

def pushFieldSep : ExpandBuf := { out with bytes := out.bytes ++ [ctlfield] }

def pushLiteralSlice (s : Bytes) : ExpandBuf := s.foldl pushLiteral out

def pushQuotedSlice (s : Bytes) : ExpandBuf := s.foldl pushQuoted out

def pushRaw (s : Bytes) : ExpandBuf := { out with bytes := out.bytes ++ s }

def extendFrom (out other : ExpandBuf) : ExpandBuf :=
  ⟨out.bytes ++ other.bytes,out.paramNulls ++ other.paramNulls.map fun pos => out.bytes.length + pos⟩
end ExpandBuf

def dequoteBytes : Bytes → Bytes
  | [] => []
  | [a] => if a = ctlnul ∨ a = ctlfield then [] else [a]
  | [a,b] =>
    if a = ctlesc then [b]
    else if a = ctlnul ∨ a = ctlfield then dequoteBytes [b]
    else a :: dequoteBytes [b]
  | a :: b :: c :: rest =>
    if a = ctlesc ∧ b = ctlraw then c :: dequoteBytes rest
    else if a = ctlesc then b :: dequoteBytes (c :: rest)
    else if a = ctlnul ∨ a = ctlfield then dequoteBytes (b :: c :: rest)
    else a :: dequoteBytes (b :: c :: rest)

def splitMarkersFrom (cur : Bytes) : Bytes → List Bytes
  | [] => [cur]
  | [a] => if a = ctlfield then [cur,[]] else [cur ++ [a]]
  | [a,b] =>
    if a = ctlesc then [cur ++ [a,b]]
    else if a = ctlfield then cur :: splitMarkersFrom [] [b]
    else splitMarkersFrom (cur ++ [a]) [b]
  | a :: b :: c :: rest =>
    if a = ctlesc ∧ b = ctlraw then splitMarkersFrom (cur ++ [a,b,c]) rest
    else if a = ctlesc then splitMarkersFrom (cur ++ [a,b]) (c :: rest)
    else if a = ctlfield then cur :: splitMarkersFrom [] (b :: c :: rest)
    else splitMarkersFrom (cur ++ [a]) (b :: c :: rest)

def splitUnescapedFieldMarkers (bytes : Bytes) : List Bytes := splitMarkersFrom [] bytes

/-- The fields of one word; one that is empty is kept as a quoted empty string. -/
def splitFieldMarkers (bytes : Bytes) : List Bytes :=
  if !bytes.contains ctlfield then [bytes]
  else (splitUnescapedFieldMarkers bytes).map fun part => if part.isEmpty then [ctlnul] else part

inductive Piece where
  | quoted (b : UInt8)
  | plain (b : UInt8)
  | empty
  | field
  deriving DecidableEq
open Piece

namespace Piece

def bytes : Piece → Bytes
  | .quoted b => [ctlesc,b]
  | .plain b => if isCtl b then [ctlesc,ctlraw,b] else [b]
  | .empty => [ctlnul]
  | .field => [ctlfield]

def text : Piece → Bytes
  | .quoted b => [b]
  | .plain b => [b]
  | .empty => []
  | .field => []
end Piece

def write (ps : List Piece) : Bytes := ps.flatMap bytes

@[simp] theorem write_nil : write [] = [] := rfl
@[simp] theorem write_cons (p : Piece) (ps : List Piece) : write (p :: ps) = p.bytes ++ write ps := rfl
@[simp] theorem write_append (ps qs : List Piece) : write (ps ++ qs) = write ps ++ write qs := flatMap_append

theorem write_ne_nil (h : ps ≠ []) : write ps ≠ [] := by
  obtain ⟨p,rest,rfl⟩ := exists_cons_of_ne_nil h
  cases p <;> simp [bytes]
  split <;> simp

theorem isCtl_eq_false_iff {b : UInt8} : isCtl b = false ↔ b ≠ ctlesc ∧ b ≠ ctlfield ∧ b ≠ ctlnul := by
  simp [isCtl,and_assoc]

theorem dequoteBytes_piece (hp : p ≠ .quoted 0) (rest : Bytes) :
    dequoteBytes (p.bytes ++ rest) = p.text ++ dequoteBytes rest := by
  have hby : ∀ a, a ≠ ctlesc → dequoteBytes (a :: rest) =
      if a = ctlnul ∨ a = ctlfield then dequoteBytes rest else a :: dequoteBytes rest := by
    intro a ha
    match rest with
    | [] => simp [dequoteBytes]
    | [b] | b :: c :: rest => simp [dequoteBytes,ha]
  cases p with
  | quoted b =>
    have hb : b ≠ ctlraw := fun h => hp (by rw [h]; rfl)
    match rest with
    | [] => simp [dequoteBytes,bytes,text]
    | c :: rest => simp [dequoteBytes,bytes,text,hb]
  | plain b =>
    cases hb : isCtl b with
    | true => simp [bytes,text,hb,dequoteBytes]
    | false =>
      obtain ⟨he,hf,hn⟩ := isCtl_eq_false_iff.mp hb
      simpa [bytes,text,hb,hf,hn] using hby b he
  | empty => simpa [bytes,text] using hby ctlnul (by decide)
  | field => simpa [bytes,text] using hby ctlfield (by decide)

theorem dequoteBytes_write (h : .quoted 0 ∉ ps) : dequoteBytes (write ps) = ps.flatMap text := by
  induction ps with
  | nil => rfl
  | cons p ps ih =>
    obtain ⟨hp,hps⟩ := not_or.mp (mt mem_cons.mpr h)
    rw [write_cons,dequoteBytes_piece (Ne.symm hp),ih hps,flatMap_cons]

theorem splitMarkersFrom_piece (hp : p ≠ .quoted 0) (cur rest : Bytes) :
    splitMarkersFrom cur (p.bytes ++ rest) =
      if p = .field then cur :: splitMarkersFrom [] rest else splitMarkersFrom (cur ++ p.bytes) rest := by
  have hby : ∀ a, a ≠ ctlesc → splitMarkersFrom cur (a :: rest) =
      if a = ctlfield then cur :: splitMarkersFrom [] rest else splitMarkersFrom (cur ++ [a]) rest := by
    intro a ha
    match rest with
    | [] => simp [splitMarkersFrom]
    | [b] | b :: c :: rest => simp [splitMarkersFrom,ha]
  cases p with
  | quoted b =>
    have hb : b ≠ ctlraw := fun h => hp (by rw [h]; rfl)
    match rest with
    | [] => simp [splitMarkersFrom,bytes]
    | c :: rest => simp [splitMarkersFrom,bytes,hb]
  | plain b =>
    cases hb : isCtl b with
    | true => simp [bytes,hb,splitMarkersFrom]
    | false =>
      obtain ⟨he,hf,-⟩ := isCtl_eq_false_iff.mp hb
      simpa [bytes,hb,hf] using hby b he
  | empty => simpa [bytes] using (hby ctlnul (by decide)).trans (if_neg (by decide))
  | field => simpa [bytes] using hby ctlfield (by decide)

theorem splitUnescapedFieldMarkers_write (h : .quoted 0 ∉ ps) :
    splitUnescapedFieldMarkers (write ps) = (ps.splitOn .field).map write := by
  have hfr : ∀ acc : List Piece, .field ∉ acc →
      splitMarkersFrom (write acc) (write ps) = ((acc ++ ps).splitOn .field).map write := by
    induction ps with
    | nil =>
      intro acc ha
      rw [append_nil,splitOn_eq_singleton ha]
      rfl
    | cons p ps ih =>
      intro acc ha
      obtain ⟨hp,hps⟩ := not_or.mp (mt mem_cons.mpr h)
      rw [write_cons,splitMarkersFrom_piece (Ne.symm hp)]
      by_cases hf : p = .field
      · rw [if_pos hf,hf,splitOn_append_cons_self_of_not_mem ha,map_cons]
        exact congrArg _ (by simpa using ih hps [] (by simp))
      · rw [if_neg hf,append_cons,← ih hps (acc ++ [p]) (by simpa [ha] using Ne.symm hf)]
        simp
  simpa [splitUnescapedFieldMarkers] using hfr [] (by simp)

theorem splitFieldMarkers_write (h : .quoted 0 ∉ ps) :
    splitFieldMarkers (write ps) =
      if .field ∈ ps then (ps.splitOn .field).map fun part => write (if part = [] then [.empty] else part) else [write ps] := by
  have hp : ∀ part : List Piece, (if write part = [] then [ctlnul] else write part) =
      write (if part = [] then [.empty] else part) := by
    intro part
    by_cases hp : part = []
    · simp [hp,bytes]
    · simp [hp,write_ne_nil]
  unfold splitFieldMarkers
  rw [splitUnescapedFieldMarkers_write h,map_map]
  by_cases hf : field ∈ ps
  · have hm : ctlfield ∈ write ps := mem_flatMap.mpr ⟨_,hf,by simp [bytes]⟩
    simpa [hf,hm] using fun part _ => hp part
  · rw [if_neg hf,splitOn_eq_singleton hf]
    split
    · rfl
    · -- The byte of the mark stands in the buffer, quoted.
      rename_i hm
      have hne : write ps ≠ [] := by
        rintro hn
        simp [hn] at hm
      simp [hne]
end Cherubsh.Expander.Buffer
