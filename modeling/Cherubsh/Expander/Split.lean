import Cherubsh.Expander.ShellString
import Cherubsh.Library.Fields

/-! # Splitting an expansion buffer on IFS

A buffer is a byte string with marks: the byte 0x01 in front of a byte quotes it, the
two bytes 0x01 0x00 in front of a byte keep it from being read as a mark, and 0x7F
stands for a quoted empty string. The splitter reads the bytes by position.
-/
namespace Cherubsh.Expander.Split
open Utf8

def ctlesc : UInt8 := 0x01
def ctlraw : UInt8 := 0x00
def ctlnul : UInt8 := 0x7F

structure IfsState where
  cmap : UInt8 → Bool
  whitespace : UInt8 → Bool
  isNull : Bool
  utf8Separators : List Bytes

namespace IfsState

def isBlank (b : UInt8) : Bool := b = 0x20 || b = 0x09 || b = 0x0A

def buildFor (raw : Bytes) (isNull : Bool) : IfsState where
  cmap := fun b => raw.contains b
  whitespace := fun b => raw.contains b && isBlank b
  isNull := isNull
  utf8Separators :=
    match fromUtf8 raw with
    | .ok text => (text.map String.utf8EncodeChar).filter (fun bytes => 1 < bytes.length)
    | .error _ => []

def fromEnv : Option (List Char) → IfsState
  | none => buildFor [0x20,0x09,0x0A] false
  | some [] => buildFor [] true
  | some value => buildFor (ShellString.shellStringToBytes value) false

def isIfs (ifs : IfsState) (b : UInt8) : Bool := ifs.cmap b
def isIfsWs (ifs : IfsState) (b : UInt8) : Bool := ifs.whitespace b
def isIfsNonws (ifs : IfsState) (b : UInt8) : Bool := ifs.cmap b && !ifs.whitespace b
end IfsState

def rawLiteralAt (bytes : Bytes) (i : ℕ) : Option (UInt8 × ℕ) :=
  match bytes[i]?, bytes[i + 1]?, bytes[i + 2]? with
  | some a, some b, some c => if a = ctlesc ∧ b = ctlraw then some (c,i + 3) else none
  | _, _, _ => none

def isUtf8Continuation (b : UInt8) : Bool := b &&& 0xC0 = 0x80

def utf8Width (b : UInt8) : ℕ :=
  if 0xC2 ≤ b ∧ b ≤ 0xDF then 2
  else if 0xE0 ≤ b ∧ b ≤ 0xEF then 3
  else if 0xF0 ≤ b ∧ b ≤ 0xF4 then 4
  else 1

def charStart (bytes : Bytes) : ℕ → ℕ
  | 0 => 0
  | n + 1 => if bytes[n + 1]?.any isUtf8Continuation then charStart bytes n else n + 1

def isInsideValidUtf8Char (bytes : Bytes) (i : ℕ) : Bool :=
  if !bytes[i]?.any isUtf8Continuation then false
  else
    let start := charStart bytes i
    if start = i then false
    else
      let width := (bytes[start]?.map utf8Width).getD 1
      1 < width && i < start + width && start + width ≤ bytes.length

def unquotedIfsAt (bytes : Bytes) (i : ℕ) (ifs : IfsState) : Option (UInt8 × ℕ) :=
  match rawLiteralAt bytes i with
  | some (literal,next) => if ifs.isIfs literal then some (literal,next) else none
  | none =>
    match bytes[i]? with
    | none => none
    | some b =>
      if b = ctlesc ∨ b = ctlnul then none
      else match ifs.utf8Separators.find? (fun sep => (bytes.drop i).take sep.length = sep) with
      | some sep => sep.head?.map fun first => (first,i + sep.length)
      | none =>
        if 0x80 ≤ b ∧ isInsideValidUtf8Char bytes i then none
        else if ifs.isIfs b then some (b,i + 1) else none

def skipIfsWs (bytes : Bytes) (ifs : IfsState) : ℕ → ℕ → ℕ
  | 0, i => i
  | fuel + 1, i =>
    match unquotedIfsAt bytes i ifs with
    | some (delim,next) => if ifs.isIfsWs delim then skipIfsWs bytes ifs fuel next else i
    | none => i

/-- Behind a delimiter: white space, and after a white delimiter one other delimiter
with the white space behind it. -/
def afterDelimiter (bytes : Bytes) (ifs : IfsState) (delim : UInt8) (next : ℕ) : ℕ :=
  let i := skipIfsWs bytes ifs bytes.length next
  if ifs.isIfsWs delim then
    match unquotedIfsAt bytes i ifs with
    | some (nextDelim,nextI) => if ifs.isIfsNonws nextDelim then skipIfsWs bytes ifs bytes.length nextI else i
    | none => i
  else i

/-- Where no delimiter is, the bytes copied to the field and the position behind them. -/
def copyAt (bytes : Bytes) (i : ℕ) (b : UInt8) : Bytes × ℕ :=
  match rawLiteralAt bytes i with
  | some (_,next) => ((bytes.drop i).take (next - i),next)
  | none =>
    if b = ctlesc then
      match bytes[i + 1]? with
      | some c => ([ctlesc,c],i + 2)
      | none => ([b],i + 1)
    else ([b],i + 1)

def splitLoop (bytes : Bytes) (ifs : IfsState) : ℕ → List Bytes → Bytes → ℕ → List Bytes × Bytes
  | 0, fields, cur, _ => (fields,cur)
  | fuel + 1, fields, cur, i =>
    match bytes[i]? with
    | none => (fields,cur)
    | some b =>
      match unquotedIfsAt bytes i ifs with
      | some (delim,next) => splitLoop bytes ifs fuel (fields ++ [cur]) [] (afterDelimiter bytes ifs delim next)
      | none => splitLoop bytes ifs fuel fields (cur ++ (copyAt bytes i b).1) (copyAt bytes i b).2

def split (bytes : Bytes) (ifs : IfsState) : List Bytes :=
  if ifs.isNull then if bytes.isEmpty then [] else [bytes]
  else
    let i := skipIfsWs bytes ifs bytes.length 0
    if bytes.length ≤ i then []
    else
      let (fields,cur) := splitLoop bytes ifs bytes.length [] [] i
      if !cur.isEmpty then fields ++ [cur]
      else if fields.isEmpty then [[]]
      else fields
end Cherubsh.Expander.Split
