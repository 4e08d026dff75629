import Cherubsh.Expander.Words
import Cherubsh.Expander.PatternSubst

/-! # The values of parameters, and how they are written into a buffer

A parameter has one value or a list of values. In quotes the elements of a list are kept
apart by a mark, or joined by the first byte of IFS, depending on the form of the reference.
-/
namespace Cherubsh.Expander.Parameters
open Utf8 Split Buffer ShellString Words
open ParamScanning (asciiBytes isNameStart isNameByte isDigit)

inductive VarKind where
  | unset | scalar | indexed | assoc | nameref
  deriving DecidableEq

inductive ValueRepr where
  | scalar (value : Text)
  | array (elems : List Text) (star : Bool)
  deriving DecidableEq

inductive Form where
  | length (name : Bytes)
  | indirect (rest : Bytes)
  | defaultAlt (name : Bytes) (op : UInt8) (colon : Bool) (word : Bytes)
  | substring (name rest : Bytes)
  | transform (name : Bytes) (kind : UInt8)
  deriving DecidableEq

/-- The shell as the expansion of parameters sees it, with the constructs expanded elsewhere. -/
structure Shell (S E : Type) extends Host S E where
  kind : S → Bytes → VarKind
  nameref : S → Bytes → Bool
  resolveNameref : S → Bytes → Option Bytes
  namerefTarget : S → Bytes → Option Bytes
  get : S → Bytes → Option Text
  getArrayIndexed : S → Bytes → ℤ → Option Text
  getArrayAssoc : S → Bytes → Text → Option Text
  getArrayAll : S → Bytes → Option (List (ℤ × Text))
  assocAll : S → Bytes → Option (List (Text × Text))
  arrayKeys : S → Bytes → Option (List ℤ)
  assocKeys : S → Bytes → Option (List Text)
  arrayLen : S → Bytes → ℕ
  assocLen : S → Bytes → ℕ
  namesWith : S → Bytes → List Text
  zero : S → Option Text
  lastStatus : S → Text
  shellPid : S → Text
  optionFlags : S → Text
  lastAsyncPid : S → Option Text
  toUppercase : Text → Text
  toLowercase : Text → Text
  readElement : Bytes → Expand S E Text
  readElementIfSet : Bytes → Expand S E (Option Text)
  substitution : Bool → Bytes → ExpandBuf → Expand S E (ExpandBuf × Bytes)
  currentSubst : Bool → Bytes → ExpandBuf → Expand S E (ExpandBuf × Bytes)
  other : Form → Bool → ExpandBuf → Expand S E ExpandBuf

def splitSubscript (name : Bytes) : Option (Bytes × Bytes) :=
  if '['.toUInt8 ∈ name then
    let base := name.takeWhile (· ≠ '['.toUInt8)
    let after := name.drop (base.length + 1)
    some (base,if ']'.toUInt8 ∈ after then (after.reverse.dropWhile (· ≠ ']'.toUInt8)).tail.reverse else after)
  else none

def isAll (subscript : Bytes) : Bool := subscript = ['@'.toUInt8] || subscript = ['*'.toUInt8]

def arrayAllRef (name : Bytes) : Option (Bytes × Bytes) :=
  match splitSubscript name with
  | some (base,subscript) =>
    if name.getLast? = some ']'.toUInt8 ∧ isAll subscript then some (base,subscript) else none
  | none => none

def parseUsize (name : Bytes) : Option ℕ :=
  if name ≠ [] ∧ name.all isDigit then
    let n := name.foldl (fun n b => n * 10 + (b.toNat - 48)) 0
    if n < 2 ^ 64 then some n else none
  else none

def isSpecialName (b : UInt8) : Bool :=
  b = '#' || b = '?' || b = '$' || b = '!' || b = '-' || b = '*' || b = '@'

def validLengthParameterName (name : Bytes) : Bool :=
  match name with
  | [] => false
  | b :: rest =>
    (rest.isEmpty && isSpecialName b) || name.all isDigit ||
      (isNameStart b && (rest.all isNameByte ||
        ((rest.dropWhile isNameByte).head? = some '['.toUInt8 && name.getLast? = some ']'.toUInt8)))

def joinSeparator : Option Text → Option UInt8
  | none => some 0x20
  | some [] => none
  | some value => (shellStringToBytes value).head?

def joinSeparatorBytes : Option Text → Option Bytes
  | none => some [0x20]
  | some [] => none
  | some value =>
    match fromUtf8 (shellStringToBytes value) with
    | .ok text => text.head?.map String.utf8EncodeChar
    | .error _ => (shellStringToBytes value).head?.map fun b => [b]

def pushValue (out : ExpandBuf) (bytes : Bytes) (quoted : Bool) : ExpandBuf :=
  if quoted then if bytes.isEmpty then out.pushQuotedParamNull else out.pushQuotedSlice bytes
  else if !bytes.any isCtl then out.pushRaw bytes
  else out.pushLiteralSlice bytes

def pushValueMaybeRawCtlnul (out : ExpandBuf) (bytes : Bytes) (quoted rawCtlnul : Bool) : ExpandBuf :=
  if !rawCtlnul || quoted then pushValue out bytes quoted
  else bytes.foldl (fun out b => if b = ctlnul then out.pushRaw [ctlnul] else out.pushLiteral b) out

def pushArrayElementValue (out : ExpandBuf) (bytes : Bytes) (quoted rawCtlnul : Bool) : ExpandBuf :=
  if quoted && bytes.isEmpty then out.pushQuotedNull else pushValueMaybeRawCtlnul out bytes quoted rawCtlnul

def pushByte (quoted : Bool) (b : UInt8) (out : ExpandBuf) : ExpandBuf :=
  if quoted then out.pushQuoted b else out.pushLiteral b

def pushEach {α : Type} (between : ExpandBuf → ExpandBuf) (push : ExpandBuf → α → ExpandBuf) (out : ExpandBuf) :
    List α → ExpandBuf
  | [] => out
  | v :: rest => rest.foldl (fun out v => push (between out) v) (push out v)

structure ListForm where
  quoted : Bool
  star : Bool
  sep : Option UInt8
  ifsNull : Bool
  assignmentRhs : Bool
  splitFields : Bool

def pushArrayValuesImpl (out : ExpandBuf) (arr : List Text) (form : ListForm) (rawCtlnul protectFieldValues : Bool) : ExpandBuf :=
  let push (quoted : Bool) (out : ExpandBuf) (v : Text) := pushArrayElementValue out (encode v) quoted rawCtlnul
  if form.quoted && form.star && arr.isEmpty then out.pushQuotedNull
  else if !form.assignmentRhs && !form.splitFields && !form.star then
    pushEach (pushByte form.quoted 0x20) (push form.quoted) out arr
  else if (form.quoted || form.assignmentRhs) && !form.star then
    pushEach ExpandBuf.pushFieldSep (push form.quoted) out arr
  else if !form.quoted && !form.assignmentRhs && form.splitFields && form.ifsNull then
    pushEach ExpandBuf.pushFieldSep (push protectFieldValues) out arr
  else
    pushEach (fun out => (form.sep.map fun sep => pushByte form.quoted sep out).getD out) (push form.quoted) out arr

def pushArrayValues (out : ExpandBuf) (arr : List Text) (form : ListForm) : ExpandBuf :=
  pushArrayValuesImpl out arr form false false

def listForm {S : Type} (ctx : ExpCtx S) (quoted star : Bool) (sep : Option UInt8) : ListForm :=
  ⟨quoted,star,sep,ctx.ifs.isNull,ctx.assignInProgress,ctx.splitFields⟩

def pushValueBuf {S : Type} (ctx : ExpCtx S) (out : ExpandBuf) (v : ValueRepr) (quoted : Bool) (sep : Option UInt8) : ExpandBuf :=
  match v with
  | .scalar s => pushValue out (encode s) quoted
  | .array elems star => pushArrayValues out elems (listForm ctx quoted star sep)

def transformText (f : Bytes → Bytes) (s : Text) : Text := bytesToShellString (f (shellStringToBytes s))

def transformStringValue (f : Text → Text) : ValueRepr → ValueRepr
  | .scalar s => .scalar (f s)
  | .array elems star => .array (elems.map f) star

def transformValue (f : Bytes → Bytes) : ValueRepr → ValueRepr := transformStringValue (transformText f)

section
variable {S E : Type} (W : Shell S E)

def namerefMaxDepth : ℕ := 8

def resolveFrom (s : S) : ℕ → List Bytes → Bytes → Option Bytes
  | 0, _, _ => none
  | fuel + 1, seen, cur => do
    let next ← W.resolveNameref s cur
    if next = cur then some cur
    else if next ∈ seen then none
    else if !W.nameref s next then some next
    else resolveFrom s fuel (next :: seen) next

def resolve (s : S) (name : Bytes) : Option Bytes :=
  if !W.nameref s name then some name else resolveFrom W s namerefMaxDepth [name] name

def target (s : S) (name : Bytes) : Option Bytes :=
  match resolve W s name with
  | some target => some target
  | none => if W.nameref s name then none else some name

def positionalAt (s : S) (n : ℕ) : Option Text := if n = 0 then W.zero s else (W.positional s)[n - 1]?

def decimal (n : ℕ) : Text := Nat.toDigits 10 n

def specialParam (s : S) (name : Bytes) : Option Text :=
  if name = ['?'.toUInt8] then some (W.lastStatus s)
  else if name = ['#'.toUInt8] then some (decimal (W.positional s).length)
  else if name = ['$'.toUInt8] then some (W.shellPid s)
  else if name = ['!'.toUInt8] then some ((W.lastAsyncPid s).getD [])
  else if name = ['-'.toUInt8] then some (W.optionFlags s)
  else if name = ['0'.toUInt8] then W.zero s
  else none

/-- The value of a name, or an error where that is asked for. -/
def bound (unbound : Bytes) (value : Option Text) : Expand S E Text := do
  if (← get).evalUnboundError ∧ value = none then throw (.unboundVariable unbound) else return value.getD []

def readAll (s : S) (base subscript : Bytes) : ValueRepr :=
  let star := decide (subscript = ['*'.toUInt8])
  match target W s base with
  | none => .array [] star
  | some target =>
    match W.kind s target with
    | .indexed => .array (((W.getArrayAll s target).getD []).map Prod.snd) star
    | .assoc => .array (((W.assocAll s target).getD []).map Prod.snd) star
    | _ => match W.get s target with
      | some value => .scalar value
      | none => .array [] star

def readSubscripted (name : Bytes) : Expand S E ValueRepr := do
  match splitSubscript name with
  | some (base,subscript) =>
    if isAll subscript then return readAll W (← get).env base subscript else return .scalar (← W.readElement name)
  | none => return .scalar (← W.readElement name)

def readPlain (s : S) (target : Bytes) : Option Text :=
  match W.kind s target with
  | .indexed => (W.getArrayIndexed s target 0).or (W.get s target)
  | .assoc => W.getArrayAssoc s target ['0']
  | _ => W.get s target

def readValue (name : Bytes) : Expand S E ValueRepr := do
  let ctx ← get
  let s := ctx.env
  if name = ['@'.toUInt8] then return .array (W.positional s) false
  else if name = ['*'.toUInt8] then return .array (W.positional s) true
  else if name = ['!'.toUInt8] ∧ ctx.evalUnboundError ∧ W.lastAsyncPid s = none then throw (.unboundVariable name)
  else match specialParam W s name with
  | some value => return .scalar value
  | none =>
    match parseUsize name with
    | some n =>
      if n ≠ 0 ∧ ctx.evalUnboundError ∧ positionalAt W s n = none then throw (.unboundVariable name)
      else return .scalar ((positionalAt W s n).getD [])
    | none =>
      if '['.toUInt8 ∈ name then readSubscripted W name
      else match target W s name with
      | none => return .scalar []
      | some target =>
        if target ≠ name ∧ '['.toUInt8 ∈ target then readSubscripted W target
        else return .scalar (← bound target (readPlain W s target))

def joinTexts (sep : Char) : List Text → Text
  | [] => []
  | v :: rest => v ++ rest.flatMap fun w => sep :: w

def joinArray (s : S) (base : Bytes) (sep : UInt8) : Text :=
  let target := (resolve W s base).getD base
  match W.kind s target with
  | .indexed => joinTexts (Char.ofNat sep.toNat) (((W.getArrayAll s target).getD []).map Prod.snd)
  | .assoc => joinTexts (Char.ofNat sep.toNat) (((W.assocAll s target).getD []).map Prod.snd)
  | _ => (W.get s target).getD []

def readScalarSubscripted (name : Bytes) : Expand S E Text := do
  let ctx ← get
  match splitSubscript name with
  | some (base,subscript) =>
    if isAll subscript then return joinArray W ctx.env base ((joinSeparator ctx.ifsValue).getD 0x20)
    else W.readElement name
  | none => W.readElement name

/-- Errors about the target of a reference name the reference. -/
def namedAs (source target : Bytes) : ExpandError E → ExpandError E
  | .unboundVariable name => .unboundVariable (if name = target then source else name)
  | e => e

def readScalar (name : Bytes) : Expand S E Text := do
  let ctx ← get
  let s := ctx.env
  if name = ['!'.toUInt8] ∧ ctx.evalUnboundError ∧ W.lastAsyncPid s = none then throw (.unboundVariable name)
  else match specialParam W s name with
  | some value => return value
  | none =>
    match parseUsize name with
    | some n =>
      if n ≠ 0 ∧ ctx.evalUnboundError ∧ positionalAt W s n = none then throw (.unboundVariable name)
      else return (positionalAt W s n).getD []
    | none =>
      if '['.toUInt8 ∈ name then readScalarSubscripted W name
      else match target W s name with
      | none => return []
      | some target =>
        if target ≠ name ∧ '['.toUInt8 ∈ target then
          fun ctx => (readScalarSubscripted W target ctx).mapError (namedAs name target)
        else bound name (readPlain W s target)

def valueSeparator (quoted star : Bool) : Expand S E (Option UInt8) := do
  let ctx ← get
  return joinSeparator (if quoted && star then W.get ctx.env "IFS" else ctx.ifsValue)

def pushParameterValue (name : Bytes) (quoted : Bool) (out : ExpandBuf) : Expand S E ExpandBuf := do
  let value ← readValue W name
  let ctx ← get
  match arrayAllRef name, value with
  | some (_,subscript), .array elems _ =>
    let star := decide (subscript = ['*'.toUInt8])
    return pushArrayValues out elems (listForm ctx quoted star (← valueSeparator W quoted star))
  | some _, .scalar _ => return pushValueBuf ctx out value quoted (← valueSeparator W quoted false)
  | none, .array elems star =>
    let liveNull := (IfsState.fromEnv (W.get ctx.env "IFS")).isNull
    let protect := !quoted && ctx.splitFields && star && liveNull && !ctx.ifs.isNull
    let form := listForm ctx quoted star (← valueSeparator W quoted star)
    return pushArrayValuesImpl out elems { form with ifsNull := protect || form.ifsNull } false protect
  | none, .scalar _ => return pushValueBuf ctx out value quoted (← valueSeparator W quoted false)
end
end Cherubsh.Expander.Parameters
