import Cherubsh.Expander.ParamValues

/-! # The expansion of `$` and `${…}`

The operators on the value of a parameter, the reading of the inside of `${…}`, and the
dispatch on the byte behind a dollar sign. Words inside of an operator are expanded one
level deeper, and the depth is limited.
-/
namespace Cherubsh.Expander.Parameters
open Utf8 Split Buffer ShellString Words Pattern
open ParamScanning (asciiBytes isNameStart isNameByte)

def isWordMark (b : UInt8) : Bool :=
  b = '$' || b = '\x60' || b = '\'' || b = '"' || b = '\\' || b = '~'

def isPatternMark (b : UInt8) : Bool := b = '*' || b = '?' || b = '[' || b = '\\'

def literalPattern (pattern : Bytes) (opts : GlobOpts) : Option Bytes :=
  if opts.nocaseglob || opts.extglob || pattern.isEmpty then none
  else if pattern.any fun b => isCtl b || isPatternMark b then none
  else some pattern

def rawPlainWord (word : Bytes) : Option Bytes := if word.any fun b => isCtl b || isWordMark b then none else some word

def rawLiteralPattern (pattern : Bytes) (opts : GlobOpts) : Option Bytes :=
  if opts.nocaseglob || opts.extglob || pattern.isEmpty then none
  else (rawPlainWord pattern).filter fun pat => !pat.any isPatternMark

def literalRemove (value pattern : Bytes) (prefixed : Bool) : Bytes :=
  if prefixed then if pattern.isPrefixOf value then value.drop pattern.length else value
  else if pattern.isSuffixOf value then value.take (value.length - pattern.length) else value

def findBytes (needle : Bytes) : Bytes → Option ℕ
  | [] => none
  | c :: rest => if needle.isPrefixOf (c :: rest) then some 0 else (findBytes needle rest).map (· + 1)

def literalReplaceAll (pattern replacement : Bytes) : ℕ → Bytes → Bytes
  | 0, rest => rest
  | fuel + 1, rest =>
    match findBytes pattern rest with
    | some pos => rest.take pos ++ replacement ++ literalReplaceAll pattern replacement fuel (rest.drop (pos + pattern.length))
    | none => rest

def literalSubstitute (value pattern replacement : Bytes) (mode : PatSubMode) : Bytes :=
  if pattern.isEmpty then value
  else match mode with
  | .prefixAnchored => if pattern.isPrefixOf value then replacement ++ value.drop pattern.length else value
  | .suffixAnchored =>
    if pattern.isSuffixOf value then value.take (value.length - pattern.length) ++ replacement else value
  | .first =>
    match findBytes pattern value with
    | some pos => value.take pos ++ replacement ++ value.drop (pos + pattern.length)
    | none => value
  | .all => literalReplaceAll pattern replacement value.length value

def plainShellStringBytes (value : Text) : Option Bytes :=
  if value.all (fun c => c.toNat < 128) ∧ !(encode value).any isCtl then some (encode value) else none

def termEnd (term : UInt8) : Bytes → Option Bytes
  | b :: c :: rest => if b = term ∧ c = ']' then some rest else termEnd term (c :: rest)
  | _ => none

def namedEnd : Bytes → Option Bytes
  | term :: text =>
    if term = ':' ∨ term = '.' ∨ term = '=' then termEnd term text else none
  | [] => none

def bracketEndFrom : ℕ → Bytes → Option Bytes
  | 0, _ => none
  | _, [] => none
  | fuel + 1, b :: rest =>
    if b = '\\' ∧ rest ≠ [] then bracketEndFrom fuel (rest.drop 1)
    else match if b = '[' then namedEnd rest else none with
    | some after => bracketEndFrom fuel after
    | none => if b = ']' then some rest else bracketEndFrom fuel rest

def patternBracketExprEnd (text : Bytes) : Option Bytes :=
  let text := if text.head?.any isNegation then text.drop 1 else text
  let text := if text.head? = some ']'.toUInt8 then text.drop 1 else text
  bracketEndFrom text.length text

def separatorFrom : ℕ → Bytes → Option (Bytes × Bytes)
  | 0, _ => none
  | _, [] => none
  | fuel + 1, b :: rest =>
    if b = '\\' ∧ rest ≠ [] then
      (separatorFrom fuel (rest.drop 1)).map fun p => (b :: rest.take 1 ++ p.1,p.2)
    else if b = '[' then
      match patternBracketExprEnd rest with
      | some after =>
        (separatorFrom fuel after).map fun p => (ParamScanning.readBetween (b :: rest) after ++ p.1,p.2)
      | none => (separatorFrom fuel rest).map fun p => (b :: p.1,p.2)
    else if b = '/' then some ([],rest)
    else (separatorFrom fuel rest).map fun p => (b :: p.1,p.2)

def patsubMode : Option UInt8 → PatSubMode
  | some b => if b = '/' then .all else if b = '#' then .prefixAnchored else
      if b = '%' then .suffixAnchored else .first
  | none => .first

def isPatsubMode (b : UInt8) : Bool := b = '/' || b = '#' || b = '%'

/-- The pattern and the replacement. A slash right behind the one that asks for all places is
part of the pattern. -/
def splitPatsub (rest : Bytes) : PatSubMode × Bytes × Bytes :=
  let modeByte := rest.head?.filter isPatsubMode
  let text := if modeByte.isSome then rest.drop 1 else rest
  let skipped := if modeByte = some '/'.toUInt8 ∧ text.head? = some '/'.toUInt8 then text.take 1 else []
  match separatorFrom text.length (text.drop skipped.length) with
  | some (pat,rep) => (patsubMode modeByte,skipped ++ pat,rep)
  | none => (patsubMode modeByte,text,[])

def expandPatsubReplacement (matched : Bytes) : ℕ → Bytes → Bytes
  | 0, _ => []
  | _, [] => []
  | fuel + 1, b :: rest =>
    match escapedByte b rest with
    | some (x,after) => x :: expandPatsubReplacement matched fuel after
    | none =>
      if b = ctlnul ∨ b = ctlfield then expandPatsubReplacement matched fuel rest
      else if b = '\\' then
        let run := (b :: rest).takeWhile (· = '\\'.toUInt8)
        let after := (b :: rest).dropWhile (· = '\\'.toUInt8)
        if after.head? = some '&'.toUInt8 then
          List.replicate (run.length / 2) '\\'.toUInt8 ++
            (if run.length % 2 = 0 then matched else ['&']) ++ expandPatsubReplacement matched fuel (after.drop 1)
        else run ++ expandPatsubReplacement matched fuel after
      else if b = '&' then matched ++ expandPatsubReplacement matched fuel rest
      else b :: expandPatsubReplacement matched fuel rest

def octal (b : UInt8) : Bytes :=
  [UInt8.ofNat (48 + b.toNat / 64),UInt8.ofNat (48 + b.toNat / 8 % 8),UInt8.ofNat (48 + b.toNat % 8)]

def ansiEscape (b : UInt8) : Bytes :=
  if b = '\'' then "\\'"
  else if b = '\\' then "\\\\"
  else if b = 0x0A then "\\n"
  else if b = 0x09 then "\\t"
  else if b = 0x0D then "\\r"
  else if b = 0x07 then "\\a"
  else if b = 0x08 then "\\b"
  else if b = 0x0B then "\\v"
  else if b = 0x0C then "\\f"
  else if 0x20 ≤ b ∧ b ≤ 0x7E then [b]
  else '\\' :: octal b

def ansiQuoteBytes (bytes : Bytes) : Bytes := "$'" ++ bytes.flatMap ansiEscape ++ "'"

def shellQuote (src : Bytes) : Bytes :=
  if src = "'" then "\\'"
  else "'" ++ src.flatMap (fun b => if b = '\''.toUInt8 then "'\\''" else [b]) ++ "'"

def shellStringNeedsAnsiQuote (value : Text) (bytes : Bytes) : Bool :=
  decide (bytes ≠ encode value) || bytes.any fun b => b < 0x20 || b = 0x7F

def shellQuoteShellString (value : Text) : Text :=
  let bytes := shellStringToBytes value
  if shellStringNeedsAnsiQuote value bytes then (ansiQuoteBytes bytes).map fun b => Char.ofNat b.toNat
  else fromUtf8Lossy (shellQuote (encode value))

def upperFirst : Text → Text
  | [] => []
  | c :: rest => c.toUpper :: rest

section
variable {S E : Type} (W : Shell S E) (inner : Flags → Bool → Bytes → Expand S E ExpandBuf)

def patternMatchOpts (s : S) : GlobOpts := ⟨W.option s "nocasematch",W.option s "extglob",false⟩

def expandWordString (s : Bytes) (quoted : Bool) : Expand S E ExpandBuf :=
  inner { Flags.none with noSplit := true, quotedContext := quoted, paramWordContext := quoted } quoted s

def asText (raw : Bytes) : Bytes :=
  match fromUtf8 raw with
  | .ok _ => raw
  | .error _ => []

def expandPattern (raw : Bytes) : Expand S E Bytes := do
  let before := (← get).splitFields
  modify fun ctx => { ctx with splitFields := false }
  let expanded ← expandWordString inner (asText raw) false
  modify fun ctx => { ctx with splitFields := before }
  return expanded.bytes

def isValidName (name : Bytes) : Bool :=
  match name with
  | [] => false
  | b :: rest => isNameStart b && rest.all isNameByte

/-- The value of a plain variable, where it may be used without expanding anything. -/
def readPlainScalar (name : Bytes) : Expand S E (Option Text) := do
  let ctx ← get
  if !isValidName name || W.nameref ctx.env name then return none
  else
    let value := W.get ctx.env name
    if ctx.evalUnboundError ∧ value = none then throw (.unboundVariable name) else return some (value.getD [])

def plainBytes {α : Type} (quoted : Bool) (literal : Option α) (name : Bytes) : Expand S E (Option (α × Bytes)) := do
  if quoted then return none
  else match literal with
  | none => return none
  | some literal => return ((← readPlainScalar W name).bind plainShellStringBytes).map fun bytes => (literal,bytes)

def pushResult (result : ValueRepr) (quoted : Bool) (out : ExpandBuf) : Expand S E ExpandBuf := do
  let ctx ← get
  return pushValueBuf ctx out result quoted (joinSeparator ctx.ifsValue)

def handleRemove (name patRaw : Bytes) (prefixed longest quoted : Bool) (out : ExpandBuf) : Expand S E ExpandBuf := do
  let opts := { patternMatchOpts W (← get).env with nocaseglob := false }
  match ← plainBytes W quoted (rawLiteralPattern patRaw opts) name with
  | some (pattern,bytes) => return out.pushRaw (literalRemove bytes pattern prefixed)
  | none =>
    let pattern ← expandPattern inner patRaw
    let value ← readValue W name
    let change := if (literalPattern pattern opts).isSome then fun s => literalRemove s pattern prefixed
      else fun s => removePattern s pattern prefixed longest opts
    pushResult (transformValue change value) quoted out

def substituted (patsubReplacement : Bool) (pattern repTemplate : Bytes) (mode : PatSubMode) (opts : GlobOpts) (s : Bytes) :
    Bytes :=
  if patsubReplacement then
    patSubstWithReplacer s pattern mode opts fun matched =>
      expandPatsubReplacement matched repTemplate.length repTemplate
  else match literalPattern pattern opts with
  | some literal => literalSubstitute s literal (dequoteBytes repTemplate) mode
  | none => patSubst s pattern (dequoteBytes repTemplate) mode opts

def handlePatsub (name rest : Bytes) (quoted : Bool) (out : ExpandBuf) : Expand S E ExpandBuf := do
  let (mode,patRaw,repRaw) := splitPatsub rest
  let s := (← get).env
  let opts := patternMatchOpts W s
  let patsubReplacement := W.option s "patsub_replacement"
  let literals := (rawLiteralPattern patRaw opts).bind fun pat => (rawPlainWord repRaw).map fun rep => (pat,rep)
  match ← plainBytes W (quoted || patsubReplacement) literals name with
  | some ((pattern,replacement),bytes) => return out.pushRaw (literalSubstitute bytes pattern replacement mode)
  | none =>
    let pattern ← expandPattern inner patRaw
    let repTemplate := (← expandWordString inner (asText repRaw) false).bytes
    let value ← readValue W name
    pushResult (transformValue (substituted patsubReplacement pattern repTemplate mode opts) value) quoted out

def handleCasemod (name patRaw : Bytes) (mode : CaseModMode) (quoted : Bool) (out : ExpandBuf) : Expand S E ExpandBuf := do
  let pat ← if patRaw.isEmpty then pure none else some <$> expandPattern inner patRaw
  let value ← readValue W name
  let opts := { patternMatchOpts W (← get).env with nocaseglob := false }
  pushResult (transformValue (fun s => casemod s pat mode opts) value) quoted out

def parameterIsSet (s : S) (name : Bytes) : Expand S E Bool := do
  if name = ['@'.toUInt8] ∨ name = ['*'.toUInt8] then return decide (0 < (W.positional s).length)
  else if name = ['?'.toUInt8] ∨ name = ['#'.toUInt8] ∨ name = ['$'.toUInt8] ∨ name = ['-'.toUInt8] then return true
  else if name = ['!'.toUInt8] then return (W.lastAsyncPid s).isSome
  else match parseUsize name with
  | some n => return decide (n = 0) || (positionalAt W s n).isSome
  | none =>
    match arrayAllRef name with
    | some (base,_) =>
      let target := (resolve W s base).getD base
      match W.kind s target with
      | .assoc => return decide (0 < W.assocLen s target)
      | .indexed => return decide (0 < W.arrayLen s target)
      | .unset => return false
      | _ => return (W.get s target).isSome
    | none =>
      if W.nameref s name ∧ ((W.namerefTarget s name).getD []).isEmpty then return false
      else
        let target := (resolve W s name).getD name
        if target ≠ name ∧ '['.toUInt8 ∈ target then return (← W.readElementIfSet target).isSome
        else match W.kind s target with
        | .assoc => return (W.getArrayAssoc s target ['0']).isSome
        | .indexed => return (W.getArrayIndexed s target 0).isSome
        | .unset => return false
        | _ => return (W.get s target).isSome

def isTransform (kind : UInt8) : Bool := (asciiBytes "QEPAaKkULu").contains kind

def quoteTransform (kind : UInt8) : ValueRepr → ValueRepr :=
  if kind = 'Q' then transformStringValue shellQuoteShellString
  else transformValue (Quote.ansiCDecodeForLocale none)

def caseTransform (kind : UInt8) : Text → Text :=
  if kind = 'U' then W.toUppercase else if kind = 'L' then W.toLowercase else upperFirst

def isElement (name : Bytes) : Bool :=
  match splitSubscript name with
  | some (_,subscript) => !isAll subscript
  | none => false

def handleTransform (name rest : Bytes) (quoted : Bool) (out : ExpandBuf) : Expand S E ExpandBuf := do
  match rest with
  | [] => throw (.badSubstitution ("$\x7b" ++ name ++ "@\x7d"))
  | kind :: _ =>
    if !isTransform kind then
      throw (.badSubstitution ("$\x7b" ++ name ++ "@" ++ encode [Char.ofNat kind.toNat] ++ "\x7d"))
    else if kind = 'Q' ∨ kind = 'E' then
      if isElement name then
        match ← W.readElementIfSet name with
        | some value => pushResult (quoteTransform kind (.scalar value)) quoted out
        | none => return out
      else if !(← parameterIsSet W (← get).env name) then return out
      else pushResult (quoteTransform kind (← readValue W name)) quoted out
    else if kind = 'U' ∨ kind = 'L' ∨ kind = 'u' then
      return pushValue out (encode (caseTransform W kind (← readScalar W name))) quoted
    else W.other (.transform name kind) quoted out
end
end Cherubsh.Expander.Parameters
