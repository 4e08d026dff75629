import Cherubsh.Expander.ParamExpansion

/-! # Reading `${…}` and dispatching on it

The name and the operator are found in the body of the braces; what stands behind a dollar
sign without braces is dispatched on its first byte. Expansions nest up to a fixed depth.
-/
namespace Cherubsh.Expander.Parameters
open Utf8 Buffer ShellString Words ParamScanning

def throughDelimiter (quote : UInt8) (escapes : Bool) : Bytes → Bytes
  | [] => []
  | b :: rest =>
    if b = '\\' ∧ escapes then
      match rest with
      | [] => []
      | _ :: after => throughDelimiter quote escapes after
    else if b = quote then rest
    else throughDelimiter quote escapes rest

def skipBalancedFrom (opening closing : UInt8) : ℕ → ℕ → Bytes → Bytes
  | 0, _, text => text
  | _, 0, text => text
  | _, _, [] => []
  | fuel + 1, depth + 1, b :: rest =>
    if b = '\\' then skipBalancedFrom opening closing fuel (depth + 1) (rest.drop 1)
    else if b = '\'' ∨ b = '"' then
      skipBalancedFrom opening closing fuel (depth + 1) (throughDelimiter b (b = '"') rest)
    else if b = opening then skipBalancedFrom opening closing fuel (depth + 2) rest
    else if b = closing then skipBalancedFrom opening closing fuel depth rest
    else skipBalancedFrom opening closing fuel (depth + 1) rest

def skipBalancedParamConstruct (opening closing : UInt8) (text : Bytes) : Bytes :=
  skipBalancedFrom opening closing text.length 1 text

def skipSubstitution (rest : Bytes) : Option Bytes :=
  match rest with
  | [] => none
  | b :: after =>
    if b = '(' then
      some (match extractParen (some b) after with
        | .ok p => p.2
        | .error _ => [])
    else if b = '\x7b' then some (skipBalancedParamConstruct b '\x7d' after)
    else none

def skipDoubleQuotedFrom : ℕ → Bytes → Bytes
  | 0, text => text
  | _, [] => []
  | fuel + 1, b :: rest =>
    if b = '\\' then skipDoubleQuotedFrom fuel (rest.drop 1)
    else if b = '"' then rest
    else match if b = '$' then skipSubstitution rest else none with
    | some after => skipDoubleQuotedFrom fuel after
    | none => skipDoubleQuotedFrom fuel rest

def skipSubscriptFrom : ℕ → ℕ → Bytes → Bytes
  | 0, _, text => text
  | _, 0, text => text
  | _, _, [] => []
  | fuel + 1, depth + 1, b :: rest =>
    if b = '\\' then skipSubscriptFrom fuel (depth + 1) (rest.drop 1)
    else if b = '\'' then skipSubscriptFrom fuel (depth + 1) (throughDelimiter b false rest)
    else if b = '"' then skipSubscriptFrom fuel (depth + 1) (skipDoubleQuotedFrom rest.length rest)
    else match if b = '$' then skipSubstitution rest else none with
    | some after => skipSubscriptFrom fuel (depth + 1) after
    | none =>
      if b = '[' then skipSubscriptFrom fuel (depth + 2) rest
      else if b = ']' then skipSubscriptFrom fuel depth rest
      else skipSubscriptFrom fuel (depth + 1) rest

def skipParameterSubscript (text : Bytes) : Bytes := skipSubscriptFrom text.length 1 text

def markIsParameter (mark : UInt8) (body : Bytes) : Bool :=
  match body with
  | b :: c :: rest =>
    b = mark && (c = ':' || c = '/' || c = '%' || c = '=' || c = '+' ||
      ((c = '-' || c = '?') && !rest.isEmpty))
  | _ => false

def dropDollarQuotes : Bytes → Bytes
  | b :: c :: rest =>
    if b = '$' ∧ c = '\'' then c :: dropDollarQuotes rest else b :: dropDollarQuotes (c :: rest)
  | text => text

def badSubstitutionBody {E : Type} (body : Bytes) : ExpandError E :=
  .badSubstitution ("$\x7b" ++ dropDollarQuotes body ++ "\x7d")

def readName (body : Bytes) : Bytes × Bytes :=
  let letters := body.takeWhile isNameByte
  let rest := body.drop letters.length
  if rest.head? = some '['.toUInt8 then
    let after := skipParameterSubscript rest.tail
    (readBetween body after,after)
  else if letters ≠ [] then (letters,rest)
  else if body.head?.any fun b => isSpecialName b || isDigit b then (body.take 1,body.drop 1)
  else ([],body)

def ansiCQuotedParameterName {E : Type} (extquote : Bool) (body : Bytes) : Except (ExpandError E) (Option (Bytes × Bytes)) :=
  if !extquote || !(asciiBytes "$'").isPrefixOf body then .ok none
  else
    let (raw,after) := Quote.scanAnsiCQuoted (body.drop 2)
    if (readBetween body after).getLast? ≠ some '\''.toUInt8 then .ok none
    else
      let decoded := Quote.ansiCDecodeForLocale none raw
      if !validLengthParameterName decoded then .error (badSubstitutionBody body)
      else .ok (some (decoded,after))

section
variable {S E : Type} (W : Shell S E) (inner : Flags → Bool → Bytes → Expand S E ExpandBuf)

def integerText (n : ℤ) : Text := (toString n).toList

def pushKeys (keys : List Text) (star quoted : Bool) (sep : Option UInt8) (out : ExpandBuf) : ExpandBuf :=
  if quoted && star then
    let joined := match sep with
      | some b => joinTexts (Char.ofNat b.toNat) keys
      | none => keys.flatten
    pushValue out (encode joined) true
  else
    pushEach (fun out => (sep.map out.pushLiteral).getD out) (fun out k => pushValue out (encode k) quoted) out keys

def namesWithPrefix (front : Bytes) (star quoted : Bool) (out : ExpandBuf) : Expand S E ExpandBuf := do
  let ctx ← get
  let names := W.namesWith ctx.env front
  let sep := if star then (joinSeparator ctx.ifsValue).getD 0x20 else 0x20
  if quoted && star then return pushValue out (encode (joinTexts (Char.ofNat sep.toNat) names)) true
  else if quoted then return pushEach ExpandBuf.pushFieldSep (fun out n => pushValue out (encode n) true) out names
  else return pushEach (fun out => out.pushLiteral sep) (fun out n => pushValue out (encode n) false) out names

def arrayKeysOf (base : Bytes) (star quoted : Bool) (out : ExpandBuf) : Expand S E ExpandBuf := do
  let ctx ← get
  let s := ctx.env
  let keyBase := if W.nameref s base then (resolve W s base).getD base else base
  let sep := if star then joinSeparator ctx.ifsValue else some 0x20
  match W.kind s keyBase with
  | .indexed => return ((W.arrayKeys s keyBase).map fun ks => pushKeys (ks.map integerText) star quoted sep out).getD out
  | .assoc => return ((W.assocKeys s keyBase).map fun ks => pushKeys ks star quoted sep out).getD out
  | .scalar => return pushValue out "0" quoted
  | .nameref => return pushValue out "0" quoted
  | .unset => return out

def handleIndirection (rest : Bytes) (quoted : Bool) (out : ExpandBuf) : Expand S E ExpandBuf := do
  let last := rest.getLast?
  let front := rest.dropLast
  if last.any (fun b => b = '*'.toUInt8 || b = '@'.toUInt8) ∧ front = [] then return out
  else if last.any (fun b => b = '*'.toUInt8 || b = '@'.toUInt8) ∧ isValidName front then
    namesWithPrefix W front (last = some '*'.toUInt8) quoted out
  else
    let base := rest.takeWhile (· ≠ '['.toUInt8)
    let subscript := rest.drop base.length
    if subscript = "[@]" then arrayKeysOf W base false quoted out
    else if subscript = "[*]" then arrayKeysOf W base true quoted out
    else W.other (.indirect rest) quoted out

def applyOperator (body name : Bytes) (op : UInt8) (rest : Bytes) (quoted : Bool) (out : ExpandBuf) : Expand S E ExpandBuf :=
  let doubled := rest.head? = some op
  let after := if doubled then rest.drop 1 else rest
  if name = ['#'.toUInt8] ∧ rest = [] ∧ (op = '/' ∨ op = '%' ∨ op = '=' ∨ op = '+') then
    throw (badSubstitutionBody body)
  else if op = '-' ∨ op = '=' ∨ op = '?' ∨ op = '+' then
    W.other (.defaultAlt name op false rest) quoted out
  else if op = '#' then handleRemove W inner name after true doubled quoted out
  else if op = '%' then handleRemove W inner name after false doubled quoted out
  else if op = '/' then handlePatsub W inner name rest quoted out
  else if op = '^' then handleCasemod W inner name after (if doubled then .upperAll else .upperFirst) quoted out
  else if op = ',' then handleCasemod W inner name after (if doubled then .lowerAll else .lowerFirst) quoted out
  else if op = '~' then handleCasemod W inner name after (if doubled then .toggleAll else .toggleFirst) quoted out
  else if op = '@' then handleTransform W name rest quoted out
  else throw (badSubstitutionBody body)

def isDefaultOp (b : UInt8) : Bool := b = '-' || b = '=' || b = '?' || b = '+'

def operatorOf (body name rest : Bytes) (quoted : Bool) (out : ExpandBuf) : Expand S E ExpandBuf :=
  match rest with
  | [] => pushParameterValue W name quoted out
  | op :: rest =>
    if op = ':' then
      match rest with
      | [] => throw (badSubstitutionBody body)
      | next :: word =>
        if isDefaultOp next then
          if name = ['#'.toUInt8] ∧ word = [] ∧ (next = '=' ∨ next = '+') then throw (badSubstitutionBody body)
          else W.other (.defaultAlt name next true word) quoted out
        else W.other (.substring name (next :: word)) quoted out
    else applyOperator W inner body name op rest quoted out

def expandBraceBody (body : Bytes) (quoted : Bool) (out : ExpandBuf) : Expand S E ExpandBuf := do
  let s := (← get).env
  match body with
  | [] => throw (.badSubstitution "$\x7b\x7d")
  | b :: rest =>
    if b = '#' ∧ rest ≠ [] ∧ !markIsParameter '#' body then
      if !validLengthParameterName rest then throw (badSubstitutionBody body) else W.other (.length rest) quoted out
    else if b = '!' ∧ rest ≠ [] ∧ !markIsParameter '!' body ∧
        !(W.option s "posix" && rest.head?.any fun c => c = '?'.toUInt8 || c = '-'.toUInt8) then
      handleIndirection W rest quoted out
    else
      match ansiCQuotedParameterName (W.option s "extquote") body with
      | .error e => throw e
      | .ok (some (name,after)) => operatorOf W inner body name after quoted out
      | .ok none =>
        let (name,after) := readName body
        if name = [] then throw (badSubstitutionBody body) else operatorOf W inner body name after quoted out

def simpleBraceBody : Bytes → Option (Bytes × Bytes)
  | [] => none
  | b :: rest =>
    if b = '\x7d' then some ([],rest)
    else if b = '\x7b' ∨ b = '$' ∨ b = '\x60' ∨ b = '\'' ∨ b = '"' ∨ b = '\\' then none
    else (simpleBraceBody rest).map fun p => (b :: p.1,p.2)

def tryFastLiteralBraceBody (body : Bytes) (out : ExpandBuf) : Expand S E (Option ExpandBuf) := do
  let s := (← get).env
  let opts := patternMatchOpts W s
  let name := body.takeWhile isNameByte
  match if isValidName name then body.drop name.length else [] with
  | [] => return none
  | op :: rest =>
    if op = '#' ∨ op = '%' then
      let pattern := if rest.head? = some op then rest.drop 1 else rest
      let found ← plainBytes W false (rawLiteralPattern pattern opts) name
      return found.map fun p => out.pushRaw (literalRemove p.2 p.1 (op = '#'))
    else if op = '/' ∧ rest.head? = some '/'.toUInt8 ∧ !W.option s "patsub_replacement" then
      let pat := rest.tail.takeWhile (· ≠ '/'.toUInt8)
      let rep := rest.tail.drop (pat.length + 1)
      let literals := (rawLiteralPattern pat opts).bind fun pat => (rawPlainWord rep).map fun rep => (pat,rep)
      let found ← plainBytes W false literals name
      return found.map fun p => out.pushRaw (literalSubstitute p.2 p.1.1 p.1.2 .all)
    else return none

def tryFastLiteralBrace (text : Bytes) (out : ExpandBuf) : Expand S E (Option (ExpandBuf × Bytes)) := do
  match simpleBraceBody text with
  | some (body,after) => return (← tryFastLiteralBraceBody W body out).map fun out => (out,after)
  | none => return none

def extracted (e : Extracted) : Expand S E (Bytes × Bytes) :=
  match e with
  | .ok p => return p
  | .error (.badSubstitution message) => throw (.badSubstitution (asciiBytes message))
  | .error (.arithSyntax message) => throw (.arithSyntax (asciiBytes message))
  | .error (.other message) => throw (.other (asciiBytes message))
  | .error .tooDeep => throw (.other [])

def parameterBraceExpand (text : Bytes) (quoted : Bool) (out : ExpandBuf) : Expand S E (ExpandBuf × Bytes) := do
  if text.head?.any fun b => b = '|'.toUInt8 || isAsciiWhitespace b then W.currentSubst quoted text out
  else
    match ← if quoted then pure none else tryFastLiteralBrace W text out with
    | some r => return r
    | none =>
      let posixSingleQuote := quoted && W.option (← get).env "posix"
      let (body,after) ← extracted (extractBraceBody posixSingleQuote text)
      return (← expandBraceBody W inner body quoted out,after)

def pushPositional (star quoted : Bool) (out : ExpandBuf) : Expand S E ExpandBuf := do
  let ctx ← get
  let values := W.positional ctx.env
  let push (quoted : Bool) (out : ExpandBuf) (v : Text) := pushArrayElementValue out (encode v) quoted false
  let sep := if quoted && star then joinSeparatorBytes (W.get ctx.env "IFS")
    else (joinSeparator ctx.ifsValue).map fun b => [b]
  let between (out : ExpandBuf) := (sep.map fun sep =>
    if quoted then out.pushQuotedSlice sep else out.pushLiteralSlice sep).getD out
  if quoted && star && values.isEmpty then return out.pushQuotedNull
  else if ctx.assignInProgress && !star then return pushEach ExpandBuf.pushFieldSep (push quoted) out values
  else if ctx.assignInProgress then return pushEach between (push quoted) out values
  else if !ctx.splitFields && !star then return pushEach (pushByte quoted 0x20) (push quoted) out values
  else if ctx.paramRhsNosplit && !star && !quoted && ctx.ifsValue.any fun v => !v.isEmpty && (shellStringToBytes v).head? ≠ some 0x20 then
    return pushEach (fun out => out.pushLiteral 0x20) (fun out v => out.pushQuotedSlice (encode v)) out values
  else if quoted && !star then return pushEach ExpandBuf.pushFieldSep (push true) out values
  else if !quoted && ctx.splitFields && ctx.ifs.isNull then return pushEach ExpandBuf.pushFieldSep (push false) out values
  else return pushEach between (push quoted) out values

def expandSpecial (name : UInt8) (quoted : Bool) (out : ExpandBuf) : Expand S E ExpandBuf := do
  if name = '@' ∨ name = '*' then pushPositional W (name = '*') quoted out
  else
    let ctx ← get
    let s := ctx.env
    if name = '!' ∧ ctx.evalUnboundError ∧ W.lastAsyncPid s = none then throw (.unboundVariable "$!")
    else match parseUsize [name] with
    | some n =>
      if n ≠ 0 ∧ ctx.evalUnboundError ∧ positionalAt W s n = none then throw (.unboundVariable ['$',name])
      else return pushValue out (encode (((specialParam W s [name]).or (positionalAt W s n)).getD [])) quoted
    | none => return pushValue out (encode ((specialParam W s [name]).getD [])) quoted

def expandName (name : Bytes) (quoted : Bool) (out : ExpandBuf) : Expand S E ExpandBuf := do
  let ctx ← get
  let s := ctx.env
  match if W.nameref s name then (resolve W s name).filter fun target => (arrayAllRef target).isSome else none with
  | some target => pushParameterValue W target quoted out
  | none =>
    let value ← if !ctx.evalUnboundError && !W.nameref s name then pure ((W.get s name).getD []) else readScalar W name
    return pushValue out (shellStringToBytes value) quoted

def ansiCQuote (rest : Bytes) (out : ExpandBuf) : Expand S E (ExpandBuf × Bytes) := do
  let s := (← get).env
  let (body,after) := Quote.scanAnsiCQuoted rest
  return (pushQuotation out (Quote.ansiCDecodeForLocale (ansiCLocale (W.get s)) body),after)

def paramExpand (quoted : Bool) (text : Bytes) (out : ExpandBuf) : Expand S E (Option (ExpandBuf × Bytes)) :=
  match text with
  | dollar :: next :: rest =>
    if next = '\x7b' then some <$> parameterBraceExpand W inner rest quoted out
    else if next = '(' ∨ next = '[' then some <$> W.substitution quoted text out
    else if next = '\'' ∧ !quoted then some <$> ansiCQuote W rest out
    else if next = '"' ∧ !quoted then some <$> W.localeQuote (dollar :: next :: rest) out
    else if isSpecialName next || isDigit next then do return some (← expandSpecial W next quoted out,rest)
    else if isNameStart next then do
      let name := (next :: rest).takeWhile isNameByte
      return some (← expandName W name quoted out,(next :: rest).drop name.length)
    else return none
  | _ => return none
end

section
variable {S E : Type} (W : Shell S E)

def expansionNestingMax : ℕ := 32

def expandWordInternal : ℕ → Flags → Bool → Bytes → Expand S E ExpandBuf
  | 0, _, _, _ => throw (.substitutionRecursive (expansionNestingMax + 1))
  | levels + 1, flags, noTilde, bytes =>
    expandWord W.toHost (paramExpand W (expandWordInternal levels)) flags noTilde bytes

def expandWords (words : List WordDesc) (flags : ExpandFlags) : Expand S E (List WordDesc) :=
  run W.toHost (expandWordInternal W expansionNestingMax) words flags
end
end Cherubsh.Expander.Parameters
