import Cherubsh.Expander.PatternText
import Cherubsh.Expander.ParamScanning

/-! # The expansion of words

A word goes through brace expansion, the expansion of what stands in it, the cutting of
lists into fields, word splitting, pathname expansion and quote removal. The loop over the
bytes of a word is given the expansion of what follows a dollar sign.
-/
namespace Cherubsh.Expander.Words
open Utf8 Split Buffer ShellString

abbrev Text := List Char

inductive ExpandError (E : Type) where
  | badSubstitution (message : Bytes)
  | unboundVariable (name : Bytes)
  | arithSyntax (message : Bytes)
  | substitutionRecursive (depth : ℕ)
  | other (message : Bytes)
  | raised (error : E)
  deriving DecidableEq

structure Flags where
  hasDollar : Bool
  assignment : Bool
  assignRhs : Bool
  noSplit : Bool
  noGlob : Bool
  noBrace : Bool
  noTilde : Bool
  noProcsub : Bool
  quotedContext : Bool
  heredocContext : Bool
  paramWordContext : Bool
  arithContext : Bool
  deriving DecidableEq

def Flags.none : Flags := ⟨false,false,false,false,false,false,false,false,false,false,false,false⟩

structure WordDesc where
  text : Text
  flags : Flags
  deriving DecidableEq

structure ExpandFlags where
  splitFields : Bool
  expandGlob : Bool
  noTilde : Bool
  noBrace : Bool

/-- The state of an expansion: the shell, the value of IFS it began with, and its switches. -/
structure ExpCtx (S : Type) where
  env : S
  ifsValue : Option Text
  splitFields : Bool
  assignInProgress : Bool
  paramRhsNosplit : Bool
  evalUnboundError : Bool

def ExpCtx.ifs {S : Type} (ctx : ExpCtx S) : IfsState := IfsState.fromEnv ctx.ifsValue

abbrev Expand (S E : Type) := StateT (ExpCtx S) (Except (ExpandError E))

structure Host (S E : Type) where
  positional : S → List Text
  option : S → String → Bool
  compat52 : Bool
  tryTilde : S → Bytes → Option Bytes
  backquote : Bool → Bytes → Expand S E ExpandBuf
  processSubst : Bytes → ExpandBuf → Expand S E (ExpandBuf × Bytes)
  localeQuote : Bytes → ExpandBuf → Expand S E (ExpandBuf × Bytes)
  pathnameExpand : Bytes → Expand S E (List Bytes)

def ansiCLocale (get : Bytes → Option Text) : Option Text :=
  let set (name : String) := (get (ParamScanning.asciiBytes name)).filter fun v => !v.isEmpty
  (set "LC_ALL").or ((set "LC_CTYPE").or (set "LANG"))

def backquoteBody : Bytes → Bytes × Option Bytes
  | [] => ([],none)
  | [b] => if b = '\x60' then ([],some []) else ([b],none)
  | b :: c :: rest =>
    if b = '\x60' then ([],some (c :: rest))
    else if b = '\\' then (b :: c :: (backquoteBody rest).1,(backquoteBody rest).2)
    else (b :: (backquoteBody (c :: rest)).1,(backquoteBody (c :: rest)).2)

def nextIsDollarAt : Bytes → Bool
  | d :: a :: rest =>
    d = '$' && (a = '@' ||
      (a = '\x7b' && rest.head? = some '@'.toUInt8 && rest.tail.head? = some '\x7d'.toUInt8))
  | _ => false

/-- Takes the empty values at the end away, one in a round. -/
def dropNulls : ℕ → ExpandBuf → ExpandBuf
  | 0, out => out
  | fuel + 1, out =>
    if out.bytes.getLast? = some ctlnul ∧ out.paramNulls.contains (out.bytes.length - 1) then
      dropNulls fuel ⟨out.bytes.dropLast,out.paramNulls.erase (out.bytes.length - 1)⟩
    else out

def dropEmptyParamBeforeDollarAt (positionalCount : ℕ) (next : Bytes) (out : ExpandBuf) : ExpandBuf :=
  if positionalCount ≠ 0 then out
  else if !nextIsDollarAt next then out
  else dropNulls out.bytes.length out

def pushOriginalLiteral (ifs : IfsState) (protectIfs : Bool) (out : ExpandBuf) (b : UInt8) : ExpandBuf :=
  if protectIfs && ifs.isIfsNonws b && !(b = '*' || b = '?' || b = '[') then out.pushQuoted b
  else out.pushLiteral b

def tildePrefixLen (word : Bytes) : ℕ :=
  match word with
  | [] => 0
  | b :: rest =>
    if b = '~'.toUInt8 then 1 + (rest.takeWhile fun c => !(c = '/'.toUInt8 || c = ':'.toUInt8)).length else 0

def tildeAt (tryTilde : Bytes → Option Bytes) (out : ExpandBuf) (text : Bytes) : ExpandBuf × Bytes :=
  let plen := tildePrefixLen text
  if plen = 0 then (out,text)
  else match tryTilde (text.take plen) with
  | some replacement => (out.pushLiteralSlice replacement,text.drop plen)
  | none => (out,text)

def pushQuotation (out : ExpandBuf) (body : Bytes) : ExpandBuf :=
  if body.isEmpty then out.pushQuotedNull else out.pushQuotedSlice body

section
variable {S E : Type} (H : Host S E)
variable (paramExpand : Bool → Bytes → ExpandBuf → Expand S E (Option (ExpandBuf × Bytes))) (flags : Flags)

def backquoteAt (quoted : Bool) (pushBare : ExpandBuf → ExpandBuf) (out : ExpandBuf) (rest : Bytes) :
    Expand S E (ExpandBuf × Bytes) :=
  match backquoteBody rest with
  | (body,some after) => do return (out.extendFrom (← H.backquote quoted body),after)
  | (body,none) =>
    if body.isEmpty then return (pushBare out,[])
    else throw (.badSubstitution (ParamScanning.asciiBytes "no closing \x60 in command substitution"))

def scanDoubleQuoted (escapeAll : Bool) : ℕ → Bool → ExpandBuf → Bytes → Expand S E (ExpandBuf × Bytes)
  | 0, _, out, text => return (out,text)
  | _, anyContent, out, [] => return (if anyContent then out else out.pushQuotedNull,[])
  | fuel + 1, anyContent, out, b :: rest =>
    if b = '"' then return (if anyContent then out else out.pushQuotedNull,rest)
    else match if b = '\\' then rest else [] with
    | n :: after =>
      if n = '\n' then scanDoubleQuoted escapeAll fuel anyContent out after
      else if escapeAll ∨ n = '"' ∨ n = '\\' ∨ n = '$' ∨ n = '\x60' then
        scanDoubleQuoted escapeAll fuel true (out.pushQuoted n) after
      else scanDoubleQuoted escapeAll fuel true ((out.pushQuoted b).pushQuoted n) after
    | [] =>
      if b = '$' then do
        match ← paramExpand true (b :: rest) out with
        | some (out,after) =>
          let count := (H.positional (← get).env).length
          scanDoubleQuoted escapeAll fuel true (dropEmptyParamBeforeDollarAt count after out) after
        | none => scanDoubleQuoted escapeAll fuel true (out.pushQuoted b) rest
      else if b = '\x60' then do
        let (out,after) ← backquoteAt H true (fun out => out.pushQuoted b) out rest
        scanDoubleQuoted escapeAll fuel true out after
      else scanDoubleQuoted escapeAll fuel true (out.pushQuoted b) rest

/-- The escapes that a backslash does not take away in a quoted context. -/
def keepsBackslash (n : UInt8) : Bool :=
  flags.quotedContext &&
    !(n = '\\' || n = '$' || n = '\x60' || n = '\n' ||
      (n = '"' && !(flags.heredocContext && !flags.paramWordContext)))

structure Run where
  out : ExpandBuf
  eqSeen : Bool

def Run.add (r : Run) (f : ExpandBuf → ExpandBuf) : Run := { r with out := f r.out }

def backslashStep (r : Run) (rest : Bytes) : Run × Bytes :=
  match rest with
  | n :: after =>
    if keepsBackslash flags n then (r.add fun out => (out.pushQuoted '\\').pushQuoted n,after)
    else if n = '\n' then (r,after)
    else (r.add fun out => out.pushQuoted n,after)
  | [] =>
    if H.compat52 then (r.add ExpandBuf.pushQuotedNull,[])
    else (r.add fun out => out.pushQuoted '\\',[])

def dollarStep (pushBare : ExpandBuf → ExpandBuf) (r : Run) (b : UInt8) (rest : Bytes) :
    Expand S E (Run × Bytes) := do
  let quoteForm := !flags.heredocContext && flags.quotedContext && flags.paramWordContext &&
    (rest.head? = some '\''.toUInt8 || rest.head? = some '"'.toUInt8)
  -- In the word of a quoted `${…}` the quotations `$'…'` and `$"…"` are still read.
  let handled ← paramExpand (!quoteForm && (flags.heredocContext || flags.quotedContext)) (b :: rest) r.out
  match handled with
  | some (out,after) =>
    let count := (H.positional (← get).env).length
    return (⟨if quoteForm then out else dropEmptyParamBeforeDollarAt count after out,r.eqSeen⟩,after)
  | none => return (r.add (if flags.heredocContext then fun out => out.pushQuoted b else pushBare),rest)

/-- Is this `=` or `:` one behind which a tilde may stand? -/
def tildeMark (assignmentTilde : Bool) (r : Run) (b : UInt8) : Bool :=
  (assignmentTilde && b = '=' && !r.eqSeen) || ((flags.assignRhs || assignmentTilde) && b = ':')

def runStep (r : Run) (b : UInt8) (rest : Bytes) : Expand S E (Run × Bytes) := do
  let ctx ← get
  let assignmentTilde := flags.assignment && !H.option ctx.env "posix"
  let pushBare (c : UInt8) (out : ExpandBuf) := pushOriginalLiteral ctx.ifs (!flags.noSplit) out c
  if b = '\\' then return backslashStep H flags r rest
  else if b = '\'' then
    if flags.arithContext then return (r.add (pushBare b),rest)
    else if flags.quotedContext then return (r.add fun out => out.pushQuoted b,rest)
    else return (r.add fun out => pushQuotation out (Quote.scanSingleQuoted rest).1,(Quote.scanSingleQuoted rest).2)
  else if b = '"' then
    if flags.heredocContext && !flags.paramWordContext then return (r.add fun out => out.pushQuoted b,rest)
    else
      let (out,after) ← scanDoubleQuoted H paramExpand flags.quotedContext (rest.length + 1) false r.out rest
      return (⟨out,r.eqSeen⟩,after)
  else if b = '$' then dollarStep H paramExpand flags (pushBare b) r b rest
  else if b = '\x60' then
    let (out,after) ← backquoteAt H false (pushBare b) r.out rest
    return (⟨out,r.eqSeen⟩,after)
  else if (b = '<' ∨ b = '>') ∧ rest.head? = some '('.toUInt8 ∧ !flags.noProcsub then
    let (out,after) ← H.processSubst (b :: rest) r.out
    return (⟨out,r.eqSeen⟩,after)
  else if tildeMark flags assignmentTilde r b then
    let (out,after) := tildeAt (H.tryTilde ctx.env) (pushBare b r.out) rest
    return (⟨out,r.eqSeen || b = '='⟩,after)
  else return (r.add (pushBare b),rest)

def runLoop (flags : Flags) : ℕ → Run → Bytes → Expand S E ExpandBuf
  | 0, r, _ => return r.out
  | _, r, [] => return r.out
  | fuel + 1, r, b :: rest => do
    let (r,rest) ← runStep H paramExpand flags r b rest
    runLoop flags fuel r rest

def expandWord (noTilde : Bool) (bytes : Bytes) : Expand S E ExpandBuf := do
  let env := (← get).env
  let start := if !noTilde && !flags.noTilde then tildeAt (H.tryTilde env) .new bytes else (.new,bytes)
  runLoop H paramExpand flags bytes.length ⟨start.1,false⟩ start.2
end

section
variable {S E : Type} (H : Host S E) (expandWordInternal : Flags → Bool → Bytes → Expand S E ExpandBuf)

def braceStage (flags : ExpandFlags) (w : WordDesc) : List (Flags × Bytes) :=
  (if !flags.noBrace && !w.flags.noBrace && !w.flags.assignment then Braces.braceExpand (encode w.text)
    else [encode w.text]).map fun bytes => (w.flags,bytes)

def splitStage (flags : ExpandFlags) (ifs : IfsState) (w : Flags × Bytes) : List (Flags × Bytes) :=
  if flags.splitFields && !w.1.noSplit && w.1.hasDollar then (split w.2 ifs).map fun part => (w.1,part) else [w]

def globStage (flags : ExpandFlags) (w : Flags × Bytes) : Expand S E (List (Flags × Bytes)) := do
  let env := (← get).env
  let opts : Pattern.GlobOpts := ⟨H.option env "nocaseglob",H.option env "extglob",false⟩
  if flags.expandGlob && !H.option env "noglob" && !w.1.noGlob && Pattern.hasGlobMeta w.2 opts then
    return (← H.pathnameExpand w.2).map fun path => (w.1,path)
  else return [w]

def toParser (w : Flags × Bytes) : WordDesc := ⟨bytesToShellString (dequoteBytes w.2),w.1⟩

def runWithContext (words : List WordDesc) (flags : ExpandFlags) : Expand S E (List WordDesc) := do
  let afterBrace := words.flatMap (braceStage flags)
  let afterInternal ← afterBrace.mapM fun w => do return (w.1,(← expandWordInternal w.1 flags.noTilde w.2).bytes)
  let afterArrayFields := afterInternal.flatMap fun w => (splitFieldMarkers w.2).map fun part => (w.1,part)
  let afterSplit := afterArrayFields.flatMap (splitStage flags (← get).ifs)
  let afterGlob ← afterSplit.mapM (globStage H flags)
  return afterGlob.flatten.map toParser

def run (words : List WordDesc) (flags : ExpandFlags) : Expand S E (List WordDesc) := do
  let before := (← get).splitFields
  modify fun ctx => { ctx with splitFields := flags.splitFields }
  let out ← runWithContext H expandWordInternal words flags
  modify fun ctx => { ctx with splitFields := before }
  return out
end

section
variable {S E α β : Type} (ctx : ExpCtx S) {ε : Type}

@[simp] theorem bind_apply (x : Expand S E α) (f : α → Expand S E β) : (x >>= f) ctx = (x ctx).bind fun p => f p.1 p.2 := rfl
@[simp] theorem pure_apply (a : α) : (pure a : Expand S E α) ctx = .ok (a,ctx) := rfl
@[simp] theorem get_apply : (get : Expand S E (ExpCtx S)) ctx = .ok (ctx,ctx) := rfl
@[simp] theorem modify_apply (f : ExpCtx S → ExpCtx S) : (modify f : Expand S E Unit) ctx = .ok ((),f ctx) := rfl
@[simp] theorem throw_apply (e : ExpandError E) : (throw e : Expand S E α) ctx = .error e := rfl
@[simp] theorem map_apply (f : α → β) (x : Expand S E α) : (f <$> x) ctx = (x ctx).map fun p => (f p.1,p.2) := rfl
@[simp] theorem ok_bind (a : α) (f : α → Except ε β) : (Except.ok a : Except ε α).bind f = f a := rfl
@[simp] theorem error_bind (e : ε) (f : α → Except ε β) : (Except.error e : Except ε α).bind f = .error e := rfl
@[simp] theorem ok_map (a : α) (f : α → β) : (Except.ok a : Except ε α).map f = .ok (f a) := rfl
end
end Cherubsh.Expander.Words
