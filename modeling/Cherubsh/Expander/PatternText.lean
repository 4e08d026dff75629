import Cherubsh.Expander.Pattern
import Cherubsh.Expander.Buffer

/-! # Patterns as text, and what is done with them

A pattern is read from a buffer, where quoted bytes stand for themselves. Removal,
substitution and case modification walk over a value with the tokens; a pattern without
any special byte is compared as a literal instead.
-/
namespace Cherubsh.Expander.Pattern
open Utf8 Split Buffer

inductive ClassAtom where
  | item (i : ClassItem)
  | invalid
  deriving DecidableEq

def namedClasses : List (String × NamedClass) :=
  [("alpha",.alpha),("alnum",.alnum),("digit",.digit),("lower",.lower),("upper",.upper),("space",.space),("blank",.blank),
    ("print",.print),("punct",.punct),("xdigit",.xdigit),("cntrl",.cntrl),("graph",.graph),("ascii",.ascii),("word",.word)]

def collatingSymbols : List (String × UInt8) :=
  [("hyphen",'-'),("space",' '),("tab",'\t'),("newline",'\n'),("grave-accent",'\x60')]

def lookup {α : Type} (table : List (String × α)) (name : Bytes) : Option α :=
  (table.find? fun entry => entry.1.toList.map Char.toUInt8 = name).map Prod.snd

def parseNamedClass (name : Bytes) : Option NamedClass := lookup namedClasses name

def parseCollatingSymbol (name : Bytes) : Option UInt8 :=
  match name with
  | [b] => some b
  | _ => lookup collatingSymbols name

def findBracketExprEnd (marker : UInt8) : Bytes → Option (Bytes × Bytes)
  | [] => none
  | [_] => none
  | b :: c :: rest =>
    if b = ']' ∧ marker ≠ '.' then none
    else if b = marker ∧ c = ']' then some ([],rest)
    else (findBracketExprEnd marker (c :: rest)).map fun p => (b :: p.1,p.2)

def bracketAtom : Bytes → Option (ClassAtom × Bytes)
  | [] => none
  | marker :: text =>
    if marker = ':' then
      (findBracketExprEnd marker text).map fun p =>
        (((parseNamedClass (dequoteBytes p.1)).map fun n => ClassAtom.item (.named n)).getD .invalid,p.2)
    else if marker = '.' ∨ marker = '=' then
      (findBracketExprEnd marker text).map fun p =>
        (((parseCollatingSymbol (dequoteBytes p.1)).map fun b => ClassAtom.item (.single b)).getD .invalid,p.2)
    else none

def classByte (c : UInt8) (rest : Bytes) : UInt8 × Bytes :=
  if c = '\\' then
    match rest with
    | [] => (c,rest)
    | [e] => if e = ctlesc then (c,rest) else (e,[])
    | [e,x] => if e = ctlesc then (c,rest) else (e,[x])
    | e :: r :: x :: after =>
      if e = ctlesc ∧ r = ctlraw then (x,after)
      else if e = ctlesc then (c,rest)
      else (e,r :: x :: after)
  else if c = ctlesc then
    match rest with
    | [] => (c,rest)
    | [x] => (x,[])
    | r :: x :: after => if r = ctlraw then (x,after) else (r,x :: after)
  else (c,rest)

def parseClassAtom (c : UInt8) (rest : Bytes) : ClassAtom × Bytes :=
  match if c = '[' then bracketAtom rest else none with
  | some r => r
  | none => (.item (.single (classByte c rest).1),(classByte c rest).2)

def rangeItem : ClassAtom → ClassAtom → List ClassItem
  | .item (.single lo), .item (.single hi) => [.range lo hi]
  | _, _ => []

def atomItem : ClassAtom → List ClassItem
  | .item i => [i]
  | .invalid => []

/-- The items of a class up to its closing bracket. In a pathname no slash may stand inside. -/
def classItems (pathname : Bool) : ℕ → List ClassItem → Bool → Bytes → Option (List ClassItem × Bytes)
  | 0, _, _, _ => none
  | _, _, _, [] => none
  | fuel + 1, items, first, c :: rest =>
    if pathname ∧ c = '/' then none
    else if c = ']' ∧ !first then some (items,rest)
    else
      let (lo,after) := parseClassAtom c rest
      match after with
      | dash :: h :: more =>
        if dash = '-' ∧ h ≠ ']' then
          if pathname ∧ h = '/' then none
          else
            let (hi,after) := parseClassAtom h more
            classItems pathname fuel (items ++ rangeItem lo hi) false after
        else classItems pathname fuel (items ++ atomItem lo) false after
      | _ => classItems pathname fuel (items ++ atomItem lo) false after

def isNegation (b : UInt8) : Bool := b = '!' || b = '^'

def classFrom (pathname : Bool) (text : Bytes) : Option (Bool × List ClassItem × Bytes) :=
  match text with
  | [] => none
  | b :: rest =>
    let body := if isNegation b then rest else text
    (classItems pathname body.length [] true body).map fun p => (isNegation b,p.1,p.2)

def tryParseClass (text : Bytes) : Option (Tok × Bytes) :=
  (classFrom false text).map fun p => (.cls p.1 p.2.1,p.2.2)

def hasPathnameClassEnd (text : Bytes) : Bool := (classFrom true text).isSome

def escapedByte (b : UInt8) (rest : Bytes) : Option (UInt8 × Bytes) :=
  if b = ctlesc then
    match rest with
    | [] => none
    | [x] => some (x,[])
    | r :: x :: after => if r = ctlraw then some (x,after) else some (r,x :: after)
  else none

/-- Behind a backslash: the byte it stands for, or itself in front of a mark. -/
def backslashByte (rest : Bytes) : Option (UInt8 × Bytes) :=
  match rest with
  | [] => none
  | _ => some (classByte '\\' rest)

def extKind (b : UInt8) : Option ExtKind :=
  if b = '*' then some .star
  else if b = '?' then some .q
  else if b = '+' then some .plus
  else if b = '@' then some .at
  else if b = '!' then some .bang
  else none

def plainTok (b : UInt8) : Tok := if b = '*' then .star else if b = '?' then .question else .lit b

structure Parsed where
  toks : List Tok
  invalidClass : Bool
  rest : Bytes

def Parsed.cons (tok : Tok) (p : Parsed) : Parsed := { p with toks := tok :: p.toks }

mutual
def parseInner (opts : GlobOpts) (inParen : Bool) : ℕ → Bytes → Parsed
  | 0, text => ⟨[],false,text⟩
  | _, [] => ⟨[],false,[]⟩
  | fuel + 1, b :: rest =>
    if inParen ∧ (b = '|' ∨ b = ')') then ⟨[],false,b :: rest⟩
    else match escapedByte b rest with
    | some (x,after) => (parseInner opts inParen fuel after).cons (.lit x)
    | none =>
      if b = ctlnul then parseInner opts inParen fuel rest
      else if b = '[' then
        match tryParseClass rest with
        | some (cls,after) => (parseInner opts inParen fuel after).cons cls
        | none => { (parseInner opts inParen fuel rest).cons (.lit b) with invalidClass := true }
      else if b = '\\' then
        match backslashByte rest with
        | some (x,after) => (parseInner opts inParen fuel after).cons (.lit x)
        | none => (parseInner opts inParen fuel rest).cons (.lit b)
      else match tryParseExt opts fuel b rest with
      | some (ext,after) => (parseInner opts inParen fuel after).cons ext
      | none => (parseInner opts inParen fuel rest).cons (plainTok b)

/-- A group of alternatives, if the byte and the parenthesis behind it open one. -/
def tryParseExt (opts : GlobOpts) : ℕ → UInt8 → Bytes → Option (Tok × Bytes)
  | 0, _, _ => none
  | fuel + 1, b, rest =>
    match extKind b, rest with
    | some kind, paren :: text =>
      if opts.extglob ∧ paren = '(' then
        (parseBranches opts fuel text).map fun p => (.ext kind p.1,p.2)
      else none
    | _, _ => none

def parseBranches (opts : GlobOpts) : ℕ → Bytes → Option (List (List Tok) × Bytes)
  | 0, _ => none
  | fuel + 1, text =>
    let p := parseInner opts true fuel text
    if p.invalidClass then none
    else match p.rest with
    | [] => none
    | b :: more =>
      if b = '|' then (parseBranches opts fuel more).map fun q => (p.toks :: q.1,q.2)
      else if b = ')' then some ([p.toks],more)
      else none
end

def parse (pat : Bytes) (opts : GlobOpts) : List Tok := (parseInner opts false (2 * pat.length) pat).toks

def hasGlobMetaWith (opts : GlobOpts) : ℕ → Bytes → Bool
  | 0, _ => false
  | _, [] => false
  | fuel + 1, b :: rest =>
    if b = ctlesc then
      match rest with
      | r :: _ :: after => hasGlobMetaWith opts fuel (if r = ctlraw then after else rest.drop 1)
      | _ => false
    else if b = '\\' ∧ rest ≠ [] then
      hasGlobMetaWith opts fuel (if rest.head? = some ctlesc then rest else rest.drop 1)
    else if b = '*' ∨ b = '?' then true
    else if b = '[' ∧ hasPathnameClassEnd rest then true
    else if opts.extglob ∧ (b = '@' ∨ b = '+' ∨ b = '!') ∧ rest.head? = some '('.toUInt8 then true
    else hasGlobMetaWith opts fuel rest

def hasGlobMeta (s : Bytes) (opts : GlobOpts) : Bool := hasGlobMetaWith opts s.length s
end Cherubsh.Expander.Pattern
