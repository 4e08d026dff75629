import Cherubsh.Expander.Arith.Lexer
import Mathlib.Data.List.Infix

/-! # The test builtin

Up to four arguments are decided by their number alone; from five on a recursive descent evaluates
while it parses: no operand is skipped.
-/
namespace Cherubsh.Builtins.Test
open Expander.Arith (Text trim parseI64 isWhitespace)

structure FileMeta where
  mode : ℕ
  len : ℕ
  uid : ℕ
  gid : ℕ
  mtime : ℤ
  atime : ℤ
  dev : ℕ
  ino : ℕ

inductive Access where
  | read | write | execute
  deriving DecidableEq

inductive VarKind where
  | unset | scalar | indexed | assoc | nameref
  deriving DecidableEq

structure World where
  metadata : Text → Option FileMeta
  symlinkMetadata : Text → Option FileMeta
  access : Text → Access → Bool
  isatty : ℤ → Bool
  geteuid : ℕ
  getegid : ℕ
  /-- The environment asks for the messages of bash 5.2. -/
  compat52 : Bool
  option : Text → Bool
  kind : Text → VarKind
  get : Text → Option Text
  getArrayAssoc : Text → Text → Option Text
  getArrayIndexed : Text → ℤ → Option Text
  arrayLen : Text → ℕ
  /-- The refusal of a subscript that would be expanded a second time. -/
  indexedTargetArrayExpandOnceMessage : Text → Option Text

section
def isUnaryOp (c : Char) : Bool := c ∈ "abcdefghkLNOGprsStuwxznovR".toList

def binaryOps : List Text := ["=","==","!=","<",">","-eq","-ne","-lt","-le","-gt","-ge","-nt","-ot","-ef"].map String.toList

def isBinaryOp (s : Text) : Bool := s ∈ binaryOps

def unaryOp : Text → Option Char
  | ['-',c] => if isUnaryOp c then some c else none
  | _ => none

variable (w : World)

def integerExpected (s : Text) : Text :=
  s ++ (if w.compat52 then ": integer expression expected" else ": integer expected").toList

def parseTestInt (s : Text) : Except Text ℤ :=
  match parseI64 (trim s) with
  | some n => .ok n
  | none => .error (integerExpected w s)

def compareInts (test : ℤ → ℤ → Bool) (lhs rhs : Text) : Except Text Bool := do
  let l ← parseTestInt w lhs
  let r ← parseTestInt w rhs
  pure (test l r)

def newerThan (a b : Text) : Bool :=
  match w.metadata a,w.metadata b with
  | some am,some bm => am.mtime > bm.mtime
  | some _,none => true
  | _,_ => false

def olderThan (a b : Text) : Bool :=
  match w.metadata a,w.metadata b with
  | some am,some bm => am.mtime < bm.mtime
  | none,some _ => true
  | _,_ => false

def sameFile (a b : Text) : Bool :=
  match w.metadata a,w.metadata b with
  | some am,some bm => am.dev = bm.dev && am.ino = bm.ino
  | _,_ => false

def evalBinaryOp (op lhs rhs : Text) : Except Text Bool :=
  if op = "=" ∨ op = "==" then .ok (lhs = rhs)
  else if op = "!=" then .ok (lhs ≠ rhs)
  else if op = "<" then .ok (lhs < rhs)
  else if op = ">" then .ok (rhs < lhs)
  else if op = "-eq" then compareInts w (· = ·) lhs rhs
  else if op = "-ne" then compareInts w (· ≠ ·) lhs rhs
  else if op = "-lt" then compareInts w (· < ·) lhs rhs
  else if op = "-le" then compareInts w (· ≤ ·) lhs rhs
  else if op = "-gt" then compareInts w (· > ·) lhs rhs
  else if op = "-ge" then compareInts w (· ≥ ·) lhs rhs
  else if op = "-nt" then .ok (newerThan w lhs rhs)
  else if op = "-ot" then .ok (olderThan w lhs rhs)
  else if op = "-ef" then .ok (sameFile w lhs rhs)
  else .error (op ++ ": binary operator expected")

def splitSubscript (arg : Text) : Option (Text × Text) :=
  if '[' ∈ arg ∧ arg.getLast? = some ']' then
    some (arg.takeWhile (· ≠ '['),(arg.dropWhile (· ≠ '[')).tail.dropLast)
  else none

def variableIsSet (arg : Text) : Bool :=
  match splitSubscript arg with
  | some (name,key) =>
    if key = ['@'] ∨ key = ['*'] then
      match w.kind name with
      | .assoc => (w.getArrayAssoc name key).isSome
      | .indexed => 0 < w.arrayLen name
      | _ => (w.get name).isSome
    else if w.kind name = .assoc ∧ ¬w.option "assoc_expand_once" ∧ ("$(" <:+: key ∨ '\x60' ∈ key) then false
    else match parseI64 key with
      | some index => (w.getArrayIndexed name index).isSome
      | none => (w.getArrayAssoc name key).isSome
  | none =>
    match w.kind arg with
    | .assoc => (w.getArrayAssoc arg ['0']).isSome
    | .indexed => (w.getArrayIndexed arg 0).isSome
    | .unset => false
    | _ => true

def parseFd (arg : Text) : Option ℤ := (parseI64 (trim arg)).filter fun n => -2 ^ 31 ≤ n ∧ n < 2 ^ 31

def fileType (m : FileMeta) : ℕ := m.mode &&& 0o170000

def ofMeta (found : Option FileMeta) (test : FileMeta → Bool) : Bool := (found.map test).getD false

def unary (op : Char) (arg : Text) : Bool :=
  let file := ofMeta (w.metadata arg)
  match op with
  | 'a' | 'e' => (w.metadata arg).isSome || (w.symlinkMetadata arg).isSome
  | 'b' => file fun m => fileType m = 0o060000
  | 'c' => file fun m => fileType m = 0o020000
  | 'd' => file fun m => fileType m = 0o040000
  | 'f' => file fun m => fileType m = 0o100000
  | 'g' => file fun m => m.mode &&& 0o2000 ≠ 0
  | 'h' | 'L' => ofMeta (w.symlinkMetadata arg) fun m => fileType m = 0o120000
  | 'k' => file fun m => m.mode &&& 0o1000 ≠ 0
  | 'p' => file fun m => fileType m = 0o010000
  | 'r' => w.access arg .read
  | 's' => file fun m => 0 < m.len
  | 'u' => file fun m => m.mode &&& 0o4000 ≠ 0
  | 'w' => w.access arg .write
  | 'x' => w.access arg .execute
  | 'O' => file fun m => m.uid = w.geteuid
  | 'G' => file fun m => m.gid = w.getegid
  | 'N' => file fun m => m.mtime > m.atime
  | 'S' => file fun m => fileType m = 0o140000
  | 't' => w.isatty ((parseFd arg).getD (-1))
  | 'z' => arg.isEmpty
  | 'n' => !arg.isEmpty
  | 'o' => w.option arg
  | 'v' => variableIsSet w arg
  | 'R' => w.kind arg = .nameref
  | _ => false

def evalUnary (op : Char) (arg : Text) : Except Text Bool :=
  if op = 't' ∧ (parseFd arg).isNone then .error (arg ++ ": integer expected") else .ok (unary w op arg)

def evalUnaryExpr (op : Char) (arg : Text) : Except Text Bool :=
  if op = 't' ∧ arg = ['0'] then .ok true else evalUnary w op arg
end

section
abbrev Parse (α : Type) := List Text → Except Text (α × List Text)

/-- Operands joined by one connective. Every round takes an argument. -/
def joined (word : Text) (combine : Bool → Bool → Bool) (operand : Parse Bool) : ℕ → Bool → Parse Bool
  | n + 1,lhs,arg :: rest =>
    if arg = word then do
      let (rhs,rest) ← operand rest
      joined word combine operand n (combine lhs rhs) rest
    else .ok (lhs,arg :: rest)
  | _,lhs,rest => .ok (lhs,rest)

variable (n : ℕ) (operand : Parse Bool)

def parseAnd : Parse Bool := fun args => do
  let (lhs,rest) ← operand args
  joined "-a" (· && ·) operand n lhs rest

def parseOr : Parse Bool := fun args => do
  let (lhs,rest) ← parseAnd n operand args
  joined "-o" (· || ·) (parseAnd n operand) n lhs rest
end

section
variable (w : World) (requireBracket : Bool)

def closing (v : Bool) : Parse Bool
  | arg :: rest => if arg = [')'] then .ok (v,rest) else .error "\x60)' expected"
  | [] => .error (if requireBracket then "\x60)' expected, found ]" else "\x60)' expected").toList

def parseUnaryOp (op : Char) : Parse Bool
  | [] => .ok (true,[])
  | arg :: rest => if arg = [')'] then .ok (true,arg :: rest) else (evalUnaryExpr w op arg).map (·,rest)

def parseBinaryOp (tok : Text) : Parse Bool
  | [] => .ok (!tok.isEmpty,[])
  | op :: rest =>
    if isBinaryOp op then
      match rest with
      | [] => .error ("syntax error: \x60" ++ op ++ "' unexpected")
      | rhs :: rest => (evalBinaryOp w op tok rhs).map (·,rest)
    else .ok (!tok.isEmpty,op :: rest)

/-- `parse_unary`, for at most the given number of arguments. -/
def parseUnary : ℕ → Parse Bool
  | n + 1,tok :: rest =>
    if tok = ['!'] then do
      let (v,rest) ← parseUnary n rest
      .ok (!v,rest)
    else if tok = ['('] then do
      let (v,rest) ← parseOr n (parseUnary n) rest
      closing requireBracket v rest
    else match unaryOp tok with
      | some op => parseUnaryOp w op rest
      | none => parseBinaryOp w tok rest
  | _,_ => .error "argument expected"
end

section
inductive Report where
  | diagnostic (subject message : Text)
  | bare (message : Text)
  deriving DecidableEq

structure Outcome where
  status : ℕ
  report : Option Report
  deriving DecidableEq

def boolToStatus (v : Bool) : ℕ := if v then 0 else 1

def invert (o : Outcome) : Outcome :=
  {o with status := if o.status = 0 then 1 else if o.status = 1 then 0 else o.status}

def truth (v : Bool) : Outcome := ⟨boolToStatus v,none⟩

def refusal (subject message : Text) : Outcome := ⟨2,some (.diagnostic subject message)⟩

def verdict (subject : Text) : Except Text Bool → Outcome
  | .ok v => truth v
  | .error message => refusal subject message

structure ArgFlags where
  arrayref : Bool
  quoted : Bool

variable (w : World)

def firstWord (arg : Text) : Text :=
  let word := (arg.dropWhile isWhitespace).takeWhile (!isWhitespace ·)
  if word.isEmpty then arg else word

def binaryOrUnary2 (flags : List ArgFlags) (subject first second : Text) : Outcome :=
  if first = ['!'] then truth second.isEmpty
  else match unaryOp first with
    | some ch =>
      let refused := flags[1]?.any fun f => f.arrayref && !f.quoted
      if ch = 'v' ∧ refused ∧ "$(" <:+: second ∧ second.any isWhitespace then
        refusal subject (firstWord second ++ ": binary operator expected")
      else match if ch = 'v' then w.indexedTargetArrayExpandOnceMessage second else none with
        | some message => ⟨2,some (.bare message)⟩
        | none => verdict subject (evalUnary w ch second)
    | none => refusal subject (first ++ ": unary operator expected")

def ternary (subject first second third : Text) : Outcome :=
  if second = "-a" then truth (!first.isEmpty && !third.isEmpty)
  else if second = "-o" then truth (!first.isEmpty || !third.isEmpty)
  else if isBinaryOp second then verdict subject (evalBinaryOp w second first third)
  else if first = ['!'] then invert (binaryOrUnary2 w [] subject second third)
  else if first = ['('] ∧ third = [')'] then truth (!second.isEmpty)
  else refusal subject (second ++ ": binary operator expected")

def leftOver : List Text → Text
  | ('-' :: rest) :: _ => "syntax error: \x60" ++ '-' :: rest ++ "' unexpected"
  | _ => "too many arguments"

def finish (subject : Text) : Except Text (Bool × List Text) → Outcome
  | .ok (v,[]) => truth v
  | .ok (_,rest) => refusal subject (leftOver rest)
  | .error message => refusal subject message

def parsed (requireBracket : Bool) (subject : Text) (args : List Text) : Outcome :=
  finish subject (parseOr args.length (parseUnary w requireBracket args.length) args)

def quaternary (requireBracket : Bool) (subject a b c d : Text) : Outcome :=
  if a = ['!'] then invert (ternary w subject b c d)
  else if a = ['('] ∧ d = [')'] then binaryOrUnary2 w [] subject b c
  else parsed w requireBracket subject [a,b,c,d]

def subjectOf (requireBracket : Bool) : Text := (if requireBracket then "[" else "test").toList

def decideTest (requireBracket : Bool) (flags : List ArgFlags) (args : List Text) : Outcome :=
  let subject := subjectOf requireBracket
  match args with
  | [] => ⟨1,none⟩
  | [a] => truth (!a.isEmpty)
  | [a,b] => binaryOrUnary2 w flags subject a b
  | [a,b,c] => ternary w subject a b c
  | [a,b,c,d] => quaternary w requireBracket subject a b c d
  | args => parsed w requireBracket subject args

def runTest (requireBracket : Bool) (flags : List ArgFlags) (raw : List Text) : Outcome :=
  if requireBracket then
    if raw.getLast? = some [']'] then decideTest w true flags.dropLast raw.dropLast
    else refusal (subjectOf true) "missing \x60]'"
  else decideTest w false flags raw
end
end Cherubsh.Builtins.Test
