import Cherubsh.Library.Utf8

/-! # Tokens of arithmetic expressions

The lexer holds one token at a time together with its place in the source. Numbers
wrap at 64 bits in any radix; a name takes its subscript with it, unread. Errors keep
the place they point at.
-/
namespace Cherubsh.Expander.Arith

abbrev Text : Type := List Char

instance : Coe String Text := ⟨String.toList⟩

abbrev I64 : Type := BitVec 64

inductive Tok where
  | num (n : I64)
  | ident (name : Text)
  | plus | minus | star | slash | percent | starStar
  | eq | plusEq | minusEq | starEq | slashEq | percentEq | starStarEq | ampEq | pipeEq | caretEq | shlEq | shrEq
  | lparen | rparen | bang | tilde | ampAmp | pipePipe | amp | pipe | caret
  | eqEq | bangEq | lt | le | gt | ge | shl | shr | question | colon | comma | plusPlus | minusMinus
  | eof
  deriving DecidableEq

/-- The errors of the evaluator; those of the variables behind it are of a type of their own. -/
inductive ArithError (E : Type*) where
  | operandExpected (src : Text) (start : ℕ)
  | expressionExpected (src : Text) (start : ℕ)
  | conditionalColonExpected (src : Text) (start : ℕ)
  | syntaxErrorInExpression (src : Text) (start : ℕ)
  | invalidOperator (src : Text) (start : ℕ)
  | assignmentToNonVariable (src : Text) (start : ℕ)
  | number (raw : Text) (message : String)
  | invalidNumber (raw : Text)
  | divisionAt (src : Text) (start : ℕ)
  | missingRparen (src : Text) (before : ℕ)
  | exponentBelowZero (src : Text) (start : ℕ)
  | requiresLvalue (expr : Text) (op : String)
  | requiresIdentifier
  | divisionByZero
  | recursion
  | access (e : E)
  | outOfFuel
  deriving DecidableEq

section
variable (c : Char)

def isAsciiWhitespace : Bool := c = ' ' || c = '\t' || c = '\n' || c = '\x0c' || c = '\r'

def isWhitespace : Bool :=
  (0x09 ≤ c.toNat && c.toNat ≤ 0x0d) || c.toNat = 0x20 || c.toNat = 0x85 || c.toNat = 0xa0 || c.toNat = 0x1680 ||
    (0x2000 ≤ c.toNat && c.toNat ≤ 0x200a) || c.toNat = 0x2028 || c.toNat = 0x2029 || c.toNat = 0x202f ||
    c.toNat = 0x205f || c.toNat = 0x3000

def trimStart (s : Text) : Text := s.dropWhile isWhitespace

def trim (s : Text) : Text := (trimStart (trimStart s).reverse).reverse

def isIdentStart : Bool := c = '_' || c.isAlpha

def isIdentChar : Bool := c = '_' || c.isAlphanum

def isNumberChar : Bool := c.isAlphanum || c = '#' || c = '@' || c = '_'
end

section
variable {E : Type*}

def radixDigit (base : ℕ) (c : Char) : Option ℕ :=
  if c.isDigit then some (c.toNat - '0'.toNat)
  else if c.isLower then some (c.toNat - 'a'.toNat + 10)
  else if c.isUpper then some (if base ≤ 36 then c.toNat - 'A'.toNat + 10 else c.toNat - 'A'.toNat + 36)
  else if c = '@' then some 62
  else if c = '_' then some 63
  else none

def foldRadix (base : ℕ) (raw : Text) : Text → I64 → Except (ArithError E) I64
  | [], value => .ok value
  | c :: digits, value =>
    match radixDigit base c with
    | none => .error (.number raw "invalid number")
    | some d =>
      if base ≤ d then .error (.number raw "value too great for base")
      else foldRadix base raw digits (value * BitVec.ofNat 64 base + BitVec.ofNat 64 d)

/-- A decimal number as the standard conversion reads it, with a sign and a range. -/
def parseI64 (s : Text) : Option ℤ :=
  let (sign,digits) := match s with
    | '-' :: rest => ((-1 : ℤ),rest)
    | '+' :: rest => (1,rest)
    | rest => (1,rest)
  if digits.isEmpty || !digits.all Char.isDigit then none
  else
    let n := sign * digits.foldl (fun n c => 10 * n + (c.toNat - '0'.toNat)) 0
    if -2 ^ 63 ≤ n ∧ n < 2 ^ 63 then some n else none

def charToDigit (radix : ℕ) (c : Char) : Option ℕ :=
  match radixDigit 36 c with
  | some d => if d < radix then some d else none
  | none => none

def foldWrapping (radix : ℕ) (raw : Text) : Text → I64 → Except (ArithError E) I64
  | [], value => .ok value
  | c :: digits, value =>
    match charToDigit radix c with
    | none => .error (.invalidNumber raw)
    | some d => foldWrapping radix raw digits (value * BitVec.ofNat 64 radix + BitVec.ofNat 64 d)

def parseRadixWrapping (digits : Text) (radix : ℕ) (raw : Text) : Except (ArithError E) I64 :=
  if digits.isEmpty then .error (.invalidNumber raw) else foldWrapping radix raw digits 0

def parseNumber (s : Text) : Except (ArithError E) I64 :=
  if '#' ∈ s then
    let basePart := s.takeWhile (· ≠ '#')
    let digitPart := (s.dropWhile (· ≠ '#')).tail
    match parseI64 basePart with
    | none => .error (.number s "invalid arithmetic base")
    | some base =>
      if base = 0 then .error (.number s "invalid number")
      else if base < 2 ∨ 64 < base then .error (.number s "invalid arithmetic base")
      else if digitPart.isEmpty then .error (.number s "invalid integer constant")
      else foldRadix base.toNat s digitPart 0
  else
    match s with
    | '0' :: 'x' :: rest => parseRadixWrapping rest 16 s
    | '0' :: 'X' :: rest => parseRadixWrapping rest 16 s
    | '0' :: c :: rest =>
      if (c :: rest).all Char.isDigit then parseRadixWrapping (c :: rest) 8 s else parseRadixWrapping s 10 s
    | s => parseRadixWrapping s 10 s
end

/-- How much of the text belongs to a subscript. A pair `[]` or `]]` right inside does not nest. -/
def subscriptLength : ℕ → Text → ℕ
  | 0, _ => 0
  | _, [] => 0
  | depth + 1, '\\' :: _ :: rest => 2 + subscriptLength (depth + 1) rest
  | depth + 1, c :: rest =>
    if depth = 0 ∧ (c = '[' ∨ c = ']') ∧ rest.head? = some ']' then 1 + subscriptLength 1 rest
    else if c = '[' then 1 + subscriptLength (depth + 2) rest
    else if c = ']' then 1 + subscriptLength depth rest
    else 1 + subscriptLength (depth + 1) rest

def nameLength (text : Text) : ℕ :=
  let n := (text.takeWhile isIdentChar).length
  match text.drop n with
  | '[' :: rest => n + 1 + subscriptLength 1 rest
  | _ => n

def operator : Text → Option (Tok × ℕ)
  | '*' :: '*' :: '=' :: _ => some (.starStarEq,3)
  | '<' :: '<' :: '=' :: _ => some (.shlEq,3)
  | '>' :: '>' :: '=' :: _ => some (.shrEq,3)
  | '*' :: '*' :: _ => some (.starStar,2)
  | '<' :: '<' :: _ => some (.shl,2)
  | '>' :: '>' :: _ => some (.shr,2)
  | '<' :: '=' :: _ => some (.le,2)
  | '>' :: '=' :: _ => some (.ge,2)
  | '=' :: '=' :: _ => some (.eqEq,2)
  | '!' :: '=' :: _ => some (.bangEq,2)
  | '&' :: '&' :: _ => some (.ampAmp,2)
  | '|' :: '|' :: _ => some (.pipePipe,2)
  | '+' :: '=' :: _ => some (.plusEq,2)
  | '-' :: '=' :: _ => some (.minusEq,2)
  | '*' :: '=' :: _ => some (.starEq,2)
  | '/' :: '=' :: _ => some (.slashEq,2)
  | '%' :: '=' :: _ => some (.percentEq,2)
  | '&' :: '=' :: _ => some (.ampEq,2)
  | '|' :: '=' :: _ => some (.pipeEq,2)
  | '^' :: '=' :: _ => some (.caretEq,2)
  | '+' :: '+' :: _ => some (.plusPlus,2)
  | '-' :: '-' :: _ => some (.minusMinus,2)
  | '+' :: _ => some (.plus,1)
  | '-' :: _ => some (.minus,1)
  | '*' :: _ => some (.star,1)
  | '/' :: _ => some (.slash,1)
  | '%' :: _ => some (.percent,1)
  | '(' :: _ => some (.lparen,1)
  | ')' :: _ => some (.rparen,1)
  | '!' :: _ => some (.bang,1)
  | '~' :: _ => some (.tilde,1)
  | '<' :: _ => some (.lt,1)
  | '>' :: _ => some (.gt,1)
  | '=' :: _ => some (.eq,1)
  | '&' :: _ => some (.amp,1)
  | '|' :: _ => some (.pipe,1)
  | '^' :: _ => some (.caret,1)
  | '?' :: _ => some (.question,1)
  | ':' :: _ => some (.colon,1)
  | ',' :: _ => some (.comma,1)
  | _ => none

structure Lexer where
  src : Text
  i : ℕ
  cur : Tok
  tokStart : ℕ
  tokEnd : ℕ
  deriving DecidableEq

namespace Lexer
variable {E : Type*}

def take (src : Text) (start : ℕ) (tok : Tok) (length : ℕ) : Lexer := ⟨src,start + length,tok,start,start + length⟩

def tokenAt (src : Text) (start : ℕ) : Except (ArithError E) Lexer :=
  match src.drop start with
  | [] => .ok (take src start .eof 0)
  | c :: rest =>
    if c.isDigit then
      let raw := (c :: rest).takeWhile isNumberChar
      (parseNumber raw).map fun v => take src start (.num v) raw.length
    else if isIdentStart c then
      let length := nameLength (c :: rest)
      .ok (take src start (.ident ((c :: rest).take length)) length)
    else
      match operator (c :: rest) with
      | some (tok,length) => .ok (take src start tok length)
      | none =>
        if c = '[' ∨ c = ']' ∨ c = '\\' then .error (.invalidOperator src start)
        else .error (.operandExpected src start)

def advance (lex : Lexer) : Except (ArithError E) Lexer :=
  tokenAt lex.src (lex.i + ((lex.src.drop lex.i).takeWhile isAsciiWhitespace).length)

def new (src : Text) : Except (ArithError E) Lexer := advance ⟨src,0,.eof,0,0⟩

def consumeFirstCharOfDoubleOperator (lex : Lexer) : Except (ArithError E) Lexer :=
  advance {lex with i := lex.tokEnd - 1}
end Lexer
end Cherubsh.Expander.Arith
