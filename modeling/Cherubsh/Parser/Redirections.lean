import Cherubsh.Library.Ensures
import Cherubsh.Expander.Arith.Lexer
import Cherubsh.Parser.Ast

/-! # Redirections and here-documents

The body of a here-document is cut out of the input when its redirection is parsed. Tokens that
were made from the body are dropped; if one of them reaches past it, what follows is read again.
-/
namespace Cherubsh.Grammar

structure Parser where
  tokens : List Token
  index : ℕ
  input : Text
  hereDocCount : ℕ
  hereDocBodyOffset : Option ℕ
  deriving DecidableEq

inductive ParseError where
  | at (message : String) (span : Option Span)
  | outOfFuel
  deriving DecidableEq

abbrev Parse (α : Type) : Type := StateT Parser (Except ParseError) α

namespace Parser
variable (s : Parser)

def new (tokens : List Token) (input : Text) : Parser := ⟨tokens,0,input,0,none⟩

def peekN (n : ℕ) : Option Token := s.tokens[s.index + n]?
def peek : Option Token := s.peekN 0
def peekKind : Option TokenKind := s.peek.map Token.kind
def peekSpan : Option Span := s.peek.map Token.span

def rawForSpan (span : Span) : Option Text :=
  if span.stop ≤ s.input.length ∧ span.start ≤ span.stop then some ((s.input.take span.stop).drop span.start) else none

def isWord (text : String) : Bool := s.peek.any fun t => t.isText text
end Parser

def failHere {α : Type} (message : String) : Parse α := do
  let s ← get
  throw (.at message s.peekSpan)

def bump : Parse (Option Token) := do
  let s ← get
  match s.peek with
  | some t =>
    set { s with index := s.index + 1 }
    return some t
  | none => return none

theorem bump_of_peek {s : Parser} {t : Token} (h : s.peek = some t) :
    bump s = .ok (some t,{ s with index := s.index + 1 }) := by
  refine (get_bind _ s).trans ?_
  rw [h]
  rfl

section
def lineEnd (input : Text) (start : ℕ) : ℕ := start + ((input.drop start).takeWhile (· ≠ '\n')).length

def spanningEnd (tokens : List Token) (cursor : ℕ) : ℕ :=
  tokens.foldl (fun stop t => if t.span.start < cursor ∧ cursor < t.span.stop ∧ stop < t.span.stop then t.span.stop
    else stop) cursor

/-- Move on past every token that goes over the place and the line that token ends on. -/
def pastSpanning (tokens : List Token) (input : Text) : ℕ → ℕ → ℕ
  | 0, cursor => cursor
  | fuel + 1, cursor =>
    let reach := spanningEnd tokens cursor
    if reach = cursor then cursor
    else
      let newline := lineEnd input (min reach input.length)
      if input.length ≤ newline then newline else pastSpanning tokens input fuel (newline + 1)

def initialHeredocBodyCursor (tokens : List Token) (input : Text) (startOffset : ℕ) : Option ℕ :=
  let newline := lineEnd input startOffset
  if input.length ≤ newline then none else some (pastSpanning tokens input (input.length + 1) (newline + 1))

/-- A line with the lines it is continued on, the place after it and whether a newline
ended it. -/
def heredocLogicalLine (input : Text) (removeEscapedNewlines : Bool) : ℕ → ℕ → Text → Text × ℕ × Bool
  | 0, cursor, line => (line,cursor,false)
  | fuel + 1, cursor, line =>
    let physical := (input.drop cursor).takeWhile (· ≠ '\n')
    let stop := lineEnd input cursor
    let consumedNewline := decide (stop < input.length)
    if removeEscapedNewlines && consumedNewline && physical.getLast? = some '\\' then
      heredocLogicalLine input removeEscapedNewlines fuel (stop + 1) (line ++ physical.dropLast)
    else (line ++ physical,if consumedNewline then stop + 1 else stop,consumedNewline)

structure Wanted where
  delimiter : Text
  allowTabs : Bool
  removeEscapedNewlines : Bool
  deriving DecidableEq

def Wanted.closes (w : Wanted) (line : Text) : Bool :=
  (if w.allowTabs then line.dropWhile (· = '\t') else line) = w.delimiter

/-- The lines up to the delimiter line or to the end of the input, and the place after. -/
def readBody (input : Text) (w : Wanted) : ℕ → ℕ → Text → Text × ℕ
  | 0, cursor, body => (body,cursor)
  | fuel + 1, cursor, body =>
    if input.length < cursor then (body,cursor)
    else
      match heredocLogicalLine input w.removeEscapedNewlines (input.length + 1) cursor [] with
      | (line,stop,consumedNewline) =>
        if w.closes line then (body,stop)
        else
          let body := body ++ (line ++ if consumedNewline then ['\n'] else [])
          if input.length ≤ stop then (body,stop) else readBody input w fuel stop body

def shiftSpan (by_ : ℕ) (t : Token) : Token :=
  { t with span := { t.span with start := t.span.start + by_, stop := t.span.stop + by_ } }

variable (relex : Text → ℕ → List Token)

def skipTokensInRange (s : Parser) (startOffset endOffset : ℕ) : Parser :=
  let within (t : Token) : Bool := startOffset ≤ t.span.start && t.span.start < endOffset
  match s.tokens.find? fun t => within t && endOffset < t.span.stop with
  | some t =>
    { s with
      tokens := (s.tokens.filter fun t => t.span.start < startOffset) ++
        (relex (s.input.drop endOffset) t.span.source).map (shiftSpan endOffset) }
  | none => { s with tokens := s.tokens.take s.index ++ (s.tokens.drop s.index).filter fun t => !within t }

def bodyStart (s : Parser) (startOffset : ℕ) : Option ℕ :=
  match s.hereDocBodyOffset with
  | some offset => some (max offset startOffset)
  | none => initialHeredocBodyCursor s.tokens s.input startOffset

def consumeHeredocBody (w : Wanted) (startOffset : ℕ) : Parse (Text × Place) := do
  let s ← get
  if s.input.length ≤ startOffset then return ([],⟨startOffset,startOffset⟩)
  else
    match bodyStart s startOffset with
    | none => return ([],⟨startOffset,s.input.length⟩)
    | some start =>
      let (body,stop) := readBody s.input w (s.input.length + 1) start []
      set (skipTokensInRange relex s start stop)
      return (body,⟨start,stop⟩)

def normalizeHeredocDelimiter : Text → Text
  | [] => []
  | ['\\'] => ['\\']
  | '\\' :: next :: rest => next :: normalizeHeredocDelimiter rest
  | '\'' :: rest => quotedBy '\'' rest
  | '"' :: rest => quotedBy '"' rest
  | ch :: rest => ch :: normalizeHeredocDelimiter rest
where
  quotedBy (quote : Char) : Text → Text
    | [] => []
    | ch :: rest => if ch = quote then normalizeHeredocDelimiter rest else ch :: quotedBy quote rest

def heredocMax : ℕ := 16
end

section
def redirectInstruction : TokenKind → Option RedirectInstruction
  | .less => some .inputDirection
  | .greater => some .outputDirection
  | .lessLess => some .readingUntil
  | .lessLessMinus => some .deblankReadingUntil
  | .lessLessLess => some .readingString
  | .greaterGreater => some .appendingTo
  | .greaterBar => some .outputForce
  | .lessAnd => some .duplicatingInput
  | .greaterAnd => some .duplicatingOutput
  | .andGreater => some .errAndOut
  | .andGreaterGreater => some .appendErrAndOut
  | .lessGreater => some .inputOutput
  | _ => none

def defaultRedirectFd : RedirectInstruction → ℤ
  | .inputDirection | .inputaDirection | .readingUntil | .readingString | .deblankReadingUntil | .duplicatingInput
  | .duplicatingInputWord | .moveInput | .moveInputWord | .inputOutput | .closeThis => 0
  | .outputDirection | .appendingTo | .duplicatingOutput | .duplicatingOutputWord | .outputForce | .moveOutput
  | .moveOutputWord | .errAndOut | .appendErrAndOut => 1

def parseI32 (s : Text) : Option ℤ := (Expander.Arith.parseI64 s).filter fun n => -2 ^ 31 ≤ n ∧ n < 2 ^ 31

def redirectorOf (instruction : RedirectInstruction) : Option Token → Redirector
  | none => .fd (defaultRedirectFd instruction)
  | some token =>
    match token.value with
    | .number value _ => .fd (BitVec.ofInt 32 value).toInt
    | .text text =>
      match redirWordName text with
      | some name => .var name
      | none =>
        match parseI32 text with
        | some value => .fd value
        | none => .var text
    | .none => .fd (defaultRedirectFd instruction)

def duplicates : RedirectInstruction → Bool
  | .duplicatingInput | .duplicatingOutput => true
  | _ => false

def refineInstruction (instruction : RedirectInstruction) (target : Text) : RedirectInstruction :=
  let input := instruction = .duplicatingInput
  if !duplicates instruction then instruction
  else if target = ['-'] then .closeThis
  else if target.getLast? = some '-' then
    if !target.dropLast.isEmpty && target.dropLast.all Char.isDigit then
      if input then .moveInput else .moveOutput
    else if input then .moveInputWord else .moveOutputWord
  else if target.all Char.isDigit then instruction
  else if input then .duplicatingInputWord else .duplicatingOutputWord

def redirecteeOf (instruction : RedirectInstruction) (target : WordDesc) : Redirectee :=
  match instruction with
  | .closeThis => .fd (-1)
  | .duplicatingInput | .duplicatingOutput | .moveInput | .moveOutput =>
    .fd ((parseI32 (target.text.reverse.dropWhile (· = '-')).reverse).getD (-1))
  | _ => .word target

def rflagsOf : Redirector → ℕ
  | .var _ => redirVarassign
  | .fd _ => 0

def wantedOf (instruction : RedirectInstruction) (target : WordDesc) : Wanted :=
  let allowTabs := decide (instruction = .deblankReadingUntil)
  let delimiter := normalizeHeredocDelimiter target.text
  ⟨if allowTabs then delimiter.dropWhile (· = '\t') else delimiter,allowTabs,target.flags &&& wQuoted = 0⟩

def readsUntil : RedirectInstruction → Bool
  | .readingUntil | .deblankReadingUntil => true
  | _ => false

variable (relex : Text → ℕ → List Token)

def parseHereDoc (instruction : RedirectInstruction) (target : WordDesc) (opSpan : Span) : Parse (Text × Text × Place) := do
  let s ← get
  if heredocMax ≤ s.hereDocCount then throw (.at "maximum here-document count exceeded" (some opSpan))
  else
    set { s with hereDocCount := s.hereDocCount + 1 }
    let (body,place) ← consumeHeredocBody relex (wantedOf instruction target) target.span.stop
    modify fun s => { s with hereDocBodyOffset := some place.stop }
    return ((wantedOf instruction target).delimiter,body,place)

def parseRedirect (redirectorToken : Option Token) : Parse Redirect := do
  match ← bump with
  | none => throw (.at "redirect operator" none)
  | some op =>
    match redirectInstruction op.kind with
    | none => throw (.at "invalid redirection operator" (some op.span))
    | some plain =>
      match ← bump with
      | none => throw (.at "expected redirection target" (some op.span))
      | some targetToken =>
        if !isRedirectionTarget targetToken then
          throw (.at "expected redirection target" (some targetToken.span))
        else
          let s ← get
          let text := tokenValueToString targetToken.value
          let instruction := refineInstruction plain text
          let target : WordDesc := ⟨text,targetToken.wordFlags,targetToken.span,s.rawForSpan targetToken.span⟩
          let redirector := redirectorOf plain redirectorToken
          let made (eof body : Option Text) (place : Option Place) : Redirect :=
            ⟨redirector,rflagsOf redirector,0,instruction,redirecteeOf instruction target,eof,body,place⟩
          if readsUntil instruction then
            let (delimiter,body,place) ← parseHereDoc relex instruction target op.span
            return made (some delimiter) (some body) (some place)
          else return made none none none
end
end Cherubsh.Grammar
