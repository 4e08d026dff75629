import Cherubsh.Parser.Redirections

/-! # Commands

The parser is a recursive descent. Everything that parses a command inside another one
is given the parser of commands, and the knot is tied at the end; the loops count
their rounds.
-/
namespace Cherubsh.Grammar

def skipNewlines : Parse Unit :=
  modify fun s => { s with index := s.index + ((s.tokens.drop s.index).takeWhile fun t => t.kind = .newline).length }

def expectWord (text : String) : Parse Unit := do
  let s ← get
  if s.isWord text then
    let _ ← bump
    return ()
  else throw (.at ("expected '" ++ text ++ "'") s.peekSpan)

def expectKind (kind : TokenKind) (message : String) : Parse Unit := do
  let s ← get
  if kind = .rParen ∧ s.peekKind = some .dblRParen then
    set { s with
      tokens := s.tokens.modify s.index fun t =>
        { t with kind := .rParen, span := { t.span with start := t.span.start + 1 } } }
  else if s.peekKind = some kind then
    let _ ← bump
    return ()
  else throw (.at message s.peekSpan)

def isStopWord (s : Parser) (stopWords : List String) : Bool :=
  s.peek.any fun t => stopWords.any fun stop => t.isText stop

def isStopKind (s : Parser) (stopKinds : List TokenKind) : Bool :=
  s.peekKind.any fun kind => stopKinds.contains kind || (kind = .dblRParen && stopKinds.contains .rParen)

def reservedWords : List String := ["then","else","elif","fi","do","done","in","esac"]

def unexpectedReservedWord (s : Parser) : Option Text :=
  s.peek.bind fun t =>
    match t.kind,t.value with
    | .then, .text w | .else, .text w | .elif, .text w | .fi, .text w | .do, .text w | .done, .text w | .in, .text w
    | .esac, .text w => some w
    | .word, .text w => if reservedWords.any fun r => t.isText r then some w else none
    | _, _ => none

def rejectReserved (s : Parser) (w : Text) : ParseError :=
  .at ("unexpected token '" ++ String.ofList w ++ "'") s.peekSpan

def rejectUnexpectedReservedCommand (stopWords : List String) : Parse Unit := do
  let s ← get
  if isStopWord s stopWords then return ()
  else
    match unexpectedReservedWord s with
    | some w => throw (rejectReserved s w)
    | none => return ()

def wordOf (s : Parser) (token : Token) (text : Text) (flags : ℕ) : WordDesc :=
  ⟨text,flags,token.span,s.rawForSpan token.span⟩

def wordOrFail (message : String) : Parse WordDesc := do
  match ← bump with
  | none => failHere message
  | some token =>
    let s ← get
    let text := match token.value with
      | .none => tokenToTextLossy token
      | value => tokenValueToString value
    return wordOf s token text token.wordFlags

def parseWordDesc : Parse WordDesc := wordOrFail "expected word"

def lineNumberForOffset (input : Text) (offset : ℕ) : ℕ := 1 + (input.take offset).count '\n'

section
variable (command : Parse Command) (limit : ℕ)

def connect (left right : Command) (connector : Connector) : Command :=
  .mk (.connection left right connector) 0 left.line []

def nullCommand : Command := (CommandData.simple [] []).plain

def atListTerminator (s : Parser) : Bool :=
  s.peekKind.any (fun kind => decide (kind ∈ [TokenKind.end,.newline,.semicolon,.ampersand,.then,.else,.elif,.fi,.do,
    .done,.esac,.rBrace,.rParen])) ||
    ["then","else","elif","fi","do","done","esac"].any s.isWord

def pipelinePrefix : ℕ × Bool → Parse ((ℕ × Bool) ⊕ (ℕ × Bool))
  | (flags,invert) => do
    let s ← get
    match s.peekKind with
    | some .time =>
      let _ ← bump
      let s ← get
      match s.peekKind with
      | some .timeOpt =>
        let _ ← bump
        let s ← get
        if s.peekKind = some .timeIgn ∨ s.isWord "--" then
          let _ ← bump
          return .inl (flags ||| cmdTimePipeline ||| cmdTimePosix,invert)
        else return .inl (flags ||| cmdTimePipeline ||| cmdTimePosix,invert)
      | some .timeIgn =>
        let _ ← bump
        return .inl (flags ||| cmdTimePipeline,invert)
      | _ => return .inl (flags ||| cmdTimePipeline,invert)
    | some .bang =>
      let _ ← bump
      return .inl (flags,!invert)
    | _ => return .inr (flags,invert)

def withPrefix (flags : ℕ) (invert : Bool) (c : Command) : Command :=
  (c.withFlags (if invert then cmdInvertReturn else 0)).withFlags flags

def stderrToStdout : Redirect := ⟨.fd 2,0,0,.duplicatingOutput,.fd 1,none,none,none⟩

def addStderrToStdoutRedirect : Command → Command
  | .mk (.simple words redirects) flags line more => .mk (.simple words (redirects ++ [stderrToStdout])) flags line more
  | .mk data flags line redirects => .mk data flags line (redirects ++ [stderrToStdout])

def pipelineStep (left : Command) : Parse (Command ⊕ Command) := do
  let s ← get
  match s.peekKind with
  | some .pipe =>
    let _ ← bump
    skipNewlines
    let right ← command
    return .inl (connect left right .pipe)
  | some .barAnd =>
    let _ ← bump
    skipNewlines
    let right ← command
    return .inl (connect (addStderrToStdoutRedirect left) right .pipe)
  | _ => return .inr left

def parsePipeline : Parse Command := do
  let (flags,invert) ← iterate .outOfFuel pipelinePrefix limit (0,false)
  let s ← get
  if atListTerminator s then return withPrefix flags invert nullCommand
  else
    let first ← command
    let left ← iterate .outOfFuel (pipelineStep command) limit first
    return withPrefix flags invert left

def andOrStep (left : Command) : Parse (Command ⊕ Command) := do
  let s ← get
  match s.peekKind with
  | some .andAnd =>
    let _ ← bump
    skipNewlines
    let right ← parsePipeline command limit
    return .inl (connect left right .andAnd)
  | some .orOr =>
    let _ ← bump
    skipNewlines
    let right ← parsePipeline command limit
    return .inl (connect left right .orOr)
  | _ => return .inr left

def parseAndOr : Parse Command := do
  let first ← parsePipeline command limit
  iterate .outOfFuel (andOrStep command limit) limit first

def listNext (stopWords : List String) (stopKinds : List TokenKind) (left : Command) (connector : Connector) :
    Parse (Command ⊕ Command) := do
  skipNewlines
  let s ← get
  if isStopWord s stopWords || isStopKind s stopKinds || s.peekKind = some .end then
    return .inr (if connector = .amp then connect left nullCommand .amp else left)
  else
    rejectUnexpectedReservedCommand stopWords
    let right ← parseAndOr command limit
    return .inl (connect left right connector)

def listStep (stopWords : List String) (stopKinds : List TokenKind) (left : Command) : Parse (Command ⊕ Command) := do
  let s ← get
  if isStopWord s stopWords || isStopKind s stopKinds then return .inr left
  else
    match s.peekKind with
    | some .semicolon =>
      let _ ← bump
      listNext command limit stopWords stopKinds left .semi
    | some .ampersand =>
      let _ ← bump
      listNext command limit stopWords stopKinds left .amp
    | some .newline => listNext command limit stopWords stopKinds left .newline
    | _ => return .inr left

def parseSimpleListUntilWordsOrKinds (stopWords : List String) (stopKinds : List TokenKind) : Parse Command := do
  skipNewlines
  let s ← get
  if isStopWord s stopWords || isStopKind s stopKinds then throw (.at "expected list" s.peekSpan)
  else
    rejectUnexpectedReservedCommand stopWords
    let first ← parseAndOr command limit
    iterate .outOfFuel (listStep command limit stopWords stopKinds) limit first

def parseSimpleListUntil (stopWords : List String) : Parse Command :=
  parseSimpleListUntilWordsOrKinds command limit stopWords []

def parseSimpleListUntilKind (stopKinds : List TokenKind) : Parse Command :=
  parseSimpleListUntilWordsOrKinds command limit [] stopKinds
end
end Cherubsh.Grammar
