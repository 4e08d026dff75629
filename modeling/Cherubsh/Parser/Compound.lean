import Cherubsh.Parser.Forms

/-! # Simple and compound commands

A command is a form with the redirections after it. The forms that hold other commands
are given the parser of commands; the knot is tied by the depth to which they nest.
-/
namespace Cherubsh.Grammar
open CommandData

section
variable (relex : Text → ℕ → List Token)

def isRedirWordRedirector (s : Parser) : Bool :=
  s.peek.any isRedirWordToken && (s.peekN 1).any fun t => isRedirectionKind t.kind

def numberIsAdjacentRedirectionOperator (s : Parser) : Bool :=
  (s.peekN 1).any fun op => isRedirectionKind op.kind && s.peek.any fun number => number.span.stop = op.span.start

def nextRedirect : Parse (Option Redirect) := do
  let s ← get
  if isRedirWordRedirector s || (s.peekKind = some .number && numberIsAdjacentRedirectionOperator s) then
    let redirector ← bump
    let r ← parseRedirect relex redirector
    return some r
  else if s.peekKind.any isRedirectionKind then
    let r ← parseRedirect relex none
    return some r
  else return none

structure SimpleSoFar where
  words : List WordDesc
  redirects : List Redirect
  commandName : Option Text

def assignmentBuiltinAcceptsCompound (name : Text) : Bool :=
  isOneOf name ["declare","typeset","local","readonly","export","eval","let"]

def simpleWord (c : SimpleSoFar) (token : Token) : Parse SimpleSoFar := do
  let s ← get
  let text := tokenValueToString token.value
  if token.kind = .number then
    return { c with words := c.words ++ [wordOf s token text 0] }
  else if token.wordFlags &&& wCompassign ≠ 0 ∧ (c.commandName.any fun name => !assignmentBuiltinAcceptsCompound name) then
    throw (.at "unexpected token '('" (some token.span))
  else
    let name := if c.commandName.isNone && token.kind ≠ .assignmentWord then some text else c.commandName
    return { c with words := c.words ++ [wordOf s token text token.wordFlags], commandName := name }

def simpleStep (c : SimpleSoFar) : Parse (SimpleSoFar ⊕ SimpleSoFar) := do
  match ← nextRedirect relex with
  | some r => return .inl { c with redirects := c.redirects ++ [r] }
  | none =>
    let s ← get
    match s.peek with
    | some token =>
      if isRedirectionTarget token then
        let _ ← bump
        let c ← simpleWord c token
        return .inl c
      else return .inr c
    | none => return .inr c

def parseSimpleParts (limit : ℕ) : Parse (List WordDesc × List Redirect) := do
  let c ← iterate .outOfFuel (simpleStep relex) limit ⟨[],[],none⟩
  if c.words.isEmpty && c.redirects.isEmpty then failHere "expected command"
  else return (c.words,c.redirects)

def parseTrailingRedirects (limit : ℕ) : Command → Parse Command
  | .mk data flags line redirects => do
    let redirects ← iterate .outOfFuel (fun redirects => do
      match ← nextRedirect relex with
      | some r => return Sum.inl (redirects ++ [r])
      | none => return Sum.inr redirects) limit redirects
    return .mk data flags line redirects
end

section
variable (command : Parse Command) (limit : ℕ)

def previousTokenTerminatedList (s : Parser) : Bool :=
  s.index ≠ 0 && (s.tokens[s.index - 1]?).any fun t =>
    decide (t.kind ∈ [TokenKind.semicolon,.ampersand,.newline,.rParen,.dblRParen,.rBrace,.dblRBracket]) ||
      ["fi","done","esac","\x7d"].any t.isText

def unexpectedEof {α : Type} : Parse α := failHere "syntax error: unexpected end of file"

def parseBraceBody : Parse Command := do
  expectKind .lBrace "expected '\x7b'"
  let body ← parseSimpleListUntilKind command limit [.rBrace]
  let s ← get
  if s.peekKind = some .end then unexpectedEof
  else if !previousTokenTerminatedList s then failHere "expected ';' or newline before '\x7d'"
  else
    expectKind .rBrace "expected '\x7d'"
    return body

def parseGroupCommand : Parse Command := do
  let body ← parseBraceBody command limit
  return (group body).plain

def parseBetween (opening : String) (closing : List String) : Parse Command := do
  expectWord opening
  parseSimpleListUntil command limit closing

def parseWhileCommand : Parse Command := do
  let test ← parseBetween command limit "while" ["do"]
  let action ← parseBetween command limit "do" ["done"]
  expectWord "done"
  return (CommandData.while test action).plain

def parseUntilCommand : Parse Command := do
  let test ← parseBetween command limit "until" ["do"]
  let action ← parseBetween command limit "do" ["done"]
  expectWord "done"
  return (CommandData.until test action).plain

def parseElifChain : ℕ → String → Parse Command
  | 0, _ => throw .outOfFuel
  | fuel + 1, opening => do
    let test ← parseBetween command limit opening ["then"]
    let trueCase ← parseBetween command limit "then" ["elif","else","fi"]
    let s ← get
    if s.isWord "elif" then
      let falseCase ← parseElifChain fuel "elif"
      return (ifElse test trueCase falseCase).plain
    else if s.isWord "else" then
      let falseCase ← parseBetween command limit "else" ["fi"]
      return (ifElse test trueCase falseCase).plain
    else return (ifThen test trueCase).plain

def parseIfCommand : Parse Command := do
  let c ← parseElifChain command limit limit "if"
  expectWord "fi"
  return c

def parseLoopAction : Parse Command := do
  let s ← get
  if s.peekKind = some .lBrace then parseBraceBody command limit
  else
    let action ← parseBetween command limit "do" ["done"]
    expectWord "done"
    return action

def parseLoopBody : Parse Command := do
  skipNewlines
  let s ← get
  if s.peekKind = some .semicolon then
    let _ ← bump
    skipNewlines
    parseLoopAction command limit
  else parseLoopAction command limit

def wordListStep (words : List WordDesc) : Parse (List WordDesc ⊕ List WordDesc) := do
  let s ← get
  match s.peekKind with
  | some .word | some .assignmentWord | some .number =>
    let word ← parseWordDesc
    return .inl (words ++ [word])
  | some .newline =>
    skipNewlines
    return .inr words
  | some .semicolon =>
    let _ ← bump
    skipNewlines
    return .inr words
  | _ => return .inr words

def parseMapList : Parse (Option (List WordDesc)) := do
  let s ← get
  if s.isWord "in" then
    expectWord "in"
    let words ← iterate .outOfFuel wordListStep limit []
    return if words.isEmpty then none else some words
  else return none

def parseArithForCommand : Parse Command := do
  let s ← get
  let openSpan := s.peekSpan.getD ⟨0,0,0⟩
  expectKind .dblLParen "expected '(( '"
  let s ← get
  let start := (s.peek.map fun t => t.span.start).getD s.input.length
  let (text,closeEnd) ← iterate .outOfFuel (arithForStep start) limit 0
  let stop := closeEnd.getD s.input.length
  let span : Span := ⟨openSpan.source,min openSpan.start stop,min stop s.input.length⟩
  let (parts,separators) := splitArithForClauses text.length text [] [] 0 0 .plain
  if separators < 2 then throw (.at "syntax error: arithmetic expression required" (some span))
  else if 2 < separators then throw (.at "syntax error near unexpected token `;'" (some span))
  else
    let clause (i : ℕ) := arithForClause (parts.getD i [])
    let action ← parseLoopBody command limit
    return (arithFor (clause 0) (clause 1) (clause 2) action).plain

def parseForWords : Parse Command := do
  let s ← get
  match ← bump with
  | none => failHere "expected for name"
  | some token =>
    let name := wordOf s token (tokenValueToString token.value) 0
    skipNewlines
    let mapList ← parseMapList limit
    let action ← parseLoopBody command limit
    return (CommandData.for name mapList action (lineNumberForOffset s.input name.span.start)).plain

def parseForCommand : Parse Command := do
  expectWord "for"
  let s ← get
  match s.peekKind with
  | some .dblLParen => parseArithForCommand command limit
  | some .word | some .assignmentWord | some .number => parseForWords command limit
  | _ => failHere "expected for name"

def parseSelectCommand : Parse Command := do
  expectWord "select"
  let name ← parseWordDesc
  let s ← get
  let mapList ← parseMapList limit
  let action ← parseLoopBody command limit
  return (select name mapList action (lineNumberForOffset s.input name.span.start)).plain

def casePatternStep : List WordDesc → Parse (List WordDesc ⊕ (List WordDesc × Bool))
  | patterns => do
    let s ← get
    match s.peekKind with
    | some .pipe =>
      let _ ← bump
      return .inl patterns
    | some .newline =>
      skipNewlines
      return .inl patterns
    | some kind =>
      if isCasePatternSeparator kind then return .inr (patterns,false)
      else
        let (word,closed) ← collectPatternWord limit .case
        return if closed then .inr (patterns ++ [word],true) else .inl (patterns ++ [word])
    | none => return .inr (patterns,false)

def parseCasePatterns : Parse (List WordDesc) := do
  let (patterns,consumedClose) ← iterate .outOfFuel (casePatternStep limit) limit []
  if consumedClose then return patterns
  else
    expectKind .rParen "expected ')' after case pattern"
    return patterns

def caseStops : List TokenKind := [.dblSemicolon,.semiAmp,.dblSemiAmp]

def caseClauseEnd : Parse ℕ := do
  let s ← get
  match s.peekKind with
  | some .dblSemicolon =>
    let _ ← bump
    return 0
  | some .semiAmp =>
    let _ ← bump
    return casepatFallthrough
  | some .dblSemiAmp =>
    let _ ← bump
    return casepatTestnext
  | _ => return 0

def parseCaseAction : Parse (Option Command) := do
  let s ← get
  if isStopKind s caseStops || s.isWord "esac" then return none
  else
    let action ← parseSimpleListUntilWordsOrKinds command limit ["esac"] caseStops
    return some action

def Clauses.add (patterns : List WordDesc) (action : Option Command) (flags : ℕ) (rest : Clauses) : Clauses :=
  match action with
  | none => .bare patterns flags rest
  | some action => .clause patterns action flags rest

def openCasePattern : Parse Unit := do
  let s ← get
  if s.peekKind = some .lParen then
    let _ ← bump
    return ()
  else return ()

def parseClauses : ℕ → Parse Clauses
  | 0 => throw .outOfFuel
  | fuel + 1 => do
    let s ← get
    if s.isWord "esac" then return .nil
    else
      skipNewlines
      let s ← get
      if s.isWord "esac" then return .nil
      else
        openCasePattern
        let patterns ← parseCasePatterns limit
        skipNewlines
        let action ← parseCaseAction command limit
        let flags ← caseClauseEnd
        let rest ← parseClauses fuel
        return .add patterns action flags rest

def parseCaseCommand : Parse Command := do
  expectWord "case"
  let word ← parseWordDesc
  skipNewlines
  expectWord "in"
  skipNewlines
  let clauses ← parseClauses command limit limit
  expectWord "esac"
  return (case word clauses).plain

def subshell (body : Command) (flags : ℕ) : Command := .mk (.subshell body flags) cmdWantSubshell 0 []

def parseSubshellCommand : Parse Command := do
  expectKind .lParen "expected '('"
  let body ← parseSimpleListUntilKind command limit [.rParen]
  expectKind .rParen "expected ')'"
  return subshell body 0

/-- What follows the inner one of two subshells that were opened together. -/
def doubleSubshellNext (body : Command) (connector : Connector) : Parse (Command ⊕ Command) := do
  skipNewlines
  let s ← get
  if s.peekKind = some .rParen then return .inr (if connector = .amp then connect body nullCommand .amp else body)
  else
    let right ← parseAndOr command limit
    return .inl (connect body right connector)

def doubleSubshellStep (body : Command) : Parse (Command ⊕ Command) := do
  let s ← get
  match s.peekKind with
  | some .semicolon =>
    let _ ← bump
    doubleSubshellNext command limit body .semi
  | some .ampersand =>
    let _ ← bump
    doubleSubshellNext command limit body .amp
  | some .newline => doubleSubshellNext command limit body .newline
  | _ => return .inr body

def parseDoubleSubshellCommand : Parse Command := do
  expectKind .dblLParen "expected '(('"
  let inner ← parseSimpleListUntilKind command limit [.rParen]
  expectKind .rParen "expected ')'"
  let body ← iterate .outOfFuel (doubleSubshellStep command limit) limit (subshell inner cmdWantSubshell)
  expectKind .rParen "expected ')'"
  return subshell body cmdWantSubshell
end

section
variable (relex : Text → ℕ → List Token) (command : Parse Command) (limit : ℕ)

def isFunctionDefStart (s : Parser) : Bool :=
  s.peekKind = some .word && (s.peekN 1).map Token.kind = some .lParen && (s.peekN 2).map Token.kind = some .rParen

def Token.opensCompound (t : Token) : Bool :=
  decide (t.kind ∈ [TokenKind.lBrace,.lParen,.dblLParen,.dblLBracket]) ||
    ["\x7b","(","if","while","until","for","case","select"].any t.isText

def peekNIsCompoundOpener (s : Parser) (n : ℕ) : Bool := (s.peekN n).any Token.opensCompound

def Token.isBraceWord (t : Token) (brace : String) : Bool := t.kind = .word && t.isText brace

def parseCompoundBody : Parse Command := do
  let s ← get
  if s.peek.any fun t => t.isBraceWord "\x7b" then
    let _ ← bump
    let body ← parseSimpleListUntilWordsOrKinds command limit ["\x7d"] [.rBrace]
    let s ← get
    if s.peekKind = some .end then unexpectedEof
    else
      if s.peekKind = some .rBrace || s.peek.any fun t => t.isBraceWord "\x7d" then
        let _ ← bump
      return (group body).plain
  else command

def compoundBodyFirstCommandLine (s : Parser) : Option ℕ :=
  let ahead := s.tokens.drop s.index
  let inside := if ahead.head?.any fun t => t.kind = .lBrace || t.isBraceWord "\x7b" then ahead.tail else ahead
  (inside.dropWhile fun t => t.kind = .newline).head?.map fun t => lineNumberForOffset s.input t.span.start

def totalLines (input : Text) : ℕ := 1 + input.count '\n'

def parseFunctionName : Parse WordDesc := do
  let s ← get
  if s.isWord "function" then
    expectWord "function"
    let name ← parseWordDesc
    let s ← get
    if s.peekKind = some .lParen then
      let _ ← bump
      expectKind .rParen "expected ')' in function"
    return name
  else
    match ← bump with
    | none => failHere "expected function name"
    | some token =>
      let s ← get
      if s.peekKind = some .lParen then
        let _ ← bump
        expectKind .rParen "expected ')' in function"
        return wordOf s token (tokenValueToString token.value) 0
      else failHere "expected '()' after function name"

def Command.isSimple (c : Command) : Bool :=
  match c.data with
  | .simple _ _ => true
  | _ => false

def parseFunctionDef : Parse Command := do
  let name ← parseFunctionName
  skipNewlines
  let s ← get
  let firstBodyLine := (compoundBodyFirstCommandLine s).getD (lineNumberForOffset s.input name.span.start)
  let body ← parseCompoundBody command limit
  if body.isSimple then throw (.at "function body must be a compound command" none)
  else return (functionDef name body (totalLines s.input - firstBodyLine + 1)).plain

def parseSimpleCommand : Parse Command := do
  let (words,redirects) ← parseSimpleParts relex limit
  return (simple words redirects).plain

def coprocess (data : CommandData) : Command := .mk data (cmdWantSubshell ||| cmdCoprocSubshell) 0 []

def parseCoprocCommand : Parse Command := do
  expectWord "coproc"
  let s ← get
  if peekNIsCompoundOpener s 0 then
    let body ← parseCompoundBody command limit
    return coprocess (.coproc none body)
  else if s.peekKind = some .word && peekNIsCompoundOpener s 1 then
    let name ← parseWordDesc
    let body ← parseCompoundBody command limit
    return coprocess (.coproc (some name) body)
  else
    let (words,redirects) ← parseSimpleParts relex limit
    return coprocess (.coprocSimple words redirects)

def parseForm : Parse Command := do
  let s ← get
  if s.isWord "if" then parseIfCommand command limit
  else if s.isWord "while" then parseWhileCommand command limit
  else if s.isWord "until" then parseUntilCommand command limit
  else if s.isWord "for" then parseForCommand command limit
  else if s.isWord "case" then parseCaseCommand command limit
  else if s.isWord "select" then parseSelectCommand command limit
  else if s.isWord "function" || isFunctionDefStart s then parseFunctionDef command limit
  else if s.isWord "coproc" then parseCoprocCommand relex command limit
  else if s.peekKind = some .lBrace then parseGroupCommand command limit
  else if s.peekKind = some .lParen then parseSubshellCommand command limit
  else if s.peekKind = some .dblLParen then
    if dblLparenStartsArith 0 (s.tokens.drop (s.index + 1)) then parseArithCommand limit
    else parseDoubleSubshellCommand command limit
  else if s.peekKind = some .dblLBracket then parseCondCommand limit
  else
    match unexpectedReservedWord s with
    | some w => throw (rejectReserved s w)
    | none => parseSimpleCommand relex limit

def Command.withLine : Command → ℕ → Command
  | .mk data flags line redirects, fallback => .mk data flags (if line = 0 then fallback else line) redirects

/-- A command with its redirections. The counts of here-documents begin anew inside it
and are put back after it. -/
def parseCommandWith : Parse Command := do
  let s ← get
  let line := (s.peekSpan.map fun span => lineNumberForOffset s.input span.start).getD 0
  set { s with hereDocCount := 0, hereDocBodyOffset := none }
  let c ← parseForm relex command limit
  let c ← parseTrailingRedirects relex limit c
  modify fun after => { after with hereDocCount := s.hereDocCount, hereDocBodyOffset := s.hereDocBodyOffset }
  return c.withLine line
end

section
variable (relex : Text → ℕ → List Token)

def parseCommand : ℕ → Parse Command
  | 0 => throw .outOfFuel
  | fuel + 1 => parseCommandWith relex (parseCommand fuel) fuel

def parseInputUnit (fuel : ℕ) : Parse (Option Command) := do
  skipNewlines
  let s ← get
  if s.peekKind = some .end then return none
  else
    let root ← parseSimpleListUntil (parseCommand relex fuel) fuel []
    skipNewlines
    let s ← get
    if s.peekKind = some .end then return some root
    else failHere ("unexpected token '" ++ String.ofList ((s.peek.map tokenToTextLossy).getD "EOF".toList) ++ "'")

def parse (fuel : ℕ) : Parse Command := do
  match ← parseInputUnit relex fuel with
  | some root => return root
  | none => failHere "empty input"
end
end Cherubsh.Grammar
