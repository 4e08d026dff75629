import Cherubsh.Expander.Arith.Lexer
import Cherubsh.Parser.Commands

/-! # The forms of commands -/
namespace Cherubsh.Grammar

inductive PatternContext where
  | case | cond | condRegex
  deriving DecidableEq

def patternWordStopsBefore (kind : TokenKind) (context : PatternContext) (depth : ℕ) : Bool :=
  depth = 0 &&
    match context with
    | .case => isCasePatternSeparator kind
    | .cond | .condRegex =>
      match kind with
      | .dblRBracket | .andAnd | .orOr | .rParen | .newline => true
      | _ => false

def patternExtglobOpPrecedes (text : Text) : Bool :=
  text.getLast?.any fun c => c = '@' || c = '+' || c = '*' || c = '?' || c = '!'

structure Collected where
  text : Text
  flags : ℕ
  stop : ℕ
  depth : ℕ
  closed : Bool
  previousEnd : Option ℕ

def Collected.push (c : Collected) (token : Token) (piece : Text) (depth : ℕ) : Collected :=
  { c with text := c.text ++ piece, flags := c.flags ||| token.wordFlags, stop := token.span.stop, depth := depth }

def patternGap (s : Parser) (context : PatternContext) (c : Collected) (token : Token) : Text :=
  match context,c.previousEnd with
  | .condRegex, some stop =>
    if 0 < c.depth ∧ stop < token.span.start ∧ token.span.start ≤ s.input.length then
      (s.input.take token.span.start).drop stop
    else []
  | _, _ => []

def patternDepth (context : PatternContext) (text : Text) (depth : ℕ) : TokenKind → ℕ
  | .lParen => if context = .condRegex ∨ patternExtglobOpPrecedes text = true then depth + 1 else depth
  | .rParen => depth - 1
  | .dblRParen => if 1 < depth then depth - 2 else 0
  | _ => depth

def collectStep (context : PatternContext) (c : Collected) : Parse (Collected ⊕ Collected) := do
  let s ← get
  match s.peek with
  | none => return .inr c
  | some token =>
    if patternWordStopsBefore token.kind context c.depth then return .inr c
    else
      let c := { c with text := c.text ++ patternGap s context c token }
      if token.kind = .dblRParen ∧ context = .case then
        match c.depth with
        | 0 => return .inr c
        | 1 =>
          let _ ← bump
          return .inr { c.push token [')'] 1 with closed := true }
        | depth + 2 =>
          let _ ← bump
          return .inl (c.push token [')',')'] depth)
      else
        let _ ← bump
        return .inl { c.push token (tokenToTextLossy token) (patternDepth context c.text c.depth token.kind) with
          previousEnd := some token.span.stop }

def collectPatternWord (limit : ℕ) (context : PatternContext) : Parse (WordDesc × Bool) := do
  let s ← get
  match s.peek with
  | none => failHere "expected pattern"
  | some first =>
    let c ← iterate .outOfFuel (collectStep context) limit ⟨[],0,first.span.stop,0,false,none⟩
    let span : Span := ⟨first.span.source,first.span.start,c.stop⟩
    if c.text.isEmpty then throw (.at "expected pattern" (some span))
    else
      let s ← get
      return (⟨c.text,c.flags,span,s.rawForSpan span⟩,c.closed)

section
variable (limit : ℕ)

def condLeaf (word : WordDesc) : CondCommand := .mk .term none none none (some word)

def unaryTestOps : List String :=
  ["-a","-b","-c","-d","-e","-f","-g","-h","-k","-n","-o","-p","-r","-s","-t","-u","-v","-w","-x","-z","-G","-L","-N",
    "-O","-R","-S"]

def binaryTestOps : List String :=
  ["==","=","!=","=~","<",">","-eq","-ne","-lt","-le","-gt","-ge","-ef","-nt","-ot"]

def isOneOf (text : Text) (ops : List String) : Bool := ops.any fun op => text = op.toList

def condWord : Parse WordDesc := do
  skipNewlines
  wordOrFail "expected word in [[ ]]"

def condAtTerminator (s : Parser) : Bool :=
  match s.peekKind with
  | some .dblRBracket | some .andAnd | some .orOr | some .rParen | none => true
  | _ => false

def condJoin (condType : CondType) (left right : CondCommand) : CondCommand := .mk condType none (some left) (some right) none

section
variable (term : Parse CondCommand)

def condLevel (next : Parse CondCommand) (kind : TokenKind) (condType : CondType) : Parse CondCommand := do
  skipNewlines
  let first ← next
  skipNewlines
  iterate .outOfFuel (fun left => do
    let s ← get
    if s.peekKind = some kind then
      let _ ← bump
      skipNewlines
      let right ← next
      skipNewlines
      return Sum.inl (condJoin condType left right)
    else return Sum.inr left) limit first

def condAnd : Parse CondCommand := condLevel limit term .andAnd .and

def condExpr : Parse CondCommand := condLevel limit (condAnd limit term) .orOr .or

def condTest : Parse CondCommand := do
  let lhs ← condWord
  skipNewlines
  if isOneOf lhs.text unaryTestOps then
    let rhs ← condWord
    if isOneOf rhs.text ["&","<"] then
      throw (.at ("unexpected argument `" ++ String.ofList rhs.text ++ "` to conditional unary operator") (some rhs.span))
    else return .mk .unary (some lhs) (some (condLeaf rhs)) none none
  else
    skipNewlines
    let s ← get
    if condAtTerminator s then
      if lhs.text = ['&'] then throw (.at "unexpected token `&' in conditional command" (some lhs.span))
      else
        let op : WordDesc := ⟨['-','n'],0,lhs.span,some ['-','n']⟩
        return .mk .unary (some op) (some (condLeaf lhs)) none none
    else
      let op ← condWord
      skipNewlines
      if !isOneOf op.text binaryTestOps then
        throw (.at ("unexpected token `" ++ String.ofList op.text ++ "`, conditional binary operator expected")
          (some op.span))
      else
        skipNewlines
        let (rhs,_) ← collectPatternWord limit (if op.text = ['=','~'] then .condRegex else .cond)
        if rhs.text = ['&'] then
          throw (.at "unexpected argument `&' to conditional binary operator" (some rhs.span))
        else return .mk .binary (some op) (some (condLeaf lhs)) (some (condLeaf rhs)) none

def condTermWith : Parse CondCommand := do
  skipNewlines
  let s ← get
  if s.peekKind = some .bang ∨ s.isWord "!" then
    let _ ← bump
    skipNewlines
    let inner ← term
    return .mk .term none (some inner) none none
  else if s.peekKind = some .lParen then
    let _ ← bump
    skipNewlines
    let inner ← condExpr limit term
    skipNewlines
    expectKind .rParen "expected ')' in [[ ]]"
    return .mk .expr none (some inner) none none
  else condTest limit
end

def condTerm : ℕ → Parse CondCommand
  | 0 => throw .outOfFuel
  | fuel + 1 => condTermWith limit (condTerm fuel)

def parseCondCommand : Parse Command := do
  expectKind .dblLBracket "expected '[['"
  skipNewlines
  let tree ← condExpr limit (condTerm limit limit)
  skipNewlines
  expectKind .dblRBracket "expected ']]'"
  return (CommandData.cond tree).plain
end

def bracketDepth (text : Text) (depth : ℕ) : ℕ :=
  text.foldl (fun depth c => if c = '[' then depth + 1 else if c = ']' then depth - 1 else depth) depth

def updateArithBracketDepth (token : Token) (depth : ℕ) : ℕ := bracketDepth (tokenValueToString token.value) depth

def inputUpTo (s : Parser) (start stop : ℕ) : Text := (s.input.take (min stop s.input.length)).drop start

def arithExprStep (start : ℕ) : ℕ × ℕ → Parse ((ℕ × ℕ) ⊕ Text)
  | (parenDepth,bracketDepth) => do
    let s ← get
    match s.peek with
    | none => throw (.at "expected '))'" none)
    | some token =>
      match token.kind with
      | .dblRParen =>
        let _ ← bump
        if parenDepth = 0 ∧ bracketDepth = 0 then return .inr (inputUpTo s start token.span.start)
        else if parenDepth = 1 ∧ bracketDepth = 0 then
          let after ← get
          if after.peekKind = some .rParen then
            let _ ← bump
            return .inr (inputUpTo s start (token.span.start + 1))
          else return .inr (inputUpTo s start (token.span.start + 1))
        else if 0 < bracketDepth ∧ parenDepth = 1 then return .inl (0,bracketDepth)
        else return .inl (parenDepth - 2,bracketDepth)
      | .dblLParen =>
        let _ ← bump
        return .inl (parenDepth + 2,bracketDepth)
      | .lParen =>
        let _ ← bump
        return .inl (parenDepth + 1,bracketDepth)
      | .rParen =>
        let _ ← bump
        return .inl (parenDepth - 1,bracketDepth)
      | .end =>
        throw (.at (if 0 < bracketDepth ∨ 0 < parenDepth then "unexpected EOF while looking for matching `)'"
          else "expected '))'") s.peekSpan)
      | _ =>
        let _ ← bump
        return .inl (parenDepth,updateArithBracketDepth token bracketDepth)

def parseArithCommand (limit : ℕ) : Parse Command := do
  let s ← get
  let openEnd := (s.peek.map fun t => t.span.stop).getD s.input.length
  expectKind .dblLParen "expected '(('"
  let text ← iterate .outOfFuel (arithExprStep openEnd) limit (0,0)
  let s ← get
  return (CommandData.arith ⟨text,0,s.peekSpan.getD ⟨0,0,0⟩,none⟩).plain

def dblLparenStartsArith : ℕ → List Token → Bool
  | _, [] => false
  | depth, t :: ts =>
    match t.kind with
    | .dblLParen => dblLparenStartsArith (depth + 2) ts
    | .dblRParen =>
      if depth = 0 then true
      else if 2 ≤ depth then dblLparenStartsArith (depth - 2) ts
      else ts.head?.any fun next => next.kind = .rParen
    | .semicolon => false
    | .end => true
    | .lParen => dblLparenStartsArith (depth + 1) ts
    | .rParen => if depth = 0 then false else dblLparenStartsArith (depth - 1) ts
    | _ => dblLparenStartsArith depth ts

def arithForStep (start : ℕ) (parenDepth : ℕ) : Parse (ℕ ⊕ (Text × Option ℕ)) := do
  let s ← get
  match s.peek with
  | none => return .inr (s.input.drop start,none)
  | some token =>
    let _ ← bump
    match token.kind with
    | .dblRParen =>
      if parenDepth = 0 then return .inr (inputUpTo s start token.span.start,some token.span.stop)
      else return .inl (parenDepth - 2)
    | .dblLParen => return .inl (parenDepth + 2)
    | .lParen => return .inl (parenDepth + 1)
    | .rParen => return .inl (parenDepth - 1)
    | _ => return .inl parenDepth

inductive Quoting where
  | plain | single | double
  deriving DecidableEq

def skipArithForNested : ℕ → Char → Char → ℕ → Quoting → Text → Text
  | 0, _, _, _, _, text => text
  | _, _, _, _, _, [] => []
  | fuel + 1, opening, closing, depth, quoting, ch :: rest =>
    if ch = '\\' then skipArithForNested fuel opening closing depth quoting rest.tail
    else
      match quoting with
      | .single => skipArithForNested fuel opening closing depth (if ch = '\'' then .plain else .single) rest
      | .double => skipArithForNested fuel opening closing depth (if ch = '"' then .plain else .double) rest
      | .plain =>
        if ch = '\'' then skipArithForNested fuel opening closing depth .single rest
        else if ch = '"' then skipArithForNested fuel opening closing depth .double rest
        else if ch = '$' ∧ rest.head? = some '(' then
          skipArithForNested fuel opening closing depth .plain (skipArithForNested fuel '(' ')' 1 .plain rest.tail)
        else if ch = '$' ∧ rest.head? = some '{' then
          skipArithForNested fuel opening closing depth .plain (skipArithForNested fuel '{' '}' 1 .plain rest.tail)
        else if ch = opening then skipArithForNested fuel opening closing (depth + 1) .plain rest
        else if ch = closing then
          if depth ≤ 1 then rest else skipArithForNested fuel opening closing (depth - 1) .plain rest
        else skipArithForNested fuel opening closing depth .plain rest

/-- The clauses of an arithmetic loop, cut at the first two semicolons outside parentheses. -/
def splitArithForClauses : ℕ → Text → Text → List Text → ℕ → ℕ → Quoting → List Text × ℕ
  | 0, text, clause, parts, separators, _, _ => (parts ++ [clause ++ text],separators)
  | _, [], clause, parts, separators, _, _ => (parts ++ [clause],separators)
  | fuel + 1, ch :: rest, clause, parts, separators, depth, quoting =>
    let go (rest clause : Text) (depth : ℕ) (quoting : Quoting) :=
      splitArithForClauses fuel rest clause parts separators depth quoting
    if ch = '\\' then go rest.tail (clause ++ ch :: rest.take 1) depth quoting
    else
      match quoting with
      | .single => go rest (clause ++ [ch]) depth (if ch = '\'' then .plain else .single)
      | .double => go rest (clause ++ [ch]) depth (if ch = '"' then .plain else .double)
      | .plain =>
        let nested (opening closing : Char) :=
          let after := skipArithForNested rest.length opening closing 1 .plain rest.tail
          go after (clause ++ (ch :: rest).take (rest.length + 1 - after.length)) depth .plain
        if ch = '$' ∧ rest.head? = some '(' then nested '(' ')'
        else if ch = '$' ∧ rest.head? = some '{' then nested '{' '}'
        else if ch = '\'' then go rest (clause ++ [ch]) depth .single
        else if ch = '"' then go rest (clause ++ [ch]) depth .double
        else if ch = '(' then go rest (clause ++ [ch]) (depth + 1) .plain
        else if ch = ')' then go rest (clause ++ [ch]) (depth - 1) .plain
        else if ch = ';' ∧ depth = 0 then
          if parts.length < 2 then splitArithForClauses fuel rest [] (parts ++ [clause]) (separators + 1) depth .plain
          else splitArithForClauses fuel rest (clause ++ [ch]) parts (separators + 1) depth .plain
        else go rest (clause ++ [ch]) depth .plain

def arithForClause (text : Text) : Option WordDesc :=
  let trimmed := Expander.Arith.trim text
  if trimmed.isEmpty then none else some ⟨trimmed,0,⟨0,0,0⟩,some (Expander.Arith.trimStart text)⟩
end Cherubsh.Grammar
