import Cherubsh.Expander.Arith.Lexer

/-! # The arithmetic evaluator

One recursive descent parses and evaluates, with a flag that says whether a value is wanted. Fuel
bounds the recursion: only a parenthesis or the middle of a conditional starts again from the top.
-/
namespace Cherubsh.Expander.Arith
variable {Env LVal E : Type}

/-- The variables behind an expression. Every operation may fail and may change them. -/
structure Access (Env LVal E : Type) where
  resolve : Text → Env → Except E LVal × Env
  load : LVal → Env → Except E I64 × Env
  store : LVal → I64 → Env → Except E Unit × Env
  loadIdent : Text → Env → Except E I64 × Env

section
def Parse (Env E α : Type) : Type := Lexer → Env → Except (ArithError E) (α × Lexer) × Env

namespace Parse
variable {α β : Type}

protected def pure (a : α) : Parse Env E α := fun lex env => (.ok (a,lex),env)

protected def bind (p : Parse Env E α) (k : α → Parse Env E β) : Parse Env E β := fun lex env =>
  match p lex env with
  | (.ok (a,lex),env) => k a lex env
  | (.error e,env) => (.error e,env)

instance : Monad (Parse Env E) where
  pure := Parse.pure
  bind := Parse.bind

def fail (e : ArithError E) : Parse Env E α := fun _ env => (.error e,env)

def get : Parse Env E Lexer := fun lex env => (.ok (lex,lex),env)

def ahead (x : Except (ArithError E) α) : Parse Env E α := fun lex env => (x.map fun a => (a,lex),env)

def move (x : Except (ArithError E) Lexer) : Parse Env E Unit := fun _ env => (x.map fun lex => ((),lex),env)

def advance : Parse Env E Unit := fun lex env => (lex.advance.map fun lex => ((),lex),env)

def access (f : Env → Except E α × Env) : Parse Env E α := fun lex env =>
  match f env with
  | (.ok a,env) => (.ok (a,lex),env)
  | (.error e,env) => (.error (.access e),env)
end Parse
end

open Parse

/-- Exponentiation by squaring; a negative exponent gives nothing but zero here. -/
def powLoop : ℕ → I64 → I64 → ℕ → I64
  | 0, result, _, _ => result
  | fuel + 1, result, base, exp =>
    if exp = 0 then result
    else powLoop fuel (if exp % 2 = 1 then result * base else result) (if exp / 2 = 0 then base else base * base) (exp / 2)

def powI64 (b e : I64) : I64 := if e.slt 0 then 0 else powLoop 64 1 b e.toNat

def ofBool (b : Bool) : I64 := if b then 1 else 0

def shiftLeft (v r : I64) : I64 := v <<< (r.toNat % 2 ^ 32 % 64)

def shiftRight (v r : I64) : I64 := v.sshiftRight (r.toNat % 2 ^ 32 % 64)

inductive AssignOp where
  | set | add | sub | mul | div | rem | pow | and | or | xor | shl | shr
  deriving DecidableEq

def assignmentOpcode : Tok → Option AssignOp
  | .eq => some .set
  | .plusEq => some .add
  | .minusEq => some .sub
  | .starEq => some .mul
  | .slashEq => some .div
  | .percentEq => some .rem
  | .starStarEq => some .pow
  | .ampEq => some .and
  | .pipeEq => some .or
  | .caretEq => some .xor
  | .shlEq => some .shl
  | .shrEq => some .shr
  | _ => none

def assignedValue (op : AssignOp) (lhs rhs : I64) : Except (ArithError E) I64 :=
  match op with
  | .set => .ok rhs
  | .add => .ok (lhs + rhs)
  | .sub => .ok (lhs - rhs)
  | .mul => .ok (lhs * rhs)
  | .div => if rhs = 0 then .error .divisionByZero else .ok (lhs.sdiv rhs)
  | .rem => if rhs = 0 then .error .divisionByZero else .ok (lhs.srem rhs)
  | .pow => .ok (powI64 lhs rhs)
  | .and => .ok (lhs &&& rhs)
  | .or => .ok (lhs ||| rhs)
  | .xor => .ok (lhs ^^^ rhs)
  | .shl => .ok (shiftLeft lhs rhs)
  | .shr => .ok (shiftRight lhs rhs)

def extendsRun (up : Bool) (tok : Tok) : Bool :=
  if up then tok = .plus || tok = .plusPlus else tok = .minus || tok = .minusMinus

def prefixIncDecTargetName (up : Bool) : ℕ → Lexer → ℕ → Except (ArithError E) (Option Text × Lexer)
  | 0, _, _ => .error .outOfFuel
  | fuel + 1, lex, prevEnd =>
    match lex.cur with
    | .ident name => .ok (some name,lex)
    | tok =>
      if extendsRun up tok ∧ lex.tokStart = prevEnd then
        lex.advance.bind fun next => prefixIncDecTargetName up fuel next lex.tokEnd
      else .ok (none,lex)

def prefixIncDecHasTarget (up : Bool) (fuel : ℕ) (lex : Lexer) : Except (ArithError E) Bool :=
  lex.advance.bind fun next => (prefixIncDecTargetName up fuel next lex.tokEnd).map fun r => r.1.isSome

section
variable (acc : Access Env LVal E)

def lvalueOf (name : Text) (active : Bool) : Parse Env E (Option LVal) :=
  if active then do
    let lvalue ← access (acc.resolve name)
    return some lvalue
  else return none

def valueOf : Option LVal → Parse Env E I64
  | some lvalue => access (acc.load lvalue)
  | none => return 0

def storeTo (lvalue : Option LVal) (value : I64) : Parse Env E Unit :=
  match lvalue with
  | some lvalue => access (acc.store lvalue value)
  | none => return ()

def arithRhsExpected (opStart : ℕ) : Parse Env E Unit := do
  let lex ← get
  if lex.cur = .eof then fail (.operandExpected lex.src opStart)

def applyPre (fuel : ℕ) (up active : Bool) (prefixEnd : ℕ) : Parse Env E I64 := do
  let lex ← get
  let (target,next) ← ahead (prefixIncDecTargetName up fuel lex prefixEnd)
  match target with
  | none => fail .requiresIdentifier
  | some name =>
    move (.ok next)
    advance
    let lvalue ← lvalueOf acc name active
    let cur ← valueOf acc lvalue
    let new := if active then (if up then cur + 1 else cur - 1) else 0
    storeTo acc lvalue new
    return new

section
variable (comma : Bool → Parse Env E I64)

def parsePrimary (active : Bool) : Parse Env E I64 := do
  let lex ← get
  match lex.cur with
  | .num n =>
    advance
    return if active then n else 0
  | .ident name =>
    advance
    if active then access (acc.loadIdent name) else return 0
  | .lparen =>
    advance
    let v ← comma active
    let lex ← get
    if lex.cur ≠ .rparen then fail (.missingRparen lex.src lex.tokStart)
    advance
    return if active then v else 0
  | _ => fail (.operandExpected lex.src lex.tokStart)

def parsePostfix (active : Bool) : Parse Env E I64 := do
  let lex ← get
  match lex.cur with
  | .ident name =>
    let lvalue ← lvalueOf acc name active
    let cur ← valueOf acc lvalue
    advance
    let lex ← get
    match lex.cur with
    | .plusPlus =>
      advance
      storeTo acc lvalue (cur + 1)
      return cur
    | .minusMinus =>
      advance
      storeTo acc lvalue (cur - 1)
      return cur
    | _ => return cur
  | _ => parsePrimary acc comma active

variable (limit : ℕ)

def parseUnary : ℕ → Bool → Parse Env E I64
  | 0, _ => fail .outOfFuel
  | fuel + 1, active => do
    let lex ← get
    match lex.cur with
    | .plus =>
      advance
      arithRhsExpected lex.tokStart
      parseUnary fuel active
    | .minus =>
      advance
      arithRhsExpected lex.tokStart
      let v ← parseUnary fuel active
      return if active then -v else 0
    | .bang =>
      advance
      arithRhsExpected lex.tokStart
      let v ← parseUnary fuel active
      return if active then ofBool (v = 0) else 0
    | .tilde =>
      advance
      arithRhsExpected lex.tokStart
      let v ← parseUnary fuel active
      return if active then ~~~v else 0
    | .plusPlus =>
      let target ← ahead (prefixIncDecHasTarget true limit lex)
      if target then
        advance
        applyPre acc limit true active lex.tokEnd
      else
        move lex.consumeFirstCharOfDoubleOperator
        parseUnary fuel active
    | .minusMinus =>
      let target ← ahead (prefixIncDecHasTarget false limit lex)
      if target then
        advance
        applyPre acc limit false active lex.tokEnd
      else
        move lex.consumeFirstCharOfDoubleOperator
        let v ← parseUnary fuel active
        return if active then -v else 0
    | _ => parsePostfix acc comma active

def parsePower : ℕ → Bool → Parse Env E I64
  | 0, _ => fail .outOfFuel
  | fuel + 1, active => do
    let base ← parseUnary acc comma limit limit active
    let lex ← get
    if lex.cur = .starStar then
      advance
      let exp ← parsePower fuel active
      let expStart := min lex.tokEnd lex.src.length
      if active && exp.slt 0 then
        fail (.exponentBelowZero lex.src (if (lex.src.drop expStart).head? = some '-' then expStart + 1 else expStart))
      else return if active then powI64 base exp else 0
    else return if active then base else 0

def loopLeft (isOp : Tok → Bool) (step : Bool → I64 → Parse Env E I64) : ℕ → Bool → I64 → Parse Env E I64
  | 0, _, _ => fail .outOfFuel
  | fuel + 1, active, v => do
    let lex ← get
    if isOp lex.cur then
      let v ← step active v
      loopLeft isOp step fuel active v
    else return if active then v else 0

def leftLevel (next : Bool → Parse Env E I64) (isOp : Tok → Bool) (step : Bool → I64 → Parse Env E I64)
    (active : Bool) : Parse Env E I64 := do
  let v ← next active
  loopLeft isOp step limit active v

def binaryStep (next : Bool → Parse Env E I64) (f : Tok → I64 → I64 → I64) (active : Bool) (v : I64) :
    Parse Env E I64 := do
  let lex ← get
  advance
  let r ← next active
  return if active then f lex.cur v r else v

def isMulOp (t : Tok) : Bool := t = .star || t = .slash || t = .percent

def mulStep (active : Bool) (v : I64) : Parse Env E I64 := do
  let lex ← get
  advance
  arithRhsExpected lex.tokStart
  let rhs ← get
  let r ← parsePower acc comma limit limit active
  if lex.cur = .star then return if active then v * r else v
  else
    if active && r = 0 then fail (.divisionAt rhs.src rhs.tokStart)
    else if lex.cur = .slash then return if active then v.sdiv r else v
    else return if active then v.srem r else v

def parseMul : Bool → Parse Env E I64 :=
  leftLevel limit (parsePower acc comma limit limit) isMulOp (mulStep acc comma limit)

def isAddOp (t : Tok) : Bool := t = .plus || t = .plusPlus || t = .minus || t = .minusMinus

/-- A double sign after an operand is a sign of this level and one of the next operand. -/
def addStep (active : Bool) (v : I64) : Parse Env E I64 := do
  let lex ← get
  match lex.cur with
  | .plusPlus =>
    if lex.tokEnd = lex.src.length ∧ ['-','-'].isPrefixOf (trimStart lex.src) then
      fail (.requiresLvalue (trimStart lex.src) "++")
    else
      move lex.consumeFirstCharOfDoubleOperator
      let r ← parseMul acc comma limit active
      return if active then v + r else v
  | .minusMinus =>
    move lex.consumeFirstCharOfDoubleOperator
    let r ← parseMul acc comma limit active
    return if active then v - r else v
  | tok =>
    advance
    arithRhsExpected lex.tokStart
    let r ← parseMul acc comma limit active
    return if active then (if tok = .plus then v + r else v - r) else v

def parseAdd : Bool → Parse Env E I64 :=
  leftLevel limit (parseMul acc comma limit) isAddOp (addStep acc comma limit)

def isShiftOp (t : Tok) : Bool := t = .shl || t = .shr
def shiftValue (t : Tok) (v r : I64) : I64 := if t = .shl then shiftLeft v r else shiftRight v r

def parseShift : Bool → Parse Env E I64 :=
  leftLevel limit (parseAdd acc comma limit) isShiftOp (binaryStep (parseAdd acc comma limit) shiftValue)

def isRelateOp (t : Tok) : Bool := t = .lt || t = .le || t = .gt || t = .ge
def relateValue (t : Tok) (v r : I64) : I64 :=
  ofBool (if t = .lt then v.slt r else if t = .le then v.sle r else if t = .gt then r.slt v else r.sle v)

def parseRelate : Bool → Parse Env E I64 :=
  leftLevel limit (parseShift acc comma limit) isRelateOp (binaryStep (parseShift acc comma limit) relateValue)

def isEqualityOp (t : Tok) : Bool := t = .eqEq || t = .bangEq
def equalityValue (t : Tok) (v r : I64) : I64 := ofBool (if t = .eqEq then v = r else v ≠ r)

def parseEquality : Bool → Parse Env E I64 :=
  leftLevel limit (parseRelate acc comma limit) isEqualityOp (binaryStep (parseRelate acc comma limit) equalityValue)

def parseBitand : Bool → Parse Env E I64 :=
  leftLevel limit (parseEquality acc comma limit) (· = .amp)
    (binaryStep (parseEquality acc comma limit) fun _ v r => v &&& r)

def parseBitxor : Bool → Parse Env E I64 :=
  leftLevel limit (parseBitand acc comma limit) (· = .caret)
    (binaryStep (parseBitand acc comma limit) fun _ v r => v ^^^ r)

def parseBitor : Bool → Parse Env E I64 :=
  leftLevel limit (parseBitxor acc comma limit) (· = .pipe)
    (binaryStep (parseBitxor acc comma limit) fun _ v r => v ||| r)

def logandStep (active : Bool) (v : I64) : Parse Env E I64 := do
  advance
  let r ← parseBitor acc comma limit (active && v ≠ 0)
  return if active then ofBool (v ≠ 0 && r ≠ 0) else v

def parseLogand : Bool → Parse Env E I64 :=
  leftLevel limit (parseBitor acc comma limit) (· = .ampAmp) (logandStep acc comma limit)

def logorStep (active : Bool) (v : I64) : Parse Env E I64 := do
  advance
  let r ← parseLogand acc comma limit (active && v = 0)
  return if active then ofBool (v ≠ 0 || r ≠ 0) else v

def parseLogor : Bool → Parse Env E I64 :=
  leftLevel limit (parseLogand acc comma limit) (· = .pipePipe) (logorStep acc comma limit)

def parseTernary : ℕ → Bool → Parse Env E I64
  | 0, _ => fail .outOfFuel
  | fuel + 1, active => do
    let cond ← parseLogor acc comma limit active
    let lex ← get
    if lex.cur = .question then
      advance
      let trueLex ← get
      if trueLex.cur = .colon then fail (.expressionExpected trueLex.src trueLex.tokStart)
      let t ← comma (active && cond ≠ 0)
      let colonLex ← get
      if colonLex.cur ≠ .colon then fail (.conditionalColonExpected colonLex.src trueLex.tokStart)
      advance
      let falseLex ← get
      if falseLex.cur = .eof then fail (.expressionExpected falseLex.src colonLex.tokStart)
      let f ← parseTernary fuel (active && cond = 0)
      return if active then (if cond ≠ 0 then t else f) else 0
    else return if active then cond else 0

/-- The place of a compound assignment is found before its right side runs. -/
def parseAssign : ℕ → Bool → Parse Env E I64
  | 0, _ => fail .outOfFuel
  | fuel + 1, active => do
    let lex ← get
    match lex.cur with
    | .ident name =>
      let next ← ahead lex.advance
      match assignmentOpcode next.cur with
      | some op =>
        advance
        advance
        let precomputed ← lvalueOf acc name (active && op ≠ .set)
        let lhs ← valueOf acc precomputed
        let rhsLex ← get
        let rhs ← parseAssign fuel active
        if active && (op = .div || op = .rem) && rhs = 0 then fail (.divisionAt rhsLex.src rhsLex.tokStart)
        let new ← ahead (assignedValue op lhs rhs)
        let lvalue ← if op = .set then lvalueOf acc name active else pure precomputed
        storeTo acc lvalue new
        return if active then new else 0
      | none => parseTernary acc comma limit limit active
    | _ => parseTernary acc comma limit limit active

def commaStep (active : Bool) (_ : I64) : Parse Env E I64 := do
  advance
  parseAssign acc comma limit limit active
end

def parseComma : ℕ → Bool → Parse Env E I64
  | 0 => fun _ => fail .outOfFuel
  | limit + 1 =>
    leftLevel limit (parseAssign acc (parseComma limit) limit limit) (· = .comma) (commaStep acc (parseComma limit) limit)
end

section
variable (acc : Access Env LVal E)

def maxArithNesting : ℕ := 64

def isArithIdentifier (s : Text) : Bool :=
  match s with
  | [] => false
  | c :: rest => isIdentStart c && rest.all isIdentChar

/-- A name between `--` and `++`, or the other way round, is refused as a whole. -/
def prefixPostfixLvalueError (expr : Text) : Option (ArithError E) :=
  let trimmed := trim expr
  let refuse (op : String) : Option (ArithError E) :=
    if isArithIdentifier ((trimmed.drop 2).take (trimmed.length - 4)) then
      some (.requiresLvalue (trimmed ++ [' ']) op)
    else none
  if ['-','-'].isPrefixOf trimmed && ['+','+'].isSuffixOf trimmed then refuse "++"
  else if ['+','+'].isPrefixOf trimmed && ['-','-'].isSuffixOf trimmed then refuse "--"
  else none

def leftoverError (expr : Text) (lex : Lexer) : ArithError E :=
  let trimmed := trimStart expr
  if (lex.cur = .plusPlus ∨ lex.cur = .minusMinus) ∧ (['-','-'].isPrefixOf trimmed ∨ ['+','+'].isPrefixOf trimmed) then
    .requiresLvalue expr (if lex.cur = .plusPlus then "++" else "--")
  else if (assignmentOpcode lex.cur).isSome then .assignmentToNonVariable lex.src lex.tokStart
  else .syntaxErrorInExpression lex.src lex.tokStart

def evalInner (depth : ℕ) (expr : Text) (env : Env) : Except (ArithError E) I64 × Env :=
  if (trim expr).isEmpty then (.ok 0,env)
  else
    match prefixPostfixLvalueError expr with
    | some e => (.error e,env)
    | none =>
      if maxArithNesting < depth + 1 then (.error .recursion,env)
      else
        match Lexer.new expr with
        | .error e => (.error e,env)
        | .ok lex =>
          match parseComma acc (expr.length + 1) true lex env with
          | (.error e,env) => (.error e,env)
          | (.ok (v,lex),env) => if lex.cur = .eof then (.ok v,env) else (.error (leftoverError expr lex),env)
end
end Cherubsh.Expander.Arith
