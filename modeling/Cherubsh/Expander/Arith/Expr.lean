import Cherubsh.Expander.Arith.Eval

/-! # Expression trees, how they are written and what they mean

The standard meaning leaves an operand that is not selected alone; the evaluator's walks through
it with nothing wanted of it.
-/
namespace Cherubsh.Expander.Arith
variable {Env LVal E α β : Type}

inductive UnOp where
  | plus | minus | bang | tilde
  deriving DecidableEq

inductive BinOp where
  | comma | lor | land | bor | bxor | band | eq | ne | lt | le | gt | ge | shl | shr | add | sub | mul | div | rem | pow
  deriving DecidableEq

inductive Expr where
  | const (n : I64)
  | var (x : Text)
  | unary (op : UnOp) (e : Expr)
  | pre (up : Bool) (x : Text)
  | post (up : Bool) (x : Text)
  | binary (op : BinOp) (a b : Expr)
  | ternary (c t f : Expr)
  | assign (op : AssignOp) (x : Text) (e : Expr)
  | group (e : Expr)
  deriving DecidableEq

def UnOp.tok : UnOp → Tok
  | .plus => .plus
  | .minus => .minus
  | .bang => .bang
  | .tilde => .tilde

def BinOp.tok : BinOp → Tok
  | .comma => .comma
  | .lor => .pipePipe
  | .land => .ampAmp
  | .bor => .pipe
  | .bxor => .caret
  | .band => .amp
  | .eq => .eqEq
  | .ne => .bangEq
  | .lt => .lt
  | .le => .le
  | .gt => .gt
  | .ge => .ge
  | .shl => .shl
  | .shr => .shr
  | .add => .plus
  | .sub => .minus
  | .mul => .star
  | .div => .slash
  | .rem => .percent
  | .pow => .starStar

def AssignOp.tok : AssignOp → Tok
  | .set => .eq
  | .add => .plusEq
  | .sub => .minusEq
  | .mul => .starEq
  | .div => .slashEq
  | .rem => .percentEq
  | .pow => .starStarEq
  | .and => .ampEq
  | .or => .pipeEq
  | .xor => .caretEq
  | .shl => .shlEq
  | .shr => .shrEq

def incDecTok (up : Bool) : Tok := if up then .plusPlus else .minusMinus

/-- The levels, the loosest first; 14 are the unary operators, 15 what needs no operator. -/
def BinOp.level : BinOp → ℕ
  | .comma => 0
  | .lor => 3
  | .land => 4
  | .bor => 5
  | .bxor => 6
  | .band => 7
  | .eq | .ne => 8
  | .lt | .le | .gt | .ge => 9
  | .shl | .shr => 10
  | .add | .sub => 11
  | .mul | .div | .rem => 12
  | .pow => 13

/-- The levels of the operands: all but exponentiation associate to the left. -/
def BinOp.leftLevel (op : BinOp) : ℕ := if op = .pow then 14 else op.level
def BinOp.rightLevel (op : BinOp) : ℕ := if op = .pow then 13 else op.level + 1

def Expr.level : Expr → ℕ
  | .const _ | .var _ | .post _ _ | .group _ => 15
  | .unary _ _ | .pre _ _ => 14
  | .binary op _ _ => op.level
  | .ternary _ _ _ => 2
  | .assign _ _ _ => 1

def parenthesise (level own : ℕ) (toks : List Tok) : List Tok :=
  if level ≤ own then toks else .lparen :: (toks ++ [.rparen])

def Expr.body : Expr → List Tok
  | .const n => [.num n]
  | .var x => [.ident x]
  | .unary op e => op.tok :: parenthesise 14 e.level e.body
  | .pre up x => [incDecTok up,.ident x]
  | .post up x => [.ident x,incDecTok up]
  | .binary op a b =>
    parenthesise op.leftLevel a.level a.body ++ op.tok :: parenthesise op.rightLevel b.level b.body
  | .ternary c t f =>
    parenthesise 3 c.level c.body ++ .question :: (t.body ++ .colon :: parenthesise 2 f.level f.body)
  | .assign op x e => .ident x :: op.tok :: parenthesise 1 e.level e.body
  | .group e => .lparen :: (e.body ++ [.rparen])

def Expr.toks (level : ℕ) (e : Expr) : List Tok := parenthesise level e.level e.body

def Tok.text : Tok → Text
  | .num n => Nat.toDigits 10 n.toNat
  | .ident name => name
  | .plus => ['+']
  | .minus => ['-']
  | .star => ['*']
  | .slash => ['/']
  | .percent => ['%']
  | .starStar => ['*','*']
  | .eq => ['=']
  | .plusEq => ['+','=']
  | .minusEq => ['-','=']
  | .starEq => ['*','=']
  | .slashEq => ['/','=']
  | .percentEq => ['%','=']
  | .starStarEq => ['*','*','=']
  | .ampEq => ['&','=']
  | .pipeEq => ['|','=']
  | .caretEq => ['^','=']
  | .shlEq => ['<','<','=']
  | .shrEq => ['>','>','=']
  | .lparen => ['(']
  | .rparen => [')']
  | .bang => ['!']
  | .tilde => ['~']
  | .ampAmp => ['&','&']
  | .pipePipe => ['|','|']
  | .amp => ['&']
  | .pipe => ['|']
  | .caret => ['^']
  | .eqEq => ['=','=']
  | .bangEq => ['!','=']
  | .lt => ['<']
  | .le => ['<','=']
  | .gt => ['>']
  | .ge => ['>','=']
  | .shl => ['<','<']
  | .shr => ['>','>']
  | .question => ['?']
  | .colon => [':']
  | .comma => [',']
  | .plusPlus => ['+','+']
  | .minusMinus => ['-','-']
  | .eof => []

def spaced : List Tok → Text
  | [] => []
  | [t] => t.text
  | t :: ts => t.text ++ ' ' :: spaced ts

def Expr.render (e : Expr) : Text := spaced e.body

/-- A fault of skipping is one that an operand raises although it is not selected. -/
inductive Fault (E : Type) where
  | divisionByZero
  | negativeExponent
  | skipping
  | access (e : E)
  | other
  deriving DecidableEq

def ArithError.fault : ArithError E → Fault E
  | .divisionAt _ _ => .divisionByZero
  | .exponentBelowZero _ _ => .negativeExponent
  | .divisionByZero => .skipping
  | .access e => .access e
  | _ => .other

def Effect (Env E α : Type) : Type := Env → Except (Fault E) α × Env

namespace Effect

protected def pure (a : α) : Effect Env E α := fun env => (.ok a,env)

protected def bind (p : Effect Env E α) (k : α → Effect Env E β) : Effect Env E β := fun env =>
  match p env with
  | (.ok a,env) => k a env
  | (.error e,env) => (.error e,env)

instance : Monad (Effect Env E) where
  pure := Effect.pure
  bind := Effect.bind

def fail (e : Fault E) : Effect Env E α := fun env => (.error e,env)

def access (f : Env → Except E α × Env) : Effect Env E α := fun env =>
  match f env with
  | (.ok a,env) => (.ok a,env)
  | (.error e,env) => (.error (.access e),env)
end Effect

section
variable (acc : Access Env LVal E)

def wrap (n : ℤ) : I64 := BitVec.ofInt 64 n

def UnOp.denote : UnOp → I64 → I64
  | .plus, v => v
  | .minus, v => wrap (-v.toInt)
  | .bang, v => ofBool (v.toInt = 0)
  | .tilde, v => wrap (-v.toInt - 1)

/-- Shifts take the low six bits of their right side, division goes towards zero. -/
def BinOp.denote (op : BinOp) (v r : I64) : Except (Fault E) I64 :=
  match op with
  | .comma => .ok r
  | .lor => .ok (ofBool (v.toInt ≠ 0 ∨ r.toInt ≠ 0))
  | .land => .ok (ofBool (v.toInt ≠ 0 ∧ r.toInt ≠ 0))
  | .bor => .ok (v ||| r)
  | .bxor => .ok (v ^^^ r)
  | .band => .ok (v &&& r)
  | .eq => .ok (ofBool (v.toInt = r.toInt))
  | .ne => .ok (ofBool (v.toInt ≠ r.toInt))
  | .lt => .ok (ofBool (v.toInt < r.toInt))
  | .le => .ok (ofBool (v.toInt ≤ r.toInt))
  | .gt => .ok (ofBool (r.toInt < v.toInt))
  | .ge => .ok (ofBool (r.toInt ≤ v.toInt))
  | .shl => .ok (wrap (v.toInt * 2 ^ (r.toInt % 64).toNat))
  | .shr => .ok (wrap (v.toInt / 2 ^ (r.toInt % 64).toNat))
  | .add => .ok (wrap (v.toInt + r.toInt))
  | .sub => .ok (wrap (v.toInt - r.toInt))
  | .mul => .ok (wrap (v.toInt * r.toInt))
  | .div => if r.toInt = 0 then .error .divisionByZero else .ok (wrap (v.toInt.tdiv r.toInt))
  | .rem => if r.toInt = 0 then .error .divisionByZero else .ok (wrap (v.toInt.tmod r.toInt))
  | .pow => if r.toInt < 0 then .error .negativeExponent else .ok (wrap (v.toInt ^ r.toInt.toNat))

def AssignOp.binary : AssignOp → Option BinOp
  | .set => none
  | .add => some .add
  | .sub => some .sub
  | .mul => some .mul
  | .div => some .div
  | .rem => some .rem
  | .pow => some .pow
  | .and => some .band
  | .or => some .bor
  | .xor => some .bxor
  | .shl => some .shl
  | .shr => some .shr

def Effect.ofExcept (x : Except (Fault E) α) : Effect Env E α := fun env => (x,env)

/-- Whether the right operand is evaluated once the left one is known. -/
def BinOp.selects (op : BinOp) (v : I64) : Bool :=
  match op with
  | .lor => v.toInt = 0
  | .land => v.toInt ≠ 0
  | _ => true

/-- The standard meaning. -/
def Expr.denote : Expr → Effect Env E I64
  | .const n => pure n
  | .var x => do
    let l ← Effect.access (acc.resolve x)
    Effect.access (acc.load l)
  | .unary op e => do
    let v ← e.denote
    return op.denote v
  | .pre up x => do
    let l ← Effect.access (acc.resolve x)
    let v ← Effect.access (acc.load l)
    let new := wrap (if up then v.toInt + 1 else v.toInt - 1)
    Effect.access (acc.store l new)
    return new
  | .post up x => do
    let l ← Effect.access (acc.resolve x)
    let v ← Effect.access (acc.load l)
    Effect.access (acc.store l (wrap (if up then v.toInt + 1 else v.toInt - 1)))
    return v
  | .binary op a b => do
    let v ← a.denote
    if op.selects v then
      let r ← b.denote
      Effect.ofExcept (op.denote v r)
    else Effect.ofExcept (op.denote v 0)
  | .ternary c t f => do
    let v ← c.denote
    if v.toInt ≠ 0 then t.denote else f.denote
  | .assign op x e =>
    match op.binary with
    | none => do
      let v ← e.denote
      let l ← Effect.access (acc.resolve x)
      Effect.access (acc.store l v)
      return v
    | some op => do
      let l ← Effect.access (acc.resolve x)
      let lhs ← Effect.access (acc.load l)
      let rhs ← e.denote
      let v ← Effect.ofExcept (op.denote lhs rhs)
      Effect.access (acc.store l v)
      return v
  | .group e => e.denote
end

section
variable (acc : Access Env LVal E)

def placeOf (x : Text) (active : Bool) : Effect Env E (Option LVal) :=
  if active then do
    let l ← Effect.access (acc.resolve x)
    return some l
  else return none

def contentOf : Option LVal → Effect Env E I64
  | some l => Effect.access (acc.load l)
  | none => return 0

def putTo (l : Option LVal) (v : I64) : Effect Env E Unit :=
  match l with
  | some l => Effect.access (acc.store l v)
  | none => return ()

def UnOp.apply : UnOp → I64 → I64
  | .plus, v => v
  | .minus, v => -v
  | .bang, v => ofBool (v = 0)
  | .tilde, v => ~~~v

def BinOp.apply (op : BinOp) (v r : I64) : Except (Fault E) I64 :=
  match op with
  | .comma => .ok r
  | .lor => .ok (ofBool (v ≠ 0 || r ≠ 0))
  | .land => .ok (ofBool (v ≠ 0 && r ≠ 0))
  | .bor => .ok (v ||| r)
  | .bxor => .ok (v ^^^ r)
  | .band => .ok (v &&& r)
  | .eq => .ok (ofBool (v = r))
  | .ne => .ok (ofBool (v ≠ r))
  | .lt => .ok (ofBool (v.slt r))
  | .le => .ok (ofBool (v.sle r))
  | .gt => .ok (ofBool (r.slt v))
  | .ge => .ok (ofBool (r.sle v))
  | .shl => .ok (shiftLeft v r)
  | .shr => .ok (shiftRight v r)
  | .add => .ok (v + r)
  | .sub => .ok (v - r)
  | .mul => .ok (v * r)
  | .div => if r = 0 then .error .divisionByZero else .ok (v.sdiv r)
  | .rem => if r = 0 then .error .divisionByZero else .ok (v.srem r)
  | .pow => if r.slt 0 then .error .negativeExponent else .ok (powI64 v r)

def BinOp.wants (op : BinOp) (v : I64) : Bool :=
  match op with
  | .lor => v = 0
  | .land => v ≠ 0
  | _ => true

def BinOp.finish (op : BinOp) (active : Bool) (v r : I64) : Effect Env E I64 :=
  if active then Effect.ofExcept (op.apply v r) else pure (if op = .comma then r else v)

def AssignOp.apply (op : AssignOp) (active : Bool) (lhs rhs : I64) : Except (Fault E) I64 :=
  if active && (op = .div || op = .rem) && rhs = 0 then .error .divisionByZero
  else (assignedValue op lhs rhs : Except (ArithError E) I64).mapError ArithError.fault

def Expr.walk : Expr → Bool → Effect Env E I64
  | .const n, active => return if active then n else 0
  | .var x, active => do
    let l ← placeOf acc x active
    contentOf acc l
  | .unary op e, active => do
    let v ← e.walk active
    return if active then op.apply v else 0
  | .pre up x, active => do
    let l ← placeOf acc x active
    let v ← contentOf acc l
    let new := if active then (if up then v + 1 else v - 1) else 0
    putTo acc l new
    return new
  | .post up x, active => do
    let l ← placeOf acc x active
    let v ← contentOf acc l
    putTo acc l (if up then v + 1 else v - 1)
    return v
  | .binary op a b, active => do
    let v ← a.walk active
    let r ← b.walk (active && op.wants v)
    op.finish active v r
  | .ternary c t f, active => do
    let v ← c.walk active
    let vt ← t.walk (active && v ≠ 0)
    let vf ← f.walk (active && v = 0)
    return if active then (if v ≠ 0 then vt else vf) else 0
  | .assign op x e, active => do
    let early ← placeOf acc x (active && op ≠ .set)
    let lhs ← contentOf acc early
    let rhs ← e.walk active
    let v ← Effect.ofExcept (op.apply active lhs rhs)
    let l ← if op = .set then placeOf acc x active else pure early
    putTo acc l v
    return if active then v else 0
  | .group e, active => e.walk active
end
end Cherubsh.Expander.Arith
