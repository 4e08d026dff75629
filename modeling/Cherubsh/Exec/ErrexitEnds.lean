import Cherubsh.Exec.Errexit

/-! # How a command can end under errexit

A position is tested when it lies in a condition, left of a connective or under `!`. From the tree
alone follows how a command can end.
-/
namespace Cherubsh.Exec.Errexit
variable {C W σ : Type}

mutual
/-- The tree with every simple command marked by whether its position is tested. -/
def mark (inTest : Bool) : Command C W → Command (Bool × C) W
  | .mk invert data => .mk invert (markData (inTest || invert) data)

def markData (inTest : Bool) : CommandData C W → CommandData (Bool × C) W
  | .null => .null
  | .simple c => .simple (inTest,c)
  | .connection first second .andAnd => .connection (mark true first) (mark inTest second) .andAnd
  | .connection first second .orOr => .connection (mark true first) (mark inTest second) .orOr
  | .connection first second .semi => .connection (mark inTest first) (mark inTest second) .semi
  | .connection first second .newline => .connection (mark inTest first) (mark inTest second) .newline
  | .group command => .group (mark inTest command)
  | .ifThen test trueCase => .ifThen (mark true test) (mark inTest trueCase)
  | .ifElse test trueCase falseCase => .ifElse (mark true test) (mark inTest trueCase) (mark inTest falseCase)
  | .loop invert test action => .loop invert (mark true test) (mark inTest action)
  | .forIn head action => .forIn head (mark inTest action)
  | .case word clauses => .case word (markClauses inTest clauses)

def markClauses (inTest : Bool) : Clauses C W → Clauses (Bool × C) W
  | .nil => .nil
  | .clause patterns action flags rest => .clause patterns (mark inTest action) flags (markClauses inTest rest)
  | .empty patterns flags rest => .empty patterns flags (markClauses inTest rest)
end

def World.marked (w : World C W σ) : World (Bool × C) W σ where
  simple c := w.simple c.2
  items := w.items
  assign := w.assign
  word := w.word
  patternListMatches := w.patternListMatches

def startState (world : σ) (lastStatus : ℤ) : State C σ := ⟨world,none,lastStatus,0,0,[]⟩

def finalState (w : World C W σ) (n : ℕ) (command : Command C W) (world : σ) (lastStatus : ℤ) : State (Bool × C) σ :=
  (executeCommand w.marked n (mark false command) (startState world lastStatus)).2

def Exits (s : State C σ) : Prop := ∃ status,s.pending = some (.exit status)

/-- A simple command has failed outside every tested position. -/
def FailedUntested (s : State (Bool × C) σ) : Prop := ∃ c status,((false,c),status) ∈ s.ran ∧ status ≠ 0

/-- The shell exits in a run of the tree exactly when a command fails outside the tested
positions. -/
def ExitsOnUntestedFailure (command : Command C W) : Prop :=
  ∀ (σ : Type) (w : World C W σ) (n : ℕ) (world : σ) (lastStatus : ℤ),
    Exits (finalState w n command world lastStatus) ↔ FailedUntested (finalState w n command world lastStatus)

section
/-- How a run can end without a failure outside the tested positions; of a status only whether it
is zero is kept. -/
inductive End where
  | done (ok : Bool)
  | unwound (ok : Bool)
  | slipped
  deriving DecidableEq
open End

abbrev Ends := End → Bool

namespace Ends

def only (ok : Bool) : Ends := fun e => e = done ok

def union (S T : Ends) : Ends := fun e => S e || T e

def inverted (S : Ends) : Ends
  | done ok => S (done !ok)
  | unwound ok => S (unwound !ok)
  | slipped => S slipped

def checked (S : Ends) : Ends
  | done ok => ok && S (done true)
  | unwound ok => S (unwound ok)
  | slipped => S slipped || S (done false)

def andThen (S : Ends) (next : Bool → Ends) : Ends := fun e =>
  (S (done true) && next true e) || (S (done false) && next false e) ||
    match e with
    | done _ => false
    | e => S e

def simple (inTest inLoop : Bool) : Ends
  | done ok => ok || inTest
  | unwound ok => ok && inLoop
  | slipped => false

section
variable (invert inLoop : Bool) (test action : Ends)

def unwinds : Bool := test (unwound true) || test (unwound false)

def goesOn : Bool := test (done !invert) || (invert && test (unwound false))

def comesToEnd : Bool := test (done invert) || unwinds test

/-- Some round can leave a failure for the next one. -/
def leavesFailure : Bool := goesOn invert test && (action (done false) || action (unwound false))

def loop : Ends
  | done true => comesToEnd invert test || (goesOn invert test && action (unwound true))
  | done false => (leavesFailure invert test action && comesToEnd invert test) || (goesOn invert test && action (unwound false))
  | unwound true => inLoop && (unwinds test || (goesOn invert test && action (unwound true)))
  | unwound false => inLoop && ((leavesFailure invert test action && unwinds test) || (goesOn invert test && action (unwound false)))
  | slipped => goesOn invert test && action slipped

def forIn : Ends
  | done ok => ok || action (done false) || action (unwound false)
  | unwound ok => inLoop && action (unwound ok)
  | slipped => action slipped
end
end Ends
open Ends

mutual
def ends (inTest inLoop : Bool) : Command C W → Ends
  | .mk true data => (dataEnds true inLoop data).inverted
  | .mk false data =>
    if inTest || exempt data then dataEnds inTest inLoop data else (dataEnds inTest inLoop data).checked

def dataEnds (inTest inLoop : Bool) : CommandData C W → Ends
  | .null => only true
  | .simple _ => Ends.simple inTest inLoop
  | .connection first second .andAnd =>
    andThen (ends true inLoop first) fun ok => if ok then ends inTest inLoop second else only false
  | .connection first second .orOr =>
    andThen (ends true inLoop first) fun ok => if ok then only true else ends inTest inLoop second
  | .connection first second .semi => andThen (ends inTest inLoop first) fun _ => ends inTest inLoop second
  | .connection first second .newline => andThen (ends inTest inLoop first) fun _ => ends inTest inLoop second
  | .group command => ends inTest inLoop command
  | .ifThen test trueCase => andThen (ends true inLoop test) fun ok => if ok then ends inTest inLoop trueCase else only true
  | .ifElse test trueCase falseCase =>
    andThen (ends true inLoop test) fun ok => if ok then ends inTest inLoop trueCase else ends inTest inLoop falseCase
  | .loop invert test action => Ends.loop invert inLoop (ends true true test) (ends inTest true action)
  | .forIn _ action => Ends.forIn inLoop (ends inTest true action)
  | .case _ clauses => clausesEnds inTest inLoop clauses false true

def clausesEnds (inTest inLoop : Bool) : Clauses C W → Bool → Bool → Ends
  | .nil,_,before => only before
  | .clause _ action flags rest,true,_ =>
    andThen (ends inTest inLoop action) fun ok =>
      if flags = .fallthrough then clausesEnds inTest inLoop rest true ok else only ok
  | .clause _ action flags rest,false,before =>
    union (clausesEnds inTest inLoop rest false before) <| andThen (ends inTest inLoop action) fun ok =>
      match flags with
      | .fallthrough => clausesEnds inTest inLoop rest true ok
      | .testNext => clausesEnds inTest inLoop rest false ok
      | .leave => only ok
  | .empty _ flags rest,true,before =>
    if flags = .fallthrough then clausesEnds inTest inLoop rest true before else only before
  | .empty _ flags rest,false,before =>
    union (clausesEnds inTest inLoop rest false before) <|
      match flags with
      | .fallthrough => clausesEnds inTest inLoop rest true before
      | .testNext => clausesEnds inTest inLoop rest false before
      | .leave => only before
end

/-- Some run of the tree ends in an exit that no failure outside the tested positions explains. -/
def slips (command : Command C W) : Bool := ends false false command slipped
end
end Cherubsh.Exec.Errexit
