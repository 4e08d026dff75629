import Mathlib.Data.Int.Notation
import Mathlib.Tactic.Common

/-! # The errexit option

While the counter of enclosing conditions is positive no failure ends the shell. What a simple
command does, and how words expand, is left to a world; a loop is followed for a given number of
rounds.
-/
namespace Cherubsh.Exec.Errexit
variable {C W σ : Type}

inductive Connector where
  | andAnd | orOr | semi | newline
  deriving DecidableEq

inductive ClauseEnd where
  | leave | fallthrough | testNext
  deriving DecidableEq

mutual
inductive Command (C W : Type) where
  | mk (invert : Bool) (data : CommandData C W)

inductive CommandData (C W : Type) where
  | null
  | simple (c : C)
  | connection (first second : Command C W) (connector : Connector)
  | group (command : Command C W)
  | ifThen (test trueCase : Command C W)
  | ifElse (test trueCase falseCase : Command C W)
  | loop (invert : Bool) (test action : Command C W)
  | forIn (head : W) (action : Command C W)
  | case (word : W) (clauses : Clauses C W)

inductive Clauses (C W : Type) where
  | nil
  | clause (patterns : W) (action : Command C W) (flags : ClauseEnd) (rest : Clauses C W)
  | empty (patterns : W) (flags : ClauseEnd) (rest : Clauses C W)
end

inductive LoopControl where
  | brk | cont
  deriving DecidableEq

/-- What unwinds the run. The last one only says that a loop has used up its rounds. -/
inductive Unwind where
  | control (kind : LoopControl) (levels : ℕ)
  | exit (status : ℤ)
  | cutOff
  deriving DecidableEq

/-- What a simple command comes to. A `break` or `continue` has a count in range, and with it
status zero. -/
inductive Reply where
  | status (status : ℤ)
  | control (kind : LoopControl) (more : ℕ)

structure World (C W σ : Type) where
  simple : C → σ → Reply × σ
  items : W → σ → List String × σ
  assign : W → String → σ → σ
  word : W → σ → String × σ
  patternListMatches : W → String → σ → Bool × σ

structure State (C σ : Type) where
  world : σ
  pending : Option Unwind
  lastStatus : ℤ
  errexitSuppressed : ℕ
  loopDepth : ℕ
  ran : List (C × ℤ)

def State.suppress (s : State C σ) : State C σ := {s with errexitSuppressed := s.errexitSuppressed + 1}
def State.allow (s : State C σ) : State C σ := {s with errexitSuppressed := s.errexitSuppressed - 1}
def State.enter (s : State C σ) : State C σ := {s with loopDepth := s.loopDepth + 1}
def State.leave (s : State C σ) : State C σ := {s with loopDepth := s.loopDepth - 1}

abbrev Run (C σ : Type) := State C σ → ℤ × State C σ

def tested (run : Run C σ) : Run C σ := fun s =>
  let (status,s) := run s.suppress
  (status,s.allow)

def handleLoopUnwind (s : State C σ) : Bool × State C σ :=
  match s.pending with
  | some (.control .brk 1) => (true,{s with pending := none})
  | some (.control .cont 1) => (false,{s with pending := none})
  | some (.control kind n) => (true,{s with pending := some (.control kind (n - 1))})
  | some _ => (true,s)
  | none => (false,s)

inductive LoopConditionUnwind where
  | proceed | continue | break
  deriving DecidableEq

def handleLoopConditionUnwind (invert : Bool) (s : State C σ) : LoopConditionUnwind × State C σ :=
  match s.pending with
  | some (.control .brk 1) => (.break,{s with pending := none})
  | some (.control .cont 1) => (if invert then .proceed else .continue,{s with pending := none})
  | some (.control kind n) => (.break,{s with pending := some (.control kind (n - 1))})
  | some _ => (.break,s)
  | none => (.proceed,s)

/-- The rounds of `while` and, inverted, of `until`. -/
def rounds (invert : Bool) (test action : Run C σ) : ℕ → ℤ → Run C σ
  | 0,status,s => (status,{s with pending := some .cutOff})
  | n + 1,status,s =>
    let (testStatus,s) := tested test s
    match handleLoopConditionUnwind invert s with
    | (.continue,s) => rounds invert test action n status s
    | (.break,s) => (status,s)
    | (.proceed,s) =>
      if (if invert then testStatus ≠ 0 else testStatus = 0) then
        let (status,s) := action s
        match handleLoopUnwind s with
        | (true,s) => (status,s)
        | (false,s) => rounds invert test action n status s
      else (status,s)

def forItems (assign : String → σ → σ) (action : Run C σ) : List String → ℤ → Run C σ
  | [],status,s => (status,s)
  | item :: items,_,s =>
    let (status,s) := action {s with world := assign item s.world}
    match handleLoopUnwind s with
    | (true,s) => (status,s)
    | (false,s) => forItems assign action items status s

section
variable (w : World C W σ) (n : ℕ)

/-- Outside of loops `break` and `continue` do nothing. -/
def runSimple (c : C) : Run C σ := fun s =>
  match w.simple c s.world with
  | (.status status,world) => (status,{s with world := world,ran := s.ran ++ [(c,status)]})
  | (.control kind more,world) =>
    let s := {s with world := world,ran := s.ran ++ [(c,0)]}
    if s.loopDepth = 0 then (0,s)
    else (0,{s with pending := some (.control kind (min (more + 1) s.loopDepth))})

/-- The commands whose own failure never ends the shell. -/
def exempt : CommandData C W → Bool
  | .ifThen _ _ | .ifElse _ _ _ | .loop _ _ _ | .connection _ _ _ => true
  | _ => false

def maybeErrexit (invert : Bool) (data : CommandData C W) (s : State C σ) : State C σ :=
  if 0 < s.errexitSuppressed ∨ s.pending.isSome ∨ invert ∨ exempt data then s
  else if s.lastStatus ≠ 0 then {s with pending := some (.exit s.lastStatus)}
  else s

mutual
def executeCommand : Command C W → Run C σ
  | .mk invert data => fun s =>
    if s.pending.isSome then (s.lastStatus,s)
    else
      let (raw,s) := if invert then tested (dispatch data) s else dispatch data s
      let status := if invert then if raw = 0 then 1 else 0 else raw
      (status,maybeErrexit invert data {s with lastStatus := status})

def dispatch : CommandData C W → Run C σ
  | .null => fun s => (0,s)
  | .simple c => runSimple w c
  | .connection first second connector => fun s =>
    match connector with
    | .andAnd =>
      let (status,s) := tested (executeCommand first) s
      if s.pending.isSome then (status,s) else if status = 0 then executeCommand second s else (status,s)
    | .orOr =>
      let (status,s) := tested (executeCommand first) s
      if s.pending.isSome then (status,s) else if status ≠ 0 then executeCommand second s else (status,s)
    | .semi | .newline =>
      let (_,s) := executeCommand first s
      if s.pending.isSome then (s.lastStatus,s) else executeCommand second s
  | .group command => executeCommand command
  | .ifThen test trueCase => fun s =>
    let (status,s) := tested (executeCommand test) s
    if s.pending.isSome then (status,s) else if status = 0 then executeCommand trueCase s else (0,s)
  | .ifElse test trueCase falseCase => fun s =>
    let (status,s) := tested (executeCommand test) s
    if s.pending.isSome then (status,s) else if status = 0 then executeCommand trueCase s else executeCommand falseCase s
  | .loop invert test action => fun s =>
    let (status,s) := rounds invert (executeCommand test) (executeCommand action) n 0 s.enter
    (status,s.leave)
  | .forIn head action => fun s =>
    let (items,world) := w.items head s.world
    let (status,s) := forItems (w.assign head) (executeCommand action) items 0 {s with world := world}.enter
    (status,s.leave)
  | .case word clauses => fun s =>
    let (value,world) := w.word word s.world
    runClauses value clauses false 0 {s with world := world}

/-- The clauses from one on; `matched` says that the one before fell through. -/
def runClauses (value : String) : Clauses C W → Bool → ℤ → Run C σ
  | .nil,_,status,s => (status,s)
  | .clause patterns action flags rest,matched,before,s =>
    if matched then
      let (status,s) := executeCommand action s
      if flags = .fallthrough then runClauses value rest true status s else (status,s)
    else
      let (found,world) := w.patternListMatches patterns value s.world
      let s := {s with world := world}
      if found then
        let (status,s) := executeCommand action s
        match flags with
        | .fallthrough => runClauses value rest true status s
        | .testNext => runClauses value rest false status s
        | .leave => (status,s)
      else runClauses value rest false before s
  | .empty patterns flags rest,matched,status,s =>
    if matched then
      if flags = .fallthrough then runClauses value rest true status s else (status,s)
    else
      let (found,world) := w.patternListMatches patterns value s.world
      let s := {s with world := world}
      if found then
        match flags with
        | .fallthrough => runClauses value rest true status s
        | .testNext => runClauses value rest false status s
        | .leave => (status,s)
      else runClauses value rest false status s
end
end
end Cherubsh.Exec.Errexit
