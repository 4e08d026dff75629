import Cherubsh.Parser.Token

/-! # Parsed commands

A redirection from a here-document also keeps where in the input its body was cut out;
nothing but statements about the parser looks at that. A coprocess of a simple command
is a case of its own, since the simple command is then part of it.
-/
namespace Cherubsh.Grammar

structure WordDesc where
  text : Text
  flags : ℕ
  span : Span
  raw : Option Text
  deriving DecidableEq

inductive RedirectInstruction where
  | outputDirection | inputDirection | inputaDirection | appendingTo | readingUntil | readingString
  | duplicatingInput | duplicatingOutput | deblankReadingUntil | closeThis | errAndOut | inputOutput | outputForce
  | duplicatingInputWord | duplicatingOutputWord | moveInput | moveOutput | moveInputWord | moveOutputWord
  | appendErrAndOut
  deriving DecidableEq

inductive Redirectee where
  | fd (n : ℤ)
  | word (w : WordDesc)
  deriving DecidableEq

inductive Redirector where
  | fd (n : ℤ)
  | var (name : Text)
  deriving DecidableEq

/-- The part of the input that was taken for a here-document and its delimiter line. -/
structure Place where
  start : ℕ
  stop : ℕ
  deriving DecidableEq

structure Redirect where
  redirector : Redirector
  rflags : ℕ
  flags : ℕ
  instruction : RedirectInstruction
  redirectee : Redirectee
  hereDocEof : Option Text
  hereDocBody : Option Text
  place : Option Place
  deriving DecidableEq

inductive CondType where
  | and | or | unary | binary | term | expr
  deriving DecidableEq

inductive CondCommand where
  | mk (condType : CondType) (op : Option WordDesc) (left right : Option CondCommand) (term : Option WordDesc)

inductive Connector where
  | andAnd | orOr | pipe | barAnd | semi | amp | newline
  deriving DecidableEq

mutual
inductive Command where
  | mk (data : CommandData) (flags line : ℕ) (redirects : List Redirect)

inductive CommandData where
  | for (name : WordDesc) (mapList : Option (List WordDesc)) (action : Command) (line : ℕ)
  | case (word : WordDesc) (clauses : Clauses)
  | while (test action : Command)
  | until (test action : Command)
  | ifThen (test trueCase : Command)
  | ifElse (test trueCase falseCase : Command)
  | connection (first second : Command) (connector : Connector)
  | simple (words : List WordDesc) (redirects : List Redirect)
  | functionDef (name : WordDesc) (command : Command) (line : ℕ)
  | group (command : Command)
  | select (name : WordDesc) (mapList : Option (List WordDesc)) (action : Command) (line : ℕ)
  | arith (expression : WordDesc)
  | cond (condition : CondCommand)
  | arithFor (init test step : Option WordDesc) (action : Command)
  | subshell (command : Command) (flags : ℕ)
  | coproc (name : Option WordDesc) (command : Command)
  | coprocSimple (words : List WordDesc) (redirects : List Redirect)

/-- The clauses of a case command, with an action or without. -/
inductive Clauses where
  | nil
  | bare (patterns : List WordDesc) (flags : ℕ) (rest : Clauses)
  | clause (patterns : List WordDesc) (action : Command) (flags : ℕ) (rest : Clauses)
end

def Command.data : Command → CommandData
  | .mk data _ _ _ => data

def Command.line : Command → ℕ
  | .mk _ _ line _ => line

def CommandData.plain (data : CommandData) : Command := .mk data 0 0 []

def Command.withFlags : Command → ℕ → Command
  | .mk data flags line redirects, more => .mk data (flags ||| more) line redirects

def cmdWantSubshell : ℕ := 0x1
def cmdInvertReturn : ℕ := 0x4
def cmdTimePipeline : ℕ := 0x80
def cmdTimePosix : ℕ := 0x100
def cmdCoprocSubshell : ℕ := 0x1000
def wQuoted : ℕ := 0x2
def wCompassign : ℕ := 0x4000
def casepatFallthrough : ℕ := 0x1
def casepatTestnext : ℕ := 0x2
def redirVarassign : ℕ := 0x1
end Cherubsh.Grammar
