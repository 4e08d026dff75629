import Mathlib.Data.List.Basic

/-! # Lists of commands and the trees they are parsed to

The parser folds a list into a tree that leans to the left: every separator takes
everything before it as its first part. A trailing ampersand gets an empty command
as its second part.
-/
namespace Cherubsh.Parser
open List
variable {Cmd : Type*}

inductive Connector where
  | semi | newline | amp
  deriving DecidableEq

inductive Command (Cmd : Type*) where
  | null
  | simple (c : Cmd)
  | connection (first second : Command Cmd) (connector : Connector)
  deriving DecidableEq

inductive Token (Cmd : Type*) where
  | command (c : Cmd)
  | stopWord
  | semicolon
  | ampersand
  | newline
  | eof

def skipNewlines : List (Token Cmd) → List (Token Cmd)
  | .newline :: ts => skipNewlines ts
  | ts => ts

def isStopWord : List (Token Cmd) → Bool
  | .stopWord :: _ => true
  | _ => false

def atEnd : List (Token Cmd) → Bool
  | .eof :: _ => true
  | _ => false

def connect (left right : Command Cmd) (connector : Connector) : Command Cmd := .connection left right connector

def parseAndOr : List (Token Cmd) → Option (Command Cmd × List (Token Cmd))
  | .command c :: ts => some (.simple c,ts)
  | _ => none

/-- The loop over the separators; each round takes at least one token. -/
def listLoop : ℕ → Command Cmd → List (Token Cmd) → Option (Command Cmd × List (Token Cmd))
  | 0, left, ts => some (left,ts)
  | fuel + 1, left, ts =>
    if isStopWord ts then some (left,ts)
    else
      match ts with
      | .semicolon :: ts =>
        let ts := skipNewlines ts
        if isStopWord ts || atEnd ts then some (left,ts)
        else (parseAndOr ts).bind fun (right,ts) => listLoop fuel (connect left right .semi) ts
      | .ampersand :: ts =>
        let ts := skipNewlines ts
        if isStopWord ts || atEnd ts then some (connect left .null .amp,ts)
        else (parseAndOr ts).bind fun (right,ts) => listLoop fuel (connect left right .amp) ts
      | .newline :: ts =>
        let ts := skipNewlines ts
        if isStopWord ts || atEnd ts then some (left,ts)
        else (parseAndOr ts).bind fun (right,ts) => listLoop fuel (connect left right .newline) ts
      | ts => some (left,ts)

def parseSimpleListUntil (ts : List (Token Cmd)) : Option (Command Cmd × List (Token Cmd)) :=
  let ts := skipNewlines ts
  if isStopWord ts then none
  else (parseAndOr ts).bind fun (left,ts) => listLoop ts.length left ts

inductive Ending where
  | eof | stopWord
  deriving DecidableEq

def Ending.token : Ending → Token Cmd
  | .eof => .eof
  | .stopWord => .stopWord

def Connector.token : Connector → Token Cmd
  | .semi => .semicolon
  | .newline => .newline
  | .amp => .ampersand

/-- A list `c op₁ c₂ … opₙ₋₁ cₙ` with a separator after its last command or without. -/
structure CommandList (Cmd : Type*) where
  first : Cmd
  rest : List (Connector × Cmd)
  last : Option Connector

def renderRest (rest : List (Connector × Cmd)) : List (Token Cmd) :=
  rest.flatMap fun (op,c) => [op.token,.command c]

def CommandList.render (l : CommandList Cmd) (ending : Ending) (after : List (Token Cmd)) : List (Token Cmd) :=
  .command l.first :: (renderRest l.rest ++ (l.last.toList.map Connector.token ++ ending.token :: after))

def CommandList.ops (l : CommandList Cmd) : List Connector := l.rest.map Prod.fst ++ l.last.toList

def spine (left : Command Cmd) (rest : List (Connector × Cmd)) : Command Cmd :=
  rest.foldl (fun left (op,c) => connect left (.simple c) op) left

def CommandList.tree (l : CommandList Cmd) : Command Cmd :=
  match l.last with
  | some .amp => connect (spine (.simple l.first) l.rest) .null .amp
  | _ => spine (.simple l.first) l.rest

theorem listLoop_ending (fuel : ℕ) (left : Command Cmd) (ending : Ending) (after : List (Token Cmd)) :
    listLoop fuel left (ending.token :: after) = some (left,ending.token :: after) := by
  cases fuel with
  | zero => rfl
  | succ fuel => cases ending <;> rfl

theorem listLoop_last (fuel : ℕ) (left : Command Cmd) (op : Connector) (ending : Ending) (after : List (Token Cmd)) :
    listLoop (fuel + 1) left (op.token :: ending.token :: after) =
      some (if op = .amp then connect left .null .amp else left,ending.token :: after) := by
  cases op with
  | semi | newline | amp => cases ending <;> rfl

theorem listLoop_cons (fuel : ℕ) (left : Command Cmd) (op : Connector) (c : Cmd) (ts : List (Token Cmd)) :
    listLoop (fuel + 1) left (op.token :: .command c :: ts) = listLoop fuel (connect left (.simple c) op) ts := by
  cases op <;> rfl

theorem listLoop_render (l : CommandList Cmd) (left : Command Cmd) (ending : Ending) (after : List (Token Cmd))
    {fuel : ℕ} (hf : l.rest.length + 1 ≤ fuel) :
    listLoop fuel left (renderRest l.rest ++ (l.last.toList.map Connector.token ++ ending.token :: after)) =
      some (if l.last = some .amp then connect (spine left l.rest) .null .amp else spine left l.rest,
        ending.token :: after) := by
  obtain ⟨first,rest,last⟩ := l
  induction rest generalizing left fuel with
  | nil =>
    obtain ⟨fuel,rfl⟩ : ∃ k, fuel = k + 1 := ⟨fuel - 1,by omega⟩
    cases last with
    | none => exact listLoop_ending ..
    | some op => simpa [renderRest,spine] using listLoop_last fuel left op ending after
  | cons p rest ih =>
    obtain ⟨op,c⟩ := p
    obtain ⟨fuel,rfl⟩ : ∃ k, fuel = k + 1 := ⟨fuel - 1,by omega⟩
    have hl : rest.length + 1 ≤ fuel := by
      simp only [length_cons] at hf
      omega
    simp only [renderRest,flatMap_cons,cons_append,nil_append]
    rw [listLoop_cons]
    exact ih (connect left (.simple c) op) hl

theorem length_renderRest (rest : List (Connector × Cmd)) : (renderRest rest).length = 2 * rest.length := by
  induction rest with
  | nil => rfl
  | cons p rest ih =>
    rw [renderRest,flatMap_cons] at *
    simp only [length_append,length_cons,length_nil,ih]
    omega

theorem parse_render (l : CommandList Cmd) (ending : Ending) (after : List (Token Cmd)) :
    parseSimpleListUntil (l.render ending after) = some (l.tree,ending.token :: after) := by
  have hf : l.rest.length + 1 ≤
      (renderRest l.rest ++ (l.last.toList.map Connector.token ++ ending.token :: after)).length := by
    simp only [length_append,length_renderRest,length_cons]
    omega
  simp only [parseSimpleListUntil,CommandList.render,skipNewlines,isStopWord,parseAndOr,Bool.false_eq_true,
    if_false,Option.bind_some]
  rw [listLoop_render l _ ending after hf,CommandList.tree]
  rcases l.last with _ | op
  · rfl
  · cases op <;> rfl
end Cherubsh.Parser
