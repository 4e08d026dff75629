import Cherubsh.State.NameViews

/-! # Assignments before a command

The assignments are made while the words are expanded and undone again; then the command gets them
once more. What else runs is any change of the store.
-/
namespace Cherubsh.Exec.TemporaryAssignments
open State State.VarAttrs

structure Shell where
  host : Host
  calls : ℕ
  calls_pos : 0 < calls
  arrayReference : String → Bool

abbrev Assignments := List (String × String)
abbrev Values := List (String × Option String)

variable (sh : Shell)

def set (name value : String) (s : Store) : Store := ((State.assign sh.host sh.calls name value s).map Prod.snd).getD s

def assignmentStorageName (s : Store) (name : String) : String := ((resolveNameref s name).filter (· ≠ "")).getD name

/-! ### While the words are expanded -/

def applyAssignment (name value : String) (s : Store) : Store :=
  match State.assign sh.host sh.calls name value s with
  | some (.ok (),s) => if s.special.options.flags .allexport then setAttr sh.host name EXPORT true s else s
  | some (.error _,s) => s
  | none => s

def unresolvedNamerefPrefixAssignment (name value : String) (s : Store) : Bool :=
  (attrsOf s name).has NAMEREF && (s.vars name).nameref.getD "" = "" && !stateValidName value && !sh.arrayReference value

def rememberAssignmentSnapshot (name : String) (snapshot : Values) (s : Store) : Values × Store :=
  let name := assignmentStorageName s name
  if snapshot.any (·.1 = name) then (snapshot,s)
  else
    let (value,s) := get sh.host s name
    (snapshot ++ [(name,value)],s)

def expandAssignment (state : Values × Store) (a : String × String) : Values × Store :=
  let (snapshot,s) := rememberAssignmentSnapshot sh a.1 state.1 state.2
  (snapshot,if unresolvedNamerefPrefixAssignment sh a.1 a.2 s then s else applyAssignment sh a.1 a.2 s)

def restoreValue (s : Store) (saved : String × Option String) : Store :=
  match saved.2 with
  | some value => set sh saved.1 value s
  | none => unset sh.host saved.1 s

def restoreAssignmentValues (snapshot : Values) (s : Store) : Store := snapshot.foldl (restoreValue sh) s

def expandAssignments (assignments : Assignments) (s : Store) : Store :=
  let (snapshot,s) := assignments.foldl (expandAssignment sh) ([],s)
  restoreAssignmentValues sh snapshot s

/-! ### Builtins -/

structure Builtin where
  name : String
  special : Bool
  invokedViaCommand : Bool
  run : Store → Store
  plain : name ∉ ["export","readonly","declare","typeset","local"]

def posix (s : Store) : Bool :=
  s.special.options.flags .posixlyCorrect || (get sh.host s "POSIXLY_CORRECT").1.isSome

def snapshotAssignments : Assignments → Store → Values × Store
  | [], s => ([],s)
  | a :: rest, s =>
    let key := assignmentStorageName s a.1
    let (value,s) := get sh.host s key
    let (snapshot,s) := snapshotAssignments rest s
    ((key,value) :: snapshot,s)

/-- Before a special builtin in posix mode the assignments stay, and are exported. -/
def applyBuiltinAssignments (persist : Bool) (assignments : Assignments) (s : Store) : Store :=
  assignments.foldl (fun s a =>
    let s := set sh a.1 a.2 s
    if persist then setAttr sh.host (assignmentStorageName s a.1) EXPORT true s else s) s

def runBuiltin (b : Builtin) (opened : Bool) (assignments : Assignments) (s : Store) : Store :=
  let persist := b.special && posix sh s && !b.invokedViaCommand
  let (saved,s) := if persist then ([],s) else snapshotAssignments sh assignments s
  let s := if opened then b.run (applyBuiltinAssignments sh persist assignments s) else s
  if persist then s else restoreAssignmentValues sh saved s

/-! ### Functions -/

structure PrefixAssignmentSnapshot where
  key : String
  value : Option String
  exported : Bool
  attrs : VarAttrs

def snapshotPrefix : Assignments → Store → List PrefixAssignmentSnapshot × Store
  | [], s => ([],s)
  | a :: rest, s =>
    let key := assignmentStorageName s a.1
    let (value,s) := get sh.host s key
    let (snapshot,s') := snapshotPrefix rest s
    (⟨key,value,(s.vars key).exported,attrsOf s key⟩ :: snapshot,s')

def applyAssignments (assignments : Assignments) (s : Store) : Store :=
  assignments.foldl (fun s a => «export» sh.host a.1 (set sh a.1 a.2 s)) s

def restorePrefix (s : Store) (saved : PrefixAssignmentSnapshot) : Store :=
  let s := setAttr sh.host saved.key READONLY false s
  match saved.value with
  | some value =>
    let s := setAttr sh.host saved.key READONLY (saved.attrs.has READONLY) (set sh saved.key value s)
    if saved.exported then «export» sh.host saved.key s
    else (setAttr sh.host saved.key EXPORT false s).setEnv saved.key none
  | none => unset sh.host saved.key s

structure Function where
  body : Store → Store
  persisted : Store → String → Bool

def entered (opened : Bool) (assignments : Assignments) (s : Store) : Store :=
  let s := pushLocalScope s
  if opened then applyAssignments sh assignments s else s

def left (f : Function) (opened : Bool) (s : Store) : Store := popLocalScope sh.host (if opened then f.body s else s)

def callFunction (f : Function) (opened : Bool) (assignments : Assignments) (s : Store) : Store :=
  let (saved,s) := snapshotPrefix sh assignments s
  let s := entered sh opened assignments s
  let persisted := if opened then f.persisted s else fun _ => false
  (saved.filter fun snapshot => !persisted snapshot.key).foldl (restorePrefix sh) (left sh f opened s)

/-! ### The command -/

inductive Kind where
  | external
  | builtin (b : Builtin)
  | function (f : Function)

structure Command where
  words : Store → Store
  opened : Bool
  kind : Kind

def execute (command : Command) (assignments : Assignments) (s : Store) : Store :=
  let s := command.words (expandAssignments sh assignments s)
  match command.kind with
  | .external => s
  | .builtin b => runBuiltin sh b command.opened assignments s
  | .function f => callFunction sh f command.opened assignments s
end Cherubsh.Exec.TemporaryAssignments
