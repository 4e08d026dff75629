import Cherubsh.Library.Descriptors
import Cherubsh.Library.GuardedRun

/-! # Redirections around a command of the shell itself

A plan changes the shell's own descriptors and first logs how to put them back. It carries the
answers of the system that it depends on. Dropping the guard walks the log from its end.
-/
namespace Cherubsh.Exec.Redirect
variable {File : Type*}

def guardSaveFdBase : ℕ := 50

inductive Plan (File : Type*) where
  | open (path : String) (opened : Except String File) (target : ℕ)
  | dup (source : ℤ) (target : ℕ) (sourceLabel : String)
  | move (source : ℤ) (target : ℕ) (sourceLabel : String)
  | close (target : ℕ)
  | heredoc (body : List UInt8) (pipe : Option (File × File)) (fork : Bool) (target : ℕ)
  | openErrAndOut (path : String) (opened : Except String File)
  | assignVar (path : String) (opened : Except String File) (var : String) (assigned : Except String Unit)
  | assignFd (source : ℤ) (var : String) (closeSource : Bool) (assigned : Except String Unit)
  | closeVar (var : String) (fd : Except String ℤ)
  | assignHeredoc (body : List UInt8) (pipe : Option (File × File)) (fork : Bool) (var : String)
      (assigned : Except String Unit)

/-- A logged entry: the number to put back and the one its file is kept on; none when
the number was closed. -/
abbrev Saved : Type := ℕ × Option ℕ

structure RedirGuard where
  savedFd : List Saved
  assignedVarFds : List ℕ
  closeVarFds : Bool

def RedirGuard.new (closeVarFds : Bool) : RedirGuard := ⟨[],[],closeVarFds⟩

/-- The shell's descriptors together with the guard of the command being redirected. -/
structure Parent (File : Type*) where
  table : FdTable File
  guard : RedirGuard

def Parent.push (s : Parent File) (t : FdTable File) (entry : Saved) : Parent File :=
  ⟨t,{s.guard with savedFd := s.guard.savedFd ++ [entry]}⟩

def saveFdAvoiding (s : Parent File) (target : ℕ) (avoid : List ℤ) : Parent File :=
  match (s.table.dupFd target guardSaveFdBase).orElse fun _ => s.table.dupFd target 10 with
  | none => s.push s.table (target,none)
  | some (saved,t) =>
    if (saved : ℤ) ∈ avoid then
      match (t.close saved).dupFd target (saved + 1) with
      | none => s.push (t.close saved) (target,none)
      | some (again,t) => s.push t (target,some again)
    else s.push t (target,some saved)

def saveFd (s : Parent File) (target : ℕ) : Parent File := saveFdAvoiding s target []

def noteVarFd (s : Parent File) (fd : ℕ) : Parent File :=
  if s.guard.closeVarFds then {s with guard.assignedVarFds := s.guard.assignedVarFds ++ [fd]} else s

/-- Put one logged number back. A kept file that is gone leaves the number as it is. -/
def undo (entry : Saved) (t : FdTable File) : FdTable File :=
  match entry with
  | (target,none) => t.close target
  | (target,some saved) => ((t.dup2 saved target).getD t).close saved

def undoAll (log : List Saved) (t : FdTable File) : FdTable File := log.foldr undo t

def dropGuard (s : Parent File) : FdTable File :=
  s.guard.assignedVarFds.foldr (fun fd t => t.close fd) (undoAll s.guard.savedFd s.table)

def dup2Close (t : FdTable File) (source target : ℕ) : Except String Unit × FdTable File :=
  match t.dup2 source target with
  | none => (.error s!"dup2({source}, {target}) failed",t.close source)
  | some t => (.ok (),if source ≠ target then t.close source else t)

def pipeThreshold : ℕ := 4096

/-- The read end of a pipe that holds the body; a large body is written by a child. -/
def heredocReadFd (t : FdTable File) (body : List UInt8) (pipe : Option (File × File)) (fork : Bool) :
    Except String ℕ × FdTable File :=
  match pipe with
  | none => (.error "pipe() failed for heredoc",t)
  | some (readEnd,writeEnd) =>
    let (readFd,t) := t.openFile readEnd
    let (writeFd,t) := t.openFile writeEnd
    if body.length < pipeThreshold then (.ok readFd,t.close writeFd)
    else if fork then (.ok readFd,t.close writeFd)
    else (.error "fork() failed for heredoc",(t.close readFd).close writeFd)

def install (s : Parent File) (fd target : ℕ) : Except String Unit × Parent File :=
  let s := saveFd s target
  let (res,t) := dup2Close s.table fd target
  (res,{s with table := t})

def badFd (label : String) : String := s!"{label}: Bad file descriptor"

def duplicate (s : Parent File) (source : ℤ) (target : ℕ) (label : String) : Except String Unit × Parent File :=
  let s := saveFdAvoiding s target [source]
  match s.table.dup2 source target with
  | none => (.error (badFd label),s)
  | some t => (.ok (),{s with table := t})

def assignHigh (s : Parent File) (high : ℕ) (assigned : Except String Unit) : Except String Unit × Parent File :=
  match assigned with
  | .error e => (.error e,{s with table := s.table.close high})
  | .ok _ => (.ok (),noteVarFd s high)

def executePlan (s : Parent File) : Plan File → Except String Unit × Parent File
  | .open _ opened target =>
    match opened with
    | .error e => (.error e,s)
    | .ok file =>
      let (fd,t) := s.table.openFile file
      install {s with table := t} fd target
  | .dup source target label => if source = target then (.ok (),s) else duplicate s source target label
  | .move source target label =>
    if source = target then (.ok (),s)
    else
      match duplicate s source target label with
      | (.error e,s) => (.error e,s)
      | (.ok _,s) => (.ok (),{s with table := s.table.close source})
  | .close target =>
    let s := saveFd s target
    (.ok (),{s with table := s.table.close target})
  | .openErrAndOut _ opened =>
    match opened with
    | .error e => (.error e,s)
    | .ok file =>
      let (fd,t) := s.table.openFile file
      let s := saveFd (saveFd {s with table := t} 1) 2
      match dup2Close s.table fd 1 with
      | (.error e,t) => (.error e,{s with table := t})
      | (.ok _,t) =>
        match t.dup2 1 2 with
        | none => (.error "dup2 stderr failed",{s with table := t})
        | some t => (.ok (),{s with table := t})
  | .heredoc body pipe fork target =>
    match heredocReadFd s.table body pipe fork with
    | (.error e,t) => (.error e,{s with table := t})
    | (.ok fd,t) => install {s with table := t} fd target
  | .assignVar path opened _ assigned =>
    match opened with
    | .error e => (.error e,s)
    | .ok file =>
      let (fd,t) := s.table.openFile file
      match t.dupFd fd 10 with
      | none => (.error s!"redirection error: cannot duplicate fd: {path}",{s with table := t.close fd})
      | some (high,t) => assignHigh {s with table := t.close fd} high assigned
  | .assignFd source _ closeSource assigned =>
    match s.table.dupFd source 10 with
    | none => (.error s!"{source}: Bad file descriptor",s)
    | some (high,t) =>
      match assignHigh {s with table := t} high assigned with
      | (.error e,s) => (.error e,s)
      | (.ok _,s) => (.ok (),if closeSource then {s with table := s.table.close source} else s)
  | .closeVar _ fd =>
    match fd with
    | .error e => (.error e,s)
    | .ok fd => (.ok (),{s with table := s.table.close fd})
  | .assignHeredoc body pipe fork var assigned =>
    match heredocReadFd s.table body pipe fork with
    | (.error e,t) => (.error e,{s with table := t})
    | (.ok fd,t) =>
      match t.dupFd fd 10 with
      | none => (.error s!"{var}: cannot assign fd to variable",{s with table := t.close fd})
      | some (high,t) => assignHigh {s with table := t.close fd} high assigned

structure Applied (File : Type*) where
  parent : Parent File
  failure : Option String

def Applied.start (closeVarFds : Bool) (t : FdTable File) : Applied File := ⟨⟨t,RedirGuard.new closeVarFds⟩,none⟩

def applyOne (s : Applied File) (r : Except String (Plan File)) : Applied File :=
  match s.failure, r with
  | some _, _ => s
  | none, .error e => {s with failure := some e}
  | none, .ok plan =>
    match executePlan s.parent plan with
    | (.error e,p) => ⟨p,some e⟩
    | (.ok _,p) => ⟨p,none⟩

def applyRedirectsToParent (closeVarFds : Bool) (t : FdTable File) (rs : List (Except String (Plan File))) :
    Applied File :=
  GuardedRun.run applyOne (.start closeVarFds t) rs
end Cherubsh.Exec.Redirect
