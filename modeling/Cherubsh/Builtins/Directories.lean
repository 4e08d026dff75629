import Cherubsh.Builtins.PrintfFormat
import Mathlib.Data.List.Rotate

/-! # The builtins cd, pushd, popd and pwd

The shell keeps its directory three times: as the directory of the process, in PWD, and as a
logical path of its own. What the files decide is a `FileSystem`.
-/
namespace Cherubsh.Builtins.Directories
open Expander.Arith (Text)
open Expander.ShellString (shellStringToBytes)

/-- The pieces of a path between its slashes. -/
def pieces : Text → List Text
  | [] => [[]]
  | c :: rest =>
    if c = '/' then [] :: pieces rest
    else match pieces rest with
    | piece :: more => (c :: piece) :: more
    | [] => [[c]]

def isAbsolute (path : Text) : Bool := path.head? = some '/'

def iter (path : Text) : List Text :=
  (if isAbsolute path then [['/']] else []) ++ (pieces path).filter fun piece => piece ≠ [] && piece ≠ ['.']

def push (path part : Text) : Text :=
  if isAbsolute part then part
  else if path = [] ∨ path.getLast? = some '/' then path ++ part
  else path ++ '/' :: part

def normalizeStep (parts : List Text) (part : Text) : List Text :=
  if part = [] ∨ part = ['.'] then parts
  else if part = ['.','.'] then parts.dropLast
  else parts ++ [part]

def normalizeLogicalPath (path : Text) : Text := ((iter path).foldl normalizeStep []).foldl push ['/']

/-- No component is a dot or two. -/
def Clean (path : Text) : Prop := ∀ piece ∈ pieces path, piece ≠ ['.'] ∧ piece ≠ ['.','.']

instance (path : Text) : Decidable (Clean path) := inferInstanceAs (Decidable (∀ piece ∈ pieces path, _))

/-- The files at the time of a call. Relative paths are read from the directory of the process. -/
structure FileSystem where
  isDir : Text → Text → Bool
  enter : Text → Except Text Unit
  currentDir : Text → Option Text
  canonicalize : Text → Except Text Text
  spellDirectory : Text → Text → Option Text
  canonical_clean : ∀ path real, canonicalize path = .ok real → Clean real

structure Shell where
  vars : Text → Option Text
  readonly : Text → Bool
  logicalPwdValue : Option Text
  process : Text
  dirsStack : List Text
  restricted : Bool
  cdableVars : Bool
  interactive : Bool
  cdspell : Bool

structure Outcome where
  shell : Shell
  status : ℕ
  out : List Text := []
  message : Text := []

namespace Shell
variable (s : Shell)

def assign (name value : Text) : Shell :=
  if s.readonly name then s else { s with vars := fun n => if n = name then some value else s.vars n }

def logicalPwd : Option Text := s.logicalPwdValue.or ((s.vars "PWD").filter fun pwd => pwd ≠ [])

def setLogicalPwd (value : Text) : Shell := { s with logicalPwdValue := some value }.assign "PWD" value

def fail (status : ℕ) (message : String) : Outcome := { shell := s, status, message := message.toList }
end Shell

variable (fs : FileSystem)

def currentDirOrDot (s : Shell) : Text := (fs.currentDir s.process).getD ['.']

/-- What `pwd` prints without options. -/
def pwd (s : Shell) : Text := s.logicalPwd.getD ((fs.currentDir s.process).getD [])

def diagnosticSubject (value : Text) : Text :=
  if Printf.isRawValue value then Printf.ansiCQuoteBytes (shellStringToBytes value) else value

section
variable (s : Shell)

def directoryExists (target : Text) : Bool :=
  fs.isDir s.process (if isAbsolute target then target else push (s.logicalPwd.getD (currentDirOrDot fs s)) target)

def cdpathEligible (target : Text) : Bool :=
  !isAbsolute target && target.take 2 ≠ "./" && target.take 3 ≠ "../" && target ≠ "." && target ≠ ".."

/-- The first directory of CDPATH that holds the target, the pieces between its colons in turn. -/
def searchCdpath (target : Text) : Option Text :=
  if cdpathEligible target then
    (s.vars "CDPATH").bind fun cdpath =>
      ((cdpath.splitOn ':').map fun dir => push (if dir = [] then ['.'] else dir) target).find? fun candidate =>
        fs.isDir s.process candidate
  else none

/-- A target that does not exist: the variable of that name, or its corrected spelling. -/
def replaceMissing (arg : Option Text) (target : Text) : Option Text :=
  if directoryExists fs s target then none
  else
    match (arg.filter fun _ => s.cdableVars).bind fun name => (s.vars name).filter fun value => directoryExists fs s value with
    | some value => some value
    | none => if s.interactive && s.cdspell then fs.spellDirectory (s.logicalPwd.getD (currentDirOrDot fs s)) target else none

def absoluteTarget (physical : Bool) (target : Text) : Text :=
  if isAbsolute target then target
  else if physical then push (currentDirOrDot fs s) target
  else push ((s.logicalPwd.filter fun p => p ≠ []).getD (currentDirOrDot fs s)) target

def finalPath (physical : Bool) (absolute : Text) : Except Text Text :=
  if physical then fs.canonicalize absolute else .ok (normalizeLogicalPath absolute)

def cdDone (physical checkAfter printAfter : Bool) (path : Text) : Outcome :=
  if s.readonly "PWD" then s.fail 1 "PWD: readonly variable"
  else if s.readonly "OLDPWD" then s.fail 1 "OLDPWD: readonly variable"
  else
    let s := (s.assign "OLDPWD" ((s.vars "PWD").getD [])).setLogicalPwd path
    match if checkAfter && physical then fs.canonicalize path else .ok path with
    | .error e => { shell := s, status := 1, message := "error checking new directory: " ++ e }
    | .ok _ => { shell := s, status := 0, out := if printAfter then [path] else [] }

def cdTo (physical checkAfter printAfter : Bool) (target : Text) : Outcome :=
  match finalPath fs physical (absoluteTarget fs s physical target) with
  | .error e => { shell := s, status := 1, message := diagnosticSubject target ++ ": " ++ e }
  | .ok path =>
    match fs.enter path with
    | .error e => { shell := s, status := 1, message := diagnosticSubject target ++ ": " ++ e }
    | .ok _ => cdDone fs { s with process := path } physical checkAfter printAfter path

/-- `cd` behind its options. -/
def cd (physical checkAfter : Bool) (args : List Text) : Outcome :=
  if s.restricted then s.fail 1 "restricted"
  else
    match args with
    | _ :: _ :: _ => s.fail 1 "too many arguments"
    | [] =>
      match s.vars "HOME" with
      | none => s.fail 1 "HOME not set"
      | some home => go none false home
    | [arg] =>
      if arg = ['-'] then
        match s.vars "OLDPWD" with
        | none => s.fail 1 "OLDPWD not set"
        | some previous => go arg true previous
      else go arg false arg
where
  go (arg : Option Text) (printAfter : Bool) (target : Text) : Outcome :=
    let viaCdpath := searchCdpath fs s target
    let target := viaCdpath.getD target
    let replaced := replaceMissing fs s arg target
    cdTo fs s physical checkAfter (printAfter || viaCdpath.isSome || replaced.isSome) (replaced.getD target)
end

inductive StackIndex where
  | left (n : ℕ)
  | right (n : ℕ)

def resolveIndex (len : ℕ) : StackIndex → Option ℕ
  | .left n => if n < len then some n else none
  | .right n => if n < len then some (len - 1 - n) else none

def dirsIter (s : Shell) : List Text :=
  (match (s.vars "PWD").filter isAbsolute with
    | some pwd => [pwd]
    | none => (fs.currentDir s.process).toList) ++ s.dirsStack

def currentLogicalDir (s : Shell) : Text := ((s.vars "PWD").filter isAbsolute).getD (currentDirOrDot fs s)

def absolutize (s : Shell) (dir : Text) : Text := if isAbsolute dir then dir else push (currentDirOrDot fs s) dir

def assignPwd (s : Shell) (old new : Text) : Shell := (s.assign "OLDPWD" old).assign "PWD" new

def render (home path : Text) : Text :=
  if home ≠ [] ∧ home <+: path then
    let rest := path.drop home.length
    if rest = [] ∨ rest.head? = some '/' then '~' :: rest else path
  else path

def printDirs (s : Shell) : Outcome :=
  { shell := s, status := 0, out := [[' '].intercalate ((dirsIter fs s).map (render ((s.vars "HOME").getD [])))] }

def parseNumber (rest : Text) : Option ℕ :=
  if rest = [] ∨ !rest.all Char.isDigit then none
  else
    let n := Nat.ofDigitChars 10 rest 0
    if n < 2 ^ 64 then some n else none

/-- An argument with a sign, but for `-n`; the inner `none` is an invalid number. -/
def parseStackIndex : Text → Option (Option StackIndex)
  | '+' :: rest => some ((parseNumber rest).map .left)
  | '-' :: rest => if rest = ['n'] then none else some ((parseNumber rest).map .right)
  | _ => none

def installStack (s : Shell) (stack : List Text) (skipCd : Bool) : Outcome :=
  match stack with
  | [] => { shell := s, status := 1 }
  | newTop :: saved =>
    let oldTop := currentLogicalDir fs s
    let s := { s with dirsStack := saved }
    if skipCd then printDirs fs s
    else match fs.enter newTop with
    | .error e => { shell := s, status := 1, message := newTop ++ ": " ++ e }
    | .ok _ => printDirs fs (assignPwd { s with process := newTop } oldTop newTop)

def rotateStack (s : Shell) (arg : Text) (index : StackIndex) (skipCd : Bool) : Outcome :=
  match resolveIndex (dirsIter fs s).length index with
  | none => { shell := s, status := 1, message := arg ++ ": directory stack index out of range" }
  | some i => installStack fs s ((dirsIter fs s).rotate i) skipCd

def swapTop (s : Shell) (skipCd : Bool) : Outcome :=
  match dirsIter fs s with
  | a :: b :: rest => installStack fs s (b :: a :: rest) skipCd
  | _ => s.fail 1 "no other directory"

def pushDir (s : Shell) (dir : Text) (skipCd : Bool) : Outcome :=
  let cur := currentLogicalDir fs s
  let target := absolutize fs s dir
  if skipCd then
    let saved := if dirsIter fs s = [] then [cur] else dirsIter fs s
    printDirs fs { s with dirsStack := (saved.insertIdx 1 target).drop 1 }
  else match fs.enter target with
  | .error e => { shell := s, status := 1, message := dir ++ ": " ++ e }
  | .ok _ =>
    let s' := { s with process := target, dirsStack := cur :: (dirsIter fs s).drop 1 }
    printDirs fs (assignPwd s' cur target)

structure PushdArgs where
  skipCd : Bool := false
  target : Option Text := none
  rotate : Option (Text × StackIndex) := none

def parsePushd (parsed : PushdArgs) : List Text → Except Text PushdArgs
  | [] => .ok parsed
  | arg :: rest =>
    if arg = "--" then .ok parsed
    else if arg = "-n" then parsePushd { parsed with skipCd := true } rest
    else match parseStackIndex arg with
    | some (some index) => parsePushd { parsed with rotate := some (arg,index) } rest
    | some none => .error (arg ++ ": invalid number")
    | none => parsePushd { parsed with target := some arg } rest

def pushd (s : Shell) (args : List Text) : Outcome :=
  match parsePushd { } args with
  | .error message => { shell := s, status := 2, message }
  | .ok parsed =>
    match parsed.rotate, parsed.target with
    | some (arg,index), _ => rotateStack fs s arg index parsed.skipCd
    | none, some dir => pushDir fs s dir parsed.skipCd
    | none, none => swapTop fs s parsed.skipCd

structure PopdArgs where
  skipCd : Bool := false
  selected : Option (Text × StackIndex) := none

def parsePopd (parsed : PopdArgs) : List Text → Except Text PopdArgs
  | [] => .ok parsed
  | arg :: rest =>
    if arg = "--" then .ok parsed
    else if arg = "-n" then parsePopd { parsed with skipCd := true } rest
    else match parseStackIndex arg with
    | some (some index) => parsePopd { parsed with selected := some (arg,index) } rest
    | some none => .error (arg ++ ": invalid number")
    | none => .error (arg ++ ": invalid argument")

def removeIndex (s : Shell) (stack : List Text) (remove : ℕ) (skipCd : Bool) : Outcome :=
  match stack.eraseIdx remove with
  | [] => { shell := { s with dirsStack := [] }, status := 0 }
  | newTop :: saved =>
    let oldTop := stack.headD []
    let s := { s with dirsStack := saved }
    if remove = 0 ∧ !skipCd then
      match fs.enter newTop with
      | .error e => { shell := s, status := 1, message := newTop ++ ": " ++ e }
      | .ok _ => printDirs fs (assignPwd { s with process := newTop } oldTop newTop)
    else printDirs fs s

/-- The entry that `popd` removes; without an index that is the first, or with `-n` the second. -/
def popdIndex (len : ℕ) (skipCd : Bool) (index : StackIndex) : Option ℕ :=
  (match skipCd, index with
    | true, .left 0 => some 1
    | _, index => resolveIndex len index).filter fun i => i < len

def popd (s : Shell) (args : List Text) : Outcome :=
  match parsePopd { } args with
  | .error message => { shell := s, status := 2, message }
  | .ok parsed =>
    let stack := dirsIter fs s
    if stack.length < 2 then s.fail 1 "directory stack empty"
    else
      let (arg,index) := parsed.selected.getD ("+0",.left 0)
      match popdIndex stack.length parsed.skipCd index with
      | none => { shell := s, status := 1, message := arg ++ ": directory stack index out of range" }
      | some remove => removeIndex fs s stack remove parsed.skipCd
end Cherubsh.Builtins.Directories
