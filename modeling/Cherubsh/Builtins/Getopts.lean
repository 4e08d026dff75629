import Cherubsh.Common.History
import Cherubsh.Builtins.Printf

/-! # The `getopts` builtin

A hidden pair of variables for each function depth holds the OPTIND of the last call and the place
inside its argument. Texts are ASCII and variables plain: every assignment succeeds.
-/
namespace Cherubsh.Builtins.Getopts
open Common (parseU64)

abbrev Text := List Char
abbrev Vars := Text → Option Text

/-- `usize::to_string`. -/
def decimal (n : ℕ) : Text := Nat.toDigits 10 n

def assign (name value : Text) (v : Vars) : Vars := Function.update v name (some value)
def unset (name : Text) (v : Vars) : Vars := Function.update v name none

def optindVar : Text := "OPTIND"
def optargVar : Text := "OPTARG"
def opterrVar : Text := "OPTERR"
def nextCharVar : Text := "_CHERUBSH_GETOPTS_NEXT"
def lastOptindVar : Text := "_CHERUBSH_GETOPTS_OPTIND"

def stateVar (base : Text) (depth : ℕ) : Text := base ++ '_' :: decimal depth

structure Context where
  depth : ℕ
  positionals : List Text
  shellName : Text
  /-- `diagnostic_source_name` and `diagnostic_line`. -/
  location : Option (Text × ℕ)

structure Outcome where
  status : ℕ
  vars : Vars
  diagnostics : List Text

def setInner (depth optind nextChar : ℕ) (v : Vars) : Vars :=
  assign (stateVar nextCharVar depth) (decimal nextChar)
    (assign (stateVar lastOptindVar depth) (decimal optind) v)

def resetInner (depth optind : ℕ) (v : Vars) : Vars :=
  assign (stateVar nextCharVar depth) ['1'] (assign (stateVar lastOptindVar depth) (decimal optind) v)

def optionSpecFrom (option : Char) : Text → Option Bool
  | [] => none
  | ':' :: rest => optionSpecFrom option rest
  | ch :: ':' :: rest => if ch = option then some true else optionSpecFrom option rest
  | ch :: rest => if ch = option then some false else optionSpecFrom option rest

def body : Text → Text
  | ':' :: rest => rest
  | optstring => optstring

def optionSpec (optstring : Text) (option : Char) : Option Bool := optionSpecFrom option (body optstring)
def optionPresent (optstring : Text) (option : Char) : Bool := (optionSpec optstring option).isSome
def optionRequiresArg (optstring : Text) (option : Char) : Bool := (optionSpec optstring option).getD false

def pastArgument (depth optind : ℕ) (v : Vars) : Vars :=
  resetInner depth optind (assign optindVar (decimal optind) v)

def pastLetter (depth optind nextChar len : ℕ) (v : Vars) : Vars :=
  if nextChar + 1 < len then setInner depth optind (nextChar + 1) (assign optindVar (decimal optind) v)
  else pastArgument depth (optind + 1) v

def ended (name : Text) (v : Vars) : Vars := unset optargVar (assign name ['?'] v)

def complaint (ctx : Context) (message : String) (option : Char) (v : Vars) : List Text :=
  if v opterrVar = some ['0'] then []
  else [ctx.shellName ++ ": " ++ message.toList ++ " -- " ++ [option]]

/-- The part of `walk` behind the search for the letter. A place behind the end of the argument
reads a question mark. -/
def walkLetter (ctx : Context) (optstring name : Text) (source : List Text) (optind nextChar : ℕ)
    (arg : Text) (v : Vars) : Outcome :=
  let curChar := (arg[nextChar]?).getD '?'
  let silent := optstring.head? = some ':'
  if optionPresent optstring curChar then
    if optionRequiresArg optstring curChar then
      let rest := arg.drop (nextChar + 1)
      if rest ≠ [] then
        ⟨0,pastArgument ctx.depth (optind + 1) (assign name [curChar] (assign optargVar rest v)),[]⟩
      else match source[optind]? with
        | some val => ⟨0,pastArgument ctx.depth (optind + 2) (assign name [curChar] (assign optargVar val v)),[]⟩
        | none =>
          if silent then
            ⟨0,pastArgument ctx.depth (optind + 1) (assign name [':'] (assign optargVar [curChar] v)),[]⟩
          else
            ⟨0,pastArgument ctx.depth (optind + 1) (unset optargVar (assign name ['?'] v)),
              complaint ctx "option requires an argument" curChar v⟩
    else
      ⟨0,pastLetter ctx.depth optind nextChar arg.length (assign name [curChar] (unset optargVar v)),[]⟩
  else if silent then
    ⟨0,pastLetter ctx.depth optind nextChar arg.length (assign name ['?'] (assign optargVar [curChar] v)),[]⟩
  else
    ⟨0,pastLetter ctx.depth optind nextChar arg.length (unset optargVar (assign name ['?'] v)),
      complaint ctx "illegal option" curChar v⟩

def walk (ctx : Context) (optstring name : Text) (source : List Text) (optind nextChar : ℕ) (v : Vars) : Outcome :=
  let optind := if optind = 0 then 1 else optind
  let nextChar := if nextChar = 0 then 1 else nextChar
  match source[optind - 1]? with
  | none => ⟨1,pastArgument ctx.depth (source.length + 1) (ended name v),[]⟩
  | some arg =>
    if arg = ['-','-'] then ⟨1,pastArgument ctx.depth (optind + 1) (ended name v),[]⟩
    else if arg.head? ≠ some '-' ∨ arg.length < 2 ∨ arg = ['-'] then
      ⟨1,resetInner ctx.depth optind (ended name v),[]⟩
    else if arg.length ≤ nextChar then
      -- a place left over from another argument list: the next argument is read as letters unseen
      match source[optind]? with
      | none => ⟨1,pastArgument ctx.depth (source.length + 1) (ended name v),[]⟩
      | some arg => walkLetter ctx optstring name source (optind + 1) 1 arg v
    else walkLetter ctx optstring name source optind nextChar arg v

def usage : Text := "getopts: usage: getopts optstring name [arg ...]"

def reportGetoptsError (ctx : Context) (message : Text) : Text :=
  match ctx.location with
  | some (source,line) => source ++ ": line " ++ decimal line ++ ": getopts: " ++ message
  | none => "getopts: " ++ message

def readOptind (v : Vars) : ℕ := ((v optindVar).bind parseU64).getD 1

def readNextChar (depth : ℕ) (v : Vars) : ℕ :=
  if (v (stateVar lastOptindVar depth)).bind parseU64 = some (readOptind v) then
    ((v (stateVar nextCharVar depth)).bind parseU64).getD 1
  else 1

def run (ctx : Context) (v : Vars) : List Text → Outcome
  | optstring :: name :: given =>
    match optstring with
    | '-' :: option =>
      ⟨2,v,[reportGetoptsError ctx ('-' :: option.head?.getD '-' :: ": invalid option"),usage]⟩
    | optstring =>
      if ¬Printf.isValidName name then
        ⟨1,assign optindVar ['2'] v,
          [reportGetoptsError ctx ("\x60" ++ name ++ "': not a valid identifier")]⟩
      else
        walk ctx optstring name (if given ≠ [] then given else ctx.positionals) (readOptind v)
          (readNextChar ctx.depth v) v
  | _ => ⟨2,v,[usage]⟩
end Cherubsh.Builtins.Getopts
