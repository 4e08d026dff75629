import Cherubsh.State.IndexedArray
import Cherubsh.Common.History
import Cherubsh.Expander.Arith.Lexer

/-! # The variables of the shell state

A binding is what five maps hold for one name. Some names have a meaning of their own; what they
change besides is the special state.
-/
namespace Cherubsh.State
open Expander.Arith (trim parseI64)
open Common (parseU64)

abbrev VarAttrs := UInt32

namespace VarAttrs
def EXPORT : VarAttrs := 1
def READONLY : VarAttrs := 2
def INTEGER : VarAttrs := 4
def ARRAY : VarAttrs := 8
def ASSOC : VarAttrs := 16
def UPPERCASE : VarAttrs := 32
def LOWERCASE : VarAttrs := 64
def CAPCASE : VarAttrs := 128
def NAMEREF : VarAttrs := 512

def has (attrs attr : VarAttrs) : Bool := attrs &&& attr = attr
def meets (attrs attr : VarAttrs) : Bool := attrs &&& attr ≠ 0
def without (attrs attr : VarAttrs) : VarAttrs := attrs &&& ~~~attr
def cases : VarAttrs := UPPERCASE ||| LOWERCASE ||| CAPCASE
end VarAttrs
open VarAttrs

structure VariableEntry where
  value : String := ""
  hasValue : Bool := false
  exported : Bool := false
  readonly : Bool := false
  attrs : VarAttrs := 0
  deriving DecidableEq

abbrev AssocMap := String → Option String

structure Binding where
  entry : Option VariableEntry
  indexed : Option IndexedArray
  assoc : Option AssocMap
  printOrder : Option (List String)
  nameref : Option String

structure SavedVar where
  entry : Option VariableEntry
  indexed : Option IndexedArray
  assoc : Option AssocMap
  nameref : Option String

def Binding.unset : Binding := ⟨none,none,none,none,none⟩

def Binding.attrs (b : Binding) : VarAttrs := (b.entry.map VariableEntry.attrs).getD 0
def Binding.exported (b : Binding) : Bool := (b.entry.map VariableEntry.exported).getD false
def Binding.isReadonly (b : Binding) : Bool := b.attrs.has READONLY || (b.entry.map VariableEntry.readonly).getD false

def Binding.snapshot (b : Binding) : SavedVar := ⟨b.entry,b.indexed,b.assoc,b.nameref⟩

/-- `restore_var_snapshot`: the listing order is always removed. -/
def SavedVar.binding (saved : SavedVar) : Binding := ⟨saved.entry,saved.indexed,saved.assoc,none,saved.nameref⟩

inductive AssignError where
  | readOnly (name : String)
  | invalidInteger (value : String)
  | invalidName (name : String)
  | badArraySubscript (target : String)
  | circularNameReference (name : String)
  deriving DecidableEq

inductive SetOption where
  | allexport | errexit | nounset | noglob | hashall | keyword | pipefail | lastpipe | noclobber | xtrace | braceexpand
  | errtrace | functrace | physical | notify | monitor | jobControl | noexec | justOneCommand | privilegedMode
  | verboseFlag | restricted | posixlyCorrect
  deriving DecidableEq

structure Options where
  flags : SetOption → Bool
  shopt : String → Option Bool

structure SpecialState where
  options : Options
  randomSeed : ℕ
  lastRandomValue : ℤ
  srandomSeed : ℕ
  dollarVars : List String
  bashArgv0Dynamic : Bool
  secondsDynamic : Bool
  epochsecondsDynamic : Bool
  epochrealtimeDynamic : Bool
  bashMonosecondsDynamic : Bool
  groupsDynamic : Bool
  secondsOffset : ℤ
  secondsStart : ℕ
  histsize : ℕ
  historyTable : Common.HistoryTable
  histfilesize : ℕ
  histcontrolFlags : Common.HistControl
  histfile : Option String
  histfileExplicit : Bool
  dirsStack : List String
  aliases : String → Option String
  commandHash : String → Option String
  commandHashHits : String → Option ℕ

structure Host where
  toUppercase : String → String
  toLowercase : String → String
  isAlphabetic : Char → Bool
  charToUppercase : Char → List Char
  charToLowercase : Char → List Char
  now : ℕ
  clock : String → String
  descriptorOpen : ℤ → Bool
  callArray : String → Option String
  currentCommand : Option String
  parameter : SpecialState → String → String
  nextRandom : ℕ → ℤ → ℕ × ℤ
  nextSrandom : ℕ → ℕ × ℕ

/-- The bindings that the locals of a running function shadow and the options it has made local. -/
structure Scope where
  saved : String → Option SavedVar
  options : Option Options

def Scope.has (scope : Scope) (name : String) : Bool := (scope.saved name).isSome

/-- The store. The scopes of the running functions are listed with the outermost first. -/
structure Store where
  vars : String → Binding
  processEnv : String → Option String
  scopes : List Scope
  special : SpecialState

section
def parseI32 (s : List Char) : Option ℤ := (parseI64 s).filter fun n => -2 ^ 31 ≤ n ∧ n < 2 ^ 31
def parseU32 (s : List Char) : Option ℕ := (parseU64 s).filter fun n => n < 2 ^ 32

def stateValidName (name : String) : Bool :=
  match name.toList with
  | c :: rest => (c = '_' || c.isAlpha) && rest.all fun c => c = '_' || c.isAlphanum
  | [] => false

def stateValidAliasName (name : String) : Bool :=
  name.toList ≠ [] &&
    ((name.toList.all fun c => c.isAlphanum || c ∈ ['_','.','-','!','%',':','@']) || stateValidName name)

/-- `name[subscript]`: the first opening bracket and a closing one at the end. -/
def stateArrayReference (value : String) : Option (String × String) :=
  let name := value.toList.takeWhile (· ≠ '[')
  match value.toList.dropWhile (· ≠ '[') with
  | [] => none
  | _ :: rest =>
    let subscript := rest.dropLast
    if rest.getLast? ≠ some ']' then none
    else if !stateValidName (String.ofList name) then none
    else if subscript.head? = some '[' ∨ subscript.head? = some ']' then none
    else some (String.ofList name,String.ofList subscript)

def stateNamerefTargetIsValid (target : String) : Bool := stateValidName target || (stateArrayReference target).isSome

def compatShoptOptions : List String := ["compat31","compat32","compat40","compat41","compat42","compat43","compat44"]

def compatibilityLevel (value : String) : Option ℕ :=
  let trimmed := trim value.toList
  match trimmed.dropWhile (· ≠ '.') with
  | [] => parseU32 trimmed
  | _ :: minor => do
    let major ← parseU32 (trimmed.takeWhile (· ≠ '.'))
    let minor ← parseU32 minor
    return (major * 10 + minor) % 2 ^ 32

def compatibilityOption (level : ℕ) : Option String :=
  compatShoptOptions.find? fun option => parseU32 (option.toList.drop "compat".length) = some level

def histControlToken (out : Common.HistControl) (token : List Char) : Common.HistControl :=
  if trim token = "ignorespace" then { out with ignorespace := true }
  else if trim token = "ignoredups" then { out with ignoredups := true }
  else if trim token = "ignoreboth" then { out with ignorespace := true, ignoredups := true }
  else if trim token = "erasedups" then { out with erasedups := true }
  else out

def parseHistControl (value : String) : Common.HistControl :=
  (value.toList.splitOn ':').foldl histControlToken ⟨false,false,false⟩

variable (host : Host)

def xtraceFdValueIsValid (value : String) : Bool :=
  match parseI32 value.toList with
  | none => false
  | some fd => 0 ≤ fd && host.descriptorOpen fd

def applyCaseAttrs (value : String) (attrs : VarAttrs) : String :=
  let value := if attrs.has UPPERCASE then host.toUppercase value else value
  let value := if attrs.has LOWERCASE then host.toLowercase value else value
  if attrs.has CAPCASE then
    match value.toList with
    | first :: rest =>
      String.ofList ((if host.isAlphabetic first then host.charToUppercase first else [first]) ++ rest.flatMap host.charToLowercase)
    | [] => ""
  else value
end

/-! ### What an operation does to the binding of its name -/

namespace Binding
variable (host : Host)

def setArray (values : List String) (b : Binding) : Binding :=
  let values := values.map fun value => applyCaseAttrs host value b.attrs
  { b with
    entry := some ⟨values.head?.getD "",!values.isEmpty,false,false,ARRAY⟩
    indexed := some (IndexedArray.fromValues values) }

/-- The elements an indexed write starts from: a scalar becomes the first of them. -/
def seededIndexed (b : Binding) : IndexedArray :=
  let array := b.indexed.getD IndexedArray.default
  match b.entry with
  | some entry =>
    if b.indexed.isNone && entry.hasValue && !entry.attrs.meets (ARRAY ||| ASSOC) && (array.get 0).isNone then
      array.insert 0 entry.value
    else array
  | none => array

def setArrayIndexed (index : ℤ) (value : String) (b : Binding) : Binding :=
  let slow :=
    let array := b.seededIndexed.insert index (applyCaseAttrs host value b.attrs)
    { b with
      indexed := some array
      entry :=
        if index = 0 ∨ !b.attrs.has ARRAY then
          some ⟨(array.get 0).getD "",(array.get 0).isSome,b.exported,false,b.attrs ||| ARRAY⟩
        else b.entry }
  match b.entry,b.indexed with
  | some entry,some array =>
    if 0 < index ∧ entry.attrs.has ARRAY ∧ !entry.attrs.meets cases then { b with indexed := some (array.insert index value) }
    else slow
  | _,_ => slow

def setArrayAssoc (key value : String) (b : Binding) : Binding :=
  let slow :=
    let array := Function.update (b.assoc.getD fun _ => none) key (some (applyCaseAttrs host value b.attrs))
    { b with
      assoc := some array
      printOrder := b.printOrder.map fun order => if key ∈ order then order else order ++ [key]
      entry :=
        if key = "0" ∨ !b.attrs.has ASSOC then
          some ⟨(array "0").getD "",(array "0").isSome,b.exported,false,b.attrs ||| ASSOC⟩
        else b.entry }
  match b.entry,b.assoc with
  | some entry,some array =>
    if key ≠ "0" ∧ b.printOrder.isNone ∧ entry.attrs.has ASSOC ∧ !entry.attrs.meets cases then
      { b with assoc := some (Function.update array key (some value)) }
    else slow
  | _,_ => slow

def unsetArrayElem (key : String) (b : Binding) : Binding :=
  match b.assoc with
  | some array =>
    let array := Function.update array key none
    { b with
      assoc := some array
      printOrder := b.printOrder.map fun order => order.filter (· ≠ key)
      entry :=
        if key = "0" then
          b.entry.map fun entry => { entry with value := (array "0").getD "", hasValue := (array "0").isSome, attrs := entry.attrs ||| ASSOC }
        else b.entry }
  | none =>
    match b.indexed,parseI64 key.toList with
    | some array,some index =>
      let array := (array.remove index).2
      { b with
        indexed := some array
        entry := b.entry.map fun entry =>
          { entry with value := (array.get 0).getD "", hasValue := (array.get 0).isSome, attrs := entry.attrs ||| ARRAY } }
    | _,_ => b

/-- The array attribute turns a scalar into the first element and takes the keyed ones away. -/
def becomeIndexed (old : Binding) (b : Binding) : Binding :=
  let entry := b.entry.getD {}
  let seed := old.entry.isSome && old.indexed.isNone && !old.attrs.has ARRAY && entry.hasValue
  { b with
    indexed := if seed then some (IndexedArray.default.insert 0 entry.value) else b.indexed
    assoc := none
    printOrder := none
    entry := some { entry with attrs := entry.attrs.without ASSOC } }

def becomeAssoc (old : Binding) (b : Binding) : Binding :=
  let entry := b.entry.getD {}
  let seed := old.entry.isSome && old.assoc.isNone && !old.attrs.has ASSOC && entry.hasValue
  { b with
    indexed := none
    assoc :=
      if seed then
        let array := b.assoc.getD fun _ => none
        some (Function.update array "0" (some ((array "0").getD entry.value)))
      else b.assoc
    printOrder := none
    entry := some { entry with attrs := entry.attrs.without ARRAY } }

def setReference (on : Bool) (b : Binding) : Binding :=
  if on then
    match b.nameref,b.entry with
    | none,some entry => if entry.hasValue then { b with nameref := some entry.value } else b
    | _,_ => b
  else { b with nameref := none }

def setAttr (attr : VarAttrs) (on : Bool) (old : Binding) : Binding :=
  let entry := old.entry.getD {}
  if attr = 0 then { old with entry := some entry }
  else
    let b := { old with entry := some { entry with attrs := if on then entry.attrs ||| attr else entry.attrs.without attr } }
    let b := if attr.has ARRAY && on then becomeIndexed old b else b
    let b := if attr.has ASSOC && on then becomeAssoc old b else b
    let b := if attr.has EXPORT then { b with entry := b.entry.map fun entry => { entry with exported := on } } else b
    let b := if attr.has READONLY then { b with entry := b.entry.map fun entry => { entry with readonly := on } } else b
    if attr.has NAMEREF then b.setReference on else b

def assigned (value : String) (b : Binding) : String :=
  let value :=
    if b.attrs.has INTEGER then ((parseI64 (trim value.toList)).map toString).getD "0" else value
  applyCaseAttrs host value b.attrs

def assignScalar (value : String) (b : Binding) : Binding :=
  { b with entry := some ⟨b.assigned host value,true,b.exported,(b.entry.map VariableEntry.readonly).getD false,b.attrs⟩ }

def assignTarget (value : String) (b : Binding) : Binding :=
  { b with
    nameref := some value
    entry := some ⟨value,true,b.exported,false,b.attrs ||| NAMEREF⟩ }

def declared ( exported : Bool) : Binding :=
  { unset with entry := some { exported := exported, attrs := if exported then EXPORT else 0 } }
end Binding
end Cherubsh.State
