import Cherubsh.State.Variables

/-! # The operations on variables and scopes

An assignment follows name references. The `global` forms put the binding that the outermost scope
keeps for the name in the place of the visible one, run the plain operation and put it back.
-/
namespace Cherubsh.State
open VarAttrs Binding VariableEntry
open Expander.Arith (trim parseI64)
open Common (parseU64)
open Function (update)

abbrev Outcome := Except AssignError Unit

namespace Store

def modify (name : String) (f : Binding → Binding) (s : Store) : Store :=
  { s with vars := update s.vars name (f (s.vars name)) }

def setEnv (name : String) (value : Option String) (s : Store) : Store :=
  { s with processEnv := update s.processEnv name value }

def globalScopeIndex (s : Store) (name : String) : Option ℕ := s.scopes.findIdx? (Scope.has · name)

def globalSavedSnapshot (s : Store) (name : String) : Option SavedVar :=
  (s.globalScopeIndex name).bind fun idx => s.scopes[idx]?.bind fun scope => scope.saved name

def localSelfNamerefTarget (s : Store) (name : String) : Bool :=
  (s.vars name).nameref = some name && (s.globalScopeIndex name).isSome

def currentScopeHas (s : Store) (name : String) : Bool :=
  (s.scopes.getLast?.map (Scope.has · name)).getD false
end Store

def SpecialState.shoptOption (special : SpecialState) (name : String) : Bool := (special.options.shopt name).getD false

def SpecialState.restricted (special : SpecialState) : Bool := special.options.flags .restricted

def SpecialState.setShopt (special : SpecialState) (name : String) (value : Bool) : SpecialState :=
  { special with options := { special.options with shopt := update special.options.shopt name (some value) } }

def savedScalarValue (saved : SavedVar) : Option String :=
  match saved.indexed with
  | some indexed => indexed.get 0
  | none => saved.entry.bind fun entry => if entry.hasValue then some (saved.nameref.getD entry.value) else none

section
variable (host : Host)

def exportedValue (s : Store) (name : String) : Option String :=
  match (s.vars name).entry with
  | none => none
  | some entry =>
    if name ∈ ["BASHOPTS","SHELLOPTS"] ∧ entry.exported then some (host.parameter s.special name)
    else if entry.exported && entry.hasValue then some entry.value
    else (s.globalSavedSnapshot name).bind fun saved => saved.entry.bind fun entry =>
      if entry.exported && entry.hasValue then some entry.value else none

def syncExportEnv (name : String) (s : Store) : Store := s.setEnv name (exportedValue host s name)

/-- Running an operation on the binding that the outermost scope with the name keeps. -/
def withGlobalVar {α : Type} (name : String) (f : Store → Option (α × Store)) (s : Store) : Option (α × Store) :=
  match s.globalScopeIndex name with
  | none => f s
  | some idx =>
    let visible := (s.vars name).snapshot
    let global := (s.scopes[idx]?.bind fun scope => scope.saved name).getD (s.vars name).snapshot
    (f (s.modify name fun _ => global.binding)).map fun (result,s) =>
      let updated := (s.vars name).snapshot
      let s := s.modify name fun _ => visible.binding
      let s := { s with scopes := s.scopes.modify idx fun scope => { scope with saved := update scope.saved name (some updated) } }
      (result,syncExportEnv host name s)

/-! ### Reading -/

def callNames : List String := ["FUNCNAME","BASH_ARGC","BASH_ARGV","BASH_LINENO","BASH_SOURCE"]

def parameterNames : List String :=
  ["?","#","$","!","-","SHELLOPTS","BASHOPTS","BASHPID","BASH_SUBSHELL","BASH_TRAPSIG","LINENO","HISTCMD"]

def saturateI64 (n : ℤ) : ℤ := max (-2 ^ 63) (min n (2 ^ 63 - 1))

def readComputed (special : SpecialState) (name : String) : Option (Option String × SpecialState) :=
  match parseU64 name.toList with
  | some index => some (special.dollarVars[index]?,special)
  | none =>
    if name ∈ callNames then some (host.callArray name,special)
    else if name ∈ parameterNames then some (some (host.parameter special name),special)
    else if name = "BASH_ARGV0" ∧ special.bashArgv0Dynamic then some (special.dollarVars.head?,special)
    else if name = "BASH_COMMAND" ∧ host.currentCommand.isSome then
      some (host.currentCommand.map fun command => String.ofList (command.toList.rdropWhile (· = '\n')),special)
    else if name = "SECONDS" ∧ special.secondsDynamic then
      some (some (toString (saturateI64 (special.secondsOffset + ((host.now - special.secondsStart : ℕ) : ℤ)))),special)
    else if name = "EPOCHSECONDS" ∧ special.epochsecondsDynamic then some (some (host.clock name),special)
    else if name = "EPOCHREALTIME" ∧ special.epochrealtimeDynamic then some (some (host.clock name),special)
    else if name = "BASH_MONOSECONDS" ∧ special.bashMonosecondsDynamic then some (some (host.clock name),special)
    else if name = "RANDOM" then
      let (seed,value) := host.nextRandom special.randomSeed special.lastRandomValue
      some (some (toString value),{ special with randomSeed := seed, lastRandomValue := value })
    else if name = "SRANDOM" then
      let (seed,value) := host.nextSrandom special.srandomSeed
      some (some (toString value),{ special with srandomSeed := seed })
    else none

def readBinding (s : Store) (name : String) : Option String :=
  match (s.vars name).entry with
  | some entry =>
    if entry.attrs.has NAMEREF && s.localSelfNamerefTarget name then (s.globalSavedSnapshot name).bind savedScalarValue
    else if entry.attrs.has NAMEREF && (s.vars name).nameref = some name then none
    else if entry.hasValue then some entry.value
    else none
  | none => s.processEnv name

def get (s : Store) (name : String) : Option String × Store :=
  match readComputed host s.special name with
  | some (value,special) => (value,{ s with special := special })
  | none => (readBinding s name,s)

/-! ### Arrays and attributes -/

def specialScalarNames (special : SpecialState) : List String :=
  ["BASH_COMMAND","BASH_SUBSHELL","BASHOPTS","HISTCMD","LINENO","RANDOM","SHELLOPTS","SRANDOM"] ++
    (if special.bashArgv0Dynamic then ["BASH_ARGV0"] else []) ++
    (if special.secondsDynamic then ["SECONDS"] else []) ++
    (if special.epochsecondsDynamic then ["EPOCHSECONDS"] else []) ++
    (if special.epochrealtimeDynamic then ["EPOCHREALTIME"] else []) ++
    (if special.bashMonosecondsDynamic then ["BASH_MONOSECONDS"] else [])

def isSpecialScalarName (name : String) : Bool :=
  name ∈ ["BASH_ARGV0","BASH_COMMAND","BASH_MONOSECONDS","BASH_SUBSHELL","BASH_TRAPSIG","EPOCHREALTIME","EPOCHSECONDS",
    "HISTCMD","LINENO","RANDOM","SECONDS","BASHOPTS","SHELLOPTS","SRANDOM"]

def attrsOf (s : Store) (name : String) : VarAttrs :=
  if name = "DIRSTACK" ∨ name ∈ callNames then ARRAY
  else if name ∈ ["BASH_ALIASES","BASH_CMDS"] then ASSOC
  else if name ∈ ["HISTCMD","RANDOM","SRANDOM"] then INTEGER
  else if name ∈ ["BASHOPTS","SHELLOPTS"] then READONLY
  else if isSpecialScalarName name then 0
  else (s.vars name).attrs

def isReadonly (s : Store) (name : String) : Bool :=
  name ∈ ["BASHOPTS","SHELLOPTS"] || (s.special.restricted && name ∈ ["PATH","SHELL"]) || (s.vars name).isReadonly

def setArray (name : String) (values : List String) (s : Store) : Store :=
  if name = "GROUPS" ∧ s.special.groupsDynamic then s
  else if name = "DIRSTACK" then { s with special := { s.special with dirsStack := values.drop 1 } }
  else s.modify name (Binding.setArray host values)

def setDirstack (index : ℤ) (value : String) (stack : List String) : List String :=
  if index ≤ 0 then stack
  else
    let idx := (index - 1).toNat
    (stack ++ List.replicate (idx + 1 - stack.length) "").set idx value

def setArrayIndexed (name : String) (index : ℤ) (value : String) (s : Store) : Store :=
  if name = "GROUPS" ∧ s.special.groupsDynamic then s
  else if name = "DIRSTACK" then
    { s with special := { s.special with dirsStack := setDirstack index value s.special.dirsStack } }
  else s.modify name (Binding.setArrayIndexed host index value)

def setArrayAssoc (name key value : String) (s : Store) : Store :=
  if name = "BASH_ALIASES" then
    if stateValidAliasName key then
      { s with special := { s.special with aliases := update s.special.aliases key (some value) } }
    else s
  else if name = "BASH_CMDS" then
    { s with special := { s.special with
      commandHash := update s.special.commandHash key (some value)
      commandHashHits := update s.special.commandHashHits key (some 0) } }
  else s.modify name (Binding.setArrayAssoc host key value)

def unsetDirstack (key : String) (stack : List String) : List String :=
  match parseU64 key.toList with
  | some idx => if 0 < idx ∧ idx - 1 < stack.length then stack.eraseIdx (idx - 1) else stack
  | none => stack

def unsetArrayElem (name key : String) (s : Store) : Store :=
  if name = "DIRSTACK" then
    { s with special := { s.special with dirsStack := unsetDirstack key s.special.dirsStack } }
  else if name = "BASH_ALIASES" then
    { s with special := { s.special with aliases := update s.special.aliases key none } }
  else if name = "BASH_CMDS" then
    { s with special := { s.special with
      commandHash := update s.special.commandHash key none
      commandHashHits := update s.special.commandHashHits key none } }
  else s.modify name (Binding.unsetArrayElem key)

def setAttr (name : String) (attr : VarAttrs) (on : Bool) (s : Store) : Store :=
  let s := s.modify name (Binding.setAttr attr on)
  if attr ≠ 0 ∧ attr.has EXPORT then syncExportEnv host name s else s

def isAssoc (s : Store) (name : String) : Bool :=
  let b := s.vars name
  if b.nameref.isSome then false
  else if name ∈ ["BASH_ALIASES","BASH_CMDS"] then true
  else if name = "DIRSTACK" ∨ name ∈ callNames then false
  else if name ∈ specialScalarNames s.special then false
  else
    let attrs := attrsOf s name
    if attrs.has ASSOC then true
    else if attrs.has ARRAY then false
    else b.assoc.isSome

/-! ### Assignment -/

/-- The names whose assignment has an effect of its own, and the ones that refuse it. -/
def assignSpecial (name value : String) (s : Store) : Option (Outcome × Store) :=
  let special := s.special
  if name = "RANDOM" then
    match parseI64 (trim value.toList) with
    | some seed =>
      let s := s.modify name fun b => { b with entry := some ⟨toString seed,true,false,false,INTEGER⟩ }
      some (.ok (),{ s with special := { special with randomSeed := (seed % 2 ^ 32).toNat, lastRandomValue := 0 } })
    | none => some (.ok (),s)
  else if name = "BASH_ARGV0" ∧ special.bashArgv0Dynamic then
    some (.ok (),{ s with special := { special with dollarVars := value :: special.dollarVars.drop 1 } })
  else if name = "SECONDS" ∧ special.secondsDynamic then
    some (.ok (),{ s with special := { special with
      secondsOffset := (parseI64 (trim value.toList)).getD 0
      secondsStart := host.now } })
  else if (name = "EPOCHSECONDS" ∧ special.epochsecondsDynamic) ∨ (name = "EPOCHREALTIME" ∧ special.epochrealtimeDynamic) ∨
      (name = "BASH_MONOSECONDS" ∧ special.bashMonosecondsDynamic) ∨ name = "FUNCNAME" ∨ (name = "GROUPS" ∧ special.groupsDynamic) then
    some (.ok (),s)
  else if name ∈ ["BASHOPTS","SHELLOPTS"] then some (.error (.readOnly name),s)
  else if name = "BASH_XTRACEFD" ∧ value ≠ "" ∧ !xtraceFdValueIsValid host value then
    some (.ok (),(s.modify name fun b => { b with entry := none }).setEnv name none)
  else if special.restricted ∧ name ∈ ["PATH","SHELL"] then some (.error (.readOnly name),s)
  else none

def applyHistorySpecialVar (name value : String) (special : SpecialState) : SpecialState :=
  if name = "HISTSIZE" then
    match parseU64 (trim value.toList) with
    | some sz => if 0 < sz then { special with histsize := sz, historyTable := special.historyTable.setMax sz } else special
    | none => special
  else if name = "HISTFILESIZE" then
    match parseU64 (trim value.toList) with
    | some sz => { special with histfilesize := sz }
    | none => special
  else if name = "HISTCONTROL" then { special with histcontrolFlags := parseHistControl value }
  else if name = "HISTFILE" then
    { special with histfileExplicit := true, histfile := if value = "" then none else some value }
  else special

def applyCompat (value : String) (special : SpecialState) : SpecialState :=
  let special := compatShoptOptions.foldl (fun special option => special.setShopt option false) special
  match (compatibilityLevel value).bind compatibilityOption with
  | some option => special.setShopt option true
  | none => special

def assignEffects (name value : String) (special : SpecialState) : SpecialState :=
  let special := if name = "BASH_COMPAT" then applyCompat value special else special
  let special := applyHistorySpecialVar name value special
  if name = "IGNOREEOF" then special.setShopt "ignoreeof" true else special

def assignOwn (name value : String) (s : Store) : Store :=
  let b := s.vars name
  if b.attrs.has ASSOC then setArrayAssoc host name "0" value s
  else if b.attrs.has ARRAY then setArrayIndexed host name 0 value s
  else
    let stored := b.assigned host value
    let s := { s.modify name (Binding.assignScalar host value) with special := assignEffects name stored s.special }
    if b.exported then s.setEnv name (some stored) else s

def namerefMaxDepth : ℕ := 8

def resolveFrom (s : Store) : ℕ → List String → String → Option String
  | 0, _, _ => none
  | rounds + 1, seen, cur =>
    match (s.vars cur).nameref with
    | some target =>
      if target = cur then some cur
      else if target ∈ seen then none
      else if (s.vars target).nameref.isNone then some target
      else resolveFrom s rounds (target :: seen) target
    | none => some cur

def resolveNameref (s : Store) (name : String) : Option String := resolveFrom s namerefMaxDepth [name] name

/-- Writing the target of a reference: an element of an array, or a name that is assigned in
turn by `again`. -/
def assignNamerefTarget (again : String → String → Store → Option (Outcome × Store))
    (source target value : String) (s : Store) : Option (Outcome × Store) :=
  match stateArrayReference target with
  | some (name,subscript) =>
    if isReadonly s name then some (.error (.readOnly name),s)
    else if source = name ∧ (s.vars source).nameref = some target then some (.error (.invalidName target),s)
    else
      let s :=
        if (attrsOf s name).has NAMEREF then setArray host name [] (setAttr host name NAMEREF false s)
        else s
      if isAssoc s name then some (.ok (),setArrayAssoc host name subscript value s)
      else
        let trimmed := trim subscript.toList
        if trimmed = [] ∨ trimmed = ['*'] ∨ trimmed = ['@'] then some (.error (.badArraySubscript target),s)
        else
          match parseI64 trimmed with
          | some index => some (.ok (),setArrayIndexed host name index value s)
          | none => some (.error (.badArraySubscript target),s)
  | none =>
    if !stateValidName target then some (.error (.invalidName target),s)
    else again target value s

def assign : ℕ → String → String → Store → Option (Outcome × Store)
  | 0, _, _, _ => none
  | calls + 1, name, value, s =>
    match assignSpecial host name value s with
    | some result => some result
    | none =>
      let b := s.vars name
      if b.isReadonly then some (.error (.readOnly name),s)
      else if b.attrs.has NAMEREF then
        if b.nameref.isSome then
          if s.localSelfNamerefTarget name then
            withGlobalVar host name (assignNamerefTarget host (assign calls) name name value) s
          else
            match resolveNameref s name with
            | none => some (.error (.circularNameReference name),s)
            | some target =>
              if target ≠ name then assignNamerefTarget host (assign calls) name target value s
              else some (.ok (),assignOwn host name value s)
        else if !stateNamerefTargetIsValid value then some (.error (.invalidName value),s)
        else some (.ok (),s.modify name (assignTarget value))
      else some (.ok (),assignOwn host name value s)

/-! ### Export and unset -/

def «export» (name : String) (s : Store) : Store :=
  let (value,s) := get host s name
  let s := s.modify name fun b =>
    { b with entry := some ⟨value.getD "",value.isSome,true,(b.entry.map readonly).getD false,b.attrs ||| EXPORT⟩ }
  s.setEnv name value

def unsetEffects (name : String) (special : SpecialState) : SpecialState :=
  if name = "BASH_ARGV0" then { special with bashArgv0Dynamic := false }
  else if name = "SECONDS" then { special with secondsDynamic := false }
  else if name = "EPOCHSECONDS" then { special with epochsecondsDynamic := false }
  else if name = "EPOCHREALTIME" then { special with epochrealtimeDynamic := false }
  else if name = "BASH_MONOSECONDS" then { special with bashMonosecondsDynamic := false }
  else if name = "GROUPS" then { special with groupsDynamic := false }
  else if name = "HISTFILE" then { special with histfileExplicit := true, histfile := none }
  else if name = "IGNOREEOF" then special.setShopt "ignoreeof" false
  else special

def neverUnset : List String := ["FUNCNAME","BASHOPTS","SHELLOPTS"]

def removeSaved (idx : ℕ) (name : String) (scopes : List Scope) : List Scope :=
  scopes.modify idx fun scope => { scope with saved := update scope.saved name none }

def innermostIndex (scopes : List Scope) (name : String) : Option ℕ :=
  (scopes.reverse.findIdx? (Scope.has · name)).map fun i => scopes.length - 1 - i

def unset (name : String) (s : Store) : Store :=
  if name ∈ neverUnset then s
  else
    let s := { s with special := unsetEffects name s.special }
    match s.scopes.getLast?.bind fun scope => scope.saved name with
    | some saved =>
      syncExportEnv host name (s.modify name fun _ => Binding.declared ((saved.entry.map VariableEntry.exported).getD false))
    | none =>
      match innermostIndex s.scopes name with
      | some idx =>
        if s.special.shoptOption "localvar_unset" then syncExportEnv host name (s.modify name fun _ => declared false)
        else
          match s.scopes[idx]?.bind fun scope => scope.saved name with
          | some saved =>
            syncExportEnv host name ({ s with scopes := removeSaved idx name s.scopes }.modify name fun _ => saved.binding)
          | none => (s.modify name fun _ => Binding.unset).setEnv name none
      | none => (s.modify name fun _ => Binding.unset).setEnv name none

/-! ### Scopes -/

def pushLocalScope (s : Store) : Store := { s with scopes := s.scopes ++ [⟨fun _ => none,none⟩] }

def restoreOptions (options : Options) (s : Store) : Store :=
  let special := { s.special with options := options }
  let s := { s with special := special }
  if special.shoptOption "ignoreeof" then s.modify "IGNOREEOF" fun b => { b with entry := some ⟨"10",true,false,false,0⟩ }
  else (s.modify "IGNOREEOF" fun b => { b with entry := none }).setEnv "IGNOREEOF" none

/-- The names of a scope are restored one by one; each restore concerns its own name only. -/
def popLocalScope (s : Store) : Store :=
  match s.scopes.getLast? with
  | none => s
  | some scope =>
    let s := match scope.options with
      | some options => restoreOptions options s
      | none => s
    let s := { s with
      scopes := s.scopes.dropLast
      vars := fun name => ((scope.saved name).map SavedVar.binding).getD (s.vars name) }
    { s with processEnv := fun name => if scope.has name then exportedValue host s name else s.processEnv name }

/-- A global that is read-only cannot be shadowed; a local of an outer function can. -/
def localRefused (name : String) (s : Store) : Bool :=
  !(s.scopes.any (Scope.has · name)) && ((s.vars name).entry.map readonly).getD false

def saveLocal (name : String) (s : Store) : Store :=
  { s with scopes := s.scopes.modify (s.scopes.length - 1) fun scope =>
      { scope with saved := update scope.saved name (some (s.vars name).snapshot) } }

def makeLocal (name : String) (s : Store) : Outcome × Store :=
  if s.scopes = [] ∨ s.currentScopeHas name then (.ok (),s)
  else if localRefused name s then (.error (.readOnly name),s)
  else
    let inherited := (s.vars name).exported
    (.ok (),syncExportEnv host name ((saveLocal name s).modify name fun _ => declared inherited))

def canAssignSimpleLocalDirect (s : Store) (name : String) : Bool :=
  !(name ∈ ["RANDOM","BASH_ARGV0","BASH_MONOSECONDS","SECONDS","EPOCHSECONDS","EPOCHREALTIME","FUNCNAME","BASHOPTS","SHELLOPTS",
      "HISTSIZE","HISTFILESIZE","HISTCONTROL","HISTFILE","IGNOREEOF"] || (s.special.restricted && name ∈ ["PATH","SHELL"]))

def shadowForValue (name : String) (value : Option String) (s : Store) : Store :=
  let inherited := (s.vars name).exported
  let s := saveLocal name s
  if value.isNone || !canAssignSimpleLocalDirect s name then
    syncExportEnv host name (s.modify name fun _ => declared inherited)
  else s.modify name fun _ => Binding.unset

/-- Storing the value of a new local. Without an entry the name takes over the export of
the binding it hides. -/
def storeLocal (name value : String) (inherited : Bool) (s : Store) : Store :=
  let b := s.vars name
  let exported := (b.entry.map VariableEntry.exported).getD inherited
  let attrs := (b.entry.map VariableEntry.attrs).getD (if inherited then EXPORT else 0)
  let stored := applyCaseAttrs host value attrs
  let s := s.modify name fun b => { b with entry := some ⟨stored,true,exported,false,attrs⟩ }
  if exported then s.setEnv name (some stored) else s

def makeLocalWithValue (calls : ℕ) (name : String) (value : Option String) (s : Store) : Option (Outcome × Store) :=
  if s.scopes = [] then
    match value with
    | some value => assign host calls name value s
    | none => some (.ok (),s)
  else if !s.currentScopeHas name && localRefused name s then some (.error (.readOnly name),s)
  else
    let shadowed := if s.currentScopeHas name then s else shadowForValue host name value s
    match value with
    | none => some (.ok (),shadowed)
    | some value =>
      if !canAssignSimpleLocalDirect shadowed name then assign host calls name value shadowed
      else some (.ok (),storeLocal host name value (!s.currentScopeHas name && (s.vars name).exported) shadowed)

def Binding.inheritedLocal (b : Binding) : Binding :=
  let entry := if b.entry.isNone && b.indexed.isNone && b.assoc.isNone && b.nameref.isNone then some {} else b.entry
  { b with
    entry := entry.map fun entry => { entry with attrs := entry.attrs.without NAMEREF }
    nameref := none }

def makeLocalInherit (name : String) (s : Store) : Outcome × Store :=
  if s.scopes = [] ∨ s.currentScopeHas name then (.ok (),s)
  else if localRefused name s then (.error (.readOnly name),s)
  else (.ok (),syncExportEnv host name ((saveLocal name s).modify name inheritedLocal))

/-! ### Writing the global binding -/

def assignGlobal (calls : ℕ) (name value : String) : Store → Option (Outcome × Store) :=
  withGlobalVar host name (assign host calls name value)

def withGlobal (name : String) (f : Store → Store) (s : Store) : Option (Outcome × Store) :=
  withGlobalVar host name (fun s => some (.ok (),f s)) s

def setGlobalAttr (name : String) (attr : VarAttrs) (on : Bool) : Store → Option (Outcome × Store) :=
  withGlobal host name (setAttr host name attr on)

def unsetGlobal (name : String) : Store → Option (Outcome × Store) := withGlobal host name (unset host name)

def exportGlobal (name : String) : Store → Option (Outcome × Store) := withGlobal host name («export» host name)

def setGlobalArray (name : String) (values : List String) : Store → Option (Outcome × Store) :=
  withGlobal host name (setArray host name values)

def setGlobalArrayIndexed (name : String) (index : ℤ) (value : String) : Store → Option (Outcome × Store) :=
  withGlobal host name (setArrayIndexed host name index value)

def setGlobalArrayAssoc (name key value : String) : Store → Option (Outcome × Store) :=
  withGlobal host name (setArrayAssoc host name key value)

def unsetGlobalArrayElem (name key : String) : Store → Option (Outcome × Store) :=
  withGlobal host name (unsetArrayElem name key)
end

inductive Write where
  | assign (value : String)
  | setAttr (attr : VarAttrs) (on : Bool)
  | setArray (values : List String)
  | setArrayIndexed (index : ℤ) (value : String)
  | setArrayAssoc (key value : String)
  | «export»
  | unset
  | unsetArrayElem (key : String)

def Write.plain (host : Host) (calls : ℕ) (name : String) : Write → Store → Option (Outcome × Store)
  | .assign value, s => State.assign host calls name value s
  | .setAttr attr on, s => some (.ok (),State.setAttr host name attr on s)
  | .setArray values, s => some (.ok (),State.setArray host name values s)
  | .setArrayIndexed index value, s => some (.ok (),State.setArrayIndexed host name index value s)
  | .setArrayAssoc key value, s => some (.ok (),State.setArrayAssoc host name key value s)
  | .export, s => some (.ok (),State.export host name s)
  | .unset, s => some (.ok (),State.unset host name s)
  | .unsetArrayElem key, s => some (.ok (),State.unsetArrayElem name key s)

def Write.global (host : Host) (calls : ℕ) (name : String) : Write → Store → Option (Outcome × Store)
  | .assign value => assignGlobal host calls name value
  | .setAttr attr on => setGlobalAttr host name attr on
  | .setArray values => setGlobalArray host name values
  | .setArrayIndexed index value => setGlobalArrayIndexed host name index value
  | .setArrayAssoc key value => setGlobalArrayAssoc host name key value
  | .export => exportGlobal host name
  | .unset => unsetGlobal host name
  | .unsetArrayElem key => unsetGlobalArrayElem host name key
/-! ### A shell at its start -/

/-- A host in which letters have no case, no descriptor is open and nothing is computed. -/
def plainHost : Host where
  toUppercase := id
  toLowercase := id
  isAlphabetic _ := false
  charToUppercase c := [c]
  charToLowercase c := [c]
  now := 0
  clock _ := ""
  descriptorOpen _ := false
  callArray _ := none
  currentCommand := none
  parameter _ _ := ""
  nextRandom seed last := (seed,last)
  nextSrandom seed := (seed,0)

def startSpecial : SpecialState where
  options := ⟨fun _ => false,fun _ => none⟩
  randomSeed := 0
  lastRandomValue := 0
  srandomSeed := 0
  dollarVars := ["cherubsh"]
  bashArgv0Dynamic := true
  secondsDynamic := true
  epochsecondsDynamic := true
  epochrealtimeDynamic := true
  bashMonosecondsDynamic := true
  groupsDynamic := true
  secondsOffset := 0
  secondsStart := 0
  histsize := 500
  historyTable := Common.HistoryTable.new 500
  histfilesize := 500
  histcontrolFlags := ⟨false,false,false⟩
  histfile := none
  histfileExplicit := false
  dirsStack := []
  aliases _ := none
  commandHash _ := none
  commandHashHits _ := none
end Cherubsh.State
