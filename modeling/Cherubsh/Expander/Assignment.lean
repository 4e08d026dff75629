import Cherubsh.Expander.Arith.Lexer

/-! # Expanding an assignment word

`expand_assignment_word` decides from the raw text what kind of assignment a word is. What it asks
of variables and expansions may change the state and may fail.
-/
namespace Cherubsh.Expander.Assignment
open Arith (Text trim)

def find (pattern : Text) : Text → Option ℕ
  | [] => if pattern = [] then some 0 else none
  | c :: rest => if pattern.isPrefixOf (c :: rest) then some 0 else (find pattern rest).map (· + 1)

def isValidName : Text → Bool
  | c :: rest => (c.isAlpha || c = '_') && rest.all fun c => c.isAlphanum || c = '_'
  | [] => false

def skipQuoted (quote : Char) : Text → Text
  | [] => []
  | [_] => []
  | c :: d :: rest =>
    if quote = '"' ∧ c = '\\' then skipQuoted quote rest
    else if c = quote then d :: rest
    else skipQuoted quote (d :: rest)

def skipBackticks : Text → Text
  | [] => []
  | [_] => []
  | c :: d :: rest =>
    if c = '\\' then skipBackticks rest
    else if c = '\x60' then d :: rest
    else skipBackticks (d :: rest)

def skipBalancedFrom (opener closer : Char) : ℕ → ℕ → Text → Text
  | 0, _, s => s
  | _ + 1, 0, s => s
  | _ + 1, _ + 1, [] => []
  | fuel + 1, depth + 1, c :: rest =>
    if c = '\\' then skipBalancedFrom opener closer fuel (depth + 1) (rest.drop 1)
    else if c = '\'' ∨ c = '"' then skipBalancedFrom opener closer fuel (depth + 1) (skipQuoted c rest)
    else if c = opener then skipBalancedFrom opener closer fuel (depth + 2) rest
    else if c = closer then skipBalancedFrom opener closer fuel depth rest
    else skipBalancedFrom opener closer fuel (depth + 1) rest

def skipBalanced (opener closer : Char) (s : Text) : Text := skipBalancedFrom opener closer s.length 1 s

def skipDoubleQuotedFrom : ℕ → Text → Text
  | 0, s => s
  | _ + 1, [] => []
  | fuel + 1, c :: rest =>
    if c = '\\' ∧ rest ≠ [] then skipDoubleQuotedFrom fuel (rest.drop 1)
    else if c = '$' ∧ rest.head? = some '\x7b' then
      skipDoubleQuotedFrom fuel (skipBalanced '\x7b' '\x7d' (rest.drop 1))
    else if c = '$' ∧ rest.head? = some '(' then skipDoubleQuotedFrom fuel (skipBalanced '(' ')' (rest.drop 1))
    else if c = '\x60' then skipDoubleQuotedFrom fuel (skipBackticks rest)
    else if c = '"' then rest
    else skipDoubleQuotedFrom fuel rest

def skipDoubleQuotedWord (s : Text) : Text := skipDoubleQuotedFrom s.length s

def currentSubstStarts (s : Text) : Bool := s.head?.any fun c => c ∈ ['|',' ','\t','\n','\r']

/-- A command substitution in braces, behind its brace and a leading bar. -/
def skipCurrentSubstFrom : ℕ → ℕ → Text → Text
  | 0, _, s => s
  | _ + 1, _, [] => []
  | fuel + 1, depth, c :: rest =>
    if c = '\\' then skipCurrentSubstFrom fuel depth (rest.drop 1)
    else if c = '\'' ∨ c = '"' ∨ c = '\x60' then skipCurrentSubstFrom fuel depth (skipQuoted c rest)
    else if c = '$' ∧ rest.head? = some '(' then
      skipCurrentSubstFrom fuel depth (skipBalanced '(' ')' (rest.drop 1))
    else if c = '$' ∧ rest.head? = some '\x7b' then
      let inner := rest.drop 1
      let behind := if currentSubstStarts inner then
          skipCurrentSubstFrom fuel 0 (if inner.head? = some '|' then inner.drop 1 else inner)
        else skipBalanced '\x7b' '\x7d' inner
      skipCurrentSubstFrom fuel depth behind
    else if c = '\x7b' then skipCurrentSubstFrom fuel (depth + 1) rest
    else if c = '\x7d' then
      match depth with
      | 0 => rest
      | depth + 1 => skipCurrentSubstFrom fuel depth rest
    else skipCurrentSubstFrom fuel depth rest

def skipCurrentSubst (s : Text) : Text :=
  skipCurrentSubstFrom s.length 0 (if s.head? = some '|' then s.drop 1 else s)

/-- Behind the opening bracket of a subscript: the text behind the closing one. -/
def skipSubscriptFrom : ℕ → ℕ → Text → Option Text
  | 0, _, _ => none
  | _ + 1, _, [] => none
  | fuel + 1, depth, c :: rest =>
    if c = '[' then skipSubscriptFrom fuel (depth + 1) rest
    else if c = ']' then
      match depth with
      | 0 => some rest
      | depth + 1 => skipSubscriptFrom fuel depth rest
    else if c = '\'' then skipSubscriptFrom fuel depth (skipQuoted '\'' rest)
    else if c = '"' then skipSubscriptFrom fuel depth (skipDoubleQuotedWord rest)
    else if c = '\\' then skipSubscriptFrom fuel depth (rest.drop 1)
    else if c = '$' ∧ rest.head? = some '(' then skipSubscriptFrom fuel depth (skipBalanced '(' ')' (rest.drop 1))
    else skipSubscriptFrom fuel depth rest

def skipAssignmentSubscript (s : Text) : Option Text := skipSubscriptFrom s.length 0 s

/-- The first `+=(` of the whole text, or else its first `=(`, if the text ends with `)`. -/
def compoundParts (text : Text) : Option (Text × Text × Bool) := do
  let (pos,append) ← match find ['+','=','('] text with
    | some pos => some (pos,true)
    | none => (find ['=','('] text).map (·,false)
  if text.getLast? ≠ some ')' then none
  else
    let bodyStart := if append then pos + 3 else pos + 2
    some (text.take pos,(text.drop bodyStart).dropLast,append)

def trailingFrom : ℕ → ℕ → Text → Bool
  | 0, _, _ => false
  | _ + 1, _, [] => false
  | fuel + 1, depth, c :: rest =>
    if c = '\\' then trailingFrom fuel depth (rest.drop 1)
    else if c = '\'' ∨ c = '"' then trailingFrom fuel depth (skipQuoted c rest)
    else if c = '(' then trailingFrom fuel (depth + 1) rest
    else if c = ')' then
      match depth with
      | 0 => rest ≠ []
      | depth + 1 => trailingFrom fuel depth rest
    else trailingFrom fuel depth rest

def compoundAssignmentHasTrailingText (text : Text) : Bool :=
  let place := match find ['+','=','('] text with
    | some pos => some (pos,pos + 3)
    | none => (find ['=','('] text).map fun pos => (pos,pos + 2)
  match place with
  | none => false
  | some (pos,bodyStart) => if pos = 0 then false else trailingFrom text.length 0 (text.drop bodyStart)

def operatorFrom : ℕ → Text → Option Text
  | 0, _ => none
  | _ + 1, [] => none
  | fuel + 1, c :: rest =>
    if c = '[' then (skipAssignmentSubscript rest).bind (operatorFrom fuel)
    else if c = '=' then some (c :: rest)
    else if c = '\'' then operatorFrom fuel (skipQuoted '\'' rest)
    else if c = '"' then operatorFrom fuel (skipDoubleQuotedWord rest)
    else if c = '\\' then operatorFrom fuel (rest.drop 1)
    else operatorFrom fuel rest

def assignmentOperator (text : Text) : Option (ℕ × Bool) :=
  (operatorFrom text.length text).map fun s =>
    let pos := text.length - s.length
    (pos,0 < pos ∧ text[pos - 1]? = some '+')

def splitAssignmentText (text : Text) : Option (Text × Text × Bool) :=
  (assignmentOperator text).map fun (pos,append) =>
    (text.take (if append then pos - 1 else pos),text.drop (pos + 1),append)

def arrayLhs (lhs : Text) : Option (Text × Text) :=
  match find ['['] lhs with
  | none => none
  | some opening =>
    if lhs.getLast? ≠ some ']' then none
    else if ¬isValidName (lhs.take opening) then none
    else some (lhs.take opening,(lhs.drop (opening + 1)).dropLast)

def assignmentLhsValid (lhs : Text) : Bool := isValidName lhs || (arrayLhs lhs).isSome

/-- The first metacharacter of the body of a list that is not quoted, in a comment or in
a substitution. -/
def invalidMetacharFrom : ℕ → Bool → Text → Option Text
  | 0, _, _ => none
  | _ + 1, _, [] => none
  | fuel + 1, atWordStart, c :: rest =>
    if c ∈ [' ','\t','\n','\x0c','\r'] then invalidMetacharFrom fuel true rest
    else if c = '#' ∧ atWordStart then invalidMetacharFrom fuel atWordStart (rest.dropWhile (· ≠ '\n'))
    else if c = '\\' then invalidMetacharFrom fuel false (rest.drop 1)
    else if c = '\'' ∨ c = '"' then invalidMetacharFrom fuel false (skipQuoted c rest)
    else if c = '$' ∧ rest.head? = some '(' then
      invalidMetacharFrom fuel false (skipBalanced '(' ')' (rest.drop 1))
    else if c = '$' ∧ rest.head? = some '\x7b' then
      invalidMetacharFrom fuel false (if currentSubstStarts (rest.drop 1) then skipCurrentSubst (rest.drop 1)
        else skipBalanced '\x7b' '\x7d' (rest.drop 1))
    else if (c = '<' ∨ c = '>') ∧ rest.head? = some '(' then
      invalidMetacharFrom fuel false (skipBalanced '(' ')' (rest.drop 1))
    else if c ∈ ['&','|',';'] then some [c]
    else if c = '<' ∧ rest.head? = some '>' then some ['<','>']
    else if c = '<' ∨ c = '>' then some [c]
    else invalidMetacharFrom fuel false rest

def invalidCompoundMetachar (body : Text) : Option Text := invalidMetacharFrom body.length true body

section
inductive VarKind where
  | unset | scalar | indexed | assoc | nameref
  deriving DecidableEq

inductive ExpandError (E : Type) where
  | other (message : Text)
  | invalidArraySubscript (label : Text)
  | raised (error : E)
  deriving DecidableEq

inductive ExpandedAssignment where
  | scalar (name value : Text)
  | indexedElem (name : Text) (index : ℤ) (value : Text)
  | assocElem (name key value : Text)
  | indexedArray (name : Text) (entries : List (Option ℤ × Text)) (append : Bool)
  | assocArray (name : Text) (values : List (Text × Text)) (append : Bool)
  deriving DecidableEq

abbrev Expand (S E : Type) := ExceptT (ExpandError E) (StateM S)

structure World (S E : Type) where
  kind : S → Text → VarKind
  integer : S → Text → Bool
  nameref : S → Text → Bool
  resolveNameref : S → Text → Option Text
  namerefTarget : S → Text → Option Text
  get : S → Text → Option Text
  getArrayAssoc : S → Text → Text → Option Text
  getArrayIndexed : S → Text → ℤ → Option Text
  arrayMaxIndex : S → Text → Option ℤ
  expandAssignmentRhs : Text → Expand S E Text
  expandSubscriptText : Text → Expand S E Text
  evalIndexedSubscriptText : Text → Expand S E ℤ
  evalPreexpanded : Text → Expand S E ℤ
  parseAssocCompound : Text → Text → Bool → Expand S E (List (Text × Text))
  parseIndexedCompound : Text → Text → Bool → Expand S E (List (Option ℤ × Text))

/-- `WordDesc`, with whether the lexer marked a parenthesis behind the operator
(`W_COMPASSIGN`). -/
structure WordDesc where
  text : Text
  compassign : Bool

def decimal (n : ℤ) : Text := (toString n).toList

variable {S E : Type} (W : World S E)

def fail {A : Type} (message : Text) : Expand S E A := throw (.other message)

def assignmentTargetName (s : S) (name : Text) : Text :=
  if W.nameref s name then (W.resolveNameref s name).getD name else name

def unresolvedNameref (s : S) (name : Text) : Bool :=
  W.nameref s name && ((W.namerefTarget s name).getD []).isEmpty

def maybeArithValue (value : Text) (arithmetic : Bool) : Expand S E Text :=
  if !arithmetic then return value
  else if value = [] then return ['0']
  else return decimal (← W.evalPreexpanded value)

def appendValue (old rhs : Text) (arithmetic : Bool) : Expand S E Text :=
  if old = [] then return rhs
  else if arithmetic then do
    let _ ← W.evalPreexpanded old
    return decimal (← W.evalPreexpanded (['('] ++ old ++ ") + (" ++ rhs ++ [')']))
  else return old ++ rhs

def normalizeIndexedSubscript (name : Text) (index : ℤ) (label : Text) : Expand S E ℤ := do
  if 0 ≤ index then return index
  else
    let s ← get
    let max := match W.kind s name with
      | .indexed => W.arrayMaxIndex s name
      | .scalar => if (W.get s name).isSome then some 0 else none
      | _ => none
    match max with
    | none => throw (.invalidArraySubscript label)
    | some max => if max + 1 + index < 0 then throw (.invalidArraySubscript label) else return max + 1 + index

/-- The value of an array element or a scalar: added to the old one, or the new one. -/
def storedValue (append : Bool) (old : S → Option Text) (target value : Text) : Expand S E Text := do
  let s ← get
  if append then appendValue W ((old s).getD []) value (W.integer s target)
  else maybeArithValue W value (W.integer s target)

/-- `expand_array_element_assignment`, which reports the element under `name` and stores
it under `target`. The branch of `expand_assignment_word` for an element is the same text. -/
def expandArrayElementAssignment (name target subscript value : Text) (append : Bool) :
    Expand S E (Option ExpandedAssignment) := do
  if W.kind (← get) target = .assoc then
    let key ← W.expandAssignmentRhs subscript
    let value ← storedValue W append (fun s => W.getArrayAssoc s target key) target value
    return some (.assocElem name key value)
  else
    let idxText ← W.expandSubscriptText subscript
    let label := name ++ ['['] ++ trim idxText ++ [']']
    if subscript = [] ∨ trim idxText = ['*'] ∨ trim idxText = ['@'] then
      fail (label ++ ": bad array subscript")
    else
      let index ← W.evalIndexedSubscriptText idxText
      let index ← normalizeIndexedSubscript W target index label
      let value ← storedValue W append (fun s => W.getArrayIndexed s target index) target value
      return some (.indexedElem name index value)

def expandCompoundAssignment (text : Text) : Expand S E ExpandedAssignment :=
  match compoundParts text with
  | none => fail (text ++ ": invalid compound assignment")
  | some (name,body,append) =>
    if (arrayLhs name).isSome then fail (name ++ ": cannot assign list to array member")
    else if ¬isValidName name then fail (name ++ ": not a valid identifier")
    else match invalidCompoundMetachar body with
      | some token => fail ("syntax error near unexpected token \x60" ++ token ++ ['\''])
      | none => do
        let s ← get
        let target := assignmentTargetName W s name
        if W.kind s target = .assoc then
          return .assocArray name (← W.parseAssocCompound target body append) append
        else
          return .indexedArray name (← W.parseIndexedCompound target body append) append

def expandScalarAssignment (lhs rhs : Text) (append : Bool) : Expand S E (Option ExpandedAssignment) := do
  let target := assignmentTargetName W (← get) lhs
  match if target ≠ lhs then arrayLhs target else none with
  | some (name,subscript) =>
    let value ← W.expandAssignmentRhs rhs
    expandArrayElementAssignment W name name subscript value append
  | none =>
    let value ← W.expandAssignmentRhs rhs
    let s ← get
    if append then
      let old := if target = lhs ∧ W.nameref s lhs then [] else (W.get s target).getD []
      return some (.scalar lhs (← appendValue W old value (W.integer s target)))
    else if unresolvedNameref W s lhs ∧ ¬assignmentLhsValid value then
      return some (.scalar lhs value)
    else
      return some (.scalar lhs (← maybeArithValue W value (W.integer s target)))

def expandAssignmentWord (word : WordDesc) : Expand S E (Option ExpandedAssignment) := do
  if (compoundParts word.text).isSome then
    return some (← expandCompoundAssignment W word.text)
  else if word.compassign ∧ ¬compoundAssignmentHasTrailingText word.text then
    return some (← expandCompoundAssignment W word.text)
  else match splitAssignmentText word.text with
    | none => return none
    | some (lhs,rhs,append) =>
      match arrayLhs lhs with
      | some (name,subscript) =>
        let target := assignmentTargetName W (← get) name
        let value ← W.expandAssignmentRhs rhs
        expandArrayElementAssignment W name target subscript value append
      | none => if ¬isValidName lhs then return none else expandScalarAssignment W lhs rhs append
end
end Cherubsh.Expander.Assignment
