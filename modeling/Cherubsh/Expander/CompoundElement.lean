import Mathlib.Data.List.DropRight
import Cherubsh.Expander.ScalarAssignment

/-! # Elements of a list

A word `[…]=…` of a list stores at one element the expansion of its trimmed right side, from which
a blank at the end is taken away when the right side has an `@`.
-/
namespace Cherubsh.Expander.Assignment
open List Option
open Arith (Text trim isWhitespace isAsciiWhitespace)

/-- Behind the opening bracket of an element: the text behind the bracket that closes it. -/
def closeBracketFrom : ℕ → ℕ → Text → Option Text
  | 0, _, _ => none
  | _ + 1, _, [] => none
  | fuel + 1, depth, c :: rest =>
    if c = '\\' then closeBracketFrom fuel depth (rest.drop 1)
    else if c = '\'' then closeBracketFrom fuel depth (skipQuoted '\'' rest)
    else if c = '"' then closeBracketFrom fuel depth (skipDoubleQuotedWord rest)
    else if c = '$' ∧ rest.head? = some '\x7b' then closeBracketFrom fuel depth (skipBalanced '\x7b' '\x7d' (rest.drop 1))
    else if c = '$' ∧ rest.head? = some '(' then closeBracketFrom fuel depth (skipBalanced '(' ')' (rest.drop 1))
    else if c = '[' then closeBracketFrom fuel (depth + 1) rest
    else if c = ']' then
      match depth with
      | 0 => some rest
      | depth + 1 => closeBracketFrom fuel depth rest
    else closeBracketFrom fuel depth rest

def bracketAssignment : Text → Option (Text × Text × Bool)
  | '[' :: rest =>
    match closeBracketFrom rest.length 0 rest with
    | some ('=' :: value) => some (rest.take (rest.length - value.length - 2),value,false)
    | some ('+' :: '=' :: value) => some (rest.take (rest.length - value.length - 3),value,true)
    | _ => none
  | _ => none

/-- The text behind the word of a list that begins here. -/
def behindWord : ℕ → Bool → Text → Text
  | 0, _, s => s
  | _ + 1, _, [] => []
  | fuel + 1, atWordStart, c :: rest =>
    if isAsciiWhitespace c then c :: rest
    else if c = '\\' then behindWord fuel atWordStart (rest.drop 1)
    else if c = '\'' then behindWord fuel false (skipQuoted '\'' rest)
    else if c = '"' then behindWord fuel false (skipDoubleQuotedWord rest)
    else if c = '$' ∧ rest.head? = some '\x7b' then behindWord fuel false (skipBalanced '\x7b' '\x7d' (rest.drop 1))
    else if c ∈ ['$','<','>'] ∧ rest.head? = some '(' then behindWord fuel false (skipBalanced '(' ')' (rest.drop 1))
    else if c = '[' ∧ atWordStart then
      behindWord fuel false (((bracketAssignment (c :: rest)).map (·.2.1)).getD rest)
    else behindWord fuel false rest

def lexWordsFrom : ℕ → Text → List Text
  | 0, _ => []
  | fuel + 1, s =>
    match s.dropWhile isAsciiWhitespace with
    | [] => []
    | c :: rest =>
      if c = '#' then lexWordsFrom fuel (rest.dropWhile (· ≠ '\n'))
      else
        let behind := behindWord (rest.length + 1) true (c :: rest)
        (c :: rest).take (rest.length + 1 - behind.length) :: lexWordsFrom fuel behind

def lexWords (body : Text) : List Text := lexWordsFrom (body.length + 1) body

def trimCompoundValue (raw : Text) : Text :=
  let trimmed := raw.rdropWhile isWhitespace
  if (trimmed.rtakeWhile (· = '\\')).length % 2 = 1 then raw else trimmed

section
variable {S E : Type}

structure Requests (S E : Type) where
  expandStringToString : Text → Expand S E Text
  expandWordList : Text → Expand S E (List Text)
  arrayKeys : S → Text → Option (List ℤ)
  arrayExpandOnce : S → Bool

variable (W : World S E) (R : Requests S E) (name : Text) (compoundAppend arithmetic : Bool)

def expandCompoundValue (raw : Text) : Expand S E Text := do
  let value ← W.expandAssignmentRhs (trimCompoundValue raw)
  return if '@' ∈ raw ∧ value.getLast? = some ' ' then value.dropLast else value

def elementValue (raw : Text) (append : Bool) (old : S → Option Text) : Expand S E Text := do
  let value ← expandCompoundValue W raw
  if append then appendValue W ((old (← get)).getD []) value arithmetic else maybeArithValue W value arithmetic

/-- The index of an element, or that the list ends here or is dropped as a whole. -/
inductive Place where
  | at (index : ℤ) | stop | nothing

def elementPlace (indexRaw : Text) : Expand S E Place := do
  let idxText ← R.expandStringToString indexRaw
  if trim idxText ∈ [[],['*'],['@']] then return .stop
  else
    try
      let index ← W.evalPreexpanded idxText
      if 0 ≤ index then return .at index
      else match compoundAppend,W.arrayMaxIndex (← get) name with
        | true,some max => return if 0 ≤ max + 1 + index then .at (max + 1 + index) else .stop
        | _,_ => return .stop
    catch err =>
      if '\x01' ∈ idxText then return .stop
      else if R.arrayExpandOnce (← get) then return .nothing
      else throw err

structure Entries where
  out : List (Option ℤ × Text)
  current : List (ℤ × Text)
  next : ℤ

/-- The index behind this one, as a signed number of 64 bits. -/
def nextIndex (index : ℤ) : ℤ := (index + 1).bmod (2 ^ 64)

def Entries.add (entries : Entries) (index : Option ℤ) (value : Text) : Entries :=
  let place := index.getD entries.next
  ⟨entries.out ++ [(index,value)],(place,value) :: entries.current,nextIndex place⟩

def indexedWords : List Text → Entries → Expand S E (List (Option ℤ × Text))
  | [], entries => return entries.out
  | word :: words, entries =>
    match bracketAssignment word with
    | some (indexRaw,valueRaw,append) => do
      match ← elementPlace W R name compoundAppend indexRaw with
      | .stop => return entries.out
      | .nothing => return []
      | .at index =>
        let old := fun s => (entries.current.lookup index).or (if compoundAppend then W.getArrayIndexed s name index else none)
        let value ← elementValue W arithmetic valueRaw append old
        indexedWords words (entries.add (some index) value)
    | none => do
      let values ← (← R.expandWordList word).mapM (maybeArithValue W · arithmetic)
      indexedWords words (values.foldl (·.add none) entries)

def parseIndexedCompound (body : Text) : Expand S E (List (Option ℤ × Text)) := do
  if trim body = [] then return []
  else
    let s ← get
    let next := if compoundAppend then
        (((R.arrayKeys s name).bind List.max?).map nextIndex).getD (if (W.get s name).isSome then 1 else 0)
      else 0
    indexedWords W R name compoundAppend (W.integer s name) (lexWords body) ⟨[],[],next⟩

/-- The words of an associative list: elements, or keys and values in turn until the first
element. -/
def assocWords : List Text → Bool → List (Text × Text) → Expand S E (List (Text × Text))
  | [], _, out => return out
  | word :: words, bracketed, out =>
    match bracketAssignment word with
    | some (keyRaw,valueRaw,append) => do
      let key ← W.expandAssignmentRhs keyRaw
      if key = [] then assocWords words true out
      else
        let old := fun s => (out.reverse.lookup key).or (if compoundAppend then W.getArrayAssoc s name key else none)
        let value ← elementValue W arithmetic valueRaw append old
        assocWords words true (out ++ [(key,value)])
    | none =>
      if bracketed then assocWords words true out
      else match words with
        | [] => do
          let key ← W.expandAssignmentRhs word
          if key = [] then return out else return out ++ [(key,← maybeArithValue W [] arithmetic)]
        | valueWord :: words => do
          let key ← W.expandAssignmentRhs word
          if key = [] then assocWords words false out
          else
            let value ← maybeArithValue W (← expandCompoundValue W valueWord) arithmetic
            assocWords words false (out ++ [(key,value)])

def parseAssocCompound (body : Text) : Expand S E (List (Text × Text)) := do
  assocWords W name compoundAppend (W.integer (← get) name) (lexWords body) false []
end

section
variable {i w : Text}

theorem length_skipQuoted_le (quote : Char) (s : Text) : (skipQuoted quote s).length ≤ s.length := by
  fun_induction skipQuoted quote s <;> simp_all <;> omega

theorem length_skipBackticks_le (s : Text) : (skipBackticks s).length ≤ s.length := by
  fun_induction skipBackticks s <;> simp_all <;> omega

theorem length_skipBalancedFrom_le (opener closer : Char) (fuel depth : ℕ) (s : Text) :
    (skipBalancedFrom opener closer fuel depth s).length ≤ s.length := by
  fun_induction skipBalancedFrom opener closer fuel depth s <;> grind [length_skipQuoted_le]

theorem length_skipDoubleQuotedFrom_le (fuel : ℕ) (s : Text) : (skipDoubleQuotedFrom fuel s).length ≤ s.length := by
  fun_induction skipDoubleQuotedFrom fuel s <;> grind [skipBalanced,length_skipBalancedFrom_le,length_skipBackticks_le]

theorem length_behindWord_le (fuel : ℕ) (s : Text) : (behindWord fuel false s).length ≤ s.length := by
  generalize hs : false = atWordStart
  fun_induction behindWord fuel atWordStart s <;>
    grind [length_skipQuoted_le,skipBalanced,length_skipBalancedFrom_le,skipDoubleQuotedWord,length_skipDoubleQuotedFrom_le]

def element (i w : Text) : Text := '[' :: (i ++ ']' :: '=' :: w)

theorem trim_element (i w : Text) : trim (element i w) ≠ [] := by
  have hs : Arith.trimStart (element i w) = element i w := by simp [Arith.trimStart,element,isWhitespace]
  rw [trim,hs,Arith.trimStart,ne_eq,reverse_eq_nil_iff,dropWhile_eq_nil_iff]
  exact fun h => absurd (h '[' (by simp [element])) (by decide)

/-- The brackets around the text are read as those of a subscript. -/
def Subscript (i : Text) : Prop := ∀ w, bracketAssignment (element i w) = some (i,w,false)

theorem lexWords_element (hi : Subscript i) (w : Text) : lexWords (element i w) = [element i w] ∨
    ∃ w₁ words, w₁.length < w.length ∧ lexWords (element i w) = element i w₁ :: words := by
  set fuel := (i ++ ']' :: '=' :: w).length with hf
  set behind := behindWord fuel false w
  have hbe : behindWord (fuel + 1) true (element i w) = behind := by
    have hb := hi w
    unfold element at hb ⊢
    rw [behindWord]
    simp [isAsciiWhitespace,hb,behind]
  have hl : lexWords (element i w) = (element i w).take (fuel + 1 - behind.length) :: lexWordsFrom (fuel + 1) behind := by
    rw [← hbe]
    simp [lexWords,lexWordsFrom,element,isAsciiWhitespace,hf]
  by_cases hn : behind = []
  · left
    rw [hl,hn,take_of_length_le (by simp [element,hf])]
    rfl
  · right
    have hle : behind.length ≤ w.length := length_behindWord_le fuel w
    have hp := length_pos_iff.mpr hn
    have hln : fuel = i.length + 2 + w.length := by simp [hf]; omega
    have hs : ∀ u, element i u = '[' :: (i ++ [']','=']) ++ u := by simp [element]
    refine ⟨w.take (w.length - behind.length),lexWordsFrom (fuel + 1) behind,by rw [length_take]; omega,?_⟩
    have ht : fuel + 1 - behind.length - ('[' :: (i ++ [']','='])).length = w.length - behind.length := by
      simp only [length_cons,length_append,length_nil]
      omega
    rw [hl,hs w,hs,take_append,ht,take_of_length_le (by simp; omega)]
end

section
variable {S E : Type} {i w : Text}

theorem find_append {a : Char} {p pre s : Text} (h : a ∉ pre) :
    find (a :: p) (pre ++ s) = (find (a :: p) s).map (· + pre.length) := by
  induction pre with
  | nil => simp
  | cons c pre ih =>
    obtain ⟨hne,hp⟩ : a ≠ c ∧ a ∉ pre := by simpa using h
    have hs : (a :: p).isPrefixOf (c :: (pre ++ s)) = false := by simp [List.isPrefixOf,hne]
    rw [cons_append,find,hs,ih hp]
    simp [Function.comp_def,Nat.add_assoc]

def listText (name i w : Text) : Text := name ++ '=' :: '(' :: (element i w ++ [')'])

/-- Where the body of the list has what an addition to an array starts with. -/
def addition (i w : Text) : Option ℕ := find ['+','=','('] (element i w ++ [')'])

/-- The list is recognised, and its only word is the element with its right side untouched. -/
structure Whole (i w : Text) : Prop where
  sign : addition i w = none
  metachar : invalidCompoundMetachar (element i w) = none
  word : lexWords (element i w) = [element i w]
  value : trimCompoundValue w = w

theorem find_listText {name : Text} (hn : isValidName name) (i w : Text) :
    find ['+','=','('] (listText name i w) = (addition i w).map (· + (name.length + 2)) := by
  have hp : '+' ∉ name ++ ['=','('] := by simp [notMem_name hn]
  simpa [listText,addition] using find_append (s := element i w ++ [')']) (p := ['=','(']) hp

theorem getLast?_listText (name i w : Text) : (listText name i w).getLast? = some ')' := by
  rw [listText,← cons_append,← cons_append,← append_assoc,List.getLast?_concat]

theorem compoundParts_listText {name : Text} (hn : isValidName name)
    (h : addition i w = none) : compoundParts (listText name i w) = some (name,element i w,false) := by
  have hp : find ['=','('] (listText name i w) = some name.length := by
    rw [listText,find_append (notMem_name hn (by decide))]
    simp [find,List.isPrefixOf]
  have hl := getLast?_listText name i w
  have hb : ((listText name i w).drop (name.length + 2)).dropLast = element i w := by simp [listText]
  have hf : (listText name i w).take name.length = name := by simp [listText]
  simp [compoundParts,find_listText hn,h,hp,hl,hb,hf]

def withLists (W : World S E) (R : Requests S E) : World S E :=
  {W with
    parseIndexedCompound := fun name body append => parseIndexedCompound W R name append body
    parseAssocCompound := fun name body append => parseAssocCompound W name append body}

def elementOf (W : World S E) (R : Requests S E) (name i : Text) : Expand S E (Option (ℤ ⊕ Text)) := do
  if W.kind (← get) name = .assoc then
    let key ← W.expandAssignmentRhs i
    return if key = [] then none else some (.inr key)
  else match ← elementPlace W R name false i with
    | .at index => return some (.inl index)
    | _ => return none

def single (name : Text) (place : ℤ ⊕ Text) (value : Text) : ExpandedAssignment :=
  match place with
  | .inl index => .indexedArray name [(some index,value)] false
  | .inr key => .assocArray name [(key,value)] false

theorem elementValue_plain (W : World S E) (raw : Text) (old : S → Option Text) :
    elementValue W false raw false old = expandCompoundValue W raw := by
  simp [elementValue,maybeArithValue]

/-- The array and the element, and the value that `x=w` stores in the state behind the subscript. -/
structure Setting (i w : Text) where
  (S E : Type)
  W : World S E
  R : Requests S E
  (name x : Text)
  (s s₁ s₂ : S)
  place : ℤ ⊕ Text
  (v : Text) (mark : Bool)
  valid : isValidName name
  scalarValid : isValidName x
  nameref : W.nameref s name = false
  integer : W.integer s name = false
  names : runAt (elementOf W R name i) s = (.ok (some place),s₁)
  marked : Marked (withLists W R) x w false false s₁
  value : runAt (expandAssignmentWord (withLists W R) ⟨assignmentText x false w,mark⟩) s₁ = (.ok (some (.scalar x v)),s₂)

theorem runAt_scalarAssignment_iff (W : World S E) {x r v : Text} {s s' : S} :
    runAt (scalarAssignment W x false r) s = (.ok (some (.scalar x v)),s') ↔ runAt (W.expandAssignmentRhs r) s = (.ok v,s') := by
  rw [scalarAssignment,runAt_bind]
  rcases runAt (W.expandAssignmentRhs r) s with ⟨e | value,t⟩
  · simp
  · change ((Except.ok (some (ExpandedAssignment.scalar x value)) : Except (ExpandError E) _),t) = _ ↔ _
    simp

/-- A list is never stored as a string. -/
theorem expandCompoundAssignment_ne_scalar (W : World S E) (text x v : Text) (s s' : S) :
    runAt (expandCompoundAssignment W text >>= fun e => pure (some e)) s ≠ (.ok (some (.scalar x v)),s') := by
  have hne : ∀ t, runAt (expandCompoundAssignment W text) s ≠ (.ok (.scalar x v),t) := by
    intro t h
    unfold expandCompoundAssignment at h
    rcases hp : compoundParts text with _ | ⟨name,body,append⟩ <;> simp only [hp] at h
    · simp at h
    split_ifs at h
    · simp at h
    · rcases hm : invalidCompoundMetachar body with _ | token <;> simp only [hm] at h
      · rw [runAt_bind,runAt_get] at h
        dsimp only at h
        split_ifs at h <;> rw [runAt_bind] at h <;> split at h <;> simp at h
      · simp at h
    · simp at h
  intro h
  rw [runAt_bind] at h
  split at h
  · rename_i e t he
    obtain ⟨rfl,rfl⟩ : e = .scalar x v ∧ t = s' := by simpa using h
    exact hne t he
  · simp at h

namespace Setting
variable (a : Setting i w)

/-- What `x=w` stores is the expansion of its right side. -/
theorem rhs_value : runAt (a.W.expandAssignmentRhs w) a.s₁ = (.ok a.v,a.s₂) := by
  have h := a.value
  unfold expandAssignmentWord at h
  split at h
  · exact absurd h (expandCompoundAssignment_ne_scalar _ _ _ _ _ _)
  split at h
  · exact absurd h (expandCompoundAssignment_ne_scalar _ _ _ _ _ _)
  rw [splitAssignmentText_assignmentText a.scalarValid] at h
  simp only [arrayLhs_name a.scalarValid,a.scalarValid,not_true_eq_false,if_false] at h
  rw [runAt_expandScalarAssignment _ a.marked,runAt_scalarAssignment_iff] at h
  exact h

def run : Except (ExpandError a.E) (Option ExpandedAssignment) × a.S :=
  runAt (expandAssignmentWord (withLists a.W a.R) ⟨listText a.name i w,true⟩) a.s

/-- The list stores at the element what `x=w` stores, and ends in the same state. -/
def Same : Prop := a.run = (.ok (some (single a.name a.place a.v)),a.s₂)

/-- No blank is taken away at the end of the value. -/
def Keeps : Prop := '@' ∈ w → a.v.getLast? ≠ some ' '

theorem run_eq : a.run =
    runAt (expandCompoundAssignment (withLists a.W a.R) (listText a.name i w) >>= fun e => pure (some e)) a.s := by
  have hp : (compoundParts (listText a.name i w)).isSome := by
    rw [← ne_none_iff_isSome,Ne,compoundParts_eq_none_iff,not_not]
    exact ⟨⟨a.name,element i w ++ [')'],by simp [listText]⟩,getLast?_listText a.name i w⟩
  rw [run,expandAssignmentWord,if_pos hp]

theorem sign_of_same (h : a.Same) : addition i w = none := by
  by_contra hno
  obtain ⟨pos,hpo⟩ := ne_none_iff_exists'.mp hno
  have hi : ∀ listName body append, compoundParts (listText a.name i w) = some (listName,body,append) →
      isValidName listName = false := by
    intro listName body append hp
    rw [compoundParts,find_listText a.valid,hpo] at hp
    have hn : (listText a.name i w).take (pos + (a.name.length + 2)) = listName := by
      simp [getLast?_listText] at hp
      exact hp.1
    by_contra hv
    have hme : '=' ∈ listName := by
      rw [← hn,listText,take_append,show pos + (a.name.length + 2) - a.name.length = pos + 2 by omega]
      simp
    exact notMem_name (by simpa using hv) (by decide) hme
  obtain ⟨m,hm⟩ := expandCompoundAssignment_fails (withLists a.W a.R) hi a.s
  rw [Same,run_eq,runAt_bind,hm] at h
  cases h

theorem metachar_of_same (hs : addition i w = none) (h : a.Same) :
    invalidCompoundMetachar (element i w) = none := by
  by_contra hn
  obtain ⟨token,ht⟩ := ne_none_iff_exists'.mp hn
  rw [Same,run_eq,expandCompoundAssignment,compoundParts_listText a.valid hs] at h
  simp only [arrayLhs_name a.valid,a.valid,ht,isSome_none,Bool.false_eq_true,if_false,not_true,runAt_bind,runAt_fail] at h
  cases h

def after (words : List Text) (value : Text) : Expand a.S a.E (Option ExpandedAssignment) :=
  match a.place with
  | .inl index => do
    let entries ← indexedWords a.W a.R a.name false false words ⟨[(some index,value)],[(index,value)],nextIndex index⟩
    return some (.indexedArray a.name entries false)
  | .inr key => do
    let values ← assocWords a.W a.name false false words true [(key,value)]
    return some (.assocArray a.name values false)

theorem run_list (hi : Subscript i) (hsi : addition i w = none)
    (hm : invalidCompoundMetachar (element i w) = none) {w₁ : Text} {words : List Text}
    (hl : lexWords (element i w) = element i w₁ :: words) : a.run = runAt (expandCompoundValue a.W w₁ >>= a.after words) a.s₁ := by
  have ht : assignmentTargetName (withLists a.W a.R) a.s a.name = a.name := by
    simp [assignmentTargetName,withLists,a.nameref]
  have he := a.names
  rw [run_eq]
  unfold expandCompoundAssignment
  unfold elementOf at he
  simp only [compoundParts_listText a.valid hsi,arrayLhs_name a.valid,a.valid,hm,isSome_none,Bool.false_eq_true,
    if_false,not_true,runAt_bind,runAt_get,ht,after] at he ⊢
  by_cases hk : a.W.kind a.s a.name = .assoc
  · rw [if_pos hk,runAt_bind] at he
    rcases hke : runAt (a.W.expandAssignmentRhs i) a.s with ⟨e | key,s'⟩
    · simp [hke] at he
    · obtain ⟨⟨hne,hp⟩,hs⟩ : (key ≠ [] ∧ Sum.inr key = a.place) ∧ s' = a.s₁ := by simpa [hke] using he
      have hpa : (withLists a.W a.R).parseAssocCompound a.name (element i w) false =
        (get >>= fun s => assocWords a.W a.name false (a.W.integer s a.name) (element i w₁ :: words) false []) := hl ▸ rfl
      rw [if_pos (show (withLists a.W a.R).kind a.s a.name = .assoc from hk),hpa]
      simp only [runAt_bind,runAt_get,a.integer]
      rw [assocWords.eq_def]
      simp only [hi w₁,runAt_bind,hke,hne,if_false,elementValue_plain,← hp,← hs]
      rcases runAt (expandCompoundValue a.W w₁) s' with ⟨e | v,s''⟩
      · rfl
      · simp only [nil_append]
        rcases runAt (assocWords a.W a.name false false words true [(key,v)]) s'' with ⟨e | values,s₃⟩ <;> rfl
  · rw [if_neg hk,runAt_bind] at he
    rcases hin : runAt (elementPlace a.W a.R a.name false i) a.s with ⟨e | place,s'⟩
    · simp [hin] at he
    · cases place with
      | stop | nothing => simp [hin] at he
      | «at» index =>
        obtain ⟨hp,hs⟩ : Sum.inl index = a.place ∧ s' = a.s₁ := by simpa [hin] using he
        have hpa : (withLists a.W a.R).parseIndexedCompound a.name (element i w) false =
          (get >>= fun s => indexedWords a.W a.R a.name false (a.W.integer s a.name) (element i w₁ :: words) ⟨[],[],0⟩) :=
          hl ▸ if_neg (trim_element i w)
        rw [if_neg (show (withLists a.W a.R).kind a.s a.name ≠ .assoc from hk),hpa]
        simp only [runAt_bind,runAt_get,a.integer,indexedWords,hi w₁,hin,elementValue_plain,← hp,← hs]
        rcases runAt (expandCompoundValue a.W w₁) s' with ⟨e | v,s''⟩
        · rfl
        · simp only [Entries.add,nil_append,getD_some]
          rcases runAt (indexedWords a.W a.R a.name false false words ⟨[(some index,v)],[(index,v)],nextIndex index⟩) s'' with
            ⟨e | entries,s₃⟩ <;> rfl

theorem run_whole (hi : Subscript i) (h : Whole i w) : a.run = (.ok (some (single a.name a.place
    (if '@' ∈ w ∧ a.v.getLast? = some ' ' then a.v.dropLast else a.v))),a.s₂) := by
  rw [a.run_list hi h.sign h.metachar h.word,expandCompoundValue,h.value]
  simp only [runAt_bind,a.rhs_value,runAt_pure,after,single]
  cases a.place with
  | inl index => simp [indexedWords]
  | inr key => simp [assocWords]

theorem same_iff_keeps (hi : Subscript i) (h : Whole i w) : a.Same ↔ a.Keeps := by
  have hin : ∀ v v',single a.name a.place v = single a.name a.place v' ↔ v = v' := by
    intro v v'
    unfold single
    cases a.place <;> simp
  rw [Same,a.run_whole hi h,Keeps]
  simp only [Prod.mk.injEq,and_true,Except.ok.injEq,Option.some.injEq,hin]
  split_ifs with hc
  · refine iff_of_false (fun heq => ?_) fun hk => hk hc.1 hc.2
    have hne : a.v ≠ [] := by rintro hn; simp [hn] at hc
    have hl := congrArg List.length heq
    have hp := length_pos_iff.mpr hne
    rw [length_dropLast] at hl
    omega
  · tauto
end Setting

/-- The right side makes `x=w` an assignment of a string. -/
structure TakesString (w : Text) : Prop where
  head : w.head? ≠ some '('
  look : ¬Lookalike w

def firstElement (i : Text) {w v : Text} (hw : TakesString w) (rhs : Text → Expand Unit Unit Text)
    (h : runAt (rhs w) () = (.ok v,())) : Setting i w where
  S := Unit
  E := Unit
  W := {probe false false with expandAssignmentRhs := rhs}
  R := ⟨fun _ => pure ['0'],fun _ => pure [],fun _ _ => none,fun _ => false⟩
  name := ['a']
  x := ['x']
  s := ()
  s₁ := ()
  s₂ := ()
  place := .inl 0
  v := v
  mark := false
  valid := by decide
  scalarValid := by decide
  nameref := rfl
  integer := rfl
  names := rfl
  marked := ⟨rfl,rfl,rfl⟩
  value := by
    rw [expandAssignmentWord_of_not_lookalike _ rfl hw.head hw.look (by simp),
      runAt_expandScalarAssignment _ ⟨rfl,rfl,rfl⟩,runAt_scalarAssignment_iff]
    exact h

def onlyText (i : Text) {w : Text} (hw : TakesString w) : Setting i w :=
  firstElement i hw (fun t => if t = w then pure [] else fail []) (congrArg (runAt · ()) (if_pos rfl))

theorem whole_of_same (hi : Subscript i) (hw : TakesString w) (h : (onlyText i hw).Same) : Whole i w := by
  have hs := (onlyText i hw).sign_of_same h
  have hm := (onlyText i hw).metachar_of_same hs h
  have ht : ∀ {w₁ words}, lexWords (element i w) = element i w₁ :: words → trimCompoundValue w₁ = w := by
    intro w₁ words hl
    by_contra hne
    have hf : runAt ((onlyText i hw).W.expandAssignmentRhs (trimCompoundValue w₁)) (onlyText i hw).s₁ = (.error (.other []),()) := by
      simp only [onlyText,firstElement,if_neg hne,runAt_fail]
    rw [Setting.Same,(onlyText i hw).run_list hi hs hm hl,runAt_bind,expandCompoundValue,runAt_bind,hf] at h
    cases h
  rcases lexWords_element hi w with hw | ⟨w₁,words,hln,hl⟩
  · exact ⟨hs,hm,hw,ht hw⟩
  · have hle : (trimCompoundValue w₁).length ≤ w₁.length := by
      unfold trimCompoundValue
      dsimp only
      split_ifs
      · exact le_refl _
      · exact (List.rdropWhile_prefix _ _).length_le
    rw [ht hl] at hle
    omega

/-- A text read as a whole gives the value of a plain assignment exactly if no blank is taken
away; others can fail even without one. -/
theorem element_value_iff (i w : Text) (hi : Subscript i) (hw : TakesString w) :
    (Whole i w → ∀ a : Setting i w, a.Same ↔ a.Keeps) ∧ ((∀ a : Setting i w, a.Keeps → a.Same) ↔ Whole i w) := by
  refine ⟨fun h a => a.same_iff_keeps hi h,fun h => whole_of_same hi hw (h (onlyText i hw) fun _ h => by cases h),fun h a hkeeps => ?_⟩
  exact (a.same_iff_keeps hi h).mpr hkeeps

theorem subscript_zero : Subscript ['0'] := by
  intro w
  have hl : w.length + 3 - w.length - 2 = 1 := by omega
  simp [bracketAssignment,element,closeBracketFrom,hl]

/-- `a=([0]=$(f "b@c"))`: the element is what `x=$(f "b@c")` stores, unless that ends with a blank. -/
theorem element_value_substitution : Whole ['0'] "$(f \"b@c\")" ∧
    ∀ a : Setting ['0'] "$(f \"b@c\")", a.Same ↔ a.v.getLast? ≠ some ' ' := by
  have h : Whole ['0'] "$(f \"b@c\")" := ⟨by decide,by decide,by decide,by decide⟩
  refine ⟨h,fun a => ((element_value_iff ['0'] _ subscript_zero ⟨by decide,by decide +kernel⟩).1 h a).trans ?_⟩
  exact ⟨fun hk => hk (by decide),fun hv _ => hv⟩

/-- `a=([0]="x@ ")`, where only the quotes are removed. -/
def quotedAt : Setting ['0'] "\"x@ \"" := firstElement ['0'] ⟨by decide,by decide +kernel⟩ (fun t => pure (t.filter (· ≠ '"'))) rfl

theorem element_loses_blank : quotedAt.v = "x@ " ∧ ¬quotedAt.Same ∧
    quotedAt.run = (.ok (some (.indexedArray ['a'] [(some 0,"x@")] false)),()) := by
  have h : Whole ['0'] "\"x@ \"" := ⟨by decide,by decide,by decide,by decide⟩
  refine ⟨rfl,?_,?_⟩
  · rw [quotedAt.same_iff_keeps subscript_zero h]
    exact fun hkeeps => hkeeps (by decide) rfl
  · exact quotedAt.run_whole subscript_zero h
end
end Cherubsh.Expander.Assignment
