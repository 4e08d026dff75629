import Cherubsh.Expander.QuotedWords

/-! # The lists `"$@"` and `"${a[@]}"`

Both words become one field for each element, in order and unchanged, for every IFS and all
options, also where an element is empty or holds bytes that the buffer uses as marks.
-/
namespace Cherubsh.Expander.Parameters
open Utf8 Buffer Words Forward ParamScanning List
variable {posix : Bool} {b c : UInt8} {body after : Bytes} {vs : List Text} {inside : Text} {out : ExpandBuf}

section
variable {ext : Extractors} {s : BraceBody}

def isBodyByte (b : UInt8) : Bool :=
  !(b = '\\' || b = '\'' || b = '"' || b = '\x60' || b = '$' || b = '\x7d')

theorem braceStep_bodyByte
    (hb : isBodyByte b) (rest : Bytes) : braceStep ext posix s b rest = .next (s.add [b]) rest := by
  simp only [isBodyByte,Bool.not_eq_true',Bool.or_eq_false_iff,decide_eq_false_iff_not] at hb
  obtain ⟨⟨⟨⟨⟨hbc,hs⟩,hdo⟩,hba⟩,hd⟩,hbr⟩ := hb
  simp [braceStep,appendAnsiCLiteral_of_ne hd,hbc,hs,hdo,hba,hd,hbr]

theorem leads_body (hbo : ∀ b ∈ body, isBodyByte b) (rest : Bytes) :
    Leads (braceStep ext posix) s (body ++ rest) (s.add body) rest := by
  induction body generalizing s with
  | nil => simpa [BraceBody.add] using Leads.here s rest
  | cons b body ih =>
    obtain ⟨hb,hbo⟩ := forall_mem_cons.mp hbo
    refine .round (braceStep_bodyByte hb _) le_rfl ?_
    simpa [BraceBody.add] using ih (s := s.add [b]) hbo

theorem extractBraceBody_plain (posix : Bool) (hb : ∀ b ∈ body, isBodyByte b) (rest : Bytes) :
    extractBraceBody posix (body ++ '\x7d'.toUInt8 :: rest) = .ok (body,rest) := by
  refine run_of_leads_stop (leads_body hb ('\x7d' :: rest)) ?_
  simp +decide [braceStep,appendAnsiCLiteral_of_ne,BraceBody.add]

theorem isBodyByte_of_isNameByte (h : isNameByte b) : isBodyByte b := by
  have ha : ∀ b, isNameByte b → isBodyByte b := forall_byte (by decide +kernel)
  exact ha b h
end

section
theorem isNameByte_of_isValidName {name : Bytes} (h : isValidName name) : ∀ b ∈ name, isNameByte b := by
  cases name with
  | nil => simp
  | cons b rest =>
    simp only [isValidName,Bool.and_eq_true,all_eq_true] at h
    rintro c (_ | ⟨_,hc⟩)
    · simp [isNameByte,h.1]
    · exact h.2 c hc

theorem ne_of_isNameByte (hb : isNameByte b) (hc : isNameByte c = false) : b ≠ c := by
  rintro rfl
  simp [hb] at hc

/-- A subscript that stands for all elements, and the byte in it. -/
inductive AllOf : String → UInt8 → Prop
  | each : AllOf "[@]" '@'
  | joined : AllOf "[*]" '*'

variable {name : Bytes} (hname : isValidName name) {all : String} {c : UInt8} (hall : AllOf all c)

include hname

theorem notMem_of_isValidName (hc : isNameByte c = false) : c ∉ name :=
  fun h => ne_of_isNameByte (isNameByte_of_isValidName hname c h) hc rfl

theorem takeWhile_name (c : UInt8) (hc : isNameByte c = false) (rest : Bytes) :
    (name ++ c :: rest).takeWhile isNameByte = name := by
  rw [takeWhile_append_of_pos (isNameByte_of_isValidName hname),takeWhile_cons_of_neg (by simp [hc]),append_nil]

theorem takeWhile_base (rest : Bytes) : (name ++ '['.toUInt8 :: rest).takeWhile (· ≠ '['.toUInt8) = name := by
  have hne : ∀ b ∈ name, decide (b ≠ '[') := fun b hb => by
    simpa using ne_of_isNameByte (isNameByte_of_isValidName hname b hb) (by decide)
  rw [takeWhile_append_of_pos hne,takeWhile_cons_of_neg (by simp),append_nil]

include hall

omit hname in
theorem AllOf.bytes : asciiBytes all = ['['.toUInt8,c,']'.toUInt8] := by
  cases hall <;> rfl

omit hname in
theorem mem_all : '['.toUInt8 ∈ name ++ asciiBytes all := by simp [hall.bytes]

theorem splitSubscript_all : splitSubscript (name ++ asciiBytes all) = some (name,[c]) := by
  have hb : (name ++ asciiBytes all).takeWhile (· ≠ '['.toUInt8) = name := by
    rw [hall.bytes,takeWhile_base hname]
  have ha : (name ++ asciiBytes all).drop (name.length + 1) = [c,']'.toUInt8] := by
    rw [← drop_drop,drop_left,hall.bytes]
    rfl
  unfold splitSubscript
  rw [if_pos (mem_all hall),hb]
  dsimp only
  rw [ha]
  simp

theorem arrayAllRef_all : arrayAllRef (name ++ asciiBytes all) = some (name,[c]) := by
  have hl : (name ++ asciiBytes all).getLast? = some ']' := by
    rw [List.getLast?_append,hall.bytes]
    rfl
  have hi : isAll [c] := by cases hall <;> decide
  simp [arrayAllRef,splitSubscript_all hname hall,hl,hi]

theorem readName_all (rest : Bytes) : readName (name ++ asciiBytes all ++ rest) = (name ++ asciiBytes all,rest) := by
  have ht : (name ++ asciiBytes all ++ rest).takeWhile isNameByte = name := by
    rw [append_assoc,hall.bytes]
    exact takeWhile_name hname '[' (by decide) _
  have hd : (name ++ asciiBytes all ++ rest).drop name.length = '['.toUInt8 :: c :: ']'.toUInt8 :: rest := by
    rw [append_assoc,drop_left,hall.bytes]
    rfl
  have hs : skipParameterSubscript (c :: ']' :: rest) = rest := by
    cases hall <;> simp +decide [skipParameterSubscript,skipSubscriptFrom] <;> cases rest <;> simp [skipSubscriptFrom]
  unfold readName
  rw [ht]
  dsimp only
  rw [hd,tail_cons,hs,readBetween_append]
  rfl

omit hname in
theorem parseUsize_all : parseUsize (name ++ asciiBytes all) = none := by
  refine if_neg fun h => ?_
  have hd := all_eq_true.mp h.2 '[' (mem_all hall)
  exact absurd hd (by decide)

omit hname in
theorem append_all_ne_singleton (b : UInt8) : name ++ asciiBytes all ≠ [b] := by
  intro h
  have hl := congrArg List.length h
  rw [hall.bytes] at hl
  simp at hl
end

section
variable {S E : Type} (W : Shell S E) {name : Bytes} (hname : isValidName name) {ctx : ExpCtx S}
  {all : String} {c : UInt8} (hall : AllOf all c)

def HoldsList (s : S) (name : Bytes) (vs : List Text) : Prop :=
  ∃ t, target W s name = some t ∧
    ((W.kind s t = .indexed ∧ ∃ pairs, W.getArrayAll s t = some pairs ∧ pairs.map Prod.snd = vs) ∨
      (W.kind s t = .assoc ∧ ∃ pairs, W.assocAll s t = some pairs ∧ pairs.map Prod.snd = vs))

include hname hall in
theorem readValue_all (hvs : HoldsList W ctx.env name vs) :
    readValue W (name ++ asciiBytes all) ctx = .ok (.array vs (decide (c = '*')),ctx) := by
  have hr : readAll W ctx.env name [c] = .array vs (decide (c = '*')) := by
    obtain ⟨t,ht,⟨hk,pairs,hp,rfl⟩ | ⟨hk,pairs,hp,rfl⟩⟩ := hvs <;> simp [readAll,ht,hk,hp]
  have hi : isAll [c] := by cases hall <;> decide
  simp [readValue,specialParam,append_all_ne_singleton hall,parseUsize_all hall,mem_all hall,readSubscripted,
    splitSubscript_all hname hall,hi,hr]

/-- Quoted elements with a mark between two of them. -/
def pushElements (out : ExpandBuf) (vs : List Text) : ExpandBuf :=
  pushEach ExpandBuf.pushFieldSep (fun out v => pushArrayElementValue out (encode v) true false) out vs

theorem bytes_pushElements (out : ExpandBuf) (vs : List Text) :
    (pushElements out vs).bytes = out.bytes ++ write (List.intercalate [.field] (vs.map fun v => quoteText (encode v))) :=
  bytes_pushEach out [.field] (fun v => quoteText (encode v)) (fun _ => rfl)
    (fun out v => bytes_pushArrayElementValue_quoted out (encode v) false) vs

theorem pushArrayValues_quoted (out : ExpandBuf) (vs : List Text) (form : ListForm) (hq : form.quoted)
    (hst : form.star = false) (hs : form.splitFields) : pushArrayValues out vs form = pushElements out vs := by
  simp [pushArrayValues,pushArrayValuesImpl,pushElements,hq,hst,hs]

theorem pushPositional_quoted (hs : ctx.splitFields) (out : ExpandBuf) :
    pushPositional W false true out ctx = .ok (pushElements out (W.positional ctx.env),ctx) := by
  cases ha : ctx.assignInProgress <;> simp [pushPositional,pushElements,hs,ha]

include hname in
theorem pushParameterValue_all (hs : ctx.splitFields) (hvs : HoldsList W ctx.env name vs)
    (out : ExpandBuf) : pushParameterValue W (name ++ "[@]") true out ctx = .ok (pushElements out vs,ctx) := by
  simp +decide [pushParameterValue,readValue_all W hname .each hvs,arrayAllRef_all hname .each,valueSeparator,
    pushArrayValues_quoted out vs (listForm ctx true false _) rfl rfl hs]

variable (inner : Flags → Bool → Bytes → Expand S E ExpandBuf)

include hname in
theorem expandBraceBody_name {rest full : Bytes} (hr : readName (name ++ rest) = (full,after)) (hfu : full ≠ [])
    (quoted : Bool) (out : ExpandBuf) :
    expandBraceBody W inner (name ++ rest) quoted out ctx = operatorOf W inner (name ++ rest) full after quoted out ctx := by
  obtain ⟨b,name',rfl⟩ := exists_cons_of_ne_nil (show name ≠ [] by rintro rfl; simp [isValidName] at hname)
  have hb : isNameByte b := isNameByte_of_isValidName hname b (by simp)
  have hne : ∀ c, isNameByte c = false → b ≠ c := fun c hc => ne_of_isNameByte hb hc
  have hq : ansiCQuotedParameterName (E := E) (W.option ctx.env "extquote") (b :: name' ++ rest) = .ok none := by
    have hf : (asciiBytes "$'").isPrefixOf (b :: (name' ++ rest)) = false := by
      simp +decide [asciiBytes,List.isPrefixOf,(hne '$' (by decide)).symm]
    simp [ansiCQuotedParameterName,hf]
  simp only [cons_append] at *
  simp [expandBraceBody,hne '#' (by decide),hne '!' (by decide),hq,hr,hfu]

def opensCommand (text : Bytes) : Bool := text.head?.any fun b => b = '|'.toUInt8 || isAsciiWhitespace b

omit W in
include hname in
theorem opensCommand_name (rest : Bytes) : opensCommand (name ++ rest) = false := by
  obtain ⟨b,name',rfl⟩ := exists_cons_of_ne_nil (show name ≠ [] by rintro rfl; simp [isValidName] at hname)
  have hall : ∀ b, isNameByte b → (b = '|' || isAsciiWhitespace b) = false := forall_byte (by decide +kernel)
  exact hall b (isNameByte_of_isValidName hname b (by simp))

theorem paramExpand_braces {text : Bytes} (ho : opensCommand text = false)
    (he : extractBraceBody (W.option ctx.env "posix") text = .ok (body,after)) (out : ExpandBuf) :
    paramExpand W inner true ('$' :: '\x7b' :: text) out ctx =
      (expandBraceBody W inner body true out ctx).map fun p => (some (p.1,after),p.2) := by
  unfold opensCommand at ho
  simp only [paramExpand,if_true,map_apply,parameterBraceExpand,ho]
  simp only [bind_apply,get_apply,pure_apply,ok_bind,he,extracted,Bool.true_and,Bool.false_eq_true,if_false]
  cases expandBraceBody W inner body true out ctx <;> rfl

def quotedBraces (inside : Text) : Text := "\"$\x7b" ++ inside ++ "\x7d\""

theorem encode_quotedBraces (inside : Text) :
    encode (quotedBraces inside) = '"'.toUInt8 :: '$'.toUInt8 :: '\x7b'.toUInt8 :: (encode inside ++ "\x7d\"") := by
  have hf : encode "\"$\x7b" = "\"$\x7b" := by decide
  have hb : encode "\x7d\"" = "\x7d\"" := by decide
  rw [quotedBraces,encode_append,encode_append,hf,hb]
  rfl

/-- The braces around the text are those that the scanner finds. -/
def Encloses (posix : Bool) (inside : Bytes) : Prop :=
  extractBraceBody posix (inside ++ "\x7d\"") = .ok (inside,['"'])

theorem encloses_of_body {inside : Bytes} (hb : ∀ b ∈ inside, isBodyByte b) (posix : Bool) : Encloses posix inside :=
  extractBraceBody_plain posix hb ['"']

theorem braceExpand_quotedBraces (hbo : ∀ b ∈ encode inside, isBodyByte b) :
    Braces.braceExpand (encode (quotedBraces inside)) = [encode (quotedBraces inside)] := by
  have hm : ∀ c, isBodyByte c = false → c ∉ encode inside := fun c hc h => by simp [hbo c h] at hc
  have hb : encode (quotedBraces inside) = '"'.toUInt8 ::
      ('$'.toUInt8 :: '\x7b'.toUInt8 :: (encode inside ++ ['\x7d'.toUInt8]) ++ ['"'.toUInt8]) := by
    rw [encode_quotedBraces]
    simp [asciiBytes]
  rw [hb]
  refine braceExpand_quoted ?_ ?_
  · simp [hm '"' (by decide)]
    decide
  · simp [hm '\\' (by decide)]
    decide

theorem expandWordInternal_braces (ho : opensCommand (encode inside ++ "\x7d\"") = false)
    (he : Encloses (W.option ctx.env "posix") (encode inside)) {ctx' : ExpCtx S}
    (hb : expandBraceBody W (expandWordInternal W 31) (encode inside) true .new ctx = .ok (out,ctx')) (noTilde : Bool) :
    expandWordInternal W expansionNestingMax dollarFlags noTilde (encode (quotedBraces inside)) ctx = .ok (out,ctx') := by
  rw [encode_quotedBraces]
  refine expandWord_quoted W.toHost noTilde ?_
  rw [paramExpand_braces W _ ho he,hb]
  rfl

omit W in
include hall in
theorem encode_all (a : Text) : encode (a ++ all.toList) = encode a ++ asciiBytes all := by
  have he : encode all.toList = asciiBytes all := by cases hall <;> decide
  rw [encode_append,he]

omit W in
include hname hall in
theorem isBodyByte_all : ∀ b ∈ name ++ asciiBytes all, isBodyByte b := by
  intro b hb
  obtain hb | hb := mem_append.mp hb
  · exact isBodyByte_of_isNameByte (isNameByte_of_isValidName hname b hb)
  · have hp : ∀ b ∈ asciiBytes all, isBodyByte b := by cases hall <;> decide
    exact hp b hb

def splitting (ctx : ExpCtx S) : ExpCtx S := { ctx with splitFields := true }

include hall

theorem expandWordInternal_positional (text : Text) (ht : encode text = ['"'.toUInt8,'$'.toUInt8,c,'"'.toUInt8])
    (hpu : pushPositional W (c = '*') true .new (splitting ctx) = .ok (out,splitting ctx)) (noTilde : Bool) :
    Braces.braceExpand (encode text) = [encode text] ∧
      expandWordInternal W expansionNestingMax dollarFlags noTilde (encode text) (splitting ctx) = .ok (out,splitting ctx) := by
  have hp : paramExpand W (expandWordInternal W 31) true ['$',c,'"'] .new (splitting ctx) =
      .ok (some (out,['"']),splitting ctx) := by
    have hs : expandSpecial W c true .new (splitting ctx) = .ok (out,splitting ctx) := by
      cases hall <;> exact hpu
    cases hall <;> change (expandSpecial W _ true .new (splitting ctx)).bind _ = _ <;> rw [hs] <;> rfl
  rw [ht]
  refine ⟨?_,expandWord_quoted W.toHost noTilde hp⟩
  cases hall <;> exact @braceExpand_quoted ['$',_] (by decide) (by decide)

theorem expandWordInternal_all {a : Text} (hname : isValidName (encode a))
    (hpu : pushParameterValue W (encode a ++ asciiBytes all) true .new (splitting ctx) = .ok (out,splitting ctx)) (noTilde : Bool) :
    Braces.braceExpand (encode (quotedBraces (a ++ all.toList))) = [encode (quotedBraces (a ++ all.toList))] ∧
      expandWordInternal W expansionNestingMax dollarFlags noTilde (encode (quotedBraces (a ++ all.toList))) (splitting ctx) =
        .ok (out,splitting ctx) := by
  have hb : expandBraceBody W (expandWordInternal W 31) (encode (a ++ all.toList)) true .new (splitting ctx) =
      .ok (out,splitting ctx) := by
    have hr := readName_all hname hall []
    rw [append_nil] at hr
    rw [encode_all hall,expandBraceBody_name W hname _ hr (by simp [hall.bytes])]
    exact hpu
  have hp : ∀ b ∈ encode (a ++ all.toList), isBodyByte b := by
    rw [encode_all hall]
    exact isBodyByte_all hname hall
  have ho : opensCommand (encode (a ++ all.toList) ++ "\x7d\"") = false := by
    rw [encode_all hall,append_assoc]
    exact opensCommand_name hname _
  exact ⟨braceExpand_quotedBraces hp,expandWordInternal_braces W ho (encloses_of_body hp _) hb noTilde⟩

omit hall in
/-- `"$@"` and `"${a[@]}"` become exactly the elements, one field each. -/
theorem quotedLists_exact (flags : ExpandFlags) (hsplit : flags.splitFields) (vs : List Text)
    (hvs : ∀ v ∈ vs, '\x00' ∉ v) :
    (W.positional ctx.env = vs →
      expandWords W [⟨"\"$@\"",dollarFlags⟩] flags ctx = .ok (vs.map fun v => ⟨v,dollarFlags⟩,ctx)) ∧
    ∀ a : Text, isValidName (encode a) → HoldsList W ctx.env (encode a) vs →
      expandWords W [⟨quotedBraces (a ++ "[@]"),dollarFlags⟩] flags ctx = .ok (vs.map fun v => ⟨v,dollarFlags⟩,ctx) := by
  constructor
  · rintro rfl
    have hpush : pushPositional W false true .new (splitting ctx) = _ := pushPositional_quoted W rfl .new
    obtain ⟨hbrace,hinner⟩ := expandWordInternal_positional W .each "\"$@\"" (by decide) hpush flags.noTilde
    exact run_list W.toHost hsplit hbrace hinner hvs (bytes_pushElements .new _)
  · intro a hname hlist
    have hlist : HoldsList W (splitting ctx).env (encode a) vs := hlist
    have hpush := pushParameterValue_all W hname rfl hlist .new
    obtain ⟨hbrace,hinner⟩ := expandWordInternal_all W .each hname hpush flags.noTilde
    exact run_list W.toHost hsplit hbrace hinner hvs (bytes_pushElements .new vs)
end

structure Tables where
  positional : List Text
  scalars : List (Bytes × Text)
  arrays : List (Bytes × List (ℤ × Text))
  options : List String

def tableShell : Shell Tables Unit where
  positional s := s.positional
  option s name := s.options.contains name
  compat52 := false
  tryTilde _ _ := none
  backquote _ _ := throw (.raised ())
  processSubst _ _ := throw (.raised ())
  localeQuote _ _ := throw (.raised ())
  pathnameExpand _ := throw (.raised ())
  kind s name :=
    if (s.arrays.lookup name).isSome then .indexed else if (s.scalars.lookup name).isSome then .scalar else .unset
  nameref _ _ := false
  resolveNameref _ name := some name
  namerefTarget _ _ := none
  get s name := s.scalars.lookup name
  getArrayIndexed s name i := (s.arrays.lookup name).bind fun pairs => pairs.lookup i
  getArrayAssoc _ _ _ := none
  getArrayAll s name := s.arrays.lookup name
  assocAll _ _ := none
  arrayKeys s name := (s.arrays.lookup name).map fun pairs => pairs.map Prod.fst
  assocKeys _ _ := none
  arrayLen s name := ((s.arrays.lookup name).map List.length).getD 0
  assocLen _ _ := 0
  namesWith _ _ := []
  zero _ := none
  lastStatus _ := "0"
  shellPid _ := "1"
  optionFlags _ := []
  lastAsyncPid _ := none
  toUppercase := List.map Char.toUpper
  toLowercase := List.map Char.toLower
  readElement _ := throw (.raised ())
  readElementIfSet _ := throw (.raised ())
  substitution _ _ _ := throw (.raised ())
  currentSubst _ _ _ := throw (.raised ())
  other _ _ _ := throw (.raised ())

def Tables.ctx (s : Tables) (ifs : Option String) : ExpCtx Tables where
  env := s
  ifsValue := ifs.map String.toList
  splitFields := true
  assignInProgress := false
  paramRhsNosplit := false
  evalUnboundError := false

def commandFlags : ExpandFlags := ⟨true,true,false,false⟩

/-- Three elements, of which one is empty and one holds the marks of the buffer, with a colon in IFS. -/
theorem quotedLists_exact_three :
    let vs := ["a:b".toList,[],"\x01*\x7f\x1e"]
    let ctx := Tables.ctx ⟨vs,[],[([0x61],[(0,"a:b"),(2,[]),(5,"\x01*\x7f\x1e")])],[]⟩ (some ":")
    expandWords tableShell [⟨"\"$@\"",dollarFlags⟩] commandFlags ctx = .ok (vs.map fun v => ⟨v,dollarFlags⟩,ctx) ∧
    expandWords tableShell [⟨quotedBraces "a[@]",dollarFlags⟩] commandFlags ctx =
      .ok (vs.map fun v => ⟨v,dollarFlags⟩,ctx) := by
  intro vs ctx
  have hexact := @quotedLists_exact Tables Unit tableShell ctx commandFlags rfl vs (by decide)
  exact ⟨hexact.1 rfl,hexact.2 ['a'] (by decide) ⟨[0x61],rfl,.inl ⟨rfl,_,rfl,rfl⟩⟩⟩
end Cherubsh.Expander.Parameters
