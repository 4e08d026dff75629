import Cherubsh.Expander.ArrayFields
import Cherubsh.Expander.NulFree

/-! # Operators on the elements of an array, `"${a[@]OP}"`

Most operators change every element as they change a scalar, and leave one field for each.
The transformations `@U`, `@L` and `@u` read all the elements joined into one text instead.
-/
namespace Cherubsh.Expander.Parameters
open Utf8 Split Buffer ShellString Words List
open ParamScanning (asciiBytes isNameStart isNameByte isDigit)
open Pattern (CaseModMode)
variable {op rest name : Bytes} {kind : UInt8} {text v n : Text} {vs : List Text}

section
variable {S E : Type} (W : Shell S E) {ctx : ExpCtx S} {name : Bytes} {v : Text}

structure HoldsScalar (s : S) (name : Bytes) (v : Text) : Prop where
  valid : isValidName name
  nameref : W.nameref s name = false
  kind : W.kind s name = .scalar
  get : W.get s name = some v

variable (hname : isValidName name)
include hname

theorem isNameStart_head : ∃ b rest, name = b :: rest ∧ isNameStart b := by
  cases name with
  | nil => simp [isValidName] at hname
  | cons b rest => exact ⟨b,rest,rfl,by simp_all [isValidName]⟩

theorem ne_singleton_of_isValidName {c : UInt8} (hc : isNameStart c = false) : name ≠ [c] := by
  obtain ⟨b,rest,rfl,hb⟩ := isNameStart_head hname
  rintro ⟨⟩
  simp [hb] at hc

theorem parseUsize_name : parseUsize name = none := by
  obtain ⟨b,rest,rfl,hb⟩ := isNameStart_head hname
  have hd : ∀ b, isNameStart b → isDigit b = false := forall_byte (by decide +kernel)
  simp [parseUsize,hd b hb]

omit hname

theorem specialParam_name (s : S) (hname : isValidName name) : specialParam W s name = none := by
  have hne : ∀ c, isNameStart c = false → name ≠ [c] := fun c => ne_singleton_of_isValidName hname
  simp [specialParam,hne '?' (by decide),hne '#' (by decide),hne '$' (by decide),
    hne '!' (by decide),hne '-' (by decide),hne '0' (by decide)]

variable {W} (h : HoldsScalar W ctx.env name v)
include h

theorem readValue_scalar : readValue W name ctx = .ok (.scalar v,ctx) := by
  have hne : ∀ c, isNameStart c = false → name ≠ [c] := fun c => ne_singleton_of_isValidName h.valid
  have hm := notMem_of_isValidName h.valid (c := '[') (by decide)
  simp [readValue,hne '@' (by decide),hne '*' (by decide),hne '!' (by decide),specialParam_name W _ h.valid,
    parseUsize_name h.valid,hm,target,resolve,h.nameref,readPlain,h.kind,h.get,bound]

theorem readScalar_scalar : readScalar W name ctx = .ok (v,ctx) := by
  have hne := ne_singleton_of_isValidName h.valid (c := '!') (by decide)
  have hm := notMem_of_isValidName h.valid (c := '[') (by decide)
  simp [readScalar,hne,specialParam_name W _ h.valid,parseUsize_name h.valid,hm,target,resolve,h.nameref,readPlain,h.kind,
    h.get,bound]

theorem parameterIsSet_scalar : parameterIsSet W ctx.env name ctx = .ok (true,ctx) := by
  have hne : ∀ c, isNameStart c = false → name ≠ [c] := fun c => ne_singleton_of_isValidName h.valid
  have hm := notMem_of_isValidName h.valid (c := '[') (by decide)
  simp [parameterIsSet,hne '@' (by decide),hne '*' (by decide),hne '!' (by decide),
    hne '?' (by decide),hne '#' (by decide),hne '$' (by decide),hne '-' (by decide),
    parseUsize_name h.valid,arrayAllRef,splitSubscript,hm,resolve,h.nameref,h.kind,h.get]
end

section
variable {S E : Type} {W : Shell S E} {ctx : ExpCtx S} {name : Bytes} (hname : isValidName name) {vs : List Text}
  (hvs : HoldsList W ctx.env name vs)

theorem resolve_of_target {s : S} {t : Bytes} (h : target W s name = some t) : (resolve W s name).getD name = t := by
  unfold target at h
  cases hr : resolve W s name with
  | some t' => simpa [hr] using h
  | none => simp_all [resolve]

include hname hvs

theorem readScalar_all : readScalar W (name ++ "[@]") ctx =
    .ok (joinTexts (Char.ofNat ((joinSeparator ctx.ifsValue).getD 0x20).toNat) vs,ctx) := by
  have hm : '['.toUInt8 ∈ name ++ "[@]" := mem_append_right _ (by decide)
  have hj : joinArray W ctx.env name ((joinSeparator ctx.ifsValue).getD 0x20) =
      joinTexts (Char.ofNat ((joinSeparator ctx.ifsValue).getD 0x20).toNat) vs := by
    obtain ⟨t,ht,⟨hk,pairs,hall,rfl⟩ | ⟨hk,pairs,hall,rfl⟩⟩ := hvs <;> simp [joinArray,resolve_of_target ht,hk,hall]
  simp [readScalar,specialParam,append_all_ne_singleton .each,parseUsize_all .each,hm,readScalarSubscripted,
    splitSubscript_all hname .each,
    isAll,hj]

theorem parameterIsSet_all (ha : ∀ s name pairs, W.getArrayAll s name = some pairs → W.arrayLen s name = pairs.length)
    (hao : ∀ s name pairs, W.assocAll s name = some pairs → W.assocLen s name = pairs.length) :
    parameterIsSet W ctx.env (name ++ "[@]") ctx = .ok (decide (vs ≠ []),ctx) := by
  obtain ⟨t,ht,⟨hk,pairs,hall,rfl⟩ | ⟨hk,pairs,hall,rfl⟩⟩ := hvs
  · simp [parameterIsSet,append_all_ne_singleton .each,parseUsize_all .each,arrayAllRef_all hname .each,resolve_of_target ht,hk,
      ha _ _ _ hall,length_pos_iff]
  · simp [parameterIsSet,append_all_ne_singleton .each,parseUsize_all .each,arrayAllRef_all hname .each,resolve_of_target ht,hk,
      hao _ _ _ hall,length_pos_iff]
end

section
variable {S E : Type} (W : Shell S E)

def operatorWords : Bytes → List Bytes
  | [] => []
  | b :: rest =>
    if b = '@' then []
    else if b = '/' then [(splitPatsub rest).2.1,(splitPatsub rest).2.2]
    else [if rest.head? = some b then rest.drop 1 else rest]

/-- The elements of the array, and scalars that hold one of them each. -/
structure Elements (a : Bytes) (xs : List Bytes) (vs : List Text) (s : S) : Prop where
  valid : isValidName a
  list : HoldsList W s a vs
  scalars : List.Forall₂ (HoldsScalar W s) xs vs

/-- A word of the operator is expanded from here to there, and the variables stay. -/
def Expands (P : S → Prop) (raw : Bytes) (ctx : ExpCtx S) (buf : ExpandBuf) (ctx' : ExpCtx S) : Prop :=
  expandWordString (expandWordInternal W 31) (asText raw) false ctx = .ok (buf,ctx') ∧ P ctx'.env

/-- The words of the operator can be expanded where a run comes to them, a replacement without a NUL. -/
def Expandable (P : S → Prop) (op : Bytes) (ctx : ExpCtx S) : Prop :=
  ∀ pattern more, operatorWords op = pattern :: more →
    ∃ buf ctx₁, Expands W P pattern { ctx with splitFields := false } buf ctx₁ ∧ ∀ replacement ∈ more,
      ∃ template ctx₂, Expands W P replacement { ctx₁ with splitFields := ctx.splitFields } template ctx₂ ∧
        ctx₂.splitFields = ctx.splitFields ∧ NulFreeTemplate template.bytes

structure Lawful : Prop where
  arrayLen : ∀ s name pairs, W.getArrayAll s name = some pairs → W.arrayLen s name = pairs.length
  assocLen : ∀ s name pairs, W.assocAll s name = some pairs → W.assocLen s name = pairs.length
  toUppercase : ∀ v, '\x00' ∉ v → '\x00' ∉ W.toUppercase v
  toLowercase : ∀ v, '\x00' ∉ v → '\x00' ∉ W.toLowercase v

variable {W} {P : S → Prop} {ctx : ExpCtx S}

theorem expandPattern_ok {raw : Bytes} {buf : ExpandBuf} {ctx₁ : ExpCtx S}
    (h : Expands W P raw { ctx with splitFields := false } buf ctx₁) :
    expandPattern (expandWordInternal W 31) raw ctx = .ok (buf.bytes,{ ctx₁ with splitFields := ctx.splitFields }) := by
  simp [expandPattern,h.1]

/-- What an operator does to a value, after its words are expanded. -/
def Changes (W : Shell S E) (P : S → Prop) (op : Bytes) (ctx : ExpCtx S) (g : Text → Text) (ctx' : ExpCtx S) : Prop :=
  ∀ body name value, name ≠ ['#'.toUInt8] → isElement name = false →
    (∀ c : ExpCtx S, P c.env → readValue W name c = .ok (value,c)) →
    (∀ c : ExpCtx S, P c.env → parameterIsSet W c.env name c = .ok (decide (value ≠ .array [] false),c)) →
    operatorOf W (expandWordInternal W 31) body name op true .new ctx =
      .ok (pushValueBuf ctx' .new (transformStringValue g value) true (joinSeparator ctx'.ifsValue),ctx')

def isElementOperator (op : Bytes) : Bool :=
  match op with
  | [] => false
  | b :: rest =>
    b = '#' || b = '%' || b = '/' || b = '^' || b = ',' ||
      (b = '@' && (rest = ['Q'.toUInt8] || rest = ['E'.toUInt8]))

def removed (pattern : Bytes) (prefixed longest : Bool) (opts : Pattern.GlobOpts) : Bytes → Bytes :=
  if (literalPattern pattern opts).isSome then fun s => literalRemove s pattern prefixed
  else fun s => Pattern.removePattern s pattern prefixed longest opts

theorem zero_notMem_removed {s : Bytes} (hs : 0 ∉ s) (pattern : Bytes) (prefixed longest : Bool) (opts : Pattern.GlobOpts) :
    0 ∉ removed pattern prefixed longest opts s := by
  unfold removed
  split
  · exact zero_notMem_literalRemove hs _ _
  · exact zero_notMem_removePattern hs _ _ _ _

section
variable {inner : Flags → Bool → Bytes → Expand S E ExpandBuf} {name : Bytes} {value : ValueRepr} {pattern : Bytes}
  {ctx' : ExpCtx S} (out : ExpandBuf)

theorem handleRemove_quoted {patRaw : Bytes} (hru : expandPattern inner patRaw ctx = .ok (pattern,ctx'))
    (hr : readValue W name ctx' = .ok (value,ctx')) (prefixed longest : Bool) :
    handleRemove W inner name patRaw prefixed longest true out ctx = .ok (pushValueBuf ctx' out
      (transformValue (removed pattern prefixed longest { patternMatchOpts W ctx.env with nocaseglob := false }) value) true
      (joinSeparator ctx'.ifsValue),ctx') := by
  simp [handleRemove,plainBytes,hru,hr,pushResult,removed]

theorem handleCasemod_quoted {patRaw : Bytes} {pat : Option Bytes}
    (hr : (patRaw = [] ∧ pat = none ∧ ctx' = ctx) ∨ (patRaw ≠ [] ∧ ∃ p, pat = some p ∧ expandPattern inner patRaw ctx = .ok (p,ctx')))
    (hre : readValue W name ctx' = .ok (value,ctx')) (mode : CaseModMode) :
    handleCasemod W inner name patRaw mode true out ctx = .ok (pushValueBuf ctx' out
      (transformValue (fun s => Pattern.casemod s pat mode { patternMatchOpts W ctx'.env with nocaseglob := false }) value) true
      (joinSeparator ctx'.ifsValue),ctx') := by
  obtain ⟨rfl,rfl,rfl⟩ | ⟨hne,p,rfl,hr⟩ := hr
  · simp [handleCasemod,hre,pushResult]
  · simp [handleCasemod,hne,hr,hre,pushResult]

theorem handlePatsub_quoted {ctx₁ : ExpCtx S} {buf : ExpandBuf}
    (hru : expandPattern inner (splitPatsub rest).2.1 ctx = .ok (pattern,ctx₁))
    (hre : expandWordString inner (asText (splitPatsub rest).2.2) false ctx₁ = .ok (buf,ctx'))
    (hr : readValue W name ctx' = .ok (value,ctx')) :
    handlePatsub W inner name rest true out ctx = .ok (pushValueBuf ctx' out
      (transformValue (substituted (W.option ctx.env "patsub_replacement") pattern buf.bytes (splitPatsub rest).1
        (patternMatchOpts W ctx.env)) value) true (joinSeparator ctx'.ifsValue),ctx') := by
  simp [handlePatsub,plainBytes,hru,hre,hr,pushResult]
end

/-- The operator is applied to the elements one by one. -/
def Applies (W : Shell S E) (P : S → Prop) (op : Bytes) (ctx : ExpCtx S) : Prop :=
  ∃ g ctx', Changes W P op ctx g ctx' ∧ P ctx'.env ∧ ctx'.splitFields = ctx.splitFields ∧
    ∀ v, 0 ∉ shellStringToBytes v → '\x00' ∉ g v

section
variable {b : UInt8} {rest : Bytes} (hwords : Expandable W P (b :: rest) ctx)
include hwords

theorem applies_remove (hb : b = '#' ∨ b = '%') : Applies W P (b :: rest) ctx := by
  have hra : operatorWords (b :: rest) = [if rest.head? = some b then rest.drop 1 else rest] := by
    obtain rfl | rfl := hb <;> simp +decide [operatorWords]
  obtain ⟨buf,ctx₁,hpattern,-⟩ := hwords _ _ hra
  have hru := expandPattern_ok hpattern
  refine ⟨transformText (removed buf.bytes (b = '#') (rest.head? = some b)
    { patternMatchOpts W ctx.env with nocaseglob := false }),{ ctx₁ with splitFields := ctx.splitFields },
    fun body name value hname _ hr _ => ?_,hpattern.2,rfl,fun v hv =>
    nul_notMem_transformText (fun s hs => zero_notMem_removed hs _ _ _ _) hv⟩
  have hh := handleRemove_quoted .new hru (hr _ hpattern.2) (b = '#') (rest.head? = some b)
  obtain rfl | rfl := hb <;> simp +decide only [operatorOf,applyOperator,hname] <;> exact hh

theorem applies_patsub (hb : b = '/') : Applies W P (b :: rest) ctx := by
  subst hb
  obtain ⟨buf,ctx₁,hpattern,hmore⟩ := hwords (splitPatsub rest).2.1 [(splitPatsub rest).2.2] rfl
  obtain ⟨template,ctx₂,hreplacement,hsplit,hnul⟩ := hmore _ (mem_singleton_self _)
  refine ⟨transformText (substituted (W.option ctx.env "patsub_replacement") buf.bytes template.bytes (splitPatsub rest).1
    (patternMatchOpts W ctx.env)),ctx₂,fun body name value hname _ hre _ => ?_,hreplacement.2,hsplit,fun v hv =>
    nul_notMem_transformText (fun s hs => zero_notMem_substituted hs hnul _ _ _ _) hv⟩
  have hh := handlePatsub_quoted .new (expandPattern_ok hpattern) hreplacement.1 (hre ctx₂ hreplacement.2)
  simp +decide only [operatorOf,applyOperator,hname]
  exact hh

theorem applies_casemod (hP : P ctx.env) (hb : b = '^' ∨ b = ',') : Applies W P (b :: rest) ctx := by
  set after := if rest.head? = some b then rest.drop 1 else rest with ha
  have hra : operatorWords (b :: rest) = [after] := by
    obtain rfl | rfl := hb <;> simp +decide [operatorWords,ha]
  obtain ⟨pat,ctx',hru,hP',hsplit⟩ : ∃ pat ctx', ((after = [] ∧ pat = none ∧ ctx' = ctx) ∨
      (after ≠ [] ∧ ∃ p, pat = some p ∧ expandPattern (expandWordInternal W 31) after ctx = .ok (p,ctx'))) ∧ P ctx'.env ∧
      ctx'.splitFields = ctx.splitFields := by
    by_cases he : after = []
    · exact ⟨none,ctx,.inl ⟨he,rfl,rfl⟩,hP,rfl⟩
    · obtain ⟨buf,ctx₁,hpattern,-⟩ := hwords _ _ hra
      exact ⟨some buf.bytes,_,.inr ⟨he,_,rfl,expandPattern_ok hpattern⟩,hpattern.2,rfl⟩
  have hh := fun name value mode hr => @handleCasemod_quoted S E W ctx _ name value ctx' .new after pat hru hr mode
  have hap : ∀ mode, (∀ body name out, name ≠ ['#'.toUInt8] →
      operatorOf W (expandWordInternal W 31) body name (b :: rest) true out =
        handleCasemod W (expandWordInternal W 31) name after mode true out) → Applies W P (b :: rest) ctx := fun mode hm =>
    ⟨transformText fun s => Pattern.casemod s pat mode { patternMatchOpts W ctx'.env with nocaseglob := false },ctx',
      fun body name value hname _ hr _ => by rw [hm body name .new hname]; exact hh name value mode (hr ctx' hP'),
      hP',hsplit,fun v hv => nul_notMem_transformText (fun s hs => zero_notMem_casemod hs _ _ _) hv⟩
  obtain rfl | rfl := hb
  · refine hap (if rest.head? = some '^'.toUInt8 then .upperAll else .upperFirst) fun body name out hname => ?_
    simp +decide [operatorOf,applyOperator,hname,ha]
  · refine hap (if rest.head? = some ','.toUInt8 then .lowerAll else .lowerFirst) fun body name out hname => ?_
    simp +decide [operatorOf,applyOperator,hname,ha]
end

theorem applies_quote (kind : UInt8) (hk : kind = 'Q' ∨ kind = 'E') (hP : P ctx.env) :
    Applies W P ['@',kind] ctx := by
  set g : Text → Text := if kind = 'Q' then shellQuoteShellString else transformText (Quote.ansiCDecodeForLocale none)
    with hg
  have hq : ∀ value, quoteTransform kind value = transformStringValue g value := fun value => by
    rw [quoteTransform,hg]
    split <;> rfl
  refine ⟨g,ctx,fun body name value hname he hr hse => ?_,hP,rfl,fun v hv => ?_⟩
  · have hh : handleTransform W name [kind] true .new ctx = .ok (pushValueBuf ctx .new (transformStringValue g value) true
        (joinSeparator ctx.ifsValue),ctx) := by
      by_cases hem : value = .array [] false
      · subst hem
        have hn : pushValueBuf ctx .new (transformStringValue g (.array [] false)) true (joinSeparator ctx.ifsValue) = .new := by
          simp [pushValueBuf,transformStringValue,pushArrayValues,pushArrayValuesImpl,pushEach,listForm]
        obtain rfl | rfl := hk <;> simp +decide [handleTransform,he,hse ctx hP,hn]
      · obtain rfl | rfl := hk <;>
          simp +decide [handleTransform,he,hse ctx hP,hem,hr ctx hP,pushResult,hq]
    simp +decide only [operatorOf,applyOperator,hname]
    exact hh
  · rw [hg]
    split
    · exact nul_notMem_shellQuoteShellString v
    · exact nul_notMem_transformText (fun s hs => zero_notMem_ansiCDecodeWith _ hs) hv

theorem exists_applies {op : Bytes} (hop : isElementOperator op) (hwords : Expandable W P op ctx) (hP : P ctx.env) :
    Applies W P op ctx := by
  cases op with
  | nil => simp [isElementOperator] at hop
  | cons b rest =>
    simp only [isElementOperator,Bool.or_eq_true,Bool.and_eq_true,decide_eq_true_eq] at hop
    obtain ((((hb | hb) | hb) | hb) | hb) | ⟨rfl,rfl | rfl⟩ := hop
    · exact applies_remove hwords (.inl hb)
    · exact applies_remove hwords (.inr hb)
    · exact applies_patsub hwords hb
    · exact applies_casemod hwords hP (.inl hb)
    · exact applies_casemod hwords hP (.inr hb)
    · exact applies_quote _ (.inl rfl) hP
    · exact applies_quote _ (.inr rfl) hP
end

section
variable {S E : Type} (W : Shell S E) {ctx : ExpCtx S} {flags : ExpandFlags}

/-- `@U`, `@L` and `@u`, which read the elements joined into one text. -/
def joinsElements (op : Bytes) : Bool := op = "@U" || op = "@L" || op = "@u"

def operatorWord (name op : Text) : WordDesc := ⟨quotedBraces (name ++ op),dollarFlags⟩

/-- The word in braces is read as a whole: its braces enclose the text, and it has no list in braces. -/
structure Whole (ctx : ExpCtx S) (inside : Text) : Prop where
  encloses : Encloses (W.option ctx.env "posix") (encode inside)
  braces : Braces.braceExpand (encode (quotedBraces inside)) = [encode (quotedBraces inside)]

/-- One field for each element, namely what the scalar that holds the element gives. -/
def ElementWise (flags : ExpandFlags) (ctx : ExpCtx S) (a : Text) (xs : List Text) (op : Text) : Prop :=
  ∃ ws ctx', expandWords W [operatorWord (a ++ "[@]") op] flags ctx = .ok (ws,ctx') ∧
    List.Forall₂ (fun x w => expandWords W [operatorWord x op] flags ctx = .ok ([w],ctx')) xs ws

/-- The bytes that may follow a name. -/
def EndsName (op : Bytes) : Prop := ∃ b rest, op = b :: rest ∧ isNameByte b = false ∧ b ≠ '['

theorem endsName_of_operator (hop : isElementOperator op ∨ joinsElements op) : EndsName op := by
  obtain h | h := hop
  · cases op with
    | nil => simp [isElementOperator] at h
    | cons b rest =>
      simp only [isElementOperator,Bool.or_eq_true,Bool.and_eq_true,decide_eq_true_eq] at h
      refine ⟨b,rest,rfl,?_⟩
      obtain ((((rfl | rfl) | rfl) | rfl) | rfl) | ⟨rfl,-⟩ := h <;> decide
  · simp only [joinsElements,Bool.or_eq_true,decide_eq_true_eq] at h
    obtain (rfl | rfl) | rfl := h <;> exact ⟨_,_,rfl,by decide⟩

variable {name op : Bytes} (hname : isValidName name) (hop : EndsName op)
include hname hop

omit W in
theorem readName_name : readName (name ++ op) = (name,op) := by
  obtain ⟨b,rest,rfl,hb,hbr⟩ := hop
  have hne : name ≠ [] := by rintro rfl; simp [isValidName] at hname
  have hl := takeWhile_name hname b hb rest
  simp [readName,hl,hbr,hne]

theorem expandBraceBody_operator (inner : Flags → Bool → Bytes → Expand S E ExpandBuf) (c : ExpCtx S) :
    expandBraceBody W inner (name ++ op) true .new c = operatorOf W inner (name ++ op) name op true .new c :=
  expandBraceBody_name W hname inner (readName_name hname hop) (by rintro rfl; simp [isValidName] at hname) true .new

omit hop in
theorem expandBraceBody_operator_all (op : Bytes) (inner : Flags → Bool → Bytes → Expand S E ExpandBuf) (c : ExpCtx S) :
    expandBraceBody W inner (name ++ "[@]" ++ op) true .new c =
      operatorOf W inner (name ++ "[@]" ++ op) (name ++ "[@]") op true .new c := by
  have hr := readName_all hname .each op
  rw [append_assoc] at hr ⊢
  exact expandBraceBody_name W hname inner hr (by simp [asciiBytes]) true .new
end

section
variable {S E : Type} {W : Shell S E} {ctx : ExpCtx S}

def isCaseKind (kind : UInt8) : Prop := kind = 'U' ∨ kind = 'L' ∨ kind = 'u'

theorem operatorOf_case (hk : isCaseKind kind)
    (hr : readScalar W name ctx = .ok (text,ctx)) (inner : Flags → Bool → Bytes → Expand S E ExpandBuf) (body : Bytes) :
    operatorOf W inner body name ['@',kind] true .new ctx =
      .ok (pushValue .new (encode (caseTransform W kind text)) true,ctx) := by
  obtain rfl | rfl | rfl := hk <;>
    simp +decide [operatorOf,applyOperator,handleTransform,hr]

theorem eq_nul_of_toUpper {c : Char} (h : c.toUpper = '\x00') : c = '\x00' := by
  unfold Char.toUpper at h
  split at h
  · rename_i hc
    have hv : (c.val + ('A'.val - 'a'.val)).toNat = 0 := congrArg (fun c => c.val.toNat) h
    have hl : 97 ≤ c.val.toNat := hc.1
    have hh : c.val.toNat ≤ 122 := hc.2
    rw [UInt32.toNat_add,show ('A'.val - 'a'.val).toNat = 4294967264 from rfl] at hv
    omega
  · exact h

theorem nul_notMem_caseTransform (hW : Lawful W) (kind : UInt8) (hv : '\x00' ∉ v) : '\x00' ∉ caseTransform W kind v := by
  unfold caseTransform
  split_ifs
  · exact hW.toUppercase v hv
  · exact hW.toLowercase v hv
  · cases v with
    | nil => exact hv
    | cons c v =>
      simp only [upperFirst,mem_cons,not_or] at hv ⊢
      exact ⟨fun h => hv.1 (eq_nul_of_toUpper h.symm).symm,hv.2⟩

theorem nul_notMem_joinTexts {sep : Char} (hs : sep ≠ '\x00') (hvs : ∀ v ∈ vs, '\x00' ∉ v) :
    '\x00' ∉ joinTexts sep vs := by
  cases vs with
  | nil => simp [joinTexts]
  | cons v vs =>
    simp only [joinTexts,mem_append,mem_flatMap,mem_cons,not_or,not_exists,not_and]
    exact ⟨hvs v (by simp),fun w hw => ⟨hs.symm,hvs w (by simp [hw])⟩⟩

theorem separator_ne_nul {ifs : Option Text} (hi : 0 ∉ ifsBytes ifs) : Char.ofNat ((joinSeparator ifs).getD 0x20).toNat ≠ '\x00' := by
  have hs : (joinSeparator ifs).getD 0x20 ≠ 0 := by
    match ifs with
    | none | some [] => decide
    | some (c :: v) =>
      intro h
      change (shellStringToBytes (c :: v)).head?.getD 0x20 = 0 at h
      cases hb : shellStringToBytes (c :: v) with
      | nil => simp [hb] at h
      | cons b rest => exact hi (by rw [ifsBytes,hb]; simp_all)
  have hall : ∀ b : UInt8, b ≠ 0 → Char.ofNat b.toNat ≠ '\x00' := forall_byte (by decide +kernel)
  exact hall _ hs

theorem nul_notMem_of_bytes (h : 0 ∉ shellStringToBytes v) : '\x00' ∉ v :=
  fun hm => h (mem_flatMap.mpr ⟨'\x00',hm,by decide⟩)
end

section
variable {S E : Type} {W : Shell S E} {ctx : ExpCtx S} {flags : ExpandFlags} (hsplit : flags.splitFields)
include hsplit

theorem expandWords_operator {op : Text} (hname : ∃ name rest, encode (n ++ op) = name ++ rest ∧ isValidName name)
    (hw : Whole W ctx (n ++ op)) {out : ExpandBuf} {ctx' : ExpCtx S}
    (hb : expandBraceBody W (expandWordInternal W 31) (encode (n ++ op)) true .new (splitting ctx) = .ok (out,ctx'))
    (hvs : ∀ v ∈ vs, '\x00' ∉ v) (hou : out.bytes = write (List.intercalate [.field] (vs.map fun v => quoteText (encode v)))) :
    expandWords W [operatorWord n op] flags ctx =
      .ok (vs.map fun v => ⟨v,dollarFlags⟩,{ ctx' with splitFields := ctx.splitFields }) := by
  obtain ⟨name,rest,hen,hv⟩ := hname
  have ho : opensCommand (encode (n ++ op) ++ "\x7d\"") = false := by
    rw [hen,append_assoc]
    exact opensCommand_name hv _
  have he : Encloses (W.option (splitting ctx).env "posix") (encode (n ++ op)) := hw.encloses
  exact run_list W.toHost hsplit hw.braces (expandWordInternal_braces W ho he hb flags.noTilde) hvs hou

variable {a : Text} {xs vs : List Text} (h : Elements W (encode a) (xs.map encode) vs ctx.env) {op : Text}
  (hends : EndsName (encode op)) (hall : Whole W ctx (a ++ "[@]" ++ op)) (heach : ∀ x ∈ xs, Whole W ctx (x ++ op))
  (hnul : ∀ v ∈ vs, 0 ∉ shellStringToBytes v)
include h hends hall heach hnul

theorem elementWise_of_applies (ha : Applies W (Elements W (encode a) (xs.map encode) vs) (encode op) (splitting ctx))
    (hW : Lawful W) : ElementWise W flags ctx a xs op := by
  obtain ⟨g,ctx',hch,hP',hsplit',hg⟩ := ha
  refine ⟨vs.map fun v => ⟨g v,dollarFlags⟩,{ ctx' with splitFields := ctx.splitFields },?_,?_⟩
  · have he : encode (a ++ "[@]" ++ op) = encode a ++ "[@]" ++ encode op := by
      rw [encode_append,encode_all .each]
    have hb := expandBraceBody_operator_all W h.valid (encode op) (expandWordInternal W 31) (splitting ctx)
    rw [hch _ _ (.array vs false) (append_all_ne_singleton .each _) (by simp [isElement,splitSubscript_all h.valid .each,isAll])
      (fun c hc => readValue_all W hc.valid .each hc.list)
      (fun c hc => by simpa using parameterIsSet_all hc.valid hc.list hW.arrayLen hW.assocLen),← he] at hb
    have ho : (pushValueBuf ctx' .new (transformStringValue g (.array vs false)) true (joinSeparator ctx'.ifsValue)).bytes =
        write (List.intercalate [.field] ((vs.map g).map fun v => quoteText (encode v))) := by
      change (pushArrayValues .new (vs.map g) (listForm ctx' true false _)).bytes = _
      rw [pushArrayValues_quoted .new (vs.map g) (listForm ctx' true false _) rfl rfl hsplit',bytes_pushElements]
      rfl
    have hwords := expandWords_operator hsplit ⟨encode a,"[@]" ++ encode op,by rw [he,append_assoc],h.valid⟩ hall
      hb (by simpa using fun v hv => hg v (hnul v hv)) ho
    simpa [Function.comp_def] using hwords
  · rw [List.forall₂_map_right_iff,List.forall₂_iff_zip]
    refine ⟨by simpa using h.scalars.length_eq,fun {x v} hm => ?_⟩
    have hs : ∀ c : ExpCtx S, Elements W (encode a) (xs.map encode) vs c.env → HoldsScalar W c.env (encode x) v := by
      intro c hc
      refine (List.forall₂_iff_zip.mp hc.scalars).2 ?_
      rw [zip_map_left]
      exact mem_map.mpr ⟨(x,v),hm,rfl⟩
    have hva := (hs ctx h).valid
    have hb := expandBraceBody_operator W hva hends (expandWordInternal W 31) (splitting ctx)
    have hbr := notMem_of_isValidName hva (c := '[') (by decide)
    rw [hch _ _ (.scalar v) (ne_singleton_of_isValidName hva (by decide)) (by simp [isElement,splitSubscript,hbr])
      (fun c hc => readValue_scalar (hs c hc)) (fun c hc => by simpa using parameterIsSet_scalar (hs c hc)),
      ← encode_append] at hb
    have hx := of_mem_zip hm
    have hnul : ∀ w ∈ [g v], '\x00' ∉ w := by simpa using hg v (hnul v hx.2)
    exact expandWords_operator hsplit ⟨encode x,encode op,encode_append x op,hva⟩ (heach x hx.1) hb hnul
      (by simp [pushValueBuf,transformStringValue,bytes_pushValue_quoted,ExpandBuf.new])

omit h hends hall heach hnul in
theorem expandWords_case (hW : Lawful W) (hk : isCaseKind kind) (hop : encode op = ['@'.toUInt8,kind])
    (he : encode (n ++ op) = name ++ rest) (hv : isValidName name)
    (hw : Whole W ctx (n ++ op)) (ht : '\x00' ∉ text)
    (hb : ∀ c : ExpCtx S, expandBraceBody W (expandWordInternal W 31) (encode (n ++ op)) true .new c =
      operatorOf W (expandWordInternal W 31) (encode (n ++ op)) (encode n) (encode op) true .new c)
    (hre : readScalar W (encode n) (splitting ctx) = .ok (text,splitting ctx)) :
    expandWords W [operatorWord n op] flags ctx = .ok ([⟨caseTransform W kind text,dollarFlags⟩],ctx) := by
  have hnul : ∀ w ∈ [caseTransform W kind text], '\x00' ∉ w := by simpa using nul_notMem_caseTransform hW kind ht
  have hr := hb (splitting ctx)
  rw [hop,operatorOf_case hk hre] at hr
  exact expandWords_operator hsplit ⟨name,rest,he,hv⟩ hw hr hnul (by simp [bytes_pushValue_quoted,ExpandBuf.new])

omit hends heach in
theorem expandWords_joined (hW : Lawful W) (hi : 0 ∉ ifsBytes ctx.ifsValue) {kind : UInt8} (hk : isCaseKind kind)
    (hop : encode op = ['@'.toUInt8,kind]) : expandWords W [operatorWord (a ++ "[@]") op] flags ctx =
      .ok ([⟨caseTransform W kind (joinTexts (Char.ofNat ((joinSeparator ctx.ifsValue).getD 0x20).toNat) vs),dollarFlags⟩],ctx) := by
  have he : encode (a ++ "[@]" ++ op) = encode a ++ "[@]" ++ encode op := by
    rw [encode_append,encode_all .each]
  have hl := h.list
  refine expandWords_case hsplit hW hk hop (he.trans (append_assoc ..)) h.valid hall
    (nul_notMem_joinTexts (separator_ne_nul hi) fun v hv => nul_notMem_of_bytes (hnul v hv)) (fun c => ?_) ?_
  · rw [he,encode_all .each,expandBraceBody_operator_all W h.valid]
  · rw [encode_all .each]
    exact readScalar_all h.valid hl

theorem elementWise_of_joins (hop : joinsElements (encode op)) (hW : Lawful W) (hi : 0 ∉ ifsBytes ctx.ifsValue) :
    ElementWise W flags ctx a xs op ↔ vs.length = 1 := by
  obtain ⟨kind,hk,hop⟩ : ∃ kind, isCaseKind kind ∧ encode op = ['@'.toUInt8,kind] := by
    simp only [joinsElements,Bool.or_eq_true,decide_eq_true_eq] at hop
    obtain (hop | hop) | hop := hop
    exacts [⟨_,.inl rfl,hop⟩,⟨_,.inr (.inl rfl),hop⟩,⟨_,.inr (.inr rfl),hop⟩]
  have ha := expandWords_joined hsplit h hall hnul hW hi hk hop
  have hl := h.scalars.length_eq
  rw [length_map] at hl
  constructor
  · rintro ⟨ws,ctx',hwords,hf⟩
    rw [ha] at hwords
    cases hwords
    rw [← hl,hf.length_eq]
    rfl
  · intro hle
    refine ⟨_,_,ha,?_⟩
    obtain ⟨v,rfl⟩ := length_eq_one_iff.mp hle
    obtain ⟨x,rfl⟩ := length_eq_one_iff.mp (hl.trans hle)
    have hs : HoldsScalar W ctx.env (encode x) v := by simpa using h.scalars
    have hr : readScalar W (encode x) (splitting ctx) = .ok (v,splitting ctx) := readScalar_scalar hs
    refine .cons ?_ .nil
    have hj : joinTexts (Char.ofNat ((joinSeparator ctx.ifsValue).getD 0x20).toNat) [v] = v := by simp [joinTexts]
    rw [hj]
    refine expandWords_case hsplit hW hk hop (encode_append x op) hs.valid (heach x (by simp))
      (nul_notMem_of_bytes (hnul v (by simp))) (fun c => ?_) hr
    rw [encode_append,expandBraceBody_operator W hs.valid hends]
end

/-- One field for each element, unless the operator is `@U`, `@L` or `@u` and there is not exactly
one element. -/
theorem elementWise_iff {S E : Type} (W : Shell S E) (hW : Lawful W) (ctx : ExpCtx S) (hifs : 0 ∉ ifsBytes ctx.ifsValue)
    (flags : ExpandFlags) (hsplit : flags.splitFields) (a : Text) (xs vs : List Text)
    (h : Elements W (encode a) (xs.map encode) vs ctx.env) (hnul : ∀ v ∈ vs, 0 ∉ shellStringToBytes v) (op : Text)
    (hop : isElementOperator (encode op) ∨ joinsElements (encode op))
    (hwords : Expandable W (Elements W (encode a) (xs.map encode) vs) (encode op) (splitting ctx))
    (hall : Whole W ctx (a ++ "[@]" ++ op)) (heach : ∀ x ∈ xs, Whole W ctx (x ++ op)) :
    ElementWise W flags ctx a xs op ↔ (joinsElements (encode op) → vs.length = 1) := by
  have hends := endsName_of_operator hop
  by_cases hjoins : joinsElements (encode op)
  · rw [elementWise_of_joins hsplit h hends hall heach hnul hjoins hW hifs]
    simp [hjoins]
  · have happlies := @exists_applies S E W (Elements W (encode a) (xs.map encode) vs) (splitting ctx) (encode op)
      (hop.resolve_right hjoins) hwords h
    exact iff_of_true (elementWise_of_applies hsplit h hends hall heach hnul happlies hW) fun hj => absurd hj hjoins

theorem lawful_tableShell : Lawful tableShell where
  arrayLen s name pairs h := by simp_all [tableShell]
  assocLen s name pairs h := by simp [tableShell] at h
  toUppercase v hv h := by
    obtain ⟨c,hc,hu⟩ := mem_map.mp h
    exact hv (eq_nul_of_toUpper hu ▸ hc)
  toLowercase v hv h := by
    obtain ⟨c,hc,hl⟩ := mem_map.mp h
    have hnul : c = '\x00' := by
      unfold Char.toLower at hl
      split at hl
      · rename_i hr
        have hva : (c.val + ('a'.val - 'A'.val)).toNat = 0 := congrArg (fun c => c.val.toNat) hl
        have hh : c.val.toNat ≤ 90 := hr.2
        rw [UInt32.toNat_add,show ('a'.val - 'A'.val).toNat = 32 from rfl] at hva
        omega
      · exact hl
    exact hv (hnul ▸ hc)

def pairTables : Tables :=
  ⟨[],[([0x78],"ab"),([0x79],"cd")],[([0x61],[(0,"ab"),(1,"cd")])],[]⟩

theorem elements_pairTables : Elements tableShell (encode ['a']) ([['x'],['y']].map encode) ["ab","cd"] pairTables where
  valid := by decide
  list := ⟨[0x61],rfl,.inl ⟨rfl,_,rfl,rfl⟩⟩
  scalars := .cons ⟨by decide,rfl,rfl,rfl⟩ (.cons ⟨by decide,rfl,rfl,rfl⟩ .nil)

def patternTables : Tables :=
  ⟨[],[([0x78],"ab"),([0x79],"cd"),([0x70],"[ab]")],[([0x61],[(0,"ab"),(1,"cd")])],[]⟩

theorem elements_patternTables :
    Elements tableShell (encode ['a']) ([['x'],['y']].map encode) ["ab","cd"] patternTables where
  valid := by decide
  list := ⟨[0x61],rfl,.inl ⟨rfl,_,rfl,rfl⟩⟩
  scalars := .cons ⟨by decide,rfl,rfl,rfl⟩ (.cons ⟨by decide,rfl,rfl,rfl⟩ .nil)

theorem whole_of_body {S E : Type} (W : Shell S E) (ctx : ExpCtx S) {inside : Text}
    (h : ∀ b ∈ encode inside, isBodyByte b) : Whole W ctx inside :=
  ⟨encloses_of_body h _,braceExpand_quotedBraces h⟩

/-- `"${a[@]@U}"` for two elements is one field. -/
theorem elementWise_upper_joined :
    let ctx := pairTables.ctx none
    expandWords tableShell [operatorWord "a[@]" "@U"] commandFlags ctx = .ok ([⟨"AB CD",dollarFlags⟩],ctx) ∧
      ¬ElementWise tableShell commandFlags ctx ['a'] [['x'],['y']] "@U" := by
  intro ctx
  have hone := @expandWords_joined Tables Unit tableShell ctx commandFlags rfl ['a'] _ _ elements_pairTables "@U"
    (whole_of_body _ _ (by decide)) (by decide) lawful_tableShell (by decide) _ (.inl rfl) (by decide)
  refine ⟨hone,?_⟩
  rintro ⟨ws,ctx',hwords,hforall⟩
  cases hwords.symm.trans hone
  have hlength := hforall.length_eq
  simp at hlength

/-- `"${a[@]#$p}"`, where `p` is a pattern that begins the first element. -/
theorem elementWise_remove_pattern :
    ElementWise tableShell commandFlags (patternTables.ctx none) ['a'] [['x'],['y']] "#$p" := by
  have hwords : Expandable tableShell (Elements tableShell (encode ['a']) ([['x'],['y']].map encode)
      ["ab","cd"]) (encode "#$p") (splitting (patternTables.ctx none)) := by
    rintro pattern more hop
    obtain ⟨rfl,rfl⟩ : pattern = encode "$p" ∧ more = [] := by
      simpa [eq_comm] using (show [encode "$p"] = pattern :: more from hop)
    exact ⟨⟨encode "[ab]",[]⟩,{ splitting (patternTables.ctx none) with splitFields := false },⟨rfl,elements_patternTables⟩,by simp⟩
  have hwhole : ∀ inside : Text, inside ∈ ["a[@]#$p","x#$p","y#$p"].map String.toList →
      Whole tableShell (patternTables.ctx none) inside := by
    intro inside hinside
    simp only [map_cons,map_nil,mem_cons,not_mem_nil,or_false] at hinside
    obtain rfl | rfl | rfl := hinside <;> exact ⟨by unfold Encloses; rfl,by decide +kernel⟩
  exact (elementWise_iff tableShell lawful_tableShell _ (by decide) commandFlags rfl ['a'] [['x'],['y']] _ elements_patternTables
    (by decide) _ (.inl (by decide)) hwords (hwhole _ (by decide))
    (by simp only [forall_mem_cons]; exact ⟨hwhole _ (by decide),hwhole _ (by decide),by simp⟩)).mpr
    fun h => absurd h (by decide)
end Cherubsh.Expander.Parameters
