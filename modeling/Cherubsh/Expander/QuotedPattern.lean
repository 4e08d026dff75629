import Cherubsh.Expander.ElementWise

/-! # Where the pattern of `${v/p/r}` ends

The search for the slash behind the pattern knows backslashes and bracket expressions, but
neither quotes nor nested expansions. A pattern in double quotes that it takes whole is
replaced literally.
-/
namespace Cherubsh.Expander.Parameters
open Utf8 Split Buffer ShellString Words ExpandBuf Pattern List
open ParamScanning (asciiBytes readBetween)
variable {pat rep v : Bytes}

section
variable {text after : Bytes} {fuel : ℕ}

theorem termEnd_suffix {term : UInt8} (h : termEnd term text = some after) : after <:+ text := by
  fun_induction termEnd term text with
  | case1 b c rest hb =>
    cases h
    exact (suffix_cons c _).trans (suffix_cons b _)
  | case2 b c rest hb ih => exact (ih h).trans (suffix_cons b _)
  | case3 => cases h

theorem namedEnd_suffix (h : namedEnd text = some after) : after <:+ text := by
  cases text with
  | nil => cases h
  | cons term text =>
    simp only [namedEnd] at h
    split_ifs at h
    exact (termEnd_suffix h).trans (suffix_cons term text)

theorem bracketEndFrom_suffix (h : bracketEndFrom fuel text = some after) : after <:+ text := by
  fun_induction bracketEndFrom fuel text with
  | case1 | case2 => cases h
  | case3 fuel b rest hb ih => exact ((ih h).trans (drop_suffix 1 rest)).trans (suffix_cons b rest)
  | case4 fuel b rest hb next hn ih =>
    split_ifs at hn
    exact ((ih h).trans (namedEnd_suffix hn)).trans (suffix_cons b rest)
  | case5 fuel rest =>
    cases h
    exact suffix_cons _ _
  | case6 fuel b rest hb hn hc ih => exact (ih h).trans (suffix_cons b rest)

theorem patternBracketExprEnd_suffix (h : patternBracketExprEnd text = some after) : after <:+ text := by
  have hd : ∀ (c : Prop) [Decidable c] (l : Bytes), (if c then l.drop 1 else l) <:+ l := fun c _ l => by
    split
    · exact drop_suffix 1 l
    · exact suffix_refl l
  exact (bracketEndFrom_suffix h).trans ((hd _ _).trans (hd _ _))

/-- Every slash in the pattern is escaped or in a bracket expression that ends in it. -/
inductive EndsAt (rep : Bytes) : Bytes → Prop
  | nil : EndsAt rep []
  | byte {b : UInt8} {pat : Bytes} (hback : b ≠ '\\') (hbracket : b ≠ '[') (hslash : b ≠ '/')
      (h : EndsAt rep pat) : EndsAt rep (b :: pat)
  | escape {c : UInt8} {pat : Bytes} (h : EndsAt rep pat) : EndsAt rep ('\\' :: c :: pat)
  | bracket {body pat : Bytes}
      (hbody : patternBracketExprEnd (body ++ pat ++ '/'.toUInt8 :: rep) = some (pat ++ '/'.toUInt8 :: rep)) (h : EndsAt rep pat) :
      EndsAt rep ('[' :: (body ++ pat))
  | open {pat : Bytes} (hnone : patternBracketExprEnd (pat ++ '/'.toUInt8 :: rep) = none) (h : EndsAt rep pat) :
      EndsAt rep ('[' :: pat)

theorem separatorFrom_of_endsAt (h : EndsAt rep pat) (hf : pat.length < fuel) :
    separatorFrom fuel (pat ++ '/'.toUInt8 :: rep) = some (pat,rep) := by
  induction h generalizing fuel with
    obtain ⟨fuel,rfl⟩ := Nat.exists_eq_add_one_of_ne_zero (Nat.ne_zero_of_lt hf)
  | nil => rfl
  | byte hba hb hs h ih =>
    simp [separatorFrom,hba,hb,hs,ih (Nat.lt_of_succ_lt_succ hf)]
  | escape h ih =>
    simp only [length_cons] at hf
    simp [separatorFrom,ih (show _ < fuel by omega)]
  | @bracket body pat hbo h ih =>
    simp only [length_cons,length_append] at hf
    have hbe : readBetween ('['.toUInt8 :: (body ++ pat ++ '/'.toUInt8 :: rep)) (pat ++ '/'.toUInt8 :: rep) =
        '['.toUInt8 :: body := by
      rw [append_assoc,← cons_append,ParamScanning.readBetween_append]
    simp +decide only [separatorFrom,cons_append,hbo,ih (show _ < fuel by omega),hbe]
    rfl
  | «open» hn h ih =>
    simp +decide [separatorFrom,hn,ih (Nat.lt_of_succ_lt_succ hf)]

theorem endsAt_of_separatorFrom {text : Bytes} (h : separatorFrom fuel text = some (pat,rep)) :
    text = pat ++ '/'.toUInt8 :: rep ∧ EndsAt rep pat := by
  induction fuel generalizing text pat with
  | zero => cases h
  | succ fuel ih =>
    cases text with
    | nil => cases h
    | cons b rest =>
      simp only [separatorFrom] at h
      split_ifs at h with hba hbr hs
      · obtain ⟨rfl,hne⟩ := hba
        obtain ⟨c,rest,rfl⟩ := exists_cons_of_ne_nil hne
        obtain ⟨⟨pat',rep'⟩,hp,heq⟩ := Option.map_eq_some_iff.mp h
        cases heq
        obtain ⟨ht,he⟩ := ih hp
        exact ⟨by simpa using ht,.escape he⟩
      · subst hbr
        split at h
        · rename_i after hbo
          obtain ⟨⟨pat',rep'⟩,hp,heq⟩ := Option.map_eq_some_iff.mp h
          obtain ⟨body,rfl⟩ := patternBracketExprEnd_suffix hbo
          rw [← cons_append,ParamScanning.readBetween_append] at heq
          cases heq
          obtain ⟨rfl,he⟩ := ih hp
          exact ⟨by simp,.bracket (by rwa [append_assoc]) he⟩
        · rename_i hn
          obtain ⟨⟨pat',rep'⟩,hp,heq⟩ := Option.map_eq_some_iff.mp h
          cases heq
          obtain ⟨rfl,he⟩ := ih hp
          exact ⟨rfl,.open hn he⟩
      · subst hs
        cases h
        exact ⟨rfl,.nil⟩
      · obtain ⟨⟨pat',rep'⟩,hp,heq⟩ := Option.map_eq_some_iff.mp h
        cases heq
        obtain ⟨rfl,he⟩ := ih hp
        have hne : b ≠ '\\' := fun hb => hba ⟨hb,by simp⟩
        exact ⟨rfl,.byte hne hbr hs he⟩

theorem separatorFrom_iff (pat rep : Bytes) :
    separatorFrom (pat ++ '/'.toUInt8 :: rep).length (pat ++ '/'.toUInt8 :: rep) = some (pat,rep) ↔ EndsAt rep pat :=
  ⟨fun h => (endsAt_of_separatorFrom h).2,fun h => separatorFrom_of_endsAt h (by simp)⟩

def patsubText (all : Bool) (pat rep : Bytes) : Bytes := (if all then ['/'.toUInt8] else []) ++ (pat ++ '/'.toUInt8 :: rep)

theorem splitPatsub_iff (all : Bool) (hp : pat.head?.any (!isPatsubMode ·)) (rep : Bytes) :
    splitPatsub (patsubText all pat rep) = (if all then .all else .first,pat,rep) ↔ EndsAt rep pat := by
  rw [← separatorFrom_iff]
  obtain _ | ⟨b,pat⟩ := pat
  · simp at hp
  set text := (b :: pat) ++ '/'.toUInt8 :: rep with ht
  have hb : isPatsubMode b = false := by simpa using hp
  have hs : b ≠ '/' := fun h => by simp [isPatsubMode,h] at hb
  have hsp : splitPatsub (patsubText all (b :: pat) rep) =
      (if all then .all else .first,(separatorFrom text.length text).getD (text,[])) := by
    cases all with
    | false =>
      have hm : (some b).filter isPatsubMode = none := by simp [hb]
      simp [splitPatsub,patsubText,ht,hm,patsubMode,hs]
      cases separatorFrom (pat.length + (rep.length + 1) + 1) _ <;> rfl
    | true =>
      have hm : (some '/'.toUInt8).filter isPatsubMode = some '/'.toUInt8 := by decide
      simp [splitPatsub,patsubText,ht,hm,patsubMode,hs]
      cases separatorFrom (pat.length + (rep.length + 1) + 1) _ <;> rfl
  rw [hsp]
  cases hse : separatorFrom text.length text with
  | some p => simp [Prod.ext_iff]
  | none =>
    simp only [ht,Prod.mk.injEq,Option.getD_none,reduceCtorEq,iff_false]
    rintro ⟨-,h,-⟩
    simpa using congrArg List.length h
end

section
variable {S E : Type}

def quotedPattern (q : Bytes) : Bytes := '"'.toUInt8 :: (q ++ ['"'.toUInt8])

def isQuotable (b : UInt8) : Bool := !(b = '"' || b = '$' || b = '\x60' || b = '\\')

theorem scanDoubleQuoted_quotable (H : Host S E) (paramExpand : Bool → Bytes → ExpandBuf → Expand S E (Option (ExpandBuf × Bytes)))
    (escapeAll : Bool) {q : Bytes} (hq : ∀ b ∈ q, isQuotable b) (rest : Bytes) {fuel : ℕ} (hf : q.length < fuel)
    (anyContent : Bool) (out : ExpandBuf) (ctx : ExpCtx S) :
    scanDoubleQuoted H paramExpand escapeAll fuel anyContent out (q ++ '"'.toUInt8 :: rest) ctx =
      .ok ((if anyContent || q ≠ [] then out.pushQuotedSlice q else out.pushQuotedNull,rest),ctx) := by
  induction q generalizing fuel anyContent out with
    obtain ⟨fuel,rfl⟩ := Nat.exists_eq_add_one_of_ne_zero (Nat.ne_zero_of_lt hf)
  | nil => simp [scanDoubleQuoted,pushQuotedSlice]
  | cons b q ih =>
    obtain ⟨hb,hq⟩ := forall_mem_cons.mp hq
    simp only [isQuotable,Bool.not_eq_true',Bool.or_eq_false_iff,decide_eq_false_iff_not] at hb
    obtain ⟨⟨⟨hqu,hd⟩,hba⟩,hs⟩ := hb
    have hn := ih hq (Nat.lt_of_succ_lt_succ hf) true (out.pushQuoted b)
    simp only [Bool.true_or,if_true] at hn
    simp [scanDoubleQuoted,hqu,hd,hba,hs,hn,pushQuotedSlice]

theorem expandPattern_quoted (W : Shell S E) (levels : ℕ) {q : Text} (hq : ∀ b ∈ encode q, isQuotable b) (ctx : ExpCtx S) :
    expandPattern (expandWordInternal W (levels + 1)) (quotedPattern (encode q)) ctx = .ok (write (quoteText (encode q)),ctx) := by
  have hte : asText (quotedPattern (encode q)) = quotedPattern (encode q) := by
    have hen : quotedPattern (encode q) = encode ('"' :: (q ++ ['"'])) := by
      rw [encode_cons,encode_append]
      rfl
    rw [asText,hen,fromUtf8_encode]
  have hs := scanDoubleQuoted_quotable W.toHost (paramExpand W (expandWordInternal W levels)) false hq []
    (Nat.lt_add_of_pos_right Nat.two_pos) false
    .new { ctx with splitFields := false }
  have ht : tildeAt (W.tryTilde ctx.env) .new (quotedPattern (encode q)) = (.new,quotedPattern (encode q)) := by
    simp +decide [tildeAt,tildePrefixLen,quotedPattern]
  have hw : expandWordString (expandWordInternal W (levels + 1)) (quotedPattern (encode q)) false { ctx with splitFields := false } =
      .ok (if encode q ≠ [] then new.pushQuotedSlice (encode q) else new.pushQuotedNull,
        { ctx with splitFields := false }) := by
    simp only [expandWordString,expandWordInternal,expandWord,bind_apply,get_apply,ok_bind,ht,ite_self]
    simp +decide [quotedPattern,runLoop,runStep,Flags.none,hs]
  have hb : (if encode q ≠ [] then new.pushQuotedSlice (encode q) else new.pushQuotedNull).bytes =
      write (quoteText (encode q)) := by
    by_cases he : encode q = []
    · simp [he,quoteText,Piece.bytes,pushQuotedNull,new]
    · simp [he,quoteText,new]
  rw [← hb]
  simp [expandPattern,hte,hw]

theorem parse_quoteText (hv : 0 ∉ v) (opts : GlobOpts) : parse (write (quoteText v)) opts = v.map .lit := by
  have hi : ∀ fuel, v.length ≤ fuel → parseInner opts false fuel (write (v.map .quoted)) = ⟨v.map .lit,false,[]⟩ := by
    induction v with
    | nil => rintro (_ | fuel) - <;> rfl
    | cons b v ih =>
      rintro (_ | fuel) hf
      · simp at hf
      have hb : b ≠ ctlraw := fun h => hv (h ▸ mem_cons_self)
      have hes : escapedByte ctlesc (b :: write (v.map .quoted)) = some (b,write (v.map .quoted)) := by
        cases hr : write (v.map .quoted) <;> simp [escapedByte,hb]
      simp [Piece.bytes,parseInner,hes,ih (fun h => hv (mem_cons_of_mem b h)) fuel (Nat.le_of_succ_le_succ hf),
        Parsed.cons]
  by_cases he : v = []
  · subst he
    rfl
  · have hl : v.length ≤ (write (v.map .quoted)).length := by
      clear hi he hv
      induction v with
      | nil => simp
      | cons b v ih => simpa [Piece.bytes] using ih.trans (Nat.le_succ _)
    rw [quoteText,if_neg (by simpa using he),parse,hi _ (hl.trans (Nat.le_mul_of_pos_left _ Nat.two_pos))]

theorem literalPattern_quoteText (hv : 0 ∉ v) (opts : GlobOpts) :
    Pattern.literalPattern opts (write (quoteText v)) = some v := by
  have hm : ∀ v : Bytes, (v.map Tok.lit).mapM litByte = some v := by
    intro v
    induction v with
    | nil => rfl
    | cons b v ih => simp [mapM_cons,litByte,ih]
  simp [Pattern.literalPattern,hasGlobMeta_quoteText hv,parse_quoteText hv,hm]
end

section
variable (q : Bytes)

/-- `q` stands behind `a`, and at no earlier place. -/
def FirstAt (a b s : Bytes) : Prop := s = a ++ q ++ b ∧ ∀ a' b', s = a' ++ q ++ b' → a.length ≤ a'.length

inductive ReplacesFirst (r : Bytes) : Bytes → Bytes → Prop
  | absent {s : Bytes} (h : ¬ q <:+: s) : ReplacesFirst r s s
  | found {a b s : Bytes} (h : FirstAt q a b s) : ReplacesFirst r s (a ++ r ++ b)

/-- From the left, and never inside of what was replaced. -/
inductive ReplacesAll (r : Bytes) : Bytes → Bytes → Prop
  | absent {s : Bytes} (h : ¬ q <:+: s) : ReplacesAll r s s
  | found {a b s out : Bytes} (h : FirstAt q a b s) (hrest : ReplacesAll r b out) : ReplacesAll r s (a ++ r ++ out)

variable {q} {opts : GlobOpts} (hcase : opts.nocaseglob = false) (hq : q ≠ [])
include hcase

theorem literalStartsWith_iff (s : Bytes) : literalStartsWith opts s q ↔ q <+: s := by
  rw [prefix_iff_eq_take]
  simp only [literalStartsWith,literalEq,hcase,Bool.false_eq_true,if_false,Bool.and_eq_true,decide_eq_true_eq]
  constructor
  · rintro ⟨-,h⟩
    split_ifs at h
    exact (of_decide_eq_true h).symm
  · intro h
    have hl : q.length ≤ s.length := by
      rw [h]
      exact length_take_le' _ _
    exact ⟨hl,by simp [← h]⟩

include hq

theorem findLiteral_spec (s : Bytes) :
    (findLiteral opts q s = none ∧ ¬ q <:+: s) ∨ ∃ a b, findLiteral opts q s = some a.length ∧ FirstAt q a b s := by
  induction s with
  | nil => exact .inl ⟨rfl,fun h => hq (infix_nil.mp h)⟩
  | cons c rest ih =>
    by_cases hh : q <+: c :: rest
    · obtain ⟨b,hb⟩ := hh
      have hs := (literalStartsWith_iff hcase (c :: rest)).mpr ⟨b,hb⟩
      exact .inr ⟨[],b,by simp [findLiteral,hs],hb.symm,fun _ _ _ => Nat.zero_le _⟩
    have hs : literalStartsWith opts (c :: rest) q = false :=
      Bool.eq_false_iff.mpr fun h => hh ((literalStartsWith_iff hcase _).mp h)
    obtain ⟨hn,ha⟩ | ⟨a,b,hso,hr,hf⟩ := ih
    · exact .inl ⟨by simp [findLiteral,hs,hn],fun h => (infix_cons_iff.mp h).elim hh ha⟩
    · refine .inr ⟨c :: a,b,by simp [findLiteral,hs,hso],by simp [hr],?_⟩
      rintro (_ | ⟨c',a'⟩) b' h
      · exact absurd ⟨b',h.symm⟩ hh
      · simp only [cons_append,List.cons.injEq] at h
        exact Nat.succ_le_succ (hf a' b' h.2)

theorem substLiteralLoop_spec (first : Bool) (replacement : Bytes → Bytes) (fuel : ℕ) (s : Bytes) :
    (substLiteralLoop opts q first replacement (fuel + 1) s = s ∧ ¬ q <:+: s) ∨
      ∃ a b, FirstAt q a b s ∧ substLiteralLoop opts q first replacement (fuel + 1) s =
        a ++ replacement q ++ if first then b else substLiteralLoop opts q first replacement fuel b := by
  obtain ⟨hn,ha⟩ | ⟨a,b,hso,hs,hf⟩ := findLiteral_spec hcase hq s
  · exact .inl ⟨by simp [substLiteralLoop,hn],ha⟩
  · refine .inr ⟨a,b,⟨hs,hf⟩,?_⟩
    subst hs
    have haf : (a ++ q ++ b).drop (a.length + q.length) = b := by
      rw [← length_append]
      exact drop_left
    simp only [substLiteralLoop,hso,haf]
    simp

theorem replacesFirst_patSubstLiteral (replacement : Bytes → Bytes) (s : Bytes) :
    ReplacesFirst q (replacement q) s (patSubstLiteral s q .first opts replacement) := by
  simp only [patSubstLiteral,if_neg hq,decide_true]
  obtain _ | ⟨c,s⟩ := s
  · exact .absent fun h => hq (infix_nil.mp h)
  obtain ⟨heq,ha⟩ | ⟨a,b,hf,heq⟩ := substLiteralLoop_spec hcase hq true replacement s.length (c :: s)
  · rw [length_cons,heq]
    exact .absent ha
  · rw [length_cons,heq]
    exact .found hf

theorem replacesAll_patSubstLiteral (replacement : Bytes → Bytes) (s : Bytes) :
    ReplacesAll q (replacement q) s (patSubstLiteral s q .all opts replacement) := by
  have hlo : ∀ fuel s, s.length ≤ fuel → ReplacesAll q (replacement q) s (substLiteralLoop opts q false replacement fuel s) := by
    intro fuel
    induction fuel with
    | zero =>
      intro s hs
      obtain rfl := length_eq_zero_iff.mp (Nat.le_zero.mp hs)
      exact .absent fun h => hq (infix_nil.mp h)
    | succ fuel ih =>
      intro s hs
      obtain ⟨heq,ha⟩ | ⟨a,b,hf,heq⟩ := substLiteralLoop_spec hcase hq false replacement fuel s
      · rw [heq]
        exact .absent ha
      · rw [heq]
        -- behind the place that was found the value is shorter, because `q` is not empty
        have hsh : b.length ≤ fuel := by
          have hl := congrArg List.length hf.1
          simp only [length_append] at hl
          have := length_pos_iff.mpr hq
          omega
        exact .found hf (ih b hsh)
  simpa [patSubstLiteral,hq] using hlo s.length s le_rfl
end

section
variable {S E : Type} (W : Shell S E) {ctx ctx' : ExpCtx S}

def ReplacesLiterally (all : Bool) (q r s out : Bytes) : Prop := if all then ReplacesAll q r s out else ReplacesFirst q r s out

/-- What takes the place of a match; an unquoted `&` of it may stand for the match. -/
def replacementFor (patsubReplacement : Bool) (template matched : Bytes) : Bytes :=
  if patsubReplacement then expandPatsubReplacement matched template.length template else dequoteBytes template

theorem substituted_quoteText (hv : 0 ∉ v) (patsubReplacement : Bool) (template : Bytes) (mode : PatSubMode) (opts : GlobOpts)
    (s : Bytes) :
    substituted patsubReplacement (write (quoteText v)) template mode opts s =
      patSubstLiteral s v mode opts (replacementFor patsubReplacement template) := by
  have hm : literalPattern (write (quoteText v)) opts = none := by
    have hma : (write (quoteText v)).any (fun b => isCtl b || isPatternMark b) := by
      obtain _ | ⟨b,v⟩ := v
      · decide
      · exact any_eq_true.mpr ⟨ctlesc,mem_cons_self,by decide⟩
    simp [literalPattern,hma]
  cases patsubReplacement <;>
    simp only [substituted,hm,Pattern.patSubst,Pattern.patSubstWithReplacer,literalPattern_quoteText hv] <;> rfl

theorem replacesLiterally_substituted (hv : 0 ∉ v) (hne : v ≠ []) {opts : GlobOpts} (hcase : opts.nocaseglob = false)
    (patsubReplacement : Bool) (template : Bytes) (all : Bool) (s : Bytes) :
    ReplacesLiterally all v (replacementFor patsubReplacement template v) s
      (substituted patsubReplacement (write (quoteText v)) template (if all then .all else .first) opts s) := by
  rw [substituted_quoteText hv]
  cases all with
  | false => exact replacesFirst_patSubstLiteral hcase hne _ s
  | true => exact replacesAll_patSubstLiteral hcase hne _ s

theorem handlePatsub_of_split {inner : Flags → Bool → Bytes → Expand S E ExpandBuf} {rest pattern name : Bytes} {mode : PatSubMode}
    (hs : splitPatsub rest = (mode,quotedPattern pat,rep)) {ctx₁ : ExpCtx S} {buf : ExpandBuf} {value : ValueRepr}
    (hp : expandPattern inner (quotedPattern pat) ctx = .ok (pattern,ctx₁))
    (hre : expandWordString inner (asText rep) false ctx₁ = .ok (buf,ctx')) (hr : readValue W name ctx' = .ok (value,ctx'))
    (quoted : Bool) (out : ExpandBuf) :
    handlePatsub W inner name rest quoted out ctx = .ok (pushValueBuf ctx' out (transformValue
      (substituted (W.option ctx.env "patsub_replacement") pattern buf.bytes mode (patternMatchOpts W ctx.env)) value) quoted
        (joinSeparator ctx'.ifsValue),ctx') := by
  have hw : ∀ opts, rawLiteralPattern (quotedPattern pat) opts = none := fun opts => by
    simp +decide [rawLiteralPattern,rawPlainWord,quotedPattern]
  simp [handlePatsub,hs,hw,plainBytes,hp,hre,hr,pushResult]

/-- The pattern ends at its own slash as long as every slash in it is escaped or in a bracket
expression; what stands in double quotes is then replaced literally. -/
theorem patsub_ends_at_own_slash (levels : ℕ) :
    (∀ all pat rep, pat.head?.any (!isPatsubMode ·) →
      (splitPatsub (patsubText all pat rep) = (if all then .all else .first,pat,rep) ↔ EndsAt rep pat)) ∧
    ∀ (all : Bool) (q r : Text) (name : Bytes) (quoted : Bool) (out buf : ExpandBuf) (value : ValueRepr) (ctx ctx' : ExpCtx S),
      q ≠ [] → '\x00' ∉ q → (∀ b ∈ encode q, isQuotable b) →
      (¬∃ ch ∈ q, Raw ch) → W.option ctx.env "nocasematch" = false → EndsAt (encode r) (quotedPattern (encode q)) →
      expandWordString (expandWordInternal W (levels + 1)) (encode r) false ctx = .ok (buf,ctx') →
      readValue W name ctx' = .ok (value,ctx') →
      ∃ f, handlePatsub W (expandWordInternal W (levels + 1)) name (patsubText all (quotedPattern (encode q)) (encode r)) quoted out ctx =
          .ok (pushValueBuf ctx' out (transformValue f value) quoted (joinSeparator ctx'.ifsValue),ctx') ∧
        ∀ s, ReplacesLiterally all (shellStringToBytes q)
          (replacementFor (W.option ctx.env "patsub_replacement") buf.bytes (shellStringToBytes q)) s (f s) := by
  refine ⟨fun all pat rep hpat => splitPatsub_iff all hpat rep,?_⟩
  intro all q r name quoted out buf value ctx ctx' hne hnul hq hraw hcase hends hrep hread
  have hbytes := (shellStringToBytes_eq_iff q).mpr hraw
  have hzero : 0 ∉ encode q := by simpa [zero_mem_encode] using hnul
  have hempty : encode q ≠ [] := fun h => by
    have htext := fromUtf8_encode q
    rw [h] at htext
    exact hne (Except.ok.inj htext).symm
  have hsplit := (splitPatsub_iff all (by simp +decide [quotedPattern]) (encode r)).mpr hends
  have hasText : asText (encode r) = encode r := by rw [asText,fromUtf8_encode]
  refine ⟨_,handlePatsub_of_split W hsplit (expandPattern_quoted W levels hq ctx) (hasText.symm ▸ hrep) hread quoted out,fun s => ?_⟩
  rw [hbytes]
  exact replacesLiterally_substituted hzero hempty hcase _ _ all s

def slashTables : Tables := ⟨[],[([0x76],"a/b")],[],[]⟩

theorem endsAt_quoted_b : EndsAt (encode ['r']) (quotedPattern (encode ['b'])) :=
  .byte (by decide) (by decide) (by decide) (.byte (by decide) (by decide) (by decide) (.byte (by decide) (by decide) (by decide) .nil))

theorem patsub_ends_at_own_slash_b :
    splitPatsub (patsubText false (quotedPattern (encode ['b'])) (encode ['r'])) = (.first,quotedPattern (encode ['b']),encode ['r']) ∧
      ∃ f, handlePatsub tableShell (expandWordInternal tableShell 31) [0x76] (patsubText true (quotedPattern (encode ['b'])) (encode ['r']))
          false .new (slashTables.ctx none) =
          .ok (pushValueBuf (slashTables.ctx none) .new (transformValue f (.scalar "a/b")) false
            (joinSeparator (slashTables.ctx none).ifsValue),slashTables.ctx none) ∧
        ∀ s, ReplacesLiterally true (shellStringToBytes ['b']) (replacementFor false [0x72] (shellStringToBytes ['b'])) s (f s) :=
  ⟨((patsub_ends_at_own_slash tableShell 30).1 false _ _ (by decide)).mpr endsAt_quoted_b,
    (patsub_ends_at_own_slash tableShell 30).2 true ['b'] ['r'] [0x76] false .new ⟨[0x72],[]⟩ (.scalar "a/b") (slashTables.ctx none)
      (slashTables.ctx none) (by decide) (by decide) (by decide)
      ((shellStringToBytes_eq_iff ['b']).mp rfl) rfl endsAt_quoted_b rfl rfl⟩

/-- In `${v/"a/b"/r}` the slash in the quotes ends the pattern, and so does the one in `${v/${x#a/b}/r}`. -/
theorem patsub_ends_in_quotes :
    ((handlePatsub tableShell (expandWordInternal tableShell 31) [0x76] (patsubText false (quotedPattern (asciiBytes "a/b")) (asciiBytes "r"))
        false .new (slashTables.ctx none)).toOption.map fun p => dequoteBytes p.1.bytes) = some (asciiBytes "b/r/b") ∧
      ¬ReplacesLiterally false (asciiBytes "a/b") (asciiBytes "r") (asciiBytes "a/b") (asciiBytes "b/r/b") ∧
      splitPatsub (patsubText false (asciiBytes "$\x7bx#a/b\x7d") (asciiBytes "r")) =
        (.first,asciiBytes "$\x7bx#a",asciiBytes "b\x7d/r") := by
  refine ⟨by decide +kernel,?_,by decide +kernel⟩
  intro h
  have hlength : ∀ {s out : Bytes}, ReplacesFirst (asciiBytes "a/b") (asciiBytes "r") s out →
      out.length = s.length ∨ out.length + 2 = s.length := by
    rintro _ _ (_ | ⟨rfl,-⟩)
    · exact .inl rfl
    · refine .inr ?_
      have hr : (asciiBytes "r").length + 2 = (asciiBytes "a/b").length := rfl
      simp only [length_append]
      omega
  exact absurd (hlength h) (by decide)
end
end Cherubsh.Expander.Parameters
