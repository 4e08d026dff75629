import Cherubsh.Expander.ParenQuotes
import Mathlib.Data.List.TakeWhile

/-! # Bodies of `$(…)` and where they end

The scanner returns a body whole when each single-quoted text ends in an even number of
backslashes, no name is `case`, and braces in double quotes hold no single quote and no escaped
brace.
-/
namespace Cherubsh.Expander.ParamScanning
open Utf8 Forward List
variable {chunk text rest : Bytes} {n : ℕ}

mutual
inductive Body where
  | mk (text : Bytes) (more : More)

inductive More where
  | done
  | escape (b : UInt8) (c : Body)
  | single (s : Bytes) (c : Body)
  | double (q : Inside) (c : Body)
  | parens (d c : Body)

inductive Inside where
  | done
  | byte (b : UInt8) (more : Inside)
  | escape (b : UInt8) (more : Inside)
  | quotation (l : List Glyph) (more : Inside)
  | backquoted (l : List Glyph) (more : Inside)
  | arithmetic (a : Sum) (more : Inside)
  | command (d : Body) (more : Inside)
  | parameter (p more : Inside)
end

mutual
def Body.write : Body → Bytes
  | .mk text more => text ++ more.write

def More.write : More → Bytes
  | .done => []
  | .escape b c => '\\' :: b :: c.write
  | .single s c => '\''.toUInt8 :: (s ++ '\''.toUInt8 :: c.write)
  | .double q c => '"'.toUInt8 :: (q.write ++ '"'.toUInt8 :: c.write)
  | .parens d c => '('.toUInt8 :: (d.write ++ ')'.toUInt8 :: c.write)

def Inside.write : Inside → Bytes
  | .done => []
  | .byte b more => b :: more.write
  | .escape b more => '\\' :: b :: more.write
  | .quotation l more => '"'.toUInt8 :: (writeGlyphs l ++ '"'.toUInt8 :: more.write)
  | .backquoted l more => '\x60'.toUInt8 :: (writeGlyphs l ++ '\x60'.toUInt8 :: more.write)
  | .arithmetic a more => '$'.toUInt8 :: '('.toUInt8 :: '('.toUInt8 :: (a.write ++ ')'.toUInt8 :: ')'.toUInt8 :: more.write)
  | .command d more => '$'.toUInt8 :: '('.toUInt8 :: (d.write ++ ')'.toUInt8 :: more.write)
  | .parameter p more => '$'.toUInt8 :: '{'.toUInt8 :: (p.write ++ '}'.toUInt8 :: more.write)
end

def isPlain (b : UInt8) : Bool :=
  b ≠ '#' && b ≠ '\\' && b ≠ '\'' && b ≠ '"' && b ≠ '\x60' && b ≠ '(' && b ≠ ')'

def More.isSingle : More → Bool
  | .single _ _ => true
  | _ => false

def isQuotable (braces : Bool) (b : UInt8) : Bool :=
  b ≠ '"' && b ≠ '\\' && b ≠ '\x60' && !(braces && b = '}')

mutual
def Body.WellFormed : Body → Prop
  | .mk text more =>
    text.all isPlain ∧ ¬"<<" <:+: text ∧ (['$'.toUInt8] <:+ text → more.isSingle = false) ∧ more.WellFormed

def More.WellFormed : More → Prop
  | .done => True
  | .escape _ c => c.WellFormed
  | .single s c => '\''.toUInt8 ∉ s ∧ c.WellFormed
  | .double q c => q.WellFormed false ∧ c.WellFormed
  | .parens d c => d.WellFormed ∧ c.WellFormed

def Inside.WellFormed (braces : Bool) : Inside → Prop
  | .done => True
  | .byte b more =>
    isQuotable braces b ∧ (b = '$' → more.write.head? ≠ some '{'.toUInt8 ∧ more.write.head? ≠ some '('.toUInt8) ∧
      more.WellFormed braces
  | .escape _ more => more.WellFormed braces
  | .quotation l more => braces ∧ (∀ g ∈ l, g.Fits '"') ∧ more.WellFormed braces
  | .backquoted l more => (∀ g ∈ l, g.Fits '\x60') ∧ more.WellFormed braces
  | .arithmetic a more => a.WellFormed ∧ more.WellFormed braces
  | .command d more => d.WellFormed ∧ d.write.head? ≠ some '('.toUInt8 ∧ more.WellFormed braces
  | .parameter p more => p.WellFormed true ∧ more.WellFormed braces
end

mutual
def Body.lastText : Body → Bytes
  | .mk text more => more.lastText text

def More.lastText (before : Bytes) : More → Bytes
  | .done => before
  | .escape _ c => c.lastText
  | .single _ c => c.lastText
  | .double _ c => c.lastText
  | .parens _ c => c.lastText
end

def namesIn (text : Bytes) : List Bytes := (text.splitOnP fun b => !isNameByte b).map (·.dropWhile isDigit)

mutual
/-- What the scanner needs of a body to return it whole. -/
def Body.Safe : Body → Prop
  | .mk text more => asciiBytes "case" ∉ namesIn text ∧ more.Safe

def More.Safe : More → Prop
  | .done => True
  | .escape _ c => c.Safe
  | .single s c => Even (backslashes s) ∧ c.Safe
  | .double q c => q.Safe false ∧ c.Safe
  | .parens d c => d.Safe ∧ c.Safe

def Inside.Safe (braces : Bool) : Inside → Prop
  | .done => True
  | .byte b more => (braces → b ≠ '\'') ∧ more.Safe braces
  | .escape b more => (braces → b ≠ '}') ∧ more.Safe braces
  | .quotation _ more => more.Safe braces
  | .backquoted _ more => more.Safe braces
  | .arithmetic _ more => more.Safe braces
  | .command d more => d.Safe ∧ more.Safe braces
  | .parameter p more => p.Safe true ∧ more.Safe braces
end

section
variable {b : UInt8} {w : Bytes}

theorem namesIn_of_forall (hw : ∀ c ∈ w, isNameByte c) : namesIn w = [w.dropWhile isDigit] := by
  have ha : ∀ c ∈ w, (!isNameByte c) = false := fun c hc => by simp [hw c hc]
  rw [namesIn,splitOnP_eq_singleton ha,map_singleton]

theorem namesIn_append_cons (hw : ∀ c ∈ w, isNameByte c) (hb : isNameByte b = false) (text : Bytes) :
    namesIn (w ++ b :: text) = w.dropWhile isDigit :: namesIn text := by
  have ha : ∀ c ∈ w, (!isNameByte c) = false := fun c hc => by simp [hw c hc]
  rw [namesIn,splitOnP_append_cons_of_forall_mem ha b (by simp [hb]) text,map_cons,namesIn]

theorem depthOver_of_ne (hw : "case" ≠ w) : depthOver 0 [w] = 0 := by simp [Nesting.step,hw.symm]
end

section
variable (ext : Extractors) {parens : ℕ} {body : Bytes} {s : Paren} {b : UInt8} {chunk text tail : Bytes}

variable (h : At parens body 0 s)
include h

theorem At.add {t : Paren} {commentOk : Bool} {previous : Option UInt8}
    (ht : t = { s.add chunk commentOk with previous := previous }) : At parens (body ++ chunk) 0 t := by
  subst ht
  exact ⟨h.depth,h.heredocs,by simp [Paren.add,h.body],h.caseDepth,.inl rfl⟩

theorem at_newline : Reaches (parenStep ext) (At parens (body ++ [0x0A]) 0) s (0x0A :: tail) tail := by
  have hm : parenMove ext s 0x0A ([] ++ tail) = .next { s.add [0x0A] true with atLineStart := true } tail := by
    simp [parenMove,h.heredocs]
  exact .one (parenStep_of_move hm) (Nat.le_refl _) ⟨h.depth,h.heredocs,by simp [Paren.add,h.body],h.caseDepth,.inl rfl⟩

omit h in
theorem at_escape (b : UInt8) (h : At parens body 0 s) :
    Reaches (parenStep ext) (At parens (body ++ ['\\'.toUInt8,b]) 0) s ('\\'.toUInt8 :: b :: tail) tail := by
  have hm : parenMove ext s '\\' ([b] ++ tail) = .next (s.add ['\\',b] false) tail := by
    simp +decide [parenMove,h.heredocs]
  exact .one (parenStep_of_move hm) (by simp) (h.add rfl)

theorem at_quotation (hb : b = '\'' ∨ b = '"') (hq : appendQuotedBytes ext b (chunk ++ tail) = .ok (b :: chunk,tail)) :
    Reaches (parenStep ext) (At parens (body ++ b :: chunk) 0) s (b :: (chunk ++ tail)) tail := by
  have hne : b ≠ 0x0A ∧ b ≠ '#' ∧ b ≠ '\\' ∧ b ≠ '$' ∧ b ≠ '<' := by
    rcases hb with rfl | rfl <;> decide
  have hqu : b = '\'' ∨ b = '"' ∨ b = '\x60' := hb.imp_right Or.inl
  have hm : parenMove ext s b (chunk ++ tail) = .next (s.add (b :: chunk) false) tail := by
    have ha : Alone b (chunk ++ tail) := alone_of_ne hne.2.2.2.1 hne.2.2.2.2
    simp [parenMove,h.heredocs,appendAnsiCLiteral_eq_none ha.1,hne.1,hne.2.1,hne.2.2.1,hqu,hq]
  exact .one (parenStep_of_move hm) (by simp) (h.add rfl)

theorem at_open :
    Reaches (parenStep ext) (At (parens + 1) (body ++ ['('.toUInt8]) 0) s ('('.toUInt8 :: tail) tail := by
  have hm : parenMove ext s '(' ([] ++ tail) = .next { s.add ['('] true with depth := s.depth + 1 } tail := by
    rw [nil_append,parenMove_otherByte h.heredocs (by decide) (alone_of_ne (by decide) (by decide))]
    rfl
  refine .one (parenStep_of_move hm) (Nat.le_refl _) ⟨?_,h.heredocs,by simp [Paren.add,h.body],h.caseDepth,.inl rfl⟩
  simp [h.depth]

omit h

theorem at_close (h : At (parens + 2) body 0 s) :
    Reaches (parenStep ext) (At (parens + 1) (body ++ [')'.toUInt8]) 0) s (')'.toUInt8 :: tail) tail := by
  have hm : parenMove ext s ')' ([] ++ tail) = .next { s.add [')'] true with depth := s.depth - 1 } tail := by
    rw [nil_append,parenMove_otherByte h.heredocs (by decide) (alone_of_ne (by decide) (by decide))]
    simp +decide [otherByte,h.caseDepth,h.depth,show isShellMetacharacter ')' = true by decide]
  refine .one (parenStep_of_move hm) (Nat.le_refl _) ⟨?_,h.heredocs,by simp [Paren.add,h.body],h.caseDepth,.inl rfl⟩
  simp [h.depth]

theorem isSpecial_of_isPlain (hb : isPlain b) (hl : b ≠ 0x0A) (hn : isNameStart b = false) : isSpecial b = false := by
  simp only [isPlain,ne_eq,decide_not,Bool.and_eq_true,Bool.not_eq_eq_eq_not,Bool.not_true,decide_eq_false_iff_not] at hb
  simp [isSpecial,hb,hl,hn]

/-- What stands behind plain text neither goes on with a name of it nor makes more of its last byte. -/
structure Ends (text tail : Bytes) : Prop where
  dollar : ['$'.toUInt8] <:+ text → tail.head? ≠ some '\''.toUInt8
  less : tail.head? ≠ some '<'.toUInt8
  name : ∀ c ∈ tail.head?, isNameByte c = false

theorem ends_paren (text rest : Bytes) : Ends text (')' :: rest) :=
  ⟨fun _ => by simp +decide,by simp +decide,
    by simp +decide⟩

theorem ends_more {more : More} (hs : ['$'.toUInt8] <:+ text → more.isSingle = false) (h : Ends (more.lastText text) tail) :
    Ends text (more.write ++ tail) := by
  cases more with
  | done => exact h
  | single s c =>
    refine ⟨fun hl => ?_,by simp [More.write]; decide,by simp [More.write]; decide⟩
    simp [More.isSingle] at hs
    exact absurd hl hs
  | _ => exact ⟨fun _ => by simp [More.write]; decide,by simp [More.write]; decide,by simp [More.write]; decide⟩

/-- Plain text in front of what ends it. -/
structure Plain (text tail : Bytes) : Prop where
  bytes : ∀ c ∈ text, isPlain c
  less : ¬"<<" <:+: text
  ends : Ends text tail

theorem Plain.of_suffix {r : Bytes} (h : Plain text tail) (hr : r <:+ text) : Plain r tail :=
  ⟨fun c hc => h.bytes c (hr.subset hc),fun hl => h.less (hl.trans hr.isInfix),fun hd => h.ends.dollar (hd.trans hr),
    h.ends.less,h.ends.name⟩

theorem Plain.alone (h : Plain (b :: text) tail) : Alone b (text ++ tail) := by
  cases text with
  | nil =>
    refine ⟨?_,fun _ => h.ends.less⟩
    rintro rfl
    exact h.ends.dollar (suffix_refl _)
  | cons c text =>
    have hc : isPlain c := h.bytes c (by simp)
    refine ⟨fun _ h => ne_of_holds hc (by decide) (Option.some.inj h),?_⟩
    rintro rfl hl
    obtain rfl := Option.some.inj hl
    exact h.less ⟨[],text,rfl⟩

include h

theorem at_separator (ht : Plain (b :: text) tail) (hb : isNameByte b = false) :
    Reaches (parenStep ext) (At parens (body ++ [b]) 0) s (b :: (text ++ tail)) (text ++ tail) := by
  by_cases hl : b = 0x0A
  · subst hl
    exact at_newline ext h
  · have hp : isPlain b := ht.bytes b (by simp)
    have hs : isNameStart b = false := by
      simp only [isNameByte,Bool.or_eq_false_iff] at hb
      exact hb.1
    exact at_byte ext h (isSpecial_of_isPlain hp hl hs) ht.alone (ne_of_holds hp (by decide))
      (ne_of_holds hp (by decide)) (.inl rfl)

theorem at_text (hte : Plain text tail) (hc : asciiBytes "case" ∉ namesIn text) :
    Reaches (parenStep ext) (At parens (body ++ text) 0) s (text ++ tail) tail := by
  induction hle : text.length using Nat.strong_induction_on generalizing text body s with
  | _ length ih =>
    cases hf : text.find? fun c => !isNameByte c with
    | none =>
      have ha : ∀ c ∈ text, isNameByte c := by simpa using hf
      rw [namesIn_of_forall ha,mem_singleton] at hc
      have hr := at_segment ext h ha hte.ends.name
      rwa [depthOver_of_ne hc] at hr
    | some b =>
      obtain ⟨hb,w,after,rfl,hw⟩ := List.find?_eq_some_iff_append.1 hf
      have hb : isNameByte b = false := by simpa using hb
      have hw : ∀ c ∈ w, isNameByte c := by simpa using hw
      rw [namesIn_append_cons hw hb,mem_cons,not_or] at hc
      have hs := at_segment ext h hw (show ∀ c ∈ (b :: (after ++ tail)).head?, isNameByte c = false from notName_head hb)
      rw [depthOver_of_ne hc.1] at hs
      have hl := hte.of_suffix (suffix_append w (b :: after))
      have hr := hs.bind fun t ht => (at_separator ext ht hl hb).bind fun u hu =>
        ih after.length (by rw [← hle]; simp; omega) hu (hl.of_suffix (suffix_cons b after)) hc.2 rfl
      simpa using hr
end

section
variable {ext : Extractors} {fuel : ℕ} {b : UInt8} {l : List Glyph} {a : Sum} {inner tail text : Bytes}

theorem appendDoubleQuotedBytes_byte (hb : isQuotable false b)
    (hd : b = '$' → tail.head? ≠ some '{'.toUInt8 ∧ tail.head? ≠ some '('.toUInt8) :
    appendDoubleQuotedBytes ext (fuel + 1) (b :: tail) = copied [b] (appendDoubleQuotedBytes ext fuel tail) := by
  simp only [isQuotable,ne_eq,decide_not,Bool.and_eq_true,Bool.not_eq_eq_eq_not,Bool.not_true,decide_eq_false_iff_not] at hb
  obtain ⟨⟨⟨hdo,hbc⟩,hba⟩,-⟩ := hb
  have hbr : ¬(b = '$' ∧ tail.head? = some '{'.toUInt8) := fun h => (hd h.1).1 h.2
  have hp : ¬(b = '$' ∧ tail.head? = some '('.toUInt8) := fun h => (hd h.1).2 h.2
  rw [appendDoubleQuotedBytes]
  simp [hdo,hbc,hba,hbr,hp]

theorem appendDoubleQuotedBytes_escape :
    appendDoubleQuotedBytes ext (fuel + 1) ('\\' :: b :: tail) =
      copied ['\\',b] (appendDoubleQuotedBytes ext fuel tail) := by
  rw [appendDoubleQuotedBytes]
  simp +decide

theorem appendDoubleQuotedBytes_backquoted (hl : ∀ g ∈ l, g.Fits '\x60') :
    appendDoubleQuotedBytes ext (fuel + 1) ('\x60'.toUInt8 :: (writeGlyphs l ++ '\x60'.toUInt8 :: tail)) =
      copied ('\x60'.toUInt8 :: (writeGlyphs l ++ ['\x60'.toUInt8])) (appendDoubleQuotedBytes ext fuel tail) := by
  rw [appendDoubleQuotedBytes]
  simp +decide [throughQuote_glyphs (q := '\x60') (by decide) hl]

theorem appendDoubleQuotedBytes_substitution (h : appendSubstitution ext text = .ok (inner,tail)) :
    appendDoubleQuotedBytes ext (fuel + 1) ('$' :: '(' :: text) =
      copied ('$' :: '(' :: inner) (appendDoubleQuotedBytes ext fuel tail) := by
  rw [appendDoubleQuotedBytes]
  simp +decide [h,Except.bind,bind]
  rfl

theorem appendDoubleQuotedBytes_parameter (h : ext.braceBody false text = .ok (inner,tail)) :
    appendDoubleQuotedBytes ext (fuel + 1) ('$' :: '{' :: text) =
      copied ('$'.toUInt8 :: '{'.toUInt8 :: (inner ++ ['}'.toUInt8])) (appendDoubleQuotedBytes ext fuel tail) := by
  rw [appendDoubleQuotedBytes]
  simp +decide [h,Except.bind,bind]
  rfl

theorem appendSubstitution_arithmetic (ext : Extractors) (tail : Bytes) (ha : a.WellFormed) :
    appendSubstitution ext ('('.toUInt8 :: (a.write ++ ')'.toUInt8 :: ')'.toUInt8 :: tail)) =
      .ok ('('.toUInt8 :: (a.write ++ [')'.toUInt8,')'.toUInt8]),tail) := by
  simp [appendSubstitution,extractDoubleParen_write a ha,Except.map]
end

section
variable {ext : Extractors} {s : BraceBody} {b : UInt8} {l : List Glyph} {inner tail text : Bytes}

/-- The states of the brace scanner with a given body. -/
def Holding (body : Bytes) (s : BraceBody) : Prop := s.body = body

theorem braceStep_byte (ext : Extractors) (hb : isQuotable true b) (hs : b ≠ '\'')
    (hd : b = '$' → tail.head? ≠ some '{'.toUInt8 ∧ tail.head? ≠ some '('.toUInt8 ∧ tail.head? ≠ some '\''.toUInt8) :
    braceStep ext false s b tail = .next (s.add [b]) tail := by
  simp only [isQuotable,ne_eq,decide_not,Bool.and_eq_true,Bool.not_eq_eq_eq_not,Bool.not_true,decide_eq_false_iff_not,
    Bool.true_and] at hb
  obtain ⟨⟨⟨hdo,hbc⟩,hba⟩,hc⟩ := hb
  have hbr : ¬(b = '$' ∧ tail.head? = some '{'.toUInt8) := fun h => (hd h.1).1 h.2
  have hp : ¬(b = '$' ∧ tail.head? = some '('.toUInt8) := fun h => (hd h.1).2.1 h.2
  have ha := appendAnsiCLiteral_eq_none fun h => (hd h).2.2
  simp [braceStep,ha,hdo,hbc,hba,hc,hs,hbr,hp]

theorem braceStep_escape (ext : Extractors) (tail : Bytes) (hb : b ≠ '}') :
    braceStep ext false s '\\' (b :: tail) = .next (s.add ['\\',b]) tail := by
  simp [braceStep,appendAnsiCLiteral_of_ne (b := '\\') (by decide),hb]

theorem braceStep_quotation (ext : Extractors) (s : BraceBody) (tail : Bytes) (hl : ∀ g ∈ l, g.Fits '"') :
    ∃ t, braceStep ext false s '"' (writeGlyphs l ++ '"'.toUInt8 :: tail) = .next t tail ∧
      t.body = s.body ++ '"'.toUInt8 :: (writeGlyphs l ++ ['"'.toUInt8]) := by
  have he := quotationEnds_glyphs hl false tail
  obtain ⟨brace,hb⟩ : ∃ brace, quotationEnds false (writeGlyphs l ++ '"'.toUInt8 :: tail) = (true,brace) :=
    ⟨_,Prod.ext he rfl⟩
  have hs : braceStep ext false s '"' (writeGlyphs l ++ '"'.toUInt8 :: tail) =
      braceQuotation false s '"' (writeGlyphs l ++ '"'.toUInt8 :: tail) := by
    simp +decide [braceStep,appendAnsiCLiteral_of_ne (b := '"') (by decide)]
  refine ⟨_,by rw [hs,braceQuotation,hb,throughQuote_glyphs (by decide) hl],rfl⟩

theorem braceStep_backquoted (ext : Extractors) (tail : Bytes) (hl : ∀ g ∈ l, g.Fits '\x60') :
    braceStep ext false s '\x60' (writeGlyphs l ++ '\x60'.toUInt8 :: tail) =
      .next (s.add ('\x60'.toUInt8 :: (writeGlyphs l ++ ['\x60'.toUInt8]))) tail := by
  have hq : appendQuotedBytes ext '\x60' (writeGlyphs l ++ '\x60'.toUInt8 :: tail) =
      .ok ('\x60'.toUInt8 :: (writeGlyphs l ++ ['\x60'.toUInt8]),tail) := by
    simp +decide [appendQuotedBytes,throughQuote_glyphs (q := '\x60') (by decide) hl,copied,Except.map]
  simp +decide [braceStep,appendAnsiCLiteral_of_ne (b := '\x60') (by decide),hq,continueWith]

theorem braceStep_substitution (h : appendSubstitution ext text = .ok (inner,tail)) :
    braceStep ext false s '$' ('(' :: text) = .next (s.add ('$' :: '(' :: inner)) tail := by
  have ha : appendAnsiCLiteral ('$' :: '(' :: text) = none :=
    appendAnsiCLiteral_eq_none fun _ => by simp +decide
  simp +decide [braceStep,ha,h,continueWith]
  rfl

theorem braceStep_parameter (h : ext.braceBody false text = .ok (inner,tail)) :
    braceStep ext false s '$' ('{' :: text) =
      .next (s.add ('$'.toUInt8 :: '{'.toUInt8 :: (inner ++ ['}'.toUInt8]))) tail := by
  have ha : appendAnsiCLiteral ('$' :: '{' :: text) = none :=
    appendAnsiCLiteral_eq_none fun _ => by simp +decide
  simp +decide [braceStep,ha,h,continueWith]
  rfl

theorem reaches_add {front : Bytes} {t : BraceBody} (hs : Holding front s) (hst : braceStep ext false s b text = .next t tail)
    (ht : t.body = s.body ++ chunk) (hle : tail.length ≤ text.length) :
    Reaches (braceStep ext false) (Holding (front ++ chunk)) s (b :: text) tail := by
  have hf : s.body = front := hs
  exact .one hst hle (by rw [Holding,ht,hf])

theorem extractBraceBodyWith_of_reaches (h : Reaches (braceStep ext false) (Holding inner) ⟨false,[]⟩ text ('}' :: tail)) :
    extractBraceBodyWith ext false text = .ok (inner,tail) := by
  obtain ⟨t,hl,ht⟩ := h
  refine run_of_leads_stop hl ?_
  have hb : t.body = inner := ht
  simp +decide [braceStep,appendAnsiCLiteral_of_ne (b := '}') (by decide),hb]
end

theorem head?_append_quote_ne {c d : UInt8} {tail : Bytes} (hd : d ≠ c) (h : text.head? ≠ some c) :
    (text ++ d :: tail).head? ≠ some c := by
  cases text with
  | nil => simpa using hd
  | cons b text => simpa using h

theorem Inside.head?_ne_of_safe (p : Inside) (hs : p.Safe true) : p.write.head? ≠ some '\'' := by
  cases p with
  | byte b more => simpa [write] using hs.1 rfl
  | _ => simp [write] <;> decide

theorem appendSubstitution_of_reaches (hh : text.head? ≠ some '('.toUInt8) (hn : text.length < n)
    (h : ∀ m, text.length ≤ m → Reaches (parenStep (extractors m)) (At 1 text 0) (.start (some '('.toUInt8)) (text ++ ')'.toUInt8 :: rest)
      (')'.toUInt8 :: rest)) : appendSubstitution (extractors n) (text ++ ')'.toUInt8 :: rest) = .ok (text ++ [')'.toUInt8],rest) := by
  obtain ⟨m,rfl⟩ : ∃ m, n = m + 1 := ⟨n - 1,by omega⟩
  have hp : (extractors (m + 1)).paren (text ++ ')'.toUInt8 :: rest) = .ok (text,rest) :=
    (extractParenWith_eq_iff_of_reaches (h m (by omega))).2 rfl
  rw [appendSubstitution,if_neg (head?_append_quote_ne (by decide) hh),hp]
  rfl

theorem braceBody_eq_of_reaches (hn : text.length < n)
    (h : ∀ m, text.length ≤ m → Reaches (braceStep (extractors m) false) (Holding text) ⟨false,[]⟩ (text ++ '}'.toUInt8 :: rest)
      ('}'.toUInt8 :: rest)) : (extractors n).braceBody false (text ++ '}'.toUInt8 :: rest) = .ok (text,rest) := by
  obtain ⟨m,rfl⟩ : ∃ m, n = m + 1 := ⟨n - 1,by omega⟩
  exact extractBraceBodyWith_of_reaches (h m (by omega))

mutual
theorem Body.reads {parens n : ℕ} {body : Bytes} {s : Paren} {tail : Bytes} (c : Body) (hw : c.WellFormed) (hs : c.Safe)
    (hn : c.write.length ≤ n) (h : At (parens + 1) body 0 s) (hta : Ends c.lastText tail) :
    Reaches (parenStep (extractors n)) (At (parens + 1) (body ++ c.write) 0) s (c.write ++ tail) tail := by
  match c with
  | .mk text more =>
    rw [Body.WellFormed] at hw
    rw [Body.Safe] at hs
    rw [Body.write,length_append] at hn
    have hp : Plain text (more.write ++ tail) := ⟨all_eq_true.1 hw.1,hw.2.1,ends_more hw.2.2.1 hta⟩
    have hte := at_text (extractors n) h hp hs.1
    have ha := hte.bind fun t ht => more.reads hw.2.2.2 hs.2 (by omega) ht hta
    rwa [append_assoc,← Body.write,← append_assoc,← Body.write] at ha

theorem More.reads {parens n : ℕ} {body : Bytes} {s : Paren} {before tail : Bytes} (more : More) (hw : more.WellFormed)
    (hs : more.Safe)
    (hn : more.write.length ≤ n) (h : At (parens + 1) body 0 s) (hta : Ends (more.lastText before) tail) :
    Reaches (parenStep (extractors n)) (At (parens + 1) (body ++ more.write) 0) s (more.write ++ tail) tail := by
  match more with
  | .done => exact .here (by simpa [More.write] using h)
  | .escape b c =>
    rw [More.write,length_cons,length_cons] at hn
    have hr := (at_escape (extractors n) b h).bind fun t ht => c.reads hw hs (by omega) ht hta
    simpa [More.write] using hr
  | .single text c =>
    rw [More.write,length_cons,length_append,length_cons] at hn
    have hq : appendQuotedBytes (extractors n) '\'' ((text ++ ['\''.toUInt8]) ++ (c.write ++ tail)) =
        .ok ('\''.toUInt8 :: (text ++ ['\''.toUInt8]),c.write ++ tail) := by
      have hth := throughQuote_quote (by decide) hw.1 (c.write ++ tail)
      rw [if_pos hs.1] at hth
      simp +decide [appendQuotedBytes,hth,copied,Except.map]
    have hr := (at_quotation (extractors n) h (.inl rfl) hq).bind fun t ht => c.reads hw.2 hs.2 (by omega) ht hta
    simpa [More.write] using hr
  | .double q c =>
    rw [More.write,length_cons,length_append,length_cons] at hn
    have hq : appendQuotedBytes (extractors n) '"' ((q.write ++ ['"'.toUInt8]) ++ (c.write ++ tail)) =
        .ok ('"'.toUInt8 :: (q.write ++ ['"'.toUInt8]),c.write ++ tail) := by
      rw [← append_cons,appendQuotedBytes,if_pos rfl,q.reads hw.1 hs.1 (by omega)]
      · rfl
      · rw [length_append]
        omega
    have hr := (at_quotation (extractors n) h (.inr rfl) hq).bind fun t ht => c.reads hw.2 hs.2 (by omega) ht hta
    simpa [More.write] using hr
  | .parens d c =>
    rw [More.write,length_cons,length_append,length_cons] at hn
    have hr := (at_open (extractors n) h).bind fun t ht => (d.reads hw.1 hs.1 (by omega) ht (ends_paren _ (c.write ++ tail))).bind
      fun u hu => (at_close (extractors n) hu).bind fun v hv => c.reads hw.2 hs.2 (by omega) hv hta
    simpa [More.write] using hr

theorem Inside.reads {n : ℕ} (q : Inside) (hw : q.WellFormed false) (hs : q.Safe false) (hn : q.write.length ≤ n) (fuel : ℕ)
    (hf : q.write.length < fuel) (rest : Bytes) :
    appendDoubleQuotedBytes (extractors n) fuel (q.write ++ '"'.toUInt8 :: rest) = .ok (q.write ++ ['"'.toUInt8],rest) := by
  obtain ⟨fuel,rfl⟩ : ∃ m, fuel = m + 1 := ⟨fuel - 1,by omega⟩
  match q with
  | .done =>
    rw [Inside.write,nil_append,appendDoubleQuotedBytes,if_pos rfl]
    rfl
  | .byte b more =>
    rw [Inside.write,length_cons] at hn hf
    have hh : b = '$' → (more.write ++ '"'.toUInt8 :: rest).head? ≠ some '{'.toUInt8 ∧
        (more.write ++ '"'.toUInt8 :: rest).head? ≠ some '('.toUInt8 := fun hb =>
      ⟨head?_append_quote_ne (by decide) (hw.2.1 hb).1,head?_append_quote_ne (by decide) (hw.2.1 hb).2⟩
    rw [Inside.write,cons_append,appendDoubleQuotedBytes_byte hw.1 hh,
      more.reads hw.2.2 hs.2 (by omega) fuel (by omega)]
    rfl
  | .escape b more =>
    rw [Inside.write,length_cons,length_cons] at hn hf
    rw [Inside.write,cons_append,cons_append,appendDoubleQuotedBytes_escape,more.reads hw hs.2 (by omega) fuel (by omega)]
    rfl
  | .quotation l more => exact absurd hw.1 (by decide)
  | .backquoted l more =>
    rw [Inside.write,length_cons,length_append,length_cons] at hn hf
    rw [Inside.write,cons_append,append_assoc,cons_append,appendDoubleQuotedBytes_backquoted hw.1,
      more.reads hw.2 hs (by omega) fuel (by omega)]
    simp [copied,Except.map]
  | .arithmetic a more =>
    rw [Inside.write] at hn hf
    simp only [length_cons,length_append] at hn hf
    have hi := appendSubstitution_arithmetic (extractors n) (more.write ++ '"'.toUInt8 :: rest) hw.1
    rw [Inside.write]
    simp only [cons_append,append_assoc]
    rw [appendDoubleQuotedBytes_substitution hi,more.reads hw.2 hs (by omega) fuel (by omega)]
    simp [copied,Except.map]
  | .command d more =>
    rw [Inside.write] at hn hf
    simp only [length_cons,length_append] at hn hf
    have hi := appendSubstitution_of_reaches (n := n) hw.2.1 (by omega) fun m hm =>
      d.reads hw.1 hs.1 hm (at_start (some '('.toUInt8)) (ends_paren _ (more.write ++ '"'.toUInt8 :: rest))
    rw [Inside.write]
    simp only [cons_append,append_assoc]
    rw [appendDoubleQuotedBytes_substitution hi,more.reads hw.2.2 hs.2 (by omega) fuel (by omega)]
    simp [copied,Except.map]
  | .parameter p more =>
    rw [Inside.write] at hn hf
    simp only [length_cons,length_append] at hn hf
    have hi := braceBody_eq_of_reaches (n := n) (by omega) fun m hm =>
      p.readsBraced hw.1 hs.1 hm rfl (more.write ++ '"'.toUInt8 :: rest)
    rw [Inside.write]
    simp only [cons_append,append_assoc]
    rw [appendDoubleQuotedBytes_parameter hi,more.reads hw.2 hs.2 (by omega) fuel (by omega)]
    simp [copied,Except.map]

theorem Inside.readsBraced {n : ℕ} {front : Bytes} {t : BraceBody} (p : Inside) (hw : p.WellFormed true) (hs : p.Safe true)
    (hn : p.write.length ≤ n) (ht : Holding front t) (rest : Bytes) :
    Reaches (braceStep (extractors n) false) (Holding (front ++ p.write)) t (p.write ++ '}'.toUInt8 :: rest) ('}'.toUInt8 :: rest) := by
  match p with
  | .done => exact .here (by simpa [Inside.write] using ht)
  | .byte b more =>
    rw [Inside.write,length_cons] at hn
    have hh : b = '$' → (more.write ++ '}'.toUInt8 :: rest).head? ≠ some '{'.toUInt8 ∧
        (more.write ++ '}'.toUInt8 :: rest).head? ≠ some '('.toUInt8 ∧ (more.write ++ '}'.toUInt8 :: rest).head? ≠ some '\''.toUInt8 :=
      fun hb => ⟨head?_append_quote_ne (by decide) (hw.2.1 hb).1,head?_append_quote_ne (by decide) (hw.2.1 hb).2,
        head?_append_quote_ne (by decide) (more.head?_ne_of_safe hs.2)⟩
    have hr := (reaches_add ht (braceStep_byte (extractors n) hw.1 (hs.1 rfl) hh) rfl (Nat.le_refl _)).bind fun u hu =>
      more.readsBraced hw.2.2 hs.2 (by omega) hu rest
    simpa [Inside.write] using hr
  | .escape b more =>
    rw [Inside.write,length_cons,length_cons] at hn
    have hr := (reaches_add ht (braceStep_escape (extractors n) (more.write ++ '}'.toUInt8 :: rest) (hs.1 rfl)) rfl (by simp)).bind fun u hu =>
      more.readsBraced hw hs.2 (by omega) hu rest
    simpa [Inside.write] using hr
  | .quotation l more =>
    rw [Inside.write,length_cons,length_append,length_cons] at hn
    obtain ⟨u,hst,hu⟩ := braceStep_quotation (extractors n) t (more.write ++ '}'.toUInt8 :: rest) hw.2.1
    have hr := (reaches_add ht hst hu (by simp; omega)).bind fun u hu => more.readsBraced hw.2.2 hs (by omega) hu rest
    simpa [Inside.write] using hr
  | .backquoted l more =>
    rw [Inside.write,length_cons,length_append,length_cons] at hn
    have hr := (reaches_add ht (braceStep_backquoted (extractors n) (more.write ++ '}'.toUInt8 :: rest) hw.1) rfl (by simp; omega)).bind
      fun u hu => more.readsBraced hw.2 hs (by omega) hu rest
    simpa [Inside.write] using hr
  | .arithmetic a more =>
    rw [Inside.write] at hn
    simp only [length_cons,length_append] at hn
    have hi := appendSubstitution_arithmetic (extractors n) (more.write ++ '}'.toUInt8 :: rest) hw.1
    have hr := (reaches_add ht (braceStep_substitution hi) rfl (by simp; omega)).bind fun u hu =>
      more.readsBraced hw.2 hs (by omega) hu rest
    simpa [Inside.write] using hr
  | .command d more =>
    rw [Inside.write] at hn
    simp only [length_cons,length_append] at hn
    have hi := appendSubstitution_of_reaches (n := n) hw.2.1 (by omega) fun m hm =>
      d.reads hw.1 hs.1 hm (at_start (some '('.toUInt8)) (ends_paren _ (more.write ++ '}'.toUInt8 :: rest))
    have hr := (reaches_add ht (braceStep_substitution hi) rfl (by simp; omega)).bind fun u hu =>
      more.readsBraced hw.2.2 hs.2 (by omega) hu rest
    simpa [Inside.write] using hr
  | .parameter q more =>
    rw [Inside.write] at hn
    simp only [length_cons,length_append] at hn
    have hi := braceBody_eq_of_reaches (n := n) (by omega) fun m hm =>
      q.readsBraced hw.1 hs.1 hm rfl (more.write ++ '}'.toUInt8 :: rest)
    have hr := (reaches_add ht (braceStep_parameter hi) rfl (by simp; omega)).bind fun u hu =>
      more.readsBraced hw.2 hs.2 (by omega) hu rest
    simpa [Inside.write] using hr
end

section
variable (previous : Option UInt8) (rest : Bytes)

theorem extractParen_of_safe (c : Body) (hw : c.WellFormed) (hs : c.Safe) :
    extractParen previous (c.write ++ ')'.toUInt8 :: rest) = .ok (c.write,rest) := by
  have hn : c.write.length ≤ (c.write ++ ')'.toUInt8 :: rest).length := by simp
  exact (extractParenWith_eq_iff_of_reaches (c.reads hw hs hn (at_start previous) (ends_paren _ rest))).2 rfl

theorem extractParen_ne_of_odd (d : Body) (hw : d.WellFormed) (hs : d.Safe) (hd : ¬['$'.toUInt8] <:+ d.lastText) (s e : Bytes)
    (hqu : '\''.toUInt8 ∉ s) (ho : ¬Even (backslashes s)) (hla : '\''.toUInt8 ∉ e) :
    extractParen previous (d.write ++ '\''.toUInt8 :: (s ++ '\''.toUInt8 :: (e ++ ')'.toUInt8 :: rest))) ≠
      .ok (d.write ++ '\''.toUInt8 :: (s ++ '\''.toUInt8 :: e),rest) := by
  intro hok
  have hta : Ends d.lastText ('\''.toUInt8 :: (s ++ '\''.toUInt8 :: (e ++ ')'.toUInt8 :: rest))) :=
    ⟨fun h => absurd h hd,by simp +decide,by simp +decide⟩
  have hn : d.write.length ≤ (d.write ++ '\''.toUInt8 :: (s ++ '\''.toUInt8 :: (e ++ ')'.toUInt8 :: rest))).length := by simp
  have hf := d.reads hw hs hn (at_start previous) hta
  -- the quotation as the scanner reads it, and that it holds the parenthesis
  obtain ⟨chunk,after,hc⟩ : ∃ chunk after, Braces.throughQuote '\'' (s ++ '\''.toUInt8 :: (e ++ ')'.toUInt8 :: rest)) =
    (chunk,after) :=
    ⟨_,_,rfl⟩
  have hcu : s ++ '\''.toUInt8 :: (e ++ ')'.toUInt8 :: rest) = chunk ++ after := by
    have ha := throughQuote_append '\'' (s ++ '\''.toUInt8 :: (e ++ ')'.toUInt8 :: rest))
    rw [hc] at ha
    exact ha.symm
  have hlo : s.length + e.length + 2 ≤ chunk.length := by
    have ho' := throughQuote_quote (by decide) hqu (e ++ ')'.toUInt8 :: rest)
    have hno : '\''.toUInt8 ∉ e ++ [')'.toUInt8] := by simpa [hla] using show '\''.toUInt8 ≠ ')'.toUInt8 by decide
    have hco := (isPrefix_throughQuote hno rest).length_le
    rw [hc,if_neg ho,Prod.mk.injEq] at ho'
    simp only [append_assoc,singleton_append,length_append,length_cons,length_nil] at hco
    rw [ho'.1,length_append,length_cons]
    omega
  have hq : ∀ ext, appendQuotedBytes ext '\'' (chunk ++ after) = .ok ('\'' :: chunk,after) := by
    intro ext
    rw [← hcu,appendQuotedBytes,if_neg (by decide),hc]
    rfl
  obtain ⟨t,hle,ht⟩ := hf.bind fun t ht => by
    rw [hcu]
    exact at_quotation _ ht (.inl rfl) (hq _)
  have hl := (body_isPrefix_of_leads hle hok).length_le
  rw [ht.body] at hl
  simp only [nil_append,length_append,length_cons] at hl
  omega

/-- Safe bodies end at the parenthesis behind them; one with an odd number of backslashes before a
single quote does not. -/
theorem extractParen_bodies :
    (∀ c : Body, c.WellFormed → c.Safe → extractParen previous (c.write ++ ')'.toUInt8 :: rest) = .ok (c.write,rest)) ∧
    ∀ (d : Body) (s e : Bytes), d.WellFormed → d.Safe → ¬['$'.toUInt8] <:+ d.lastText → '\''.toUInt8 ∉ s → ¬Even (backslashes s) →
      '\''.toUInt8 ∉ e → extractParen previous (d.write ++ '\''.toUInt8 :: (s ++ '\''.toUInt8 :: (e ++ ')'.toUInt8 :: rest))) ≠
        .ok (d.write ++ '\''.toUInt8 :: (s ++ '\''.toUInt8 :: e),rest) :=
  ⟨extractParen_of_safe previous rest,fun d s e hw hs hdollar hquote hodd hlast =>
    extractParen_ne_of_odd previous rest d hw hs hdollar s e hquote hodd hlast⟩
end

def quotedParenthesis : Body :=
  .mk "echo " (.single "\\\\" (.mk [0x20] (.double (.byte ')' .done) (.mk [] .done))))

def quotedBackslash : Body := .mk "echo " (.single "\\" (.mk [] .done))

theorem quotedParenthesis_ends :
    extractParen (some '('.toUInt8) (quotedParenthesis.write ++ ')'.toUInt8 :: []) = .ok (quotedParenthesis.write,[]) := by
  refine (extractParen_bodies _ _).1 quotedParenthesis ?_ ?_
  · simp only [quotedParenthesis,Body.WellFormed,More.WellFormed,Inside.WellFormed]
    decide
  · simp only [quotedParenthesis,Body.Safe,More.Safe,Inside.Safe]
    decide

/-- A backslash in single quotes hides the quote that closes them. -/
theorem quotedBackslash_does_not_end :
    quotedBackslash.WellFormed ∧
      extractParen (some '('.toUInt8) (quotedBackslash.write ++ ')'.toUInt8 :: []) = .error (.badSubstitution "missing ')'") := by
  refine ⟨?_,by decide +kernel⟩
  simp only [quotedBackslash,Body.WellFormed,More.WellFormed]
  decide
end Cherubsh.Expander.ParamScanning
