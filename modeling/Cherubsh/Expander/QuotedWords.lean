import Cherubsh.Expander.SplitPieces
import Cherubsh.Expander.ParamDispatch
import Cherubsh.Expander.ParenQuotes
import Cherubsh.Expander.BraceUnits

/-! # Words that are one quoted expansion

What a quoted expansion writes is not split, matched against file names or read as a quote again.
-/
namespace Cherubsh.Expander.Parameters
open Utf8 Split Buffer ShellString Words Piece Pattern Braces List
variable {ifs : IfsState} {ps : List Piece} {α : Type}

section
variable {v : Bytes} {p : Piece}

def quoteText (v : Bytes) : List Piece := if v.isEmpty then [.empty] else v.map .quoted

theorem quoteText_ne_nil (v : Bytes) : quoteText v ≠ [] := by
  cases v <;> simp [quoteText]

theorem mem_quoteText (h : p ∈ quoteText v) : p = .empty ∨ ∃ b ∈ v, p = .quoted b := by
  cases v <;> simp_all [quoteText,eq_comm]

@[simp] theorem flatMap_text_quoteText (v : Bytes) : (quoteText v).flatMap text = v := by
  cases v <;> simp [quoteText,text,flatMap_map]

theorem stays_of_mem_quoteText (hv : 0 ∉ v) (hp : p ∈ quoteText v) : Stays ifs p := by
  obtain rfl | ⟨b,hb,rfl⟩ := mem_quoteText hp
  · trivial
  · exact fun h => hv (h ▸ hb)

theorem group_quoteText (hv : 0 ∉ v) : Group ifs (quoteText v) :=
  ⟨quoteText_ne_nil v,fun _ => stays_of_mem_quoteText hv⟩

theorem quoted_zero_notMem_quoteText (hv : 0 ∉ v) : .quoted 0 ∉ quoteText v := by
  intro h
  obtain h | ⟨b,hb,h⟩ := mem_quoteText h
  · cases h
  · cases h
    exact hv hb

theorem field_notMem_quoteText (v : Bytes) : .field ∉ quoteText v := by
  intro h
  obtain h | ⟨b,-,h⟩ := mem_quoteText h <;> cases h

theorem dequoteBytes_quoteText (hv : 0 ∉ v) : dequoteBytes (write (quoteText v)) = v := by
  rw [dequoteBytes_write (quoted_zero_notMem_quoteText hv),flatMap_text_quoteText]

def Bare (ps : List Piece) : Prop := ∀ p ∈ ps, p = .plain 0x20 ∨ p = .empty ∨ ∃ b, b ≠ 0 ∧ p = .quoted b

theorem Bare.splitFieldMarkers (h : Bare ps) : splitFieldMarkers (write ps) = [write ps] := by
  have hz : .quoted 0 ∉ ps := fun hm => by simpa using h _ hm
  have hf : .field ∉ ps := fun hm => by simpa using h _ hm
  rw [splitFieldMarkers_write hz,if_neg hf]

theorem hasGlobMeta_quoted (hps : Bare ps) (opts : GlobOpts) : hasGlobMeta (write ps) opts = false := by
  have hw : ∀ fuel, hasGlobMetaWith opts fuel (write ps) = false := by
    induction ps with
    | nil => rintro (_ | fuel) <;> rfl
    | cons p ps ih =>
      obtain ⟨hp,hr⟩ := forall_mem_cons.mp hps
      rintro (_ | fuel)
      · rfl
      obtain rfl | rfl | ⟨b,hb,rfl⟩ := hp
      · simpa +decide [bytes,hasGlobMetaWith] using ih hr fuel
      · simpa +decide [bytes,hasGlobMetaWith] using ih hr fuel
      · have hra : b ≠ ctlraw := hb
        cases hby : write ps with
        | nil => simp [bytes,hasGlobMetaWith,hby]
        | cons c rest => simpa [bytes,hasGlobMetaWith,hby,hra] using ih hr fuel
  exact hw _

theorem bare_of_mem_quoteText (hv : 0 ∉ v) (hp : p ∈ quoteText v) :
    p = .empty ∨ ∃ b, b ≠ 0 ∧ p = .quoted b := by
  obtain rfl | ⟨b,hb,rfl⟩ := mem_quoteText hp
  · exact .inl rfl
  · exact .inr ⟨b,fun h => hv (h ▸ hb),rfl⟩

theorem hasGlobMeta_quoteText (hv : 0 ∉ v) (opts : GlobOpts) : hasGlobMeta (write (quoteText v)) opts = false :=
  hasGlobMeta_quoted (fun _ hp => .inr (bare_of_mem_quoteText hv hp)) opts
end

section
variable (out : ExpandBuf)

@[simp] theorem bytes_pushQuotedSlice (s : Bytes) : (out.pushQuotedSlice s).bytes = out.bytes ++ write (s.map .quoted) := by
  unfold ExpandBuf.pushQuotedSlice
  induction s generalizing out with
  | nil => simp
  | cons b s ih => simp [ih,ExpandBuf.pushQuoted,bytes]

@[simp] theorem bytes_pushLiteralSlice (s : Bytes) : (out.pushLiteralSlice s).bytes = out.bytes ++ write (s.map .plain) := by
  unfold ExpandBuf.pushLiteralSlice
  induction s generalizing out with
  | nil => simp
  | cons b s ih => simp [ih,ExpandBuf.pushLiteral,bytes]

theorem bytes_pushValue_quoted (v : Bytes) : (pushValue out v true).bytes = out.bytes ++ write (quoteText v) := by
  cases v <;> simp [pushValue,quoteText,ExpandBuf.pushQuotedParamNull,bytes]

theorem bytes_pushArrayElementValue_quoted (v : Bytes) (raw : Bool) :
    (pushArrayElementValue out v true raw).bytes = out.bytes ++ write (quoteText v) := by
  cases v <;> simp [pushArrayElementValue,pushValueMaybeRawCtlnul,pushValue,quoteText,ExpandBuf.pushQuotedNull,bytes]

omit out in
theorem intercalate_cons (sep g : List α) (gs : List (List α)) :
    List.intercalate sep (g :: gs) = g ++ gs.flatMap (sep ++ ·) := by
  induction gs generalizing g with
  | nil => simp
  | cons h gs ih => simp [ih h]

theorem bytes_pushEach {between : ExpandBuf → ExpandBuf} {push : ExpandBuf → α → ExpandBuf} (sep : List Piece)
    (piece : α → List Piece) (hb : ∀ out, (between out).bytes = out.bytes ++ write sep)
    (hp : ∀ out v, (push out v).bytes = out.bytes ++ write (piece v)) (vs : List α) :
    (pushEach between push out vs).bytes = out.bytes ++ write (List.intercalate sep (vs.map piece)) := by
  cases vs with
  | nil => simp [pushEach]
  | cons v vs =>
    have hf : ∀ vs : List α, ∀ out, (vs.foldl (fun out v => push (between out) v) out).bytes =
        out.bytes ++ vs.flatMap fun v => write sep ++ write (piece v) := by
      intro vs
      induction vs with
      | nil => simp
      | cons w vs ih => simp [ih,hp,hb]
    rw [pushEach,hf,hp,map_cons,intercalate_cons,write_append,append_assoc]
    simp [write,flatMap_map,flatMap_assoc]
end

section
variable {S E : Type} (H : Host S E) {ctx ctx' : ExpCtx S}

def dollarFlags : Flags := { Flags.none with hasDollar := true }

theorem mapM_ok {β : Type} {f : α → Expand S E β} {g : α → β} {l : List α} (h : ∀ a ∈ l, f a ctx = .ok (g a,ctx)) :
    l.mapM f ctx = .ok (l.map g,ctx) := by
  induction l with
  | nil => rfl
  | cons a l ih =>
    obtain ⟨ha,hl⟩ := forall_mem_cons.mp h
    simp [mapM_cons,ha,ih hl]

theorem globStage_of_not_meta (flags : ExpandFlags) {w : Flags × Bytes} (h : ∀ opts, hasGlobMeta w.2 opts = false) :
    globStage H flags w ctx = .ok ([w],ctx) := by
  simp [globStage,h]

variable {expandInner : Flags → Bool → Bytes → Expand S E ExpandBuf} {flags : ExpandFlags} {text : Text} {buf : ExpandBuf}

theorem mem_intercalate {sep : List α} {x : α} {ls : List (List α)} (h : x ∈ sep.intercalate ls) :
    x ∈ sep ∨ ∃ l ∈ ls, x ∈ l := by
  cases ls with
  | nil => simp at h
  | cons l ls =>
    rw [intercalate_cons,mem_append,mem_flatMap] at h
    obtain h | ⟨m,hm,h⟩ := h
    · exact .inr ⟨l,by simp,h⟩
    obtain h | h := mem_append.mp h
    · exact .inl h
    · exact .inr ⟨m,by simp [hm],h⟩

theorem fields_of_list (hse : Separated ifs) {vs : List Bytes} (hvs : ∀ v ∈ vs, 0 ∉ v) :
    (splitFieldMarkers (write (List.intercalate [.field] (vs.map quoteText)))).flatMap (fun part => split part ifs) =
      vs.map fun v => write (quoteText v) := by
  by_cases hn : vs = []
  · subst hn
    have hno : split (write []) ifs = _ := split_stays hse (by simp)
    simpa [splitFieldMarkers] using hno
  set ps := List.intercalate [.field] (vs.map quoteText) with hps
  have hs : ps.splitOn .field = vs.map quoteText := by
    refine splitOn_intercalate field (fun part hp => ?_) (by simpa using hn)
    obtain ⟨v,-,rfl⟩ := mem_map.mp hp
    exact field_notMem_quoteText v
  have hz : .quoted 0 ∉ ps := by
    intro h
    obtain h | ⟨part,hp,h⟩ := mem_intercalate h
    · simp at h
    · obtain ⟨v,hv,rfl⟩ := mem_map.mp hp
      exact quoted_zero_notMem_quoteText (hvs v hv) h
  have hm : splitFieldMarkers (write ps) = vs.map fun v => write (quoteText v) := by
    rw [splitFieldMarkers_write hz]
    split
    · rw [hs,map_map]
      exact map_congr_left fun v _ => by simp [quoteText_ne_nil]
    · rename_i hf
      rw [splitOn_eq_singleton hf] at hs
      simpa [Function.comp_def] using congrArg (List.map write) hs
  rw [hm,flatMap_map,map_eq_flatMap]
  refine flatMap_congr fun v hv => ?_
  rw [split_stays hse fun _ => stays_of_mem_quoteText (hvs v hv),if_neg (quoteText_ne_nil v)]

variable (hsp : flags.splitFields) (hbr : braceExpand (encode text) = [encode text])
    (hi : expandInner dollarFlags flags.noTilde (encode text) { ctx with splitFields := true } = .ok (buf,ctx'))
include hsp hbr hi

theorem run_word {fields : List Bytes} (hf : (splitFieldMarkers buf.bytes).flatMap (fun part => split part ctx'.ifs) = fields)
    (hm : ∀ field ∈ fields, ∀ opts, hasGlobMeta field opts = false) :
    run H expandInner [⟨text,dollarFlags⟩] flags ctx =
      .ok (fields.map fun field => toParser (dollarFlags,field),{ ctx' with splitFields := ctx.splitFields }) := by
  have hst : braceStage flags ⟨text,dollarFlags⟩ = [(dollarFlags,encode text)] := by
    simp [braceStage,hbr]
  have hs : (((splitFieldMarkers buf.bytes).map fun part => (dollarFlags,part)).flatMap
      (splitStage flags ctx'.ifs)) = fields.map fun field => (dollarFlags,field) := by
    rw [← hf]
    simp [splitStage,hsp,dollarFlags,Flags.none,flatMap_map,map_flatMap]
  have hg : (fields.map fun field => (dollarFlags,field)).mapM (globStage H flags) ctx' =
      .ok ((fields.map fun field => (dollarFlags,field)).map fun w => [w],ctx') := by
    refine mapM_ok fun w hw => globStage_of_not_meta H flags ?_
    obtain ⟨field,hfi,rfl⟩ := mem_map.mp hw
    exact hm field hfi
  simp only [run,runWithContext,flatMap_cons,flatMap_nil,append_nil,hst,mapM_cons,mapM_nil,
    bind_apply,get_apply,modify_apply,pure_apply,ok_bind,hsp,hi,hs,hg]
  rw [← flatMap_def,flatMap_singleton',map_map]
  rfl

theorem run_bare {ps : List Piece} (hbu : buf.bytes = write ps) (hne : ps ≠ []) (hb : Bare ps) (hst : ∀ p ∈ ps, Stays ctx'.ifs p) :
    run H expandInner [⟨text,dollarFlags⟩] flags ctx =
      .ok ([toParser (dollarFlags,write ps)],{ ctx' with splitFields := ctx.splitFields }) := by
  have hf : (splitFieldMarkers buf.bytes).flatMap (fun part => split part ctx'.ifs) = [write ps] := by
    rw [hbu,hb.splitFieldMarkers,flatMap_singleton]
    exact (split_stays (separated_fromEnv ctx'.ifsValue) hst).trans (if_neg hne)
  refine run_word H hsp hbr hi hf ?_
  simpa using hasGlobMeta_quoted hb

variable {vs : List Text} (hvs : ∀ v ∈ vs, '\x00' ∉ v)
include hvs

theorem run_quoted (hf : (splitFieldMarkers buf.bytes).flatMap (fun part => split part ctx'.ifs) = vs.map fun v => write (quoteText (encode v))) :
    run H expandInner [⟨text,dollarFlags⟩] flags ctx =
      .ok (vs.map fun v => ⟨v,dollarFlags⟩,{ ctx' with splitFields := ctx.splitFields }) := by
  have hn : ∀ v ∈ vs, 0 ∉ encode v := by simpa [zero_mem_encode] using hvs
  rw [run_word H hsp hbr hi hf ?_]
  · simp only [map_map,Function.comp_def]
    refine congrArg (fun l => Except.ok (l,_)) (map_congr_left fun v hv => ?_)
    simp [toParser,dequoteBytes_quoteText (hn v hv),bytesToShellString_encode]
  · intro field hfi
    obtain ⟨v,hv,rfl⟩ := mem_map.mp hfi
    exact hasGlobMeta_quoteText (hn v hv)

theorem run_list (hbu : buf.bytes = write (List.intercalate [.field] (vs.map fun v => quoteText (encode v)))) :
    run H expandInner [⟨text,dollarFlags⟩] flags ctx =
      .ok (vs.map fun v => ⟨v,dollarFlags⟩,{ ctx' with splitFields := ctx.splitFields }) := by
  have hn : ∀ v ∈ vs.map encode, 0 ∉ v := by
    simpa [zero_mem_encode] using hvs
  have hf := fields_of_list (separated_fromEnv ctx'.ifsValue) hn
  rw [map_map,map_map,Function.comp_def,Function.comp_def,← hbu] at hf
  exact run_quoted H hsp hbr hi hvs hf
end

section
variable {S E : Type} (H : Host S E) {ctx ctx' : ExpCtx S}

theorem braceExpand_of_none {word : Bytes} (h : findTopBrace word = none) : braceExpand word = [word] := by
  simp [braceExpand,braceExpandWith,h]

theorem braceExpand_quoted {body : Bytes} (hq : '"'.toUInt8 ∉ body) (hb : '\\'.toUInt8 ∉ body) :
    braceExpand ('"'.toUInt8 :: (body ++ ['"'.toUInt8])) = ['"'.toUInt8 :: (body ++ ['"'.toUInt8])] := by
  have ht : throughQuote '"' (body ++ ['"'.toUInt8]) = (body ++ ['"'.toUInt8],[]) := by
    induction body with
    | nil => rfl
    | cons b body ih =>
      simp only [mem_cons,not_or] at hq hb
      rw [cons_append,ParamScanning.throughQuote_cons (Ne.symm hq.1) (Ne.symm hb.1),ih hq.2 hb.2]
  have hs : topBraceStep ('"'.toUInt8 :: (body ++ ['"'.toUInt8])) =
      some (.inr ('"'.toUInt8 :: (body ++ ['"'.toUInt8]),[])) := by
    simp +decide [topBraceStep,quotedChunk,ht]
  refine braceExpand_of_none ?_
  rw [findTopBrace_of_skip hs]
  rfl

theorem expandWord_quoted {paramExpand : Bool → Bytes → ExpandBuf → Expand S E (Option (ExpandBuf × Bytes))} {text : Bytes}
    {out : ExpandBuf} (noTilde : Bool) (h : paramExpand true ('$' :: text) .new ctx = .ok (some (out,['"']),ctx')) :
    expandWord H paramExpand dollarFlags noTilde ('"' :: '$' :: text) ctx = .ok (out,ctx') := by
  have ht : tildeAt (H.tryTilde ctx.env) .new ('"' :: '$' :: text) =
      (.new,'"'.toUInt8 :: '$'.toUInt8 :: text) := by
    simp +decide [tildeAt,tildePrefixLen]
  have hd : ∀ n, dropEmptyParamBeforeDollarAt n ['"'] out = out := by
    simp [dropEmptyParamBeforeDollarAt,nextIsDollarAt]
  have hs : scanDoubleQuoted H paramExpand false (text.length + 2) false .new ('$' :: text) ctx = .ok ((out,[]),ctx') := by
    simp +decide [scanDoubleQuoted,h,hd]
  simp only [expandWord,bind_apply,get_apply,ok_bind,ht,ite_self]
  simp +decide [runLoop,runStep,dollarFlags,Flags.none,hs]
end
end Cherubsh.Expander.Parameters
