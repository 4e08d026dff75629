import Cherubsh.Expander.ArrayFields

/-! # Literal text and expansions in one word

Literal bytes of IFS are quoted when they are put next to the results of expansions, so that
splitting leaves them alone. The three bytes of patterns are not.
-/
namespace Cherubsh.Expander.Words
open Utf8 Split Buffer Cuts Parameters Piece IfsState List

section
variable {α β : Type} (p : α → Bool) {l : List α} {x : α}

theorem splitOnP_map (f : β → α) (l : List β) : (l.map f).splitOnP p = (l.splitOnP (p ∘ f)).map (List.map f) := by
  induction l with
  | nil => rfl
  | cons y l ih =>
    rw [map_cons,splitOnP_cons_eq_if_modifyHead,splitOnP_cons_eq_if_modifyHead,ih,Function.comp_apply]
    split
    · rfl
    · cases l.splitOnP (p ∘ f) <;> rfl

theorem flatten_splitOnP (l : List α) : (l.splitOnP p).flatten = l.filter fun x => !p x := by
  induction l with
  | nil => rfl
  | cons y l ih =>
    obtain ⟨first,more,hp⟩ := exists_cons_of_ne_nil (splitOnP_ne_nil p l)
    rw [splitOnP_cons_eq_if_modifyHead]
    cases hy : p y with
    | true => simp [hy,ih]
    | false => simp [hy,← ih,hp]

theorem mem_splitOnP {part : List α} (hp : part ∈ l.splitOnP p) : ∀ x ∈ part, x ∈ l ∧ p x = false := by
  intro x hx
  have hm := mem_flatten.mpr ⟨part,hp,hx⟩
  simpa [flatten_splitOnP] using hm

theorem exists_mem_splitOnP (hx : x ∈ l) (hp : p x = false) : ∃ part ∈ l.splitOnP p, x ∈ part := by
  rw [← mem_flatten,flatten_splitOnP]
  simp [hx,hp]
end

def firstPiece (bytes : Bytes) : Piece :=
  if bytes.head? = some ctlesc then if bytes[1]? = some ctlraw then .plain (bytes.getD 2 0) else .quoted (bytes.getD 1 0)
  else if bytes.head? = some ctlnul then .empty
  else if bytes.head? = some ctlfield then .field
  else .plain (bytes.headD 0)

theorem firstPiece_append {p : Piece} (hp : p ≠ .quoted 0) (rest : Bytes) : firstPiece (p.bytes ++ rest) = p := by
  cases p with
  | quoted b =>
    have hb : b ≠ ctlraw := fun h => hp (by rw [h]; rfl)
    simp [firstPiece,bytes,hb]
  | plain b =>
    cases hc : isCtl b with
    | true => simp [firstPiece,bytes,hc]
    | false =>
      obtain ⟨he,hf,hn⟩ := isCtl_eq_false_iff.mp hc
      simp [firstPiece,bytes,hc,he,hf,hn]
  | empty => rfl
  | field => rfl

theorem write_injective {ps qs : List Piece} (hps : Splittable ps) (hqs : Splittable qs) (h : write ps = write qs) : ps = qs := by
  induction ps generalizing qs with
  | nil => exact Eq.symm (by_contra fun hne => write_ne_nil hne h.symm)
  | cons p ps ih =>
    obtain _ | ⟨q,qs⟩ := qs
    · exact absurd h (write_ne_nil (cons_ne_nil p ps))
    obtain ⟨hp,hps⟩ := forall_mem_cons.mp hps
    obtain ⟨hq,hqs'⟩ := forall_mem_cons.mp hqs
    have heq : p = q := by
      rw [← firstPiece_append hp.1 (write ps),← write_cons,h,write_cons,firstPiece_append hq.1]
    subst heq
    exact congrArg _ (ih hps hqs' (append_cancel_left h))

section
abbrev Item := Bool × Piece

def writeItems (items : List Item) : Bytes := write (items.map Prod.snd)

def itemFields (items : List Item) : List (List Item) :=
  if items.any fun x => x.2 = .field then
    (items.splitOnP fun x => x.2 = .field).map fun part => if part = [] then [(false,.empty)] else part
  else [items]

/-- Each part stays one field, or only what an expansion wrote is dropped between its fields. -/
def KeepsLiterals (expand : ExpandFlags) (flags : Flags) (ifs : IfsState) (items : List Item) : Prop :=
  ∀ part ∈ itemFields items, ∃ groups,
    (groups = [part] ∨ CutsInto (fun x => x.1 = false ∧ Delimiter ifs x.2) (fun _ => True) part groups) ∧
      splitStage expand ifs (flags,writeItems part) = groups.map fun g => (flags,writeItems g)

/-- The stage of word splitting cuts the word, which it does for one with an expansion alone. -/
def IsSplit (expand : ExpandFlags) (flags : Flags) : Prop := (expand.splitFields && !flags.noSplit && flags.hasDollar) = true

theorem splitStage_of_isSplit {expand : ExpandFlags} {flags : Flags} (h : IsSplit expand flags) (ifs : IfsState) (bytes : Bytes) :
    splitStage expand ifs (flags,bytes) = (split bytes ifs).map fun part => (flags,part) := if_pos h

variable {items : List Item} {ifs : IfsState} {expand : ExpandFlags} {flags : Flags}

theorem splitFieldMarkers_writeItems (h : ∀ x ∈ items, x.2 ≠ .quoted 0) :
    splitFieldMarkers (writeItems items) = (itemFields items).map writeItems := by
  have hz : quoted 0 ∉ items.map Prod.snd := fun hm => by
    obtain ⟨x,hx,hz⟩ := mem_map.mp hm
    exact h x hx hz
  have hf : (items.any fun x => decide (x.2 = .field)) ↔ field ∈ items.map Prod.snd := by
    simp
  have hs : (items.map Prod.snd).splitOn .field = (items.splitOnP fun x => decide (x.2 = .field)).map (List.map Prod.snd) := by
    rw [splitOn_eq_splitOnP,splitOnP_map]
    rfl
  unfold writeItems itemFields
  rw [splitFieldMarkers_write hz,hs]
  by_cases hm : field ∈ items.map Prod.snd
  · rw [if_pos hm,if_pos (hf.mpr hm),map_map,map_map]
    refine map_congr_left fun part _ => ?_
    cases part <;> simp
  · rw [if_neg hm,if_neg (mt hf.mp hm)]
    rfl

theorem mem_itemFields {part : List Item} (hpa : part ∈ itemFields items) :
    ∀ x ∈ part, x.2 ≠ .field ∧ (x ∈ items ∨ x = (false,.empty)) := by
  unfold itemFields at hpa
  split at hpa
  · obtain ⟨p,hp,rfl⟩ := mem_map.mp hpa
    intro x hx
    split at hx
    · cases mem_singleton.mp hx
      exact ⟨by simp,.inr rfl⟩
    · obtain ⟨hm,hf⟩ := mem_splitOnP _ hp x hx
      exact ⟨of_decide_eq_false hf,.inl hm⟩
  · rename_i ha
    cases mem_singleton.mp hpa
    intro x hx
    exact ⟨fun hf => ha (any_eq_true.mpr ⟨x,hx,decide_eq_true hf⟩),.inl hx⟩

theorem exists_mem_itemFields {x : Item} (hx : x ∈ items) (hf : x.2 ≠ .field) : ∃ part ∈ itemFields items, x ∈ part := by
  unfold itemFields
  split
  · obtain ⟨part,hp,hm⟩ := exists_mem_splitOnP (fun x : Item => decide (x.2 = .field)) hx (decide_eq_false hf)
    refine ⟨part,mem_map.mpr ⟨part,hp,if_neg ?_⟩,hm⟩
    exact ne_nil_of_mem hm
  · exact ⟨items,mem_singleton_self _,hx⟩

theorem keepsLiterals_iff (hse : Separated ifs) (h : ∀ x ∈ items, x.2 ≠ .quoted 0)
    (ha : ∀ b, (true,.plain b) ∈ items → ifs.isIfs b → b < 0x80) :
    KeepsLiterals expand flags ifs items ↔ (IsSplit expand flags → ∀ b, (true,.plain b) ∈ items → ifs.isIfs b = false) := by
  have hs : ∀ part ∈ itemFields items, Splittable (part.map Prod.snd) := by
    intro part hpa p hp
    obtain ⟨x,hx,rfl⟩ := mem_map.mp hp
    obtain ⟨hf,hm | rfl⟩ := mem_itemFields hpa x hx
    · exact ⟨h x hm,hf⟩
    · exact ⟨by simp,hf⟩
  constructor
  · intro hk hsplit b hb
    by_contra hi
    rw [Bool.not_eq_false] at hi
    obtain ⟨part,hpa,hm⟩ := exists_mem_itemFields hb (by simp)
    obtain ⟨groups,hc,hsp⟩ := hk part hpa
    -- The byte lies in a field, and no field holds an unquoted byte of IFS.
    have hin : ∃ g ∈ groups, (true,Piece.plain b) ∈ g ∧ ∀ x ∈ g, x ∈ part := by
      rcases hc with rfl | hc
      · exact ⟨part,mem_singleton_self _,hm,fun _ hx => hx⟩
      · obtain ⟨before,after,heq⟩ := append_of_mem hm
        obtain ⟨g,hg,hin⟩ := hc.exists_infix
          (show part = before ++ ([(true,Piece.plain b)] ++ after) from heq) (by simp) (by simp)
        exact ⟨g,hg,hin.mem mem_cons_self,fun x hx => (hc.mem_and_kept g hg x hx).1⟩
    obtain ⟨g,hg,hbg,hmem⟩ := hin
    obtain ⟨groups',hc',hsp'⟩ := split_pieces hse (hs part hpa)
    have hf : writeItems g ∈ groups'.map write := by
      have hw : (flags,writeItems g) ∈ splitStage expand ifs (flags,writeItems part) := hsp ▸ mem_map_of_mem hg
      rw [splitStage_of_isSplit hsplit] at hw
      obtain ⟨field,hfield,heq⟩ := mem_map.mp hw
      rw [← hsp',← (Prod.mk.inj heq).2]
      exact hfield
    obtain ⟨g',hg',heq'⟩ := mem_map.mp hf
    have hsa : g' = g.map Prod.snd := by
      refine write_injective (fun p hp => hs part hpa p (hc'.mem_and_kept g' hg' p hp).1) (fun p hp => ?_) heq'
      obtain ⟨x,hx,rfl⟩ := mem_map.mp hp
      exact hs part hpa _ (mem_map_of_mem (hmem x hx))
    have hpl : Piece.plain b ∈ g' := hsa ▸ mem_map_of_mem hbg
    exact absurd ((hc'.mem_and_kept g' hg' _ hpl).2 b rfl (ha b hb hi)) (by simp [hi])
  · intro hn part hpa
    by_cases hsplit : IsSplit expand flags
    · obtain ⟨groups,hc,hsp⟩ := split_pieces hse (hs part hpa)
      obtain ⟨groups',rfl,hc'⟩ := hc.of_map
      refine ⟨groups',.inr (hc'.imp ?_ fun _ _ _ => trivial),?_⟩
      · rintro ⟨literal,p⟩ hx ⟨b,rfl,hi⟩
        refine ⟨?_,b,rfl,hi⟩
        obtain ⟨-,hm | heq⟩ := mem_itemFields hpa _ hx
        · cases literal with
          | false => rfl
          | true => exact absurd (hn hsplit b hm) (by simp [hi])
        · cases heq
      · rw [splitStage_of_isSplit hsplit,writeItems,hsp,map_map,map_map]
        rfl
    · exact ⟨[part],.inl rfl,if_neg hsplit⟩
end

section
variable {S E : Type} (H : Host S E) (paramExpand : Bool → Bytes → ExpandBuf → Expand S E (Option (ExpandBuf × Bytes)))
  (flags : Flags) {b : UInt8}

inductive Part where
  | literal (b : UInt8)
  | expansion (text : Bytes) (pieces : List Piece)

def Part.text : Part → Bytes
  | .literal b => [b]
  | .expansion text _ => '$' :: text

def textOf (parts : List Part) : Bytes := parts.flatMap Part.text

/-- No blank, and nothing that begins a quotation or an expansion. -/
def isLiteral (b : UInt8) : Bool := !([0,0x20,0x09,0x0A] ++ "\\'\"$\x60<>".toUTF8.toList).contains b

def isPatternByte (b : UInt8) : Bool := b = '*' || b = '?' || b = '['

def literalPiece (ifs : IfsState) (b : UInt8) : Piece := if ifs.isIfsNonws b && !isPatternByte b then .quoted b else .plain b

def Part.items (ifs : IfsState) : Part → List Item
  | .literal b => [(true,literalPiece ifs b)]
  | .expansion _ pieces => pieces.map (false,·)

def itemsOf (ifs : IfsState) (parts : List Part) : List Item := parts.flatMap (Part.items ifs)

def mayHoldTilde (ctx : ExpCtx S) (r : Run) (b : UInt8) : Bool := tildeMark flags (flags.assignment && !H.option ctx.env "posix") r b

def afterLiteral (ctx : ExpCtx S) (r : Run) (b : UInt8) : Run :=
  ⟨pushOriginalLiteral ctx.ifs (!flags.noSplit) r.out b,r.eqSeen || (mayHoldTilde H flags ctx r b && b = '=')⟩

/-- The loop over a word reads these parts: no tilde is expanded, and expansions write behind what
is there. -/
inductive ReadsParts : List Part → Run → ExpCtx S → ExpCtx S → Prop
  | nil (r : Run) (ctx : ExpCtx S) : ReadsParts [] r ctx ctx
  | literal {b : UInt8} {parts : List Part} {r : Run} {ctx ctx' : ExpCtx S} (hb : isLiteral b)
      (htilde : mayHoldTilde H flags ctx r b → (textOf parts).head? ≠ some '~'.toUInt8)
      (h : ReadsParts parts (afterLiteral H flags ctx r b) ctx ctx') : ReadsParts (.literal b :: parts) r ctx ctx'
  | expansion {text : Bytes} {pieces : List Piece} {parts : List Part} {r r' : Run} {ctx ctx₁ ctx' : ExpCtx S}
      (hrun : runStep H paramExpand flags r '$' (text ++ textOf parts) ctx = .ok ((r',textOf parts),ctx₁))
      (hout : r'.out.bytes = r.out.bytes ++ write pieces) (hzero : .quoted 0 ∉ pieces) (hifs : ctx₁.ifsValue = ctx.ifsValue)
      (h : ReadsParts parts r' ctx₁ ctx') : ReadsParts (.expansion text pieces :: parts) r ctx ctx'

variable {H paramExpand flags} {parts : List Part} {r : Run} {ctx ctx' : ExpCtx S}

theorem bytes_pushOriginalLiteral (ifs : IfsState) (out : ExpandBuf) (b : UInt8) :
    (pushOriginalLiteral ifs true out b).bytes = out.bytes ++ (literalPiece ifs b).bytes := by
  unfold pushOriginalLiteral literalPiece isPatternByte
  rw [Bool.true_and]
  split <;> rfl

theorem tildeAt_of_head? {tryTilde : Bytes → Option Bytes} (out : ExpandBuf) {text : Bytes} (h : text.head? ≠ some '~') :
    tildeAt tryTilde out text = (out,text) := by
  obtain _ | ⟨b,text⟩ := text
  · rfl
  · have hb : b ≠ '~' := by simpa using h
    simp [tildeAt,tildePrefixLen,hb]

theorem runStep_literal {rest : Bytes} (hb : isLiteral b)
    (ht : mayHoldTilde H flags ctx r b → rest.head? ≠ some '~'.toUInt8) :
    runStep H paramExpand flags r b rest ctx = .ok ((afterLiteral H flags ctx r b,rest),ctx) := by
  have hne : ∀ c ∈ "\\'\"$\x60<>".toUTF8.toList, b ≠ c := by
    rintro c hc rfl
    simp only [isLiteral,Bool.not_eq_true',contains_eq_mem,decide_eq_false_iff_not,mem_append,not_or] at hb
    exact hb.2 hc
  have hby : "\\'\"$\x60<>".toUTF8.toList = ['\\'.toUInt8,'\''.toUInt8,'"'.toUInt8,'$'.toUInt8,'\x60'.toUInt8,'<'.toUInt8,'>'.toUInt8] := by
    decide +kernel
  simp only [hby,forall_mem_cons] at hne
  obtain ⟨hba,hs,hd,hdo,hq,hl,hg,-⟩ := hne
  unfold runStep
  have hh : tildeMark flags (flags.assignment && !H.option ctx.env "posix") r b = mayHoldTilde H flags ctx r b := rfl
  simp only [bind_apply,get_apply,ok_bind,hba,hs,hd,hdo,hq,hl,hg,or_self,false_and,if_false,hh]
  cases hm : mayHoldTilde H flags ctx r b with
  | false => simp [afterLiteral,hm,Run.add]
  | true => simp [afterLiteral,hm,tildeAt_of_head? _ (ht hm)]

theorem runLoop_parts (hs : flags.noSplit = false) (h : ReadsParts H paramExpand flags parts r ctx ctx') {fuel : ℕ}
    (hf : (textOf parts).length ≤ fuel) : ctx'.ifsValue = ctx.ifsValue ∧ ∃ out,
      runLoop H paramExpand flags fuel r (textOf parts) ctx = .ok (out,ctx') ∧
        out.bytes = r.out.bytes ++ writeItems (itemsOf ctx.ifs parts) := by
  induction h generalizing fuel with
  | nil r ctx => cases fuel <;> exact ⟨rfl,r.out,rfl,by simp [writeItems,itemsOf]⟩
  | @literal b parts r ctx ctx' hb ht h ih =>
    obtain _ | fuel := fuel
    · simp [textOf,Part.text] at hf
    obtain ⟨hi,out,hr,ho⟩ := ih (by simpa [textOf,Part.text] using hf : (textOf parts).length ≤ fuel)
    refine ⟨hi,out,?_,?_⟩
    · show (runStep H paramExpand flags r b (textOf parts) ctx).bind _ = _
      rw [runStep_literal hb ht]
      exact hr
    · rw [ho,afterLiteral,hs,Bool.not_false,bytes_pushOriginalLiteral]
      simp [writeItems,itemsOf,Part.items]
  | @expansion text pieces parts r r' ctx ctx₁ ctx' hr ho _ hi h ih =>
    obtain _ | fuel := fuel
    · simp [textOf,Part.text] at hf
    obtain ⟨hi',out,hr',ho'⟩ := ih (by simp [textOf,Part.text] at hf ⊢; omega : (textOf parts).length ≤ fuel)
    refine ⟨hi'.trans hi,out,?_,?_⟩
    · show (runStep H paramExpand flags r '$' (text ++ textOf parts) ctx).bind _ = _
      rw [hr]
      exact hr'
    · rw [ho',ho,ExpCtx.ifs,hi]
      simp [writeItems,itemsOf,Part.items,ExpCtx.ifs,Function.comp_def]

theorem isIfsNonws_of_isLiteral (value : Option Text) (hb : isLiteral b) :
    (fromEnv value).isIfsNonws b = (fromEnv value).isIfs b := by
  have hbl : isBlank b = false := by
    simp only [isLiteral,Bool.not_eq_true',contains_eq_mem,decide_eq_false_iff_not,mem_append,not_or] at hb
    have hne := hb.1
    simp only [mem_cons,not_or] at hne
    simp [isBlank,hne]
  rw [fromEnv_eq]
  simp [isIfsNonws,isIfs,buildFor,hbl]

variable (h : ReadsParts H paramExpand flags parts r ctx ctx')
include h

theorem ReadsParts.quoted_ne_zero (ifs : IfsState) : ∀ x ∈ itemsOf ifs parts, x.2 ≠ .quoted 0 := by
  induction h with
  | nil => simp [itemsOf]
  | @literal b _ _ _ _ hb _ _ ih =>
    refine forall_mem_cons.mpr ⟨?_,ih⟩
    show literalPiece ifs b ≠ .quoted 0
    unfold literalPiece
    split
    · rintro heq
      cases heq
      exact absurd hb (by decide +kernel)
    · simp
  | @expansion text pieces _ _ _ _ _ _ _ _ hz _ _ ih =>
    intro x hx
    obtain hx | hx := mem_append.mp hx
    · obtain ⟨p,hp,rfl⟩ := mem_map.mp hx
      exact fun heq => hz (heq ▸ hp)
    · exact ih x hx

theorem ReadsParts.isLiteral_of_mem (hb : .literal b ∈ parts) : isLiteral b := by
  induction h with
  | nil => cases hb
  | literal hb' _ _ ih =>
    obtain heq | hb := mem_cons.mp hb
    · cases heq
      exact hb'
    · exact ih hb
  | expansion _ _ _ _ _ ih => exact ih ((mem_cons.mp hb).resolve_left (by simp))

omit h

theorem mem_itemsOf_plain {ifs : IfsState} :
    (true,Piece.plain b) ∈ itemsOf ifs parts ↔ .literal b ∈ parts ∧ (ifs.isIfsNonws b → isPatternByte b) := by
  have hpi : literalPiece ifs b = .plain b ↔ (ifs.isIfsNonws b → isPatternByte b) := by
    unfold literalPiece
    split <;> simp_all
  rw [← hpi]
  constructor
  · intro h
    obtain ⟨part,hp,hm⟩ := mem_flatMap.mp h
    cases part with
    | expansion text pieces => simp [Part.items] at hm
    | literal c =>
      have heq : Piece.plain b = literalPiece ifs c := by simpa [Part.items] using hm
      have hc : b = c := by
        unfold literalPiece at heq
        split at heq <;> cases heq
        rfl
      exact ⟨hc ▸ hp,hc ▸ heq.symm⟩
  · rintro ⟨hp,heq⟩
    exact mem_flatMap.mpr ⟨_,hp,by simp [Part.items,heq]⟩

/-- Splitting leaves the literal bytes of a word alone exactly when the word is not split or none of
them is a byte of patterns and of IFS. -/
theorem literals_kept_iff (expand : ExpandFlags) (hsplit : flags.noSplit = false)
    (hread : ReadsParts H paramExpand flags parts ⟨.new,false⟩ ctx ctx')
    (hstart : (textOf parts).head? ≠ some '~'.toUInt8) (noTilde : Bool) :
    ∃ out, expandWord H paramExpand flags noTilde (textOf parts) ctx = .ok (out,ctx') ∧ ctx'.ifs = ctx.ifs ∧
      splitFieldMarkers out.bytes = (itemFields (itemsOf ctx.ifs parts)).map writeItems ∧
      (KeepsLiterals expand flags ctx.ifs (itemsOf ctx.ifs parts) ↔
        (IsSplit expand flags → ∀ b, .literal b ∈ parts → isPatternByte b → ctx.ifs.isIfs b = false)) := by
  obtain ⟨hifs,out,hrun,hout⟩ := runLoop_parts hsplit hread le_rfl
  have hitems := hread.quoted_ne_zero ctx.ifs
  have hpattern : ∀ b, (true,Piece.plain b) ∈ itemsOf ctx.ifs parts → ctx.ifs.isIfs b → isPatternByte b := by
    intro b hb hifs
    obtain ⟨hmem,himp⟩ := mem_itemsOf_plain.mp hb
    exact himp ((isIfsNonws_of_isLiteral ctx.ifsValue (hread.isLiteral_of_mem hmem)).trans hifs)
  refine ⟨out,?_,by rw [ExpCtx.ifs,hifs]; rfl,?_,
    (keepsLiterals_iff (separated_fromEnv _) hitems fun b hb hifs => ?_).trans (imp_congr_right fun _ => ⟨?_,?_⟩)⟩
  · have htilde : tildeAt (H.tryTilde ctx.env) .new (textOf parts) = _ := tildeAt_of_head? .new hstart
    simp only [expandWord,bind_apply,get_apply,ok_bind]
    split
    · rw [htilde]
      exact hrun
    · exact hrun
  · rw [show out.bytes = writeItems (itemsOf ctx.ifs parts) by simpa [ExpandBuf.new] using hout]
    exact splitFieldMarkers_writeItems hitems
  · have hb' := hpattern b hb hifs
    simp only [isPatternByte,Bool.or_eq_true,decide_eq_true_eq] at hb'
    obtain (rfl | rfl) | rfl := hb' <;> decide
  · intro hnone b hb hpat
    exact hnone b (mem_itemsOf_plain.mpr ⟨hb,fun _ => hpat⟩)
  · intro hnone b hb
    by_contra hifs
    rw [Bool.not_eq_false] at hifs
    cases (hnone b (mem_itemsOf_plain.mp hb).1 (hpattern b hb hifs)).symm.trans hifs
end

/-- `a:$x` with a colon in IFS and in `x`. -/
theorem literals_kept_colon :
    let parts := [.literal 0x61,.literal 0x3A,.expansion [0x78] [.plain 0x31,.plain 0x3A,.plain 0x32]]
    let ctx := Tables.ctx ⟨[],[([0x78],"1:2")],[],[]⟩ (some ":")
    ∃ out, expandWord tableShell.toHost (paramExpand tableShell (expandWordInternal tableShell 1)) dollarFlags false (textOf parts) ctx =
        .ok (out,ctx) ∧ KeepsLiterals commandFlags dollarFlags ctx.ifs (itemsOf ctx.ifs parts) := by
  intro parts ctx
  have hread : ReadsParts tableShell.toHost (paramExpand tableShell (expandWordInternal tableShell 1)) dollarFlags parts
    ⟨.new,false⟩ ctx ctx :=
    .literal (by decide +kernel) (by decide) (.literal (by decide +kernel) (by decide)
      (.expansion rfl rfl (by decide) rfl (.nil _ _)))
  obtain ⟨out,hrun,-,-,hiff⟩ := literals_kept_iff commandFlags rfl hread (by decide +kernel) false
  refine ⟨out,hrun,hiff.mpr fun _ b hb => ?_⟩
  obtain rfl | rfl : b = 0x61 ∨ b = 0x3A := by simpa [parts] using hb
  all_goals decide

/-- `a*b$x` with a star in IFS, an empty `x` and globbing off: the star is taken for a delimiter. -/
theorem literal_star_dropped :
    let ctx := Tables.ctx ⟨[],[([0x78],[])],[],["noglob"]⟩ (some "*")
    expandWords tableShell [⟨"a*b$x",dollarFlags⟩] commandFlags ctx =
      .ok ([⟨"a",dollarFlags⟩,⟨"b",dollarFlags⟩],ctx) := rfl
end Cherubsh.Expander.Words
