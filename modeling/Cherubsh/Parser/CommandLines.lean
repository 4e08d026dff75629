import Cherubsh.Parser.HereDocFrames

/-! # Lines of simple commands

A line of commands is written down as the grammar has it: simple commands of words and
redirections, joined to pipelines, to and-or lists and to a list. The parser reads such a line to its
end, whatever the documents below it are, and its here-documents are those of the line.
-/
namespace Cherubsh.Grammar
open Redirect List

section
structure Redirection where
  redirector : Option Token
  op : Token
  target : Token

inductive Piece where
  | word (t : Token)
  | redirection (r : Redirection)

def Redirection.tokens (r : Redirection) : List Token := r.redirector.toList ++ [r.op,r.target]

def Piece.tokens : Piece → List Token
  | .word t => [t]
  | .redirection r => r.tokens

/-- The document that a redirection asks for. -/
def Redirection.wanted (r : Redirection) : Option Wanted :=
  match redirectInstruction r.op.kind with
  | some instruction =>
    if readsUntil instruction then
      some (wantedOf instruction ⟨tokenValueToString r.target.value,r.target.wordFlags,r.target.span,none⟩)
    else none
  | none => none

def Piece.wanted : Piece → List Wanted
  | .word _ => []
  | .redirection r => r.wanted.toList

def pieceTokens (ps : List Piece) : List Token := ps.flatMap Piece.tokens

def wantedBy (ps : List Piece) : List Wanted := ps.flatMap Piece.wanted

/-- A number or a name in braces right before an operator says what is redirected. -/
def actsOn (t op : Token) : Bool :=
  isRedirectionKind op.kind && (isRedirWordToken t || (t.kind = .number && t.span.stop = op.span.start))

def wordKind (kind : TokenKind) : Bool :=
  match kind with
  | .word | .assignmentWord | .redirWord | .number => true
  | _ => false

def Redirection.Fits (l : Line) (r : Redirection) : Prop :=
  (∀ t ∈ r.redirector,actsOn t r.op ∧ wordKind t.kind) ∧ isRedirectionKind r.op.kind ∧ isRedirectionTarget r.target ∧
    (r.wanted.isSome → lineEnd l.input r.target.span.stop = l.newline)

/-- The name of the command after a word, or nothing where the word is refused: an array
assignment stands before the name, or behind one of the builtins that take it. -/
def nameAfter (name : Option Text) (t : Token) : Option (Option Text) :=
  if t.kind = .number then some name
  else if t.wordFlags &&& wCompassign ≠ 0 ∧ (name.any fun name => !assignmentBuiltinAcceptsCompound name) then none
  else some (if name.isNone && t.kind ≠ .assignmentWord then some (tokenValueToString t.value) else name)

/-- Words and redirections that are read as such, with what stands behind them. -/
def PiecesFit (l : Line) : Option Text → List Piece → List Token → Prop
  | _, [], _ => True
  | name, .word t :: ps, after =>
    isRedirectionTarget t ∧ (∀ u ∈ (pieceTokens ps ++ after).head?,actsOn t u = false ∧ u.kind ≠ .lParen) ∧
      ∃ name', nameAfter name t = some name' ∧ PiecesFit l name' ps after
  | name, .redirection r :: ps, after => r.Fits l ∧ PiecesFit l name ps after

/-- A simple command: it does not begin with a reserved word. -/
def CommandFits (l : Line) (ps : List Piece) (after : List Token) : Prop :=
  PiecesFit l none ps after ∧ (wantedBy ps).length ≤ heredocMax ∧
    ∃ t rest, pieceTokens ps = t :: rest ∧ ∀ w, t.value = .text w → Lexer.isReservedWordText w = false

/-- One or more items with operators between them. -/
structure Series (α : Type) where
  first : α
  rest : List (Token × α)

def framed (wanted : List Wanted) : List (List Wanted) := if wanted = [] then [] else [wanted]

section
variable {α : Type} (render : α → List Token) (asks : α → List (List Wanted)) (kinds : List TokenKind)
  (fits : α → List Token → Prop)

def restTokens (rest : List (Token × α)) : List Token := rest.flatMap fun (op,a) => op :: render a

def restFrames (rest : List (Token × α)) : List (List Wanted) := rest.flatMap fun (_,a) => asks a

def Separates (op : Token) : Prop := op.kind ∈ kinds ∧ isRedirWordToken op = false

def RestFits : List (Token × α) → List Token → Prop
  | [], _ => True
  | (op,a) :: rest, after => Separates kinds op ∧ fits a (restTokens render rest ++ after) ∧ RestFits rest after

def Series.tokens (x : Series α) : List Token := render x.first ++ restTokens render x.rest

def Series.frames (x : Series α) : List (List Wanted) := asks x.first ++ restFrames asks x.rest

def Series.Fits (x : Series α) (after : List Token) : Prop :=
  fits x.first (restTokens render x.rest ++ after) ∧ RestFits render kinds fits x.rest after
end

abbrev Pipeline : Type := Series (List Piece)
abbrev AndOr : Type := Series Pipeline

def Pipeline.tokens : Pipeline → List Token := Series.tokens pieceTokens
def Pipeline.frames : Pipeline → List (List Wanted) := Series.frames fun ps => framed (wantedBy ps)
def Pipeline.Fits (l : Line) : Pipeline → List Token → Prop := Series.Fits pieceTokens [.pipe,.barAnd] (CommandFits l)

def AndOr.tokens : AndOr → List Token := Series.tokens Pipeline.tokens
def AndOr.frames : AndOr → List (List Wanted) := Series.frames Pipeline.frames
def AndOr.Fits (l : Line) : AndOr → List Token → Prop := Series.Fits Pipeline.tokens [.andAnd,.orOr] (Pipeline.Fits l)
end

/-- A list with a separator after its last command or without, up to the end of the line. -/
structure CommandLine where
  list : Series AndOr
  last : Option Token
  newline : Token

namespace CommandLine
variable (x : CommandLine)

def ending : List Token := x.last.toList ++ [x.newline]

def tokens : List Token := x.list.tokens AndOr.tokens ++ x.ending

/-- The here-documents asked for, command by command, of the commands that ask for some. -/
def frames : List (List Wanted) := x.list.frames AndOr.frames

def Fits (l : Line) : Prop :=
  x.list.Fits AndOr.tokens [.semicolon,.ampersand] (AndOr.Fits l) x.ending ∧
    (∀ t ∈ x.last,Separates [.semicolon,.ampersand] t) ∧ Separates [.newline] x.newline
end CommandLine

section
variable {l : Line} {frames : List (List Redirect)} {own : List Redirect} {rest : List Token} {s : Parser} {t u : Token}
  {lexer : Relexer}

theorem refineInstruction_of_readsUntil {plain : RedirectInstruction} (h : readsUntil plain = true) (target : Text) :
    refineInstruction plain target = plain := by
  cases plain <;> first | rfl | cases h

theorem readsUntil_refineInstruction (plain : RedirectInstruction) (target : Text) :
    readsUntil (refineInstruction plain target) = readsUntil plain := by
  unfold refineInstruction
  cases hd : duplicates plain with
  | false => rfl
  | true =>
    have hr : readsUntil plain = false := by cases plain <;> first | rfl | cases hd
    rw [if_neg (by simp),hr]
    repeat' split
    all_goals first | rfl | exact hr

theorem exists_redirectInstruction {kind : TokenKind} (h : isRedirectionKind kind = true) :
    ∃ plain, redirectInstruction kind = some plain := by
  cases kind <;> first | exact ⟨_,rfl⟩ | cases h

theorem Ahead.parseRedirect {r : Redirection} (h : Ahead l frames own (r.op :: r.target :: rest) s) (hfits : r.Fits l)
    (hcount : own.length + r.wanted.toList.length ≤ heredocMax) (redirector : Option Token) :
    ∃ d s', parseRedirect lexer.relex redirector s = .ok (d,s') ∧ (hereDocsOf [d]).map Redirect.wanted = r.wanted.toList ∧
      Ahead l frames (own ++ hereDocsOf [d]) rest s' := by
  obtain ⟨-,hkind,htarget,hline⟩ := hfits
  obtain ⟨plain,hplain⟩ := exists_redirectInstruction hkind
  have hafter := h.advance.advance
  let text := tokenValueToString r.target.value
  unfold Redirection.wanted at hcount hline ⊢
  simp only [hplain] at hcount hline ⊢
  unfold Grammar.parseRedirect
  rw [bind_of_ok h.bump]
  simp only [hplain]
  rw [bind_of_ok h.advance.bump]
  simp only [htarget,Bool.not_true,Bool.false_eq_true,if_false]
  rw [get_bind]
  cases hreads : readsUntil plain with
  | true =>
    simp only [hreads,if_true,Option.toList_some,length_singleton,Option.isSome_some,true_imp_iff] at hcount hline ⊢
    rw [refineInstruction_of_readsUntil hreads,if_pos hreads]
    obtain ⟨body,place,s',hdoc,hahead⟩ := hafter.parseHereDoc (by omega)
      ⟨text,r.target.wordFlags,r.target.span,Parser.rawForSpan { s with index := s.index + 1 + 1 } r.target.span⟩ hline plain r.op.span
    rw [bind_of_ok hdoc]
    refine ⟨_,s',rfl,?_⟩
    have hd : ∀ d : Redirect, d.instruction = plain → hereDocsOf [d] = [d] := by
      intro d hd
      simp [hereDocsOf,isHereDoc,hd,hreads]
    rw [hd _ rfl]
    have hwanted : ∀ d : Redirect, d.instruction = plain → ∀ w, d.redirectee = redirecteeOf plain w → d.wanted = wantedOf plain w := by
      intro d hi w hw
      rw [Redirect.wanted,Redirect.target,hw,redirecteeOf_hereDoc hreads,hi]
    refine ⟨?_,hahead _ rfl rfl (hwanted _ rfl _ rfl)⟩
    rw [map_singleton,hwanted _ rfl _ rfl]
    rfl
  | false =>
    rw [readsUntil_refineInstruction,hreads]
    simp only [Bool.false_eq_true,if_false,Option.toList_none]
    refine ⟨_,_,rfl,?_⟩
    have hd : ∀ d : Redirect, d.instruction = refineInstruction plain text → hereDocsOf [d] = [] := by
      intro d hd
      simp [hereDocsOf,isHereDoc,hd,readsUntil_refineInstruction,hreads]
    rw [hd _ rfl,append_nil]
    exact ⟨rfl,hafter⟩

theorem redirectorAhead_eq (h : s.peek = some t) :
    (isRedirWordRedirector s || (s.peekKind = some .number && numberIsAdjacentRedirectionOperator s)) =
      (s.peekN 1).any (actsOn t) := by
  unfold isRedirWordRedirector numberIsAdjacentRedirectionOperator Parser.peekKind
  rw [h]
  cases s.peekN 1 with
  | none => simp
  | some op =>
    simp only [Option.any_some,Option.map_some,Option.some.injEq,actsOn]
    cases isRedirectionKind op.kind <;> simp

theorem nextRedirect_of_other (h : s.peek = some t) (hk : isRedirectionKind t.kind = false)
    (hn : ∀ u ∈ s.peekN 1,actsOn t u = false) : nextRedirect lexer.relex s = .ok (none,s) := by
  have ha : (s.peekN 1).any (actsOn t) = false := by
    rw [Option.any_eq_false]
    simpa using hn
  have hkind : s.peekKind.any isRedirectionKind = false := by simp [Parser.peekKind,h,hk]
  refine (get_bind _ s).trans ?_
  rw [redirectorAhead_eq h,ha,hkind]
  rfl

theorem not_redirectionKind_of_target (h : isRedirectionTarget t = true) : isRedirectionKind t.kind = false := by
  unfold isRedirectionTarget at h
  cases hk : t.kind <;> rw [hk] at h <;> first | rfl | cases h

theorem Ahead.nextRedirect {r : Redirection} (h : Ahead l frames own (r.tokens ++ rest) s) (hfits : r.Fits l)
    (hcount : own.length + r.wanted.toList.length ≤ heredocMax) :
    ∃ d s', nextRedirect lexer.relex s = .ok (some d,s') ∧ (hereDocsOf [d]).map Redirect.wanted = r.wanted.toList ∧
      Ahead l frames (own ++ hereDocsOf [d]) rest s' := by
  obtain ⟨redirector,op,target⟩ := r
  have hacts := hfits.1
  have hop : isRedirectionKind op.kind = true := hfits.2.1
  have htarget : isRedirectionKind target.kind = false := not_redirectionKind_of_target hfits.2.2.1
  unfold Grammar.nextRedirect
  rw [get_bind]
  cases redirector with
  | some t =>
    have hstate : Ahead l frames own (t :: op :: target :: rest) s := h
    rw [redirectorAhead_eq hstate.peek,hstate.peekN_one,Option.any_some,(hacts t rfl).1,if_pos rfl,bind_of_ok hstate.bump]
    obtain ⟨d,s',hd,hw,hs'⟩ := hstate.advance.parseRedirect (r := ⟨some t,op,target⟩) hfits hcount (some t)
    exact ⟨d,s',by rw [bind_of_ok hd]; rfl,hw,hs'⟩
  | none =>
    have hstate : Ahead l frames own (op :: target :: rest) s := h
    have hn : actsOn op target = false := by simp [actsOn,htarget]
    rw [redirectorAhead_eq hstate.peek,hstate.peekN_one,Option.any_some,hn,hstate.peekKind,Option.any_some,hop]
    obtain ⟨d,s',hd,hw,hs'⟩ := hstate.parseRedirect (r := ⟨none,op,target⟩) hfits hcount none
    exact ⟨d,s',by rw [if_neg Bool.false_ne_true,if_pos rfl,bind_of_ok hd]; rfl,hw,hs'⟩

theorem simpleWord_of_nameAfter {c : SimpleSoFar} {name : Option Text} (h : nameAfter c.commandName t = some name) :
    ∃ w, simpleWord c t s = .ok (⟨c.words ++ [w],c.redirects,name⟩,s) := by
  unfold simpleWord
  unfold nameAfter at h
  rw [get_bind]
  dsimp only
  split at h
  next hk =>
    rw [if_pos hk,← Option.some.inj h]
    exact ⟨_,rfl⟩
  next hk =>
    split at h
    · cases h
    next hf =>
      rw [if_neg hk,if_neg hf,← Option.some.inj h]
      exact ⟨_,rfl⟩

variable (lexer) in
/-- The rounds of the loop over words and redirections, one for each. -/
theorem Ahead.iterate_simpleStep {ps : List Piece} {c : SimpleSoFar} {fuel : ℕ}
    (h : Ahead l frames (hereDocsOf c.redirects) (pieceTokens ps ++ t :: rest) s)
    (hfits : PiecesFit l c.commandName ps (t :: rest))
    (hcount : (hereDocsOf c.redirects).length + (wantedBy ps).length ≤ heredocMax) (ht : isRedirectionKind t.kind = false)
    (hend : isRedirectionTarget t = false) (hacts : ∀ u, actsOn t u = false) (hfuel : ps.length < fuel) :
    ∃ c' s', iterate .outOfFuel (simpleStep lexer.relex) fuel c s = .ok (c',s') ∧
      (hereDocsOf c'.redirects).map Redirect.wanted = (hereDocsOf c.redirects).map Redirect.wanted ++ wantedBy ps ∧
      Ahead l frames (hereDocsOf c'.redirects) (t :: rest) s' ∧
      c'.words.length + c'.redirects.length = c.words.length + c.redirects.length + ps.length := by
  obtain ⟨fuel,rfl⟩ := Nat.exists_eq_succ_of_ne_zero (Nat.ne_zero_of_lt hfuel)
  induction ps generalizing c s fuel with
  | nil =>
    have hstep : simpleStep lexer.relex c s = .ok (.inr c,s) := by
      unfold simpleStep
      rw [bind_of_ok (nextRedirect_of_other h.peek ht fun u _ => hacts u)]
      dsimp only
      rw [get_bind,h.peek]
      simp only [hend]
      rfl
    exact ⟨c,s,bind_of_ok hstep,by simp [wantedBy],h,rfl⟩
  | cons p ps ih =>
    rw [length_cons] at hfuel
    obtain ⟨fuel,rfl⟩ := Nat.exists_eq_succ_of_ne_zero (show fuel ≠ 0 by omega)
    cases p with
    | word w =>
      obtain ⟨hw,hnext,name,hname,hrest⟩ := hfits
      have hstate : Ahead l frames _ (w :: (pieceTokens ps ++ t :: rest)) s := h
      have hpeek : ∀ u ∈ s.peekN 1,actsOn w u = false := by
        intro u hu
        cases hcons : pieceTokens ps ++ t :: rest with
        | nil => simp at hcons
        | cons v more =>
          rw [hcons] at hnext hstate
          rw [hstate.peekN_one] at hu
          cases hu
          exact (hnext u rfl).1
      obtain ⟨desc,hword⟩ := simpleWord_of_nameAfter (s := { s with index := s.index + 1 }) hname
      have hstep : simpleStep lexer.relex c s = .ok (.inl ⟨c.words ++ [desc],c.redirects,name⟩,{ s with index := s.index + 1 }) := by
        unfold simpleStep
        rw [bind_of_ok (nextRedirect_of_other hstate.peek (not_redirectionKind_of_target hw) hpeek)]
        dsimp only
        rw [get_bind,hstate.peek]
        simp only [hw,if_true]
        rw [bind_of_ok hstate.bump,bind_of_ok hword]
        rfl
      obtain ⟨c',s',hrun,hwanted,hs',hlen⟩ := ih (c := ⟨c.words ++ [desc],c.redirects,name⟩) hstate.advance hrest hcount
        fuel (by omega)
      exact ⟨c',s',(bind_of_ok hstep).trans hrun,hwanted,hs',by simp [hlen]; omega⟩
    | redirection r =>
      obtain ⟨hr,hrest⟩ := hfits
      have hwb : wantedBy (.redirection r :: ps) = r.wanted.toList ++ wantedBy ps := rfl
      rw [hwb,length_append] at hcount
      have hstate : Ahead l frames (hereDocsOf c.redirects) (r.tokens ++ (pieceTokens ps ++ t :: rest)) s := by
        have := h
        rw [pieceTokens,flatMap_cons,append_assoc] at this
        exact this
      obtain ⟨d,s₁,hnext,hd,hs₁⟩ := hstate.nextRedirect hr (by omega)
      have hstep : simpleStep lexer.relex c s = .ok (.inl ⟨c.words,c.redirects ++ [d],c.commandName⟩,s₁) := by
        unfold simpleStep
        rw [bind_of_ok hnext]
        rfl
      rw [← hd,length_map] at hcount
      rw [← hereDocsOf_append] at hs₁
      obtain ⟨c',s',hrun,hwanted,hs',hlen⟩ := ih (c := ⟨c.words,c.redirects ++ [d],c.commandName⟩) hs₁ hrest
        (by rw [hereDocsOf_append,length_append]; omega) fuel (by omega)
      refine ⟨c',s',(bind_of_ok hstep).trans hrun,?_,hs',by simp [hlen]; omega⟩
      rw [hwanted,hwb,hereDocsOf_append,map_append,hd,append_assoc]
end

section
variable {l : Line} {frames : List (List Redirect)} {own : List Redirect} {ps : List Piece} {after more : List Token}
  {s : Parser} {t : Token}
  {lexer : Relexer} {fuel limit : ℕ}

def startKind (kind : TokenKind) : Bool := wordKind kind || isRedirectionKind kind

theorem startKind_of_fits {name : Option Text} (h : PiecesFit l name ps after) (hps : pieceTokens ps = t :: more) :
    startKind t.kind ∧ (t.kind = .word → ∀ u ∈ (more ++ after).head?,u.kind ≠ .lParen) := by
  cases ps with
  | nil => cases hps
  | cons p ps =>
    cases p with
    | word w =>
      obtain ⟨rfl,rfl⟩ := List.cons.inj hps
      refine ⟨?_,fun _ u hu => (h.2.1 u hu).2⟩
      have hw := h.1
      unfold isRedirectionTarget at hw
      cases hk : w.kind <;> rw [hk] at hw <;> first | rfl | cases hw
    | redirection r =>
      obtain ⟨redirector,op,target⟩ := r
      have hop : isRedirectionKind op.kind = true := h.1.2.1
      cases redirector with
      | some w =>
        obtain ⟨rfl,rfl⟩ := List.cons.inj hps
        refine ⟨by simp [startKind,(h.1.1 w rfl).2],fun _ u hu => ?_⟩
        obtain rfl : op = u := Option.some.inj hu
        rintro hk
        rw [hk] at hop
        cases hop
      | none =>
        obtain ⟨rfl,rfl⟩ := List.cons.inj hps
        refine ⟨by simp [startKind,show isRedirectionKind op.kind = true from hop],fun hk => ?_⟩
        rw [show op.kind = .word from hk] at hop
        cases hop

theorem isWord_eq_false (hpeek : s.peek = some t) (hw : ∀ w, t.value = .text w → Lexer.isReservedWordText w = false)
    {text : String} (ht : Lexer.isReservedWordText text.toList = true) : s.isWord text = false := by
  rw [Parser.isWord,hpeek,Option.any_some,Token.isText]
  split
  next w hv =>
    refine decide_eq_false fun h => ?_
    rw [← h,hw w hv] at ht
    cases ht
  · rfl

theorem unexpectedReservedWord_eq_none (hpeek : s.peek = some t) (hk : startKind t.kind)
    (hw : ∀ w, t.value = .text w → Lexer.isReservedWordText w = false) : unexpectedReservedWord s = none := by
  unfold unexpectedReservedWord
  rw [hpeek,Option.bind_some]
  have hany : (reservedWords.any fun r => t.isText r) = false := by
    rw [List.any_eq_false]
    intro r hr
    have hword : s.isWord r = false := isWord_eq_false hpeek hw (by
      simp only [reservedWords,mem_cons,not_mem_nil,or_false] at hr
      rcases hr with rfl | rfl | rfl | rfl | rfl | rfl | rfl | rfl <;> decide)
    simpa [Parser.isWord,hpeek] using hword
  split <;> simp_all [startKind,wordKind,isRedirectionKind]

theorem parseForm_of_start (command : Parse Command) (hpeek : s.peek = some t) (hk : startKind t.kind)
    (hw : ∀ w, t.value = .text w → Lexer.isReservedWordText w = false) (hf : isFunctionDefStart s = false) :
    parseForm lexer.relex command limit s = parseSimpleCommand lexer.relex limit s := by
  have hword : ∀ text : String, Lexer.isReservedWordText text.toList = true → s.isWord text = false := fun text =>
    isWord_eq_false hpeek hw
  have hkind : ∀ kind, startKind kind = false → s.peekKind ≠ some kind := by
    intro kind hkind h
    rw [Parser.peekKind,hpeek,Option.map_some,Option.some.injEq] at h
    rw [h,hkind] at hk
    cases hk
  unfold parseForm
  rw [get_bind]
  simp only [hword "if" (by decide),hword "while" (by decide),hword "until" (by decide),hword "for" (by decide),
    hword "case" (by decide),hword "select" (by decide),hword "function" (by decide),hword "coproc" (by decide),hf,
    hkind .lBrace rfl,hkind .lParen rfl,hkind .dblLParen rfl,hkind .dblLBracket rfl,Bool.or_self,Bool.false_eq_true,
    if_false,unexpectedReservedWord_eq_none hpeek hk hw]

theorem flatten_frameOf (rs : List Redirect) : (frameOf rs).flatten = hereDocsOf rs := by
  unfold frameOf
  split
  next h => rw [h]; rfl
  · simp

/-- The parser with no here-document open, as a command starts and ends. -/
abbrev Parser.fresh (s : Parser) : Parser := { s with hereDocCount := 0, hereDocBodyOffset := none }

theorem Ahead.close {rs : List Redirect} (h : Ahead l frames (hereDocsOf rs) after s) :
    Ahead l (frames ++ frameOf rs) [] after s.fresh := by
  obtain ⟨hi,_,_,hserved,hchain,hb,ht⟩ := h
  have hflat : (frames ++ frameOf rs).flatten ++ [] = frames.flatten ++ hereDocsOf rs := by
    rw [append_nil,flatten_append,flatten_frameOf]
  refine ⟨hi,rfl,rfl,fun f hf => ?_,rfl,?_,by rwa [hflat]⟩
  · rcases mem_append.mp hf with hf | hf
    · exact hserved f hf
    · unfold frameOf at hf
      split at hf
      · cases hf
      next hn =>
        rw [mem_singleton.mp hf]
        exact ⟨hn,hchain⟩
  · rw [hflat]
    exact ⟨Nat.le_trans hchain.le hb.1,hb.2⟩

def askedBy (frames : List (List Redirect)) : List (List Wanted) := frames.map (·.map Redirect.wanted)

theorem askedBy_frameOf (rs : List Redirect) : askedBy (frameOf rs) = framed ((hereDocsOf rs).map Redirect.wanted) := by
  unfold askedBy frameOf framed
  by_cases h : hereDocsOf rs = [] <;> simp [h]

/-- A parser reads tokens as commands with the here-documents asked for. -/
def Reads (l : Line) (p : Parse Command) (tokens : List Token) (asked : List (List Wanted)) (after : List Token) : Prop :=
  ∀ frames s, Ahead l frames [] (tokens ++ after) s → ∃ c s', p s = .ok (c,s') ∧
    askedBy c.frames = asked ∧ Ahead l (frames ++ c.frames) [] after s'

def separators : List TokenKind := [.pipe,.barAnd,.andAnd,.orOr,.semicolon,.ampersand,.newline]

/-- The next token is one of the separators. -/
def Stops (kinds : List TokenKind) (after : List Token) : Prop := ∃ t rest, after = t :: rest ∧ Separates kinds t

theorem length_le_pieceTokens (ps : List Piece) : ps.length ≤ (pieceTokens ps).length := by
  induction ps with
  | nil => exact Nat.zero_le _
  | cons p ps ih =>
    have hp : 0 < p.tokens.length := by cases p <;> simp [Piece.tokens,Redirection.tokens]
    rw [pieceTokens,flatMap_cons,length_append,length_cons]
    have : ps.length ≤ (ps.flatMap Piece.tokens).length := ih
    omega

theorem reads_command (hfits : CommandFits l ps after)
    (hafter : Stops separators after) (hfuel : (pieceTokens ps).length + 1 < fuel) :
    Reads l (parseCommand lexer.relex fuel) (pieceTokens ps) (framed (wantedBy ps)) after := by
  intro frames s h
  obtain ⟨t,rest,rfl,hkind,hword⟩ := hafter
  obtain ⟨hpieces,hmax,first,more,hps,hreserved⟩ := hfits
  obtain ⟨fuel,rfl⟩ := Nat.exists_eq_succ_of_ne_zero (Nat.ne_zero_of_lt hfuel)
  obtain ⟨hstart,hlparen⟩ := startKind_of_fits hpieces hps
  have hlength := length_le_pieceTokens ps
  -- what separates commands is neither a word nor a redirection
  have ht : isRedirectionKind t.kind = false ∧ isRedirectionTarget t = false ∧ t.kind ≠ .number := by
    unfold isRedirectionTarget
    simp only [separators,mem_cons,not_mem_nil,or_false] at hkind
    rcases hkind with hk | hk | hk | hk | hk | hk | hk <;> rw [hk] <;> exact ⟨rfl,rfl,by simp⟩
  have hacts : ∀ u, actsOn t u = false := fun u => by simp [actsOn,hword,ht.2.2]
  have hopen : Ahead l frames [] (pieceTokens ps ++ t :: rest) s.fresh :=
    ⟨h.input,rfl,rfl,h.served,h.chain,h.bounds,h.tokens⟩
  have hfun : isFunctionDefStart s.fresh = false := by
    have hpeek := hopen
    rw [hps,cons_append] at hpeek
    unfold isFunctionDefStart
    rw [hpeek.peekKind]
    by_cases hk : first.kind = .word
    · obtain ⟨u,rest',hu⟩ := exists_cons_of_ne_nil (show more ++ t :: rest ≠ [] by simp)
      rw [hu] at hpeek hlparen
      simp [hpeek.peekN_one,hlparen hk u rfl]
    · simp [hk]
  obtain ⟨c,s₁,hrun,hwanted,hs₁,hlen⟩ := hopen.iterate_simpleStep lexer (c := ⟨[],[],none⟩) hpieces
    (by simpa [hereDocsOf] using hmax) ht.1 ht.2.1 hacts (show ps.length < fuel by omega)
  have hnonempty : (c.words.isEmpty && c.redirects.isEmpty) = false := by
    cases ps with
    | nil => cases hps
    | cons => cases hw : c.words <;> cases hr : c.redirects <;> first | rfl | simp [hw,hr] at hlen
  have hform : parseForm lexer.relex (parseCommand lexer.relex fuel) fuel s.fresh =
      .ok ((CommandData.simple c.words c.redirects).plain,s₁) := by
    rw [parseForm_of_start _ (by rw [hps] at hopen; exact hopen.peek) hstart hreserved hfun]
    unfold parseSimpleCommand parseSimpleParts
    rw [bind_of_ok (a := (c.words,c.redirects)) (t := s₁)]
    · rfl
    · rw [bind_of_ok hrun,hnonempty]
      rfl
  obtain ⟨fuel,rfl⟩ := Nat.exists_eq_succ_of_ne_zero (show fuel ≠ 0 by omega)
  have htrailing : parseTrailingRedirects lexer.relex (fuel + 1) (CommandData.simple c.words c.redirects).plain s₁ =
      .ok ((CommandData.simple c.words c.redirects).plain,s₁) := by
    refine bind_of_ok (a := []) (t := s₁) ?_
    refine bind_of_ok (a := Sum.inr []) (t := s₁) ?_
    exact bind_of_ok (nextRedirect_of_other hs₁.peek ht.1 fun u _ => hacts u)
  refine ⟨(CommandData.simple c.words c.redirects).plain.withLine
    ((s.peekSpan.map fun span => lineNumberForOffset s.input span.start).getD 0),
    s₁.fresh,?_,?_,?_⟩
  · refine (get_bind _ s).trans ((bind_of_ok (a := ⟨⟩) rfl).trans ((bind_of_ok hform).trans
      ((bind_of_ok htrailing).trans ?_)))
    rw [h.count,h.offset]
    rfl
  · rw [frames_withLine,frames_plain]
    exact (askedBy_frameOf _).trans (congrArg framed hwanted)
  · rw [frames_withLine,frames_plain]
    exact hs₁.close

/-- Tokens that begin with one that a simple command can begin with. -/
def Begins (tokens : List Token) : Prop :=
  ∃ t rest, tokens = t :: rest ∧ startKind t.kind ∧ ∀ w, t.value = .text w → Lexer.isReservedWordText w = false

theorem CommandFits.begins (h : CommandFits l ps after) : Begins (pieceTokens ps) := by
  obtain ⟨hp,-,t,rest,ht,hw⟩ := h
  exact ⟨t,rest,ht,(startKind_of_fits hp ht).1,hw⟩

section
variable {D : List (List Redirect)} {tokens : List Token} (hb : Begins tokens) (h : Ahead l D [] (tokens ++ after) s)
include hb h

theorem Begins.peekKind_ne {kind : TokenKind} (hk : startKind kind = false) : s.peekKind ≠ some kind := by
  obtain ⟨t,rest,rfl,ht,-⟩ := hb
  rw [cons_append] at h
  rw [h.peekKind,ne_eq,Option.some.injEq]
  rintro rfl
  rw [ht] at hk
  cases hk

theorem Begins.skipNewlines : skipNewlines s = .ok ((),s) := by
  obtain ⟨t,rest,rfl,ht,-⟩ := hb
  rw [cons_append] at h
  refine skipNewlines_of_peek h.peek fun hk => ?_
  rw [hk] at ht
  cases ht

theorem Begins.isWord {text : String} (ht : Lexer.isReservedWordText text.toList = true) : s.isWord text = false := by
  obtain ⟨t,rest,rfl,-,hw⟩ := hb
  rw [cons_append] at h
  exact isWord_eq_false h.peek hw ht

theorem Begins.rejectUnexpectedReservedCommand : rejectUnexpectedReservedCommand [] s = .ok ((),s) := by
  obtain ⟨t,rest,rfl,hk,hw⟩ := hb
  rw [cons_append] at h
  unfold Grammar.rejectUnexpectedReservedCommand
  rw [get_bind,unexpectedReservedWord_eq_none h.peek hk hw]
  simp only [isStopWord,h.peek]
  rfl

theorem Begins.atListTerminator : atListTerminator s = false := by
  have hword := fun (text : String) (ht : Lexer.isReservedWordText text.toList = true) => hb.isWord h ht
  obtain ⟨t,rest,rfl,ht,-⟩ := hb
  rw [cons_append] at h
  unfold Grammar.atListTerminator
  rw [h.peekKind]
  simp only [any_cons,any_nil,hword "then" (by decide),hword "else" (by decide),hword "elif" (by decide),
    hword "fi" (by decide),hword "do" (by decide),hword "done" (by decide),hword "esac" (by decide)]
  cases hk : t.kind <;> first | rfl | (rw [hk] at ht; cases ht)

theorem Begins.pipelinePrefix : iterate .outOfFuel pipelinePrefix (limit + 1) (0,false) s = .ok ((0,false),s) := by
  refine bind_of_ok (a := Sum.inr (0,false)) (t := s) ?_
  unfold Grammar.pipelinePrefix
  dsimp only
  obtain ⟨t,rest,rfl,ht,-⟩ := hb
  rw [cons_append] at h
  rw [get_bind,h.peekKind]
  cases hk : t.kind <;> first | rfl | (rw [hk] at ht; cases ht)
end

section
variable {α : Type} {render : α → List Token} {asks : α → List (List Wanted)} {kinds stops : List TokenKind}
  {fits : α → List Token → Prop} {step : Command → Parse (Command ⊕ Command)}

theorem Stops.mono (h : Stops kinds after) (hsub : kinds ⊆ stops) : Stops stops after := by
  obtain ⟨t,rest,ht,hk,hw⟩ := h
  exact ⟨t,rest,ht,hsub hk,hw⟩

theorem stops_rest {rest : List (Token × α)} (hsub : kinds ⊆ stops) (h : RestFits render kinds fits rest after)
    (hafter : Stops stops after) : Stops stops (restTokens render rest ++ after) := by
  cases rest with
  | nil => exact hafter
  | cons p rest => exact ⟨p.1,_,rfl,hsub h.1.1,h.1.2⟩

/-- A round of a loop takes one operator with the item behind it. -/
def Takes (l : Line) (render : α → List Token) (asks : α → List (List Wanted)) (kinds stops : List TokenKind)
    (fits : α → List Token → Prop) (fuel : ℕ) (step : Command → Parse (Command ⊕ Command)) : Prop :=
  ∀ op a after, Separates kinds op → fits a after → Stops stops after → (render a).length + 1 < fuel → ∀ left frames s,
    Ahead l (frames ++ left.frames) [] (op :: (render a ++ after)) s → ∃ c s', step left s = .ok (.inl c,s') ∧
      askedBy c.frames = askedBy left.frames ++ asks a ∧
      Ahead l (frames ++ c.frames) [] after s'

/-- The rounds of such a loop up to what stands behind the last item. -/
theorem Takes.iterate (htakes : Takes l render asks kinds stops fits fuel step) (hsub : kinds ⊆ stops)
    {rest : List (Token × α)} (hrest : RestFits render kinds fits rest after) (hafter : Stops stops after)
    (hfuel : (restTokens render rest).length + 1 < fuel) {left : Command} (h : Ahead l (frames ++ left.frames) []
    (restTokens render rest ++ after) s) (rounds : ℕ) :
    ∃ c s', iterate .outOfFuel step (rounds + rest.length) left s = iterate .outOfFuel step rounds c s' ∧
      askedBy c.frames = askedBy left.frames ++ restFrames asks rest ∧
      Ahead l (frames ++ c.frames) [] after s' := by
  induction rest generalizing left s with
  | nil => exact ⟨left,s,rfl,by simp [restFrames],h⟩
  | cons p rest ih =>
    obtain ⟨op,a⟩ := p
    obtain ⟨hop,ha,hrest⟩ := hrest
    have htokens : restTokens render ((op,a) :: rest) = op :: (render a ++ restTokens render rest) := rfl
    rw [htokens,length_cons,length_append] at hfuel
    rw [htokens,cons_append,append_assoc] at h
    obtain ⟨c,s₁,hstep,hframes,hc⟩ := htakes op a _ hop ha (stops_rest hsub hrest hafter) (by omega) left frames s h
    obtain ⟨c',s',hrun,hframes',hs'⟩ := ih hrest (by omega) hc
    refine ⟨c',s',(bind_of_ok hstep).trans hrun,?_,hs'⟩
    rw [hframes',hframes,append_assoc]
    rfl

theorem length_le_restTokens (render : α → List Token) (rest : List (Token × α)) : rest.length ≤ (restTokens render rest).length := by
  induction rest with
  | nil => exact Nat.zero_le _
  | cons p rest ih =>
    have htokens : restTokens render (p :: rest) = p.1 :: (render p.2 ++ restTokens render rest) := rfl
    rw [htokens,length_cons,length_cons,length_append]
    omega

section
variable {x : Series α} {p : Parse Command} (htakes : Takes l render asks kinds stops fits fuel step)
  (hsub : kinds ⊆ stops) (hfits : x.Fits render kinds fits after) (hafter : Stops stops after)
  (hfuel : (x.tokens render).length + 1 < fuel)
  (hfirst : ∀ after, fits x.first after → Stops stops after → (render x.first).length + 1 < fuel →
    Reads l p (render x.first) (asks x.first) after)
include htakes hsub hfits hafter hfuel hfirst

/-- A first item, then the rounds of a loop over the rest. -/
theorem run_series (h : Ahead l frames [] (x.tokens render ++ after) s) :
    ∃ first s₁ c s' rounds, p s = .ok (first,s₁) ∧
      Cherubsh.iterate .outOfFuel step fuel first s₁ = Cherubsh.iterate .outOfFuel step (rounds + 1) c s' ∧
      askedBy c.frames = x.frames asks ∧ Ahead l (frames ++ c.frames) [] after s' := by
  rw [Series.tokens,length_append] at hfuel
  rw [Series.tokens,append_assoc] at h
  obtain ⟨first,s₁,hrun,hframes,hs₁⟩ := hfirst _ hfits.1 (stops_rest hsub hfits.2 hafter) (by omega) frames s h
  have hlength := length_le_restTokens render x.rest
  obtain ⟨rounds,hrounds⟩ : ∃ rounds, fuel = rounds + 1 + x.rest.length := ⟨fuel - 1 - x.rest.length,by omega⟩
  obtain ⟨c,s',hloop,hframes',hs'⟩ := htakes.iterate hsub hfits.2 hafter (by omega) hs₁ (rounds + 1)
  exact ⟨first,s₁,c,s',rounds,hrun,by rw [← hloop,← hrounds],by rw [hframes',hframes,Series.frames],hs'⟩

/-- The loop ends where nothing more of the series follows. -/
theorem reads_series (hdone : ∀ left frames s, Ahead l frames [] after s → step left s = .ok (.inr left,s)) :
    Reads l (p >>= Cherubsh.iterate .outOfFuel step fuel) (x.tokens render) (x.frames asks) after := by
  intro frames s h
  obtain ⟨first,s₁,c,s',rounds,hrun,hloop,hasked,hs'⟩ := run_series htakes hsub hfits hafter hfuel hfirst h
  exact ⟨c,s',(bind_of_ok hrun).trans (hloop.trans (bind_of_ok (hdone c _ s' hs'))),hasked,hs'⟩
end
end

section
variable {tokens : List Token} {asked : List (List Wanted)} {op : Token} {D : List (List Redirect)} {p : Parse Command} {β : Type}

theorem Series.begins {α : Type} {render : α → List Token} {x : Series α} (h : Begins (render x.first)) :
    Begins (x.tokens render) := by
  obtain ⟨t,rest,ht,hstart⟩ := h
  exact ⟨t,rest ++ restTokens render x.rest,by rw [Series.tokens,ht,cons_append],hstart⟩

theorem Pipeline.Fits.begins {x : Pipeline} (h : x.Fits l after) : Begins x.tokens := Series.begins h.1.begins

theorem AndOr.Fits.begins {x : AndOr} (h : x.Fits l after) : Begins x.tokens := Series.begins h.1.begins

theorem after_operator (hb : Begins tokens) (hreads : Reads l p tokens asked after) (h : Ahead l D [] (op :: (tokens ++ after)) s) :
    ∃ c s', (∀ k : Command → Parse β, (do let _ ← bump; skipNewlines; let c ← p; k c) s = k c s') ∧
      askedBy c.frames = asked ∧ Ahead l (D ++ c.frames) [] after s' := by
  obtain ⟨c,s',hrun,hframes,hs'⟩ := hreads D _ h.advance
  refine ⟨c,s',fun k => ?_,hframes,hs'⟩
  exact (bind_of_ok h.bump).trans ((bind_of_ok (hb.skipNewlines h.advance)).trans (bind_of_ok hrun))

theorem connected {left left' right : Command} {connector : Connector} (hleft : left'.frames = left.frames)
    (hframes : askedBy right.frames = asked) (h : Ahead l (frames ++ left.frames ++ right.frames) [] after s) :
    askedBy (connect left' right connector).frames = askedBy left.frames ++ asked ∧
      Ahead l (frames ++ (connect left' right connector).frames) [] after s := by
  rw [frames_connect,hleft,← hframes,← append_assoc]
  exact ⟨map_append,h⟩
end

theorem takes_pipelineStep : Takes l pieceTokens (fun ps => framed (wantedBy ps)) [.pipe,.barAnd] separators (CommandFits l)
    fuel (pipelineStep (parseCommand lexer.relex fuel)) := by
  intro op ps after hop hfits hafter hfuel left frames s h
  obtain ⟨c,s',hrun,hframes,hs'⟩ := after_operator (β := Command ⊕ Command) hfits.begins (reads_command hfits hafter hfuel) h
  unfold pipelineStep
  rw [get_bind,h.peekKind]
  have hkind : op.kind = .pipe ∨ op.kind = .barAnd := by simpa using hop.1
  rcases hkind with hk | hk <;> simp only [hk]
  · exact ⟨_,s',hrun _,connected rfl hframes hs'⟩
  · exact ⟨_,s',hrun _,connected (frames_addStderrToStdoutRedirect left) hframes hs'⟩

def pipelineStops : List TokenKind := [.andAnd,.orOr,.semicolon,.ampersand,.newline]

theorem reads_pipeline {x : Pipeline} (hfits : x.Fits l after) (hafter : Stops pipelineStops after)
    (hfuel : x.tokens.length + 1 < fuel) : Reads l (parsePipeline (parseCommand lexer.relex fuel) fuel) x.tokens x.frames after := by
  have hseries : Reads l (parseCommand lexer.relex fuel >>= iterate .outOfFuel (pipelineStep (parseCommand lexer.relex fuel)) fuel)
      x.tokens x.frames after := by
    refine reads_series takes_pipelineStep (by decide) hfits (hafter.mono (by decide)) hfuel
      (fun after hf ha hl => reads_command hf ha hl) fun left frames s h => ?_
    obtain ⟨t,rest,rfl,hk,-⟩ := hafter
    unfold pipelineStep
    rw [get_bind,h.peekKind]
    simp only [pipelineStops,mem_cons,not_mem_nil,or_false] at hk
    rcases hk with hk | hk | hk | hk | hk <;> rw [hk] <;> rfl
  intro frames s h
  obtain ⟨c,s',hrun,hframes,hs'⟩ := hseries frames s h
  have hb := hfits.begins
  obtain ⟨limit,rfl⟩ := Nat.exists_eq_succ_of_ne_zero (Nat.ne_zero_of_lt hfuel)
  obtain ⟨first,s₁,hfirst,hloop⟩ := exists_of_bind hrun
  refine ⟨withPrefix 0 false c,s',?_,by rwa [frames_withPrefix],by rwa [frames_withPrefix]⟩
  unfold parsePipeline
  rw [bind_of_ok (hb.pipelinePrefix h)]
  dsimp only
  rw [get_bind,hb.atListTerminator h]
  exact (bind_of_ok hfirst).trans (bind_of_ok hloop)

theorem takes_andOrStep : Takes l Pipeline.tokens Pipeline.frames [.andAnd,.orOr] pipelineStops (Pipeline.Fits l) fuel
    (andOrStep (parseCommand lexer.relex fuel) fuel) := by
  intro op x after hop hfits hafter hfuel left frames s h
  obtain ⟨c,s',hrun,hframes,hs'⟩ := after_operator (β := Command ⊕ Command) hfits.begins (reads_pipeline hfits hafter hfuel) h
  unfold andOrStep
  rw [get_bind,h.peekKind]
  have hkind : op.kind = .andAnd ∨ op.kind = .orOr := by simpa using hop.1
  rcases hkind with hk | hk <;> simp only [hk] <;> exact ⟨_,s',hrun _,connected rfl hframes hs'⟩

def andOrStops : List TokenKind := [.semicolon,.ampersand,.newline]

theorem reads_andOr {x : AndOr} (hfits : x.Fits l after) (hafter : Stops andOrStops after)
    (hfuel : x.tokens.length + 1 < fuel) : Reads l (parseAndOr (parseCommand lexer.relex fuel) fuel) x.tokens x.frames after := by
  refine reads_series takes_andOrStep (by decide) hfits (hafter.mono (by decide)) hfuel
    (fun after hf ha hl => reads_pipeline hf ha hl) fun left frames s h => ?_
  obtain ⟨t,rest,rfl,hk,-⟩ := hafter
  unfold andOrStep
  rw [get_bind,h.peekKind]
  simp only [andOrStops,mem_cons,not_mem_nil,or_false] at hk
  rcases hk with hk | hk | hk <;> rw [hk] <;> rfl

@[simp] theorem isStopWord_nil (s : Parser) : isStopWord s [] = false := by
  cases hp : s.peek <;> simp [isStopWord,hp]

@[simp] theorem isStopKind_nil (s : Parser) : isStopKind s [] = false := by
  cases hp : s.peekKind <;> simp [isStopKind,hp]

theorem takes_listStep : Takes l AndOr.tokens AndOr.frames [.semicolon,.ampersand] andOrStops (AndOr.Fits l) fuel
    (listStep (parseCommand lexer.relex fuel) fuel [] []) := by
  intro op x after hop hfits hafter hfuel left frames s h
  obtain ⟨c,s',hrun,hframes,hs'⟩ := reads_andOr hfits hafter hfuel _ _ h.advance
  have hnext : ∀ connector, listNext (parseCommand lexer.relex fuel) fuel [] [] left connector { s with index := s.index + 1 } =
      .ok (.inl (connect left c connector),s') := by
    intro connector
    unfold listNext
    rw [bind_of_ok (hfits.begins.skipNewlines h.advance),get_bind]
    simp only [isStopWord_nil,isStopKind_nil,hfits.begins.peekKind_ne h.advance (show startKind .end = false from rfl),Bool.or_self,
      decide_false,Bool.false_eq_true,if_false]
    exact (bind_of_ok (hfits.begins.rejectUnexpectedReservedCommand h.advance)).trans (bind_of_ok hrun)
  unfold listStep
  rw [get_bind,h.peekKind,isStopWord_nil,isStopKind_nil]
  have hkind : op.kind = .semicolon ∨ op.kind = .ampersand := by simpa using hop.1
  rcases hkind with hk | hk <;> simp only [hk,Bool.or_self,Bool.false_eq_true,if_false] <;>
    exact ⟨_,s',(bind_of_ok h.bump).trans (hnext _),connected rfl hframes hs'⟩

variable {x : CommandLine}

theorem CommandLine.Fits.begins (h : x.Fits l) : Begins x.tokens := by
  have hlist : Begins (x.list.tokens AndOr.tokens) := Series.begins h.1.1.begins
  obtain ⟨t,rest,ht,hstart⟩ := hlist
  exact ⟨t,rest ++ x.ending,by rw [CommandLine.tokens,ht,cons_append],hstart⟩

theorem CommandLine.Fits.stops (h : x.Fits l) : Stops andOrStops x.ending := by
  obtain ⟨list,last,newline⟩ := x
  obtain ⟨-,hlast,hnewline⟩ := h
  cases last with
  | none => exact ⟨newline,[],rfl,by simpa [andOrStops] using .inr (.inr (by simpa using hnewline.1)),hnewline.2⟩
  | some t => exact ⟨t,[newline],rfl,(by decide : [TokenKind.semicolon,.ampersand] ⊆ andOrStops) (hlast t rfl).1,(hlast t rfl).2⟩

/-- The parser comes to the end of the line with the here-documents that the line asks for. -/
theorem CommandLine.run (hfits : x.Fits l) (hfuel : x.tokens.length + 1 < fuel) (h : Ahead l [] [] x.tokens s) :
    ∃ left s' rounds, parseSimpleListUntil (parseCommand lexer.relex fuel) fuel [] s =
        iterate .outOfFuel (listStep (parseCommand lexer.relex fuel) fuel [] []) (rounds + 1) left s' ∧
      askedBy left.frames = x.frames ∧ Ahead l left.frames [] x.ending s' := by
  have hb := hfits.begins
  have hstate : Ahead l [] [] (x.tokens ++ []) s := by rwa [append_nil]
  rw [CommandLine.tokens,length_append] at hfuel
  obtain ⟨first,s₁,c,s',rounds,hfirst,hloop,hasked,hs'⟩ := run_series takes_listStep (by decide) hfits.1 hfits.stops
    (show (x.list.tokens AndOr.tokens).length + 1 < fuel by omega) (fun after hf ha hl => reads_andOr hf ha hl) h
  refine ⟨c,s',rounds,?_,hasked,hs'⟩
  rw [← hloop]
  unfold parseSimpleListUntil parseSimpleListUntilWordsOrKinds
  rw [bind_of_ok (hb.skipNewlines hstate),get_bind]
  simp only [isStopWord_nil,isStopKind_nil,Bool.or_self,Bool.false_eq_true,if_false]
  exact (bind_of_ok (hb.rejectUnexpectedReservedCommand hstate)).trans (bind_of_ok hfirst)

/-- At the end of a line with nothing but the end of the input below it the list is done. -/
theorem listStep_ending (command : Parse Command) (hfits : x.Fits l) (h : Ahead l frames [] x.ending s)
    (hreach : l.reach frames.flatten = l.input.length) (left : Command) :
    ∃ c s', listStep command limit [] [] left s = .ok (.inr c,s') ∧ c.frames = left.frames ∧ s'.peekKind = some .end := by
  obtain ⟨list,last,newline⟩ := x
  have hnewline : newline.kind = .newline := by simpa using hfits.2.2.1
  have hnext : ∀ s, Ahead l frames [] [newline] s → ∀ connector, ∃ s', listNext command limit [] [] left connector s =
      .ok (.inr (if connector = .amp then connect left nullCommand .amp else left),s') ∧ s'.peekKind = some .end := by
    intro s h connector
    obtain ⟨before,tail,ht,hi,-,htail,he⟩ := h.tokens
    rw [append_nil,hreach] at htail
    obtain ⟨last,rfl,hk⟩ := he.eq_singleton htail
    have hskip : skipNewlines s = .ok ((),{ s with index := s.index + 1 }) := by
      rw [skipNewlines_eq,ht,hi,drop_left]
      simp [hnewline,hk]
    have hpeek : Parser.peekKind { s with index := s.index + 1 } = some .end := by
      simp [Parser.peekKind,Parser.peek,Parser.peekN,ht,hi,hk]
    refine ⟨{ s with index := s.index + 1 },?_,hpeek⟩
    unfold listNext
    rw [bind_of_ok hskip,get_bind,hpeek]
    simp only [decide_true,Bool.or_true,if_true]
    rfl
  unfold listStep
  rw [get_bind,isStopWord_nil,isStopKind_nil]
  simp only [Bool.or_self,Bool.false_eq_true,if_false]
  cases last with
  | none =>
    have hs : Ahead l frames [] [newline] s := h
    obtain ⟨s',hrun,hpeek⟩ := hnext s hs .newline
    rw [hs.peekKind,hnewline]
    exact ⟨_,s',hrun,frames_ended left .newline,hpeek⟩
  | some t =>
    have hs : Ahead l frames [] [t,newline] s := h
    have hkind : t.kind = .semicolon ∨ t.kind = .ampersand := by simpa using (hfits.2.1 t rfl).1
    rw [hs.peekKind]
    rcases hkind with hk | hk <;> rw [hk]
    · obtain ⟨s',hrun,hpeek⟩ := hnext _ hs.advance .semi
      exact ⟨_,s',(bind_of_ok hs.bump).trans hrun,frames_ended left .semi,hpeek⟩
    · obtain ⟨s',hrun,hpeek⟩ := hnext _ hs.advance .amp
      exact ⟨_,s',(bind_of_ok hs.bump).trans hrun,frames_ended left .amp,hpeek⟩

/-- Whatever is read behind a command, its here-documents come after those of the command. -/
theorem frames_prefix_listStep (command : Parse Command) {left c : Command} {s s' : Parser}
    (h : iterate .outOfFuel (listStep command limit [] []) fuel left s = .ok (c,s')) : left.frames <+: c.frames := by
  have hnext : ∀ b connector, left.frames <+: b.frames → Ensures (fun _ => True) (listNext command limit [] [] b
      connector) (Sum.elim (fun c _ => left.frames <+: c.frames) fun c _ => left.frames <+: c.frames) := by
    intro b connector hb
    refine .ofBind fun _ => .ofBind fun s => .ite (.pure _ fun _ _ => ?_) (.ofBind fun _ => .ofBind fun right =>
      .pure _ fun _ _ => ?_)
    · rwa [Sum.elim_inr,frames_ended]
    · rw [Sum.elim_inl,frames_connect]
      exact hb.trans (prefix_append _ _)
  have hloop : ∀ b, Ensures (fun _ => left.frames <+: b.frames) (listStep command limit [] [] b)
      (Sum.elim (fun c _ => left.frames <+: c.frames) fun c _ => left.frames <+: c.frames) := by
    intro b s hb
    suffices hstep : Ensures (fun _ => True) (listStep command limit [] [] b) _ from hstep s trivial
    refine .ofBind fun s => .ite (.pure _ fun _ _ => hb) ?_
    split
    · exact .ofBind fun _ => hnext b .semi hb
    · exact .ofBind fun _ => hnext b .amp hb
    · exact hnext b .newline hb
    · exact .pure _ fun _ _ => hb
  exact Ensures.loop hloop fuel left s (prefix_refl _) c s' h
end
end Cherubsh.Grammar
