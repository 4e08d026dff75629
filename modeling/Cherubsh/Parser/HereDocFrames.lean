import Cherubsh.Parser.Compound

/-! # Here-documents by the command they belong to

The cursor of the here-documents is put aside whenever a command begins and put back when
it ends. So the bodies are cut out one after another within one command, and every command
begins again where the bodies of the line begin.
-/
namespace Cherubsh.Grammar
open Redirect CommandData List

def Redirect.isHereDoc (r : Redirect) : Bool := readsUntil r.instruction

def Redirect.target (r : Redirect) : Option WordDesc :=
  match r.redirectee with
  | .word w => some w
  | .fd _ => none

def Redirect.wanted (r : Redirect) : Wanted :=
  match r.target with
  | some w => wantedOf r.instruction w
  | none => ⟨[],false,false⟩

def hereDocsOf (redirects : List Redirect) : List Redirect := redirects.filter isHereDoc

def frameOf (redirects : List Redirect) : List (List Redirect) :=
  if hereDocsOf redirects = [] then [] else [hereDocsOf redirects]

@[simp] def CommandData.own : CommandData → List Redirect
  | .simple _ redirects | .coprocSimple _ redirects => redirects
  | _ => []

mutual
/-- The here-documents of a command and of those inside it, command by command, in the
order of the source. -/
def Command.frames : Command → List (List Redirect)
  | .mk data _ _ redirects => data.frames ++ frameOf (data.own ++ redirects)

@[simp] def CommandData.frames : CommandData → List (List Redirect)
  | .for _ _ action _ | .select _ _ action _ | .arithFor _ _ _ action => action.frames
  | .case _ clauses => clauses.frames
  | .while test action | .until test action | .ifThen test action => test.frames ++ action.frames
  | .ifElse test trueCase falseCase => test.frames ++ trueCase.frames ++ falseCase.frames
  | .connection first second _ => first.frames ++ second.frames
  | .functionDef _ command _ | .group command | .subshell command _ | .coproc _ command => command.frames
  | .simple _ _ | .arith _ | .cond _ | .coprocSimple _ _ => []

def Clauses.frames : Clauses → List (List Redirect)
  | .nil => []
  | .bare _ _ rest => rest.frames
  | .clause _ action _ rest => action.frames ++ rest.frames
end

@[simp] theorem hereDocsOf_append (rs rs' : List Redirect) : hereDocsOf (rs ++ rs') = hereDocsOf rs ++ hereDocsOf rs' :=
  filter_append ..

@[simp] theorem frameOf_nil : frameOf [] = [] := rfl

@[simp] theorem hereDocsOf_stderrToStdout : hereDocsOf [stderrToStdout] = [] := rfl

theorem frameOf_stderrToStdout (rs : List Redirect) : frameOf (rs ++ [stderrToStdout]) = frameOf rs := by
  simp [frameOf]

@[simp] theorem frames_plain (data : CommandData) : data.plain.frames = data.frames ++ frameOf data.own := by
  simp [plain,Command.frames]

@[simp] theorem frames_connect (left right : Command) (connector : Connector) :
    (connect left right connector).frames = left.frames ++ right.frames := by
  simp [connect,Command.frames]

@[simp] theorem frames_nullCommand : nullCommand.frames = [] := by
  simp [nullCommand]

@[simp] theorem frames_withFlags (c : Command) (flags : ℕ) : (c.withFlags flags).frames = c.frames := by
  cases c
  rfl

@[simp] theorem frames_withPrefix (flags : ℕ) (invert : Bool) (c : Command) :
    (withPrefix flags invert c).frames = c.frames := by
  simp [withPrefix]

@[simp] theorem frames_withLine (c : Command) (line : ℕ) : (c.withLine line).frames = c.frames := by
  cases c
  rfl

@[simp] theorem frames_addStderrToStdoutRedirect (c : Command) : (addStderrToStdoutRedirect c).frames = c.frames := by
  unfold addStderrToStdoutRedirect
  split
  · simp only [Command.frames,frames,own,frameOf,hereDocsOf_append,
      hereDocsOf_stderrToStdout,append_nil]
  · simp only [Command.frames,← append_assoc,frameOf_stderrToStdout]

theorem frames_ended (left : Command) (connector : Connector) :
    (if connector = .amp then connect left nullCommand .amp else left).frames = left.frames := by
  split <;> simp

section
variable (input : Text)

def Redirect.bodyAt (r : Redirect) (start : ℕ) : Text × ℕ := readBody input r.wanted (input.length + 1) start []

theorem le_lineEnd (start : ℕ) : start ≤ lineEnd input start := Nat.le_add_right _ _

theorem le_heredocLogicalLine (remove : Bool) (fuel cursor : ℕ) (line : Text) :
    cursor ≤ (heredocLogicalLine input remove fuel cursor line).2.1 := by
  induction fuel generalizing cursor line with
  | zero => exact le_refl cursor
  | succ fuel ih =>
    have he := le_lineEnd input cursor
    unfold heredocLogicalLine
    dsimp only
    split
    · exact Nat.le_trans (Nat.le_succ_of_le he) (ih _ _)
    · split <;> dsimp only <;> omega

theorem le_readBody (w : Wanted) (fuel cursor : ℕ) (body : Text) :
    cursor ≤ (readBody input w fuel cursor body).2 := by
  induction fuel generalizing cursor body with
  | zero => exact le_refl cursor
  | succ fuel ih =>
    have hl := le_heredocLogicalLine input w.removeEscapedNewlines (input.length + 1) cursor []
    unfold readBody
    split
    · exact le_refl cursor
    · split
      next line stop consumed heq =>
        rw [heq] at hl
        dsimp only at hl ⊢
        split
        · exact hl
        · split
          · exact hl
          · exact Nat.le_trans hl (ih _ _)

/-- Here-documents cut out of the input one after another, from a place to a place. -/
def Chain (input : Text) : ℕ → List Redirect → ℕ → Prop
  | start, [], stop => start = stop
  | start, r :: rs, stop =>
    r.place = some ⟨start,(r.bodyAt input start).2⟩ ∧ r.hereDocBody = some (r.bodyAt input start).1 ∧
      Chain input (r.bodyAt input start).2 rs stop

theorem Chain.le {input : Text} {start stop : ℕ} {rs : List Redirect} (h : Chain input start rs stop) : start ≤ stop := by
  induction rs generalizing start with
  | nil => exact Nat.le_of_eq h
  | cons r rs ih => exact Nat.le_trans (le_readBody ..) (ih h.2.2)

theorem Chain.snoc {input : Text} {start middle : ℕ} {rs : List Redirect} {r : Redirect} (h : Chain input start rs middle)
    (hp : r.place = some ⟨middle,(r.bodyAt input middle).2⟩) (hb : r.hereDocBody = some (r.bodyAt input middle).1) :
    Chain input start (rs ++ [r]) (r.bodyAt input middle).2 := by
  induction rs generalizing start with
  | nil =>
    cases h
    exact ⟨hp,hb,rfl⟩
  | cons r' rs ih => exact ⟨h.1,h.2.1,ih h.2.2⟩
end

structure Line where
  input : Text
  newline : ℕ
  ended : newline < input.length

section
variable {l : Line} (relex : Text → ℕ → List Token) {s : Parser} {place : ℕ} {instruction : RedirectInstruction}

/-- No token goes over the place. -/
def Parser.Clear (s : Parser) (place : ℕ) : Prop := ∀ t ∈ s.tokens,¬(t.span.start < place ∧ place < t.span.stop)

theorem spanningEnd_of_clear (h : s.Clear place) : spanningEnd s.tokens place = place := by
  refine List.foldlRecOn (motive := (· = place)) s.tokens _ rfl fun stop hst t ht => ?_
  rw [hst,if_neg]
  exact fun hs => h t ht ⟨hs.1,hs.2.1⟩

theorem initialHeredocBodyCursor_of_clear (hi : s.input = l.input)
    (hl : lineEnd l.input place = l.newline) (h : s.Clear (l.newline + 1)) :
    initialHeredocBodyCursor s.tokens s.input place = some (l.newline + 1) := by
  have he := l.ended
  unfold initialHeredocBodyCursor
  rw [hi,hl,if_neg (by omega)]
  simp [pastSpanning,spanningEnd_of_clear h]

theorem input_skipTokensInRange (s : Parser) (start stop : ℕ) : (skipTokensInRange relex s start stop).input = s.input := by
  unfold skipTokensInRange
  dsimp only
  split <;> rfl

theorem consumeHeredocBody_eq {w : Wanted} {place start : ℕ} (hp : place < s.input.length)
    (hs : bodyStart s place = some start) :
    consumeHeredocBody relex w place s =
      .ok (((readBody s.input w (s.input.length + 1) start []).1,
        ⟨start,(readBody s.input w (s.input.length + 1) start []).2⟩),
        skipTokensInRange relex s start (readBody s.input w (s.input.length + 1) start []).2) := by
  change (if s.input.length ≤ place then _ else _ : Parse (Text × Place)) s = _
  rw [if_neg (by omega),hs]
  rfl

theorem redirecteeOf_hereDoc (h : readsUntil instruction = true) (target : WordDesc) :
    redirecteeOf instruction target = .word target := by
  cases instruction <;> first | rfl | cases h
end

section
/-- Tokens of an input of some length, up to the one for its end. -/
def Ended (length : ℕ) (tokens : List Token) : Prop :=
  ∃ init last, tokens = init ++ [last] ∧ last.kind = .end ∧ length ≤ last.span.start ∧ ∀ t ∈ init,t.span.start < length

/-- A lexer for the rest of an input. -/
structure Relexer where
  relex : Text → ℕ → List Token
  ended : ∀ text source, Ended text.length (relex text source)

def Line.Within (l : Line) (t : Token) : Prop := t.span.start ≤ l.newline ∧ t.span.stop ≤ l.newline + 1

instance (l : Line) (t : Token) : Decidable (l.Within t) := inferInstanceAs (Decidable (_ ∧ _))

/-- Where the last document ended that was read. -/
def Line.reach (l : Line) (docs : List Redirect) : ℕ :=
  docs.foldl (fun reach r => (r.place.map Place.stop).getD reach) (l.newline + 1)

/-- The here-documents of a command, read one after another from the first line below. -/
def Line.Serves (l : Line) (frame : List Redirect) : Prop := frame ≠ [] ∧ Chain l.input (l.newline + 1) frame (l.reach frame)

variable {l : Line} {frames : List (List Redirect)} {own : List Redirect} {rest : List Token} {s : Parser} {t u : Token}

/-- What is ahead on the line, and below it only tokens behind the last document read. -/
structure Ahead (l : Line) (frames : List (List Redirect)) (own : List Redirect) (rest : List Token) (s : Parser) : Prop where
  input : s.input = l.input
  count : s.hereDocCount = own.length
  offset : s.hereDocBodyOffset = if own = [] then none else some (l.reach own)
  served : ∀ f ∈ frames,l.Serves f
  chain : Chain l.input (l.newline + 1) own (l.reach own)
  bounds : l.reach own ≤ l.reach (frames.flatten ++ own) ∧ l.reach (frames.flatten ++ own) ≤ l.input.length
  tokens : ∃ before tail, s.tokens = before ++ (rest ++ tail) ∧ s.index = before.length ∧ (∀ t ∈ before ++ rest,l.Within t) ∧
    (∀ t ∈ tail,l.reach (frames.flatten ++ own) ≤ t.span.start) ∧ Ended l.input.length tail

theorem Ahead.peekN (h : Ahead l frames own rest s) {n : ℕ} (hn : n < rest.length) : s.peekN n = some rest[n] := by
  obtain ⟨before,tail,ht,hi,-⟩ := h.tokens
  rw [Parser.peekN,ht,hi,getElem?_append_right (by omega),Nat.add_sub_cancel_left,getElem?_append_left hn,
    getElem?_eq_getElem hn]

theorem Ahead.peek (h : Ahead l frames own (t :: rest) s) : s.peek = some t := h.peekN (Nat.zero_lt_succ _)

theorem Ahead.peekKind (h : Ahead l frames own (t :: rest) s) : s.peekKind = some t.kind := by
  rw [Parser.peekKind,h.peek]
  rfl

theorem Ahead.peekN_one (h : Ahead l frames own (t :: u :: rest) s) : s.peekN 1 = some u := h.peekN (by simp)

theorem Ahead.advance (h : Ahead l frames own (t :: rest) s) : Ahead l frames own rest { s with index := s.index + 1 } := by
  obtain ⟨before,tail,ht,hi,hw,htail⟩ := h.tokens
  exact ⟨h.input,h.count,h.offset,h.served,h.chain,h.bounds,before ++ [t],tail,by simp [ht],by simp [hi],by simpa using hw,htail⟩

theorem Ahead.bump (h : Ahead l frames own (t :: rest) s) : bump s = .ok (some t,{ s with index := s.index + 1 }) :=
  bump_of_peek h.peek

theorem skipNewlines_eq (s : Parser) : skipNewlines s = .ok ((),{ s with
    index := s.index + ((s.tokens.drop s.index).takeWhile fun t => t.kind = .newline).length }) :=
  rfl

theorem skipNewlines_of_peek (hp : s.peek = some t) (ht : t.kind ≠ .newline) : skipNewlines s = .ok ((),s) := by
  obtain ⟨hi,rfl⟩ := List.getElem?_eq_some_iff.mp (show s.tokens[s.index]? = some t from hp)
  rw [skipNewlines_eq,drop_eq_getElem_cons hi,takeWhile_cons_of_neg (by simpa using ht)]
  rfl

theorem lineEnd_le {input : Text} {start : ℕ} (h : start ≤ input.length) : lineEnd input start ≤ input.length := by
  have hl := (takeWhile_sublist (l := input.drop start) (· ≠ '\n')).length_le
  rw [length_drop] at hl
  unfold lineEnd
  omega

theorem heredocLogicalLine_le {input : Text} (remove : Bool) (fuel : ℕ) {cursor : ℕ} (h : cursor ≤ input.length) (line : Text) :
    (heredocLogicalLine input remove fuel cursor line).2.1 ≤ input.length := by
  induction fuel generalizing cursor line with
  | zero => exact h
  | succ fuel ih =>
    have hl := lineEnd_le h
    unfold heredocLogicalLine
    dsimp only
    split
    next hc =>
      simp only [Bool.and_eq_true,decide_eq_true_eq] at hc
      exact ih hc.1.2 _
    · split
      next hc => exact of_decide_eq_true hc
      · exact hl

theorem readBody_le {input : Text} {w : Wanted} {fuel cursor : ℕ} (h : cursor ≤ input.length) (body : Text) :
    (readBody input w fuel cursor body).2 ≤ input.length := by
  induction fuel generalizing cursor body with
  | zero => exact h
  | succ fuel ih =>
    have hl := heredocLogicalLine_le w.removeEscapedNewlines (input.length + 1) h []
    unfold readBody
    rw [if_neg (by omega)]
    split
    next line stop consumed heq =>
      rw [heq] at hl
      dsimp only
      split
      · exact hl
      · split
        · exact hl
        · exact ih hl _

theorem Ended.filter {length : ℕ} {tail : List Token} {p : Token → Bool} (h : Ended length tail)
    (hp : ∀ t ∈ tail,length ≤ t.span.start → p t) : Ended length (tail.filter p) := by
  obtain ⟨init,last,rfl,hk,hl,hi⟩ := h
  refine ⟨init.filter p,last,?_,hk,hl,fun t ht => hi t (mem_filter.mp ht).1⟩
  rw [filter_append,filter_singleton,hp last (by simp) hl,cond_true]

theorem Ended.shift {input : Text} {stop : ℕ} (hs : stop ≤ input.length) {tokens : List Token}
    (h : Ended (input.drop stop).length tokens) : Ended input.length (tokens.map (shiftSpan stop)) := by
  obtain ⟨init,last,rfl,hk,hl,hi⟩ := h
  rw [length_drop] at hl hi
  refine ⟨init.map (shiftSpan stop),shiftSpan stop last,by simp,hk,?_,fun t ht => ?_⟩
  · simp only [shiftSpan]
    omega
  · obtain ⟨t,hm,rfl⟩ := mem_map.mp ht
    have := hi t hm
    simp only [shiftSpan]
    omega

theorem Ended.eq_singleton {length : ℕ} {tail : List Token} (h : Ended length tail)
    (hs : ∀ t ∈ tail,length ≤ t.span.start) : ∃ last, tail = [last] ∧ last.kind = .end := by
  obtain ⟨init,last,rfl,hk,-,hi⟩ := h
  have hn : init = [] := by
    refine eq_nil_iff_forall_not_mem.mpr fun t ht => ?_
    have := hs t (mem_append_left _ ht)
    have := hi t ht
    omega
  exact ⟨last,by rw [hn,nil_append],hk⟩

variable {lexer : Relexer}

theorem Ahead.clear (h : Ahead l frames own rest s) : s.Clear (l.newline + 1) := by
  obtain ⟨before,tail,ht,-,hw,htail,-⟩ := h.tokens
  have hb := h.bounds.1
  have hc := h.chain.le
  intro t hm
  rw [ht,← append_assoc] at hm
  rcases mem_append.mp hm with hm | hm
  · have := (hw t hm).2
    omega
  · have := htail t hm
    omega

theorem Ahead.bodyStart_eq (h : Ahead l frames own rest s) {place : ℕ} (hp : lineEnd l.input place = l.newline) :
    bodyStart s place = some (l.reach own) := by
  have hle := le_lineEnd l.input place
  have hc := h.chain.le
  unfold bodyStart
  rw [h.offset]
  by_cases hn : own = []
  · rw [if_pos hn,hn]
    exact initialHeredocBodyCursor_of_clear h.input hp h.clear
  · rw [if_neg hn]
    simp only [Option.some.injEq]
    omega

/-- Cutting out a document leaves the line as it is and nothing of the document behind it. -/
theorem tokens_skipTokensInRange (lexer : Relexer) {before tail : List Token} {start stop : ℕ}
    (ht : s.tokens = before ++ (rest ++ tail)) (hi : s.index = before.length) (hw : ∀ t ∈ before ++ rest,l.Within t)
    (htail : ∀ t ∈ tail,start ≤ t.span.start)
    (he : Ended s.input.length tail) (hstart : l.newline < start) (hstop : stop ≤ s.input.length) :
    (skipTokensInRange lexer.relex s start stop).index = before.length ∧
      ∃ tail', (skipTokensInRange lexer.relex s start stop).tokens = before ++ (rest ++ tail') ∧
        (∀ t ∈ tail',stop ≤ t.span.start) ∧ Ended s.input.length tail' := by
  have hwithin : ∀ t ∈ before ++ rest,t.span.start < start := fun t hm => Nat.lt_of_le_of_lt (hw t hm).1 hstart
  unfold skipTokensInRange
  dsimp only
  split
  next t _ =>
    refine ⟨hi,(lexer.relex (s.input.drop stop) t.span.source).map (shiftSpan stop),?_,?_,(lexer.ended _ _).shift hstop⟩
    · have hk : (before ++ rest).filter (fun t => decide (t.span.start < start)) = before ++ rest :=
        filter_eq_self.mpr fun t hm => decide_eq_true (hwithin t hm)
      have hd : tail.filter (fun t => decide (t.span.start < start)) = [] :=
        filter_eq_nil_iff.mpr fun t hm => by simpa using htail t hm
      rw [ht,← append_assoc,filter_append,hk,hd,append_nil,append_assoc]
    · intro t hm
      obtain ⟨t,-,rfl⟩ := mem_map.mp hm
      exact Nat.le_add_left _ _
  next =>
    refine ⟨hi,tail.filter fun t => !(decide (start ≤ t.span.start) && decide (t.span.start < stop)),?_,fun t hm => ?_,
      he.filter fun t _ hl => ?_⟩
    · have hk : rest.filter (fun t => !(decide (start ≤ t.span.start) && decide (t.span.start < stop))) = rest := by
        refine filter_eq_self.mpr fun t hm => ?_
        have := hwithin t (mem_append_right _ hm)
        simp [Nat.not_le.mpr this]
      rw [ht,hi,take_left,drop_left,filter_append,hk]
    · obtain ⟨hm,hp⟩ := mem_filter.mp hm
      have := htail t hm
      simp only [Bool.not_eq_true',Bool.and_eq_false_iff,decide_eq_false_iff_not] at hp
      omega
    · simp only [Bool.not_eq_true',Bool.and_eq_false_iff,decide_eq_false_iff_not]
      omega

@[simp] theorem reach_concat (docs : List Redirect) (r : Redirect) :
    l.reach (docs ++ [r]) = (r.place.map Place.stop).getD (l.reach docs) := by
  simp [Line.reach]

theorem Ahead.parseHereDoc (h : Ahead l frames own rest s) (hcount : own.length < heredocMax) (target : WordDesc)
    (hp : lineEnd l.input target.span.stop = l.newline) (instruction : RedirectInstruction) (opSpan : Span) :
    ∃ body place s', parseHereDoc lexer.relex instruction target opSpan s =
        .ok (((wantedOf instruction target).delimiter,body,place),s') ∧
      ∀ r : Redirect, r.place = some place → r.hereDocBody = some body → r.wanted = wantedOf instruction target →
        Ahead l frames (own ++ [r]) rest s' := by
  obtain ⟨before,tail,ht,hi,hw,htail,he⟩ := h.tokens
  have hb := h.bounds
  have hnewline : l.newline < l.reach own := h.chain.le
  have hplace : target.span.stop < s.input.length := by
    have hle := le_lineEnd l.input target.span.stop
    have hended := l.ended
    rw [h.input]
    omega
  let s₁ : Parser := { s with hereDocCount := s.hereDocCount + 1 }
  let doc := readBody s.input (wantedOf instruction target) (s.input.length + 1) (l.reach own) []
  have hle : l.reach own ≤ doc.2 := le_readBody ..
  have hstop : doc.2 ≤ s.input.length := readBody_le (by rw [h.input]; omega) []
  have hc : consumeHeredocBody lexer.relex (wantedOf instruction target) target.span.stop s₁ =
      .ok ((doc.1,⟨l.reach own,doc.2⟩),skipTokensInRange lexer.relex s₁ (l.reach own) doc.2) :=
    consumeHeredocBody_eq lexer.relex hplace (h.bodyStart_eq hp)
  obtain ⟨hindex,tail',ht',htail',he'⟩ := tokens_skipTokensInRange (s := s₁) lexer ht hi hw
    (fun t hm => Nat.le_trans hb.1 (htail t hm)) (by rw [show s₁.input = l.input from h.input]; exact he) hnewline hstop
  refine ⟨doc.1,⟨l.reach own,doc.2⟩,{ skipTokensInRange lexer.relex s₁ (l.reach own) doc.2 with hereDocBodyOffset := some doc.2 },?_,
    fun r hr hbody hwanted => ?_⟩
  · refine (get_bind _ s).trans ?_
    rw [if_neg (by rw [h.count]; omega)]
    exact (bind_of_ok (t := s₁) (a := ⟨⟩) rfl).trans (bind_of_ok hc)
  · have hown : l.reach (own ++ [r]) = doc.2 := by rw [reach_concat,hr]; rfl
    have hall : l.reach (frames.flatten ++ (own ++ [r])) = doc.2 := by rw [← append_assoc,reach_concat,hr]; rfl
    have hdoc : r.bodyAt l.input (l.reach own) = doc := by rw [bodyAt,hwanted,← h.input]
    have hin : (skipTokensInRange lexer.relex s₁ (l.reach own) doc.2).input = l.input :=
      (input_skipTokensInRange lexer.relex s₁ _ _).trans h.input
    refine ⟨hin,?_,by rw [hown,if_neg (by simp)],h.served,?_,?_,before,tail',ht',hindex,hw,by rwa [hall],?_⟩
    · rw [length_append,← h.count]
      unfold skipTokensInRange
      dsimp only
      split <;> rfl
    · rw [hown,← hdoc]
      exact h.chain.snoc (by rw [hdoc,hr]) (by rw [hdoc,hbody])
    · rw [hown,hall,← h.input]
      exact ⟨Nat.le_refl _,hstop⟩
    · rw [← h.input]
      exact he'
end
end Cherubsh.Grammar
