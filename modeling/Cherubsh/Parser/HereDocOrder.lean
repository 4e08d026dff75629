import Cherubsh.Parser.CommandLines
import Mathlib.Data.List.TakeWhile

/-! # The order of here-documents

The parser gives every here-document of a line its own document exactly when they all belong to
one command: each command with here-documents begins again with the first document.
-/
namespace Cherubsh.Grammar
open Redirect List
variable {line rest text raw body input : Text} {remove ended : Bool} {w : Wanted} {start stop : ℕ}

/-- A line as it stands in the source, with the lines it is continued on, and as it is read. -/
inductive LogicalLine (remove ended : Bool) : Text → Text → Prop
  | last (line : Text) (hline : '\n' ∉ line)
      (hlast : (remove && ended && decide (line.getLast? = some '\\')) = false) :
      LogicalLine remove ended (line ++ if ended then ['\n'] else []) line
  | continued (first : Text) {raw line : Text} (hfirst : '\n' ∉ first) (hremove : remove)
      (rest : LogicalLine remove ended raw line) :
      LogicalLine remove ended (first ++ '\\' :: '\n' :: raw) (first ++ line)

/-- A document as it stands in the source with the line that closes it, and its body. -/
inductive Closed (w : Wanted) (ended : Bool) : Text → Text → Prop
  | delimiter {raw line : Text} (hline : LogicalLine w.removeEscapedNewlines ended raw line)
      (hcloses : w.closes line) : Closed w ended raw []
  | line {raw line rest body : Text} (hline : LogicalLine w.removeEscapedNewlines true raw line)
      (hcloses : w.closes line = false) (hrest : Closed w ended rest body) :
      Closed w ended (raw ++ rest) (line ++ '\n' :: body)

structure Document where
  wanted : Wanted
  raw : Text
  body : Text
  ended : Bool
  closed : Closed wanted ended raw body

/-- Documents one after another. Only the last one may end without a newline. -/
def Laid : List Document → Text → Prop
  | [], _ => True
  | d :: ds, text => ∃ rest, text = d.raw ++ rest ∧ (d.ended ∨ rest = [] ∧ ds = []) ∧ Laid ds rest

/-- Where documents begin that stand one after another, with their bodies. -/
def assigned : ℕ → List Document → List (ℕ × Text)
  | _, [] => []
  | start, d :: ds => (start,d.body) :: assigned (start + d.raw.length) ds

section
variable {input : Text} {cursor : ℕ}

theorem physical_eq (hl : '\n' ∉ line) (hin : input.drop cursor = line ++ rest)
    (hr : ∀ c ∈ rest.head?,c = '\n') : (input.drop cursor).takeWhile (· ≠ '\n') = line := by
  have hi : ∀ c ∈ line,decide (c ≠ '\n') := by
    intro c hc
    simpa using fun h : c = '\n' => hl (h ▸ hc)
  rw [hin,takeWhile_append_of_pos hi]
  cases rest with
  | nil => simp
  | cons c rest => simp [hr c rfl]

theorem lineEnd_eq (hl : '\n' ∉ line) (hi : input.drop cursor = line ++ rest)
    (hr : ∀ c ∈ rest.head?,c = '\n') : lineEnd input cursor = cursor + line.length := by
  rw [lineEnd,physical_eq hl hi hr]

theorem length_of_drop (hc : cursor ≤ input.length) (h : input.drop cursor = text) :
    input.length = cursor + text.length := by
  rw [← h,length_drop]
  omega

theorem drop_after (h : input.drop cursor = text ++ rest) :
    input.drop (cursor + text.length) = rest := by
  rw [← drop_drop,h,drop_left]

theorem heredocLogicalLine_eq (h : LogicalLine remove ended raw line) (hc : cursor ≤ input.length)
    (hi : input.drop cursor = raw ++ rest) (he : ended ∨ rest = []) {f : ℕ} (hf : raw.length < f) (before : Text) :
    heredocLogicalLine input remove f cursor before = (before ++ line,cursor + raw.length,ended) := by
  induction h generalizing cursor f before with
    obtain ⟨f,rfl⟩ := Nat.exists_eq_succ_of_ne_zero (Nat.ne_zero_of_lt hf)
  | last line hl hla =>
    have hle := length_of_drop hc hi
    rw [append_assoc] at hi
    have hh : ∀ c ∈ ((if ended then ['\n'] else []) ++ rest).head?,c = '\n' := by
      rcases he with rfl | rfl
      · simp
      · cases ended <;> simp
    have hn : decide (lineEnd input cursor < input.length) = ended := by
      rw [lineEnd_eq hl hi hh,hle]
      rcases he with rfl | rfl
      · simp
      · cases ended <;> simp
    unfold heredocLogicalLine
    dsimp only
    rw [physical_eq hl hi hh,hn,hla,lineEnd_eq hl hi hh]
    cases ended <;> simp [Nat.add_assoc]
  | @continued first raw line hfi hr hre ih =>
    have hle := length_of_drop hc hi
    -- the physical line ends with the backslash
    have hp : input.drop cursor = (first ++ ['\\']) ++ '\n' :: (raw ++ rest) := by simp [hi]
    have hl : '\n' ∉ first ++ ['\\'] := by simp [hfi]
    have hh : ∀ c ∈ ('\n' :: (raw ++ rest)).head?,c = '\n' := by simp
    have hen := lineEnd_eq hl hp hh
    simp only [length_append,length_cons,length_nil] at hle hf hen
    have hne : input.drop (lineEnd input cursor + 1) = raw ++ rest := by
      have hs : input.drop cursor = (first ++ ['\\','\n']) ++ (raw ++ rest) := by simp [hi]
      have h := drop_after hs
      rw [hen]
      simpa [Nat.add_assoc] using h
    have hn : lineEnd input cursor < input.length := by omega
    rw [hr] at ih ⊢
    unfold heredocLogicalLine
    rw [physical_eq hl hp hh]
    simp only [hn,decide_true,Bool.and_self,List.getLast?_append,List.getLast?_singleton,
      Option.some_or,if_true,dropLast_concat]
    rw [ih (by omega) hne (by omega),hen]
    simp only [append_assoc,length_append,length_cons,Prod.mk.injEq,true_and,and_true]
    omega

theorem LogicalLine.length_pos (h : LogicalLine remove true raw line) : 0 < raw.length := by
  cases h with
  | last => simp
  | continued => simp only [length_append,length_cons]; omega

theorem body_of_raw_nil (h : Closed w ended raw body) (hr : raw = []) : body = [] := by
  cases h with
  | delimiter => rfl
  | line hl =>
    have hp := hl.length_pos
    simp [(append_eq_nil_iff.mp hr).1] at hp

theorem readBody_eq (h : Closed w ended raw body) (hc : cursor ≤ input.length) (hi : input.drop cursor = raw ++ rest)
    (he : ended ∨ rest = []) {fuel : ℕ} (hf : raw.length < fuel) (before : Text) :
    readBody input w fuel cursor before = (before ++ body,cursor + raw.length) := by
  induction h generalizing cursor fuel before with
    obtain ⟨fuel,rfl⟩ := Nat.exists_eq_succ_of_ne_zero (Nat.ne_zero_of_lt hf)
  | @delimiter raw line hli hcl =>
    have hl := length_of_drop hc hi
    have hr := heredocLogicalLine_eq hli hc hi he (f := input.length + 1)
      (by rw [hl,length_append]; omega) []
    unfold readBody
    rw [if_neg (by omega),hr]
    simp [hcl]
  | @line raw line raw' body hli hcl hre ih =>
    have hl := length_of_drop hc hi
    rw [append_assoc] at hi
    simp only [length_append] at hl hf
    have hr := heredocLogicalLine_eq hli hc hi (.inl rfl) (f := input.length + 1) (by omega) []
    unfold readBody
    rw [if_neg (by omega),hr]
    simp only [nil_append,hcl,Bool.false_eq_true,if_false,if_true]
    split
    · have hra : raw' = [] := length_eq_zero_iff.mp (by omega)
      rw [body_of_raw_nil hre hra,hra,append_nil]
    · have hp := hli.length_pos
      rw [ih (by omega) (drop_after hi) (by omega)]
      simp [Nat.add_assoc]
end

section
variable {docs : List Document}

/-- The here-documents of a command and of those inside it, in the order of the source. -/
def Command.hereDocs (c : Command) : List Redirect := c.frames.flatten

def Redirect.found (r : Redirect) : Option ℕ × Option Text := (r.place.map Place.start,r.hereDocBody)

/-- Here-documents read one after another get the documents that stand one after another. -/
theorem found_of_chain {rs : List Redirect} (hc : Chain input start rs stop) (hw : rs.map wanted = docs.map Document.wanted)
    (hs : start ≤ input.length) (hla : Laid docs (input.drop start)) :
    rs.map found = (assigned start docs).map (fun d => (some d.1,some d.2)) ∧
      stop = start + (docs.map Document.raw).flatten.length := by
  induction rs generalizing docs start with
  | nil =>
    have hd : docs = [] := map_eq_nil_iff.mp hw.symm
    rw [hd]
    exact ⟨rfl,hc.symm⟩
  | cons r rs ih =>
    cases docs with
    | nil => cases hw
    | cons d docs =>
      obtain ⟨hp,hb,hr⟩ := hc
      obtain ⟨rest,ht,he,hd⟩ := hla
      simp only [map_cons,List.cons.injEq] at hw
      have hl := length_of_drop hs ht
      simp only [length_append] at hl
      have hre : r.bodyAt input start = (d.body,start + d.raw.length) := by
        rw [bodyAt,hw.1]
        exact readBody_eq d.closed hs ht (he.imp_right And.left) (by omega) []
      rw [hre] at hp hb hr
      obtain ⟨hta,hst⟩ := ih hr hw.2 (by omega) (by rw [drop_after ht]; exact hd)
      refine ⟨by simp [assigned,hta,found,hp,hb],?_⟩
      rw [hst,map_cons,flatten_cons,length_append]
      dsimp only
      omega

theorem le_of_mem_assigned {d : ℕ × Text} (hd : d ∈ assigned start docs) : start ≤ d.1 := by
  induction docs generalizing start with
  | nil => cases hd
  | cons doc docs ih =>
    rcases mem_cons.mp hd with rfl | hd
    · exact Nat.le_refl _
    · exact Nat.le_trans (Nat.le_add_right _ _) (ih hd)

theorem Closed.length_pos (h : Closed w true raw body) : 0 < raw.length := by
  cases h with
  | delimiter hl => exact hl.length_pos
  | line hl =>
    have hp := hl.length_pos
    simp only [length_append]
    omega

theorem Laid.length_pos {d : Document} (h : Laid (d :: docs) text) (hd : docs ≠ []) : 0 < d.raw.length := by
  obtain ⟨rest,_,he | hl,_⟩ := h
  · have hc := d.closed
    rw [he] at hc
    exact hc.length_pos
  · exact absurd hl.2 hd

theorem not_found_of_two_frames {r r' : Redirect}
    {f g rest : List Redirect} (hl : Laid docs (input.drop start)) (hc : Chain input start (r' :: g) stop) :
    (r :: f ++ (r' :: g ++ rest)).map found ≠ (assigned start docs).map fun d => (some d.1,some d.2) := by
  intro hf
  cases docs with
  | nil => cases hf
  | cons d docs =>
    simp only [cons_append,map_cons,assigned,List.cons.injEq] at hf
    have hm : r'.found ∈ (f ++ r' :: (g ++ rest)).map found := by simp
    rw [hf.2] at hm
    obtain ⟨x,hx,hxf⟩ := mem_map.mp hm
    have hd : docs ≠ [] := by
      rintro rfl
      cases hx
    have hle := le_of_mem_assigned hx
    have hp := hl.length_pos hd
    simp only [found,hc.1,Option.map_some,Prod.mk.injEq,Option.some.injEq] at hxf
    omega

/-- A line of commands and below it the documents it asks for, up to the end of the input. -/
structure Source where
  line : Line
  commands : CommandLine
  below : List Token
  docs : List Document
  fits : commands.Fits line
  within : ∀ t ∈ commands.tokens,line.Within t
  after : ∀ t ∈ below,line.newline < t.span.start
  ended : Ended line.input.length below
  asked : commands.frames.flatten = docs.map Document.wanted
  laid : Laid docs (line.input.drop (line.newline + 1))
  whole : line.input.drop (line.newline + 1) = (docs.map Document.raw).flatten

namespace Source
variable (x : Source)

def initial : Parser := .new (x.commands.tokens ++ x.below) x.line.input

/-- Where each document begins and its body, in the order of the documents. -/
def own : List (Option ℕ × Option Text) := (assigned (x.line.newline + 1) x.docs).map fun d => (some d.1,some d.2)

theorem ahead_initial : Ahead x.line [] [] x.commands.tokens x.initial :=
  ⟨rfl,rfl,rfl,by simp,rfl,⟨Nat.le_refl _,x.line.ended⟩,[],x.below,rfl,rfl,x.within,x.after,x.ended⟩

theorem length_eq : x.line.input.length = x.line.newline + 1 + (x.docs.map Document.raw).flatten.length := by
  have he := x.line.ended
  rw [← x.whole,length_drop]
  omega

variable {x} {frames : List (List Redirect)} (hframes : askedBy frames = x.commands.frames)
  (hserved : ∀ f ∈ frames,x.line.Serves f)
include hframes hserved

/-- One command with here-documents reads all the documents. -/
theorem found_of_one (hone : x.commands.frames.length ≤ 1) :
    frames.flatten.map found = x.own ∧ x.line.reach frames.flatten = x.line.input.length := by
  have hwanted : frames.flatten.map wanted = x.docs.map Document.wanted := by
    rw [map_flatten,← x.asked,← hframes]
    rfl
  have hchain : Chain x.line.input (x.line.newline + 1) frames.flatten (x.line.reach frames.flatten) := by
    rw [← hframes,askedBy,length_map] at hone
    rcases frames with _ | ⟨f,_ | ⟨g,rest⟩⟩
    · rfl
    · rw [flatten_singleton]
      exact (hserved f (mem_singleton_self f)).2
    · simp at hone
  obtain ⟨hfound,hstop⟩ := found_of_chain hchain hwanted x.line.ended x.laid
  exact ⟨hfound,hstop.trans x.length_eq.symm⟩

/-- The second command with here-documents begins again with the first document. -/
theorem one_of_found (more : List Redirect) (hfound : (frames.flatten ++ more).map found = x.own) :
    x.commands.frames.length ≤ 1 := by
  rw [← hframes,askedBy,length_map]
  rcases frames with _ | ⟨f,_ | ⟨g,rest⟩⟩
  · exact Nat.zero_le _
  · exact Nat.le_refl _
  · obtain ⟨r,f,rfl⟩ := exists_cons_of_ne_nil (hserved f (by simp)).1
    obtain ⟨hne,hchain⟩ := hserved g (by simp)
    obtain ⟨r',g,rfl⟩ := exists_cons_of_ne_nil hne
    rw [flatten_cons,flatten_cons,append_assoc,append_assoc] at hfound
    exact absurd hfound (not_found_of_two_frames x.laid hchain)
end Source

theorem parse_iff {relex : Text → ℕ → List Token} {fuel : ℕ} {l : Line} {tokens after : List Token} {s s' : Parser}
    {ast : Command} (hb : Begins tokens) (h : Ahead l [] [] (tokens ++ after) s) : parse relex fuel s = .ok (ast,s') ↔
      ∃ t, parseSimpleListUntil (parseCommand relex fuel) fuel [] s = .ok (ast,t) ∧ skipNewlines t = .ok ((),s') ∧
        s'.peekKind = some .end := by
  have hskip := hb.skipNewlines h
  have hne := hb.peekKind_ne h (show startKind .end = false from rfl)
  constructor
  · intro hparse
    obtain ⟨root,t,hunit,hreturn⟩ := exists_of_bind hparse
    unfold parseInputUnit at hunit
    rw [bind_of_ok hskip,get_bind,if_neg hne] at hunit
    obtain ⟨root',t₁,hlist,hunit⟩ := exists_of_bind hunit
    obtain ⟨_,t₂,hnewlines,hunit⟩ := exists_of_bind hunit
    rw [get_bind] at hunit
    split at hunit
    next hend =>
      cases hunit
      cases hreturn
      exact ⟨t₁,hlist,hnewlines,hend⟩
    · cases hunit
  · rintro ⟨t,hlist,hnewlines,hend⟩
    refine bind_of_ok (a := some ast) (t := s') ?_
    unfold parseInputUnit
    rw [bind_of_ok hskip,get_bind,if_neg hne,bind_of_ok hlist,bind_of_ok hnewlines,
      get_bind,if_pos hend]
    rfl

def document (line delimiter : Char) (hline : line ≠ '\n' ∧ line ≠ '\\') (hdelimiter : delimiter ≠ '\n' ∧ delimiter ≠ '\\')
    (h : line ≠ delimiter) : Document where
  wanted := ⟨[delimiter],false,true⟩
  raw := [line,'\n'] ++ [delimiter,'\n']
  body := [line,'\n']
  ended := true
  closed := .line (.last [line] (by simpa using hline.1.symm) (by simp [hline.2])) (by simp [Wanted.closes,h])
    (.delimiter (.last [delimiter] (by simpa using hdelimiter.1.symm) (by simp [hdelimiter.2])) (by simp [Wanted.closes]))

def twoDocuments : List Document :=
  [document 'a' 'A' (by decide) (by decide) (by decide),document 'b' 'B' (by decide) (by decide) (by decide)]

def wordToken (text : String) (start : ℕ) : Token := ⟨.word,.text text.toList,⟨0,start,start + text.length⟩,0⟩

def mark (kind : TokenKind) (start stop : ℕ) : Token := ⟨kind,.none,⟨0,start,stop⟩,0⟩

/-- The lines of two documents as tokens; they are dropped when the bodies are read. -/
def documentTokens (start : ℕ) : List Token :=
  [wordToken "a" start,mark .newline (start + 1) (start + 2),wordToken "A" (start + 2),
    mark .newline (start + 3) (start + 4),wordToken "b" (start + 4),mark .newline (start + 5) (start + 6),
    wordToken "B" (start + 6),mark .newline (start + 7) (start + 8),mark .end (start + 8) (start + 8)]

/-- A lexer that finds nothing but the end. -/
def endOnly : Relexer where
  relex text source := [⟨.end,.none,⟨source,text.length,text.length⟩,0⟩]
  ended text source := ⟨[],_,rfl,rfl,Nat.le_refl _,by simp⟩

def fromDoc (delimiter : String) (start : ℕ) : Redirection :=
  ⟨none,mark .lessLess start (start + 2),wordToken delimiter (start + 2)⟩

/-- `cat` with here-documents from the delimiters, each a space behind what stands before it. -/
def cat (start : ℕ) (docs : List (String × ℕ)) : List Piece :=
  .word (wordToken "cat" start) :: docs.map fun d => .redirection (fromDoc d.1 d.2)

theorem cat_fits {l : Line} {start : ℕ} {docs : List (String × ℕ)} {t : Token} {after : List Token}
    (hdocs : ∀ d ∈ docs,lineEnd l.input (d.2 + 2 + d.1.length) = l.newline) (hmax : (wantedBy (cat start docs)).length ≤ heredocMax)
    (ht : t.kind ≠ .lParen) : CommandFits l (cat start docs) (t :: after) := by
  have hrest : ∀ docs : List (String × ℕ), (∀ d ∈ docs,lineEnd l.input (d.2 + 2 + d.1.length) = l.newline) →
      PiecesFit l (some "cat".toList) (docs.map fun d => .redirection (fromDoc d.1 d.2)) (t :: after) := by
    intro docs hdocs
    induction docs with
    | nil => trivial
    | cons d docs ih =>
      refine ⟨⟨by simp [fromDoc],rfl,rfl,fun _ => hdocs d (by simp)⟩,ih fun d hd => hdocs d (mem_cons_of_mem _ hd)⟩
  have hname : nameAfter none (wordToken "cat" start) = some (some "cat".toList) := by
    simp [nameAfter,wordToken,tokenValueToString]
  refine ⟨⟨rfl,?_,_,hname,hrest docs hdocs⟩,hmax,_,_,rfl,?_⟩
  · intro u hu
    refine ⟨by simp [actsOn,wordToken,isRedirWordToken,redirWordName],?_⟩
    cases docs with
    | nil =>
      obtain rfl : t = u := Option.some.inj hu
      exact ht
    | cons d docs =>
      obtain rfl : mark .lessLess d.2 (d.2 + 2) = u := Option.some.inj hu
      simp [mark]
  · rintro w hw
    obtain rfl : "cat".toList = w := TokenValue.text.inj hw
    decide

def oneCommand : Source where
  line := ⟨"cat <<A <<B\na\nA\nb\nB\n".toList,11,by decide⟩
  commands := ⟨⟨⟨⟨cat 0 [("A",4),("B",8)],[]⟩,[]⟩,[]⟩,none,mark .newline 11 12⟩
  below := documentTokens 12
  docs := twoDocuments
  fits := ⟨⟨⟨⟨cat_fits (by decide) (by decide) (by decide),trivial⟩,trivial⟩,trivial⟩,by simp,by decide,by decide⟩
  within := by decide
  after := by decide
  ended := ⟨(documentTokens 12).dropLast,_,rfl,rfl,by decide,by decide⟩
  asked := by decide
  laid := ⟨_,rfl,.inl rfl,_,rfl,.inl rfl,trivial⟩
  whole := by decide

def twoCommands : Source where
  line := ⟨"cat <<A | cat <<B\na\nA\nb\nB\n".toList,17,by decide⟩
  commands := ⟨⟨⟨⟨cat 0 [("A",4)],[(mark .pipe 8 9,cat 10 [("B",14)])]⟩,[]⟩,[]⟩,none,mark .newline 17 18⟩
  below := documentTokens 18
  docs := twoDocuments
  fits := ⟨⟨⟨⟨cat_fits (by decide) (by decide) (by decide),⟨by decide,by decide⟩,
    cat_fits (by decide) (by decide) (by decide),trivial⟩,trivial⟩,trivial⟩,by simp,by decide,by decide⟩
  within := by decide
  after := by decide
  ended := ⟨(documentTokens 18).dropLast,_,rfl,rfl,by decide,by decide⟩
  asked := by decide
  laid := ⟨_,rfl,.inl rfl,_,rfl,.inl rfl,trivial⟩
  whole := by decide

end
end Cherubsh.Grammar
