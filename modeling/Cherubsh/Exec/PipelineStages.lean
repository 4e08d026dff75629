import Cherubsh.Parser.Compound

/-! # The stages of a pipeline

The parser folds a pipeline into connections that lean to the left and turns `|&` into a
redirection of what is on its left by then. The executor takes the connections apart
again, without a look at the redirections of those in between.
-/
namespace Cherubsh.Exec.Stages
open Grammar
variable {data : CommandData} {c : Command} {s s' : Parser} {limit : ℕ}

mutual
def collectPipeline : Command → List Command
  | .mk data flags line redirects => (collectConnection data).getD [.mk data flags line redirects]

def collectConnection : CommandData → Option (List Command)
  | .connection first second .pipe => some (collectPipeline first ++ [second])
  | .connection first second .barAnd => some (collectPipeline first ++ [second])
  | _ => none
end

/-- The redirections applied for a command: those after it, then those among its words. -/
def applied : Command → List Redirect
  | .mk (.simple _ redirects) _ _ more => more ++ redirects
  | .mk _ _ _ redirects => redirects

def bare : Command → CommandData
  | .mk (.simple words _) _ _ _ => .simple words []
  | .mk data _ _ _ => data

section
inductive Operator where
  | bar
  | barAnd
  deriving DecidableEq

def Operator.token : Operator → TokenKind
  | .bar => .pipe
  | .barAnd => .barAnd

def afterOperator (s : Parser) : Parser :=
  { s with index := s.index + 1 + ((s.tokens.drop (s.index + 1)).takeWhile fun t => t.kind = .newline).length }

variable (command : Parse Command)

inductive Follows : Parser → List (Operator × Command) → Parser → Prop
  | done {s : Parser} (h : ∀ op : Operator, s.peekKind ≠ some op.token) : Follows s [] s
  | next {s t s' : Parser} (op : Operator) {c : Command} {rest : List (Operator × Command)}
      (hop : s.peekKind = some op.token) (hc : command (afterOperator s) = .ok (c,t)) (hrest : Follows t rest s') :
      Follows s ((op,c) :: rest) s'

/-- A pipeline stands in the input: its first command, behind times and bangs, and the rest. -/
def Reads (limit : ℕ) (s : Parser) (first : Command) (rest : List (Operator × Command)) (s' : Parser) : Prop :=
  ∃ start t : Parser, ∃ p : ℕ × Bool, iterate .outOfFuel pipelinePrefix limit (0,false) s = .ok (p,start) ∧
    atListTerminator start = false ∧ command start = .ok (first,t) ∧ Follows command t rest s'

def Does (op : Option Operator) (c stage : Command) : Prop :=
  bare stage = bare c ∧ applied stage = applied c ++ if op = some .barAnd then [stderrToStdout] else []

/-- Every operator acts on the command at its left, and on nothing else. -/
def EachActs : Command → List (Operator × Command) → List Command → Prop
  | c, [], stages => ∃ stage, stages = [stage] ∧ Does none c stage
  | c, (op,next) :: rest, stages => ∃ stage more, stages = stage :: more ∧ Does (some op) c stage ∧ EachActs next rest more
end

section
def Single (c : Command) : Prop := ∀ first second connector, c.data ≠ .connection first second connector

theorem collectConnection_of_single (h : ∀ first second connector, data ≠ .connection first second connector) :
    collectConnection data = none := by
  cases data with
  | connection first second connector => exact absurd rfl (h first second connector)
  | _ => rfl

theorem collectPipeline_of_single (h : Single c) : collectPipeline c = [c] := by
  obtain ⟨data,flags,line,redirects⟩ := c
  have hn : collectConnection data = none := collectConnection_of_single h
  simp [collectPipeline,hn]

theorem collectPipeline_connect (left right : Command) :
    collectPipeline (connect left right .pipe) = collectPipeline left ++ [right] := by
  simp [connect,collectPipeline,collectConnection]

variable (relex : Text → ℕ → List Token)

abbrev GivesSingle (p : Parse Command) : Prop := Ensures (fun _ => True) p fun c _ => Single c

theorem givesSingle_plain {flags line : ℕ} {redirects : List Redirect}
    (h : ∀ first second connector, data ≠ .connection first second connector) :
    GivesSingle (pure (.mk data flags line redirects)) :=
  .pure _ fun _ _ => h

theorem givesSingle_failHere (message : String) : GivesSingle (failHere message) := Ensures.get.bind fun _ => .fail _

section
variable (command : Parse Command) (limit : ℕ)

theorem givesSingle_parseElifChain (fuel : ℕ) (opening : String) :
    GivesSingle (parseElifChain command limit fuel opening) := by
  cases fuel with
  | zero => exact .fail _
  | succ fuel =>
    refine .ofBind fun test => .ofBind fun trueCase => .ofBind fun s => .ite ?_ (.ite ?_ (givesSingle_plain nofun))
    all_goals exact .ofBind fun falseCase => givesSingle_plain nofun

theorem givesSingle_parseLoops : GivesSingle (parseForCommand command limit) ∧ GivesSingle (parseSelectCommand command limit) ∧
      GivesSingle (parseCaseCommand command limit) := by
  refine ⟨.ofBind fun _ => .ofBind fun s => ?_,?_,?_⟩
  · split
    · exact .ofBind fun s => .ofBind fun _ => .ofBind fun s => .ofBind fun p => .ite (.fail _) (.ite (.fail _)
        (.ofBind fun action => givesSingle_plain nofun))
    all_goals first | exact givesSingle_failHere _ | skip
    all_goals
      refine .ofBind fun s => .ofBind fun token => ?_
      cases token with
      | none => exact givesSingle_failHere _
      | some token => exact .ofBind fun _ => .ofBind fun mapList => .ofBind fun action => givesSingle_plain nofun
  · exact .ofBind fun _ => .ofBind fun name => .ofBind fun s => .ofBind fun mapList => .ofBind fun action => givesSingle_plain nofun
  · refine .ofBind fun _ => .ofBind fun word => .ofBind fun _ => .ofBind fun _ => .ofBind fun _ => ?_
    exact .ofBind fun clauses => .ofBind fun _ => givesSingle_plain nofun

theorem givesSingle_parseFunctionDef : GivesSingle (parseFunctionDef command limit) := by
  exact .ofBind fun name => .ofBind fun _ => .ofBind fun s => .ofBind fun body => .ite (.fail _) (givesSingle_plain nofun)

theorem givesSingle_parseCoprocCommand : GivesSingle (parseCoprocCommand relex command limit) := by
  refine .ofBind fun _ => .ofBind fun s => .ite ?_ (.ite ?_ ?_)
  · exact .ofBind fun body => givesSingle_plain nofun
  · exact .ofBind fun name => .ofBind fun body => givesSingle_plain nofun
  · exact .ofBind fun parts => givesSingle_plain nofun

theorem givesSingle_parseForm : GivesSingle (parseForm relex command limit) := by
  obtain ⟨hf,hs,hc⟩ := givesSingle_parseLoops command limit
  have hif : GivesSingle (parseIfCommand command limit) :=
    (givesSingle_parseElifChain command limit limit "if").bind fun c => .bind (fun _ h _ _ _ => h) fun _ => .pure c fun _ h => h
  have hb : ∀ (data : Command → Command → CommandData) (opening : String) (closing : List String),
      (∀ test action first second connector, data test action ≠ .connection first second connector) →
      GivesSingle (do
        let test ← parseBetween command limit opening closing
        let action ← parseBetween command limit "do" ["done"]
        expectWord "done"
        return (data test action).plain) := fun data opening closing hda =>
    .ofBind fun test => .ofBind fun action => .ofBind fun _ => givesSingle_plain (hda test action)
  have hd : GivesSingle (parseDoubleSubshellCommand command limit) :=
    .ofBind fun _ => .ofBind fun _ => .ofBind fun _ => .ofBind fun _ => .ofBind fun _ => givesSingle_plain nofun
  refine .ofBind fun s => .ite hif (.ite ?_ (.ite ?_ (.ite hf (.ite hc (.ite hs (.ite ?_ (.ite ?_ (.ite ?_
    (.ite ?_ (.ite (.ite ?_ hd) (.ite ?_ ?_)))))))))))
  · exact hb .while "while" ["do"] (by simp)
  · exact hb .until "until" ["do"] (by simp)
  · exact givesSingle_parseFunctionDef command limit
  · exact givesSingle_parseCoprocCommand relex command limit
  · exact .ofBind fun body => givesSingle_plain nofun
  · exact .ofBind fun _ => .ofBind fun body => .ofBind fun _ => givesSingle_plain nofun
  · exact .ofBind fun _ => .ofBind fun _ => .ofBind fun _ => .ofBind fun _ => givesSingle_plain nofun
  · exact .ofBind fun _ => .ofBind fun _ => .ofBind fun _ => .ofBind fun _ => .ofBind fun _ => givesSingle_plain nofun
  · split
    · exact .fail _
    · exact .ofBind fun parts => givesSingle_plain nofun
end

theorem givesSingle_parseTrailingRedirects (h : Single c) (limit : ℕ) :
    GivesSingle (parseTrailingRedirects relex limit c) := by
  obtain ⟨data,flags,line,redirects⟩ := c
  exact .ofBind fun _ => givesSingle_plain h

theorem givesSingle_parseCommand (fuel : ℕ) : GivesSingle (parseCommand relex fuel) := by
  cases fuel with
  | zero => exact .fail _
  | succ fuel =>
    refine .ofBind fun s => .ofBind fun _ => (givesSingle_parseForm relex _ fuel).bind fun c s' hc => ?_
    exact (givesSingle_parseTrailingRedirects relex hc fuel).bind (fun c => .bind (fun _ h _ _ _ => h)
      fun _ => .pure _ fun _ h => by obtain ⟨data,flags,line,redirects⟩ := c; exact h) s' trivial
end

section
variable {command : Parse Command} {c : Command} {first second : Command} (left : Command)

def fold (left : Command) : Operator × Command → Command
  | (.bar,right) => connect left right .pipe
  | (.barAnd,right) => connect (addStderrToStdoutRedirect left) right .pipe

theorem pipelineStep_of_operator {t : Parser} {op : Operator}
    (hop : s.peekKind = some op.token) (hc : command (afterOperator s) = .ok (c,t)) :
    pipelineStep command left s = .ok (.inl (fold left (op,c)),t) := by
  obtain ⟨token,ht,-⟩ := Option.map_eq_some_iff.mp hop
  have hs : skipNewlines { s with index := s.index + 1 } = .ok ((),afterOperator s) := rfl
  refine (get_bind _ s).trans ?_
  cases op <;> simp only [hop,Operator.token] <;>
    exact (bind_of_ok (bump_of_peek ht)).trans ((bind_of_ok hs).trans (bind_of_ok hc))

theorem pipelineStep_of_done
    (h : ∀ op : Operator, s.peekKind ≠ some op.token) : pipelineStep command left s = .ok (.inr left,s) := by
  refine (get_bind _ s).trans ?_
  cases hk : s.peekKind with
  | none => rfl
  | some kind =>
    cases kind with
    | pipe => exact absurd hk (h .bar)
    | barAnd => exact absurd hk (h .barAnd)
    | _ => rfl

theorem iterate_pipelineStep {rest : List (Operator × Command)}
    (h : Follows command s rest s') (left : Command) (hl : rest.length < limit) :
    iterate .outOfFuel (pipelineStep command) limit left s = .ok (rest.foldl fold left,s') := by
  induction h generalizing left limit with
    obtain ⟨limit,rfl⟩ : ∃ n, limit = n + 1 := ⟨limit - 1,by simp at hl; omega⟩
  | done h =>
    exact bind_of_ok (pipelineStep_of_done left h)
  | next op hop hc _ ih =>
    exact (bind_of_ok (pipelineStep_of_operator left hop hc)).trans (ih _ (by simpa using hl))

theorem collectPipeline_fold {left : Command} (h : left.data = .connection first second .pipe)
    (next : Operator × Command) : collectPipeline (fold left next) = collectPipeline left ++ [next.2] := by
  obtain ⟨data,flags,line,redirects⟩ := left
  obtain rfl : data = .connection first second .pipe := h
  obtain ⟨op,c⟩ := next
  cases op <;> simp [fold,connect,addStderrToStdoutRedirect,collectPipeline,collectConnection]

theorem data_fold (next : Operator × Command) :
    ∃ first, (fold left next).data = .connection first next.2 .pipe := by
  obtain ⟨op,c⟩ := next
  cases op
  · exact ⟨left,rfl⟩
  · exact ⟨addStderrToStdoutRedirect left,rfl⟩

theorem collectPipeline_foldl {left : Command} (h : left.data = .connection first second .pipe)
    (rest : List (Operator × Command)) : collectPipeline (rest.foldl fold left) = collectPipeline left ++ rest.map Prod.snd := by
  induction rest generalizing left first second with
  | nil => simp
  | cons next rest ih =>
    obtain ⟨first',hf⟩ := data_fold left next
    simp [ih hf,collectPipeline_fold h]

def redirectedFor (op : Operator) (c : Command) : Command :=
  match op with
  | .bar => c
  | .barAnd => addStderrToStdoutRedirect c

theorem single_redirectedFor (h : Single c) (op : Operator) : Single (redirectedFor op c) := by
  obtain ⟨data,flags,line,redirects⟩ := c
  cases op
  · exact h
  · cases data <;> first | exact h | (intro first second connector hd; cases hd)

theorem collectPipeline_pipeline (h : Single c) (op : Operator) (next : Command) (rest : List (Operator × Command)) :
    collectPipeline (((op,next) :: rest).foldl fold c) = redirectedFor op c :: next :: rest.map Prod.snd := by
  obtain ⟨first,hf⟩ := data_fold c (op,next)
  have ht : collectPipeline (fold c (op,next)) = [redirectedFor op c,next] := by
    have hl := collectPipeline_of_single (single_redirectedFor h op)
    cases op <;> simp_all [fold,collectPipeline_connect,redirectedFor]
  simp [collectPipeline_foldl hf,ht]

theorem collectPipeline_withPrefix {first second : Command} (h : c.data = .connection first second .pipe) (flags : ℕ)
    (invert : Bool) : collectPipeline (withPrefix flags invert c) = collectPipeline c := by
  obtain ⟨data,flags',line,redirects⟩ := c
  obtain rfl : data = .connection first second .pipe := h
  simp [withPrefix,Command.withFlags,collectPipeline,collectConnection]
end

section
variable {first : Command} {rest : List (Operator × Command)}

theorem does_redirectedFor (op : Operator) (c : Command) : Does (some op) c (redirectedFor op c) := by
  obtain ⟨data,flags,line,redirects⟩ := c
  cases op
  · simp [Does,redirectedFor]
  · cases data <;> simp [Does,redirectedFor,addStderrToStdoutRedirect,bare,applied]

theorem does_self_iff (op : Option Operator) (c : Command) : Does op c c ↔ op ≠ some .barAnd := by
  by_cases h : op = some .barAnd <;> simp [Does,h]

theorem does_none_withPrefix (c : Command) (flags : ℕ) (invert : Bool) : Does none c (withPrefix flags invert c) := by
  obtain ⟨data,flags',line,redirects⟩ := c
  cases data <;> simp [Does,withPrefix,Command.withFlags,bare,applied]

theorem eachActs_self_iff (c : Command) (rest : List (Operator × Command)) :
    EachActs c rest (c :: rest.map Prod.snd) ↔ ∀ op ∈ rest.map Prod.fst, op = .bar := by
  induction rest generalizing c with
  | nil => simp [EachActs,does_self_iff]
  | cons next rest ih =>
    obtain ⟨op,next⟩ := next
    have hop : Does (some op) c c ↔ op = .bar := by cases op <;> simp [does_self_iff]
    constructor
    · rintro ⟨stage,more,heq,hd,hm⟩
      obtain ⟨rfl,rfl⟩ := List.cons.inj heq
      simpa using ⟨hop.mp hd,by simpa using (ih next).mp hm⟩
    · intro ha
      simp only [List.map_cons,List.mem_cons,forall_eq_or_imp] at ha
      exact ⟨c,_,rfl,hop.mpr ha.1,(ih next).mpr ha.2⟩

theorem eachActs_foldl_iff (hs : Single first) (rest : List (Operator × Command)) (flags : ℕ) (invert : Bool) :
    EachActs first rest (collectPipeline (withPrefix flags invert (rest.foldl fold first))) ↔
      ∀ op ∈ (rest.map Prod.fst).tail, op = .bar := by
  cases rest with
  | nil =>
    have ho : Single (withPrefix flags invert first) := by
      obtain ⟨data,flags',line,redirects⟩ := first
      exact hs
    simpa [EachActs,collectPipeline_of_single ho] using does_none_withPrefix first flags invert
  | cons next rest =>
    obtain ⟨op,next⟩ := next
    obtain ⟨left,last,hd⟩ : ∃ left last, (((op,next) :: rest).foldl fold first).data = .connection left last .pipe := by
      have hl := List.dropLast_append_getLast (l := (op,next) :: rest) (by simp)
      rw [← hl,List.foldl_append]
      obtain ⟨left,h⟩ := data_fold (((op,next) :: rest).dropLast.foldl fold first) (((op,next) :: rest).getLast (by simp))
      exact ⟨left,_,h⟩
    rw [collectPipeline_withPrefix hd,collectPipeline_pipeline hs]
    simp only [List.map_cons,List.tail_cons,← eachActs_self_iff next rest]
    constructor
    · rintro ⟨stage,more,heq,-,hm⟩
      obtain ⟨rfl,rfl⟩ := List.cons.inj heq
      exact hm
    · exact fun hm => ⟨_,_,rfl,does_redirectedFor op first,hm⟩

theorem parsePipeline_of_reads {command : Parse Command} (hr : Reads command limit s first rest s') (hl : rest.length < limit) :
    ∃ flags invert, parsePipeline command limit s = .ok (withPrefix flags invert (rest.foldl fold first),s') := by
  obtain ⟨start,t,⟨flags,invert⟩,hb,hs,hf,hre⟩ := hr
  refine ⟨flags,invert,(bind_of_ok hb).trans ((bind_of_ok (t := start) (a := start) rfl).trans ?_)⟩
  simp only [hs,Bool.false_eq_true,if_false]
  exact (bind_of_ok hf).trans (bind_of_ok (iterate_pipelineStep hre first hl))

theorem single_of_reads {relex : Text → ℕ → List Token} {fuel : ℕ}
    (hr : Reads (parseCommand relex fuel) limit s first rest s') : Single first := by
  obtain ⟨start,t,-,-,-,hf,-⟩ := hr
  exact givesSingle_parseCommand relex fuel start trivial first t hf

/-- Every `|&` acts on the command at its left exactly where only the first operator is one. -/
theorem each_operator_acts_iff (relex : Text → ℕ → List Token) (fuel limit : ℕ) {s s' : Parser} {first : Command}
    {rest : List (Operator × Command)} (hread : Reads (parseCommand relex fuel) limit s first rest s')
    (hlimit : rest.length < limit) :
    ∃ p, parsePipeline (parseCommand relex fuel) limit s = .ok (p,s') ∧
      (EachActs first rest (collectPipeline p) ↔ ∀ op ∈ (rest.map Prod.fst).tail, op = .bar) := by
  obtain ⟨flags,invert,hparse⟩ := parsePipeline_of_reads hread hlimit
  exact ⟨_,hparse,eachActs_foldl_iff (single_of_reads hread) rest flags invert⟩

/-! The tokens of `a|&b|c` and `a|b|&c`. -/

def wordToken (c : Char) (start : ℕ) : Token := ⟨.word,.text [c],⟨0,start,start + 1⟩,0⟩

def operatorToken (op : Operator) (start stop : ℕ) : Token := ⟨op.token,.none,⟨0,start,stop⟩,0⟩

def endToken (start : ℕ) : Token := ⟨.end,.none,⟨0,start,start⟩,0⟩

def firstActs : Parser :=
  ⟨[wordToken 'a' 0,operatorToken .barAnd 1 3,wordToken 'b' 3,operatorToken .bar 4 5,wordToken 'c' 5,endToken 6],0,
    "a|&b|c".toList,0,none⟩

def secondActs : Parser :=
  ⟨[wordToken 'a' 0,operatorToken .bar 1 2,wordToken 'b' 2,operatorToken .barAnd 3 5,wordToken 'c' 5,endToken 6],0,
    "a|b|&c".toList,0,none⟩

def noRelex (_ : Text) (_ : ℕ) : List Token := []

theorem first_operator_acts : ∃ first rest p s', rest.map Prod.fst = [.barAnd,.bar] ∧
    parsePipeline (parseCommand noRelex 5) 5 firstActs = .ok (p,s') ∧ EachActs first rest (collectPipeline p) := by
  have hread : Reads (parseCommand noRelex 5) 5 firstActs _ _ _ :=
    ⟨_,_,_,rfl,rfl,rfl,.next .barAnd rfl rfl (.next .bar rfl rfl (.done fun op => by cases op <;> decide))⟩
  obtain ⟨p,hparse,hacts⟩ := each_operator_acts_iff noRelex 5 5 hread (by decide)
  exact ⟨_,_,p,_,rfl,hparse,hacts.mpr (by decide)⟩

/-- The redirection for `b` is put on the connection of `a` and `b` and lost with it. -/
theorem second_operator_is_lost : ∃ first rest p s', rest.map Prod.fst = [.bar,.barAnd] ∧
    Reads (parseCommand noRelex 5) 5 secondActs first rest s' ∧
    parsePipeline (parseCommand noRelex 5) 5 secondActs = .ok (p,s') ∧ ¬EachActs first rest (collectPipeline p) := by
  have hread : Reads (parseCommand noRelex 5) 5 secondActs _ _ _ :=
    ⟨_,_,_,rfl,rfl,rfl,.next .bar rfl rfl (.next .barAnd rfl rfl (.done fun op => by cases op <;> decide))⟩
  obtain ⟨flags,invert,hparse⟩ := parsePipeline_of_reads hread (by decide)
  refine ⟨_,_,_,_,rfl,hread,hparse,fun hacts => ?_⟩
  have hbar := (eachActs_foldl_iff (single_of_reads hread) _ flags invert).mp hacts .barAnd (by decide)
  cases hbar
end
end Cherubsh.Exec.Stages
