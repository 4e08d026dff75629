import Cherubsh.Builtins.Test

/-! # Operands of test that look like operators

A list of comparisons joined by `-a` and `-o` means a boolean combination, whatever the operands
are. The parser reads a left operand that is spelled like a unary operator as that operator.
-/
namespace Cherubsh.Builtins.Test
open Expander.Arith (Text)
variable {op message arg : Text} {p : Primary}

section
/-- A comparison, with a left operand that neither negates nor opens a group. -/
structure Primary where
  left : Text
  op : Text
  right : Text
  binary : isBinaryOp op = true
  notBang : left ≠ ['!']
  notOpen : left ≠ ['(']

inductive Joiner where
  | and | or
  deriving DecidableEq

def Joiner.word : Joiner → Text
  | .and => "-a"
  | .or => "-o"

/-- Two or more comparisons and the connectives between them. -/
structure Expression where
  first : Primary
  more : List (Joiner × Primary)
  several : more ≠ []

def Primary.words (p : Primary) : List Text := [p.left,p.op,p.right]

def moreWords (more : List (Joiner × Primary)) : List Text := more.flatMap fun (j,p) => j.word :: p.words

def Expression.words (e : Expression) : List Text := e.first.words ++ moreWords e.more

def Expression.primaries (e : Expression) : List Primary := e.first :: e.more.map Prod.snd

def Expression.args (e : Expression) (requireBracket : Bool) : List Text :=
  if requireBracket then e.words ++ [[']']] else e.words

/-- `-a` binds tighter than `-o`. -/
def combination : Bool → List (Joiner × Bool) → Bool
  | b,[] => b
  | b,(.and,c) :: rest => combination (b && c) rest
  | b,(.or,c) :: rest => b || combination c rest

variable (w : World)

def Primary.compare (p : Primary) : Except Text Bool := evalBinaryOp w p.op p.left p.right

def comparisons : List (Joiner × Primary) → Except Text (List (Joiner × Bool))
  | [] => .ok []
  | (j,p) :: more => do
    let c ← p.compare w
    let rest ← comparisons more
    .ok ((j,c) :: rest)

def Expression.meaning (e : Expression) : Except Text Bool := do
  let b ← e.first.compare w
  let rest ← comparisons w e.more
  .ok (combination b rest)

/-- The outcome is the truth of the combination, or the complaint of a comparison. -/
def OperandsAreData (requireBracket : Bool) (flags : List ArgFlags) (e : Expression) : Prop :=
  runTest w requireBracket flags (e.args requireBracket) = verdict (subjectOf requireBracket) (e.meaning w)

def firstError (ps : List Primary) : Option Text :=
  ps.findSome? fun p => match p.compare w with
    | .error message => some message
    | .ok _ => none

/-- No left operand is spelled like a unary operator, but for `-t`, up to the first comparison of
integers whose operands are none. -/
def NoneLooksUnary : List Primary → Prop
  | [] => True
  | p :: ps =>
    match unaryOp p.left with
    | none => (∃ message, p.compare w = .error message) ∨ NoneLooksUnary ps
    | some c => c = 't' ∧ firstError w (p :: ps) = some (p.op ++ ": integer expected")
end

section
theorem mem_binaryOps (h : isBinaryOp op = true) : op ∈ binaryOps := by
  simpa [isBinaryOp] using h

theorem binary_ne (h : isBinaryOp op = true) :
    op ≠ [')'] ∧ op ≠ "-a" ∧ op ≠ "-o" ∧ op ≠ ['0'] ∧ parseFd op = none := by
  have ha : ∀ op ∈ binaryOps, op ≠ [')'] ∧ op ≠ "-a" ∧ op ≠ "-o" ∧ op ≠ ['0'] ∧ parseFd op = none := by decide
  exact ha op (mem_binaryOps h)

variable {w : World}

theorem compareInts_error {test : ℤ → ℤ → Bool} {lhs rhs : Text} (h : compareInts w test lhs rhs = .error message) :
    ∃ s, message = integerExpected w s := by
  unfold compareInts parseTestInt at h
  cases hl : Expander.Arith.parseI64 (Expander.Arith.trim lhs) with
  | none =>
    simp only [hl,bind,Except.bind,Except.error.injEq] at h
    exact ⟨lhs,h.symm⟩
  | some l =>
    cases hr : Expander.Arith.parseI64 (Expander.Arith.trim rhs) with
    | none =>
      simp only [hl,hr,bind,Except.bind,Except.error.injEq] at h
      exact ⟨rhs,h.symm⟩
    | some r => simp [hl,hr,bind,Except.bind,pure,Except.pure] at h

theorem Primary.compare_error (h : p.compare w = .error message) :
    ∃ s, message = integerExpected w s := by
  obtain ⟨l,op,r,hop,_,_⟩ := p
  unfold Primary.compare at h
  have hm := mem_binaryOps hop
  simp only [binaryOps,List.map_cons,List.map_nil,List.mem_cons,List.not_mem_nil,or_false] at hm
  unfold evalBinaryOp at h
  rcases hm with rfl | rfl | rfl | rfl | rfl | rfl | rfl | rfl | rfl | rfl | rfl | rfl | rfl | rfl
  all_goals simp +decide only [if_true,if_false,reduceCtorEq] at h
  all_goals exact compareInts_error h

theorem leftOver_ne (arg : Text) (rest : List Text) (s : Text) : leftOver (arg :: rest) ≠ integerExpected w s := by
  intro h
  have hr := congrArg (fun t => (t.reverse.take 9)) h
  unfold leftOver integerExpected at hr
  split at hr <;> split at hr <;> simp at hr

theorem argumentExpected_ne (s : Text) : "argument expected" ≠ integerExpected w s := by
  intro h
  have hr := congrArg (fun t => (t.reverse.take 10)) h
  unfold integerExpected at hr
  split at hr <;> simp at hr
end

section
variable {w : World} {more : List (Joiner × Primary)}

theorem comparisons_error_iff :
    comparisons w more = .error message ↔ firstError w (more.map Prod.snd) = some message := by
  induction more with
  | nil => simp [comparisons,firstError]
  | cons jp more ih =>
    obtain ⟨j,p⟩ := jp
    unfold firstError at ih
    unfold comparisons firstError
    cases hp : p.compare w with
    | error m => simp [hp,bind,Except.bind]
    | ok c =>
      simp only [List.map_cons,List.findSome?_cons,hp]
      rw [← ih]
      cases hm : comparisons w more <;> simp [bind,Except.bind]

variable {requireBracket : Bool} {N : ℕ}

theorem parseUnary_plain (h : unaryOp p.left = none) (rest : List Text) :
    parseUnary w requireBracket (N + 1) (p.words ++ rest) = (p.compare w).map (·,rest) := by
  simp [Primary.words,parseUnary,p.notBang,p.notOpen,h,parseBinaryOp,p.binary,Primary.compare]

theorem parseUnary_unary {c : Char} (h : unaryOp p.left = some c) (rest : List Text) :
    parseUnary w requireBracket (N + 1) (p.words ++ rest) = (evalUnaryExpr w c p.op).map (·,p.right :: rest) := by
  simp [Primary.words,parseUnary,p.notBang,p.notOpen,h,parseUnaryOp,(binary_ne p.binary).1]

def after (operand : Parse Bool) (n m m' : ℕ) (acc lhs : Bool) (rest : List Text) : Except Text (Bool × List Text) := do
  let (v,rest) ← joined "-a" (· && ·) operand m lhs rest
  joined "-o" (· || ·) (parseAnd n operand) m' (acc || v) rest

variable {operand : Parse Bool} {n m m' : ℕ} {acc lhs : Bool}

theorem parseOr_eq (args : List Text) :
    parseOr n operand args = operand args >>= fun (lhs,rest) => after operand n n n false lhs rest := by
  simp [parseOr,parseAnd,after]

theorem after_and (rest : List Text) : after operand n (m + 1) m' acc lhs ("-a" :: rest) =
    operand rest >>= fun (c,rest) => after operand n m m' acc (lhs && c) rest := by
  simp [after,joined]

theorem joined_other {word : Text} (h : arg ≠ word) (combine : Bool → Bool → Bool) (rest : List Text) :
    joined word combine operand m lhs (arg :: rest) = .ok (lhs,arg :: rest) := by
  cases m with
  | zero => rfl
  | succ m => rw [joined,if_neg h]

theorem after_or (rest : List Text) : after operand n m (m' + 1) acc lhs ("-o".toList :: rest) =
    operand rest >>= fun (c,rest) => after operand n n m' (acc || lhs) c rest := by
  have ho : "-o".toList ≠ "-a".toList := by decide
  unfold after
  rw [joined_other ho]
  simp only [bind,Except.bind,joined,if_true,parseAnd]
  cases operand rest <;> rfl

theorem after_other (ha : arg ≠ "-a") (ho : arg ≠ "-o") (rest : List Text) :
    after operand n m m' acc lhs (arg :: rest) = .ok (acc || lhs,arg :: rest) := by
  unfold after
  rw [joined_other ha]
  exact joined_other ho _ rest

/-- The parser has stopped in front of an argument it cannot use, or misses one. -/
def Stuck (r : Except Text (Bool × List Text)) : Prop :=
  r = .error "argument expected" ∨ ∃ v arg rest,r = .ok (v,arg :: rest)

theorem parseUnary_connective (more : List (Joiner × Primary)) :
    parseUnary w requireBracket (N + 1) (moreWords more) = .error "argument expected" ∨
      ∃ v arg rest,parseUnary w requireBracket (N + 1) (moreWords more) = .ok (v,arg :: rest) ∧
        arg ≠ "-a" ∧ arg ≠ "-o" := by
  cases more with
  | nil => exact .inl rfl
  | cons jp more =>
    obtain ⟨j,p⟩ := jp
    have hne := binary_ne p.binary
    have hop : ∃ c,unaryOp j.word = some c ∧ c ≠ 't' ∧ j.word ≠ ['!'] ∧ j.word ≠ ['('] := by
      cases j
      · exact ⟨'a',by decide⟩
      · exact ⟨'o',by decide⟩
    obtain ⟨c,hc,ht,hb,ho⟩ := hop
    right
    by_cases hcl : p.left = [')']
    · refine ⟨true,[')'],p.op :: p.right :: moreWords more,?_,by decide,by decide⟩
      simp [moreWords,Primary.words,parseUnary,hb,ho,hc,parseUnaryOp,hcl]
    · refine ⟨unary w c p.left,p.op,p.right :: moreWords more,?_,hne.2.1,hne.2.2.1⟩
      simp [moreWords,Primary.words,parseUnary,hb,ho,hc,parseUnaryOp,hcl,evalUnaryExpr,evalUnary,ht,Except.map]

theorem stuck_bind (k : Bool → List Text → Except Text (Bool × List Text))
    (hk : ∀ v arg rest,arg ≠ "-a".toList → arg ≠ "-o".toList → Stuck (k v (arg :: rest))) :
    Stuck (parseUnary w requireBracket (N + 1) (moreWords more) >>= fun (v,rest) => k v rest) := by
  rcases parseUnary_connective (w := w) (N := N) more with h | ⟨v,arg,rest,h,ha,ho⟩
  · rw [h]
    exact .inl rfl
  · rw [h]
    exact hk v arg rest ha ho

theorem stuck_after (right : Text) (more : List (Joiner × Primary)) :
    Stuck (after (parseUnary w requireBracket (N + 1)) n (m + 1) (m' + 1) acc lhs (right :: moreWords more)) := by
  have hot : ∀ m m' acc lhs arg rest,arg ≠ "-a".toList → arg ≠ "-o".toList →
      Stuck (after (parseUnary w requireBracket (N + 1)) n m m' acc lhs (arg :: rest)) := by
    intro m m' acc lhs arg rest ha ho
    rw [after_other ha ho]
    exact .inr ⟨_,_,_,rfl⟩
  by_cases ha : right = "-a".toList
  · subst ha
    rw [after_and]
    exact stuck_bind _ fun v arg rest => hot m (m' + 1) acc (lhs && v) arg rest
  · by_cases ho : right = "-o".toList
    · subst ho
      rw [after_or]
      exact stuck_bind _ fun v arg rest => hot n m' (acc || lhs) v arg rest
    · exact hot _ _ _ _ _ _ ha ho
end

section
variable {w : World} {subject : Text} {message : Text} {e : Except Text Bool} {more : List (Joiner × Primary)}
  {g : Bool → List (Joiner × Bool) → Bool}

theorem refusal_ne_truth (message : Text) (v : Bool) : refusal subject message ≠ truth v := by
  simp [refusal,truth]

theorem refusal_inj {a b : Text} : refusal subject a = refusal subject b ↔ a = b := by
  simp [refusal]

theorem finish_stuck {r : Except Text (Bool × List Text)} (hr : Stuck r)
    (he : ∀ message,e = .error message → ∃ s,message = integerExpected w s) : finish subject r ≠ verdict subject e := by
  intro h
  cases e with
  | ok v =>
    rcases hr with rfl | ⟨v',arg,rest,rfl⟩
    · exact refusal_ne_truth _ v h
    · exact refusal_ne_truth _ v h
  | error message =>
    obtain ⟨s,hs⟩ := he message rfl
    rcases hr with rfl | ⟨v',arg,rest,rfl⟩
    · exact argumentExpected_ne s ((refusal_inj.mp h).trans hs)
    · exact leftOver_ne arg rest s ((refusal_inj.mp h).trans hs)

theorem verdict_error_iff : refusal subject message = verdict subject e ↔ e = .error message := by
  cases e with
  | ok v => simpa [verdict] using refusal_ne_truth message v
  | error m =>
    simp only [verdict,refusal_inj,Except.error.injEq]
    exact eq_comm

def sequel (w : World) (p : Primary) (more : List (Joiner × Primary)) (g : Bool → List (Joiner × Bool) → Bool) : Except Text Bool := do
  let c ← p.compare w
  let cs ← comparisons w more
  .ok (g c cs)

theorem sequel_error_iff :
    sequel w p more g = .error message ↔ firstError w (p :: more.map Prod.snd) = some message := by
  have hm : comparisons w more = .error message ↔ firstError w (more.map Prod.snd) = some message := comparisons_error_iff
  unfold firstError at hm
  unfold sequel firstError
  cases hp : p.compare w with
  | error m => simp [hp,bind,Except.bind]
  | ok c =>
    simp only [List.findSome?_cons,hp]
    rw [← hm]
    cases comparisons w more <;> simp [bind,Except.bind]

theorem firstError_complaint {ps : List Primary} (h : firstError w ps = some message) :
    ∃ s,message = integerExpected w s := by
  obtain ⟨p,_,hp⟩ := List.exists_of_findSome?_eq_some h
  cases hc : p.compare w with
  | ok c => simp [hc] at hp
  | error m =>
    simp only [hc,Option.some.injEq] at hp
    exact p.compare_error (hc.trans (congrArg _ hp))

variable {requireBracket : Bool} {N n m m' : ℕ} {acc : Bool}

theorem finish_primary_iff {f : Bool → Bool}
    (hm : 0 < m) (hm' : 0 < m')
    (hmo : ∀ c,finish subject (after (parseUnary w requireBracket (N + 1)) n m m' acc (f c) (moreWords more)) =
      verdict subject ((comparisons w more).map (g c)) ↔ NoneLooksUnary w (more.map Prod.snd)) :
    finish subject (parseUnary w requireBracket (N + 1) (p.words ++ moreWords more) >>= fun (c,rest) =>
      after (parseUnary w requireBracket (N + 1)) n m m' acc (f c) rest) = verdict subject (sequel w p more g) ↔
      NoneLooksUnary w (p :: more.map Prod.snd) := by
  unfold NoneLooksUnary
  cases hop : unaryOp p.left with
  | none =>
    rw [parseUnary_plain hop]
    cases hp : p.compare w with
    | error message =>
      simp [sequel,hp,bind,Except.bind,Except.map,finish,verdict]
    | ok c =>
      have hs : sequel w p more g = (comparisons w more).map (g c) := by
        unfold sequel
        rw [hp]
        cases comparisons w more <;> rfl
      rw [hs]
      simp only [reduceCtorEq,exists_false,false_or]
      exact hmo c
  | some c =>
    rw [parseUnary_unary hop]
    obtain ⟨hc,_,_,hz,hfd⟩ := binary_ne p.binary
    by_cases ht : c = 't'
    · subst ht
      have he : evalUnaryExpr w 't' p.op = .error (p.op ++ ": integer expected") := by
        simp [evalUnaryExpr,evalUnary,hz,hfd]
      rw [he]
      simp only [true_and,← sequel_error_iff (g := g)]
      exact verdict_error_iff
    · have he : evalUnaryExpr w c p.op = .ok (unary w c p.op) := by simp [evalUnaryExpr,evalUnary,ht]
      rw [he]
      simp only [ht,false_and,iff_false]
      obtain ⟨m,rfl⟩ := Nat.exists_eq_succ_of_ne_zero hm.ne'
      obtain ⟨m',rfl⟩ := Nat.exists_eq_succ_of_ne_zero hm'.ne'
      apply finish_stuck (w := w) (stuck_after p.right more)
      intro message hme
      exact firstError_complaint (sequel_error_iff.mp hme)

theorem length_moreWords (j : Joiner) (p : Primary) (more : List (Joiner × Primary)) :
    (moreWords ((j,p) :: more)).length = (moreWords more).length + 4 := by
  simp [moreWords,Primary.words]

theorem moreWords_cons (j : Joiner) (p : Primary) (more : List (Joiner × Primary)) :
    moreWords ((j,p) :: more) = j.word :: (p.words ++ moreWords more) := by
  simp [moreWords]

theorem finish_after_iff (more : List (Joiner × Primary)) (lhs : Bool) (hn : (moreWords more).length ≤ n)
    (hm : (moreWords more).length ≤ m) (hm' : (moreWords more).length ≤ m') :
    finish subject (after (parseUnary w requireBracket (N + 1)) n m m' acc lhs (moreWords more)) =
      verdict subject ((comparisons w more).map fun cs => acc || combination lhs cs) ↔
      NoneLooksUnary w (more.map Prod.snd) := by
  induction more generalizing m m' acc lhs with
  | nil =>
    have hj : after (parseUnary w requireBracket (N + 1)) n m m' acc lhs (moreWords []) = .ok (acc || lhs,[]) := by
      cases m <;> cases m' <;> rfl
    rw [hj]
    simp [comparisons,Except.map,combination,finish,verdict,NoneLooksUnary]
  | cons jp more ih =>
    obtain ⟨j,p⟩ := jp
    rw [length_moreWords] at hn hm hm'
    obtain ⟨m,rfl⟩ := Nat.exists_eq_succ_of_ne_zero (show m ≠ 0 by omega)
    obtain ⟨m',rfl⟩ := Nat.exists_eq_succ_of_ne_zero (show m' ≠ 0 by omega)
    have hs : (comparisons w ((j,p) :: more)).map (fun cs => acc || combination lhs cs) =
        sequel w p more fun c cs => acc || combination lhs ((j,c) :: cs) := by
      unfold sequel
      rw [comparisons]
      cases p.compare w with
      | error message => rfl
      | ok c => cases comparisons w more <;> rfl
    rw [hs,moreWords_cons]
    cases j with
    | and =>
      rw [Joiner.word,after_and]
      apply finish_primary_iff (by omega) (by omega)
      intro c
      exact ih (lhs && c) (by omega) (by omega) (by omega)
    | or =>
      rw [Joiner.word,after_or]
      apply finish_primary_iff (f := fun c => c) (by omega) (by omega)
      intro c
      simp only [combination,← Bool.or_assoc]
      exact ih c (by omega) (by omega) (by omega)
end

section
variable (w : World) (requireBracket : Bool) (flags : List ArgFlags) (e : Expression)

theorem Expression.words_eq : ∃ N,e.words.length = N + 7 := by
  obtain ⟨p,more,hm⟩ := e
  cases more with
  | nil => exact absurd rfl hm
  | cons jp more =>
    obtain ⟨j,q⟩ := jp
    exact ⟨(moreWords more).length,by simp [Expression.words,length_moreWords,Primary.words]⟩

theorem runTest_expression : runTest w requireBracket flags (e.args requireBracket) =
    parsed w requireBracket (subjectOf requireBracket) e.words := by
  have hd : ∀ flags,decideTest w requireBracket flags e.words = parsed w requireBracket (subjectOf requireBracket) e.words := by
    intro flags
    obtain ⟨N,hN⟩ := e.words_eq
    match hw : e.words with
    | [] | [_] | [_,_] | [_,_,_] | [_,_,_,_] => simp [hw] at hN
    | _ :: _ :: _ :: _ :: _ :: _ => rfl
  unfold runTest Expression.args
  cases requireBracket
  · exact hd flags
  · simpa using hd flags.dropLast

/-- Many arguments of `test` are the combination of their comparisons exactly where no left
operand is taken for a unary operator. -/
theorem operands_are_data_iff : OperandsAreData w requireBracket flags e ↔ NoneLooksUnary w e.primaries := by
  unfold OperandsAreData
  rw [runTest_expression]
  obtain ⟨N,hN⟩ := e.words_eq
  unfold parsed
  rw [parseOr_eq,hN]
  have hlength : (moreWords e.more).length ≤ N + 7 := by
    rw [← hN]
    simp [Expression.words]
  have hmeaning : e.meaning w = sequel w e.first e.more fun c cs => false || combination c cs := by
    simp [Expression.meaning,sequel]
  rw [hmeaning]
  apply finish_primary_iff (f := fun c => c) (Nat.succ_pos _) (Nat.succ_pos _)
  intro c
  exact finish_after_iff e.more c hlength hlength hlength
end

def emptyWorld : World where
  metadata _ := none
  symlinkMetadata _ := none
  access _ _ := false
  isatty _ := false
  geteuid := 0
  getegid := 0
  compat52 := false
  option _ := false
  kind _ := .unset
  get _ := none
  getArrayAssoc _ _ := none
  getArrayIndexed _ _ := none
  arrayLen _ := 0
  indexedTargetArrayExpandOnceMessage _ := none

/-- `test -f = x -a b = b` -/
def optionOperand : Expression where
  first := ⟨"-f","=","x",by decide,by decide,by decide⟩
  more := [(.and,⟨"b","=".toList,"b".toList,by decide,by decide,by decide⟩)]
  several := by simp

/-- The combination is false, yet the arguments are refused. -/
theorem option_operand_refused : ¬OperandsAreData emptyWorld false [] optionOperand ∧
    optionOperand.meaning emptyWorld = .ok false ∧
    runTest emptyWorld false [] (optionOperand.args false) = refusal "test" "too many arguments" := by
  unfold OperandsAreData
  decide
end Cherubsh.Builtins.Test
