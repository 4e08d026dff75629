import Cherubsh.Expander.Arith.Refines

/-! # The levels of the evaluator

Which tokens carry on at which level, the parser of each level, and its step. A level
is reached from the next tighter one when nothing of its own comes. What is not wanted
comes to zero, unless it divides in an assignment.
-/
namespace Cherubsh.Expander.Arith
open BinOp Refines
variable {level own : ℕ} {t : Tok} {toks rest : List Tok} {v r w : I64}
variable {Env LVal E : Type}

section
variable {rest : List Tok}

/-- The level at which a token after an operand carries on. -/
def Tok.follows : Tok → Option ℕ
  | .comma => some 0
  | .eq | .plusEq | .minusEq | .starEq | .slashEq | .percentEq | .starStarEq | .ampEq | .pipeEq | .caretEq
  | .shlEq | .shrEq => some 1
  | .question => some 2
  | .pipePipe => some 3
  | .ampAmp => some 4
  | .pipe => some 5
  | .caret => some 6
  | .amp => some 7
  | .eqEq | .bangEq => some 8
  | .lt | .le | .gt | .ge => some 9
  | .shl | .shr => some 10
  | .plus | .minus => some 11
  | .star | .slash | .percent => some 12
  | .starStar => some 13
  | .plusPlus | .minusMinus => some 15
  | _ => none

/-- Nothing that a level or a tighter one would take comes next. -/
def Stops (level : ℕ) (rest : List Tok) : Prop := ∀ m, (headTok rest).follows = some m → m < level

theorem Stops.mono {level' : ℕ} (h : Stops level rest) (hle : level ≤ level') :
    Stops level' rest := fun m hm => Nat.lt_of_lt_of_le (h m hm) hle

theorem stops_cons {m : ℕ} (ht : t.follows = some m) (hm : m < level) :
    Stops level (t :: rest) := by
  intro k hk
  rw [headTok_cons,ht] at hk
  cases hk
  exact hm

theorem stops_closing (ht : t.follows = none) : Stops level (t :: rest) := by
  intro k hk
  rw [headTok_cons,ht] at hk
  cases hk

def Tok.opens : Tok → Bool
  | .num _ | .ident _ | .plus | .minus | .bang | .tilde | .plusPlus | .minusMinus | .lparen => true
  | _ => false

theorem parenthesise_opens (h : ∀ rest, (headTok (toks ++ rest)).opens)
    (rest : List Tok) : (headTok (parenthesise level own toks ++ rest)).opens := by
  rw [parenthesise]
  split
  · exact h rest
  · rfl

theorem Expr.body_opens (e : Expr) (rest : List Tok) : (headTok (e.body ++ rest)).opens := by
  induction e generalizing rest with
  | const | var | post | assign | group => rfl
  | unary op e ih => cases op <;> rfl
  | pre up x => cases up <;> rfl
  | binary op a b iha ihb =>
    rw [body,List.append_assoc]
    exact parenthesise_opens iha _
  | ternary c t f ihc iht ihf =>
    rw [body,List.append_assoc]
    exact parenthesise_opens ihc _

theorem Expr.toks_opens (e : Expr) (level : ℕ) (rest : List Tok) : (headTok (e.toks level ++ rest)).opens :=
  parenthesise_opens e.body_opens rest

theorem ne_of_opens {u : Tok} (ht : t.opens) (hu : u.opens = false) : t ≠ u := by
  rintro rfl
  rw [ht] at hu
  cases hu

/-- The tokens do not start with a name that is assigned to. -/
def NotAssigned (toks : List Tok) : Prop :=
  ∀ x rest, toks = .ident x :: rest → assignmentOpcode (headTok rest) = none

theorem notAssigned_of_head (h : ∀ x, headTok toks ≠ .ident x) : NotAssigned toks := by
  rintro x rest rfl
  exact absurd rfl (h x)

theorem parenthesise_notAssigned (h : level ≤ own → NotAssigned (toks ++ rest)) :
    NotAssigned (parenthesise level own toks ++ rest) := by
  rw [parenthesise]
  split
  · next hle => exact h hle
  · exact notAssigned_of_head fun x hx => by cases hx

theorem Expr.body_notAssigned {e : Expr} (he : 2 ≤ e.level)
    (hr : assignmentOpcode (headTok rest) = none) : NotAssigned (e.body ++ rest) := by
  induction e generalizing rest with
  | const n => exact notAssigned_of_head fun x hx => by cases hx
  | var x =>
    rintro y rest' heq
    cases heq
    exact hr
  | unary op e ih => exact notAssigned_of_head fun x hx => by cases op <;> cases hx
  | pre up x => exact notAssigned_of_head fun x hx => by cases up <;> cases hx
  | post up x =>
    rintro y rest' heq
    cases heq
    cases up <;> rfl
  | binary op a b iha ihb =>
    have hop : 2 ≤ op.leftLevel := by
      change 2 ≤ op.level at he
      rw [BinOp.leftLevel]
      split <;> omega
    rw [body,List.append_assoc]
    refine parenthesise_notAssigned fun hle => iha (by omega) ?_
    cases op <;> rfl
  | ternary c t f ihc iht ihf =>
    rw [body,List.append_assoc]
    exact parenthesise_notAssigned fun hle => ihc (by omega) rfl
  | assign op x e ih => exact absurd he (by decide : ¬2 ≤ 1)
  | group e ih => exact notAssigned_of_head fun x hx => by cases hx
end

section
variable (acc : Access Env LVal E) (limit : ℕ) {level : ℕ}

def levelParser (own : ℕ) : ℕ → Bool → Parse Env E I64
  | 0 => parseComma acc (limit + 1)
  | 1 => parseAssign acc (parseComma acc limit) limit own
  | 2 => parseTernary acc (parseComma acc limit) limit own
  | 3 => parseLogor acc (parseComma acc limit) limit
  | 4 => parseLogand acc (parseComma acc limit) limit
  | 5 => parseBitor acc (parseComma acc limit) limit
  | 6 => parseBitxor acc (parseComma acc limit) limit
  | 7 => parseBitand acc (parseComma acc limit) limit
  | 8 => parseEquality acc (parseComma acc limit) limit
  | 9 => parseRelate acc (parseComma acc limit) limit
  | 10 => parseShift acc (parseComma acc limit) limit
  | 11 => parseAdd acc (parseComma acc limit) limit
  | 12 => parseMul acc (parseComma acc limit) limit
  | 13 => parsePower acc (parseComma acc limit) limit own
  | 14 => parseUnary acc (parseComma acc limit) limit own
  | _ => parsePostfix acc (parseComma acc limit)

def opsAt : ℕ → Tok → Bool
  | 0 => (· = .comma)
  | 3 => (· = .pipePipe)
  | 4 => (· = .ampAmp)
  | 5 => (· = .pipe)
  | 6 => (· = .caret)
  | 7 => (· = .amp)
  | 8 => isEqualityOp
  | 9 => isRelateOp
  | 10 => isShiftOp
  | 11 => isAddOp
  | 12 => isMulOp
  | _ => fun _ => false

def stepAt (level : ℕ) : Bool → I64 → Parse Env E I64 :=
  match level with
  | 0 => commaStep acc (parseComma acc limit) limit
  | 3 => logorStep acc (parseComma acc limit) limit
  | 4 => logandStep acc (parseComma acc limit) limit
  | 5 => binaryStep (parseBitxor acc (parseComma acc limit) limit) fun _ v r => v ||| r
  | 6 => binaryStep (parseBitand acc (parseComma acc limit) limit) fun _ v r => v ^^^ r
  | 7 => binaryStep (parseEquality acc (parseComma acc limit) limit) fun _ v r => v &&& r
  | 8 => binaryStep (parseRelate acc (parseComma acc limit) limit) equalityValue
  | 9 => binaryStep (parseShift acc (parseComma acc limit) limit) relateValue
  | 10 => binaryStep (parseAdd acc (parseComma acc limit) limit) shiftValue
  | 11 => addStep acc (parseComma acc limit) limit
  | 12 => mulStep acc (parseComma acc limit) limit
  | _ => fun _ _ => Parse.fail .outOfFuel

def leftAssociative (level : ℕ) : Bool := level = 0 || (3 ≤ level && level ≤ 12)

theorem leftAssociative_cases (h : leftAssociative level) :
    level = 0 ∨ level = 3 ∨ level = 4 ∨ level = 5 ∨ level = 6 ∨ level = 7 ∨ level = 8 ∨ level = 9 ∨ level = 10 ∨
      level = 11 ∨ level = 12 := by
  simp only [leftAssociative,Bool.or_eq_true,decide_eq_true_eq,Bool.and_eq_true] at h
  omega

theorem levelParser_left (h : leftAssociative level) (own : ℕ) :
    levelParser acc limit own level = leftLevel limit (levelParser acc limit limit (level + 1)) (opsAt level)
      (stepAt acc limit level) := by
  rcases leftAssociative_cases h with rfl | rfl | rfl | rfl | rfl | rfl | rfl | rfl | rfl | rfl | rfl <;> rfl

theorem follows_of_opsAt (hl : leftAssociative level) (hop : opsAt level t) :
    ∃ m, level ≤ m ∧ t.follows = some m := by
  have ho : ∀ {u : Tok} {m : ℕ}, decide (t = u) → u.follows = some m → ∃ m', m ≤ m' ∧ t.follows = some m' :=
    fun h hu => ⟨_,Nat.le_refl _,of_decide_eq_true h ▸ hu⟩
  rcases leftAssociative_cases hl with rfl | rfl | rfl | rfl | rfl | rfl | rfl | rfl | rfl | rfl | rfl
  iterate 6 exact ho hop rfl
  · simp only [opsAt,isEqualityOp,Bool.or_eq_true] at hop
    rcases hop with hop | hop <;> exact ho hop rfl
  · simp only [opsAt,isRelateOp,Bool.or_eq_true] at hop
    rcases hop with ((hop | hop) | hop) | hop <;> exact ho hop rfl
  · simp only [opsAt,isShiftOp,Bool.or_eq_true] at hop
    rcases hop with hop | hop <;> exact ho hop rfl
  · simp only [opsAt,isAddOp,Bool.or_eq_true,decide_eq_true_eq] at hop
    rcases hop with ((rfl | rfl) | rfl) | rfl
    · exact ⟨11,Nat.le_refl _,rfl⟩
    · exact ⟨15,by decide,rfl⟩
    · exact ⟨11,Nat.le_refl _,rfl⟩
    · exact ⟨15,by decide,rfl⟩
  · simp only [opsAt,isMulOp,Bool.or_eq_true] at hop
    rcases hop with (hop | hop) | hop <;> exact ho hop rfl

theorem opsAt_stops (hl : leftAssociative level) (h : Stops level rest) :
    opsAt level (headTok rest) = false := by
  rw [← Bool.not_eq_true]
  intro hop
  obtain ⟨m,hle,hm⟩ := follows_of_opsAt hl hop
  exact absurd (h m hm) (by omega)
end

section
variable (acc : Access Env LVal E)

def Expr.divAssigns : Expr → Bool
  | .const _ | .var _ | .pre _ _ | .post _ _ => false
  | .unary _ e | .group e => e.divAssigns
  | .binary _ a b => a.divAssigns || b.divAssigns
  | .ternary c t f => c.divAssigns || (t.divAssigns || f.divAssigns)
  | .assign op _ e => e.divAssigns || (op = .div || op = .rem)

def skipped (faults : Bool) : Effect Env E I64 := if faults then Effect.fail .skipping else pure 0

theorem skipped_bind (a b : Bool) : (skipped a >>= fun _ => skipped b : Effect Env E I64) = skipped (a || b) := by
  cases a <;> rfl

theorem skipped_bind_zero (a : Bool) : (skipped a >>= fun _ => pure 0 : Effect Env E I64) = skipped a := by
  cases a <;> rfl

theorem AssignOp.apply_false (op : AssignOp) :
    (Effect.ofExcept (op.apply false 0 0) >>= fun _ => pure 0 : Effect Env E I64) = skipped (op = .div || op = .rem) := by
  cases op <;> rfl

theorem Expr.walk_false (e : Expr) : e.walk acc false = skipped e.divAssigns := by
  induction e with
  | const | var | pre | post => rfl
  | unary op e ih =>
    rw [walk,ih]
    exact skipped_bind_zero _
  | binary op a b iha ihb =>
    simp only [walk,iha,Bool.false_and,ihb,divAssigns]
    cases a.divAssigns with
    | true => rfl
    | false =>
      cases b.divAssigns with
      | true => rfl
      | false => cases op <;> rfl
  | ternary c t f ihc iht ihf =>
    simp only [walk,ihc,Bool.false_and,iht,ihf,divAssigns]
    rw [← skipped_bind,← skipped_bind]
    cases c.divAssigns <;> cases t.divAssigns <;> cases f.divAssigns <;> rfl
  | assign op x e ih =>
    simp only [walk,ih,divAssigns]
    rw [← skipped_bind,← AssignOp.apply_false]
    cases e.divAssigns
    · cases op <;> rfl
    · rfl
  | group e ih => exact ih

def wanted (active : Bool) (v : I64) : I64 := if active then v else 0

theorem Expr.walk_wanted (e : Expr) (active : Bool) :
    (e.walk acc active >>= fun v => pure (wanted active v)) = e.walk acc active := by
  cases active with
  | true => exact bind_pure _
  | false =>
    rw [walk_false]
    exact skipped_bind_zero _
end

section
variable (acc : Access Env LVal E) {limit own : ℕ} {active : Bool} {toks rest : List Tok} {s : Effect Env E I64}

theorem loopLeft_stop (hl : leftAssociative level) (hs : Stops level rest) (fuel : ℕ) (v : I64) :
    Refines (loopLeft (opsAt level) (stepAt acc limit level) (fuel + 1) active v)
      (pure (wanted active v)) rest rest := by
  rw [loopLeft]
  refine get fun lex hle => ?_
  rw [hle.cur,opsAt_stops hl hs]
  exact pure _ rest

theorem descend_left (hl : leftAssociative level) (hli : 0 < limit) (hs : (s >>= fun v => pure (wanted active v)) = s)
    (hst : Stops level rest) (h : Refines (levelParser acc limit limit (level + 1) active) s toks rest) :
    Refines (levelParser acc limit own level active) s toks rest := by
  obtain ⟨n,rfl⟩ : ∃ n, limit = n + 1 := ⟨limit - 1,by omega⟩
  rw [levelParser_left acc _ hl,← hs]
  exact h.bind fun v => loopLeft_stop acc hl hst n v

theorem descend_assign (ho : 0 < own) (hno : NotAssigned toks)
    (h : Refines (levelParser acc limit limit 2 active) s toks rest) :
    Refines (levelParser acc limit own 1 active) s toks rest := by
  obtain ⟨n,rfl⟩ : ∃ n, own = n + 1 := ⟨own - 1,by omega⟩
  change Refines (parseAssign acc (parseComma acc limit) limit (n + 1) active) s toks rest
  rw [parseAssign]
  refine get fun lex hl => ?_
  rw [hl.cur]
  cases toks with
  | nil => exact h
  | cons t ts =>
    cases t with
    | ident x =>
      obtain ⟨-,next,hn,hat⟩ := hl
      refine ahead hn ?_
      rw [hat.cur,hno x ts rfl]
      exact h
    | _ => exact h

theorem descend_ternary (ho : 0 < own) (hs : (s >>= fun v => pure (wanted active v)) = s) (hst : Stops 2 rest)
    (h : Refines (levelParser acc limit limit 3 active) s toks rest) :
    Refines (levelParser acc limit own 2 active) s toks rest := by
  obtain ⟨n,rfl⟩ : ∃ n, own = n + 1 := ⟨own - 1,by omega⟩
  change Refines (parseTernary acc (parseComma acc limit) limit (n + 1) active) s toks rest
  rw [parseTernary,← hs]
  refine bind h fun v => get fun lex hl => ?_
  have hc : lex.cur ≠ .question := by
    intro hq
    rw [hl.cur] at hq
    exact absurd (hst 2 (by rw [hq]; rfl)) (by decide)
  rw [if_neg hc]
  exact pure _ rest

theorem descend_power (ho : 0 < own) (hs : (s >>= fun v => pure (wanted active v)) = s) (hst : Stops 13 rest)
    (h : Refines (levelParser acc limit limit 14 active) s toks rest) :
    Refines (levelParser acc limit own 13 active) s toks rest := by
  obtain ⟨n,rfl⟩ : ∃ n, own = n + 1 := ⟨own - 1,by omega⟩
  change Refines (parsePower acc (parseComma acc limit) limit (n + 1) active) s toks rest
  rw [parsePower,← hs]
  refine bind h fun v => get fun lex hl => ?_
  have hc : lex.cur ≠ .starStar := by
    intro hq
    rw [hl.cur] at hq
    exact absurd (hst 13 (by rw [hq]; rfl)) (by decide)
  rw [if_neg hc]
  exact pure _ rest

/-- What needs no operator does not start with one. -/
def Tok.closed : Tok → Bool
  | .num _ | .ident _ | .lparen => true
  | _ => false

theorem descend_unary (ho : 0 < own) (hc : (headTok toks).closed)
    (h : Refines (levelParser acc limit limit 15 active) s toks rest) :
    Refines (levelParser acc limit own 14 active) s toks rest := by
  obtain ⟨n,rfl⟩ : ∃ n, own = n + 1 := ⟨own - 1,by omega⟩
  change Refines (parseUnary acc (parseComma acc limit) limit (n + 1) active) s toks rest
  rw [parseUnary]
  refine get fun lex hl => ?_
  rw [hl.cur]
  cases ht : headTok toks with
  | num _ | ident _ | lparen => exact h
  | _ =>
    rw [ht] at hc
    cases hc
end

section
variable (acc : Access Env LVal E) {limit : ℕ} {active : Bool} {toks rest : List Tok} {s : Effect Env E I64} {op : BinOp} {v : I64}

theorem refines_finish (hop : op ≠ .comma) (h : op.apply v r = (.ok w : Except (Fault E) I64)) (rest : List Tok) :
    Refines (Pure.pure (if active then w else v) : Parse Env E I64) (op.finish active v r) rest rest := by
  cases active with
  | true =>
    rw [finish,if_pos rfl,if_pos rfl,h]
    exact pure w rest
  | false =>
    rw [finish,if_neg Bool.false_ne_true,if_neg hop]
    exact pure v rest

theorem refines_binaryStep {next : Bool → Parse Env E I64} {f : Tok → I64 → I64 → I64}
    (hop : op ≠ .comma) (hf : ∀ r, op.apply v r = (.ok (f op.tok v r) : Except (Fault E) I64)) (h : Refines (next active) s toks rest) :
    Refines (binaryStep next f active v) (s >>= op.finish active v) (op.tok :: toks) rest := by
  rw [binaryStep]
  refine get fun lex hl => advance ?_
  refine h.bind fun r => ?_
  rw [hl.1]
  exact refines_finish hop (hf r) rest

theorem refines_commaStep (h : Refines (levelParser acc limit limit 1 active) s toks rest) :
    Refines (commaStep acc (parseComma acc limit) limit active v) (s >>= finish .comma active v)
      (.comma :: toks) rest := by
  have hf : finish .comma active v = (pure : I64 → Effect Env E I64) := by
    funext r
    cases active <;> rfl
  rw [commaStep,hf,bind_pure]
  exact advance h

theorem refines_logandStep (h : Refines (levelParser acc limit limit 5 (active && v ≠ 0)) s toks rest) :
    Refines (logandStep acc (parseComma acc limit) limit active v) (s >>= finish .land active v)
      (.ampAmp :: toks) rest := by
  rw [logandStep]
  exact advance (h.bind fun r => refines_finish (by decide) rfl rest)

theorem refines_logorStep (h : Refines (levelParser acc limit limit 4 (active && v = 0)) s toks rest) :
    Refines (logorStep acc (parseComma acc limit) limit active v) (s >>= finish .lor active v)
      (.pipePipe :: toks) rest := by
  rw [logorStep]
  exact advance (h.bind fun r => refines_finish (by decide) rfl rest)

theorem refines_division (hop : op ≠ .comma) {src : Text} {start : ℕ}
    (h : op.apply v r = (if r = 0 then .error .divisionByZero else .ok w : Except (Fault E) I64)) :
    Refines (if (active && decide (r = 0)) = true then Parse.fail (.divisionAt src start)
      else Pure.pure (if active then w else v) : Parse Env E I64) (op.finish active v r) rest rest := by
  by_cases hr : r = 0
  · cases active with
    | true =>
      rw [if_pos hr] at h
      rw [finish,if_pos rfl,h,hr]
      exact fail rfl rest rest
    | false =>
      rw [finish,if_neg Bool.false_ne_true,if_neg hop]
      exact pure v rest
  · rw [if_neg hr] at h
    rw [decide_eq_false hr,Bool.and_false,if_neg Bool.false_ne_true]
    exact refines_finish hop h rest

theorem refines_mulStep (hop : op.level = 12) (hne : headTok toks ≠ .eof)
    (h : Refines (levelParser acc limit limit 13 active) s toks rest) :
    Refines (mulStep acc (parseComma acc limit) limit active v) (s >>= op.finish active v) (op.tok :: toks) rest := by
  rw [mulStep]
  refine get fun lex hl => advance (rhsExpected hne (get fun rhs _ => ?_))
  refine bind h fun r => ?_
  rw [hl.1]
  cases op with
  | mul => exact refines_finish (by decide) rfl rest
  | div | rem => exact refines_division (by decide) rfl
  | _ => cases hop

theorem refines_addStep (hop : op.level = 11) (hne : headTok toks ≠ .eof)
    (h : Refines (levelParser acc limit limit 12 active) s toks rest) :
    Refines (addStep acc (parseComma acc limit) limit active v) (s >>= op.finish active v) (op.tok :: toks) rest := by
  rw [addStep]
  refine get fun lex hl => ?_
  rw [hl.1]
  cases op with
  | add | sub => exact advance (rhsExpected hne (h.bind fun r => refines_finish (by decide) rfl rest))
  | _ => cases hop

theorem refines_stepAt (hop : op ≠ .pow) (hne : headTok toks ≠ .eof)
    (h : Refines (levelParser acc limit limit (op.level + 1) (active && op.wants v)) s toks rest) :
    Refines (stepAt acc limit op.level active v) (s >>= op.finish active v) (op.tok :: toks) rest := by
  have hal : ∀ {a b : BinOp}, a.wants v → Refines (levelParser acc limit limit (b.level + 1) (active && a.wants v)) s toks rest →
      Refines (levelParser acc limit limit (b.level + 1) active) s toks rest := by
    intro a b ha h
    rwa [ha,Bool.and_true] at h
  cases op with
  | comma => exact refines_commaStep acc (hal rfl h)
  | lor => exact refines_logorStep acc h
  | land => exact refines_logandStep acc h
  | bor => exact refines_binaryStep (f := fun _ v r => v ||| r) (by decide) (fun _ => rfl) (hal rfl h)
  | bxor => exact refines_binaryStep (f := fun _ v r => v ^^^ r) (by decide) (fun _ => rfl) (hal rfl h)
  | band => exact refines_binaryStep (f := fun _ v r => v &&& r) (by decide) (fun _ => rfl) (hal rfl h)
  | eq | ne | lt | le | gt | ge | shl | shr => exact refines_binaryStep (by decide) (fun _ => rfl) (hal rfl h)
  | add | sub => exact refines_addStep acc rfl hne (hal rfl h)
  | mul | div | rem => exact refines_mulStep acc rfl hne (hal rfl h)
  | pow => exact absurd rfl hop
end
end Cherubsh.Expander.Arith
