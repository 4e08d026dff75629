import Cherubsh.Expander.Arith.Levels

/-! # Every level parses what is written for it

By induction on the tree: the evaluator, standing at the tokens of the tree for a level, follows
the walk of the tree and stops right after them. A level that associates to the left is followed
through its loop.
-/
namespace Cherubsh.Expander.Arith
open Expr BinOp Refines List
variable {limit level own start : ℕ} {active : Bool} {toks rest : List Tok} {e a b : Expr} {op : AssignOp} {src : Text}
variable {Env LVal E : Type}

variable (acc : Access Env LVal E)

def Expr.size : Expr → ℕ
  | .const _ | .var _ | .pre _ _ | .post _ _ => 1
  | .unary _ e | .group e => e.size + 2
  | .binary _ a b => a.size + b.size + 2
  | .ternary c t f => c.size + t.size + f.size + 2
  | .assign _ _ e => e.size + 2

theorem Expr.size_pos (e : Expr) : 0 < e.size := by
  cases e <;> exact Nat.succ_pos _

def Parses (e : Expr) : Prop :=
  ∀ (limit own level : ℕ) (active : Bool) (rest : List Tok), e.size ≤ limit → e.size ≤ own → level ≤ e.level →
    Stops level rest → Refines (levelParser acc limit own level active) (e.walk acc active) (e.body ++ rest) rest

theorem descend {need top : ℕ} {s : Effect Env E I64} (hne : 0 < need) (hli : need ≤ limit) (ht : top ≤ 15)
    (hs : (s >>= fun v => pure (wanted active v)) = s) (hno : 2 ≤ top → level ≤ 1 → NotAssigned toks)
    (hc : top = 15 → (headTok toks).closed)
    (hb : ∀ {own}, need ≤ own → Refines (levelParser acc limit own top active) s toks rest) (ho : need ≤ own)
    (hle : level ≤ top) (hst : Stops level rest) :
    Refines (levelParser acc limit own level active) s toks rest := by
  induction hd : top - level generalizing level own hno with
  | zero =>
    obtain rfl : level = top := by omega
    exact hb ho
  | succ d ih =>
    have hn : Refines (levelParser acc limit limit (level + 1) active) s toks rest :=
      ih (fun h _ => hno h (by omega)) hli (by omega) (hst.mono (Nat.le_succ level)) (by omega)
    have hp : 0 < own := by omega
    by_cases hl : leftAssociative level
    · exact descend_left acc hl (by omega) hs hst hn
    · have hca : level = 1 ∨ level = 2 ∨ level = 13 ∨ level = 14 := by
        simp only [leftAssociative,Bool.or_eq_true,decide_eq_true_eq,Bool.and_eq_true] at hl
        omega
      rcases hca with rfl | rfl | rfl | rfl
      · exact descend_assign acc hp (hno (by omega) (Nat.le_refl 1)) hn
      · exact descend_ternary acc hp hs hst hn
      · exact descend_power acc hp hs hst hn
      · exact descend_unary acc hp (hc (by omega)) hn

theorem Expr.level_le (e : Expr) : e.level ≤ 15 := by
  cases e with
  | binary op a b => cases op <;> simp [Expr.level,BinOp.level]
  | _ => simp [level]

theorem Parses.parenthesised (h : Parses acc e) (hli : e.size < limit) (active : Bool) (rest : List Tok) :
    Refines (levelParser acc limit own 15 active) (e.walk acc active) (.lparen :: (e.body ++ [.rparen]) ++ rest) rest := by
  obtain ⟨n,rfl⟩ : ∃ n, limit = n + 1 := ⟨limit - 1,by omega⟩
  change Refines (parsePostfix acc (parseComma acc (n + 1)) active) _ _ rest
  rw [parsePostfix,cons_append,append_assoc]
  refine get fun lex hl => ?_
  rw [hl.1]
  rw [parsePrimary]
  refine get fun lex hl => ?_
  rw [hl.1,← e.walk_wanted acc active]
  refine advance ?_
  have hi : Refines (parseComma acc (n + 1) active) (e.walk acc active) (e.body ++ ([.rparen] ++ rest))
      ([.rparen] ++ rest) :=
    h n n 0 active _ (by omega) (by omega) (Nat.zero_le _) (stops_closing rfl)
  refine hi.bind fun v => get fun lex hl => ?_
  refine check (not_not.mpr hl.1) (advance ?_)
  exact pure _ rest

theorem Parses.any (h : Parses acc e) (level : ℕ)
    (hl : e.size < limit) (ho : e.size < own) (hlv : level ≤ 15) (hs : Stops level rest) :
    Refines (levelParser acc limit own level active) (e.walk acc active) (e.toks level ++ rest) rest := by
  rw [toks,parenthesise]
  split
  · next hle => exact h _ _ _ _ _ (by omega) (by omega) hle hs
  · exact descend acc (Nat.succ_pos e.size) hl (Nat.le_refl 15) (e.walk_wanted acc active)
      (fun _ _ => notAssigned_of_head fun x hx => by cases hx) (fun _ => rfl)
      (fun _ => h.parenthesised acc hl active rest) ho hlv hs

theorem follows_of_assignmentOpcode {t : Tok} (h : assignmentOpcode t = some op) :
    t.follows = some 1 := by
  cases t <;> first | rfl | cases h

theorem parses_of_own (hc : e.level = 15 → ∀ rest, (headTok (e.body ++ rest)).closed)
    (h : ∀ (limit own : ℕ) (active : Bool) (rest : List Tok), e.size ≤ limit + 1 → e.size ≤ own + 1 → Stops e.level rest →
      Refines (levelParser acc (limit + 1) (own + 1) e.level active) (e.walk acc active) (e.body ++ rest) rest) :
    Parses acc e := by
  intro limit own level active rest hl ho hlv hs
  have hp := e.size_pos
  obtain ⟨limit,rfl⟩ : ∃ n, limit = n + 1 := ⟨limit - 1,by omega⟩
  refine descend acc hp hl e.level_le (e.walk_wanted acc active) ?_ (fun he => hc he rest) ?_ ho hlv hs
  · intro he hle
    refine body_notAssigned he ?_
    cases hop : assignmentOpcode (headTok rest) with
    | none => rfl
    | some op => exact absurd (hs 1 (follows_of_assignmentOpcode hop)) (by omega)
  · intro own ho
    obtain ⟨n,rfl⟩ : ∃ n, own = n + 1 := ⟨own - 1,by omega⟩
    exact h limit n active rest hl ho (hs.mono hlv)

theorem parses_const (n : I64) : Parses acc (.const n) := by
  refine parses_of_own acc (fun _ _ => rfl) fun limit own active rest _ _ _ => ?_
  change Refines (parsePostfix acc (parseComma acc (limit + 1)) active) _ (.num n :: rest) rest
  rw [parsePostfix]
  refine get fun lex hl => ?_
  rw [hl.1]
  rw [parsePrimary]
  refine get fun lex hl => ?_
  rw [hl.1]
  exact advance (pure _ rest)

theorem refines_name {x : Text}
    {k : Option LVal → I64 → Effect Env E I64}
    (h : ∀ l v, Refines (do
      let lex ← Parse.get
      match lex.cur with
      | .plusPlus =>
        Parse.advance
        storeTo acc l (v + 1)
        return v
      | .minusMinus =>
        Parse.advance
        storeTo acc l (v - 1)
        return v
      | _ => return v) (k l v) toks rest) :
    Refines (parsePostfix acc (parseComma acc limit) active)
      (placeOf acc x active >>= fun l => contentOf acc l >>= fun v => k l v) (.ident x :: toks) rest := by
  rw [parsePostfix]
  refine get fun lex hl => ?_
  rw [hl.1]
  refine (refines_lvalueOf acc _ x active).bind fun l => ?_
  exact (refines_valueOf acc _ l).bind fun v => advance (h l v)

theorem parses_var (x : Text) : Parses acc (.var x) := by
  refine parses_of_own acc (fun _ _ => rfl) fun limit own active rest _ _ hs => ?_
  have hw : (var x).walk acc active = placeOf acc x active >>= fun l => contentOf acc l >>= fun v => pure v := by
    simp only [bind_pure]
    rfl
  have hn : ∀ t, headTok rest = t → t.follows ≠ some 15 := fun t ht h => Nat.lt_irrefl 15 (hs 15 (ht ▸ h))
  rw [hw]
  refine refines_name acc fun l v => get fun lex hl => ?_
  rw [hl.cur]
  split
  · next h => exact absurd rfl (hn _ h)
  · next h => exact absurd rfl (hn _ h)
  · exact pure v rest

theorem parses_post (up : Bool) (x : Text) : Parses acc (.post up x) := by
  refine parses_of_own acc (fun _ _ => rfl) fun limit own active rest _ _ _ => ?_
  refine refines_name acc fun l v => get fun lex hl => ?_
  rw [hl.1]
  cases up <;> exact advance ((refines_storeTo acc rest l _).bind fun _ => pure v rest)

theorem parses_group (he : Parses acc e) : Parses acc (.group e) :=
  parses_of_own acc (fun _ _ => rfl) fun limit own active rest hl _ _ =>
    he.parenthesised acc (by rw [size] at hl; omega) active rest

theorem parses_unary (op : UnOp) (he : Parses acc e) : Parses acc (.unary op e) := by
  refine parses_of_own acc (fun h => by cases h) fun limit own active rest hl ho hs => ?_
  rw [size] at hl ho
  have hn : Refines (parseUnary acc (parseComma acc (limit + 1)) (limit + 1) own active) (e.walk acc active) (e.toks 14 ++ rest) rest :=
    he.any acc 14 (by omega) (by omega) (by decide) hs
  have hne : headTok (e.toks 14 ++ rest) ≠ .eof := ne_of_opens (e.toks_opens 14 rest) rfl
  change Refines (parseUnary acc (parseComma acc (limit + 1)) (limit + 1) (own + 1) active) _ (op.tok :: (e.toks 14 ++ rest)) rest
  rw [parseUnary]
  refine get fun lex hle => ?_
  rw [hle.1]
  cases op with
  | plus =>
    have hw : (unary .plus e).walk acc active = e.walk acc active := e.walk_wanted acc active
    rw [hw]
    exact advance (rhsExpected hne hn)
  | minus | bang | tilde =>
    exact advance (rhsExpected hne (hn.bind fun v => pure _ rest))

theorem parses_pre (up : Bool) (x : Text) : Parses acc (.pre up x) := by
  refine parses_of_own acc (fun h => by cases h) fun m n active rest _ _ _ => ?_
  have ht : ∀ {lex : Lexer} {place : ℕ}, lex.cur = .ident x →
      prefixIncDecTargetName up (m + 1) lex place = (.ok (some x,lex) : Except (ArithError E) _) := by
    intro lex place hc
    rw [prefixIncDecTargetName,hc]
  have ha : ∀ place, Refines (applyPre acc (m + 1) up active place) ((pre up x).walk acc active)
      (.ident x :: rest) rest := by
    intro place
    rw [applyPre]
    refine get fun lex hl => ahead (ht hl.1) ?_
    refine move rfl hl (advance ?_)
    refine (refines_lvalueOf acc _ x active).bind fun l => (refines_valueOf acc _ l).bind fun v => ?_
    exact (refines_storeTo acc _ l _).bind fun _ => pure _ rest
  change Refines (parseUnary acc (parseComma acc (m + 1)) (m + 1) (n + 1) active) _ (incDecTok up :: .ident x :: rest) rest
  rw [parseUnary]
  refine get fun lex hl => ?_
  have hh : prefixIncDecHasTarget up (m + 1) lex = (.ok true : Except (ArithError E) Bool) := by
    obtain ⟨-,next,hn,hat⟩ := hl
    rw [prefixIncDecHasTarget,hn]
    change Except.map _ (prefixIncDecTargetName up (m + 1) next lex.tokEnd) = _
    rw [ht hat.1]
    rfl
  rw [hl.1]
  cases up <;> exact ahead hh (advance (ha lex.tokEnd))

theorem refines_power {v r : I64} :
    Refines (if (active && r.slt 0) = true then Parse.fail (.exponentBelowZero src start)
      else Pure.pure (if active then powI64 v r else 0) : Parse Env E I64)
      (finish .pow active v r >>= fun w => Pure.pure (wanted active w)) rest rest := by
  cases active with
  | false => exact pure 0 rest
  | true =>
    cases hr : r.slt 0 with
    | true =>
      have hf : (finish .pow true v r : Effect Env E I64) = Effect.fail .negativeExponent := by
        rw [finish,if_pos rfl,apply,if_pos hr]
        rfl
      rw [hf]
      exact fail rfl rest rest
    | false =>
      have hf : (finish .pow true v r : Effect Env E I64) = Pure.pure (powI64 v r) := by
        rw [finish,if_pos rfl,apply,hr]
        rfl
      rw [hf]
      exact pure _ rest

theorem parses_pow (ha : Parses acc a) (hb : Parses acc b) : Parses acc (.binary .pow a b) := by
  refine parses_of_own acc (fun h => by cases h) fun limit own active rest hl ho hs => ?_
  rw [size] at hl ho
  have hbo : (binary .pow a b).body ++ rest = a.toks 14 ++ .starStar :: (b.toks 13 ++ rest) :=
    append_assoc _ _ _
  have hle : Refines (levelParser acc (limit + 1) (limit + 1) 14 active) (a.walk acc active)
      (a.toks 14 ++ .starStar :: (b.toks 13 ++ rest)) (.starStar :: (b.toks 13 ++ rest)) :=
    ha.any acc 14 (by omega) (by omega) (by decide) (stops_cons rfl (by decide))
  have hr : Refines (parsePower acc (parseComma acc (limit + 1)) (limit + 1) own active) (b.walk acc (active && true))
      (b.toks 13 ++ rest) rest := by
    rw [Bool.and_true]
    exact hb.any acc 13 (by omega) (by omega) (by decide) hs
  change Refines (parsePower acc (parseComma acc (limit + 1)) (limit + 1) (own + 1) active) _ _ rest
  rw [parsePower,hbo,← walk_wanted,walk]
  simp only [bind_assoc]
  refine bind hle fun v => get fun lex hlx => ?_
  rw [if_pos hlx.1]
  exact advance (hr.bind fun r => refines_power)

theorem parses_ternary {c t f : Expr} (hc : Parses acc c) (ht : Parses acc t) (hf : Parses acc f) :
    Parses acc (.ternary c t f) := by
  refine parses_of_own acc (fun h => by cases h) fun m n active rest hl ho hs => ?_
  rw [size] at hl ho
  have hb : (ternary c t f).body ++ rest =
      c.toks 3 ++ .question :: (t.body ++ .colon :: (f.toks 2 ++ rest)) := by
    rw [body,append_assoc,cons_append,append_assoc,cons_append]
    rfl
  have hcn : Refines (levelParser acc (m + 1) (m + 1) 3 active) (c.walk acc active)
      (c.toks 3 ++ .question :: (t.body ++ .colon :: (f.toks 2 ++ rest)))
      (.question :: (t.body ++ .colon :: (f.toks 2 ++ rest))) :=
    hc.any acc 3 (by omega) (by omega) (by decide) (stops_cons rfl (by decide))
  have hm : ∀ a, Refines (parseComma acc (m + 1) a) (t.walk acc a) (t.body ++ .colon :: (f.toks 2 ++ rest))
      (.colon :: (f.toks 2 ++ rest)) :=
    fun a => ht m m 0 a _ (by omega) (by omega) (Nat.zero_le _) (stops_closing rfl)
  have hla : ∀ a, Refines (parseTernary acc (parseComma acc (m + 1)) (m + 1) n a) (f.walk acc a) (f.toks 2 ++ rest) rest :=
    fun a => hf.any acc 2 (by omega) (by omega) (by decide) hs
  change Refines (parseTernary acc (parseComma acc (m + 1)) (m + 1) (n + 1) active) _ _ rest
  rw [parseTernary,hb]
  refine bind hcn fun v => get fun lex hle => ?_
  rw [if_pos hle.1]
  refine advance (get fun trueLex htr => check ?_ ?_)
  · rw [htr.cur]
    exact ne_of_opens (t.body_opens _) rfl
  refine (hm _).bind fun vt => get fun colonLex hco => check (not_not.mpr hco.1) ?_
  refine advance (get fun falseLex hfa => check ?_ ?_)
  · rw [hfa.cur]
    exact ne_of_opens (f.toks_opens 2 rest) rfl
  exact (hla _).bind fun vf => pure _ rest

theorem AssignOp.opcode_tok (op : AssignOp) : assignmentOpcode op.tok = some op := by
  cases op <;> rfl

theorem refines_assigned {lhs rhs : I64}
    {k : I64 → Parse Env E I64} {t : I64 → Effect Env E I64} (h : ∀ v, Refines (k v) (t v) toks rest) :
    Refines (if (active && (decide (op = .div) || decide (op = .rem)) && decide (rhs = 0)) = true then
        Parse.fail (.divisionAt src start) >>= fun (_ : Unit) => Parse.ahead (assignedValue op lhs rhs) >>= k
      else Parse.ahead (assignedValue op lhs rhs) >>= k)
      (Effect.ofExcept (op.apply active lhs rhs) >>= t) toks rest := by
  rw [AssignOp.apply]
  split
  · intro lex _ env
    exact Agree.error (e := ArithError.divisionAt src start)
  · cases hv : (assignedValue op lhs rhs : Except (ArithError E) I64) with
    | error e =>
      intro lex _ env
      exact Agree.error (e := e)
    | ok v => exact ahead rfl (h v)

theorem parses_assign (op : AssignOp) (x : Text) (he : Parses acc e) : Parses acc (.assign op x e) := by
  refine parses_of_own acc (fun h => by cases h) fun limit own active rest hl ho hst => ?_
  rw [size] at hl ho
  have hr : Refines (parseAssign acc (parseComma acc (limit + 1)) (limit + 1) own active) (e.walk acc active) (e.toks 1 ++ rest) rest :=
    he.any acc 1 (by omega) (by omega) (by decide) hst
  change Refines (parseAssign acc (parseComma acc (limit + 1)) (limit + 1) (own + 1) active) _
    (.ident x :: op.tok :: (e.toks 1 ++ rest)) rest
  rw [parseAssign]
  refine get fun lex hle => ?_
  rw [hle.1]
  have hn := hle.2
  obtain ⟨next,ha,hat⟩ := hn
  refine ahead ha ?_
  rw [hat.1,op.opcode_tok]
  refine advance (advance ?_)
  refine (refines_lvalueOf acc _ x _).bind fun early => (refines_valueOf acc _ early).bind fun lhs => ?_
  refine get fun rhsLex _ => hr.bind fun rhs => refines_assigned fun v => ?_
  by_cases hs : op = .set
  · simp only [hs,if_true]
    refine (refines_lvalueOf acc rest x active).bind fun l => ?_
    exact (refines_storeTo acc rest l v).bind fun _ => pure _ rest
  · simp only [hs,if_false]
    exact (refines_storeTo acc rest early v).bind fun _ => pure _ rest

section
variable {op : BinOp}

/-- How many operators of a level a tree has along its left edge. -/
def spine (level : ℕ) : Expr → ℕ
  | .binary op a _ => if op.level = level then spine level a + 1 else 0
  | _ => 0

theorem spine_le_size (level : ℕ) (e : Expr) : spine level e ≤ e.size := by
  induction e with
  | binary op a b iha ihb =>
    rw [spine]
    split
    · rw [size]
      omega
    · exact Nat.zero_le _
  | _ => exact Nat.zero_le _

/-- Some tokens are taken by a level and its loop, whatever the loop meets after them. -/
def LoopsAt (limit level : ℕ) (active : Bool) (s : Effect Env E I64) (toks : List Tok) (rounds : ℕ) : Prop :=
  ∀ (n : ℕ) (rest rest' : List Tok) (k : I64 → Effect Env E I64), Stops (level + 1) rest →
    (∀ v, Refines (loopLeft (opsAt level) (stepAt acc limit level) n active v) (k v) rest rest') →
    Refines (levelParser acc limit limit (level + 1) active >>=
      loopLeft (opsAt level) (stepAt acc limit level) (n + rounds) active) (s >>= k) (toks ++ rest) rest'

variable (hop : op ≠ .pow)
include hop

theorem BinOp.opsAt_tok : opsAt op.level op.tok := by
  cases op <;> first | rfl | exact absurd rfl hop

omit hop in
theorem BinOp.follows_tok (op : BinOp) : op.tok.follows = some op.level := by
  cases op <;> rfl

theorem BinOp.leftAssociative_level : leftAssociative op.level := by
  cases op <;> first | rfl | exact absurd rfl hop

theorem LoopsAt.operator {rounds : ℕ} {s : Effect Env E I64} (h : LoopsAt acc limit op.level active s toks rounds)
    (hb : Parses acc b) (hs : b.size < limit) :
    LoopsAt acc limit op.level active (s >>= fun v => b.walk acc (active && op.wants v) >>= op.finish active v)
      (toks ++ op.tok :: b.toks (op.level + 1)) (rounds + 1) := by
  intro n rest rest' k hst hk
  have hl : op.level + 1 ≤ 15 := by cases op <;> decide
  have hr : ∀ v, Refines (loopLeft (opsAt op.level) (stepAt acc limit op.level) (n + 1) active v)
      ((b.walk acc (active && op.wants v) >>= op.finish active v) >>= k) (op.tok :: (b.toks (op.level + 1) ++ rest)) rest' := by
    intro v
    rw [loopLeft]
    refine get fun lex hle => ?_
    rw [hle.1,if_pos (opsAt_tok hop)]
    have hri : Refines (levelParser acc limit limit (op.level + 1) (active && op.wants v))
        (b.walk acc (active && op.wants v)) (b.toks (op.level + 1) ++ rest) rest :=
      hb.any acc _ hs hs hl hst
    exact (refines_stepAt acc hop (ne_of_opens (b.toks_opens _ rest) rfl) hri).bind hk
  have hru := h (n + 1) (op.tok :: (b.toks (op.level + 1) ++ rest)) rest' _
    (stops_cons op.follows_tok (Nat.lt_succ_self _)) hr
  rw [bind_assoc,append_assoc,cons_append]
  rwa [Nat.add_assoc,Nat.add_comm 1 rounds] at hru

omit hop

/-- A tree is taken by the loop of every level that associates to the left. -/
def Loops (e : Expr) : Prop :=
  ∀ (limit level : ℕ) (active : Bool), leftAssociative level → e.size < limit →
    LoopsAt acc limit level active (e.walk acc active) (e.toks level) (spine level e)

theorem Parses.loops (h : Parses acc e) (hl : leftAssociative level) (hs : e.size < limit) (hne : e.level ≠ level) :
    LoopsAt acc limit level active (e.walk acc active) (e.toks level) 0 := by
  intro n rest rest' k hst hk
  have ht : e.toks level = e.toks (level + 1) := by
    rw [toks,toks,parenthesise,parenthesise]
    by_cases hle : level ≤ e.level
    · rw [if_pos hle,if_pos (by omega)]
    · rw [if_neg hle,if_neg (by omega)]
  have hlv : level + 1 ≤ 15 := by
    rcases leftAssociative_cases hl with rfl | rfl | rfl | rfl | rfl | rfl | rfl | rfl | rfl | rfl | rfl <;> decide
  rw [ht]
  exact (h.any acc (level + 1) hs hs hlv hst).bind hk

include hop

theorem Expr.toks_binary (a b : Expr) :
    (binary op a b).body = a.toks op.level ++ op.tok :: b.toks (op.level + 1) := by
  rw [Expr.body,BinOp.leftLevel,BinOp.rightLevel,if_neg hop,if_neg hop]
  rfl

theorem parses_left (ha : Loops acc a) (hb : Parses acc b) : Parses acc (.binary op a b) := by
  refine parses_of_own acc (fun h => by cases op <;> cases h) fun limit own active rest hli ho hs => ?_
  rw [size] at hli
  have hl := leftAssociative_level hop
  have hsp := spine_le_size op.level a
  have hlo := (ha (limit + 1) op.level active hl (by omega)).operator acc hop hb (by omega)
  obtain ⟨n,hn⟩ : ∃ n, limit + 1 = n + 1 + (spine op.level a + 1) := ⟨limit - spine op.level a - 1,by omega⟩
  have hr := hlo (n + 1) rest rest _ (hs.mono (Nat.le_succ _)) (loopLeft_stop acc hl hs n)
  rw [← hn,← toks_binary hop] at hr
  change Refines (levelParser acc (limit + 1) (own + 1) op.level active) _ _ rest
  rw [levelParser_left acc _ hl,← walk_wanted]
  exact hr

theorem loops_left (ha : Loops acc a) (hb : Parses acc b) : Loops acc (.binary op a b) := by
  intro limit level active hl hs
  by_cases heq : op.level = level
  · subst heq
    rw [size] at hs
    have hlo := (ha limit op.level active hl (by omega)).operator acc hop hb (by omega)
    rw [← toks_binary hop] at hlo
    have ht : (binary op a b).toks op.level = (binary op a b).body := if_pos (Nat.le_refl op.level)
    rw [ht,spine,if_pos rfl]
    exact hlo
  · rw [spine,if_neg heq]
    exact (parses_left acc hop ha hb).loops acc hl hs heq

omit hop

theorem parses_and_loops (e : Expr) : Parses acc e ∧ Loops acc e := by
  have hle : ∀ {e : Expr}, Parses acc e → leftAssociative e.level = false → (∀ level, e.level ≠ level → spine level e = 0) →
      Parses acc e ∧ Loops acc e := by
    intro e he ho hs
    refine ⟨he,fun limit level active hl hsi => ?_⟩
    have hne : e.level ≠ level := by
      rintro rfl
      rw [ho] at hl
      cases hl
    rw [hs level hne]
    exact he.loops acc hl hsi hne
  induction e with
  | const n => exact hle (parses_const acc n) rfl fun _ _ => rfl
  | var x => exact hle (parses_var acc x) rfl fun _ _ => rfl
  | unary op e ih => exact hle (parses_unary acc op ih.1) rfl fun _ _ => rfl
  | pre up x => exact hle (parses_pre acc up x) rfl fun _ _ => rfl
  | post up x => exact hle (parses_post acc up x) rfl fun _ _ => rfl
  | binary op a b iha ihb =>
    by_cases hop : op = .pow
    · subst hop
      exact hle (parses_pow acc iha.1 ihb.1) rfl fun _ hne => if_neg hne
    · exact ⟨parses_left acc hop iha.2 ihb.1,loops_left acc hop iha.2 ihb.1⟩
  | ternary c t f ihc iht ihf => exact hle (parses_ternary acc ihc.1 iht.1 ihf.1) rfl fun _ _ => rfl
  | assign op x e ih => exact hle (parses_assign acc op x ih.1) rfl fun _ _ => rfl
  | group e ih => exact hle (parses_group acc ih.1) rfl fun _ _ => rfl
end
end Cherubsh.Expander.Arith
