import Cherubsh.Expander.Arith.Denotation

/-! # Operands that are not selected

The operand that a constant left side does not select is still parsed, with nothing wanted of it.
It leaves no trace exactly when it nowhere divides in an assignment.
-/
namespace Cherubsh.Expander.Arith
variable {Env LVal E : Type} (acc : Access Env LVal E)

/-- `0 && ( b )` -/
def zeroAnd (b : Expr) : Expr := .binary .land (.const 0) (.group b)

/-- `1 || ( b )` -/
def oneOr (b : Expr) : Expr := .binary .lor (.const 1) (.group b)

/-- `1 ? ( a ) : ( c )` -/
def oneThen (a c : Expr) : Expr := .ternary (.const 1) (.group a) (.group c)

/-- `0 ? ( c ) : ( a )` -/
def zeroElse (c a : Expr) : Expr := .ternary (.const 0) (.group c) (.group a)

theorem zeroAnd_walk (b : Expr) :
    (zeroAnd b).walk acc true = skipped b.divAssigns >>= fun _ => pure 0 := by
  have hw : (zeroAnd b).walk acc true = b.walk acc false >>= BinOp.finish .land true 0 := rfl
  rw [hw,Expr.walk_false]
  cases b.divAssigns <;> rfl

theorem oneOr_walk (b : Expr) : (oneOr b).walk acc true = skipped b.divAssigns >>= fun _ => pure 1 := by
  have hw : (oneOr b).walk acc true = b.walk acc false >>= BinOp.finish .lor true 1 := rfl
  rw [hw,Expr.walk_false]
  cases b.divAssigns <;> rfl

theorem oneThen_walk (a c : Expr) :
    (oneThen a c).walk acc true = a.walk acc true >>= fun v => skipped c.divAssigns >>= fun _ => pure v := by
  have hw : (oneThen a c).walk acc true = a.walk acc true >>= fun v => c.walk acc false >>= fun _ => pure v := rfl
  rw [hw,Expr.walk_false]

theorem zeroElse_walk (c a : Expr) :
    (zeroElse c a).walk acc true = skipped c.divAssigns >>= fun _ => a.walk acc true := by
  have hw : (zeroElse c a).walk acc true = c.walk acc false >>= fun _ => a.walk acc true >>= fun v => pure v := rfl
  rw [hw,Expr.walk_false]
  simp only [bind_pure]

/-- The operand that is not selected neither changes anything nor fails, in each of the four
forms. -/
def Unnoticed (depth : ℕ) (b c : Expr) (env : Env) : Prop :=
  outcome (evalInner acc depth (zeroAnd b).render env) = (.ok 0,env) ∧
    outcome (evalInner acc depth (oneOr b).render env) = (.ok 1,env) ∧
    ∀ a : Expr, a.named →
      outcome (evalInner acc depth (oneThen a c).render env) = outcome (evalInner acc depth a.render env) ∧
        outcome (evalInner acc depth (zeroElse c a).render env) = outcome (evalInner acc depth a.render env)

theorem skipped_pure_iff (divides : Bool) (v : I64) (env : Env) :
    (skipped divides >>= fun _ => pure v : Effect Env E I64) env = (.ok v,env) ↔ divides = false := by
  cases divides with
  | false => exact ⟨fun _ => rfl,fun _ => rfl⟩
  | true => exact ⟨fun h => (nomatch h),fun h => (nomatch h)⟩

theorem unnoticed_iff_divAssigns {depth : ℕ} (hdepth : depth < maxArithNesting) {b c : Expr} (hb : b.named)
    (hc : c.named) (env : Env) :
    Unnoticed acc depth b c env ↔ b.divAssigns = false ∧ c.divAssigns = false := by
  have hone : ∀ {a : Expr}, a.named → (oneThen a c).named := by
    intro a ha
    simp [oneThen,Expr.named,ha,hc]
  have hzero : ∀ {a : Expr}, a.named → (zeroElse c a).named := by
    intro a ha
    simp [zeroElse,Expr.named,ha,hc]
  rw [Unnoticed,evalInner_render acc hdepth (show (zeroAnd b).named from hb),
    evalInner_render acc hdepth (show (oneOr b).named from hb),zeroAnd_walk,oneOr_walk,skipped_pure_iff,skipped_pure_iff]
  constructor
  · rintro ⟨hdivides,-,hall⟩
    have hthen := (hall (.const 0) rfl).1
    rw [evalInner_render acc hdepth (hone rfl),evalInner_render acc hdepth rfl,oneThen_walk] at hthen
    exact ⟨hdivides,(skipped_pure_iff _ 0 env).mp hthen⟩
  · rintro ⟨hdivides,hskip⟩
    refine ⟨hdivides,hdivides,fun a ha => ?_⟩
    rw [evalInner_render acc hdepth (hone ha),evalInner_render acc hdepth (hzero ha),evalInner_render acc hdepth ha,
      oneThen_walk,zeroElse_walk,hskip]
    exact ⟨congrFun (bind_pure (a.walk acc true)) env,rfl⟩

/-- `y ++` and `x % 0`, as operands that are not selected. -/
theorem unnoticed_increment : Unnoticed scalars 0 (.post true ['y']) (.binary .rem (.var ['x']) (.const 0)) [(['y'],3)] :=
  (unnoticed_iff_divAssigns scalars (by decide) (by decide) (by decide) [(['y'],3)]).mpr ⟨rfl,rfl⟩

/-- `0 && ( x /= 2 )` fails. -/
theorem noticed_division : ¬Unnoticed scalars 0 (.assign .div ['x'] (.const 2)) (.const 0) [(['x'],8)] := by
  rintro ⟨hand,-⟩
  exact absurd hand (by decide +kernel)
end Cherubsh.Expander.Arith
