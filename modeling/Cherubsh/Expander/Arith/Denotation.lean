import Mathlib.Data.BitVec
import Cherubsh.Expander.Arith.Lexing

/-! # The evaluator against the standard meaning

The two meanings part where an operand that is not selected divides in an assignment, and where an
assignment takes a power with a negative exponent.
-/
namespace Cherubsh.Expander.Arith
open BinOp Effect Expr
variable {v : I64} {op : AssignOp} {bop : BinOp}
variable {Env LVal E α β : Type}

theorem wrap_toInt (v : I64) : wrap v.toInt = v := BitVec.ofInt_toInt

theorem wrap_of_toInt {n : ℤ} (h : v.toInt = n) : wrap n = v := h ▸ wrap_toInt v

theorem wrap_mul (m n : ℤ) : wrap (m * n) = wrap m * wrap n := BitVec.ofInt_mul m n

theorem wrap_add (m n : ℤ) : wrap (m + n) = wrap m + wrap n := BitVec.ofInt_add m n

theorem wrap_neg (n : ℤ) : wrap (-n) = -wrap n := BitVec.ofInt_neg

theorem wrap_sub (m n : ℤ) : wrap (m - n) = wrap m - wrap n := by
  rw [Int.sub_eq_add_neg,wrap_add,wrap_neg,sub_eq_add_neg]

theorem wrap_pow (v : I64) (n : ℕ) : wrap (v.toInt ^ n) = v ^ n := by
  induction n with
  | zero =>
    rw [pow_zero,pow_zero]
    rfl
  | succ n ih => rw [pow_succ,wrap_mul,ih,wrap_toInt,pow_succ]

theorem toInt_eq_zero : v.toInt = 0 ↔ v = 0 := by
  rw [← BitVec.toInt_inj (x := v) (y := 0)]
  rfl

theorem UnOp.apply_eq_denote (op : UnOp) (v : I64) : op.apply v = op.denote v := by
  cases op with
  | plus => rfl
  | minus =>
    change -v = wrap (-v.toInt)
    rw [wrap_neg,wrap_toInt]
  | bang =>
    change ofBool (v = 0) = ofBool (v.toInt = 0)
    simp only [toInt_eq_zero]
  | tilde =>
    change ~~~v = wrap (-v.toInt - 1)
    have ho : wrap 1 = 1 := rfl
    rw [wrap_sub,wrap_neg,wrap_toInt,BitVec.neg_eq_not_add,ho]
    exact (add_sub_cancel_right (~~~v) 1).symm

theorem powLoop_eq {fuel : ℕ} {exp : ℕ} (h : exp < 2 ^ fuel) (result base : I64) :
    powLoop fuel result base exp = result * base ^ exp := by
  induction fuel generalizing exp result base with
  | zero =>
    obtain rfl : exp = 0 := by omega
    rw [powLoop,pow_zero,mul_one]
  | succ fuel ih =>
    rw [powLoop]
    by_cases hze : exp = 0
    · rw [if_pos hze,hze,pow_zero,mul_one]
    · have hh : exp / 2 < 2 ^ fuel := by
        rw [Nat.pow_succ] at h
        omega
      have hb : (if exp / 2 = 0 then base else base * base) ^ (exp / 2) = (base * base) ^ (exp / 2) := by
        split
        · next hz => rw [hz,pow_zero,pow_zero]
        · rfl
      have hs : base ^ exp = base ^ (exp % 2) * (base * base) ^ (exp / 2) := by
        rw [← pow_two,← pow_mul,← pow_add]
        congr 1
        omega
      rw [if_neg hze,ih hh,hb,hs,← mul_assoc]
      rcases Nat.mod_two_eq_zero_or_one exp with hp | hp
      · simp [hp]
      · simp [hp]

theorem slt_zero : v.slt 0 ↔ v.toInt < 0 := BitVec.slt_iff_toInt_lt

theorem powI64_eq {r : I64} (h : 0 ≤ r.toInt) : powI64 v r = wrap (v.toInt ^ r.toInt.toNat) := by
  have hn : ¬r.slt 0 := by
    rw [slt_zero]
    omega
  have hna : r.toInt.toNat = r.toNat := by
    rw [BitVec.toInt_eq_toNat_cond] at h ⊢
    split at h <;> omega
  rw [powI64,if_neg hn,powLoop_eq r.isLt,one_mul,wrap_pow,hna]

theorem shift_amount (r : I64) : (r.toInt % 64).toNat = r.toNat % 2 ^ 32 % 64 := by
  rw [BitVec.toInt_eq_toNat_cond]
  split <;> omega

theorem wrap_shiftLeft (v : I64) (n : ℕ) : wrap (v.toInt * 2 ^ n) = v <<< n := by
  have ht : wrap (2 ^ n) = BitVec.twoPow 64 n := by
    apply BitVec.eq_of_toNat_eq
    rw [wrap,BitVec.toNat_ofInt,BitVec.toNat_twoPow]
    norm_cast
  rw [wrap_mul,wrap_toInt,ht,BitVec.shiftLeft_eq_mul_twoPow]

theorem wrap_shiftRight (v : I64) (n : ℕ) : wrap (v.toInt / 2 ^ n) = v.sshiftRight n := by
  apply wrap_of_toInt
  rw [BitVec.toInt_sshiftRight,Int.shiftRight_eq_div_pow]
  norm_cast

theorem BinOp.apply_eq_denote (op : BinOp) (v r : I64) :
    (op.apply v r : Except (Fault E) I64) = op.denote v r := by
  cases op with
  | comma | bor | bxor | band | lt | le | gt | ge => rfl
  | lor =>
    change Except.ok (ofBool (v ≠ 0 || r ≠ 0)) = .ok (ofBool (v.toInt ≠ 0 ∨ r.toInt ≠ 0))
    simp [toInt_eq_zero]
  | land =>
    change Except.ok (ofBool (v ≠ 0 && r ≠ 0)) = .ok (ofBool (v.toInt ≠ 0 ∧ r.toInt ≠ 0))
    simp [toInt_eq_zero]
  | eq => simp only [apply,denote,BitVec.toInt_inj]
  | ne => simp only [apply,denote,ne_eq,BitVec.toInt_inj]
  | shl => simp only [apply,denote,shiftLeft,shift_amount,wrap_shiftLeft]
  | shr => simp only [apply,denote,shiftRight,shift_amount,wrap_shiftRight]
  | add => simp only [apply,denote,wrap_add,wrap_toInt]
  | sub => simp only [apply,denote,wrap_sub,wrap_toInt]
  | mul => simp only [apply,denote,wrap_mul,wrap_toInt]
  | div =>
    have hd : v.sdiv r = wrap (v.toInt.tdiv r.toInt) := by
      apply BitVec.eq_of_toInt_eq
      rw [BitVec.toInt_sdiv,wrap,BitVec.toInt_ofInt]
    simp only [apply,denote,toInt_eq_zero,hd]
  | rem => simp only [apply,denote,toInt_eq_zero,wrap_of_toInt (BitVec.toInt_srem v r)]
  | pow =>
    simp only [apply,denote]
    by_cases hn : r.toInt < 0
    · rw [if_pos hn,if_pos (slt_zero.mpr hn)]
    · rw [if_neg hn,if_neg (fun h => hn (slt_zero.mp h)),powI64_eq (by omega)]

theorem BinOp.wants_eq_selects (op : BinOp) (v : I64) : op.wants v = op.selects v := by
  cases op with
  | lor => simp only [wants,selects,toInt_eq_zero]
  | land => simp only [wants,selects,ne_eq,toInt_eq_zero]
  | _ => rfl

section
/-- Where an effect gives a value, something holds of it and of what it leaves behind. -/
def Effect.After (p : Effect Env E α) (env : Env) (post : α → Env → Prop) : Prop :=
  ∀ v env', p env = (.ok v,env') → post v env'

/-- The evaluator faults at an operand it skips or, where powers are assigned, the
standard meaning at an exponent. -/
def Strays (powers : Prop) (p q : Effect Env E α) (env : Env) : Prop :=
  (∃ env', p env = (.error .skipping,env')) ∨ powers ∧ ∃ env', q env = (.error .negativeExponent,env')

/-- The first effect is the second one exactly as far as the condition holds. -/
def Tracks (powers : Prop) (p q : Effect Env E α) (clean : Env → Prop) : Prop :=
  ∀ env, (clean env → p env = q env) ∧ (clean env ∨ Strays powers p q env)

theorem Effect.bind_ok {p : Effect Env E α} {k : α → Effect Env E β} {env env' : Env} {v : α} (h : p env = (.ok v,env')) :
    (p >>= k) env = k v env' := by
  rw [bind_def,h]

theorem Effect.bind_error {p : Effect Env E α} {k : α → Effect Env E β} {env env' : Env} {e : Fault E}
    (h : p env = (.error e,env')) : (p >>= k) env = (.error e,env') := by
  rw [bind_def,h]

theorem Strays.bind {powers : Prop} {p q : Effect Env E α} {k l : α → Effect Env E β} {env : Env}
    (h : Strays powers p q env) : Strays powers (p >>= k) (q >>= l) env := by
  rcases h with ⟨env',h⟩ | ⟨hp,env',h⟩
  · exact Or.inl ⟨env',bind_error h⟩
  · exact Or.inr ⟨hp,env',bind_error h⟩

namespace Tracks
variable {powers : Prop} {p q : Effect Env E α} {clean : Env → Prop}

theorem same (p : Effect Env E α) : Tracks powers p p fun _ => True := fun _ => ⟨fun _ => rfl,Or.inl trivial⟩

variable (h : Tracks powers p q clean)
include h

theorem congr {clean' : Env → Prop} (hi : ∀ env, clean env ↔ clean' env) : Tracks powers p q clean' := by
  intro env
  rw [← hi env]
  exact h env

theorem bind {k l : α → Effect Env E β} {then_ : α → Env → Prop} (hk : ∀ v, Tracks powers (k v) (l v) (then_ v)) :
    Tracks powers (p >>= k) (q >>= l) fun env => clean env ∧ q.After env then_ := by
  intro env
  constructor
  · rintro ⟨hc,ha⟩
    have hpq := (h env).1 hc
    rcases hq : q env with ⟨_ | v,env'⟩
    · rw [bind_error (hpq.trans hq),bind_error hq]
    · rw [bind_ok (hpq.trans hq),bind_ok hq]
      exact (hk v env').1 (ha v env' hq)
  · rcases (h env).2 with hc | hs
    · have hpq := (h env).1 hc
      rcases hq : q env with ⟨_ | v,env'⟩
      · refine Or.inl ⟨hc,fun v env'' hv => ?_⟩
        rw [hq] at hv
        cases hv
      · rcases (hk v env').2 with ht | hs
        · refine Or.inl ⟨hc,fun w env'' hw => ?_⟩
          rw [hq] at hw
          cases hw
          exact ht
        · right
          rw [Strays,bind_ok (hpq.trans hq),bind_ok hq]
          exact hs
    · exact Or.inr hs.bind

theorem bind_same (k : α → Effect Env E β) : Tracks powers (p >>= k) (q >>= k) clean :=
  (h.bind fun v => same (k v)).congr fun _ => ⟨And.left,fun hc => ⟨hc,fun _ _ _ => trivial⟩⟩

omit h

theorem skip {k : I64 → Effect Env E α} {divides : Bool} (h : Tracks powers (k 0) q clean) :
    Tracks powers (skipped divides >>= k) q fun env => divides = false ∧ clean env := by
  intro env
  cases divides with
  | false => exact ⟨fun hc => (h env).1 hc.2,(h env).2.imp (fun hc => ⟨rfl,hc⟩) id⟩
  | true => exact ⟨fun hc => absurd hc.1 Bool.true_eq_false.mp,Or.inr (Or.inl ⟨env,rfl⟩)⟩
end Tracks
end

section
variable (acc : Access Env LVal E) {powers : Prop} {e : Expr}

/-- The standard evaluation leaves out no dividing assignment and assigns no negative power. -/
def Expr.Clean : Expr → Env → Prop
  | .const _, _ | .var _, _ | .pre _ _, _ | .post _ _, _ => True
  | .unary _ e, env | .group e, env => e.Clean env
  | .binary op a b, env => a.Clean env ∧ (a.denote acc).After env fun v env =>
      if op.selects v then b.Clean env else b.divAssigns = false
  | .ternary c t f, env => c.Clean env ∧ (c.denote acc).After env fun v env =>
      if v.toInt ≠ 0 then t.Clean env ∧ (t.denote acc).After env fun _ _ => f.divAssigns = false
      else t.divAssigns = false ∧ f.Clean env
  | .assign op x e, env =>
    if op = .set then e.Clean env
    else (access (acc.resolve x)).After env fun l env => (access (acc.load l)).After env fun _ env =>
      e.Clean env ∧ (op = .pow → (e.denote acc).After env fun r _ => 0 ≤ r.toInt)

theorem placeOf_bind (x : Text) (k : Option LVal → Effect Env E α) :
    placeOf acc x true >>= k = access (acc.resolve x) >>= fun l => k (some l) := by
  rw [placeOf,if_pos rfl,bind_assoc]
  simp only [pure_bind]

def Expr.Tracked (powers : Prop) (e : Expr) : Prop := Tracks powers (e.walk acc true) (e.denote acc) (e.Clean acc)

theorem finish_true (op : BinOp) (v r : I64) : (op.finish true v r : Effect Env E I64) = ofExcept (op.denote v r) := by
  rw [finish,if_pos rfl,apply_eq_denote]

theorem tracks_binary (op : BinOp) {a b : Expr} (ha : a.Tracked acc powers) (hb : b.Tracked acc powers) :
    (binary op a b).Tracked acc powers := by
  refine ha.bind fun v => ?_
  rw [Bool.true_and,wants_eq_selects]
  simp only [finish_true]
  cases op.selects v with
  | true => exact hb.bind_same _
  | false =>
    rw [walk_false]
    exact (Tracks.same _).skip.congr fun env => ⟨fun hc => hc.1,fun hc => ⟨hc,trivial⟩⟩

theorem tracks_ternary {c t f : Expr} (hc : c.Tracked acc powers) (ht : t.Tracked acc powers) (hf : f.Tracked acc powers) :
    (ternary c t f).Tracked acc powers := by
  refine hc.bind fun v => ?_
  by_cases hv : v = 0
  · have hst : ¬v.toInt ≠ 0 := not_not.mpr (toInt_eq_zero.mpr hv)
    have hs : (true && decide (v ≠ 0)) = false := by rw [Bool.true_and,decide_eq_false (not_not.mpr hv)]
    have hta : (true && decide (v = 0)) := by rw [Bool.true_and,decide_eq_true hv]
    simp only [hs,hta,if_neg hst,walk_false,if_pos,if_neg (not_not.mpr hv),bind_pure]
    exact Tracks.skip (k := fun _ => f.walk acc true) hf
  · have hgo : v.toInt ≠ 0 := fun h => hv (toInt_eq_zero.mp h)
    have hta : (true && decide (v ≠ 0)) := by rw [Bool.true_and,decide_eq_true hv]
    have hs : (true && decide (v = 0)) = false := by rw [Bool.true_and,decide_eq_false hv]
    have hl : ∀ vt, Tracks powers (skipped f.divAssigns >>= fun _ => pure vt : Effect Env E I64) (pure vt)
        fun _ => f.divAssigns = false := fun vt =>
      (Tracks.skip (k := fun _ => pure vt) (Tracks.same (pure vt))).congr fun _ => ⟨fun h => h.1,fun h => ⟨h,trivial⟩⟩
    have hb := ht.bind hl
    rw [bind_pure] at hb
    simp only [hta,hs,if_pos hgo,walk_false,if_pos,if_pos hv]
    exact hb

theorem tracks_assigned (hop : op.binary = some bop) (hpo : op = .pow → powers) (lhs rhs : I64) :
    Tracks powers (ofExcept (op.apply true lhs rhs) : Effect Env E I64) (ofExcept (bop.denote lhs rhs))
      fun _ => op = .pow → 0 ≤ rhs.toInt := by
  by_cases hp : op = .pow
  · subst hp
    cases hop
    intro env
    by_cases hn : rhs.toInt < 0
    · refine ⟨fun h => absurd (h rfl) (by omega),Or.inr (Or.inr ⟨hpo rfl,env,?_⟩)⟩
      rw [BinOp.denote,if_pos hn]
      rfl
    · have heq : (ofExcept (AssignOp.apply .pow true lhs rhs) : Effect Env E I64) =
          Effect.ofExcept (BinOp.denote .pow lhs rhs) := by
        rw [BinOp.denote,if_neg hn,← powI64_eq (by omega)]
        rfl
      exact ⟨fun _ => congrFun heq env,Or.inl fun _ => by omega⟩
  · have heq : (op.apply true lhs rhs : Except (Fault E) I64) = bop.denote lhs rhs := by
      rw [← apply_eq_denote]
      cases op with
      | pow => exact absurd rfl hp
      | set => cases hop
      | div | rem =>
        cases hop
        by_cases hr : rhs = 0
        · subst hr
          rfl
        · rw [AssignOp.apply,decide_eq_false hr,Bool.and_false,if_neg Bool.false_ne_true,assignedValue,apply,
            if_neg hr,if_neg hr]
          rfl
      | _ =>
        cases hop
        rfl
    rw [heq]
    exact (Tracks.same _).congr fun _ => ⟨fun _ h => absurd h hp,fun _ => trivial⟩

theorem tracks_set (x : Text) (he : e.Tracked acc powers) : (assign .set x e).Tracked acc powers := by
  change Tracks powers (e.walk acc true >>= fun v => placeOf acc x true >>= fun l => putTo acc l v >>= fun _ => pure v) _ _
  simp only [placeOf_bind]
  exact he.bind_same _

theorem tracks_compound (hop : op.binary = some bop) (hpo : op = .pow → powers)
    (x : Text) (he : e.Tracked acc powers) : (Expr.assign op x e).Tracked acc powers := by
  have hs : op ≠ .set := by
    rintro rfl
    cases hop
  rw [Tracked,Expr.walk,Expr.denote,hop]
  simp only [hs,ne_eq,not_false_eq_true,decide_true,Bool.and_true,if_false,if_true,pure_bind,placeOf_bind]
  refine ((Tracks.same _).bind fun l => (Tracks.same (access (acc.load l))).bind fun lhs =>
    he.bind fun rhs => (tracks_assigned hop hpo lhs rhs).bind_same _).congr fun env => ?_
  rw [Clean,if_neg hs]
  constructor
  · rintro ⟨-,hc⟩ l env₁ hl lhs env₂ hlh
    obtain ⟨hcl,hp⟩ := (hc l env₁ hl).2 lhs env₂ hlh
    exact ⟨hcl,fun h r env₃ hr => hp r env₃ hr h⟩
  · refine fun hc => ⟨trivial,fun l env₁ hl => ⟨trivial,fun lhs env₂ hlh => ?_⟩⟩
    obtain ⟨hcl,hp⟩ := hc l env₁ hl lhs env₂ hlh
    exact ⟨hcl,fun r env₃ hr h => hp h r env₃ hr⟩

theorem tracks_step (up : Bool) (x : Text) (result : I64 → I64 → I64) :
    Tracks powers (placeOf acc x true >>= fun l => contentOf acc l >>= fun v =>
        putTo acc l (if up then v + 1 else v - 1) >>= fun _ => pure (result v (if up then v + 1 else v - 1)))
      (access (acc.resolve x) >>= fun l => access (acc.load l) >>= fun v =>
        access (acc.store l (wrap (if up then v.toInt + 1 else v.toInt - 1))) >>= fun _ =>
          pure (result v (wrap (if up then v.toInt + 1 else v.toInt - 1))))
      fun _ => True := by
  have hs : ∀ v : I64, wrap (if up then v.toInt + 1 else v.toInt - 1) = if up then v + 1 else v - 1 := by
    intro v
    have ho : wrap 1 = 1 := rfl
    cases up with
    | true => exact (wrap_add _ _).trans (by rw [wrap_toInt,ho]; rfl)
    | false => exact (wrap_sub _ _).trans (by rw [wrap_toInt,ho]; rfl)
  simp only [hs,placeOf_bind]
  exact Tracks.same _

def Expr.powAssigns : Expr → Bool
  | .const _ | .var _ | .pre _ _ | .post _ _ => false
  | .unary _ e | .group e => e.powAssigns
  | .binary _ a b => a.powAssigns || b.powAssigns
  | .ternary c t f => c.powAssigns || (t.powAssigns || f.powAssigns)
  | .assign op _ e => e.powAssigns || op = .pow

theorem Expr.tracks (hp : e.powAssigns → powers) : e.Tracked acc powers := by
  induction e with
  | const n => exact Tracks.same _
  | var x =>
    rw [Tracked,walk,placeOf_bind]
    exact Tracks.same _
  | unary op e ih =>
    have hw : (unary op e).walk acc true = e.walk acc true >>= fun v => pure (op.denote v) := by
      simp [walk,UnOp.apply_eq_denote]
    rw [Tracked,hw]
    exact (ih hp).bind_same _
  | pre up x => exact tracks_step acc up x fun _ new => new
  | post up x => exact tracks_step acc up x fun v _ => v
  | binary op a b iha ihb =>
    simp only [powAssigns,Bool.or_eq_true] at hp
    exact tracks_binary acc op (iha fun h => hp (Or.inl h)) (ihb fun h => hp (Or.inr h))
  | ternary c t f ihc iht ihf =>
    simp only [powAssigns,Bool.or_eq_true] at hp
    exact tracks_ternary acc (ihc fun h => hp (Or.inl h)) (iht fun h => hp (Or.inr (Or.inl h)))
      (ihf fun h => hp (Or.inr (Or.inr h)))
  | assign op x e ih =>
    simp only [powAssigns,Bool.or_eq_true,decide_eq_true_eq] at hp
    have he := ih fun h => hp (Or.inl h)
    cases op with
    | set => exact tracks_set acc x he
    | _ => exact tracks_compound acc rfl (fun h => hp (Or.inr h)) x he
  | group e ih => exact ih hp
end

section
variable (acc : Access Env LVal E)

/-- An effect that does not fault at something it skips. -/
def Effect.Plain (p : Effect Env E α) : Prop := ∀ env env', p env ≠ (.error .skipping,env')

theorem Effect.Plain.bind {p : Effect Env E α} {k : α → Effect Env E β} (hp : p.Plain) (hk : ∀ v, (k v).Plain) :
    (p >>= k).Plain := by
  intro env env' h
  rcases hq : p env with ⟨e | v,env₁⟩
  · rw [bind_error hq] at h
    cases h
    exact hp env _ hq
  · rw [bind_ok hq] at h
    exact hk v env₁ env' h

theorem Effect.plain_pure (v : α) : (pure v : Effect Env E α).Plain := fun _ _ h => nomatch h

theorem Effect.plain_access (f : Env → Except E α × Env) : (access f).Plain := by
  intro env env' h
  rw [access] at h
  rcases hf : f env with ⟨_ | _,_⟩ <;> rw [hf] at h <;> cases h

theorem BinOp.plain_denote (op : BinOp) (v r : I64) : (ofExcept (op.denote v r) : Effect Env E I64).Plain := by
  intro env env' h
  have hv := (Prod.mk.inj h).1
  cases op with
  | div | rem | pow =>
    rw [denote] at hv
    split at hv <;> cases hv
  | _ => cases hv

theorem Expr.plain_denote (e : Expr) : (e.denote acc).Plain := by
  induction e with
  | const n => exact plain_pure n
  | var x => exact (plain_access _).bind fun l => plain_access _
  | unary op e ih => exact ih.bind fun v => plain_pure _
  | pre up x | post up x =>
    exact (plain_access _).bind fun l => (plain_access _).bind fun v =>
      (plain_access _).bind fun _ => plain_pure _
  | binary op a b iha ihb =>
    refine iha.bind fun v => ?_
    split
    · exact ihb.bind fun r => op.plain_denote v r
    · exact op.plain_denote v 0
  | ternary c t f ihc iht ihf =>
    refine ihc.bind fun v => ?_
    split
    · exact iht
    · exact ihf
  | assign op x e ih =>
    rw [denote]
    split
    · exact ih.bind fun v => (plain_access _).bind fun l => (plain_access _).bind fun _ => plain_pure _
    · next bop _ =>
      exact (plain_access _).bind fun l => (plain_access _).bind fun lhs => ih.bind fun rhs =>
        (bop.plain_denote lhs rhs).bind fun v => (plain_access _).bind fun _ => plain_pure _
  | group e ih => exact ih

/-- A clean tree evaluates to its standard meaning; another one differs, unless that stops at a
negative exponent in an assignment. -/
theorem evalInner_denotes_iff {depth : ℕ} (hdepth : depth < maxArithNesting) {e : Expr} (he : e.named) (env : Env) :
    (e.Clean acc env → outcome (evalInner acc depth e.render env) = e.denote acc env) ∧
      (outcome (evalInner acc depth e.render env) = e.denote acc env →
        e.Clean acc env ∨ e.powAssigns ∧ ∃ env', e.denote acc env = (.error .negativeExponent,env')) := by
  rw [evalInner_render acc hdepth he env]
  obtain ⟨hclean,hstray⟩ := tracks acc (fun h : e.powAssigns = true => h) env
  refine ⟨hclean,fun heq => ?_⟩
  rcases hstray with h | ⟨env',h⟩ | h
  · exact Or.inl h
  · exact absurd (heq.symm.trans h) (e.plain_denote acc env env')
  · exact Or.inr h
end

def scalars : Access (List (Text × I64)) Text Empty where
  resolve x env := (.ok x,env)
  load x env := (.ok ((env.lookup x).getD 0),env)
  store x v env := (.ok (),(x,v) :: env.filter fun entry => entry.1 ≠ x)
  loadIdent x env := (.ok ((env.lookup x).getD 0),env)

/-- `x = 7 , 2 ** 3 ** 2 - x` -/
theorem evalInner_denotes_sequence :
    outcome (evalInner scalars 0 (binary .comma (.assign .set ['x'] (.const 7))
      (.binary .sub (.binary .pow (.const 2) (.binary .pow (.const 3) (.const 2))) (.var ['x']))).render []) =
        (.ok 505,[(['x'],7)]) := by
  have hclean : (binary .comma (.assign .set ['x'] (.const 7))
      (.binary .sub (.binary .pow (.const 2) (.binary .pow (.const 3) (.const 2))) (.var ['x']))).Clean scalars [] := by
    refine ⟨trivial,fun _ _ _ => ⟨⟨trivial,fun _ _ _ => ?_⟩,fun _ _ _ => trivial⟩⟩
    exact ⟨trivial,fun _ _ _ => trivial⟩
  exact ((evalInner_denotes_iff scalars (by decide) (by decide) []).1 hclean).trans (by decide +kernel)

/-- `0 && ( x /= 2 )` and `x **= - 1` with `x` eight. -/
theorem evalInner_denotes_otherwise :
    (outcome (evalInner scalars 0 (binary .land (.const 0) (.assign .div ['x'] (.const 2))).render [(['x'],8)]) =
        (.error .skipping,[(['x'],8)]) ∧
      (binary .land (.const 0) (.assign .div ['x'] (.const 2))).denote scalars [(['x'],8)] = (.ok 0,[(['x'],8)])) ∧
    (outcome (evalInner scalars 0 (assign .pow ['x'] (.unary .minus (.const 1))).render [(['x'],8)]) =
        (.ok 0,[(['x'],0)]) ∧
      (assign .pow ['x'] (.unary .minus (.const 1))).denote scalars [(['x'],8)] =
        (.error .negativeExponent,[(['x'],8)])) := by
  decide +kernel
end Cherubsh.Expander.Arith
