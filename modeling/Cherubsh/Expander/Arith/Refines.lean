import Cherubsh.Expander.Arith.Expr

/-! # Parsing that follows a meaning

A parser refines an effect when it fails with the same fault, or gives the same value, moves along
the tokens and leaves the variables alike.
-/
namespace Cherubsh.Expander.Arith
open Parse
variable {Env LVal E α β : Type}

theorem Effect.bind_def (p : Effect Env E α) (k : α → Effect Env E β) (env : Env) :
    (p >>= k) env = match p env with
      | (.ok a,env) => k a env
      | (.error e,env) => (.error e,env) := rfl

instance : LawfulMonad (Effect Env E) := LawfulMonad.mk' _
  (by
    intro α p
    funext env
    change Effect.bind p (fun a => Effect.pure (id a)) env = p env
    rw [Effect.bind]
    rcases p env with ⟨_ | _,_⟩ <;> rfl)
  (by intros; rfl)
  (by
    intro α β γ p k l
    funext env
    change Effect.bind (Effect.bind p k) l env = Effect.bind p (fun a => Effect.bind (k a) l) env
    simp only [Effect.bind]
    rcases p env with ⟨_ | _,_⟩ <;> rfl)

def headTok : List Tok → Tok
  | [] => .eof
  | t :: _ => t

@[simp] theorem headTok_cons (t : Tok) (ts : List Tok) : headTok (t :: ts) = t := rfl

def At (E : Type) : Lexer → List Tok → Prop
  | lex, [] => lex.cur = .eof
  | lex, t :: ts => lex.cur = t ∧ ∃ next, lex.advance = (.ok next : Except (ArithError E) Lexer) ∧ At E next ts

theorem At.cur {lex : Lexer} {toks : List Tok} (h : At E lex toks) : lex.cur = headTok toks := by
  cases toks with
  | nil => exact h
  | cons t ts => exact h.1

section
variable {k : Unit → Parse Env E α}

/-- Two outcomes that agree, the first one with the tokens still to come. -/
inductive Agree (rest : List Tok) : Except (ArithError E) (α × Lexer) × Env → Except (Fault E) α × Env → Prop
  | ok {v : α} {lex : Lexer} {env : Env} (h : At E lex rest) : Agree rest (.ok (v,lex),env) (.ok v,env)
  | error {e : ArithError E} {env : Env} : Agree rest (.error e,env) (.error e.fault,env)

def Refines (p : Parse Env E α) (s : Effect Env E α) (toks rest : List Tok) : Prop :=
  ∀ lex, At E lex toks → ∀ env, Agree rest (p lex env) (s env)

namespace Refines
variable {p : Parse Env E α} {s : Effect Env E α} {toks mid rest : List Tok}

theorem bind {k : α → Parse Env E β} {t : α → Effect Env E β} (h : Refines p s toks mid)
    (hk : ∀ v, Refines (k v) (t v) mid rest) : Refines (p >>= k) (s >>= t) toks rest := by
  intro lex hl env
  change Agree rest (Parse.bind p k lex env) (Effect.bind s t env)
  have hp := h lex hl env
  rw [Parse.bind,Effect.bind]
  revert hp
  generalize p lex env = r
  generalize s env = q
  intro hp
  cases hp with
  | ok hat => exact hk _ _ hat _
  | error => exact Agree.error

theorem pure (v : α) (toks : List Tok) : Refines (Pure.pure v : Parse Env E α) (Pure.pure v : Effect Env E α) toks toks :=
  fun _ hl _ => Agree.ok hl

theorem fail {e : ArithError E} {f : Fault E} (h : e.fault = f) (toks rest : List Tok) :
    Refines (fail e : Parse Env E α) (Effect.fail f) toks rest := by
  intro lex _ env
  rw [← h]
  exact Agree.error

theorem access (f : Env → Except E α × Env) (toks : List Tok) :
    Refines (access f) (Effect.access f) toks toks := by
  intro lex hl env
  rw [Parse.access,Effect.access]
  rcases f env with ⟨_ | _,_⟩
  · exact Agree.error (e := ArithError.access _)
  · exact Agree.ok hl

theorem get {k : Lexer → Parse Env E α} (h : ∀ lex, At E lex toks → Refines (k lex) s toks rest) :
    Refines (get >>= k) s toks rest :=
  fun lex hl env => h lex hl lex hl env

theorem advance {t : Tok} (h : Refines (k ()) s toks rest) :
    Refines (advance >>= k) s (t :: toks) rest := by
  intro lex hl env
  obtain ⟨-,next,hn,hat⟩ := hl
  change Agree rest (Parse.bind Parse.advance k lex env) (s env)
  rw [Parse.bind,Parse.advance,hn]
  exact h next hat env

theorem ahead {x : Except (ArithError E) β} {a : β} {k : β → Parse Env E α} (hx : x = .ok a)
    (h : Refines (k a) s toks rest) : Refines (ahead x >>= k) s toks rest := by
  intro lex hl env
  subst hx
  exact h lex hl env

theorem move {x : Except (ArithError E) Lexer} {next : Lexer} (hx : x = .ok next)
    (hat : At E next mid) (h : Refines (k ()) s mid rest) : Refines (move x >>= k) s toks rest := by
  intro lex _ env
  subst hx
  exact h next hat env

theorem rhsExpected {opStart : ℕ} (hne : headTok toks ≠ .eof)
    (h : Refines (k ()) s toks rest) : Refines (arithRhsExpected opStart >>= k) s toks rest := by
  intro lex hl env
  have hc : lex.cur ≠ .eof := hl.cur ▸ hne
  change Agree rest (Parse.bind (arithRhsExpected opStart) k lex env) (s env)
  have hr : (arithRhsExpected opStart : Parse Env E Unit) lex env = (.ok ((),lex),env) := by
    change (if lex.cur = .eof then Parse.fail (.operandExpected lex.src opStart) else Parse.pure ()) lex env = _
    rw [if_neg hc]
    rfl
  rw [Parse.bind,hr]
  exact h lex hl env

theorem check {c : Prop} [Decidable c] {q : Parse Env E α} (hc : ¬c) (h : Refines q s toks rest) :
    Refines (if c then p else q) s toks rest := by
  rw [if_neg hc]
  exact h
end Refines
end

section
variable (acc : Access Env LVal E) (toks : List Tok)

theorem refines_lvalueOf (x : Text) (active : Bool) : Refines (lvalueOf acc x active) (placeOf acc x active) toks toks := by
  cases active with
  | false => exact Refines.pure none toks
  | true => exact (Refines.access (acc.resolve x) toks).bind fun l => Refines.pure (some l) toks

theorem refines_valueOf (l : Option LVal) : Refines (valueOf acc l) (contentOf acc l) toks toks := by
  cases l with
  | none => exact Refines.pure 0 toks
  | some l => exact Refines.access (acc.load l) toks

theorem refines_storeTo (l : Option LVal) (v : I64) : Refines (storeTo acc l v) (putTo acc l v) toks toks := by
  cases l with
  | none => exact Refines.pure () toks
  | some l => exact Refines.access (acc.store l v) toks
end
end Cherubsh.Expander.Arith
