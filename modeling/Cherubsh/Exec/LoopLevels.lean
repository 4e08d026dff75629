import Cherubsh.Expander.Arith.Lexer
import Mathlib.Algebra.Order.Group.Nat

/-! # How many loops `break` and `continue` leave

The two builtins leave a count behind, and every loop that sees it takes one off. Counts are
32-bit numbers, and a run that does not end has no result.
-/
namespace Cherubsh.Exec.LoopLevels
open List
open Expander.Arith (Text parseI64)
variable {k : ℕ} {untils : List Bool}

inductive Unwind where
  | return (status trapStatus : ℤ)
  | break (levels : ℕ)
  | continue (levels : ℕ)
  | abortLine (status : ℤ)
  | exit (status : ℤ)
  deriving DecidableEq

def positionalArgsAfterSeparator : List Text → List Text
  | ['-','-'] :: rest => rest
  | args => args

structure Answer where
  status : ℤ
  request : Option Unwind
  message : Text
  deriving DecidableEq

/-- `break` and `continue`; a count out of range breaks one loop in both. -/
def loopControl (request : ℕ → Unwind) (posix : Bool) (loopDepth : ℕ) (args : List Text) : Answer :=
  if loopDepth = 0 then
    ⟨0,none,if posix then [] else "only meaningful in a \x60for', \x60while', or \x60until' loop"⟩
  else if 1 < (positionalArgsAfterSeparator args).length then ⟨2,none,"too many arguments"⟩
  else
    let arg := (positionalArgsAfterSeparator args).head?
    match arg.elim (some 1) parseI64 with
    | none => ⟨128,some (.exit 128),arg.getD [] ++ ": numeric argument required"⟩
    | some n =>
      if n ≤ 0 then ⟨1,some (.break 1),arg.getD [] ++ ": loop count out of range"⟩
      else ⟨0,some (request (min (n.toNat % 2 ^ 32) loopDepth)),[]⟩

def Break.run : Bool → ℕ → List Text → Answer := loopControl .break
def Continue.run : Bool → ℕ → List Text → Answer := loopControl .continue

section
variable {σ : Type}

structure State (σ : Type) where
  world : σ
  pending : Option Unwind
  loopDepth : ℕ

def State.enter (s : State σ) : State σ := { s with loopDepth := s.loopDepth + 1 }
def State.leave (s : State σ) : State σ := { s with loopDepth := s.loopDepth - 1 }

abbrev Run (σ : Type) := State σ → Option (ℤ × State σ)

def decrement (n : ℕ) : ℕ := (n + (2 ^ 32 - 1)) % 2 ^ 32

def handleLoopUnwind (s : State σ) : Bool × State σ :=
  match s.pending with
  | some (.break n) => (true,{ s with pending := if n = 1 then none else some (.break (decrement n)) })
  | some (.continue n) => if n = 1 then (false,{ s with pending := none }) else (true,{ s with pending := some (.continue (decrement n)) })
  | some _ => (true,s)
  | none => (false,s)

inductive LoopConditionUnwind where
  | proceed | continue | break
  deriving DecidableEq

def handleLoopConditionUnwind (invert : Bool) (s : State σ) : LoopConditionUnwind × State σ :=
  match s.pending with
  | some (.break n) => (.break,{ s with pending := if n = 1 then none else some (.break (decrement n)) })
  | some (.continue n) =>
    if n = 1 then (if invert then .proceed else .continue,{ s with pending := none })
    else (.break,{ s with pending := some (.continue (decrement n)) })
  | some _ => (.break,s)
  | none => (.proceed,s)

def bodyEnd (again : ℤ → Run σ) (r : ℤ × State σ) : Option (ℤ × State σ) :=
  match handleLoopUnwind r.2 with
  | (true,s) => some (r.1,s)
  | (false,s) => again r.1 s

/-- Behind the condition of `while` and, inverted, of `until`. -/
def conditionEnd (invert : Bool) (action : Run σ) (again : ℤ → Run σ) (status : ℤ) (r : ℤ × State σ) : Option (ℤ × State σ) :=
  match handleLoopConditionUnwind invert r.2 with
  | (.continue,s) => again status s
  | (.break,s) => some (status,s)
  | (.proceed,s) =>
    if (if invert then r.1 ≠ 0 else r.1 = 0) then (action s).bind (bodyEnd again) else some (status,s)

def whileRounds (invert : Bool) (test action : Run σ) : ℕ → ℤ → Run σ
  | 0, _, _ => none
  | n + 1, status, s => (test s).bind (conditionEnd invert action (whileRounds invert test action n) status)

/-- Before a round of `for`: the DEBUG trap may skip it, and the variable may refuse the value. -/
inductive Entry where
  | skip | refuse | enter
  deriving DecidableEq

def forItems (assign : Text → State σ → Entry × State σ) (action : Run σ) : List Text → ℤ → Run σ
  | [], status, s => some (status,s)
  | item :: items, status, s =>
    match assign item s with
    | (.skip,s) => forItems assign action items status s
    | (.refuse,s) => some (status,s)
    | (.enter,s) => (action s).bind (bodyEnd (forItems assign action items))

def arithStep (step : State σ → Bool × State σ) (again : ℤ → Run σ) (status : ℤ) : Run σ := fun s =>
  match step s with
  | (false,s) => some (1,s)
  | (true,s) => again status s

def arithRounds (test : Option (State σ → ℤ × State σ)) (step : State σ → Bool × State σ) (action : Run σ) : ℕ → ℤ → Run σ
  | 0, _, _ => none
  | n + 1, status, s =>
    let again := arithStep step (arithRounds test step action n)
    match test with
    | none => (action s).bind (bodyEnd again)
    | some test =>
      let (value,s) := test s
      if value = 0 ∨ s.pending.isSome then some (status,s) else (action s).bind (bodyEnd again)

def inLoop (run : Run σ) : Run σ := fun s => (run s.enter).map fun r => (r.1,r.2.leave)
end

section
variable {σ : Type}

/-- A loop around a command: what follows the command in the same list, and how the loop goes on. -/
inductive Level (σ : Type) where
  | body (rest : Run σ) (again : ℤ → Run σ)
  | condition (invert : Bool) (rest : Run σ) (status : ℤ) (action : Run σ) (again : ℤ → Run σ)
open Level

def listEnd (rest : Run σ) (r : ℤ × State σ) : Option (ℤ × State σ) := if r.2.pending.isSome then some r else rest r.2

def leaveLoop (r : ℤ × State σ) : ℤ × State σ := (r.1,r.2.leave)

namespace Level

def resume : Level σ → ℤ × State σ → Option (ℤ × State σ)
  | body rest again, r => ((listEnd rest r).bind (bodyEnd again)).map leaveLoop
  | condition invert rest status action again, r => ((listEnd rest r).bind (conditionEnd invert action again status)).map leaveLoop

def again : Level σ → ℤ → Run σ
  | body _ again | condition _ _ _ _ again => again

def isUntilCondition : Level σ → Bool
  | condition true _ _ _ _ => true
  | _ => false
end Level

/-- From the innermost loop to the outermost. -/
def resumeAll : List (Level σ) → ℤ × State σ → Option (ℤ × State σ)
  | [], r => some r
  | l :: ls, r => (l.resume r).bind (resumeAll ls)

def thenRest (inner rest : Run σ) : Run σ := fun s => (inner s).bind (listEnd rest)

/-- A loop runs a command in its condition or its body: the level that it then is around it. -/
inductive Enters (inner rest : Run σ) : Run σ → State σ → Level σ → State σ → Prop
  | whileCondition (invert : Bool) (action : Run σ) (n : ℕ) (status : ℤ) (s : State σ) :
      Enters inner rest (whileRounds invert (thenRest inner rest) action (n + 1) status) s
        (condition invert rest status action (whileRounds invert (thenRest inner rest) action n)) s
  | whileBody {invert : Bool} {test : Run σ} (n : ℕ) (status : ℤ) {s s₁ s₂ : State σ} {value : ℤ} (ht : test s = some (value,s₁))
      (hp : handleLoopConditionUnwind invert s₁ = (.proceed,s₂)) (hok : if invert then value ≠ 0 else value = 0) :
      Enters inner rest (whileRounds invert test (thenRest inner rest) (n + 1) status) s
        (body rest (whileRounds invert test (thenRest inner rest) n)) s₂
  | forBody {assign : Text → State σ → Entry × State σ} {item : Text} (items : List Text) (status : ℤ) {s s₁ : State σ}
      (ha : assign item s = (.enter,s₁)) : Enters inner rest (forItems assign (thenRest inner rest) (item :: items) status) s
        (body rest (forItems assign (thenRest inner rest) items)) s₁
  | arithBody {test : State σ → ℤ × State σ} (step : State σ → Bool × State σ) (n : ℕ) (status : ℤ) {s : State σ}
      (hv : (test s).1 ≠ 0) (hp : (test s).2.pending = none) :
      Enters inner rest (arithRounds (some test) step (thenRest inner rest) (n + 1) status) s
        (body rest (arithStep step (arithRounds (some test) step (thenRest inner rest) n))) (test s).2
  | endlessBody (step : State σ → Bool × State σ) (n : ℕ) (status : ℤ) (s : State σ) :
      Enters inner rest (arithRounds none step (thenRest inner rest) (n + 1) status) s
        (body rest (arithStep step (arithRounds none step (thenRest inner rest) n))) s

/-- Loops around a command, from the innermost to the outermost. -/
inductive Nest : List (Level σ) → Run σ → State σ → Run σ → State σ → Prop
  | nil (run : Run σ) (s : State σ) : Nest [] run s run s
  | cons {inner rest loop outer : Run σ} {s t u : State σ} {l : Level σ} {ls : List (Level σ)}
      (h : Enters inner rest loop t.enter l s) (hls : Nest ls (inLoop loop) t outer u) : Nest (l :: ls) inner s outer u

theorem Enters.run {inner rest loop : Run σ} {s t : State σ} {l : Level σ} (h : Enters inner rest loop t l s) :
    (loop t).map leaveLoop = (inner s).bind l.resume := by
  cases h with
  | whileCondition => cases hi : inner s <;> simp [whileRounds,thenRest,hi,resume]
  | whileBody n status ht hp hok => cases hi : inner s <;> simp [whileRounds,ht,conditionEnd,hp,hok,thenRest,hi,resume]
  | forBody items status ha => cases hi : inner s <;> simp [forItems,ha,thenRest,hi,resume]
  | arithBody step n status hv hp => cases hi : inner (Prod.snd _) <;> simp [arithRounds,hv,hp,thenRest,hi,resume]
  | endlessBody => cases hi : inner s <;> simp [arithRounds,thenRest,hi,resume]

/-- A nest of loops does with what its command leaves what its levels do. -/
theorem Nest.run {ls : List (Level σ)} {inner outer : Run σ} {s u : State σ} (h : Nest ls inner s outer u) :
    outer u = (inner s).bind (resumeAll ls) := by
  induction h with
  | nil run s => cases run s <;> rfl
  | cons he _ ih =>
    rw [ih,show inLoop _ _ = _ from he.run,Option.bind_assoc]
    rfl

def Unwind.next : Unwind → Option Unwind
  | .break n => if n = 1 then none else some (.break (decrement n))
  | .continue n => some (.continue (decrement n))
  | u => some u

theorem resume_of_pending (l : Level σ) {r : ℤ × State σ} {u : Unwind} (hr : r.2.pending = some u) (hu : u ≠ .continue 1) :
    ∃ status, l.resume r = some (status,State.leave { r.2 with pending := u.next }) := by
  obtain ⟨status,world,pending,depth⟩ := r
  obtain rfl : pending = some u := hr
  cases l <;> cases u <;>
    simp_all [resume,listEnd,bodyEnd,conditionEnd,handleLoopUnwind,handleLoopConditionUnwind,Unwind.next,leaveLoop]

theorem resume_continue_one (l : Level σ) {r : ℤ × State σ} (hr : r.2.pending = some (.continue 1)) (hl : l.isUntilCondition = false) :
    ∃ status, l.resume r = (l.again status { r.2 with pending := none }).map leaveLoop := by
  cases l with
  | body rest again => exact ⟨r.1,by simp [Level.resume,listEnd,bodyEnd,handleLoopUnwind,hr,Level.again]⟩
  | condition invert rest status action again =>
    cases invert with
    | false => exact ⟨status,by simp [Level.resume,listEnd,conditionEnd,handleLoopConditionUnwind,hr,Level.again]⟩
    | true => cases hl

theorem decrement_eq {n : ℕ} (h : 1 ≤ n) (hn : n < 2 ^ 32) : decrement n = n - 1 := by
  unfold decrement
  omega

theorem resumeAll_break (ls : List (Level σ)) (hk : 1 ≤ k) (hk32 : k < 2 ^ 32) (hle : k ≤ ls.length) (status : ℤ) (s : State σ) :
    ∃ status', resumeAll ls (status,{ s with pending := some (.break k) }) =
      resumeAll (ls.drop k) (status',{ s with pending := none, loopDepth := s.loopDepth - k }) := by
  induction ls generalizing k status s with
  | nil => simp only [length_nil] at hle; omega
  | cons l ls ih =>
    obtain ⟨status₁,hl⟩ := resume_of_pending l (r := (status,{ s with pending := some (.break k) })) rfl (by simp)
    obtain rfl | hk1 := hk.eq_or_lt
    · exact ⟨status₁,by simp [resumeAll,hl,Unwind.next,State.leave]⟩
    · obtain ⟨j,rfl⟩ := Nat.exists_eq_add_of_le' hk
      have hne : (Unwind.break (j + 1)).next = some (.break j) := by
        rw [Unwind.next,if_neg hk1.ne',decrement_eq hk hk32,Nat.add_sub_cancel]
      obtain ⟨status₂,hr⟩ := ih (k := j) (by omega) (by omega) (by simpa using hle) status₁ { s with loopDepth := s.loopDepth - 1 }
      refine ⟨status₂,?_⟩
      simp only [resumeAll,hl,hne,State.leave,Option.bind_some,hr,drop_succ_cons]
      rw [Nat.sub_sub,Nat.add_comm 1 j]

theorem resumeAll_continue (ls : List (Level σ)) (hk : 1 ≤ k) (hk32 : k < 2 ^ 32) {l : Level σ} (hg : ls[k - 1]? = some l)
    (status : ℤ) (s : State σ) : ∃ status', resumeAll ls (status,{ s with pending := some (.continue k) }) =
      (l.resume (status',{ s with pending := some (.continue 1), loopDepth := s.loopDepth - (k - 1) })).bind (resumeAll (ls.drop k)) := by
  induction ls generalizing k status s with
  | nil => simp at hg
  | cons l₁ ls ih =>
    obtain ⟨j,rfl⟩ := Nat.exists_eq_add_of_le' hk
    obtain _ | i := j
    · obtain rfl : l₁ = l := by simpa using hg
      exact ⟨status,rfl⟩
    · obtain ⟨status₁,hl⟩ := resume_of_pending l₁ (r := (status,{ s with pending := some (.continue (i + 2)) })) rfl (by simp)
      have hne : (Unwind.continue (i + 2)).next = some (.continue (i + 1)) := by
        rw [Unwind.next,decrement_eq hk hk32]
        rfl
      obtain ⟨status₂,hr⟩ := ih (k := i + 1) (by omega) (by omega) (by simpa using hg) status₁ { s with loopDepth := s.loopDepth - 1 }
      refine ⟨status₂,?_⟩
      simp only [resumeAll,hl,hne,State.leave,Option.bind_some,hr,drop_succ_cons]
      rw [Nat.sub_sub]
      congr 5
      omega

theorem resumeAll_stuck (ls : List (Level σ)) {u : ℕ → Unwind} (hu : u = .break ∨ u = .continue) (hk32 : k < 2 ^ 32)
    (hk : k = 0 ∨ ls.length < k) (hle : ls.length < 2 ^ 32) (status : ℤ) (s : State σ) :
    ∃ r, resumeAll ls (status,{ s with pending := some (u k) }) = some r ∧ r.2.pending.isSome := by
  induction ls generalizing k status s with
  | nil => exact ⟨_,rfl,rfl⟩
  | cons l ls ih =>
    simp only [length_cons] at hk hle
    have hk1 : k ≠ 1 := by omega
    have hne : u k ≠ .continue 1 := by rcases hu with rfl | rfl <;> simp [hk1]
    obtain ⟨status₁,hl⟩ := resume_of_pending l (r := (status,{ s with pending := some (u k) })) rfl hne
    have hnx : (u k).next = some (u (decrement k)) := by rcases hu with rfl | rfl <;> simp [Unwind.next,hk1]
    have hd : decrement k < 2 ^ 32 ∧ (decrement k = 0 ∨ ls.length < decrement k) := by
      unfold decrement
      omega
    obtain ⟨r,hr,hp⟩ := ih hd.1 hd.2 (by omega) status₁ { s with loopDepth := s.loopDepth - 1 }
    exact ⟨r,by simpa [resumeAll,hl,hnx,State.leave] using hr,hp⟩
end

section
def countOf (args : List Text) : Option ℤ :=
  if 1 < (positionalArgsAfterSeparator args).length then none else (positionalArgsAfterSeparator args).head?.elim (some 1) parseI64

def obey {σ : Type} (a : Answer) (s : State σ) : ℤ × State σ := (a.status,{ s with pending := a.request <|> s.pending })

/-- The innermost loops are left, as many as asked for, and the others go on. -/
def BreakLaw (posix : Bool) (args : List Text) (n : ℤ) (d : ℕ) : Prop :=
  ∀ (σ : Type) (ls : List (Level σ)) (s : State σ), ls.length = d → s.pending = none → s.loopDepth = d →
    ∃ status, resumeAll ls (obey (Break.run posix d args) s) =
      resumeAll (ls.drop (min n.toNat d)) (status,{ s with loopDepth := d - min n.toNat d })

/-- The loop asked for begins its next round; the second list marks conditions of an `until`. -/
def ContinueLaw (posix : Bool) (args : List Text) (n : ℤ) (untils : List Bool) : Prop :=
  ∀ (σ : Type) (ls : List (Level σ)) (s : State σ) (l : Level σ), ls.map Level.isUntilCondition = untils → s.pending = none →
    s.loopDepth = untils.length → ls[min n.toNat untils.length - 1]? = some l →
    ∃ status, resumeAll ls (obey (Continue.run posix untils.length args) s) =
      ((l.again status { s with loopDepth := untils.length - (min n.toNat untils.length - 1) }).map leaveLoop).bind
        (resumeAll (ls.drop (min n.toNat untils.length)))

variable {posix : Bool} {args : List Text} {n : ℤ} {d : ℕ}

theorem loopControl_of_count (request : ℕ → Unwind) (hcount : countOf args = some n) (hn : 1 ≤ n) (hd : 1 ≤ d) :
    loopControl request posix d args = ⟨0,some (request (min (n.toNat % 2 ^ 32) d)),[]⟩ := by
  unfold countOf at hcount
  split_ifs at hcount with hm
  simp only [loopControl,if_neg (Nat.one_le_iff_ne_zero.mp hd),if_neg hm,hcount,if_neg (show ¬n ≤ 0 by omega)]

/-- A level that counts: one for a next round, two for the rest of a list. -/
def probe (untilCondition : Bool) : Level ℕ :=
  let again (status : ℤ) (s : State ℕ) := some (status,{ s with world := s.world + 1 })
  let rest (s : State ℕ) := some ((0 : ℤ),{ s with world := s.world + 2 })
  if untilCondition then .condition true rest 0 (fun _ => none) again else .body rest again

def weight (untils : List Bool) : ℕ := (untils.map fun u => if u then 2 else 3).sum

theorem isUntilCondition_probes (untils : List Bool) : (untils.map probe).map Level.isUntilCondition = untils := by
  induction untils with
  | nil => rfl
  | cons u untils ih => cases u <;> simp_all [probe,Level.isUntilCondition]

theorem resumeAll_probes (untils : List Bool) (status : ℤ) (s : State ℕ) (hs : s.pending = none) :
    ∃ r, resumeAll (untils.map probe) (status,s) = some r ∧ r.2.world = s.world + weight untils ∧ r.2.pending = none := by
  induction untils generalizing status s with
  | nil => exact ⟨_,rfl,rfl,hs⟩
  | cons u untils ih =>
    have hst : ∃ status', (probe u).resume (status,s) =
        some (status',{ s with world := s.world + if u then 2 else 3, loopDepth := s.loopDepth - 1 }) := by
      cases u <;> simp [probe,Level.resume,listEnd,bodyEnd,conditionEnd,handleLoopUnwind,handleLoopConditionUnwind,hs,leaveLoop,
        State.leave]
    obtain ⟨status',hst⟩ := hst
    obtain ⟨r,hr,hw,hp⟩ := ih status' { s with world := s.world + if u then 2 else 3, loopDepth := s.loopDepth - 1 } hs
    refine ⟨r,by simpa [resumeAll,hst] using hr,?_,hp⟩
    rw [hw]
    simp [weight,Nat.add_assoc]

theorem weight_pos (h : untils ≠ []) : 2 ≤ weight untils := by
  obtain ⟨u,rest,rfl⟩ := exists_cons_of_ne_nil h
  have hc : weight (u :: rest) = (if u then 2 else 3) + weight rest := rfl
  rw [hc]
  split <;> omega

theorem world_of_continue (hk : 1 ≤ k) (hk32 : k < 2 ^ 32) {u : Bool} (hu : untils[k - 1]? = some u)
    {s : State ℕ} {r : ℤ × State ℕ} (hr : resumeAll (untils.map probe) (0,{ s with pending := some (.continue k) }) = some r) :
    r.2.world = (s.world + if u then 0 else 1) + weight (untils.drop k) := by
  obtain ⟨status,hru⟩ := resumeAll_continue (untils.map probe) hk hk32 (l := probe u) (by simp only [List.getElem?_map,hu,Option.map_some]) 0 s
  rw [hr,← map_drop] at hru
  obtain ⟨⟨status',s'⟩,hre,hrs⟩ := Option.bind_eq_some_iff.mp hru.symm
  have hs' : s'.world = (s.world + if u then 0 else 1) ∧ s'.pending = none := by
    cases u with
    | false =>
      cases hre
      exact ⟨rfl,rfl⟩
    | true =>
      by_cases hz : status = 0
      · simp [probe,Level.resume,listEnd,conditionEnd,handleLoopConditionUnwind,leaveLoop,hz] at hre
        obtain ⟨-,rfl⟩ := hre
        exact ⟨rfl,rfl⟩
      · simp [probe,Level.resume,listEnd,conditionEnd,handleLoopConditionUnwind,hz] at hre
  obtain ⟨r',hr',hw,-⟩ := resumeAll_probes (untils.drop k) status' s' hs'.2
  cases hr'.symm.trans hrs
  rw [hw,hs'.1]

/-- What is left of the count in 32 bits still reaches as far. -/
def Fits (n : ℤ) (d : ℕ) : Prop := n < 2 ^ 32 ∨ d ≤ n.toNat % 2 ^ 32

theorem min_mod_of_fits (hn : 1 ≤ n) (hd32 : d < 2 ^ 32) (h : Fits n d) : min (n.toNat % 2 ^ 32) d = min n.toNat d := by
  unfold Fits at h
  omega

theorem min_mod_of_not_fits (hd32 : d < 2 ^ 32) (h : ¬Fits n d) :
    min (n.toNat % 2 ^ 32) d = n.toNat % 2 ^ 32 ∧ n.toNat % 2 ^ 32 < d ∧ min n.toNat d = d := by
  unfold Fits at h
  omega

section
variable (hcount : countOf args = some n) (hn : 1 ≤ n)
include hcount hn

theorem obey_control {σ : Type} (request : ℕ → Unwind) (hd : 1 ≤ d) (s : State σ) :
    obey (loopControl request posix d args) s = (0,{ s with pending := some (request (min (n.toNat % 2 ^ 32) d)) }) := by
  rw [loopControl_of_count request hcount hn hd]
  rfl

theorem breakLaw_iff (hd : 1 ≤ d) (hd32 : d < 2 ^ 32) : BreakLaw posix args n d ↔ Fits n d := by
  constructor
  · intro hla
    by_contra hf
    obtain ⟨hm,hlt,hmi⟩ := min_mod_of_not_fits hd32 hf
    set untils := List.replicate d false
    have hl : (untils.map probe).length = d := by simp [untils]
    obtain ⟨status,heq⟩ := hla ℕ (untils.map probe) ⟨0,none,d⟩ hl rfl rfl
    rw [Break.run,obey_control hcount hn .break hd,hm,hmi,drop_eq_nil_of_le hl.le] at heq
    obtain hz | hpo := Nat.eq_zero_or_pos (n.toNat % 2 ^ 32)
    · obtain ⟨r,hr,hp⟩ := resumeAll_stuck (untils.map probe) (.inl rfl) (Nat.mod_lt n.toNat (by decide)) (.inl hz)
        (hl.trans_lt hd32) 0 ⟨0,none,d⟩
      cases hr.symm.trans heq
      cases hp
    · obtain ⟨status',hru⟩ := resumeAll_break (untils.map probe) hpo (Nat.mod_lt n.toNat (by decide)) (hl.symm ▸ hlt.le) 0
        (⟨0,none,d⟩ : State ℕ)
      rw [← map_drop] at hru
      obtain ⟨r,hr,hw,-⟩ := resumeAll_probes (untils.drop (n.toNat % 2 ^ 32)) status' ⟨0,none,d - n.toNat % 2 ^ 32⟩ rfl
      cases (hr.symm.trans hru.symm).trans heq
      have hne : untils.drop (n.toNat % 2 ^ 32) ≠ [] := ne_nil_of_length_pos (by simpa [untils] using Nat.sub_pos_of_lt hlt)
      have := weight_pos hne
      simp only at hw
      omega
  · intro hf σ ls s hls hs hde
    rw [Break.run,obey_control hcount hn .break hd,min_mod_of_fits hn hd32 hf]
    obtain ⟨status,hru⟩ := resumeAll_break ls (k := min n.toNat d) (by omega) (by omega) (by omega) 0 s
    refine ⟨status,hru.trans ?_⟩
    rw [hs,hde]

theorem continueLaw_iff (untils : List Bool) (hd : 1 ≤ untils.length) (hd32 : untils.length < 2 ^ 32) :
    ContinueLaw posix args n untils ↔ Fits n untils.length ∧ untils[min n.toNat untils.length - 1]? = some false := by
  set d := untils.length with hdf
  have hg : ∀ {k : ℕ}, 1 ≤ k → k ≤ d → ∃ u, untils[k - 1]? = some u := fun hk hkd =>
    ⟨_,List.getElem?_eq_getElem (by omega)⟩
  constructor
  · intro hla
    obtain ⟨u,hu⟩ := hg (k := min n.toNat d) (by omega) (by omega)
    obtain ⟨status,heq⟩ := hla ℕ (untils.map probe) ⟨0,none,d⟩ (probe u) (isUntilCondition_probes untils) rfl rfl
      (by simp only [← hdf,List.getElem?_map,hu,Option.map_some])
    have ha : (((probe u).again status ⟨0,none,d - (min n.toNat d - 1)⟩).map leaveLoop).bind
        (resumeAll ((untils.map probe).drop (min n.toNat d))) =
          resumeAll ((untils.drop (min n.toNat d)).map probe) (status,⟨1,none,d - (min n.toNat d - 1) - 1⟩) := by
      rw [map_drop]
      cases u <;> rfl
    obtain ⟨r,hr,hw,hno⟩ := resumeAll_probes (untils.drop (min n.toNat d)) status ⟨1,none,d - (min n.toNat d - 1) - 1⟩ rfl
    rw [Continue.run,obey_control hcount hn .continue hd] at heq
    have hre := heq.trans (ha.trans hr)
    have hf : Fits n d := by
      by_contra hf
      obtain ⟨hm,hlt,hmi⟩ := min_mod_of_not_fits hd32 hf
      rw [hm] at hre
      obtain hz | hpo := Nat.eq_zero_or_pos (n.toNat % 2 ^ 32)
      · obtain ⟨r',hr',hp⟩ := resumeAll_stuck (untils.map probe) (.inr rfl) (Nat.mod_lt n.toNat (by decide)) (.inl hz)
          (by simpa using hd32) 0 ⟨0,none,d⟩
        cases hr'.symm.trans hre
        simp [hno] at hp
      · obtain ⟨u',hu'⟩ := hg hpo hlt.le
        have hw' := world_of_continue hpo (Nat.mod_lt n.toNat (by decide)) hu' hre
        have hne : untils.drop (n.toNat % 2 ^ 32) ≠ [] := ne_nil_of_length_pos (by simpa using Nat.sub_pos_of_lt hlt)
        have hal : weight (untils.drop (min n.toNat d)) = 0 := by rw [hmi,hdf,drop_length]; rfl
        have := weight_pos hne
        simp only at hw hw'
        omega
    refine ⟨hf,?_⟩
    rw [min_mod_of_fits hn hd32 hf] at hre
    have hw' := world_of_continue (by omega) (by omega) hu hre
    cases u with
    | false => exact hu
    | true => simp only [if_true] at hw hw'; omega
  · rintro ⟨hf,hb⟩ σ ls s l hun hs hde hl
    rw [← hdf] at hde hl ⊢
    rw [Continue.run,obey_control hcount hn .continue hd,min_mod_of_fits hn hd32 hf]
    have hut : l.isUntilCondition = false := by
      rw [← hun,List.getElem?_map,hl] at hb
      exact Option.some.inj hb
    obtain ⟨status,hru⟩ := resumeAll_continue ls (k := min n.toNat d) (by omega) (by omega) hl 0 s
    obtain ⟨status',hl'⟩ := resume_continue_one l
      (r := (status,{ s with pending := some (.continue 1), loopDepth := s.loopDepth - (min n.toNat d - 1) })) rfl hut
    refine ⟨status',hru.trans ?_⟩
    rw [hl',hde,hs]
end

/-- For a count that is accepted and loops that a 32-bit number counts; the levels of the laws are those
of the nests of loops. -/
theorem control_exact_iff (hcount : countOf args = some n) (hn : 1 ≤ n) (hd : 1 ≤ d) (hd32 : d < 2 ^ 32) :
    (BreakLaw posix args n d ↔ Fits n d) ∧
      (∀ untils : List Bool, untils.length = d →
        (ContinueLaw posix args n untils ↔ Fits n d ∧ untils[min n.toNat d - 1]? = some false)) ∧
      ∀ {σ : Type} {ls : List (Level σ)} {inner outer : Run σ} {s u : State σ}, Nest ls inner s outer u →
        outer u = (inner s).bind (resumeAll ls) := by
  refine ⟨breakLaw_iff hcount hn hd hd32,?_,Nest.run⟩
  rintro untils rfl
  exact continueLaw_iff hcount hn untils hd hd32

theorem control_exact_two_of_three : BreakLaw false ["2"] 2 3 ∧ ContinueLaw false ["2"] 2 [false,false,true] := by
  have h := @control_exact_iff false ["2"] 2 3 (by decide) (by decide) (by decide) (by decide)
  exact ⟨h.1.mpr (.inl (by decide)),(h.2.1 [false,false,true] rfl).mpr ⟨.inl (by decide),rfl⟩⟩

/-- `break 4294967296` asks for no loop. -/
theorem break_count_wraps :
    countOf ["4294967296"] = some 4294967296 ∧ ¬BreakLaw false ["4294967296"] 4294967296 1 := by
  have hcount : countOf ["4294967296"] = some 4294967296 := by decide
  refine ⟨hcount,fun h => ?_⟩
  obtain h | h := (breakLaw_iff hcount (by decide) (by decide) (by decide)).mp h
  · exact absurd h (by decide)
  · exact absurd h (by decide)
end
end Cherubsh.Exec.LoopLevels
