import Cherubsh.Exec.Errexit
import Cherubsh.Expander.PatternText

/-! # Which bodies of a `case` run

Expansions and commands are arbitrary functions of the state. A clause may have no pattern at all,
as the parser lets it.
-/
namespace Cherubsh.Exec.CaseClauses
open Errexit (ClauseEnd)
open Cherubsh.Expander.Pattern Utf8

variable {W C S : Type}

structure PatternList (W C : Type) where
  patterns : List W
  action : Option C
  flags : ClauseEnd

structure Shell (W C S : Type) where
  text : W → Bytes
  /-- An error holds the status the shell exits with, if it does. -/
  tryExpandOne : W → S → Except (Option ℤ) Bytes × S
  exit : ℤ → S → S
  expandCasePattern : W → S → Option Bytes × S
  globOpts : S → GlobOpts
  executeCommand : C → S → ℤ × S

variable (sh : Shell W C S) (value : Bytes)

def anyMatches (opts : GlobOpts) : List W → S → Except ℤ Bool × S
  | [],s => (.ok false,s)
  | pat :: rest,s =>
    match sh.expandCasePattern pat s with
    | (none,s) => (.error 1,s)
    | (some expanded,s) => if matchTokens opts (parse expanded opts) value then (.ok true,s) else anyMatches opts rest s

def patternListMatches (clause : PatternList W C) (s : S) : Except ℤ Bool × S :=
  anyMatches sh value (sh.globOpts s) clause.patterns s

def runAction (clause : PatternList W C) (status : ℤ) (s : S) : ℤ × S :=
  match clause.action with
  | some action => sh.executeCommand action s
  | none => (status,s)

/-- The clauses from one on; `matched` says that the one before fell through. -/
def runClauses : List (PatternList W C) → Bool → ℤ → S → ℤ × S
  | [],_,status,s => (status,s)
  | clause :: rest,true,status,s =>
    let (status,s) := runAction sh clause status s
    if clause.flags = .fallthrough then runClauses rest true status s else (status,s)
  | clause :: rest,false,status,s =>
    match patternListMatches sh value clause s with
    | (.error status,s) => (status,s)
    | (.ok false,s) => runClauses rest false status s
    | (.ok true,s) =>
      let (status,s) := runAction sh clause status s
      match clause.flags with
      | .fallthrough => runClauses rest true status s
      | .testNext => runClauses rest false status s
      | .leave => (status,s)

/-- The reference: how a clause was entered makes no difference to what comes behind its body. -/
def reference : List (PatternList W C) → Bool → ℤ → S → ℤ × S
  | [],_,status,s => (status,s)
  | clause :: rest,untested,status,s =>
    match if untested then (.ok true,s) else patternListMatches sh value clause s with
    | (.error status,s) => (status,s)
    | (.ok false,s) => reference rest false status s
    | (.ok true,s) =>
      let (status,s) := runAction sh clause status s
      match clause.flags with
      | .leave => (status,s)
      | .fallthrough => reference rest true status s
      | .testNext => reference rest false status s

def caseWith (clauses : Bytes → S → ℤ × S) (word : W) (s : S) : ℤ × S :=
  match sh.tryExpandOne word s with
  | (.ok value,s) => clauses value s
  | (.error (some status),s) => (status,sh.exit status s)
  | (.error none,s) => clauses (sh.text word) s

def executeCase (word : W) (clauses : List (PatternList W C)) : S → ℤ × S :=
  caseWith sh (fun value => runClauses sh value clauses false 0) word

def referenceCase (word : W) (clauses : List (PatternList W C)) : S → ℤ × S :=
  caseWith sh (fun value => reference sh value clauses false 0) word

/-- No clause that can be fallen into ends in `;;&`, unless no clause behind it has a pattern. -/
def Regular : Prop → List (PatternList W C) → Prop
  | _,[] => True
  | fallenInto,clause :: rest =>
    (fallenInto → clause.flags = .testNext → ∀ other ∈ rest, other.patterns = []) ∧
      Regular (clause.flags = .fallthrough ∧ (fallenInto ∨ clause.patterns ≠ [])) rest

section
variable {clauses : List (PatternList W C)} (status : ℤ) (s : S)

theorem reference_of_no_patterns (h : ∀ clause ∈ clauses, clause.patterns = []) :
    reference sh value clauses false status s = (status,s) := by
  induction clauses with
  | nil => rfl
  | cons clause rest ih =>
    have hn : patternListMatches sh value clause s = (.ok false,s) := by
      simp [patternListMatches,anyMatches,h clause List.mem_cons_self]
    simpa [reference,hn] using ih fun other ho => h other (List.mem_cons_of_mem _ ho)

theorem patterns_of_matches {clause : PatternList W C} {s' : S}
    (h : patternListMatches sh value clause s = (.ok true,s')) : clause.patterns ≠ [] := by
  intro hn
  simp [patternListMatches,hn,anyMatches] at h

theorem runClauses_of_regular {fallenInto : Prop} (h : Regular fallenInto clauses) (matched : Bool)
    (hm : matched = true → fallenInto) :
    runClauses sh value clauses matched status s = reference sh value clauses matched status s := by
  induction clauses generalizing fallenInto matched status s with
  | nil => cases matched <;> rfl
  | cons clause rest ih =>
    obtain ⟨hh,hr⟩ := h
    have hn (status s) := ih status s hr false nofun
    cases matched with
    | true =>
      simp only [runClauses,reference,if_true]
      cases hf : clause.flags with
      | leave => rfl
      | fallthrough => simpa using ih _ _ hr true fun _ => ⟨hf,.inl (hm rfl)⟩
      | testNext =>
        exact (reference_of_no_patterns sh value _ _ (hh (hm rfl) hf)).symm
    | false =>
      rw [runClauses,reference,if_neg Bool.false_ne_true]
      split
      · rfl
      · exact hn _ _
      · next hfo =>
        have hfe (status s) := ih status s hr true
        cases hf : clause.flags with
        | leave => rfl
        | fallthrough => exact hfe _ _ fun _ => ⟨hf,.inr (patterns_of_matches sh value _ hfo)⟩
        | testNext => exact hn _ _
end

section
/-- Patterns expanded from `n + 1` on fail to match `n` times and match then; the one behind that
is an error. -/
def counting : Shell W C ℕ where
  text _ := []
  tryExpandOne _ n := (.ok [],n)
  exit _ n := n
  expandCasePattern _ n := (if n = 0 then none else some (if n = 1 then [] else [0x61]),n - 1)
  globOpts _ := ⟨false,false,false⟩
  executeCommand _ n := (0,n)

variable {clause : PatternList W C} {clauses : List (PatternList W C)} (n : ℕ)

@[simp] theorem runAction_counting : runAction counting clause 0 n = (0,n) := by
  cases h : clause.action <;> simp [runAction,counting,h]

theorem counting_error (h : clause.patterns ≠ []) : patternListMatches counting [] clause 0 = (.error 1,0) := by
  obtain ⟨pat,rest,hp⟩ := List.exists_cons_of_ne_nil h
  simp [patternListMatches,hp,anyMatches,counting]

theorem counting_match (h : clause.patterns ≠ []) : patternListMatches counting [] clause 1 = (.ok true,0) := by
  obtain ⟨pat,rest,hp⟩ := List.exists_cons_of_ne_nil h
  simp +decide [patternListMatches,hp,anyMatches,counting]

theorem counting_skip :
    patternListMatches counting [] clause (n + clause.patterns.length + 1) = (.ok false,n + 1) := by
  unfold patternListMatches
  induction clause.patterns with
  | nil => rfl
  | cons pat rest ih =>
    have hs : n + (pat :: rest).length + 1 = n + rest.length + 1 + 1 := by simp; omega
    rw [hs]
    simpa +decide [anyMatches,counting] using ih

theorem reference_counting (h : ∃ clause ∈ clauses, clause.patterns ≠ []) :
    reference counting [] clauses false 0 0 = (1,0) := by
  induction clauses with
  | nil => simp at h
  | cons clause rest ih =>
    by_cases hn : clause.patterns = []
    · have hs : patternListMatches counting [] clause 0 = (.ok false,0) := by
        simp [patternListMatches,hn,anyMatches]
      simpa [reference,hs] using ih (by simpa [hn] using h)
    · simp [reference,counting_error hn]

theorem differ_of_not_regular {fallenInto : Prop} (h : ¬ Regular fallenInto clauses) :
    (fallenInto ∧ runClauses counting [] clauses true 0 0 ≠ reference counting [] clauses true 0 0) ∨
      ∃ n, runClauses counting [] clauses false 0 (n + 1) ≠ reference counting [] clauses false 0 (n + 1) := by
  induction clauses generalizing fallenInto with
  | nil => exact absurd trivial h
  | cons clause rest ih =>
    by_cases hh : fallenInto → clause.flags = .testNext → ∀ other ∈ rest, other.patterns = []
    · rcases ih fun hr => h ⟨hh,hr⟩ with ⟨⟨hf,hi | hp⟩,hne⟩ | ⟨n,hne⟩
      · exact .inl ⟨hi,by simpa [runClauses,reference,hf] using hne⟩
      · exact .inr ⟨0,by simpa [runClauses,reference,counting_match hp,hf] using hne⟩
      · exact .inr ⟨n + clause.patterns.length,by simpa [runClauses,reference,counting_skip] using hne⟩
    · push Not at hh
      obtain ⟨hi,hf,ho⟩ := hh
      exact .inl ⟨hi,by simp [runClauses,reference,hf,reference_counting ho]⟩
end

/-- Bodies, status and state are those of the reference exactly when no clause that can be fallen
into ends in `;;&` before a clause with a pattern. -/
theorem executeCase_eq_reference_iff (word : W) (clauses : List (PatternList W C)) :
    (∀ (S : Type) (sh : Shell W C S) (s : S), executeCase sh word clauses s = referenceCase sh word clauses s) ↔
      Regular False clauses := by
  constructor
  · intro hagree
    by_contra hirregular
    rcases differ_of_not_regular hirregular with ⟨hfalse,_⟩ | ⟨n,hne⟩
    · exact hfalse
    · exact hne (hagree ℕ counting (n + 1))
  · intro hregular S sh s
    have hclauses : (fun value => runClauses sh value clauses false 0) = fun value => reference sh value clauses false 0 :=
      funext fun value => funext fun s => runClauses_of_regular sh value 0 s hregular false nofun
    rw [executeCase,referenceCase,hclauses]

/-- `case a in a) 1 ;& b) 2 ;;& a) 3 ;; esac`, where a command adds its number to the state. -/
theorem executeCase_stops_behind_fallthrough :
    let sh : Shell Bytes ℕ (List ℕ) := ⟨id,fun w s => (.ok w,s),fun _ s => s,fun p s => (some p,s),
      fun _ => ⟨false,false,false⟩,fun c s => (0,s ++ [c])⟩
    let clauses : List (PatternList Bytes ℕ) :=
      [⟨[[0x61]],some 1,.fallthrough⟩,⟨[[0x62]],some 2,.testNext⟩,⟨[[0x61]],some 3,.leave⟩]
    executeCase sh [0x61] clauses [] = (0,[1,2]) ∧ referenceCase sh [0x61] clauses [] = (0,[1,2,3]) := by
  decide

end Cherubsh.Exec.CaseClauses
