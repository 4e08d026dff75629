import Cherubsh.Expander.PatternText

/-! # Removing, replacing and changing what a pattern matches

`${v#p}` and `${v%p}`, `${v/p/r}`, `${v^p}` and their variants, on the bytes of a value. A
pattern without special bytes is a literal and is searched for as such.
-/
namespace Cherubsh.Expander.Pattern
open Utf8

section
variable (opts : GlobOpts)

def litByte : Tok → Option UInt8
  | .lit b => some b
  | _ => none

def literalPattern (pat : Bytes) : Option Bytes :=
  if hasGlobMeta pat opts then none else (parse pat opts).mapM litByte

def literalEq (a b : Bytes) : Bool :=
  if a.length ≠ b.length then false
  else if opts.nocaseglob then (a.zip b).all fun p => toAsciiLowercase p.1 = toAsciiLowercase p.2
  else a = b

def literalStartsWith (s literal : Bytes) : Bool :=
  decide (literal.length ≤ s.length) && literalEq opts (s.take literal.length) literal

def literalEndsWith (s literal : Bytes) : Bool :=
  decide (literal.length ≤ s.length) && literalEq opts (s.drop (s.length - literal.length)) literal

def findLiteral (literal : Bytes) : Bytes → Option ℕ
  | [] => none
  | c :: rest =>
    if literalStartsWith opts (c :: rest) literal then some 0 else (findLiteral literal rest).map (· + 1)
end

def removePattern (s pat : Bytes) (prefixed longest : Bool) (opts : GlobOpts) : Bytes :=
  match literalPattern opts pat with
  | some literal =>
    if literal = [] then s
    else if prefixed then if literalStartsWith opts s literal then s.drop literal.length else s
    else if literalEndsWith opts s literal then s.take (s.length - literal.length) else s
  | none =>
    let toks := parse pat opts
    if toks.isEmpty then s
    else if prefixed then
      let hits := collectMatchEnds opts s toks 0
      match if longest then hits.max? else hits.min? with
      | some stop => s.drop stop
      | none => s
    else
      let starts := (List.range (s.length + 1)).filter fun k => (collectMatchEnds opts s toks k).contains s.length
      match if longest then starts.min? else starts.max? with
      | some start => s.take start
      | none => s

inductive PatSubMode where
  | first | all | prefixAnchored | suffixAnchored
  deriving DecidableEq

def substEmpty (s : Bytes) (mode : PatSubMode) (replacement : Bytes → Bytes) : Bytes :=
  match mode with
  | .prefixAnchored => replacement [] ++ s
  | .suffixAnchored => s ++ replacement []
  | _ => s

def substLiteralLoop (opts : GlobOpts) (literal : Bytes) (first : Bool) (replacement : Bytes → Bytes) : ℕ → Bytes → Bytes
  | 0, s => s
  | fuel + 1, s =>
    match findLiteral opts literal s with
    | none => s
    | some rel =>
      let after := s.drop (rel + literal.length)
      s.take rel ++ replacement ((s.drop rel).take literal.length) ++
        if first then after else substLiteralLoop opts literal first replacement fuel after

def patSubstLiteral (s literal : Bytes) (mode : PatSubMode) (opts : GlobOpts) (replacement : Bytes → Bytes) : Bytes :=
  if literal = [] then substEmpty s mode replacement
  else match mode with
  | .prefixAnchored =>
    if !literalStartsWith opts s literal then s
    else replacement (s.take literal.length) ++ s.drop literal.length
  | .suffixAnchored =>
    if !literalEndsWith opts s literal then s
    else s.take (s.length - literal.length) ++ replacement (s.drop (s.length - literal.length))
  | _ => substLiteralLoop opts literal (mode = .first) replacement s.length s

def starPatternMatchesEmptyForSubstitution (toks : List Tok) : Bool :=
  !toks.isEmpty && toks.all fun tok =>
    match tok with
    | .star => true
    | .ext .star _ => true
    | _ => false

/-- The loop over the places of the value, which prefers the longest match that is not empty. -/
def substTokensLoop (opts : GlobOpts) (toks : List Tok) (first : Bool) (replacement : Bytes → Bytes) (s : Bytes) :
    ℕ → ℕ → Bytes
  | 0, _ => []
  | fuel + 1, i =>
    if s.length < i then []
    else match ((collectMatchEnds opts s toks i).filter fun e => i < e).max? with
    | some e =>
      replacement ((s.drop i).take (e - i)) ++
        if first then s.drop e else substTokensLoop opts toks first replacement s fuel e
    | none => (s[i]?).toList ++ substTokensLoop opts toks first replacement s fuel (i + 1)

def patSubstTokens (s : Bytes) (toks : List Tok) (mode : PatSubMode) (opts : GlobOpts) (replacement : Bytes → Bytes) : Bytes :=
  if toks.isEmpty then substEmpty s mode replacement
  else if s.isEmpty ∧ (mode = .first ∨ mode = .all) ∧ starPatternMatchesEmptyForSubstitution toks then replacement []
  else match mode with
  | .prefixAnchored =>
    match (collectMatchEnds opts s toks 0).max? with
    | some e => replacement (s.take e) ++ s.drop e
    | none => s
  | .suffixAnchored =>
    match ((List.range (s.length + 1)).filter fun k => (collectMatchEnds opts s toks k).contains s.length).min? with
    | some k => s.take k ++ replacement (s.drop k)
    | none => s
  | _ => substTokensLoop opts toks (mode = .first) replacement s (s.length + 1) 0

def patSubstWithReplacer (s pat : Bytes) (mode : PatSubMode) (opts : GlobOpts) (replacement : Bytes → Bytes) : Bytes :=
  match literalPattern opts pat with
  | some literal => patSubstLiteral s literal mode opts replacement
  | none => patSubstTokens s (parse pat opts) mode opts replacement

def patSubst (s pat rep : Bytes) (mode : PatSubMode) (opts : GlobOpts) : Bytes :=
  patSubstWithReplacer s pat mode opts fun _ => rep

inductive CaseModMode where
  | upperFirst | upperAll | lowerFirst | lowerAll | toggleFirst | toggleAll
  deriving DecidableEq

def toAsciiUppercase (b : UInt8) : UInt8 := if isLower b then b - 32 else b

def CaseModMode.first : CaseModMode → Bool
  | .upperFirst | .lowerFirst | .toggleFirst => true
  | _ => false

def CaseModMode.change : CaseModMode → UInt8 → UInt8
  | .upperFirst, b | .upperAll, b => toAsciiUppercase b
  | .lowerFirst, b | .lowerAll, b => toAsciiLowercase b
  | .toggleFirst, b | .toggleAll, b => if isLower b then toAsciiUppercase b else toAsciiLowercase b

def casemod (s : Bytes) (pat : Option Bytes) (mode : CaseModMode) (opts : GlobOpts) : Bytes :=
  s.mapIdx fun i b =>
    let matched := pat.all fun p => (collectMatchEnds opts s (parse p opts) i).any fun e => e = i + 1
    if matched ∧ (!mode.first ∨ i = 0) then mode.change b else b
end Cherubsh.Expander.Pattern
