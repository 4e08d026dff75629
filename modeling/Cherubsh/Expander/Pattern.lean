import Cherubsh.Library.Worklist

/-! # The pattern matcher

The matcher collects every position at which a match that starts at a given position can end, as
lists without duplicates.
-/
namespace Cherubsh.Expander.Pattern

structure GlobOpts where
  nocaseglob : Bool
  extglob : Bool
  globasciiranges : Bool
  deriving DecidableEq

inductive NamedClass where
  | alpha | alnum | digit | lower | upper | space | blank | print | punct | xdigit | cntrl | graph | ascii | word
  deriving DecidableEq

inductive ClassItem where
  | single (b : UInt8)
  | range (lo hi : UInt8)
  | named (cls : NamedClass)
  deriving DecidableEq

inductive ExtKind where
  | q | star | plus | at | bang
  deriving DecidableEq

inductive Tok where
  | lit (b : UInt8)
  | star
  | question
  | cls (negate : Bool) (items : List ClassItem)
  | ext (kind : ExtKind) (branches : List (List Tok))

def within (lo hi : ℕ) (b : UInt8) : Bool := decide (lo ≤ b.toNat) && decide (b.toNat ≤ hi)

def isUpper (b : UInt8) : Bool := within 0x41 0x5a b
def isLower (b : UInt8) : Bool := within 0x61 0x7a b
def isDigit (b : UInt8) : Bool := within 0x30 0x39 b
def isAlpha (b : UInt8) : Bool := isUpper b || isLower b

def toAsciiLowercase (b : UInt8) : UInt8 := if isUpper b then b + 32 else b

def namedMatches : NamedClass → UInt8 → Bool
  | .alpha, b => isAlpha b
  | .alnum, b => isAlpha b || isDigit b
  | .digit, b => isDigit b
  | .lower, b => isLower b
  | .upper, b => isUpper b
  | .space, b => b = 0x20 || b = 0x09 || b = 0x0a || b = 0x0c || b = 0x0d
  | .blank, b => b = 0x20 || b = 0x09
  | .print, b => within 0x20 0x7e b
  | .punct, b => within 0x21 0x2f b || within 0x3a 0x40 b || within 0x5b 0x60 b || within 0x7b 0x7e b
  | .xdigit, b => isDigit b || within 0x41 0x46 b || within 0x61 0x66 b
  | .cntrl, b => within 0 0x1f b || b = 0x7f
  | .graph, b => within 0x21 0x7e b
  | .ascii, b => within 0 127 b
  | .word, b => isAlpha b || isDigit b || b = 0x5f

def fold (opts : GlobOpts) (c : UInt8) : UInt8 := if opts.nocaseglob then toAsciiLowercase c else c

/-- Folding applies to single bytes and to the ends of a range, not to named classes. -/
def itemMatches (opts : GlobOpts) (b : UInt8) : ClassItem → Bool
  | .single s => fold opts s = fold opts b
  | .range lo hi =>
    decide (fold opts lo ≤ fold opts hi) && decide (fold opts lo ≤ fold opts b) &&
      decide (fold opts b ≤ fold opts hi)
  | .named n => namedMatches n b

def classMatches (opts : GlobOpts) (items : List ClassItem) (b : UInt8) : Bool :=
  items.any (itemMatches opts b)

def litEq (opts : GlobOpts) (a b : UInt8) : Bool :=
  if opts.nocaseglob then toAsciiLowercase a = toAsciiLowercase b else a = b

def positionsFrom (si len : ℕ) : List ℕ := List.range' si (len + 1 - si)

/-- The ends of one extended group. Repetition only ever follows ends that advance. -/
def enumerateExtEnds (kind : ExtKind) (oneStep : ℕ → List ℕ) (len si : ℕ) : List ℕ :=
  match kind with
  | .at => oneStep si
  | .q => (oneStep si).foldl (fun ends e => ends.insert e) [si]
  | .star => repeatEnds [si]
  | .plus => repeatEnds []
  | .bang => (positionsFrom si len).filter fun k => !(oneStep si).contains k
where
  advancing (c : ℕ) : List ℕ := (oneStep c).filter fun e => c < e
  repeatEnds (ends : List ℕ) : List ℕ :=
    Worklist.drain advancing (len + 1) (Worklist.visitAll ([],[]) (advancing si)) ends

section
variable (opts : GlobOpts) (text : List UInt8)

mutual
def collectMatchEnds : List Tok → ℕ → List ℕ
  | [], si => [si]
  | tok :: rest, si => (tokEnds tok si).flatMap (collectMatchEnds rest)

def tokEnds : Tok → ℕ → List ℕ
  | .lit b, si => if (text[si]?).any (fun c => litEq opts b c) then [si + 1] else []
  | .question, si => if si < text.length then [si + 1] else []
  | .cls negate items, si => if (text[si]?).any (fun c => classMatches opts items c != negate) then [si + 1] else []
  | .star, si => positionsFrom si text.length
  | .ext kind branches, si => enumerateExtEnds kind (fun c => branchEnds branches c) text.length si

def branchEnds : List (List Tok) → ℕ → List ℕ
  | [], _ => []
  | br :: rest, c => collectMatchEnds br c ++ branchEnds rest c
end
end

def matchTokens (opts : GlobOpts) (toks : List Tok) (text : List UInt8) : Bool :=
  (collectMatchEnds opts text toks 0).contains text.length
end Cherubsh.Expander.Pattern
