import Cherubsh.Expander.Arith.Lexer
import Cherubsh.Expander.Quote

/-! # Brace expansion

A word is searched for the leftmost brace expression that can be expanded; the texts for it
are put between what stands in front of it and every expansion of what stands behind it.
Positions in the word are suffixes of it, and the loops count their rounds.
-/
namespace Cherubsh.Expander.Braces
open Utf8
open Arith (trim parseI64)

/-- Through the next such quote that no backslash stands before, and the rest. -/
def throughQuote (quote : UInt8) : Bytes → Bytes × Bytes
  | [] => ([],[])
  | [b] => ([b],[])
  | b :: c :: rest =>
    if b = quote then ([b],c :: rest)
    else if b = '\\' then (b :: c :: (throughQuote quote rest).1,(throughQuote quote rest).2)
    else (b :: (throughQuote quote (c :: rest)).1,(throughQuote quote (c :: rest)).2)

def throughSingleQuote : Bytes → Bytes × Bytes
  | [] => ([],[])
  | b :: rest =>
    if b = '\'' then ([b],rest) else (b :: (throughSingleQuote rest).1,(throughSingleQuote rest).2)

def quotedChunk : Bytes → Option (Bytes × Bytes)
  | [] => none
  | b :: rest =>
    if b = '\\' then
      match rest with
      | [] => none
      | c :: rest => some ([b,c],rest)
    else if b = '\'' then some (b :: (throughSingleQuote rest).1,(throughSingleQuote rest).2)
    else if b = '"' then some (b :: (throughQuote b rest).1,(throughQuote b rest).2)
    else none

/-- The bytes up to the closing one that was not opened in them, and those behind it. -/
def untilClosing (opening closing : UInt8) : ℕ → ℕ → Bytes → Option (Bytes × Bytes)
  | 0, _, _ => none
  | fuel + 1, depth, text =>
    match quotedChunk text with
    | some (chunk,rest) => (untilClosing opening closing fuel depth rest).map fun p => (chunk ++ p.1,p.2)
    | none =>
      match text with
      | [] => none
      | c :: rest =>
        if c = closing ∧ depth = 0 then some ([],rest)
        else
          let depth := if c = opening then depth + 1 else if c = closing then depth - 1 else depth
          (untilClosing opening closing fuel depth rest).map fun p => (c :: p.1,p.2)

def skipBalanced (opening closing : UInt8) (text : Bytes) : Bytes :=
  ((untilClosing opening closing text.length 0 text).map Prod.snd).getD []

def topLevelSplitFrom : ℕ → ℤ → Bytes → Bytes → List Bytes
  | 0, _, cur, _ => [cur]
  | fuel + 1, depth, cur, text =>
    match quotedChunk text with
    | some (chunk,rest) => topLevelSplitFrom fuel depth (cur ++ chunk) rest
    | none =>
      match text with
      | [] => [cur]
      | b :: rest =>
        if b = ',' ∧ depth = 0 then cur :: topLevelSplitFrom fuel depth [] rest
        else
          let depth := if b = '{' then depth + 1 else if b = '}' then depth - 1 else depth
          topLevelSplitFrom fuel depth (cur ++ [b]) rest

def topLevelSplit (body : Bytes) : List Bytes := topLevelSplitFrom body.length 0 [] body

def findDotdot : ℤ → Bytes → Option (Bytes × Bytes)
  | depth, b :: c :: rest =>
    if b = '\\' then (findDotdot depth rest).map fun p => (b :: c :: p.1,p.2)
    else if b = '{' then (findDotdot (depth + 1) (c :: rest)).map fun p => (b :: p.1,p.2)
    else if b = '}' then (findDotdot (depth - 1) (c :: rest)).map fun p => (b :: p.1,p.2)
    else if depth = 0 ∧ b = '.' ∧ c = '.' then some ([],rest)
    else (findDotdot depth (c :: rest)).map fun p => (b :: p.1,p.2)
  | _, _ => none

def parseSeqNum (s : Bytes) : Option (ℤ × Bool) :=
  match fromUtf8 s with
  | .error _ => none
  | .ok text =>
    let trimmed := trim text
    let digits := match trimmed with
      | '-' :: rest => rest
      | rest => rest
    if digits = [] then none
    else (parseI64 trimmed).map fun n => (n,decide (1 < digits.length) && digits.head? = some '0')

def width (s : Bytes) : ℕ := if s.head? = some '-'.toUInt8 then s.length - 1 else s.length

def computeWidth (start stop : Bytes) (startPad stopPad : Bool) : ℕ :=
  if !startPad && !stopPad then 0 else max (width start) (width stop)

def wrap (bits : ℕ) (n : ℤ) : ℤ := Int.bmod n (2 ^ bits)

def checked64 (n : ℤ) : Option ℤ := if -2 ^ 63 ≤ n ∧ n < 2 ^ 63 then some n else none

def decimal (n : ℕ) : Bytes := (Nat.toDigits 10 n).map Char.toUInt8

def zeroPadded (width : ℕ) (n : ℤ) : Bytes :=
  let sign := if n < 0 then ['-'.toUInt8] else []
  sign ++ List.replicate (width - sign.length - (decimal n.natAbs).length) '0'.toUInt8 ++ decimal n.natAbs

/-- One number of a sequence. The absolute value wraps. -/
def sequenceText (width : ℕ) (cur : ℤ) : Bytes :=
  if 0 < width then (if cur < 0 then ['-'.toUInt8] else []) ++ zeroPadded width (wrap 64 cur.natAbs)
  else zeroPadded 0 cur

/-- How a sequence goes on from a number: whether it ends there, the next number, and
whether that is too far. -/
structure Course where
  done : ℤ → Bool
  next : ℤ → Option ℤ
  passed : ℤ → Bool

def Course.from (c : Course) : ℕ → ℤ → Option (List ℤ)
  | room, cur =>
    if c.done cur then some [cur]
    else match c.next cur with
    | none => none
    | some next =>
      if c.passed next then some [cur]
      else match room with
      | 0 => none
      | room + 1 => (c.from room next).map fun rest => cur :: rest

def maxItems : ℕ := 1000000

def numberCourse (start stop step : ℤ) : Course :=
  if start ≤ stop then
    ⟨fun cur => wrap 64 (stop - step) < cur && stop ≤ cur,fun cur => checked64 (cur + step),fun next => stop < next⟩
  else ⟨fun cur => cur < wrap 64 (stop + step) && cur ≤ stop,fun cur => checked64 (cur - step),fun next => next < stop⟩

def letterCourse (start stop step : ℤ) : Course :=
  if start ≤ stop then ⟨fun cur => stop ≤ cur,fun cur => some (wrap 32 (cur + step)),fun next => stop < next⟩
  else ⟨fun cur => cur ≤ stop,fun cur => some (wrap 32 (cur - step)),fun next => next < stop⟩

/-- The step of a sequence; zero stands for one. -/
def rawStep : Option Bytes → Option ℤ
  | none => some 1
  | some part => (parseSeqNum part).map fun p => if p.1 = 0 then 1 else p.1

def letterText (cur : ℤ) : Bytes := if cur = '\\'.toNat then [] else [UInt8.ofInt cur]

def isAlphabetic (b : UInt8) : Bool :=
  ('A' ≤ b && b ≤ 'Z') || ('a' ≤ b && b ≤ 'z')

def expandNumbers (start stop : Bytes) (step : Option Bytes) (s e : ℤ × Bool) : Option (List Bytes) :=
  match rawStep step with
  | none => none
  | some raw =>
    ((numberCourse s.1 e.1 (wrap 64 raw.natAbs)).from maxItems s.1).map
      (List.map (sequenceText (computeWidth start stop s.2 e.2)))

def expandLetters (start stop : UInt8) (step : Option Bytes) : Option (List Bytes) :=
  match rawStep step with
  | none => none
  | some raw =>
    ((letterCourse start.toNat stop.toNat (wrap 32 raw.natAbs)).from maxItems start.toNat).map (List.map letterText)

def expandRange (start stop : Bytes) (step : Option Bytes) : Option (List Bytes) :=
  if start = [] ∨ stop = [] then none
  else match parseSeqNum start,parseSeqNum stop with
  | some s, some e => expandNumbers start stop step s e
  | _, _ =>
    match start,stop with
    | [s], [e] => if isAlphabetic s && isAlphabetic e then expandLetters s e step else none
    | _, _ => none

def expandSequence (body : Bytes) : Option (List Bytes) :=
  match findDotdot 0 body with
  | none => none
  | some (start,after) =>
    match findDotdot 0 after with
    | some (stop,step) => expandRange start stop (some step)
    | none => expandRange start after none

def isExpandableBody (body : Bytes) : Bool := (expandSequence body).isSome || decide (2 ≤ (topLevelSplit body).length)

/-- A brace expression at the front of a text, or bytes that are none. -/
def topBraceStep (text : Bytes) : Option ((Bytes × Bytes) ⊕ (Bytes × Bytes)) :=
  match quotedChunk text with
  | some p => some (.inr p)
  | none =>
    match text with
    | [] => none
    | b :: rest =>
      if b = '$' ∧ rest.head? = some '{'.toUInt8 then
        let after := skipBalanced '{' '}' rest.tail
        some (.inr (text.take (text.length - after.length),after))
      else if b = '$' ∧ rest.head? = some '('.toUInt8 then
        let after := skipBalanced '(' ')' rest.tail
        some (.inr (text.take (text.length - after.length),after))
      else if b = '\x60' then some (.inr (b :: (throughQuote b rest).1,(throughQuote b rest).2))
      else if b = '{' then
        match untilClosing '{' '}' rest.length 0 rest with
        | some (body,suffix) => some (if isExpandableBody body then .inl (body,suffix) else .inr ([b],rest))
        | none => some (.inr ([b],rest))
      else some (.inr ([b],rest))

def findTopBraceFrom : ℕ → Bytes → Option (Bytes × Bytes × Bytes)
  | 0, _ => none
  | fuel + 1, text =>
    match topBraceStep text with
    | none => none
    | some (.inl (body,suffix)) => some ([],body,suffix)
    | some (.inr (chunk,rest)) => (findTopBraceFrom fuel rest).map fun p => (chunk ++ p.1,p.2)

def findTopBrace (word : Bytes) : Option (Bytes × Bytes × Bytes) := findTopBraceFrom word.length word

/-- Everything that is expanded further is shorter by two braces. -/
def braceExpandWith : ℕ → Bytes → List Bytes
  | 0, word => [word]
  | fuel + 1, word =>
    match findTopBrace word with
    | none => [word]
    | some (before,body,suffix) =>
      let tails := braceExpandWith fuel suffix
      match expandSequence body with
      | some pieces => pieces.flatMap fun piece => tails.map fun tail => before ++ piece ++ tail
      | none =>
        (topLevelSplit body).flatMap fun alternative =>
          (braceExpandWith fuel alternative).flatMap fun expanded => tails.map fun tail => before ++ expanded ++ tail

def braceExpand (word : Bytes) : List Bytes := braceExpandWith (word.length + 1) word
end Cherubsh.Expander.Braces
