import Cherubsh.Expander.Arith.Lexer
import Cherubsh.Expander.ShellString

/-! # Substrings

The law gives nothing when a negative offset leads before the beginning. The code gives everything
from the beginning instead, and adds the length before it compares with the end.
-/
namespace Cherubsh.Expander.Substring
open Utf8 ShellString

abbrev Text := List Char

inductive SubstringError where
  | badSubstitution (message : Text)
  | arithmetic (message : Text)
  | other (message : Text)
  | overflow
  | outOfRange
  deriving DecidableEq

abbrev Outcome (α : Type) := Except SubstringError α

def Within (n : ℤ) : Prop := -2 ^ 63 ≤ n ∧ n < 2 ^ 63

instance (n : ℤ) : Decidable (Within n) := inferInstanceAs (Decidable (_ ∧ _))

def addI64 (a b : ℤ) : Outcome ℤ := if Within (a + b) then .ok (a + b) else .error .overflow

def asUsize (n : ℤ) : ℕ := (n % 2 ^ 64).toNat

def slice {α : Type} (l : List α) (start stop : ℕ) : Outcome (List α) :=
  if start ≤ stop ∧ stop ≤ l.length then .ok ((l.take stop).drop start) else .error .outOfRange

theorem addI64_of_within {a b : ℤ} (h : Within (a + b)) : addI64 a b = .ok (a + b) := if_pos h

theorem asUsize_eq_toNat {n : ℤ} (h0 : 0 ≤ n) (h : n < 2 ^ 64) : asUsize n = n.toNat := by
  rw [asUsize,Int.emod_eq_of_lt h0 h]

theorem slice_eq_ok {α : Type} {l : List α} {start stop : ℕ} (h : start ≤ stop) (hs : stop ≤ l.length) :
    slice l start stop = .ok ((l.take stop).drop start) := if_pos ⟨h,hs⟩

/-- The loop over the characters, with the number and the place of the next one. -/
def charRangeFrom (start stop : ℕ) : ℕ → ℕ → ℕ × ℕ → Text → ℕ × ℕ
  | _, _, range, [] => range
  | idx, byte, (startByte,endByte), c :: value =>
    let startByte := if idx = start then byte else startByte
    if idx = stop then (startByte,byte)
    else charRangeFrom start stop (idx + 1) (byte + c.utf8Size) (startByte,endByte) value

def charRangeToByteRange (value : Text) (start stop : ℕ) : ℕ × ℕ :=
  let len := (encode value).length
  let range := charRangeFrom start stop 0 0 (len,len) value
  (if start = value.length then len else range.1,if stop = value.length then len else range.2)

def substringStart (total off : ℤ) : Outcome ℤ := if off < 0 then (max · 0) <$> addI64 total off else pure (min off total)

def substringStop (total start : ℤ) : Option ℤ → Outcome ℤ
  | some l => if l < 0 then (max · start) <$> addI64 total l else (min · total) <$> addI64 start l
  | none => pure total

def byteRange (utf8 : Bool) (valueText : Option Text) (start stop : ℕ) : ℕ × ℕ :=
  if utf8 then (valueText.map fun text => charRangeToByteRange text start stop).getD (start,stop) else (start,stop)

def pushScalarSubstring (utf8 : Bool) (value : Text) (off : ℤ) (len : Option ℤ) : Outcome Bytes := do
  let valueBytes := shellStringToBytes value
  let valueText := (fromUtf8 valueBytes).toOption
  let total : ℤ := if utf8 then ((valueText.map List.length).getD valueBytes.length : ℕ) else valueBytes.length
  let start ← substringStart total off
  let start := if start < 0 then 0 else start
  let stop ← substringStop total start len
  let range := byteRange utf8 valueText (asUsize start) (asUsize stop)
  slice valueBytes range.1 range.2

section
variable {α : Type}

def rejectNegativeArraySubstringLen (len : Option ℤ) (lenExpr : Option Text) : Outcome Unit :=
  match len with
  | some l => if l < 0 then .error (.other (lenExpr.getD [] ++ ": substring expression < 0")) else .ok ()
  | none => .ok ()

/-- The first index to take, counted from behind the last one for a negative offset. -/
def firstIndex (maxIndex off : ℤ) : Outcome ℤ := if off < 0 then do (max · 0) <$> addI64 (← addI64 maxIndex 1) off else pure off

def arrayTake (total : ℤ) : Option ℤ → ℤ
  | some l => if l < 0 then max (total + l) 0 else max l 0
  | none => total

def indexedArraySubstringElems (elems : List (ℤ × α)) (off : ℤ) (len : Option ℤ) (lenExpr : Option Text) : Outcome (List α) := do
  rejectNegativeArraySubstringLen len lenExpr
  match (elems.map Prod.fst).max? with
  | none => pure []
  | some maxIndex =>
    let startIndex ← firstIndex maxIndex off
    let values := (elems.filter fun p => startIndex ≤ p.1).map Prod.snd
    let total : ℤ := values.length
    pure (values.take (asUsize (arrayTake total len)))

def assocTake (total start : ℤ) : Option ℤ → ℤ
  | some l => if l < 0 then max (total - start + l) 0 else l
  | none => total - start

def assocSubstringElems (elems : List α) (off : ℤ) (len : Option ℤ) (lenExpr : Option Text) : Outcome (List α) := do
  rejectNegativeArraySubstringLen len lenExpr
  let total : ℤ := elems.length
  let start ← substringStart total off
  let stop := max (min (← addI64 start (assocTake total start len)) total) start
  slice elems (asUsize start) (asUsize stop)
end

structure Arithmetic where
  expand : Text → Outcome Text
  eval : Text → Text → Outcome ℤ

def isOpening (b : UInt8) : Bool := b = '(' || b = '[' || b = '{'

def isClosing (b : UInt8) : Bool := b = ')' || b = ']' || b = '}'

/-- The offset and the length, cut at the first colon that belongs to neither brackets nor a choice. -/
def splitOffset (depth ternaryDepth : ℤ) : Bytes → Bytes × Option Bytes
  | [] => ([],none)
  | b :: rest =>
    let more (depth ternaryDepth : ℤ) := ((b :: (splitOffset depth ternaryDepth rest).1,(splitOffset depth ternaryDepth rest).2) : Bytes × Option Bytes)
    if isOpening b then more (depth + 1) ternaryDepth
    else if isClosing b then more (depth - 1) ternaryDepth
    else if b = '?' ∧ depth = 0 then more depth (ternaryDepth + 1)
    else if b = ':' ∧ depth = 0 ∧ 0 < ternaryDepth then more depth (ternaryDepth - 1)
    else if b = ':' ∧ depth = 0 then ([],some rest)
    else more depth ternaryDepth

def textOf (part : Bytes) : Text := (fromUtf8 part).toOption.getD []

def evalPart (ar : Arithmetic) (name part : Text) : Outcome ℤ := do
  let expanded ← ar.expand part
  if Arith.trim expanded = [] then pure 0 else ar.eval name expanded

inductive Operand where
  | scalar (value : Text)
  | indexed (elems : List (ℤ × Text))
  | assoc (elems : List Text)
  | unset
  deriving DecidableEq

inductive Pushed where
  | value (bytes : Bytes)
  | elements (elems : List Text)
  deriving DecidableEq

def substringBounds (ar : Arithmetic) (name : Text) (rest : Bytes) : Outcome (ℤ × Option ℤ × Option Text) := do
  if rest = [] then throw (.badSubstitution (name ++ [':']))
  if name = ['#'] ∧ rest = ['%'.toUInt8] then
    throw (.other "#: %: arithmetic syntax error: operand expected (error token is \"%\")")
  let parts := splitOffset 0 0 rest
  let off ← evalPart ar name (textOf parts.1)
  match parts.2 with
  | none => pure (off,none,none)
  | some part => pure (off,some (← evalPart ar name (textOf part)),some (textOf part))

def handleSubstring (ar : Arithmetic) (utf8 : Bool) (name : Text) (rest : Bytes) (operand : Operand) : Outcome Pushed := do
  let (off,len,lenExpr) ← substringBounds ar name rest
  match operand with
  | .scalar value => .value <$> pushScalarSubstring utf8 value off len
  | .indexed elems => .elements <$> indexedArraySubstringElems elems off len lenExpr
  | .assoc elems => .elements <$> assocSubstringElems elems off len lenExpr
  | .unset => pure (.elements [])
end Cherubsh.Expander.Substring
