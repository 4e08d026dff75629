import Cherubsh.Expander.Arith.Lexer
import Cherubsh.Expander.ShellString

/-! # Formats, arguments and renderings of printf

The format is a byte string that is read from the front, so a position in it is the
bytes from there on. What the C library and the shell's variables decide is a `Host`:
floating point numbers, times, characters of the locale and assignments.
-/
namespace Cherubsh.Builtins.Printf
open Utf8 Expander.Arith Expander.ShellString List

def ascii (c : Char) : UInt8 := UInt8.ofNat c.toNat

def asciiBytes (s : String) : Bytes := s.toList.map ascii

def byteChar (b : UInt8) : Char := Char.ofNat b.toNat

def maxPrintfWidth : ℕ := 1000000
def i32Max : ℤ := 2147483647
def i32Min : ℤ := -2147483648
def i64Max : ℤ := 9223372036854775807
def i64Min : ℤ := -9223372036854775808

structure Report where
  diagnostic : Bool
  text : Text

/-- `WidthSpec` and `PrecisionSpec`. -/
inductive FieldSize where
  | absent
  | number (n : ℕ)
  | star

structure ParsedFormat where
  left : Bool := false
  plus : Bool := false
  space : Bool := false
  zero : Bool := false
  alternate : Bool := false
  width : FieldSize := .absent
  precision : FieldSize := .absent
  precisionOverflow : Bool := false
  conv : Char := '\x00'
  timeFormat : Option Text := none

structure ResolvedFormat where
  left : Bool
  plus : Bool
  space : Bool
  zero : Bool
  alternate : Bool
  width : Option ℕ
  precision : Option ℕ
  conv : Char
  timeFormat : Option Text

inductive ParsedConversion where
  | ok (spec : ParsedFormat) (next : Bytes)
  | missing (raw : Text)
  | invalid (ch : Char)
  | invalidTime (ch : Char) (raw : Text) (next : Bytes)

section
variable (parsed : ParsedFormat)

def isDigitByte (b : UInt8) : Bool := 0x30 ≤ b && b ≤ 0x39
def isOctalByte (b : UInt8) : Bool := 0x30 ≤ b && b ≤ 0x37
def isHexByte (b : UInt8) : Bool := isDigitByte b || (0x41 ≤ b && b ≤ 0x46) || (0x61 ≤ b && b ≤ 0x66)
def isAlphaByte (b : UInt8) : Bool := (0x41 ≤ b && b ≤ 0x5A) || (0x61 ≤ b && b ≤ 0x7A)

def hexVal (b : UInt8) : ℕ :=
  if isDigitByte b then b.toNat - 0x30
  else if 0x61 ≤ b then b.toNat - 0x61 + 10
  else b.toNat - 0x41 + 10

def parseFlags (parsed : ParsedFormat) : Bytes → ParsedFormat × Bytes
  | [] => (parsed,[])
  | b :: rest =>
    if b = ascii '-' then parseFlags { parsed with left := true } rest
    else if b = ascii '+' then parseFlags { parsed with plus := true } rest
    else if b = ascii ' ' then parseFlags { parsed with space := true } rest
    else if b = ascii '0' then parseFlags { parsed with zero := true } rest
    else if b = ascii '#' then parseFlags { parsed with alternate := true } rest
    else (parsed,b :: rest)

def cappedSize (digits : Bytes) : ℕ := digits.foldl (fun n b => min (n * 10 + (b.toNat - 0x30)) maxPrintfWidth) 0

def rawSize (digits : Bytes) : ℕ := digits.foldl (fun n b => n * 10 + (b.toNat - 0x30)) 0

def parseWidth (parsed : ParsedFormat) (bytes : Bytes) : ParsedFormat × Bytes :=
  match bytes with
  | b :: rest =>
    if b = ascii '*' then ({ parsed with width := .star },rest)
    else
      let digits := bytes.takeWhile isDigitByte
      if digits = [] then (parsed,bytes)
      else ({ parsed with width := .number (cappedSize digits) },bytes.drop digits.length)
  | [] => (parsed,[])

def parsePrecision (parsed : ParsedFormat) (bytes : Bytes) : ParsedFormat × Bytes :=
  match bytes with
  | b :: rest =>
    if b ≠ ascii '.' then (parsed,bytes)
    else if rest.head? = some (ascii '*') then ({ parsed with precision := .star },rest.tail)
    else
      let digits := rest.takeWhile isDigitByte
      ({ parsed with
          precision := .number (cappedSize digits)
          precisionOverflow := parsed.precisionOverflow || decide (i32Max < rawSize digits) },rest.drop digits.length)
  | [] => (parsed,[])

def isLengthByte (b : UInt8) : Bool := (asciiBytes "hjlLtz").contains b

/-- The body of `%(...)T`: the bytes up to the first `)` with a letter behind it, that
letter, and what follows. -/
def timeBody : Bytes → Bytes → Option (Bytes × UInt8 × Bytes)
  | body, b :: trailer :: rest =>
    if b = ascii ')' ∧ isAlphaByte trailer then some (body,trailer,rest)
    else timeBody (body ++ [b]) (trailer :: rest)
  | _, _ => none

def textOr (default : Text) (bytes : Bytes) : Text := (fromUtf8 bytes).toOption.getD default

def rawConversion (bytes rest : Bytes) : Bytes := ascii '%' :: bytes.take (bytes.length - rest.length)

def isConversion (ch : Char) : Bool := "diouxXsScCeEfFgGbqQnT".toList.contains ch

def parseConversion (bytes : Bytes) : ParsedConversion :=
  let (parsed,rest) := parseFlags { } bytes
  let (parsed,rest) := parseWidth parsed rest
  let (parsed,rest) := parsePrecision parsed rest
  let rest := rest.dropWhile isDigitByte
  let rest := rest.dropWhile isLengthByte
  match rest with
  | [] => .missing (textOr ['%'] (rawConversion bytes []))
  | b :: rest =>
    if b = ascii '(' then
      match timeBody [] rest with
      | none => .missing (textOr ['%'] (rawConversion bytes []))
      | some (body,trailer,next) =>
        if trailer = ascii 'T' then .ok { parsed with conv := 'T', timeFormat := some (textOr [] body) } next
        else .invalidTime (byteChar trailer) (textOr [] (rawConversion bytes next)) next
    else if isConversion (byteChar b) then .ok { parsed with conv := byteChar b } rest
    else .invalid (byteChar b)

theorem length_parseFlags_le (bytes : Bytes) : (parseFlags parsed bytes).2.length ≤ bytes.length := by
  fun_induction parseFlags parsed bytes <;> simp only [length_cons,length_nil] <;> omega

theorem length_parseWidth_le (bytes : Bytes) : (parseWidth parsed bytes).2.length ≤ bytes.length := by
  unfold parseWidth
  split
  · split
    · exact Nat.le_succ _
    · dsimp only
      split
      · exact le_rfl
      · exact (drop_sublist _ _).length_le
  · exact le_rfl

theorem length_parsePrecision_le (bytes : Bytes) :
    (parsePrecision parsed bytes).2.length ≤ bytes.length := by
  unfold parsePrecision
  split
  · rename_i b rest
    split
    · exact le_rfl
    · split
      · exact Nat.le_succ_of_le (tail_sublist rest).length_le
      · exact Nat.le_succ_of_le (drop_sublist _ rest).length_le
  · exact le_rfl

theorem length_timeBody_lt {body bytes next body' : Bytes} {trailer : UInt8}
    (h : timeBody body bytes = some (body',trailer,next)) : next.length < bytes.length := by
  fun_induction timeBody body bytes with
  | case1 body b t rest hb =>
    cases h
    simp only [length_cons]
    omega
  | case2 body b t rest hb ih =>
    have := ih h
    simp only [length_cons] at this ⊢
    omega
  | case3 => cases h

def ParsedConversion.next? : ParsedConversion → Option Bytes
  | .ok _ next => some next
  | .missing _ => none
  | .invalid _ => none
  | .invalidTime _ _ next => some next

theorem length_parseConversion_lt {bytes next : Bytes} (h : (parseConversion bytes).next? = some next) :
    next.length < bytes.length := by
  have hf := length_parseFlags_le { } bytes
  have hw := length_parseWidth_le (parseFlags { } bytes).1 (parseFlags { } bytes).2
  unfold parseConversion at h
  dsimp only at h
  generalize parseFlags { } bytes = flags at hf hw h
  generalize parseWidth flags.1 flags.2 = width at hw h
  have hp := length_parsePrecision_le width.1 width.2
  generalize parsePrecision width.1 width.2 = precision at hp h
  have hd := (dropWhile_sublist (l := precision.2) isDigitByte).length_le
  have hl := (dropWhile_sublist (l := precision.2.dropWhile isDigitByte) isLengthByte).length_le
  generalize (precision.2.dropWhile isDigitByte).dropWhile isLengthByte = rest at hl h
  cases rest with
  | nil => cases h
  | cons b rest =>
    rw [length_cons] at hl
    dsimp only at h
    split at h
    · cases ht : timeBody [] rest with
      | none =>
        rw [ht] at h
        cases h
      | some time =>
        obtain ⟨body,trailer,next'⟩ := time
        have hlt := length_timeBody_lt ht
        rw [ht] at h
        obtain rfl : next' = next := by
          dsimp only at h
          split at h <;> exact Option.some.inj h
        omega
    · split at h
      · obtain rfl := Option.some.inj h
        omega
      · cases h
end

def digitsValue (radix : ℕ) (s : Text) : Option ℕ :=
  let digit (c : Char) : Option ℕ :=
    if c.isDigit then some (c.toNat - 48)
    else if 'a' ≤ c ∧ c ≤ 'z' then some (c.toNat - 97 + 10)
    else if 'A' ≤ c ∧ c ≤ 'Z' then some (c.toNat - 65 + 10)
    else none
  if s = [] then none
  else s.foldl (fun n c => n.bind fun n => (digit c).bind fun d => if d < radix then some (n * radix + d) else none) (some 0)

/-- `i64::from_str_radix`: a sign, then digits, with the value in range. -/
def i64FromStrRadix (radix : ℕ) (s : Text) : Option ℤ :=
  let value : Option ℤ :=
    match s with
    | '-' :: rest => (digitsValue radix rest).map fun n => -(n : ℤ)
    | '+' :: rest => (digitsValue radix rest).map fun n => (n : ℤ)
    | s => (digitsValue radix s).map fun n => (n : ℤ)
  value.filter fun n => i64Min ≤ n ∧ n ≤ i64Max

/-- Negation of a 64-bit number; that of the smallest one wraps to itself. -/
def i64Neg (n : ℤ) : ℤ := if n = i64Min then i64Min else -n

/-- A number with its sign taken off; a leading zero makes it octal, and one out of range is
reported and cut off. -/
def parseSigned (negative : Bool) (digits : Text) : ℤ × Bool :=
  match i64FromStrRadix (if 1 < (encode digits).length ∧ digits.head? = some '0' then 8 else 10) digits with
  | some value => (if negative then i64Neg value else value,false)
  | none =>
    if digits ≠ [] ∧ digits.all Char.isDigit then (if negative then i64Min else i64Max,true)
    else (0,true)

def parseIntegerArg (s : Text) (present : Bool) : ℤ × Bool :=
  if !present then (0,false)
  else if s = [] then (0,true)
  else
    match trim s with
    | '0' :: 'x' :: rest => (i64FromStrRadix 16 rest).elim (0,true) fun n => (n,false)
    | '0' :: 'X' :: rest => (i64FromStrRadix 16 rest).elim (0,true) fun n => (n,false)
    | '\'' :: rest => ((rest.head?.map fun c => (c.toNat : ℤ)).getD 0,false)
    | '"' :: rest => ((rest.head?.map fun c => (c.toNat : ℤ)).getD 0,false)
    | '-' :: rest => parseSigned true rest
    | '+' :: rest => parseSigned false rest
    | t => parseSigned false t

def invalidNumber (s : Text) : Report := ⟨true,s ++ ": invalid number"⟩

/-- The number of a width or precision argument if it is one of C's `int`, and the reports. -/
def parseFieldSizeArg (s : Text) (present : Bool) : Option ℤ × List Report :=
  let (n,invalid) := parseIntegerArg s present
  let reports := if invalid then [invalidNumber s] else []
  if i32Max < n ∨ n < i32Min then (none,if present then reports ++ [invalidNumber s] else reports)
  else (some n,reports)

def takeArg (args : List Text) (argIdx : ℕ) : Text × Bool × ℕ :=
  match args[argIdx]? with
  | some value => (value,true,argIdx + 1)
  | none => ([],false,argIdx + 1)

/-- The sizes that an argument gives; only a width that is not negative is capped. -/
def starWidth (n : Option ℤ) : Bool × ℕ :=
  let n := n.getD 0
  if n < 0 then (true,n.natAbs) else (false,min n.toNat maxPrintfWidth)

def starPrecision : Option ℤ → Option ℕ
  | some n => if 0 ≤ n then some (min n.toNat maxPrintfWidth) else none
  | none => none

def resolveWidth (parsed : ParsedFormat) (args : List Text) (argIdx : ℕ) : Bool × Option ℕ × ℕ × List Report :=
  match parsed.width with
  | .absent => (parsed.left,none,argIdx,[])
  | .number n => (parsed.left,some n,argIdx,[])
  | .star =>
    let (value,present,argIdx) := takeArg args argIdx
    let (n,reports) := parseFieldSizeArg value present
    (parsed.left || (starWidth n).1,some (starWidth n).2,argIdx,reports)

def resolvePrecision (parsed : ParsedFormat) (args : List Text) (argIdx : ℕ) : Option ℕ × ℕ × List Report :=
  match parsed.precision with
  | .absent => (none,argIdx,[])
  | .number n => (some n,argIdx,[])
  | .star =>
    let (value,present,argIdx) := takeArg args argIdx
    let (n,reports) := parseFieldSizeArg value present
    (starPrecision n,argIdx,reports)

def resolveStars (parsed : ParsedFormat) (args : List Text) (argIdx : ℕ) : ResolvedFormat × ℕ × List Report :=
  let (left,width,argIdx,reports) := resolveWidth parsed args argIdx
  let (precision,argIdx,more) := resolvePrecision parsed args argIdx
  (⟨left,parsed.plus,parsed.space,parsed.zero,parsed.alternate,width,precision,parsed.conv,parsed.timeFormat⟩,argIdx,
    reports ++ more)

def applyStringSpec (spec : ResolvedFormat) (value : Text) : Text :=
  let value := (spec.precision.map fun n => value.take n).getD value
  let pad := List.replicate (spec.width.getD 0 - value.length) ' '
  if spec.left then value ++ pad else pad ++ value

def printfQSafe (ch : Char) : Bool := ch.isAlphanum || "_/.-+:@,".toList.contains ch

def octal3 (b : UInt8) : Text := ['\\',Char.ofNat (48 + b.toNat / 64),Char.ofNat (48 + b.toNat / 8 % 8),Char.ofNat (48 + b.toNat % 8)]

/-- The escapes that both quoting functions write alike. -/
def ansiEscape (b : UInt8) : Option Text :=
  if b = ascii '\'' then some ['\\','\'']
  else if b = ascii '\\' then some ['\\','\\']
  else if b = 0x0A then some ['\\','n']
  else if b = 0x09 then some ['\\','t']
  else if b = 0x0D then some ['\\','r']
  else if b = 0x07 then some ['\\','a']
  else if b = 0x08 then some ['\\','b']
  else if b = 0x1B then some ['\\','E']
  else if b = 0x0C then some ['\\','f']
  else if b = 0x0B then some ['\\','v']
  else none

def ansiCQuoteBytes (bytes : Bytes) : Text :=
  if bytes = [] then ['\'','\'']
  else ['$','\''] ++ bytes.flatMap (fun b =>
    (ansiEscape b).getD (if 0x20 ≤ b ∧ b ≤ 0x7E then [byteChar b] else octal3 b)) ++ ['\'']

def quoteSingle (value : Text) : Text :=
  ['\''] ++ value.flatMap (fun ch => if ch = '\'' then ['\'','\\','\'','\''] else [ch]) ++ ['\'']

def isControl (b : UInt8) : Bool := b < 0x20 || b = 0x7F

def isRawValue (value : Text) : Bool :=
  shellStringToBytes value ≠ encode value || (fromUtf8 (shellStringToBytes value)).toOption.isNone

def ansiCQuote (value : Text) : Text :=
  if isRawValue value then ansiCQuoteBytes (shellStringToBytes value)
  else if value = [] then ['\'','\'']
  else if value.all printfQSafe then value
  else if (encode value).any isControl then
    ['$','\''] ++ (encode value).flatMap (fun b => (ansiEscape b).getD (if isControl b then octal3 b else [byteChar b])) ++ ['\'']
  else quoteSingle value

def printfQuote (value : Text) : Text :=
  if isRawValue value then ansiCQuote value
  else if value = [] then ['\'','\'']
  else if (encode value).all (fun b => 0x20 ≤ b && b < 0x7F) then
    value.flatMap fun ch => if printfQSafe ch then [ch] else ['\\',ch]
  else match value with
  | '~' :: rest => ['\\','~'] ++ rest.flatMap fun ch => if printfQSafe ch then [ch] else ['\\',ch]
  | value => ansiCQuote value

def printfQuoteSingle (value : Text) : Text := if value = [] then ['\'','\''] else quoteSingle value
end Cherubsh.Builtins.Printf
