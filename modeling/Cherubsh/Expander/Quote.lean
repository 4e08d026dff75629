import Cherubsh.Expander.ShellString

/-! # Quotations and the escapes of `$'…'`

A scanner is given the bytes behind the opening quote and returns what stands inside,
with its escapes, and the bytes behind the closing quote.
-/
namespace Cherubsh.Expander.Quote
open Utf8 ShellString

def scanSingleQuoted : Bytes → Bytes × Bytes
  | [] => ([],[])
  | b :: rest =>
    if b = '\'' then ([],rest)
    else (b :: (scanSingleQuoted rest).1,(scanSingleQuoted rest).2)

def scanAnsiCQuoted : Bytes → Bytes × Bytes
  | [] => ([],[])
  | [b] => if b = '\'' then ([],[]) else ([b],[])
  | b :: c :: rest =>
    if b = '\'' then ([],c :: rest)
    else if b = '\\' then (b :: c :: (scanAnsiCQuoted rest).1,(scanAnsiCQuoted rest).2)
    else (b :: (scanAnsiCQuoted (c :: rest)).1,(scanAnsiCQuoted (c :: rest)).2)

def simpleEscape (n : UInt8) : Option UInt8 :=
  if n = 'a' then some 0x07
  else if n = 'b' then some 0x08
  else if n = 'e' ∨ n = 'E' then some 0x1B
  else if n = 'f' then some 0x0C
  else if n = 'n' then some 0x0A
  else if n = 'r' then some 0x0D
  else if n = 't' then some 0x09
  else if n = 'v' then some 0x0B
  else if n = '\\' ∨ n = '\'' ∨ n = '"' ∨ n = '?' then some n
  else none

def isOctal (b : UInt8) : Bool := '0' ≤ b && b ≤ '7'

def hexDigit (b : UInt8) : Option ℕ :=
  if '0' ≤ b ∧ b ≤ '9' then some (b.toNat - 48)
  else if 'a' ≤ b ∧ b ≤ 'f' then some (b.toNat - 97 + 10)
  else if 'A' ≤ b ∧ b ≤ 'F' then some (b.toNat - 65 + 10)
  else none

def octalValue (digits : Bytes) : ℕ := digits.foldl (fun n b => n * 8 + (b.toNat - 48)) 0

def hexValue (digits : Bytes) : ℕ := digits.foldl (fun n b => (n * 16 + (hexDigit b).getD 0) % 2 ^ 32) 0

def pushAnsiByte (value : ℕ) : Option Bytes := if value % 256 = 0 then none else some [UInt8.ofNat value]

def pushExtendedUtf8 (cp : ℕ) : Bytes :=
  let six (shift : ℕ) : UInt8 := UInt8.ofNat (0x80 + cp / 2 ^ shift % 64)
  if cp ≤ 0x7F then [UInt8.ofNat cp]
  else if cp ≤ 0x7FF then [UInt8.ofNat (0xC0 ||| cp / 2 ^ 6),six 0]
  else if cp ≤ 0xFFFF then [UInt8.ofNat (0xE0 ||| cp / 2 ^ 12),six 6,six 0]
  else if cp ≤ 0x1FFFFF then [UInt8.ofNat (0xF0 ||| cp / 2 ^ 18),six 12,six 6,six 0]
  else if cp ≤ 0x3FFFFFF then [UInt8.ofNat (0xF8 ||| cp / 2 ^ 24),six 18,six 12,six 6,six 0]
  else [UInt8.ofNat (0xFC ||| cp / 2 ^ 30 % 2),six 24,six 18,six 12,six 6,six 0]

def containsText (text part : List Char) : Bool := text.tails.any fun suffix => part.isPrefixOf suffix

def big5CodepointBytes (cp : ℕ) (locale : List Char) : Option Bytes :=
  let lower := locale.map Char.toLower
  if "zh_tw.".toList.isPrefixOf lower && containsText lower "big5".toList ||
      "zh_hk.".toList.isPrefixOf lower && containsText lower "big5hkscs".toList then
    let second (c : Char) : Option Bytes := some [0xA3,c.toUInt8]
    if cp = 0x03A8 then second 'Z'
    else if cp = 0x03A9 then second '['
    else if cp = 0x03B1 then second '\\'
    else if cp = 0x03B2 then second ']'
    else if cp = 0x03B3 then second '^'
    else if cp = 0x03B4 then second '_'
    else if cp = 0x03B5 then second '\x60'
    else if cp = 0x03B6 then second 'a'
    else none
  else none

def pushUnicodeForLocale (locale : Option (List Char)) (cp : ℕ) : Option Bytes :=
  if cp = 0 then none
  else if 0x7FFFFFFF < cp then some []
  else match locale.bind (big5CodepointBytes cp) with
  | some bytes => some bytes
  | none =>
    match charFromU32 cp with
    | some c => some (String.utf8EncodeChar c)
    | none => some (pushExtendedUtf8 cp)

def decodeHexEscape (bytes : Bytes) : ℕ × Bytes × ℕ :=
  if bytes.head? = some '{'.toUInt8 then
    let digits := bytes.tail.takeWhile fun b => (hexDigit b).isSome
    let after := bytes.tail.drop digits.length
    (hexValue digits,if after.head? = some '}'.toUInt8 then after.tail else after,digits.length)
  else
    let digits := (bytes.take 2).takeWhile fun b => (hexDigit b).isSome
    (hexValue digits,bytes.drop digits.length,digits.length)

/-- What the escape with this byte pushes, and the bytes behind it. -/
def escape (locale : Option (List Char)) (n : UInt8) (rest : Bytes) : Option Bytes × Bytes :=
  match simpleEscape n with
  | some b => (some [b],rest)
  | none =>
    if isOctal n then
      let digits := n :: (rest.take 2).takeWhile isOctal
      (pushAnsiByte (octalValue digits),rest.drop (digits.length - 1))
    else if n = 'x' then
      let (value,after,count) := decodeHexEscape rest
      if count = 0 ∧ rest.head? ≠ some '{'.toUInt8 then (some ['\\',n],rest)
      else (pushAnsiByte value,after)
    else if n = 'u' ∨ n = 'U' then
      let digits := (rest.take (if n = 'u' then 4 else 8)).takeWhile fun b => (hexDigit b).isSome
      if digits = [] then (some ['\\',n],rest)
      else (pushUnicodeForLocale locale (hexValue digits),rest.drop digits.length)
    else if n = 'c' then
      match rest with
      | [] => (some ['\\',n],[])
      | c :: after =>
        if c = '\\' then
          (pushAnsiByte 0x1C,if after.head? = some '\\'.toUInt8 then after.tail else after)
        else (pushAnsiByte (if c = '?' then 0x7F else c.toNat % 32),after)
    else (some ['\\',n],rest)

/-- Every round takes a byte at least, so the length bounds them. -/
def ansiCDecodeWith (locale : Option (List Char)) : ℕ → Bytes → Bytes
  | 0, _ => []
  | _, [] => []
  | _, [b] => [b]
  | fuel + 1, b :: n :: rest =>
    if b ≠ '\\' then b :: ansiCDecodeWith locale fuel (n :: rest)
    else match escape locale n rest with
    | (none,_) => []
    | (some out,rest) => out ++ ansiCDecodeWith locale fuel rest

def ansiCDecodeForLocale (locale : Option (List Char)) (src : Bytes) : Bytes := ansiCDecodeWith locale src.length src
end Cherubsh.Expander.Quote
