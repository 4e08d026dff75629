import Cherubsh.Expander.ShellString
import Cherubsh.Expander.Arith.Lexer
import Mathlib.Data.List.DropRight

/-! # The values that read assigns

A line comes with marks in front of the characters that a backslash has escaped. A cursor, the
list of characters it has not passed, takes a word for each name but the last.
-/
namespace Cherubsh.Builtins.Read
open Expander.Arith (Text)
open Expander.ShellString Utf8

abbrev Marked := Char × Bool

def escapedChar : Char := Char.ofNat 0xE000

def markedChars : Text → List Marked
  | [] => []
  | c :: rest =>
    if c = escapedChar then
      match rest with
      | [] => []
      | next :: rest => (next,true) :: markedChars rest
    else (c,false) :: markedChars rest

def dequoteItems (items : List Marked) : Text := items.map Prod.fst

def dequoteMarked (s : Text) : Text := dequoteItems (markedChars s)

def isSpace (c : Char) : Bool := c ∈ [' ','\t','\n','\r','\x0c','\x0b']

def isIfsWhitespace (ifs : Text) (c : Char) : Bool := isSpace c && c ∈ ifs

def isIfsNonWhitespace (ifs : Text) (c : Char) : Bool := c ∈ ifs && !isSpace c

section
variable (ifs : Text)

def unescapedWhite (item : Marked) : Bool := !item.2 && isIfsWhitespace ifs item.1

def trimIfsWhitespaceMarked (s : Text) (trimEscaped : Bool) : Text :=
  let p : Marked → Bool := fun item => (!item.2 || trimEscaped) && isIfsWhitespace ifs item.1
  dequoteItems (((markedChars s).dropWhile p).rdropWhile p)

def afterWord : List Marked → List Marked
  | [] => []
  | sep :: rest =>
    let rest := rest.dropWhile (unescapedWhite ifs)
    if unescapedWhite ifs sep then
      match rest with
      | [] => []
      | item :: more => if !item.2 && isIfsNonWhitespace ifs item.1 then more.dropWhile (unescapedWhite ifs) else item :: more
    else rest

def getWordFromMarked (chars : List Marked) : Option Text × List Marked :=
  let start := chars.dropWhile (unescapedWhite ifs)
  if start = [] then (none,[])
  else
    let inWord : Marked → Bool := fun item => item.2 || !decide (item.1 ∈ ifs)
    (some (dequoteItems (start.takeWhile inWord)),afterWord ifs (start.dropWhile inWord))

def stripTrailingIfsWhitespaceItems (chars : List Marked) : Text := dequoteItems (chars.rdropWhile (unescapedWhite ifs))

def firstWords : ℕ → List Marked → List Text × List Marked
  | 0,chars => ([],chars)
  | n + 1,chars =>
    let (word,rest) := getWordFromMarked ifs chars
    let (words,rest) := firstWords n rest
    (word.getD [] :: words,rest)

def lastValue (chars : List Marked) : Text :=
  if chars = [] then []
  else
    let (word,probe) := getWordFromMarked ifs chars
    if probe = [] then word.getD [] else stripTrailingIfsWhitespaceItems ifs chars
end

def cutAt (needle : Bytes) : Bytes → Option (Bytes × Bytes)
  | [] => none
  | b :: rest =>
    if needle.isPrefixOf (b :: rest) then some ([],(b :: rest).drop needle.length)
    else (cutAt needle rest).map fun (before,behind) => (b :: before,behind)

def splitBytes (ifs : Bytes) : ℕ → Bytes → List Text
  | 0,bytes => [bytesToShellString bytes]
  | n + 1,bytes =>
    match cutAt ifs bytes with
    | some (before,behind) => bytesToShellString before :: splitBytes ifs n behind
    | none => bytesToShellString bytes :: splitBytes ifs n []

def splitReadVariablesBytes (s : Text) (ifs : Bytes) (count : ℕ) : List Text :=
  splitBytes ifs (count - 1) (shellStringToBytes (dequoteMarked s))

def big5Alpha : Bytes := [0xa3,0x5c]

def resize (count : ℕ) (values : List Text) : List Text := values ++ List.replicate (count - values.length) []

def splitReadVariablesMarked (s ifs : Text) (count : ℕ) : List Text :=
  if count = 0 then []
  else if shellStringToBytes ifs = big5Alpha then splitReadVariablesBytes s big5Alpha count
  else if count = 1 ∨ ifs = [] then
    resize count [if ifs = [] then dequoteMarked s else trimIfsWhitespaceMarked ifs s true]
  else
    let (words,rest) := firstWords ifs (count - 1) (markedChars s)
    words ++ [lastValue ifs rest]

def readValues (line ifs : Text) (names : List String) : List (String × Text) :=
  match names with
  | [] => [("REPLY",dequoteMarked line)]
  | [name] => [(name,if ifs = [] then dequoteMarked line else trimIfsWhitespaceMarked ifs line true)]
  | names => names.zip (splitReadVariablesMarked line ifs names.length)
end Cherubsh.Builtins.Read
