import Cherubsh.Expander.Braces
import Cherubsh.Library.Forward

/-! # Where substitutions end

The scanners for the inside of `$(…)` and `${…}`. Each copies the bytes of its body, with a
few that it leaves out, and stops at the byte that closes it. They call one another; each is
given the others, and the knot is tied by the depth to which they nest.
-/
namespace Cherubsh.Expander.ParamScanning
open Utf8 Forward
open Braces (throughQuote throughSingleQuote)

inductive ExtractError where
  | badSubstitution (message : String)
  | arithSyntax (message : String)
  | other (message : String)
  | tooDeep
  deriving DecidableEq

abbrev Extracted : Type := Except ExtractError (Bytes × Bytes)

def isAsciiWhitespace (b : UInt8) : Bool := b = 0x20 || b = 0x09 || b = 0x0A || b = 0x0C || b = 0x0D

def isNameStart (b : UInt8) : Bool := b = '_' || Braces.isAlphabetic b

def isDigit (b : UInt8) : Bool := '0' ≤ b && b ≤ '9'

def isNameByte (b : UInt8) : Bool := isNameStart b || isDigit b

def isShellMetacharacter (b : UInt8) : Bool :=
  b = '|' || b = '&' || b = ';' || b = '<' || b = '>' || b = '(' || b = ')'

def asciiBytes (s : String) : Bytes := s.toList.map Char.toUInt8

instance : Coe String Bytes := ⟨asciiBytes⟩

def readBetween (text rest : Bytes) : Bytes := text.take (text.length - rest.length)

def lastSignificant (raw : Bytes) (before : Option UInt8) : Option UInt8 :=
  (raw.reverse.find? fun b => !isAsciiWhitespace b).or before

structure Extractors where
  paren : Bytes → Extracted
  braceBody : Bool → Bytes → Extracted

def appendAnsiCLiteral : Bytes → Option (Bytes × Bytes)
  | b :: c :: rest =>
    if b = '$' ∧ c = '\'' then
      let after := (Quote.scanAnsiCQuoted rest).2
      some (readBetween (b :: c :: rest) after,after)
    else none
  | _ => none

inductive DParenScan where
  | arithmetic (inside rest : Bytes)
  | commandSubstitution
  | missing

/-- From behind two opening parentheses: what is inside up to two closing ones. -/
def arithDparenScanFrom : ℕ → ℕ → Bytes → Bytes → DParenScan
  | 0, _, _, _ => .missing
  | _, _, _, [] => .missing
  | fuel + 1, depth, inside, b :: rest =>
    if b = '\\' ∧ rest ≠ [] then arithDparenScanFrom fuel depth (inside ++ b :: rest.take 1) (rest.drop 1)
    else if b = '\'' ∨ b = '"' ∨ b = '\x60' then
      arithDparenScanFrom fuel depth (inside ++ b :: (throughQuote b rest).1) (throughQuote b rest).2
    else if b = '(' then arithDparenScanFrom fuel (depth + 1) (inside ++ [b]) rest
    else if b = ')' then
      if depth = 1 then
        if rest.head? = some ')'.toUInt8 then .arithmetic inside rest.tail
        else
          match (rest.dropWhile fun c => c = 0x20 || c = 0x09 || c = 0x0D).head? with
          | none => .commandSubstitution
          | some c =>
            if c = ')' ∨ c = 0x0A ∨ c = ';' ∨ c = '&' ∨ c = '|' then .commandSubstitution
            else .missing
      else arithDparenScanFrom fuel (depth - 1) (inside ++ [b]) rest
    else arithDparenScanFrom fuel depth (inside ++ [b]) rest

def arithDparenScan (text : Bytes) : DParenScan := arithDparenScanFrom text.length 1 [] text

def extractDoubleParen (text : Bytes) : Extracted :=
  match arithDparenScan text with
  | .arithmetic inside rest => .ok (inside,rest)
  | _ => .error (.arithSyntax "missing '))'")

def appendSubstitution (ext : Extractors) (text : Bytes) : Extracted :=
  if text.head? = some '('.toUInt8 then
    (extractDoubleParen text.tail).map fun p => ('('.toUInt8 :: p.1 ++ [')'.toUInt8,')'.toUInt8],p.2)
  else (ext.paren text).map fun p => (p.1 ++ [')'.toUInt8],p.2)

def copied (chunk : Bytes) (rest : Extracted) : Extracted := rest.map fun p => (chunk ++ p.1,p.2)

def appendDoubleQuotedBytes (ext : Extractors) : ℕ → Bytes → Extracted
  | 0, _ => .error .tooDeep
  | _, [] => .ok ([],[])
  | fuel + 1, b :: rest =>
    if b = '"' then .ok ([b],rest)
    else if b = '\\' ∧ rest ≠ [] then copied (b :: rest.take 1) (appendDoubleQuotedBytes ext fuel (rest.drop 1))
    else if b = '$' ∧ rest.head? = some '{'.toUInt8 then do
      let (inner,after) ← ext.braceBody false rest.tail
      copied ("$\x7b" ++ inner ++ "\x7d") (appendDoubleQuotedBytes ext fuel after)
    else if b = '$' ∧ rest.head? = some '('.toUInt8 then do
      let (inner,after) ← appendSubstitution ext rest.tail
      copied ("$(" ++ inner) (appendDoubleQuotedBytes ext fuel after)
    else if b = '\x60' then
      copied (b :: (throughQuote b rest).1) (appendDoubleQuotedBytes ext fuel (throughQuote b rest).2)
    else copied [b] (appendDoubleQuotedBytes ext fuel rest)

/-- A quotation, from behind its opening quote. A backslash hides the byte behind it in
single quotes too. -/
def appendQuotedBytes (ext : Extractors) (quote : UInt8) (rest : Bytes) : Extracted :=
  copied [quote] (if quote = '"' then appendDoubleQuotedBytes ext (rest.length + 1) rest else .ok (throughQuote quote rest))

structure Delimiter where
  out : Bytes
  text : Bytes
  quote : Option UInt8

def readDelimiter : Delimiter → Bytes → Delimiter × Bytes
  | d, [] => (d,[])
  | d, [b] =>
    match d.quote with
    | some q => if b = q then ({ d with out := d.out ++ [b], quote := none },[]) else ({ d with out := d.out ++ [b], text := d.text ++ [b] },[])
    | none =>
      if b = '\'' ∨ b = '"' then ({ d with out := d.out ++ [b], quote := some b },[])
      else if b = '\\' then (d,[])
      else if isAsciiWhitespace b || isShellMetacharacter b then (d,[b])
      else ({ d with out := d.out ++ [b], text := d.text ++ [b] },[])
  | d, b :: c :: rest =>
    match d.quote with
    | some q =>
      if b = q then readDelimiter { d with out := d.out ++ [b], quote := none } (c :: rest)
      else readDelimiter { d with out := d.out ++ [b], text := d.text ++ [b] } (c :: rest)
    | none =>
      if b = '\'' ∨ b = '"' then readDelimiter { d with out := d.out ++ [b], quote := some b } (c :: rest)
      else if b = '\\' then
        if c = 0x0A then readDelimiter d rest else readDelimiter { d with out := d.out ++ [b,c], text := d.text ++ [c] } rest
      else if isAsciiWhitespace b || isShellMetacharacter b then (d,b :: c :: rest)
      else readDelimiter { d with out := d.out ++ [b], text := d.text ++ [b] } (c :: rest)

/-- From behind `<<`: what is copied, the here-document that is announced, and the rest. -/
def appendHeredocRedirect (text : Bytes) : Bytes × List (Bytes × Bool) × Bytes :=
  let stripTabs := text.head? = some '-'.toUInt8
  let after := if stripTabs then text.tail else text
  let blanks := after.takeWhile fun b => b = 0x20 || b = 0x09
  let (d,rest) := readDelimiter ⟨"<<" ++ text.take (text.length - after.length) ++ blanks,[],none⟩ (after.drop blanks.length)
  let delimiter := if stripTabs then d.text.dropWhile (· = 0x09) else d.text
  (d.out,if delimiter = [] then [] else [(delimiter,stripTabs)],rest)

def heredocDelimiterClosingParen (candidate delimiter : Bytes) : Option ℕ :=
  if delimiter.isPrefixOf candidate then
    let offset := delimiter.length + ((candidate.drop delimiter.length).takeWhile fun b => b = 0x20 || b = 0x09).length
    if candidate[offset]? = some ')'.toUInt8 then some offset else none
  else none

structure Paren where
  depth : ℕ
  caseDepth : ℕ
  commentOk : Bool
  heredocs : List (Bytes × Bool)
  atLineStart : Bool
  previous : Option UInt8
  body : Bytes

def Paren.start (previous : Option UInt8) : Paren := ⟨1,0,true,[],false,previous,[]⟩

def Paren.add (s : Paren) (chunk : Bytes) (commentOk : Bool) : Paren :=
  { s with body := s.body ++ chunk, commentOk := commentOk, atLineStart := false }

def heredocLine (s : Paren) (delimiter : Bytes) (stripTabs : Bool) (others : List (Bytes × Bool)) (text : Bytes) :
    Round Paren UInt8 Extracted :=
  let line := text.takeWhile (· ≠ 0x0A)
  let after := text.dropWhile (· ≠ 0x0A)
  let candidate := if stripTabs then line.dropWhile (· = 0x09) else line
  match if s.depth = 1 then heredocDelimiterClosingParen candidate delimiter else none with
  | some offset =>
    .stop (.ok (s.body ++ line.take (line.length - candidate.length) ++ delimiter,candidate.drop (offset + 1) ++ after))
  | none =>
    .next { s.add (line ++ after.take 1) true with
      atLineStart := true
      heredocs := if candidate = delimiter then others else s.heredocs } (after.drop 1)

/-- How a word changes the number of open case commands. -/
def Paren.caseDepthAfter (s : Paren) (word : Bytes) : ℕ :=
  if word = "case" then s.caseDepth + 1
  else if word = "esac" ∧ s.previous ≠ some '|'.toUInt8 ∧ s.previous ≠ some '('.toUInt8 then s.caseDepth - 1
  else s.caseDepth

def otherByte (s : Paren) (b : UInt8) (rest : Bytes) : Round Paren UInt8 Extracted :=
  let plain := s.add [b] (isAsciiWhitespace b || isShellMetacharacter b)
  if b = '(' then .next { plain with depth := s.depth + 1 } rest
  else if b = ')' then
    if 0 < s.caseDepth ∧ s.depth = 1 then .next (s.add [b] true) rest
    else if s.depth = 1 then .stop (.ok (s.body,rest))
    else .next { plain with depth := s.depth - 1 } rest
  else .next plain rest

def parenMove (ext : Extractors) (s : Paren) (b : UInt8) (rest : Bytes) : Round Paren UInt8 Extracted :=
  match s.atLineStart,s.heredocs with
  | true, (delimiter,stripTabs) :: others => heredocLine s delimiter stripTabs others (b :: rest)
  | _, _ =>
    if b = 0x0A then .next { s.add [b] true with atLineStart := true } rest
    else if b = '#' ∧ s.commentOk then
      .next (s.add ((b :: rest).takeWhile (· ≠ 0x0A)) s.commentOk) ((b :: rest).dropWhile (· ≠ 0x0A))
    else if b = '\\' ∧ rest ≠ [] then .next (s.add (b :: rest.take 1) false) (rest.drop 1)
    else match appendAnsiCLiteral (b :: rest) with
    | some (chunk,after) => .next (s.add chunk false) after
    | none =>
      if b = '\'' ∨ b = '"' ∨ b = '\x60' then
        match appendQuotedBytes ext b rest with
        | .error e => .stop (.error e)
        | .ok (chunk,after) => .next (s.add chunk false) after
      else if b = '<' ∧ rest.head? = some '<'.toUInt8 then
        let (chunk,heredocs,after) := appendHeredocRedirect rest.tail
        .next { s.add chunk false with heredocs := s.heredocs ++ heredocs } after
      else if isNameStart b then
        let word := b :: rest.takeWhile isNameByte
        .next { s.add word false with caseDepth := s.caseDepthAfter word } (rest.dropWhile isNameByte)
      else otherByte s b rest

/-- A move that also keeps the last byte read that is no whitespace. -/
def parenStep (ext : Extractors) (s : Paren) (b : UInt8) (rest : Bytes) : Round Paren UInt8 Extracted :=
  match parenMove ext s b rest with
  | .stop result => .stop result
  | .next t after => .next { t with previous := lastSignificant (readBetween (b :: rest) after) s.previous } after

def extractParenWith (ext : Extractors) (previous : Option UInt8) (text : Bytes) : Extracted :=
  run (parenStep ext) (fun _ => .error (.badSubstitution "missing ')'")) (.start previous) text

def closesBeforeQuote : Bool → Bytes → Bool
  | _, [] => false
  | escaped, [b] => b ≠ '\'' && b = '}' && escaped
  | escaped, b :: c :: rest =>
    if b = '\'' then false
    else if b = '\\' then closesBeforeQuote (escaped || c = '\'') rest
    else if b = '}' ∧ escaped then true
    else closesBeforeQuote escaped (c :: rest)

/-- Whether a quotation is closed, and whether an unescaped brace stands in it. -/
def quotationEnds : Bool → Bytes → Bool × Bool
  | brace, [] => (false,brace)
  | brace, [b] => (b = '"',brace || b = '}')
  | brace, b :: c :: rest =>
    if b = '"' then (true,brace)
    else if b = '\\' then quotationEnds brace rest
    else quotationEnds (brace || b = '}') (c :: rest)

structure BraceBody where
  swallowed : Bool
  body : Bytes

def BraceBody.add (s : BraceBody) (chunk : Bytes) : BraceBody := { s with body := s.body ++ chunk }

def braceQuotation (posixSingleQuote : Bool) (s : BraceBody) (b : UInt8) (rest : Bytes) : Round BraceBody UInt8 Extracted :=
  match quotationEnds false rest with
  | (true,brace) =>
    .next { s.add (b :: (throughQuote b rest).1) with swallowed := s.swallowed || brace } (throughQuote b rest).2
  | (false,_) =>
    if posixSingleQuote then .stop (.error (.other "unexpected EOF while looking for matching \x60\x7d'"))
    else .next (s.add [b]) rest

/-- The result of an inner scanner, with what is copied around its body. -/
def continueWith (s : BraceBody) (before after : Bytes) : Extracted → Round BraceBody UInt8 Extracted
  | .error e => .stop (.error e)
  | .ok (inner,rest) => .next (s.add (before ++ inner ++ after)) rest

def braceStep (ext : Extractors) (posixSingleQuote : Bool) (s : BraceBody) (b : UInt8) (rest : Bytes) :
    Round BraceBody UInt8 Extracted :=
  match appendAnsiCLiteral (b :: rest) with
  | some (chunk,after) => .next (s.add chunk) after
  | none =>
    if b = '\\' ∧ rest.head? = some '}'.toUInt8 then .next (s.add (rest.take 1)) (rest.drop 1)
    else if b = '\\' ∧ rest ≠ [] then .next (s.add (b :: rest.take 1)) (rest.drop 1)
    else if b = '\'' ∧ !posixSingleQuote then
      if closesBeforeQuote false rest then .next (s.add [b]) rest
      else .next (s.add (b :: (throughSingleQuote rest).1)) (throughSingleQuote rest).2
    else if b = '"' then braceQuotation posixSingleQuote s b rest
    else if b = '\x60' then continueWith s [] [] (appendQuotedBytes ext b rest)
    else if b = '$' ∧ rest.head? = some '{'.toUInt8 then
      continueWith s "$\x7b" "\x7d" (ext.braceBody posixSingleQuote rest.tail)
    else if b = '$' ∧ rest.head? = some '('.toUInt8 then
      continueWith s "$(" [] (appendSubstitution ext rest.tail)
    else if b = '}' then .stop (.ok (s.body,rest))
    else .next (s.add [b]) rest

def extractBraceBodyWith (ext : Extractors) (posixSingleQuote : Bool) (text : Bytes) : Extracted :=
  run (braceStep ext posixSingleQuote) (fun s =>
    if s.swallowed then .error (.other "unexpected EOF while looking for matching \x60\x7d'")
    else .error (.badSubstitution "missing '\x7d'")) ⟨false,[]⟩ text

def extractors : ℕ → Extractors
  | 0 => ⟨fun _ => .error .tooDeep,fun _ _ => .error .tooDeep⟩
  | n + 1 => ⟨extractParenWith (extractors n) (some '('.toUInt8),extractBraceBodyWith (extractors n)⟩

def extractParen (previous : Option UInt8) (text : Bytes) : Extracted := extractParenWith (extractors text.length) previous text

def extractBraceBody (posixSingleQuote : Bool) (text : Bytes) : Extracted :=
  extractBraceBodyWith (extractors text.length) posixSingleQuote text
end Cherubsh.Expander.ParamScanning
