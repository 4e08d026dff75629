import Cherubsh.Builtins.PrintfFormat
import Cherubsh.Library.Calls

/-! # The printf builtin

A round goes over the format once and takes the arguments it needs; rounds are made as
long as arguments are left. Every number is rendered by the C library into a buffer
that grows on demand, so a round is a program whose requests are these renderings.
-/
namespace Cherubsh.Builtins.Printf
open Utf8 Expander.Arith Expander.ShellString List

/-- What the C library and the variables decide. `strftime` gives what fits into a buffer of the
length. -/
structure Host where
  Env : Type
  Float : Type
  zero : Float
  ofCode : ℕ → Float
  parseFloat : Text → Option Float
  renderFloat : Env → ResolvedFormat → Float → Bytes
  commaLocale : Env → Bool
  emitCodepoint : Env → Char → Bytes
  assign : Env → Text → Text → Except Text Env
  assignTarget : Env → Text → Text → Except Text Env
  now : ℤ
  shellStartEpoch : Env → ℤ
  localtime : ℤ → Bool
  strftime : Text → ℤ → ℕ → Bytes

variable (H : Host)

section
variable (env : H.Env)

/-- What an escape puts out, the bytes behind it, whether it failed, and whether it ends the output. -/
structure Escaped where
  out : Bytes
  rest : Bytes
  reports : List Report := []
  failed : Bool := false
  stop : Bool := false

def emitHexEscape (diagnostic : Bool) (bytes : Bytes) : Escaped :=
  let digits := (bytes.take 2).takeWhile isHexByte
  if digits = [] then ⟨asciiBytes "\\x",bytes,[⟨diagnostic,"missing hex digit for \\x"⟩],true,false⟩
  else { out := [UInt8.ofNat (digits.foldl (fun n b => n * 16 + hexVal b) 0)], rest := bytes.drop digits.length }

def emitOctalDigits (bytes : Bytes) : Escaped :=
  let digits := (bytes.take 3).takeWhile isOctalByte
  { out := [UInt8.ofNat (digits.foldl (fun n b => n * 8 + (b.toNat - 0x30)) 0)], rest := bytes.drop digits.length }

def pushExtendedUtf8 (cp : ℕ) : Bytes :=
  let tail (shift : ℕ) : UInt8 := UInt8.ofNat (0x80 + cp / 2 ^ shift % 64)
  if cp < 0x80 then [UInt8.ofNat cp]
  else if cp < 0x800 then [UInt8.ofNat (0xC0 + cp / 2 ^ 6),tail 0]
  else if cp < 0x10000 then [UInt8.ofNat (0xE0 + cp / 2 ^ 12),tail 6,tail 0]
  else if cp < 0x200000 then [UInt8.ofNat (0xF0 + cp / 2 ^ 18),tail 12,tail 6,tail 0]
  else if cp < 0x4000000 then [UInt8.ofNat (0xF8 + cp / 2 ^ 24),tail 18,tail 12,tail 6,tail 0]
  else [UInt8.ofNat (0xFC + cp / 2 ^ 30 % 2),tail 24,tail 18,tail 12,tail 6,tail 0]

def emitUnicodeEscape (env : H.Env) (digits : ℕ) (bytes : Bytes) : Escaped :=
  let hex := (bytes.take digits).takeWhile isHexByte
  let value := hex.foldl (fun n b => n * 16 + hexVal b) 0
  if hex = [] then { out := asciiBytes (if digits = 4 then "\\u" else "\\U"), rest := bytes }
  else
    let out :=
      if 0x7FFFFFFF < value then []
      else match charFromU32 value with
      | some ch => H.emitCodepoint env ch
      | none => pushExtendedUtf8 value
    { out := out, rest := bytes.drop hex.length }

def byteEscape (b : UInt8) : Option UInt8 :=
  if b = ascii 'a' then some 0x07
  else if b = ascii 'b' then some 0x08
  else if b = ascii 'e' ∨ b = ascii 'E' then some 0x1B
  else if b = ascii 'f' then some 0x0C
  else if b = ascii 'n' then some 0x0A
  else if b = ascii 'r' then some 0x0D
  else if b = ascii 't' then some 0x09
  else if b = ascii 'v' then some 0x0B
  else if b = ascii '\\' ∨ b = ascii '"' ∨ b = ascii '\'' then some b
  else none

def emitCommonEscape (env : H.Env) (b : UInt8) (rest : Bytes) : Escaped :=
  match byteEscape b with
  | some c => { out := [c], rest }
  | none =>
    if b = ascii '0' then emitOctalDigits rest
    else if isOctalByte b then emitOctalDigits (b :: rest)
    else if b = ascii 'x' then { emitHexEscape false rest with failed := false }
    else if b = ascii 'u' then emitUnicodeEscape H env 4 rest
    else if b = ascii 'U' then emitUnicodeEscape H env 8 rest
    else { out := [ascii '\\',b], rest }

def emitFormatEscape (env : H.Env) (b : UInt8) (rest : Bytes) : Escaped :=
  if b = ascii '0' then emitOctalDigits (b :: rest)
  else if b = ascii 'c' then { out := asciiBytes "\\c", rest }
  else if b = ascii '"' ∨ b = ascii '\'' ∨ b = ascii '?' then { out := [b], rest }
  else emitCommonEscape H env b rest

def emitBEscape (env : H.Env) (b : UInt8) (rest : Bytes) : Escaped :=
  if b = ascii 'c' then { out := [], rest := [], stop := true }
  else if b = ascii '"' ∨ b = ascii '\'' ∨ b = ascii '?' then { out := [ascii '\\',b], rest }
  else if b = ascii 'x' then emitHexEscape true rest
  else emitCommonEscape H env b rest

theorem length_rest_emitHexEscape (diagnostic : Bool) (bytes : Bytes) :
    (emitHexEscape diagnostic bytes).rest.length ≤ bytes.length := by
  unfold emitHexEscape
  dsimp only
  split
  · exact le_rfl
  · exact (drop_sublist _ _).length_le

theorem length_rest_emitOctalDigits (bytes : Bytes) : (emitOctalDigits bytes).rest.length ≤ bytes.length :=
  (drop_sublist _ _).length_le

theorem length_rest_emitOctalDigits_cons {b : UInt8} (hb : isOctalByte b = true) (rest : Bytes) :
    (emitOctalDigits (b :: rest)).rest.length ≤ rest.length := by
  unfold emitOctalDigits
  dsimp only
  rw [take_succ_cons,takeWhile_cons_of_pos hb,length_cons,drop_succ_cons]
  exact (drop_sublist _ _).length_le

theorem length_rest_emitUnicodeEscape (digits : ℕ) (bytes : Bytes) :
    (emitUnicodeEscape H env digits bytes).rest.length ≤ bytes.length := by
  unfold emitUnicodeEscape
  dsimp only
  split
  · exact le_rfl
  · exact (drop_sublist _ _).length_le

theorem length_rest_emitCommonEscape (b : UInt8) (rest : Bytes) :
    (emitCommonEscape H env b rest).rest.length ≤ rest.length := by
  unfold emitCommonEscape
  split
  · exact le_rfl
  split
  · exact length_rest_emitOctalDigits rest
  split
  · exact length_rest_emitOctalDigits_cons (by assumption) rest
  split
  · exact length_rest_emitHexEscape false rest
  split
  · exact length_rest_emitUnicodeEscape H env 4 rest
  split
  · exact length_rest_emitUnicodeEscape H env 8 rest
  · exact le_rfl

theorem length_rest_emitFormatEscape (b : UInt8) (rest : Bytes) :
    (emitFormatEscape H env b rest).rest.length ≤ rest.length := by
  unfold emitFormatEscape
  split
  · rename_i hb
    subst hb
    exact length_rest_emitOctalDigits_cons rfl rest
  split
  · exact le_rfl
  split
  · exact le_rfl
  · exact length_rest_emitCommonEscape H env b rest

theorem length_rest_emitBEscape (b : UInt8) (rest : Bytes) :
    (emitBEscape H env b rest).rest.length ≤ rest.length := by
  unfold emitBEscape
  split
  · exact Nat.zero_le _
  split
  · exact le_rfl
  split
  · exact length_rest_emitHexEscape true rest
  · exact length_rest_emitCommonEscape H env b rest

def interpretBEscapes (env : H.Env) (bytes : Bytes) : Escaped :=
  match bytes with
  | [] => { out := [], rest := [] }
  | b :: rest =>
    if b ≠ ascii '\\' then
      let more := interpretBEscapes env rest
      { more with out := b :: more.out }
    else match rest with
    | [] => { out := [b], rest := [] }
    | c :: rest =>
      let e := emitBEscape H env c rest
      if e.stop then e
      else
        let more := interpretBEscapes env e.rest
        { more with out := e.out ++ more.out, reports := e.reports ++ more.reports, failed := e.failed || more.failed }
termination_by bytes.length
decreasing_by
  · simp
  · have := length_rest_emitBEscape H env c rest
    simp only [length_cons]
    omega
end

/-! ### Numbers in C -/
section
def integerDigits (spec : ResolvedFormat) (base n : ℕ) : Text :=
  let digits := if n = 0 ∧ spec.precision = some 0 then [] else Nat.toDigits base n
  let digits := if spec.conv = 'X' then digits.map Char.toUpper else digits
  let digits := List.replicate (spec.precision.getD 0 - digits.length) '0' ++ digits
  if spec.conv = 'o' ∧ spec.alternate = true ∧ digits.head? ≠ some '0' then '0' :: digits else digits

def padInteger (spec : ResolvedFormat) (sign digits : Text) : Text :=
  let pad := spec.width.getD 0 - (sign.length + digits.length)
  if spec.left then sign ++ digits ++ List.replicate pad ' '
  else if spec.zero ∧ spec.precision = none then sign ++ List.replicate pad '0' ++ digits
  else List.replicate pad ' ' ++ sign ++ digits

def signOf (spec : ResolvedFormat) (value : ℤ) : Text :=
  if value < 0 then ['-'] else if spec.plus then ['+'] else if spec.space then [' '] else []

def radixMark (spec : ResolvedFormat) (value : ℕ) : Text :=
  if spec.alternate ∧ value ≠ 0 ∧ spec.conv = 'x' then ['0','x']
  else if spec.alternate ∧ value ≠ 0 ∧ spec.conv = 'X' then ['0','X']
  else []

def radix (spec : ResolvedFormat) : ℕ := if spec.conv = 'o' then 8 else if spec.conv = 'u' then 10 else 16

def renderSigned (spec : ResolvedFormat) (value : ℤ) : Bytes :=
  (padInteger spec (signOf spec value) (integerDigits spec 10 value.natAbs)).map ascii

def renderUnsigned (spec : ResolvedFormat) (value : ℕ) : Bytes :=
  (padInteger spec (radixMark spec value) (integerDigits spec (radix spec) value)).map ascii

inductive Request where
  | signed (spec : ResolvedFormat) (value : ℤ)
  | unsigned (spec : ResolvedFormat) (value : ℕ)
  | float (env : H.Env) (spec : ResolvedFormat) (value : H.Float)

variable {H} in
def Request.rendering : Request H → Bytes
  | .signed spec value => renderSigned spec value
  | .unsigned spec value => renderUnsigned spec value
  | .float env spec value => H.renderFloat env spec value

/-- The C function: the length of the full rendering if it is an `int`, and what the buffer holds. -/
def snprintf (rendering : Bytes) (len : ℕ) : ℤ × Bytes :=
  (if (rendering.length : ℤ) ≤ i32Max then rendering.length else -1,rendering.take (len - 1))

def snprintfLoop (rendering : Bytes) : ℕ → ℕ → Option Text
  | 0, _ => none
  | fuel + 1, len =>
    let (written,buf) := snprintf rendering len
    if written < 0 then some []
    else if written.toNat < len then some (fromUtf8Lossy (buf.take written.toNat))
    else snprintfLoop rendering fuel (min (written.toNat + 1) (maxPrintfWidth + 128))

def snprintfToString (fuel : ℕ) (rendering : Bytes) : Option Text := snprintfLoop rendering fuel 128

def applyDecimalLocale (env : H.Env) (rendered : Text) : Text :=
  if rendered.contains ',' then rendered
  else if H.commaLocale env then rendered.map fun c => if c = '.' then ',' else c
  else rendered

/-- The retry loop over buffers of 128 bytes and their doublings. -/
def strftimeLoop (format : Text) (secs : ℤ) (doublings : ℕ) : Bytes :=
  let len := 128 * 2 ^ doublings
  let written := H.strftime format secs len
  if h : 0 < written.length ∨ 4096 < len then written else strftimeLoop format secs (doublings + 1)
termination_by 6 - doublings
decreasing_by
  have hlen : ¬4096 < 128 * 2 ^ doublings := fun hlt => h (.inr hlt)
  have hsmall : doublings < 6 := by
    by_contra hge
    have hpow := Nat.pow_le_pow_right (n := 2) (by decide) (Nat.le_of_not_lt hge)
    exact hlen (by omega)
  omega

def formatTime (secs : ℤ) (spec : ResolvedFormat) : Text :=
  let format := spec.timeFormat.getD []
  let format := if format = [] then ['%','X'] else format
  if format.contains '\x00' then []
  else if !H.localtime secs then []
  else applyStringSpec spec (fromUtf8Lossy (strftimeLoop H format secs 0))
end

/-! ### Rounds -/
section
structure RoundState where
  argIdx : ℕ
  out : Bytes
  env : H.Env
  status : ℕ
  reports : List Report
  stdout : Bytes

structure RoundOutcome where
  used : Bool
  stop : Bool
  status : ℕ

variable {H}

namespace RoundState
variable (st : RoundState H)

def start (env : H.Env) : RoundState H := ⟨0,[],env,0,[],[]⟩

def put (bytes : Bytes) : RoundState H := { st with out := st.out ++ bytes }

def report (reports : List Report) : RoundState H := { st with reports := st.reports ++ reports }

def fail (message : Text) : RoundState H :=
  { st with status := 1, reports := st.reports ++ [⟨true,message⟩] }

def takeArg (args : List Text) : Text × Bool × RoundState H :=
  let (value,present,argIdx) := Printf.takeArg args st.argIdx
  (value,present,{ st with argIdx })

def integerArg (value : Text) (present : Bool) : ℤ × RoundState H :=
  let (n,invalid) := parseIntegerArg value present
  (n,if invalid then { st with status := 1, reports := st.reports ++ [invalidNumber value] } else st)

def floatArg (value : Text) (present : Bool) : H.Float × RoundState H :=
  if !present ∨ value = [] then (H.zero,st)
  else
    match trim value with
    | '\'' :: rest => ((rest.head?.map fun c => H.ofCode c.toNat).getD H.zero,st)
    | '"' :: rest => ((rest.head?.map fun c => H.ofCode c.toNat).getD H.zero,st)
    | trimmed =>
      match H.parseFloat trimmed with
      | some n => (n,st)
      | none => (H.zero,{ st with status := 1, reports := st.reports ++ [invalidNumber value] })

def timeArg (value : Text) (present : Bool) : ℤ × RoundState H :=
  if !present then (H.now,st)
  else if trim value = ['-','1'] then (H.now,st)
  else if trim value = ['-','2'] then (H.shellStartEpoch st.env,st)
  else if trim value = [] then (0,st)
  else st.integerArg value present

def flushPartialStdout : RoundState H := { st with stdout := st.stdout ++ st.out, out := [] }
end RoundState

def isValidName : Text → Bool
  | c :: rest => (c.isAlpha || c = '_') && rest.all fun c => c.isAlphanum || c = '_'
  | [] => false

/-- `%n` assigns the number of bytes put out so far. -/
def convertCount (streamOutput : Bool) (name : Text) (st : RoundState H) : RoundState H :=
  if name = [] then st
  else if !isValidName name then
    let st := if streamOutput then st.flushPartialStdout else st
    st.fail ("\x60" ++ name ++ "': not a valid identifier")
  else
    match H.assign st.env name (toString st.out.length).toList with
    | .ok env => { st with env }
    | .error message => st.fail message

def convert (args : List Text) (streamOutput : Bool) (spec : ResolvedFormat) (st : RoundState H) :
    Program (Request H) Text (RoundState H × Bool) :=
  let (value,present,st) := st.takeArg args
  match spec.conv with
  | 's' | 'S' => return (st.put (shellStringToBytes (applyStringSpec spec value)),false)
  | 'b' =>
    let e := interpretBEscapes H st.env (encode value)
    let escaped := bytesToShellString e.out
    let st := (st.report e.reports).put (shellStringToBytes (applyStringSpec spec escaped))
    let st := if e.failed then { st with status := 1 } else st
    return if e.stop then ({ st with argIdx := args.length },true) else (st,false)
  | 'q' =>
    let quoted := if spec.alternate then printfQuoteSingle value else printfQuote value
    return (st.put (encode (applyStringSpec spec quoted)),false)
  | 'Q' =>
    let value := (spec.precision.map fun n => value.take n).getD value
    let quoted := if spec.alternate then printfQuoteSingle value else printfQuote value
    return (st.put (encode (applyStringSpec { spec with precision := none } quoted)),false)
  | 'c' | 'C' => return (st.put (encode (applyStringSpec spec [value.head?.getD '\x00'])),false)
  | 'd' | 'i' => do
    let (n,st) := st.integerArg value present
    let text ← Program.call (.signed spec n)
    return (st.put (encode text),false)
  | 'o' | 'u' | 'x' | 'X' => do
    let (n,st) := st.integerArg value present
    let text ← Program.call (.unsigned spec (n % 2 ^ 64).toNat)
    return (st.put (encode text),false)
  | 'e' | 'E' | 'f' | 'F' | 'g' | 'G' => do
    let (n,st) := st.floatArg value present
    let text ← Program.call (.float st.env spec n)
    return (st.put (encode (applyDecimalLocale H st.env text)),false)
  | 'n' => return (convertCount streamOutput value st,false)
  | 'T' =>
    let (secs,st) := st.timeArg value present
    return (st.put (encode (formatTime H secs spec)),false)
  | _ => return (st,false)

def formatRound (args : List Text) (streamOutput : Bool) (bytes : Bytes) (anyConv : Bool) (st : RoundState H) :
    Program (Request H) Text (RoundState H × RoundOutcome) :=
  match bytes with
  | [] => return (st,⟨anyConv,false,st.status⟩)
  | b :: rest =>
    if b = ascii '\\' then
      match rest with
      | [] => return (st.put [b],⟨anyConv,false,st.status⟩)
      | c :: rest =>
        let e := emitFormatEscape H st.env c rest
        formatRound args streamOutput e.rest anyConv ((st.report e.reports).put e.out)
    else if b ≠ ascii '%' then formatRound args streamOutput rest anyConv (st.put [b])
    else if rest.head? = some (ascii '%') then formatRound args streamOutput rest.tail anyConv (st.put [b])
    else
      match _hparse : parseConversion rest with
      | .missing raw => return (st.fail ("\x60" ++ raw ++ "': missing format character"),⟨anyConv,true,1⟩)
      | .invalid ch => return (st.fail ("\x60" ++ [ch] ++ "': invalid format character"),⟨anyConv,true,1⟩)
      | .invalidTime ch raw next =>
        let st := st.report [⟨true,"warning: \x60" ++ [ch] ++ "': invalid time format specification"⟩]
        formatRound args streamOutput next anyConv (st.put (encode raw))
      | .ok parsed next => do
        let st := if parsed.conv = 'Q' ∧ parsed.precisionOverflow then st.fail "precision: invalid number" else st
        let (spec,argIdx,reports) := resolveStars parsed args st.argIdx
        let (st,stop) ← convert args streamOutput spec ({ st with argIdx }.report reports)
        if stop then return (st,⟨true,true,st.status⟩) else formatRound args streamOutput next true st
termination_by bytes.length
decreasing_by
  · have := length_rest_emitFormatEscape H st.env c rest
    simp only [length_cons]
    omega
  · simp
  · exact Nat.lt_succ_of_le (tail_sublist rest).length_le
  · exact Nat.lt_succ_of_lt (length_parseConversion_lt (by rw [_hparse]; rfl))
  · exact Nat.lt_succ_of_lt (length_parseConversion_lt (by rw [_hparse]; rfl))

/-- The loop of `run`; `none` is a loop that has not come to its end. -/
def rounds (format : Bytes) (args : List Text) (streamOutput : Bool) :
    ℕ → ℕ → RoundState H → Program (Request H) Text (Option (ℕ × RoundState H))
  | 0, _, _ => return none
  | fuel + 1, status, st => do
    let (st,outcome) ← formatRound args streamOutput format false { st with status := 0 }
    let status := max status outcome.status
    if !outcome.used || outcome.stop then return some (status,st)
    else if args.length ≤ st.argIdx then return some (status,st)
    else rounds format args streamOutput fuel status st

structure Result (H : Host) where
  status : ℕ
  env : H.Env
  stdout : Bytes
  reports : List Report

def finish (target : Option Text) (status : ℕ) (st : RoundState H) : Result H :=
  match target with
  | some name =>
    match H.assignTarget st.env name (bytesToShellString st.out) with
    | .ok env => ⟨status,env,st.stdout,st.reports⟩
    | .error message => ⟨1,st.env,st.stdout,st.reports ++ [⟨true,message⟩]⟩
  | none => ⟨status,st.env,st.stdout ++ st.out,st.reports⟩

def run (fuel : ℕ) (target : Option Text) (fmt : Text) (args : List Text) (env : H.Env) :
    Program (Request H) Text (Option (Result H)) := do
  let last ← rounds (encode fmt) args target.isNone fuel 0 (.start env)
  return last.map fun (status,st) => finish target status st
end
end Cherubsh.Builtins.Printf
