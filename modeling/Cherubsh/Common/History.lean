import Cherubsh.Library.Utf8
import Mathlib.Data.List.DropRight

/-! # The command-history table

The table keeps its entries in order, the number of entries dropped off its front and the position
of the first entry that `history -a` has not written yet.
-/
namespace Cherubsh.Common

abbrev Text := List Char

structure HistControl where
  ignorespace : Bool
  ignoredups : Bool
  erasedups : Bool
  deriving DecidableEq

structure HistoryEntry where
  line : Text
  timestamp : Option ℕ
  timestampFromFile : Bool
  deriving DecidableEq

structure HistoryTable where
  entries : List HistoryEntry
  max : ℕ
  base : ℕ
  newSinceSave : ℕ
  deriving DecidableEq

/-- What reading a history file meets; `none` is a line that could not be read. -/
inductive HistoryFile where
  | notFound
  | openError
  | lines (reads : List (Option Text))
  deriving DecidableEq

def stripCarriageReturn (line : Text) : Text := if line.getLast? = some '\r' then line.dropLast else line

/-- `str::lines` and `BufRead::lines`, with the characters of the line begun so far. -/
def linesFrom (line : Text) : Text → List Text
  | [] => if line = [] then [] else [line]
  | '\n' :: rest => stripCarriageReturn line :: linesFrom [] rest
  | ch :: rest => linesFrom (line ++ [ch]) rest

def HistoryFile.holding (text : Text) : HistoryFile := .lines ((linesFrom [] text).map some)

/-- What appending to a history file meets; a write may fail after a number of lines. -/
inductive AppendOutcome where
  | ok
  | openError
  | writeError (written : ℕ)
  deriving DecidableEq

structure QuoteState where
  quote : Option Char
  escaped : Bool
  deriving DecidableEq

def quoteStep (s : QuoteState) (ch : Char) : QuoteState :=
  if s.escaped then { s with escaped := false }
  else match s.quote with
  | some '\'' => if ch = '\'' then { s with quote := none } else s
  | some '"' =>
    if ch = '\\' then { s with escaped := true }
    else if ch = '"' then { s with quote := none } else s
  | _ =>
    if ch = '\\' then { s with escaped := true }
    else if ch = '\'' ∨ ch = '"' then { s with quote := some ch } else s

def quotesBalanced (input : Text) : Bool :=
  let s := input.foldl quoteStep ⟨none,false⟩
  s.quote.isNone && !s.escaped

def isDelimiterEnd (ch : Char) : Bool :=
  ch = ' ' || ch = '\t' || ch = ';' || ch = '|' || ch = '&'

/-- The here-document delimiters that a line announces, with their quotes taken out. -/
def extractHeredocDelimiters : ℕ → Text → List Text
  | fuel + 1, '<' :: '<' :: '<' :: rest => extractHeredocDelimiters fuel rest
  | fuel + 1, '<' :: '<' :: rest =>
    let rest := match rest with
      | '-' :: rest => rest
      | rest => rest
    let rest := rest.dropWhile (fun ch => ch = ' ' || ch = '\t')
    let raw := rest.takeWhile (fun ch => !isDelimiterEnd ch)
    let delimiter := raw.filter (fun ch => !(ch = '\'' || ch = '"' || ch = '\\'))
    let later := extractHeredocDelimiters fuel (rest.dropWhile (fun ch => !isDelimiterEnd ch))
    if delimiter = [] then later else delimiter :: later
  | fuel + 1, _ :: rest => extractHeredocDelimiters fuel rest
  | _, _ => []

/-- A line closes the first delimiter waited for, is body text, or announces new ones. -/
def heredocStep (pending : List Text) (line : Text) : List Text :=
  match pending with
  | delim :: rest => if line = delim then rest else pending
  | [] => extractHeredocDelimiters line.length line

def heredocsClosed (input : Text) : Bool := ((linesFrom [] input).foldl heredocStep []).isEmpty

def historyEntryComplete (input : Text) : Bool := quotesBalanced input && heredocsClosed input

namespace HistoryTable
variable (t : HistoryTable)

def new (max : ℕ) : HistoryTable := ⟨[],Nat.max max 1,0,0⟩

/-- Dropping entries off the front while there are too many; the marker moves along
until it stands at the front. -/
def trimFrom (max : ℕ) : List HistoryEntry → ℕ → ℕ → HistoryTable
  | [], base, mark => ⟨[],max,base,mark⟩
  | e :: es, base, mark =>
    if max < (e :: es).length then trimFrom max es (base + 1) (mark - 1) else ⟨e :: es,max,base,mark⟩

theorem trimFrom_eq (max : ℕ) (entries : List HistoryEntry) (base mark : ℕ) :
    trimFrom max entries base mark =
      ⟨entries.drop (entries.length - max),max,base + (entries.length - max),mark - (entries.length - max)⟩ := by
  induction entries generalizing base mark with
  | nil => simp [trimFrom]
  | cons e es ih =>
    unfold trimFrom
    split
    · rename_i h
      simp only [List.length_cons] at h
      have hk : (e :: es).length - max = (es.length - max) + 1 := by simp only [List.length_cons]; omega
      rw [ih,hk,List.drop_succ_cons]
      congr 1 <;> omega
    · rename_i h
      have hk : (e :: es).length - max = 0 := by omega
      rw [hk]
      rfl

def trim : HistoryTable := trimFrom t.max t.entries t.base t.newSinceSave

def setMax (max : ℕ) : HistoryTable := trim { t with max := Nat.max max 1 }

def addRefused (line : Text) (control : HistControl) : Bool :=
  line.isEmpty || (control.ignorespace && line.head? = some ' ') ||
    (control.ignoredups && (t.entries.getLast?.map HistoryEntry.line) = some line)

def add (line : Text) (control : HistControl) (now : Option ℕ) : Bool × HistoryTable :=
  if t.addRefused line control then (false,t)
  else
    let entries := if control.erasedups then t.entries.filter (fun e => e.line ≠ line) else t.entries
    (true,trim { t with entries := entries ++ [⟨line,now,false⟩] })

def addForced (line : Text) (timestamp : Option ℕ) : HistoryTable :=
  trim { t with entries := t.entries ++ [⟨line,timestamp,false⟩] }

def removeAt (idx : ℕ) : Bool × HistoryTable :=
  if idx = 0 ∨ idx ≤ t.base then (false,t)
  else if t.entries.length ≤ idx - t.base - 1 then (false,t)
  else (true,{ t with entries := t.entries.eraseIdx (idx - t.base - 1) })

def rangePositions (start stop : ℕ) : Option (ℕ × ℕ) :=
  let first := t.base + 1
  let last := t.base + t.entries.length
  if last < start ∨ stop < first then none
  else some (Nat.max start first - first,Nat.min stop last - t.base)

def removeRange (start stop : ℕ) : HistoryTable :=
  match t.rangePositions start stop with
  | none => t
  | some (s,e) => if s < e then { t with entries := t.entries.take s ++ t.entries.drop e } else t

def popLast : HistoryTable :=
  match t.entries with
  | [] => t
  | _ => { t with entries := t.entries.dropLast, newSinceSave := Nat.min t.newSinceSave t.entries.dropLast.length }

def replaceLast (line : Text) (control : HistControl) (now : Option ℕ) :
    Bool × HistoryTable := t.popLast.add line control now

def clear : HistoryTable := { t with entries := [], base := 0, newSinceSave := 0 }

def markSaved : HistoryTable := { t with newSinceSave := t.entries.length }

def newCount : ℕ := t.entries.length - t.newSinceSave
end HistoryTable

structure LoadState where
  entries : List HistoryEntry
  pendingTs : Option ℕ
  entry : Text
  entryTs : Option ℕ
  deriving DecidableEq

/-- `str::parse::<u64>`: an optional plus sign and at least one digit, below 2^64. -/
def parseU64 (s : Text) : Option ℕ :=
  let digits := match s with
    | '+' :: rest => rest
    | s => s
  if digits = [] ∨ ¬digits.all Char.isDigit then none
  else
    let n := digits.foldl (fun n ch => 10 * n + (ch.toNat - '0'.toNat)) 0
    if n < 2 ^ 64 then some n else none

def timestampLine : Text → Option ℕ
  | '#' :: rest => parseU64 rest
  | _ => none

/-- A blank line outside an entry belongs to the entry before it, unless a timestamp
waits for its entry. -/
def pushNewline : List HistoryEntry → List HistoryEntry
  | [] => []
  | [e] => [{ e with line := e.line ++ ['\n'] }]
  | e :: es => e :: pushNewline es

def flushEntry (s : LoadState) : LoadState :=
  if historyEntryComplete s.entry then
    { s with entries := s.entries ++ [⟨s.entry,s.entryTs,true⟩], entry := [], entryTs := none }
  else s

def loadLine (s : LoadState) (line : Text) : LoadState :=
  if s.entry = [] ∧ line = [] then
    if s.pendingTs.isNone then { s with entries := pushNewline s.entries } else s
  else if s.entry = [] then
    match timestampLine line with
    | some ts => { s with pendingTs := some ts }
    | none => flushEntry { s with entry := line, entryTs := s.pendingTs, pendingTs := none }
  else flushEntry { s with entry := s.entry ++ '\n' :: line }

def loadLines : LoadState → List (Option Text) → Bool × LoadState
  | s, [] => (true,s)
  | s, none :: _ => (false,s)
  | s, some line :: rest => loadLines (loadLine s line) rest

namespace HistoryTable

def loadFrom (t : HistoryTable) : HistoryFile → Bool × HistoryTable
  | .notFound => (true,t)
  | .openError => (false,t)
  | .lines reads =>
    match loadLines ⟨t.entries,none,[],none⟩ reads with
    | (false,s) => (false,{ t with entries := s.entries })
    | (true,s) =>
      let entries := if s.entry = [] then s.entries else s.entries ++ [⟨s.entry,s.entryTs,true⟩]
      (true,markSaved (trim { t with entries := entries }))

def entryLines (withTimestamps : Bool) (e : HistoryEntry) : List Text :=
  (if withTimestamps || e.timestampFromFile then
    match e.timestamp with
    | some ts => ['#' :: (toString ts).toList]
    | none => []
  else []) ++ [e.line]

/-- The text of the file after a write: the newest entries, at most `maxSize` of them. -/
def writeTo (t : HistoryTable) (maxSize : ℕ) (withTimestamps : Bool) : Text :=
  (t.entries.drop (t.entries.length - maxSize)).flatMap fun e =>
    (entryLines withTimestamps e).flatMap (· ++ ['\n'])

def newEntries (t : HistoryTable) : List HistoryEntry := t.entries.drop (t.entries.length - t.newCount)

def appendTo (t : HistoryTable) (withTimestamps : Bool) (outcome : AppendOutcome) :
    List Text × HistoryTable :=
  if t.newCount = 0 then ([],t)
  else
    let lines := t.newEntries.flatMap (entryLines withTimestamps)
    match outcome with
    | .openError => ([],t)
    | .writeError written => if written < lines.length then (lines.take written,t) else (lines,t.markSaved)
    | .ok => (lines,t.markSaved)
end HistoryTable
end Cherubsh.Common
