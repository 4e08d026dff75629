import Cherubsh.Library.GuardedRun
import Cherubsh.Common.History

/-! # What `history -a` owes: a ledger of entries with identities

Every entry gets a number of its own and a flag that says whether it was added after the last save
or load. The table only keeps a position.
-/
namespace Cherubsh.Common

structure Record where
  id : ℕ
  entry : HistoryEntry
  fresh : Bool
  deriving DecidableEq

structure Ledger where
  records : List Record
  max : ℕ
  base : ℕ
  nextId : ℕ
  deriving DecidableEq

inductive HistoryOp where
  | loadFrom (file : HistoryFile)
  | add (line : Text) (control : HistControl) (now : Option ℕ)
  | addForced (line : Text) (timestamp : Option ℕ)
  | removeAt (idx : ℕ)
  | removeRange (start stop : ℕ)
  | replaceLast (line : Text) (control : HistControl) (now : Option ℕ)
  | clear
  | setMax (max : ℕ)
  | appendTo (withTimestamps : Bool) (outcome : AppendOutcome)
  deriving DecidableEq

namespace Ledger
variable (l : Ledger)

def new (max : ℕ) : Ledger := ⟨[],Nat.max max 1,0,0⟩

def entries : List HistoryEntry := l.records.map Record.entry

def trim : Ledger :=
  { l with records := l.records.drop (l.records.length - l.max), base := l.base + (l.records.length - l.max) }

def push (entry : HistoryEntry) : Ledger :=
  trim { l with records := l.records ++ [⟨l.nextId,entry,true⟩], nextId := l.nextId + 1 }

def settle : Ledger := { l with records := l.records.map fun r => { r with fresh := false } }

/-- The table with the same entries; only questions about them are put to it. -/
def table : HistoryTable := ⟨l.entries,l.max,l.base,0⟩

def add (line : Text) (control : HistControl) (now : Option ℕ) : Ledger :=
  if l.table.addRefused line control then l
  else
    let kept := if control.erasedups then l.records.filter (fun r => r.entry.line ≠ line) else l.records
    push { l with records := kept } ⟨line,now,false⟩

def removeAt (idx : ℕ) : Ledger :=
  if idx = 0 ∨ idx ≤ l.base then l else { l with records := l.records.eraseIdx (idx - l.base - 1) }

def removeRange (start stop : ℕ) : Ledger :=
  match l.table.rangePositions start stop with
  | none => l
  | some (s,e) => if s < e then { l with records := l.records.take s ++ l.records.drop e } else l

/-- New texts for the known records and new records behind them, none of them added. -/
def relabel (nextId : ℕ) : List Record → List HistoryEntry → List Record
  | r :: rs, e :: es => { r with entry := e } :: relabel nextId rs es
  | _, es => es.mapIdx fun i e => ⟨nextId + i,e,false⟩

/-- Loading keeps the known records in place and puts the read entries behind them. -/
def extend (entries : List HistoryEntry) : Ledger :=
  { l with records := relabel l.nextId l.records entries, nextId := l.nextId + entries.length }

def loadFrom : HistoryFile → Ledger
  | .notFound => l
  | .openError => l
  | .lines reads =>
    match loadLines ⟨l.entries,none,[],none⟩ reads with
    | (false,s) => l.extend s.entries
    | (true,s) => settle (trim (l.extend
        (if s.entry = [] then s.entries else s.entries ++ [⟨s.entry,s.entryTs,true⟩])))

def freshRecords : List Record := l.records.filter Record.fresh

def appendTo : AppendOutcome → List Record × Ledger
  | .ok => (l.freshRecords,l.settle)
  | _ => ([],l)
end Ledger

structure HistoryRun where
  table : HistoryTable
  written : List (List Text)

def historyStep (s : HistoryRun) : HistoryOp → HistoryRun
  | .loadFrom file => { s with table := (s.table.loadFrom file).2 }
  | .add line control now => { s with table := (s.table.add line control now).2 }
  | .addForced line timestamp => { s with table := s.table.addForced line timestamp }
  | .removeAt idx => { s with table := (s.table.removeAt idx).2 }
  | .removeRange start stop => { s with table := s.table.removeRange start stop }
  | .replaceLast line control now => { s with table := (s.table.replaceLast line control now).2 }
  | .clear => { s with table := s.table.clear }
  | .setMax max => { s with table := s.table.setMax max }
  | .appendTo withTimestamps outcome =>
    let r := s.table.appendTo withTimestamps outcome
    ⟨r.2,s.written ++ [r.1]⟩

structure LedgerRun where
  ledger : Ledger
  written : List (Bool × List Record)

def ledgerStep (s : LedgerRun) : HistoryOp → LedgerRun
  | .loadFrom file => { s with ledger := s.ledger.loadFrom file }
  | .add line control now => { s with ledger := s.ledger.add line control now }
  | .addForced line timestamp => { s with ledger := s.ledger.push ⟨line,timestamp,false⟩ }
  | .removeAt idx => { s with ledger := s.ledger.removeAt idx }
  | .removeRange start stop => { s with ledger := s.ledger.removeRange start stop }
  | .replaceLast line control now =>
    { s with ledger := Ledger.add { s.ledger with records := s.ledger.records.dropLast } line control now }
  | .clear => { s with ledger := { s.ledger with records := [], base := 0 } }
  | .setMax max => { s with ledger := Ledger.trim { s.ledger with max := Nat.max max 1 } }
  | .appendTo withTimestamps outcome =>
    let r := s.ledger.appendTo outcome
    ⟨r.2,s.written ++ [(withTimestamps,r.1)]⟩

def owed (p : Bool × List Record) : List Text := p.2.flatMap fun r => HistoryTable.entryLines p.1 r.entry
end Cherubsh.Common
