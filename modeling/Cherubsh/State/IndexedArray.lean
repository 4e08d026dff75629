import Mathlib.Data.List.DropRight
import Mathlib.Data.List.Sort
import Std.Data.TreeMap.Lemmas

/-! # The indexed-array store of the shell state

An array keeps a dense vector with gaps and a sparse ordered map side by side, and a counter of
its entries. An index converts to a vector position exactly when it is not negative.
-/
namespace Cherubsh.State

structure IndexedArray where
  dense : List (Option String)
  sparse : Std.TreeMap Int String
  len : ℕ

namespace IndexedArray

def maxDenseGap : ℕ := 1024
def maxDenseLen : ℕ := 65536

def default : IndexedArray := ⟨[],∅,0⟩

def fromValues (values : List String) : IndexedArray :=
  ⟨values.map some,∅,values.length⟩

def shouldStoreDense (a : IndexedArray) (index : Int) : Bool :=
  if index < 0 then false
  else if index.toNat < a.dense.length then true
  else decide (index.toNat < maxDenseLen) && decide (index.toNat ≤ a.dense.length + maxDenseGap)

def trimDenseTail (a : IndexedArray) : IndexedArray :=
  { a with dense := a.dense.rdropWhile Option.isNone }

/-- `resize_with(n, || None)` for a vector that is shorter than `n`. -/
def resizeDense (dense : List (Option String)) (n : ℕ) : List (Option String) :=
  dense ++ List.replicate (n - dense.length) none

def insertDense (a : IndexedArray) (index : ℕ) (value : String) : IndexedArray :=
  let len := if (a.sparse[(index : Int)]?).isSome then a.len - 1 else a.len
  let dense := if a.dense.length ≤ index then resizeDense a.dense (index + 1) else a.dense
  { dense := dense.set index (some value)
    sparse := a.sparse.erase (index : Int)
    len := if (dense.getD index none).isNone then len + 1 else len }

def insertSparse (a : IndexedArray) (index : Int) (value : String) : IndexedArray :=
  let taken := 0 ≤ index ∧ index.toNat < a.dense.length
  let dense := if taken then a.dense.set index.toNat none else a.dense
  let len := if taken ∧ (a.dense.getD index.toNat none).isSome then a.len - 1 else a.len
  trimDenseTail
    { dense := dense
      sparse := a.sparse.insert index value
      len := if (a.sparse[index]?).isNone then len + 1 else len }

def insert (a : IndexedArray) (index : Int) (value : String) : IndexedArray :=
  if 0 ≤ index ∧ index.toNat = a.dense.length ∧ index.toNat < maxDenseLen then
    { a with dense := a.dense ++ [some value], len := a.len + 1 }
  else if a.shouldStoreDense index then insertDense a index.toNat value
  else insertSparse a index value

def fromPairs (values : List (Int × String)) : IndexedArray :=
  values.foldl (fun array p => array.insert p.1 p.2) default

def get (a : IndexedArray) (index : Int) : Option String :=
  if 0 ≤ index ∧ index.toNat < a.dense.length then a.dense.getD index.toNat none
  else a.sparse[index]?

def remove (a : IndexedArray) (index : Int) : Option String × IndexedArray :=
  let taken := if 0 ≤ index ∧ index.toNat < a.dense.length then a.dense.getD index.toNat none else none
  match taken with
  | some old => (some old,trimDenseTail { a with dense := a.dense.set index.toNat none, len := a.len - 1 })
  | none =>
    match a.sparse[index]? with
    | some old => (some old,{ a with sparse := a.sparse.erase index, len := a.len - 1 })
    | none => (none,a)

def denseEntries : ℕ → List (Option String) → List (Int × String)
  | _, [] => []
  | start, some value :: rest => ((start : Int),value) :: denseEntries (start + 1) rest
  | start, none :: rest => denseEntries (start + 1) rest

def maxIndex (a : IndexedArray) : Option Int :=
  let denseMax := ((denseEntries 0 a.dense).getLast?).map Prod.fst
  match denseMax, a.sparse.keys.getLast? with
  | some x, some y => some (max x y)
  | some x, none => some x
  | none, some y => some y
  | none, none => none

def all (a : IndexedArray) : List (Int × String) :=
  let entries := denseEntries 0 a.dense ++ a.sparse.toList
  if a.sparse.isEmpty then entries else entries.insertionSort (fun p q => p.1 ≤ q.1)

def values (a : IndexedArray) : List String := a.all.map Prod.snd

def keys (a : IndexedArray) : List Int :=
  if a.sparse.isEmpty then (denseEntries 0 a.dense).map Prod.fst else a.all.map Prod.fst
end IndexedArray
end Cherubsh.State
