import Mathlib.Data.Nat.Find
import Mathlib.Tactic.Common

/-! # Descriptor tables

The descriptors of one process: finitely many numbers, each open on a file. The
calls are those of the usual interface: opening and duplicating take the lowest free
number not below a base, duplicating onto a number replaces what was there.
-/
namespace Cherubsh

@[ext] structure FdTable (File : Type*) where
  file : ℕ → Option File
  finite : ∃ n, ∀ m, n ≤ m → file m = none

namespace FdTable
variable {File : Type*} (t : FdTable File) (n : ℕ) (x : Option File)

def set (n : ℕ) (x : Option File) : FdTable File where
  file := fun m => if m = n then x else t.file m
  finite := by
    obtain ⟨k,hk⟩ := t.finite
    refine ⟨max k (n + 1),fun m hm => ?_⟩
    rw [if_neg (by omega)]
    exact hk m (by omega)

theorem file_set (m : ℕ) :
    (t.set n x).file m = if m = n then x else t.file m := rfl

@[simp] theorem file_set_self : (t.set n x).file n = x := if_pos rfl

@[simp] theorem file_set_of_ne {n m : ℕ} (h : m ≠ n) :
    (t.set n x).file m = t.file m := if_neg h

@[simp] theorem set_set (x y : Option File) : (t.set n x).set n y = t.set n y := by
  ext1
  funext m
  simp only [file_set]
  split <;> rfl

theorem set_comm {n m : ℕ} (x y : Option File) (h : n ≠ m) :
    (t.set n x).set m y = (t.set m y).set n x := by
  ext1
  funext k
  simp only [file_set]
  by_cases hk : k = n
  · rw [if_pos hk,if_pos hk,if_neg (by omega)]
  · rw [if_neg hk,if_neg hk]

theorem set_eq_self {n : ℕ} {x : Option File} (h : t.file n = x) : t.set n x = t := by
  ext1
  funext m
  rw [file_set]
  split
  · next hm => rw [hm,h]
  · rfl

theorem exists_free (base : ℕ) : ∃ n, base ≤ n ∧ (t.file n).isNone = true := by
  obtain ⟨k,hk⟩ := t.finite
  exact ⟨max base k,by omega,by rw [hk _ (by omega)]; rfl⟩

def lowestFree (base : ℕ) : ℕ := Nat.find (t.exists_free base)

theorem file_lowestFree (base : ℕ) : t.file (t.lowestFree base) = none :=
  Option.isNone_iff_eq_none.mp (Nat.find_spec (t.exists_free base)).2

theorem le_lowestFree (base : ℕ) : base ≤ t.lowestFree base :=
  (Nat.find_spec (t.exists_free base)).1

theorem lowestFree_eq {base n : ℕ} (hb : base ≤ n) (hn : t.file n = none)
    (hl : ∀ m, base ≤ m → m < n → t.file m ≠ none) : t.lowestFree base = n := by
  refine (Nat.find_eq_iff _).mpr ⟨⟨hb,by rw [hn]; rfl⟩,fun m hm h => ?_⟩
  exact hl m h.1 hm (Option.isNone_iff_eq_none.mp h.2)

/-- The file behind a number as a call receives it: nothing is open on a negative one. -/
def read (fd : ℤ) : Option File := if 0 ≤ fd then t.file fd.toNat else none

theorem read_of_file {fd : ℤ} {f : File} (h : t.read fd = some f) :
    ∃ n : ℕ, fd = n ∧ t.file n = some f := by
  rw [read] at h
  split at h
  · next hfd => exact ⟨fd.toNat,(Int.toNat_of_nonneg hfd).symm,h⟩
  · cases h

@[simp] theorem read_natCast : t.read n = t.file n := by
  rw [read,if_pos (Int.natCast_nonneg n),Int.toNat_natCast]

theorem read_set_of_ne {n : ℕ} {fd : ℤ} (h : fd ≠ n) : (t.set n x).read fd = t.read fd := by
  simp only [read]
  split
  · exact file_set_of_ne t x (by omega)
  · rfl

def close (fd : ℤ) : FdTable File := if 0 ≤ fd then t.set fd.toNat none else t

@[simp] theorem close_natCast : t.close n = t.set n none := by
  rw [close,if_pos (Int.natCast_nonneg n),Int.toNat_natCast]

/-- `dup2`: fails on a closed source, otherwise replaces the target. -/
def dup2 (source : ℤ) (target : ℕ) : Option (FdTable File) :=
  (t.read source).map fun f => t.set target (some f)

/-- `F_DUPFD`: fails on a closed number, otherwise takes the lowest free one from the base on. -/
def dupFd (fd : ℤ) (base : ℕ) : Option (ℕ × FdTable File) :=
  (t.read fd).map fun f => (t.lowestFree base,t.set (t.lowestFree base) (some f))

def openFile (f : File) : ℕ × FdTable File :=
  (t.lowestFree 0,t.set (t.lowestFree 0) (some f))
end FdTable
end Cherubsh
