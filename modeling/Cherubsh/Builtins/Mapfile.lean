import Cherubsh.Expander.ShellString
import Mathlib.Order.Iterate

/-! # The lines that mapfile takes

The lines come through a buffered reader over a copy of the descriptor. A read fills the
buffer, so the descriptor stands where a read has ended, which is mostly behind the last line
that was wanted. How many bytes a read gives is up to the descriptor.
-/
namespace Cherubsh.Builtins.Mapfile
open Expander.ShellString Utf8 List

structure Reader where
  buf : Bytes
  unread : Bytes

section
variable (size : Bytes → ℕ) (delim : UInt8)

def Reader.fill (r : Reader) : Reader := if r.buf = [] then ⟨r.unread.take (size r.unread),r.unread.drop (size r.unread)⟩ else r

/-- The bytes up to the delimiter and with it, or all of them. -/
def firstLine : Bytes → Bytes
  | [] => []
  | b :: rest => if b = delim then [b] else b :: firstLine rest

def readUntilDelim : ℕ → Reader → Bytes × Reader
  | 0, r => ([],r)
  | fuel + 1, r =>
    let r := r.fill size
    if delim ∈ r.buf then (firstLine delim r.buf,{ r with buf := r.buf.drop (firstLine delim r.buf).length })
    else if r.buf = [] then ([],r)
    else
      let (more,r') := readUntilDelim fuel { r with buf := [] }
      (r.buf ++ more,r')

def element (trimDelim : Bool) (line : Bytes) : List Char :=
  bytesToShellString (if (trimDelim || delim = 0) && line.getLast? = some delim then line.dropLast else line)

variable (trimDelim : Bool) (skip count : ℕ)

def mapfileLoop : ℕ → ℕ → ℕ → Reader → List (List Char) × Reader
  | 0, _, _, r => ([],r)
  | fuel + 1, idxSeen, stored, r =>
    if count ≠ 0 ∧ count ≤ stored then ([],r)
    else
      let (line,r) := readUntilDelim size delim (r.unread.length + 2) r
      if line = [] then ([],r)
      else if idxSeen + 1 ≤ skip then mapfileLoop fuel (idxSeen + 1) stored r
      else
        let (more,r) := mapfileLoop fuel (idxSeen + 1) (stored + 1) r
        (element delim trimDelim line :: more,r)

def runMapfile (input : Bytes) : List (List Char) × Reader :=
  mapfileLoop size delim trimDelim skip count (input.length + 1) 0 0 ⟨[],input⟩
end

section
variable {size : Bytes → ℕ} {delim : UInt8}

def lines (delim : UInt8) : Bytes → List Bytes
  | [] => []
  | b :: rest =>
    if b = delim then [b] :: lines delim rest
    else match lines delim rest with
    | [] => [[b]]
    | line :: more => (b :: line) :: more

theorem lines_eq {bytes : Bytes} (h : bytes ≠ []) :
    lines delim bytes = firstLine delim bytes :: lines delim (bytes.drop (firstLine delim bytes).length) := by
  induction bytes with
  | nil => exact absurd rfl h
  | cons b rest ih =>
    by_cases hb : b = delim
    · simp [lines,firstLine,hb]
    · by_cases hr : rest = []
      · simp [lines,firstLine,hb,hr]
      · simp [lines,firstLine,hb,ih hr]

theorem flatten_lines (delim : UInt8) (bytes : Bytes) : (lines delim bytes).flatten = bytes := by
  induction bytes with
  | nil => rfl
  | cons b rest ih =>
    rw [lines]
    split
    · simp [ih]
    · split <;> simp_all

theorem firstLine_append {buf : Bytes} (h : delim ∉ buf) (more : Bytes) :
    firstLine delim (buf ++ more) = buf ++ firstLine delim more := by
  induction buf with
  | nil => rfl
  | cons b buf ih =>
    rw [mem_cons,not_or] at h
    simp [firstLine,Ne.symm h.1,ih h.2]

theorem firstLine_of_mem {buf : Bytes} (h : delim ∈ buf) (more : Bytes) :
    firstLine delim (buf ++ more) = firstLine delim buf := by
  induction buf with
  | nil => cases h
  | cons b buf ih => by_cases hb : b = delim <;> simp_all [firstLine,eq_comm]

theorem length_firstLine (delim : UInt8) (bytes : Bytes) :
    (firstLine delim bytes).length ≤ bytes.length ∧ (bytes ≠ [] → 0 < (firstLine delim bytes).length) := by
  induction bytes with
  | nil => simp [firstLine]
  | cons b rest ih =>
    rw [firstLine]
    split
    · simp
    · simpa using ih.1
end

section
variable {size : Bytes → ℕ} {delim : UInt8} {input : Bytes} {r : Reader} {fuel : ℕ}

def afterRead (size : Bytes → ℕ) (unread : Bytes) : Bytes := unread.drop (size unread)

def Reader.pending (r : Reader) : Bytes := r.buf ++ r.unread

/-- The descriptor stands behind a read, and of what that read gave not all is left in the buffer. -/
def Placed (size : Bytes → ℕ) (input : Bytes) (r : Reader) : Prop :=
  (r.buf = [] ∧ ∃ m, r.unread = (afterRead size)^[m] input) ∨
    ∃ m, r.unread = (afterRead size)^[m + 1] input ∧ r.pending.length < ((afterRead size)^[m] input).length

def Left (size : Bytes → ℕ) (input rest : Bytes) (r : Reader) : Prop := r.pending = rest ∧ Placed size input r

theorem pending_fill (size : Bytes → ℕ) (r : Reader) : (r.fill size).pending = r.pending := by
  unfold Reader.fill Reader.pending
  split <;> simp_all

theorem Placed.fill (h : Placed size input r) : ∃ m, (r.fill size).unread = (afterRead size)^[m + 1] input ∧
    (r.fill size).pending.length ≤ ((afterRead size)^[m] input).length := by
  rw [pending_fill]
  unfold Reader.fill
  rcases h with ⟨hb,m,hm⟩ | ⟨m,hm,hl⟩
  · refine ⟨m,?_,by simp [Reader.pending,hb,hm]⟩
    rw [if_pos hb,Function.iterate_succ_apply',← hm]
    rfl
  · split
    · rename_i hb
      refine ⟨m + 1,?_,by simp [Reader.pending,hb,hm]⟩
      rw [Function.iterate_succ_apply',← hm]
      rfl
    · exact ⟨m,hm,hl.le⟩

theorem fill_cases (hs : ∀ unread ≠ [], 0 < size unread) (r : Reader) :
    (r.fill size).buf = [] ∧ (r.fill size).unread = [] ∨
      (r.fill size).buf ≠ [] ∧ (r.fill size).unread.length + 1 < r.unread.length + if r.buf = [] then 1 else 2 := by
  unfold Reader.fill
  split
  · by_cases hu : r.unread = []
    · simp [hu]
    · have hp := length_pos_iff.mpr hu
      have hs := hs _ hu
      exact .inr ⟨by simp [hu,Nat.pos_iff_ne_zero.mp hs],by simp only [length_drop]; omega⟩
  · rename_i hb
    exact .inr ⟨hb,by omega⟩

theorem readUntilDelim_spec (hs : ∀ unread ≠ [], 0 < size unread)
    (hf : r.unread.length + (if r.buf = [] then 1 else 2) ≤ fuel) (hp : Placed size input r) :
    (readUntilDelim size delim fuel r).1 = firstLine delim r.pending ∧
      Left size input (r.pending.drop (firstLine delim r.pending).length) (readUntilDelim size delim fuel r).2 := by
  induction fuel generalizing r with
  | zero => split at hf <;> omega
  | succ fuel ih =>
    obtain ⟨m,hm,hl⟩ := hp.fill
    have hc := fill_cases hs r
    rw [readUntilDelim,← pending_fill size r]
    dsimp only
    generalize r.fill size = r at hm hl hc ⊢
    unfold Reader.pending at hl ⊢
    split
    · rename_i hd
      obtain ⟨hle,hpos⟩ := length_firstLine delim r.buf
      have hpos := hpos (ne_nil_of_mem hd)
      rw [firstLine_of_mem hd]
      refine ⟨rfl,by simp [Reader.pending,drop_append_of_le_length hle],.inr ⟨m,hm,?_⟩⟩
      simp only [Reader.pending,length_append,length_drop] at hl ⊢
      omega
    · rename_i hd
      split
      · rename_i hb
        have hu := (hc.resolve_right fun h => h.1 hb).2
        exact ⟨by simp [hb,hu,firstLine],by simp [Reader.pending,hb,hu],.inl ⟨hb,m + 1,hm⟩⟩
      · rename_i hb
        have hlt := (hc.resolve_left fun h => hb h.1).2
        obtain ⟨h1,h2,h3⟩ := @ih ⟨[],r.unread⟩ (by simp only [if_true]; omega) (.inl ⟨rfl,m + 1,hm⟩)
        exact ⟨by simp [firstLine_append hd,h1,Reader.pending],h2.trans (by simp [firstLine_append hd,Reader.pending]),h3⟩

variable {trimDelim : Bool} {skip count idxSeen stored : ℕ}

theorem mapfileLoop_spec (hs : ∀ unread ≠ [], 0 < size unread) (hc : 1 ≤ count) (hi : stored = 0 ∨ skip ≤ idxSeen)
    (hf : r.pending.length < fuel) (hp : Placed size input r) :
    (mapfileLoop size delim trimDelim skip count fuel idxSeen stored r).1 =
        (((lines delim r.pending).drop (skip - idxSeen)).take (count - stored)).map (element delim trimDelim) ∧
      Left size input ((lines delim r.pending).drop (skip - idxSeen + (count - stored))).flatten
        (mapfileLoop size delim trimDelim skip count fuel idxSeen stored r).2 := by
  induction fuel generalizing idxSeen stored r with
  | zero => omega
  | succ fuel ih =>
    rw [mapfileLoop]
    by_cases hst : count ≠ 0 ∧ count ≤ stored
    · have h0 : skip - idxSeen = 0 := by omega
      have h1 : count - stored = 0 := by omega
      simp only [if_pos hst,h0,h1]
      exact ⟨by simp,by simp [flatten_lines],hp⟩
    · obtain ⟨hl,hr,hp⟩ := @readUntilDelim_spec size delim input r (r.unread.length + 2) hs (by split <;> omega) hp
      rw [if_neg hst]
      generalize readUntilDelim size delim (r.unread.length + 2) r = res at hl hr hp ⊢
      obtain ⟨line,r'⟩ := res
      dsimp only at hl hr hp ⊢
      subst hl
      generalize r.pending = whole at hf hr ⊢
      by_cases hw : whole = []
      · subst hw
        exact ⟨by simp [firstLine,lines],by simpa [firstLine,lines] using hr,by simpa [firstLine] using hp⟩
      · obtain ⟨hle,hpos⟩ := length_firstLine delim whole
        have hpos := hpos hw
        have hlt : r'.pending.length < fuel := by
          rw [hr,length_drop]
          omega
        rw [if_neg (ne_nil_of_length_pos hpos),lines_eq hw,← hr]
        split
        · have hx := @ih r' (idxSeen + 1) stored (by omega) hlt hp
          rw [show skip - idxSeen = skip - (idxSeen + 1) + 1 by omega,Nat.add_right_comm]
          exact hx
        · have hx := @ih r' (idxSeen + 1) (stored + 1) (by omega) hlt hp
          rw [show skip - (idxSeen + 1) = 0 by omega] at hx
          rw [show skip - idxSeen = 0 by omega,show count - stored = count - (stored + 1) + 1 by omega]
          simpa using hx

theorem length_lines_le (delim : UInt8) (bytes : Bytes) : (lines delim bytes).length ≤ bytes.length := by
  induction bytes with
  | nil => exact Nat.le_refl 0
  | cons b rest ih =>
    rw [lines]
    split
    · simpa using ih
    · split
      · simp
      · simp_all
        omega

/-- A count of none is one that is never reached. -/
theorem mapfileLoop_zero (hc : stored + fuel ≤ count) :
    mapfileLoop size delim trimDelim skip 0 fuel idxSeen stored r =
      mapfileLoop size delim trimDelim skip count fuel idxSeen stored r := by
  induction fuel generalizing idxSeen stored r with
  | zero => rfl
  | succ fuel ih =>
    have hn : ¬(count ≠ 0 ∧ count ≤ stored) := by omega
    have hmore : ∀ k ≤ 1, ∀ r idx, mapfileLoop size delim trimDelim skip 0 fuel idx (stored + k) r =
        mapfileLoop size delim trimDelim skip count fuel idx (stored + k) r := fun k hk r idx => ih (by omega)
    have hsame := hmore 0 (Nat.zero_le 1)
    simp only [Nat.add_zero] at hsame
    simp only [mapfileLoop,if_neg hn,ne_eq,not_true_eq_false,false_and,if_false,hsame,hmore 1 (Nat.le_refl 1)]

/-- The elements do not depend on the sizes of the reads. -/
theorem runMapfile_lines (hs : ∀ unread ≠ [], 0 < size unread) (delim : UInt8) (trimDelim : Bool) (skip count : ℕ) (input : Bytes) :
    (runMapfile size delim trimDelim skip count input).1 =
      (if count = 0 then (lines delim input).drop skip else ((lines delim input).drop skip).take count).map
        (element delim trimDelim) := by
  have hspec : ∀ {count}, 1 ≤ count → (runMapfile size delim trimDelim skip count input).1 =
      (((lines delim input).drop skip).take count).map (element delim trimDelim) := fun hc =>
    (mapfileLoop_spec hs hc (.inl rfl) (Nat.lt_succ_self _) (.inl ⟨rfl,0,rfl⟩)).1
  split
  · subst count
    have hl : ((lines delim input).drop skip).length ≤ input.length + 1 := by
      have := length_lines_le delim input
      rw [length_drop]
      omega
    rw [← take_of_length_le hl,← hspec (Nat.succ_pos input.length),runMapfile,runMapfile,
      mapfileLoop_zero (Nat.zero_add (input.length + 1)).le]
  · exact hspec (Nat.pos_of_ne_zero (by assumption))

/-- All lines, and the second of them alone. -/
theorem runMapfile_lines_of_two :
    (runMapfile (fun _ => 1) 10 true 0 0 [97,10,98,10]).1 = [['a'],['b']] ∧
      (runMapfile (fun _ => 3) 10 true 1 1 [97,10,98,10,99,10]).1 = [['b']] :=
  ⟨(runMapfile_lines (fun _ _ => Nat.one_pos) 10 true 0 0 _).trans (by decide +kernel),
    (runMapfile_lines (fun _ _ => Nat.succ_pos 2) 10 true 1 1 _).trans (by decide +kernel)⟩

theorem Left.unread_eq_iff {rest : Bytes} (h : Left size input rest r) :
    r.unread = rest ↔ ∃ k, (afterRead size)^[k] input = rest := by
  obtain ⟨rfl,h⟩ := h
  unfold Reader.pending
  rcases h with ⟨hb,m,hm⟩ | ⟨m,hm,hl⟩
  · simpa [hb] using ⟨m,hm.symm⟩
  · refine ⟨fun h => ⟨m + 1,hm.symm.trans h⟩,fun ⟨k,hk⟩ => ?_⟩
    have ha : Antitone fun k => ((afterRead size)^[k] input).length := antitone_nat_of_succ_le fun n => by
      simp [Function.iterate_succ_apply',afterRead]
    have hm' : m < k := by
      by_contra hn
      have hle := ha (not_lt.mp hn)
      simp only [hk] at hle
      exact absurd hl (not_lt.mpr hle)
    have hle := ha hm'
    simp only [Nat.succ_eq_add_one,hk,← hm,length_append] at hle
    have hb : r.buf = [] := length_eq_zero_iff.mp (by omega)
    simp [hb]

/-- The elements are the wanted lines, and what follows them is left on the descriptor. -/
def ConsumesStored (size : Bytes → ℕ) (delim : UInt8) (trimDelim : Bool) (skip count : ℕ) (input : Bytes) : Prop :=
  (runMapfile size delim trimDelim skip count input).1 =
      (((lines delim input).drop skip).take count).map (element delim trimDelim) ∧
    (runMapfile size delim trimDelim skip count input).2.unread = ((lines delim input).drop (skip + count)).flatten

/-- The descriptor is left behind the wanted lines exactly when a read has ended there. -/
theorem consumesStored_iff (hs : ∀ unread ≠ [], 0 < size unread) (delim : UInt8) (trimDelim : Bool) (skip : ℕ)
    (hc : 1 ≤ count) (input : Bytes) : ConsumesStored size delim trimDelim skip count input ↔
      ∃ k, (afterRead size)^[k] input = ((lines delim input).drop (skip + count)).flatten := by
  obtain ⟨he,hl⟩ := @mapfileLoop_spec size delim input ⟨[],input⟩ (input.length + 1) trimDelim skip count 0 0 hs hc (.inl rfl)
    (by simp [Reader.pending]) (.inl ⟨rfl,0,rfl⟩)
  exact (and_iff_right he).trans hl.unread_eq_iff

/-- The first of two lines, through reads of two bytes. -/
theorem consumesStored_at_read : ConsumesStored (fun _ => 2) 10 false 0 1 [97,10,98,10] :=
  (consumesStored_iff (fun _ _ => Nat.succ_pos 1) 10 false 0 (Nat.le_refl 1) _).mpr ⟨1,rfl⟩

/-- One line of two is wanted, and nothing is left of a file that fits into one read. -/
theorem mapfile_reads_ahead : ¬ConsumesStored (fun _ => 8192) 10 false 0 1 [97,10,98,10] := by
  unfold ConsumesStored
  decide +kernel
end
end Cherubsh.Builtins.Mapfile
