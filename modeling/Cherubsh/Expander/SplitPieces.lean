import Cherubsh.Expander.BufferFields
import Cherubsh.Library.Cuts

/-! # What splitting drops

Splitting cuts the pieces of a buffer at unquoted bytes of IFS, and drops nothing else. It reads
a separator of several bytes as that many unquoted pieces.
-/
namespace Cherubsh.Expander.Buffer
open Utf8 Split Cuts Fields List
variable {sep : Bytes} {ps d rest g : List Piece} {p : Piece}

def Delimiter (ifs : IfsState) (p : Piece) : Prop := ∃ b, p = .plain b ∧ ifs.isIfs b

def Fieldable (ifs : IfsState) (p : Piece) : Prop := ∀ b, p = .plain b → b < 0x80 → ifs.isIfs b = false

section
variable {bytes : Bytes} {ifs : IfsState} {i : ℕ}

theorem pieces_of_high_prefix (hh : ∀ b ∈ sep, 0x80 ≤ b) (h : sep <+: write ps) :
    ∃ rest, ps = sep.map .plain ++ rest := by
  induction sep generalizing ps with
  | nil => exact ⟨ps,rfl⟩
  | cons b sep ih =>
    obtain ⟨hb,hsep⟩ := forall_mem_cons.mp hh
    obtain _ | ⟨p,ps⟩ := ps
    · simp at h
    have hp : p = .plain b ∧ p.bytes = [b] := by
      have hl : ∀ c : UInt8, c < 0x80 → b ≠ c := fun c hc heq => absurd hb (UInt8.not_le.mpr (heq ▸ hc))
      rw [write_cons] at h
      cases p with
      | quoted c => exact absurd (cons_prefix_cons.mp h).1 (hl ctlesc (by decide))
      | empty => exact absurd (cons_prefix_cons.mp h).1 (hl ctlnul (by decide))
      | field => exact absurd (cons_prefix_cons.mp h).1 (hl ctlfield (by decide))
      | plain c =>
        cases hct : isCtl c with
        | true =>
          simp only [Piece.bytes,hct,if_true,cons_append] at h
          exact absurd (cons_prefix_cons.mp h).1 (hl ctlesc (by decide))
        | false =>
          simp only [Piece.bytes,hct,Bool.false_eq_true,if_false,singleton_append] at h
          obtain ⟨rfl,-⟩ := cons_prefix_cons.mp h
          exact ⟨rfl,by simp [Piece.bytes,hct]⟩
    obtain ⟨rfl,hby⟩ := hp
    rw [write_cons,hby,singleton_append,cons_prefix_cons] at h
    obtain ⟨rest,rfl⟩ := ih hsep h.2
    exact ⟨rest,rfl⟩

theorem isCtl_of_high {b : UInt8} (hb : 0x80 ≤ b) : isCtl b = false := by
  refine isCtl_eq_false_iff.mpr ⟨?_,?_,?_⟩ <;> rintro rfl <;> exact absurd hb (by decide)

theorem write_map_plain (hh : ∀ b ∈ sep, 0x80 ≤ b) : write (sep.map .plain) = sep := by
  induction sep with
  | nil => rfl
  | cons b sep ih =>
    obtain ⟨hb,hsep⟩ := forall_mem_cons.mp hh
    simp [Piece.bytes,isCtl_of_high hb,ih hsep]

theorem reads_piece (hsep : Separated ifs) (hp : p ≠ .quoted 0 ∧ p ≠ .field) (hd : bytes.drop i = write (p :: ps)) :
    (unquotedIfsAt bytes i ifs = none ∧ Fieldable ifs p ∧
      ∃ b, bytes[i]? = some b ∧ copyAt bytes i b = (p.bytes,i + p.bytes.length)) ∨
    ∃ d rest delim, p :: ps = d ++ rest ∧ d ≠ [] ∧ (∀ q ∈ d, Delimiter ifs q) ∧ ifs.isIfs delim ∧
      unquotedIfsAt bytes i ifs = some (delim,i + (write d).length) := by
  have hs : Stays ifs p → unquotedIfsAt bytes i ifs = none ∧ ∃ b, bytes[i]? = some b ∧
    copyAt bytes i b = (p.bytes,i + p.bytes.length) :=
    fun h => reads_stays hsep h (hd.trans (write_cons p ps))
  cases p with
  | quoted b =>
    have hre := hs fun h => hp.1 (by rw [h])
    exact .inl ⟨hre.1,fun _ hb => (by cases hb),hre.2⟩
  | empty => exact .inl ⟨(hs trivial).1,fun _ hb => (by cases hb),(hs trivial).2⟩
  | field => exact absurd rfl hp.2
  | plain b =>
    by_cases hpl : Stays ifs (.plain b)
    · exact .inl ⟨(hs hpl).1,fun c hc _ => by cases hc; exact hpl.2,(hs hpl).2⟩
    have hif : b < 0x80 → ifs.isIfs b := fun hl => by simpa using fun h => hpl ⟨hl,h⟩
    have hde : ifs.isIfs b → ∀ q ∈ [Piece.plain b], Delimiter ifs q := fun h q hq => ⟨b,mem_singleton.mp hq,h⟩
    by_cases hl : b < 0x80
    · refine .inr ⟨[.plain b],ps,b,rfl,by simp,hde (hif hl),hif hl,?_⟩
      rw [unquotedIfsAt_ascii hsep hl (hd.trans (write_cons _ ps)),if_pos (hif hl),write_cons,write_nil,append_nil]
    have hh : Fieldable ifs (.plain b) := fun c hc h => by cases hc; exact absurd h hl
    have hct := isCtl_of_high (UInt8.not_lt.mp hl)
    have hd' : bytes.drop i = b :: write ps := by simpa [Piece.bytes,hct] using hd
    obtain ⟨he,-,hn⟩ := isCtl_eq_false_iff.mp hct
    have hr := rawLiteralAt_eq_none he hd'
    have hg := getElem?_of_drop hd'
    cases hf : ifs.utf8Separators.find? (fun sep => (bytes.drop i).take sep.length = sep) with
    | some sep =>
      have hm := mem_of_find?_eq_some hf
      have hpr : sep <+: write (.plain b :: ps) := by
        rw [← hd,prefix_iff_eq_take]
        exact (by simpa using List.find?_some hf : _ = sep).symm
      obtain ⟨rest,hrs⟩ := pieces_of_high_prefix (fun c hc => (hsep.high sep hm c hc).1) hpr
      obtain ⟨first,more,rfl⟩ := exists_cons_of_ne_nil (hsep.ne_nil sep hm)
      refine .inr ⟨(first :: more).map .plain,rest,first,hrs,by simp,fun q hq => ?_,(hsep.high _ hm first mem_cons_self).2,?_⟩
      · obtain ⟨c,hc,rfl⟩ := mem_map.mp hq
        exact ⟨c,rfl,(hsep.high _ hm c hc).2⟩
      · rw [write_map_plain fun c hc => (hsep.high _ hm c hc).1]
        simp [unquotedIfsAt,hr,hg,hf,he,hn]
    | none =>
      by_cases hi : isInsideValidUtf8Char bytes i ∨ ifs.isIfs b = false
      · refine .inl ⟨?_,hh,b,hg,by simp [copyAt,hr,he,Piece.bytes,hct]⟩
        simp only [unquotedIfsAt,hr,hg,hf,he,hn,or_self,if_false]
        obtain hi | hif := hi
        · rw [if_pos ⟨UInt8.not_lt.mp hl,hi⟩]
        · simp [hif]
      · simp only [not_or,Bool.not_eq_true,Bool.not_eq_false] at hi
        refine .inr ⟨[.plain b],ps,b,rfl,by simp,hde hi.2,hi.2,?_⟩
        simp [unquotedIfsAt,hr,hg,hf,he,hn,hi,Piece.bytes,hct]

/-- The pieces that a buffer may hold where it is split. -/
def Splittable (ps : List Piece) : Prop := ∀ p ∈ ps, p ≠ .quoted 0 ∧ p ≠ .field

theorem Stays.splittable (h : Stays ifs p) : p ≠ .quoted 0 ∧ p ≠ .field :=
  ⟨fun heq => (heq ▸ h : Stays ifs (.quoted 0)) rfl,fun heq => (heq ▸ h : Stays ifs .field)⟩

theorem Stays.not_delimiter (h : Stays ifs p) : ¬Delimiter ifs p := by
  rintro ⟨b,rfl,hi⟩
  cases h.2.symm.trans hi

theorem Splittable.right (h : Splittable (d ++ rest)) : Splittable rest :=
  fun p hp => h p (mem_append_right d hp)

theorem drop_add_length (h : bytes.drop i = write (d ++ rest)) : bytes.drop (i + (write d).length) = write rest := by
  rw [← drop_drop,h,write_append,drop_left]

/-- Pieces that are read at once: kept, or a delimiter with the byte that is looked up. -/
def toMark (x : List Piece × Option UInt8) : Mark := ⟨0,write x.1,x.2⟩

def literalRole (ifs : IfsState) (m : Mark) : Role :=
  match m.literal with
  | none => .content
  | some b => if ifs.isIfsWs b then .white else .other

theorem literalRole_eq_content {m : Mark} : literalRole ifs m = .content ↔ m.literal = none := by
  unfold literalRole
  cases m.literal with
  | none => simp
  | some b => cases hb : ifs.isIfsWs b <;> simp [hb]

theorem encodeMarks_map_toMark (blocks : List (List Piece × Option UInt8)) :
    encodeMarks (blocks.map toMark) = write (blocks.flatMap Prod.fst) := by
  induction blocks with
  | nil => rfl
  | cons x blocks ih => rw [map_cons,encodeMarks_cons,ih,flatMap_cons,write_append,toMark]

section
variable (hsep : Separated ifs) {ps : List Piece} {gs : List (List Piece)}
include hsep

theorem exists_reads (hps : Splittable ps) (hd : bytes.drop i = write ps) (hi : i ≤ bytes.length) :
    ∃ blocks : List (List Piece × Option UInt8), blocks.flatMap Prod.fst = ps ∧
      Reads bytes ifs (literalRole ifs) i (blocks.map toMark) ∧
      ∀ x ∈ blocks, x.1 ≠ [] ∧ ∀ p ∈ x.1, if x.2 = none then Fieldable ifs p else Delimiter ifs p := by
  induction hn : ps.length using Nat.strong_induction_on generalizing i ps with
  | h n ih =>
    have hl := congrArg List.length hd
    rw [length_drop] at hl
    obtain _ | ⟨p,ps⟩ := ps
    · obtain rfl : i = bytes.length := by simp at hl; omega
      exact ⟨[],rfl,.done,by simp⟩
    obtain ⟨hno,hp,b,hg,hco⟩ | ⟨d,rest,delim,hdr,hne,hde,hif,hu⟩ := reads_piece hsep (hps p mem_cons_self) hd
    · obtain ⟨blocks,hb,hr,hk⟩ := ih ps.length (by simp [← hn]) (Splittable.right (d := [p]) hps)
        (drop_add_length (d := [p]) hd) (by simp at hl ⊢; omega) rfl
      refine ⟨([p],none) :: blocks,by rw [flatMap_cons,hb]; rfl,.content rfl (copies_round hno hg ?_ ?_) hr,?_⟩
      · simpa [toMark] using hco
      · exact write_ne_nil (cons_ne_nil p [])
      · exact forall_mem_cons.mpr ⟨by simpa using hp,hk⟩
    · have hpos := length_pos_iff.mpr hne
      rw [hdr] at hps hd hl hn
      rw [write_append,length_append] at hl
      rw [length_append] at hn
      obtain ⟨blocks,hb,hr,hk⟩ := ih rest.length (by omega) hps.right (drop_add_length hd) (by omega) rfl
      refine ⟨(d,some delim) :: blocks,by rw [flatMap_cons,hb,hdr],.delimiter rfl hif (write_ne_nil hne) hu hr,?_⟩
      exact forall_mem_cons.mpr ⟨⟨hne,by simpa using hde⟩,hk⟩

theorem split_pieces (hps : Splittable ps) :
    ∃ groups, CutsInto (Delimiter ifs) (Fieldable ifs) ps groups ∧ split (write ps) ifs = groups.map write := by
  obtain ⟨blocks,rfl,hr,hb⟩ := exists_reads hsep hps (show (write ps).drop 0 = write ps from rfl) (Nat.zero_le _)
  obtain ⟨groups,hg,hc⟩ := (cutsInto_fields (literalRole ifs) (blocks.map toMark)).of_map
  refine ⟨groups.map (List.flatMap Prod.fst),hc.flatMap (fun x hx => (hb x hx).1) (fun x hx hn p hp => ?_) fun x hx hn p hp => ?_,?_⟩
  · simpa [show ¬x.2 = none from fun h => hn (literalRole_eq_content.mpr h)] using (hb x hx).2 p hp
  · simpa [show x.2 = none from literalRole_eq_content.mp hn] using (hb x hx).2 p hp
  · rw [hr.split (encodeMarks_map_toMark blocks) fun hn m hm => ?_,hg,map_map,map_map]
    · exact map_congr_left fun g _ => encodeMarks_map_toMark g
    obtain ⟨x,hx,rfl⟩ := mem_map.mp hm
    rw [literalRole_eq_content]
    by_contra hs
    obtain ⟨hne,hd⟩ := hb x hx
    obtain ⟨p,hp⟩ := exists_mem_of_ne_nil _ hne
    obtain ⟨b,-,hif⟩ : Delimiter ifs p := by simpa [show ¬x.2 = none from hs] using hd p hp
    cases (hsep.null hn b).symm.trans hif

theorem split_stays (hps : ∀ p ∈ ps, Stays ifs p) : split (write ps) ifs = if ps = [] then [] else [write ps] := by
  obtain ⟨groups,hc,hs⟩ := split_pieces hsep fun p hp => (hps p hp).splittable
  obtain ⟨gs,hcu,rfl⟩ := hc.of_head fun p hp => (hps p (mem_of_mem_head? hp)).not_delimiter
  rw [hs,hcu.eq_of_not_dropped fun p hp => (hps p hp).not_delimiter]
  by_cases hn : ps = [] <;> simp [trimLast,hn]

structure Group (ifs : IfsState) (ps : List Piece) : Prop where
  ne_nil : ps ≠ []
  stays : ∀ p ∈ ps, Stays ifs p

omit hsep in
theorem Group.cut_spaced (hs : ifs.isIfs 0x20) (hgs : ∀ h ∈ g :: gs, Group ifs h)
    {groups : List (List Piece)} (h : Cut (Delimiter ifs) (Fieldable ifs) (g ++ gs.flatMap fun h => .plain 0x20 :: h) groups) :
    groups = g :: gs := by
  induction gs generalizing g groups with
  | nil =>
    rw [flatMap_nil,append_nil] at h
    exact h.eq_of_not_dropped fun p hp => ((hgs g mem_cons_self).stays p hp).not_delimiter
  | cons h' gs ih =>
    obtain ⟨hg,hgs⟩ := forall_mem_cons.mp hgs
    have hh := hgs h' mem_cons_self
    obtain ⟨p,ps,rfl⟩ := exists_cons_of_ne_nil hh.ne_nil
    rw [flatMap_cons,cons_append] at h
    obtain ⟨rest,rfl,hr⟩ := h.cons_of_not_dropped (fun q hq => (hg.stays q hq).not_delimiter)
      (fun hk => by simpa [hs] using hk 0x20 rfl (by decide)) (by simpa using (hh.stays p mem_cons_self).not_delimiter)
    rw [ih hgs hr]

theorem split_spaced (hsp : ifs.isIfs 0x20) (hgs : ∀ h ∈ g :: gs, Group ifs h) :
    split (write (g ++ gs.flatMap fun h => .plain 0x20 :: h)) ifs = (g :: gs).map write := by
  have hs : Splittable (g ++ gs.flatMap fun h => .plain 0x20 :: h) := by
    intro p hp
    obtain hp | hp := mem_append.mp hp
    · exact ((hgs g mem_cons_self).stays p hp).splittable
    obtain ⟨h,hh,hp⟩ := mem_flatMap.mp hp
    obtain rfl | hp := mem_cons.mp hp
    · simp
    · exact ((hgs h (mem_cons_of_mem g hh)).stays p hp).splittable
  obtain ⟨groups,hc,hsl⟩ := split_pieces hsep hs
  obtain ⟨cut,hcu,rfl⟩ := hc.of_head fun p hp => by
    obtain ⟨q,g,rfl⟩ := exists_cons_of_ne_nil (hgs g mem_cons_self).ne_nil
    cases hp
    exact ((hgs _ mem_cons_self).stays _ mem_cons_self).not_delimiter
  rw [hsl,Group.cut_spaced hsp hgs hcu,trimLast_of_ne_nil fun h hh => (hgs h hh).ne_nil]
end
end
end Cherubsh.Expander.Buffer
