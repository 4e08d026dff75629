import Cherubsh.State.Variables

/-! # Single attributes of variables

An attribute is one bit of the set, so adding or taking away another attribute does not
change whether it is there.
-/
namespace Cherubsh.State.VarAttrs
variable (attrs attr : VarAttrs)

/-- The attribute is the bit at `k`. -/
def Bit (attr : VarAttrs) (k : ℕ) : Prop := attr.toBitVec = BitVec.twoPow 32 k ∧ k < 32

instance (attr : VarAttrs) (k : ℕ) : Decidable (Bit attr k) := inferInstanceAs (Decidable (_ ∧ _))

variable {attr : VarAttrs} {k : ℕ}

variable (h : Bit attr k)
include h

theorem has_eq_getLsbD (attrs : VarAttrs) : attrs.has attr = attrs.toBitVec.getLsbD k := by
  obtain ⟨hm,hk⟩ := h
  have hb := BitVec.and_twoPow attrs.toBitVec k
  have hi : attrs &&& attr = attr ↔ attrs.toBitVec &&& BitVec.twoPow 32 k = BitVec.twoPow 32 k := by
    rw [← UInt32.toBitVec_inj,UInt32.toBitVec_and,hm]
  rw [hb] at hi
  cases hs : attrs.toBitVec.getLsbD k with
  | true => exact decide_eq_true (hi.mpr (if_pos hs))
  | false =>
    have hne : (0#32 : BitVec 32) ≠ BitVec.twoPow 32 k := by
      intro h
      have ho : (BitVec.twoPow 32 k).getLsbD k := by simp [hk]
      rw [← h] at ho
      simp at ho
    rw [hs,if_neg Bool.false_ne_true] at hi
    exact decide_eq_false fun h => hne (hi.mp h)

theorem has_or (attrs other : VarAttrs) :
    (attrs ||| other).has attr = (attrs.has attr || other.has attr) := by
  simp [has_eq_getLsbD h]

theorem has_without (attrs other : VarAttrs) :
    (attrs.without other).has attr = (attrs.has attr && !other.has attr) := by
  have hk := h.2
  simp [has_eq_getLsbD h,without,hk]

theorem meets_of_has {attrs mask : VarAttrs} (hm : mask.has attr) (hh : attrs.has attr) :
    attrs.meets mask := by
  rw [has_eq_getLsbD h] at hm hh
  refine decide_eq_true fun hz => ?_
  have hb := congrArg (fun a : VarAttrs => a.toBitVec.getLsbD k) hz
  simp [hm,hh] at hb

omit h

theorem ext_bits {a b : VarAttrs} (h : ∀ i < 32, a.toBitVec.getLsbD i = b.toBitVec.getLsbD i) : a = b :=
  UInt32.toBitVec_inj.mp (BitVec.eq_of_getLsbD_eq h)

theorem or_eq_self {attrs : VarAttrs} (h : attrs.has attr) : attrs ||| attr = attrs := by
  have hm := of_decide_eq_true h
  refine ext_bits fun i hi => ?_
  have hb := congrArg (fun a : VarAttrs => a.toBitVec.getLsbD i) hm
  simp only [UInt32.toBitVec_and,BitVec.getLsbD_and] at hb
  rw [UInt32.toBitVec_or,BitVec.getLsbD_or]
  cases ha : attrs.toBitVec.getLsbD i <;> simp_all

theorem without_eq_self (h : Bit attr k) {attrs : VarAttrs} (hn : attrs.has attr = false) : attrs.without attr = attrs := by
  rw [has_eq_getLsbD h] at hn
  refine ext_bits fun i hi => ?_
  have hm : attr.toBitVec.getLsbD i = decide (i = k) := by
    rw [h.1,BitVec.getLsbD_twoPow]
    have hk := h.2
    simp [hk,eq_comm]
  simp only [without,UInt32.toBitVec_and,UInt32.toBitVec_not,BitVec.getLsbD_and,BitVec.getLsbD_not,hm,hi]
  by_cases hik : i = k
  · subst hik
    simp [hn]
  · simp [hik]

theorem or_without : (attrs ||| attr).without attr = attrs.without attr := by
  refine ext_bits fun i hi => ?_
  simp [without,hi]
  cases attrs.toBitVec[i] <;> cases attr.toBitVec[i] <;> rfl

theorem without_or : attrs.without attr ||| attr = attrs ||| attr := by
  refine ext_bits fun i hi => ?_
  simp [without,hi]
  cases attrs.toBitVec[i] <;> cases attr.toBitVec[i] <;> rfl

theorem or_or : attrs ||| attr ||| attr = attrs ||| attr := by
  refine ext_bits fun i hi => ?_
  simp

theorem without_without : (attrs.without attr).without attr = attrs.without attr := by
  refine ext_bits fun i hi => ?_
  simp [without,hi]

theorem bit_EXPORT : Bit EXPORT 0 := by decide
theorem bit_READONLY : Bit READONLY 1 := by decide
theorem bit_INTEGER : Bit INTEGER 2 := by decide
theorem bit_ARRAY : Bit ARRAY 3 := by decide
theorem bit_ASSOC : Bit ASSOC 4 := by decide
theorem bit_UPPERCASE : Bit UPPERCASE 5 := by decide
theorem bit_LOWERCASE : Bit LOWERCASE 6 := by decide
theorem bit_CAPCASE : Bit CAPCASE 7 := by decide
theorem bit_NAMEREF : Bit NAMEREF 9 := by decide
end Cherubsh.State.VarAttrs
