import Cherubsh.Expander.ParamExpansion

/-! # Operators on a value bring in no NUL

What `#`, `%`, `/`, `^`, `,` and `@` make of a value without a NUL byte is without one again,
as long as a replacement is.
-/
namespace Cherubsh.Expander.Parameters
open Utf8 Buffer ShellString Words Pattern Quote List
variable {rep out s : Bytes} {cp : ℕ}

section
variable {s pattern : Bytes} (hs : 0 ∉ s)
include hs

theorem zero_notMem_drop (n : ℕ) : 0 ∉ s.drop n := fun h => hs (mem_of_mem_drop h)
theorem zero_notMem_take (n : ℕ) : 0 ∉ s.take n := fun h => hs (mem_of_mem_take h)

theorem zero_notMem_literalRemove (pattern : Bytes) (prefixed : Bool) : 0 ∉ literalRemove s pattern prefixed := by
  unfold literalRemove
  split_ifs
  exacts [zero_notMem_drop hs _,hs,zero_notMem_take hs _,hs]

theorem zero_notMem_removePattern (pattern : Bytes) (prefixed longest : Bool) (opts : GlobOpts) :
    0 ∉ removePattern s pattern prefixed longest opts := by
  unfold removePattern
  dsimp only
  repeat' split
  all_goals first | exact hs | exact zero_notMem_drop hs _ | exact zero_notMem_take hs _

theorem zero_notMem_casemod (pat : Option Bytes) (mode : CaseModMode) (opts : GlobOpts) : 0 ∉ casemod s pat mode opts := by
  have hc : ∀ b, mode.change b = 0 → b = 0 := forall_byte (by cases mode <;> decide +kernel)
  intro h
  unfold casemod at h
  obtain ⟨i,hi,heq⟩ := mem_iff_getElem.mp h
  rw [getElem_mapIdx] at heq
  refine hs (mem_iff_getElem.mpr ⟨i,by simpa using hi,?_⟩)
  dsimp only at heq
  split_ifs at heq
  · exact hc _ heq
  · exact heq

variable {replacement : Bytes → Bytes} (hrep : ∀ m, 0 ∉ m → 0 ∉ replacement m)
include hrep

theorem zero_notMem_substLiteralLoop (opts : GlobOpts) (literal : Bytes) (first : Bool) (fuel : ℕ) :
    0 ∉ substLiteralLoop opts literal first replacement fuel s := by
  induction fuel generalizing s with
  | zero => exact hs
  | succ fuel ih =>
    unfold substLiteralLoop
    split
    · exact hs
    · simp only [mem_append,not_or]
      refine ⟨⟨zero_notMem_take hs _,hrep _ (zero_notMem_take (zero_notMem_drop hs _) _)⟩,?_⟩
      split
      · exact zero_notMem_drop hs _
      · exact ih (zero_notMem_drop hs _)

theorem zero_notMem_substTokensLoop (opts : GlobOpts) (toks : List Tok) (first : Bool) (fuel i : ℕ) :
    0 ∉ substTokensLoop opts toks first replacement s fuel i := by
  induction fuel generalizing i with
  | zero => simp [substTokensLoop]
  | succ fuel ih =>
    unfold substTokensLoop
    split
    · simp
    split
    · simp only [mem_append,not_or]
      refine ⟨hrep _ (zero_notMem_take (zero_notMem_drop hs _) _),?_⟩
      split
      · exact zero_notMem_drop hs _
      · exact ih _
    · simp only [mem_append,Option.mem_toList,not_or]
      exact ⟨fun h => hs (mem_of_getElem? h),ih _⟩

theorem zero_notMem_patSubstWithReplacer (pattern : Bytes) (mode : PatSubMode) (opts : GlobOpts) :
    0 ∉ patSubstWithReplacer s pattern mode opts replacement := by
  have hd := zero_notMem_drop hs
  have hta := zero_notMem_take hs
  have hl := zero_notMem_substLiteralLoop hs hrep opts
  have ht := zero_notMem_substTokensLoop hs hrep opts
  unfold patSubstWithReplacer patSubstLiteral patSubstTokens substEmpty
  repeat' split
  all_goals first | exact hl _ _ _ | exact ht _ _ _ _ | simp_all
end

section
variable {s : Bytes} (hs : 0 ∉ s)
include hs

theorem zero_notMem_literalReplaceAll (hrep : 0 ∉ rep) (pattern : Bytes) (fuel : ℕ) :
    0 ∉ literalReplaceAll pattern rep fuel s := by
  induction fuel generalizing s with
  | zero => exact hs
  | succ fuel ih =>
    unfold literalReplaceAll
    split
    · simp only [mem_append,not_or]
      exact ⟨⟨zero_notMem_take hs _,hrep⟩,ih (zero_notMem_drop hs _)⟩
    · exact hs

theorem zero_notMem_literalSubstitute (hrep : 0 ∉ rep) (pattern : Bytes) (mode : PatSubMode) :
    0 ∉ literalSubstitute s pattern rep mode := by
  have hd := zero_notMem_drop hs
  have ht := zero_notMem_take hs
  have ha := zero_notMem_literalReplaceAll hs hrep pattern
  unfold literalSubstitute
  repeat' split
  all_goals first | exact ha _ | simp_all

/-- The replacement stands for bytes without NUL, whatever was matched. -/
def NulFreeTemplate (template : Bytes) : Prop :=
  0 ∉ dequoteBytes template ∧ ∀ m, 0 ∉ m → 0 ∉ expandPatsubReplacement m template.length template

theorem zero_notMem_substituted {template : Bytes} (ht : NulFreeTemplate template) (patsubReplacement : Bool)
    (pattern : Bytes) (mode : PatSubMode) (opts : GlobOpts) : 0 ∉ substituted patsubReplacement pattern template mode opts s := by
  unfold substituted
  split
  · exact zero_notMem_patSubstWithReplacer hs ht.2 pattern mode opts
  split
  · exact zero_notMem_literalSubstitute hs ht.1 _ mode
  · exact zero_notMem_patSubstWithReplacer hs (fun _ _ => ht.1) pattern mode opts
end

theorem zero_notMem_of_pushAnsiByte {value : ℕ} (h : pushAnsiByte value = some out) : 0 ∉ out := by
  unfold pushAnsiByte at h
  split at h
  · cases h
  · cases h
    rename_i hv
    rw [mem_singleton,eq_comm]
    exact fun h => hv (by simpa using congrArg UInt8.toNat h)

theorem ofNat_or_ne_zero {m k : ℕ} (hm : m ≠ 0) (hm' : m < 256) (hk : k < 256) : UInt8.ofNat (m ||| k) ≠ 0 := by
  intro h
  have hlt : m ||| k < 2 ^ 8 := Nat.or_lt_two_pow hm' hk
  have hle : m ≤ m ||| k := Nat.left_le_or
  have hz := congrArg UInt8.toNat h
  simp only [UInt8.toNat_ofNat',UInt8.toNat_ofNat,Nat.mod_eq_of_lt hlt] at hz
  omega

theorem zero_notMem_pushExtendedUtf8 (hlo : 0 < cp) (hh : cp ≤ 0x7FFFFFFF) : 0 ∉ pushExtendedUtf8 cp := by
  have hsi : ∀ shift, (0 : UInt8) ≠ UInt8.ofNat (0x80 + cp / 2 ^ shift % 64) := by
    intro shift h
    have hlt : cp / 2 ^ shift % 64 < 64 := Nat.mod_lt _ (by decide)
    have hz := congrArg UInt8.toNat h
    simp only [UInt8.toNat_ofNat',UInt8.toNat_ofNat] at hz
    omega
  have hl : ∀ m k, m ≠ 0 → m < 256 → k < 256 → (0 : UInt8) ≠ UInt8.ofNat (m ||| k) :=
    fun m k hm hm' hk => (ofNat_or_ne_zero hm hm' hk).symm
  unfold pushExtendedUtf8
  split_ifs
  · have hne : (0 : UInt8) ≠ UInt8.ofNat cp := fun h => by
      have hz := congrArg UInt8.toNat h
      simp only [UInt8.toNat_ofNat',UInt8.toNat_ofNat] at hz
      omega
    simpa using hne
  all_goals
    simp only [mem_cons,not_mem_nil,or_false,not_or]
    refine ⟨hl _ _ (by decide) (by decide) (by omega),?_⟩
    simp only [ne_eq] at hsi
    simp only [hsi,not_false_eq_true,and_self]

theorem zero_notMem_of_pushUnicode (h : pushUnicodeForLocale none cp = some out) : 0 ∉ out := by
  unfold pushUnicodeForLocale at h
  split_ifs at h with hz hl
  · cases h
    simp
  dsimp only [Option.bind] at h
  split at h
  · rename_i c hc
    cases h
    rw [zero_mem_utf8EncodeChar]
    rintro rfl
    unfold charFromU32 at hc
    split at hc
    · rename_i hv
      have hn := congrArg Char.toNat (Option.some.inj hc)
      rw [Char.ofNat,dif_pos hv] at hn
      exact hz hn
    · cases hc
  · cases h
    exact zero_notMem_pushExtendedUtf8 (Nat.pos_of_ne_zero hz) (by omega)

theorem decodeHexEscape_suffix (bytes : Bytes) : (decodeHexEscape bytes).2.1 <:+ bytes := by
  unfold decodeHexEscape
  dsimp only
  split_ifs
  · exact (tail_suffix _).trans ((drop_suffix _ _).trans (tail_suffix _))
  · exact (drop_suffix _ _).trans (tail_suffix _)
  · exact drop_suffix _ _

/-- What an escape pushes and leaves. -/
theorem zero_notMem_of_escape {n : UInt8} (hn : n ≠ 0) {rest after : Bytes} (hr : 0 ∉ rest)
    (h : escape none n rest = (some out,after)) : 0 ∉ out ∧ 0 ∉ after := by
  have hsi : ∀ n, simpleEscape n ≠ some 0 := forall_byte (by decide +kernel)
  have hse : ∀ {l : Bytes}, (some ['\\'.toUInt8,n],l) = (some out,after) → 0 ∉ l → 0 ∉ out ∧ 0 ∉ after := by
    rintro l ⟨⟩ hl
    exact ⟨by simp [hn.symm]; decide,hl⟩
  have hby : ∀ {value : ℕ} {l : Bytes}, (pushAnsiByte value,l) = (some out,after) → 0 ∉ l → 0 ∉ out ∧ 0 ∉ after :=
    fun h hl => ⟨zero_notMem_of_pushAnsiByte (Prod.mk.inj h).1,(Prod.mk.inj h).2 ▸ hl⟩
  have hu : ∀ {cp : ℕ} {l : Bytes}, (pushUnicodeForLocale none cp,l) = (some out,after) → 0 ∉ l →
      0 ∉ out ∧ 0 ∉ after :=
    fun h hl => ⟨zero_notMem_of_pushUnicode (Prod.mk.inj h).1,(Prod.mk.inj h).2 ▸ hl⟩
  have hd := zero_notMem_drop hr
  unfold escape at h
  cases hb : simpleEscape n with
  | some b =>
    rw [hb] at h
    cases h
    have hne : b ≠ 0 := fun h => hsi n (h ▸ hb)
    exact ⟨by simpa using hne.symm,hr⟩
  | none =>
    simp only [hb] at h
    split_ifs at h
    case pos => exact hby h (hd _)
    case pos => exact hse h hr
    case neg => exact hby h fun hm => hr ((decodeHexEscape_suffix rest).subset hm)
    case pos => exact hse h hr
    case neg => exact hu h (hd _)
    case pos => exact hse h hr
    case neg => exact hu h (hd _)
    case pos =>
      cases rest with
      | nil => exact hse h hr
      | cons c rest =>
        have hr : 0 ∉ rest := fun h => hr (mem_cons_of_mem c h)
        dsimp only at h
        split_ifs at h
        · exact hby h fun h => hr (mem_of_mem_tail h)
        all_goals exact hby h hr
    case neg => exact hse h hr

theorem zero_notMem_ansiCDecodeWith (fuel : ℕ) (hs : 0 ∉ s) : 0 ∉ ansiCDecodeWith none fuel s := by
  induction fuel generalizing s with
  | zero => simp [ansiCDecodeWith]
  | succ fuel ih =>
    match s with
    | [] => simp [ansiCDecodeWith]
    | [b] => exact hs
    | b :: n :: rest =>
      simp only [mem_cons,not_or] at hs
      obtain ⟨hb,hn,hr⟩ := hs
      unfold ansiCDecodeWith
      split
      · simp only [mem_cons,not_or]
        exact ⟨hb,ih (by simp [hn,hr])⟩
      split
      · simp
      · rename_i out after he
        obtain ⟨ho,ha⟩ := zero_notMem_of_escape (Ne.symm hn) hr he
        simp only [mem_append,not_or]
        exact ⟨ho,ih ha⟩

theorem zero_notMem_ansiQuoteBytes (bytes : Bytes) : 0 ∉ ansiQuoteBytes bytes := by
  have he : ∀ b, 0 ∉ ansiEscape b := forall_byte (by decide +kernel)
  have hf : 0 ∉ bytes.flatMap ansiEscape := by
    rw [mem_flatMap]
    rintro ⟨b,-,hb⟩
    exact he b hb
  simp only [ansiQuoteBytes,mem_append,not_or]
  exact ⟨⟨by decide,hf⟩,by decide⟩

theorem zero_notMem_shellQuote (hs : 0 ∉ s) : 0 ∉ shellQuote s := by
  unfold shellQuote
  split
  · decide
  · simp only [mem_append,mem_flatMap,not_or,not_exists,not_and]
    refine ⟨⟨by decide,fun b hb => ?_⟩,by decide⟩
    split
    · decide
    · exact fun h => hs (mem_singleton.mp h ▸ hb)

section
variable {bytes : Bytes}

theorem nul_notMem_of_fromUtf8 (h : 0 ∉ bytes) {s : List Char} (hs : fromUtf8 bytes = .ok s) : '\x00' ∉ s := by
  rwa [encode_of_fromUtf8 hs,zero_mem_encode] at h

theorem nul_notMem_fromUtf8Lossy (h : 0 ∉ bytes) : '\x00' ∉ fromUtf8Lossy bytes := by
  have hw : ∀ fuel bytes, 0 ∉ bytes → '\x00' ∉ fromUtf8LossyWith fuel bytes := by
    intro fuel
    induction fuel with
    | zero => simp [fromUtf8LossyWith]
    | succ fuel ih =>
      intro bytes h
      unfold fromUtf8LossyWith
      obtain ⟨s,hs,rfl⟩ | ⟨s,rest,hs,rfl,-⟩ := fromUtf8_cases bytes
      · simpa [hs] using nul_notMem_of_fromUtf8 h hs
      · simp only [mem_append,not_or,zero_mem_encode] at h
        simp only [hs,take_left,fromUtf8_encode,mem_append,mem_cons,not_or]
        refine ⟨h.1,by decide,ih _ ?_⟩
        rw [← drop_drop,drop_left]
        exact zero_notMem_drop h.2 _
  exact hw _ _ h

theorem nul_notMem_bytesToShellString (h : 0 ∉ bytes) : '\x00' ∉ bytesToShellString bytes := by
  have hd := decodes bytes
  generalize bytesToShellString bytes = s at hd ⊢
  induction hd with
  | nil => exact not_mem_nil
  | char c _ ih =>
    rw [mem_append,not_or,zero_mem_utf8EncodeChar] at h
    simpa [eq_comm,h.1] using ih h.2
  | @byte b _ _ _ _ ih =>
    have hr : '\x00' ≠ Char.ofNat (rawByteBase + b.toNat) := by
      intro heq
      have hn := congrArg Char.toNat heq
      rw [toNat_raw b.toNat_lt,show '\x00'.toNat = 0 from rfl,rawByteBase] at hn
      omega
    simpa [hr] using ih fun hm => h (mem_cons_of_mem _ hm)

theorem nul_notMem_shellQuoteShellString (v : Text) : '\x00' ∉ shellQuoteShellString v := by
  unfold shellQuoteShellString
  dsimp only
  split
  · intro h
    obtain ⟨b,hb,hc⟩ := mem_map.mp h
    have hz : ∀ b : UInt8, Char.ofNat b.toNat = '\x00' → b = 0 := forall_byte (by decide +kernel)
    exact zero_notMem_ansiQuoteBytes _ (hz b hc ▸ hb)
  · rename_i hn
    simp only [shellStringNeedsAnsiQuote,Bool.or_eq_true,decide_eq_true_eq,any_eq_true,not_or,not_not,not_exists,not_and] at hn
    refine nul_notMem_fromUtf8Lossy (zero_notMem_shellQuote fun h => ?_)
    exact (hn.2 0 (hn.1 ▸ h)).1 (by decide)

theorem nul_notMem_transformText {f : Bytes → Bytes} (hf : ∀ s, 0 ∉ s → 0 ∉ f s) {v : Text} (hv : 0 ∉ shellStringToBytes v) :
    '\x00' ∉ transformText f v :=
  nul_notMem_bytesToShellString (hf _ hv)
end
end Cherubsh.Expander.Parameters
