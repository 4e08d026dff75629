import Cherubsh.Builtins.Printf
import Mathlib.Data.Int.Lemmas

/-! # Termination of printf

The buffer for a number is never longer than 1000128 bytes, so a rendering that needs more is
retried for ever, unless it is longer than any `int`.
-/
namespace Cherubsh.Builtins.Printf
open Utf8 Expander.Arith List Option

section
def Fits (n : ℕ) : Prop := n < maxPrintfWidth + 128 ∨ i32Max < n

instance (n : ℕ) : Decidable (Fits n) := inferInstanceAs (Decidable (_ ∨ _))

def answerText (rendering : Bytes) : Text := if (rendering.length : ℤ) ≤ i32Max then fromUtf8Lossy rendering else []

variable {rendering : Bytes}

theorem snprintfLoop_overflow (h : i32Max < rendering.length) (fuel len : ℕ) :
    snprintfLoop rendering (fuel + 1) len = some [] := by
  unfold snprintfLoop snprintf
  dsimp only
  rw [if_neg (not_le.mpr h),if_pos (by decide)]

theorem snprintfLoop_succ (h : (rendering.length : ℤ) ≤ i32Max) (fuel len : ℕ) :
    snprintfLoop rendering (fuel + 1) len =
      if rendering.length < len then some (fromUtf8Lossy rendering)
      else snprintfLoop rendering fuel (min (rendering.length + 1) (maxPrintfWidth + 128)) := by
  rw [snprintfLoop]
  unfold snprintf
  dsimp only
  rw [if_pos h,if_neg (not_lt.mpr (Int.natCast_nonneg _)),Int.toNat_natCast]
  by_cases hl : rendering.length < len
  · rw [if_pos hl,if_pos hl,take_take,take_of_length_le (by omega)]
  · rw [if_neg hl,if_neg hl]

theorem snprintfLoop_eq_some {fuel len : ℕ} {text : Text} (h : snprintfLoop rendering fuel len = some text) :
    text = answerText rendering := by
  induction fuel generalizing len with
  | zero => cases h
  | succ fuel ih =>
    unfold answerText
    by_cases hi : (rendering.length : ℤ) ≤ i32Max
    · rw [snprintfLoop_succ hi] at h
      split at h
      · rw [if_pos hi]
        exact (Option.some.inj h).symm
      · exact ih h
    · rw [snprintfLoop_overflow (not_le.mp hi)] at h
      rw [if_neg hi]
      exact (Option.some.inj h).symm

theorem snprintfLoop_of_not_fits (h : ¬Fits rendering.length) {len : ℕ} (hle : len ≤ maxPrintfWidth + 128) (fuel : ℕ) :
    snprintfLoop rendering fuel len = none := by
  obtain ⟨hl,hi⟩ := not_or.mp h
  induction fuel generalizing len with
  | zero => rfl
  | succ fuel ih =>
    rw [snprintfLoop_succ (not_lt.mp hi),if_neg (by omega)]
    exact ih (min_le_right _ _)

theorem snprintfToString_of_fits (h : Fits rendering.length) (fuel : ℕ) :
    snprintfToString (fuel + 2) rendering = some (answerText rendering) := by
  unfold snprintfToString answerText
  by_cases hi : (rendering.length : ℤ) ≤ i32Max
  · have hl := h.resolve_right (not_lt.mpr hi)
    rw [if_pos hi,snprintfLoop_succ hi,snprintfLoop_succ hi]
    split
    · rfl
    · rw [if_pos (by omega)]
  · rw [if_neg hi,snprintfLoop_overflow (not_le.mp hi)]
end

section
variable (spec : ResolvedFormat)

theorem length_padInteger (sign digits : Text) :
    (padInteger spec sign digits).length = max (spec.width.getD 0) (sign.length + digits.length) := by
  unfold padInteger
  split
  · simp only [length_append,length_replicate]
    omega
  · split <;> simp only [length_append,length_replicate] <;> omega

theorem length_integerDigits_le {base n : ℕ} (hb : 2 ≤ base) (hn : n < 2 ^ 64) :
    (integerDigits spec base n).length ≤ max (spec.precision.getD 0) 64 + 1 := by
  have hd := (Nat.length_toDigits_le_iff hb (by decide)).mpr (hn.trans_le (Nat.pow_le_pow_left hb 64))
  have hc : (if n = 0 ∧ spec.precision = some 0 then [] else Nat.toDigits base n).length ≤ 64 := by
    split
    · exact Nat.zero_le _
    · exact hd
  unfold integerDigits
  dsimp only
  generalize (if n = 0 ∧ spec.precision = some 0 then [] else Nat.toDigits base n) = digits at hc ⊢
  have hu : (if spec.conv = 'X' then digits.map Char.toUpper else digits).length = digits.length := by
    split
    · exact length_map _
    · rfl
  generalize (if spec.conv = 'X' then digits.map Char.toUpper else digits) = digits' at hu ⊢
  split <;> simp only [length_cons,length_append,length_replicate] <;> omega

theorem length_signOf_le (value : ℤ) : (signOf spec value).length ≤ 1 := by
  unfold signOf
  split
  · exact le_rfl
  split
  · exact le_rfl
  split
  · exact le_rfl
  · exact Nat.zero_le _

theorem length_radixMark_le (value : ℕ) : (radixMark spec value).length ≤ 2 := by
  unfold radixMark
  split
  · exact le_rfl
  split
  · exact le_rfl
  · exact Nat.zero_le _

theorem two_le_radix : 2 ≤ radix spec := by
  unfold radix
  split
  · decide
  · split <;> decide

theorem fits_padInteger_iff {spec : ResolvedFormat} {sign digits : Text} (hp : spec.precision.getD 0 ≤ maxPrintfWidth)
    (hsi : sign.length ≤ 2) (hd : digits.length ≤ max (spec.precision.getD 0) 64 + 1) :
    Fits ((padInteger spec sign digits).map ascii).length ↔ Fits (spec.width.getD 0) := by
  have hs : sign.length + digits.length < maxPrintfWidth + 128 := by
    omega
  rw [length_map,length_padInteger]
  unfold Fits i32Max
  omega

variable {H : Host}

/-- The integers have 64 bits, and their precision is capped. -/
def Request.Bounded : Request H → Prop
  | .signed spec value => spec.precision.getD 0 ≤ maxPrintfWidth ∧ value.natAbs < 2 ^ 64
  | .unsigned spec value => spec.precision.getD 0 ≤ maxPrintfWidth ∧ value < 2 ^ 64
  | .float _ _ _ => True

/-- What the retry loop needs: of an integer its width, of a floating point number the whole rendering. -/
def Request.Renderable : Request H → Prop
  | .signed spec _ => Fits (spec.width.getD 0)
  | .unsigned spec _ => Fits (spec.width.getD 0)
  | .float env spec value => Fits (H.renderFloat env spec value).length

theorem fits_rendering_iff {r : Request H} (h : r.Bounded) : Fits r.rendering.length ↔ r.Renderable := by
  cases r with
  | signed spec value =>
    exact fits_padInteger_iff h.1 ((length_signOf_le spec value).trans (by decide))
      (length_integerDigits_le spec (by decide) h.2)
  | unsigned spec value =>
    exact fits_padInteger_iff h.1 (length_radixMark_le spec value) (length_integerDigits_le spec (two_le_radix spec) h.2)
  | float env spec value => exact Iff.rfl
end

section
variable {parsed : ParsedFormat}

theorem cappedSize_le (digits : Bytes) : cappedSize digits ≤ maxPrintfWidth := by
  apply List.foldlRecOn (motive := (· ≤ maxPrintfWidth))
  · exact Nat.zero_le _
  · exact fun n _ b _ => min_le_right _ _

def FieldSize.Capped : FieldSize → Prop
  | .number n => n ≤ maxPrintfWidth
  | _ => True

theorem precision_parseFlags (parsed : ParsedFormat) (bytes : Bytes) : (parseFlags parsed bytes).1.precision = parsed.precision := by
  fun_induction parseFlags parsed bytes <;> simp_all

theorem precision_parseWidth (parsed : ParsedFormat) (bytes : Bytes) : (parseWidth parsed bytes).1.precision = parsed.precision := by
  unfold parseWidth
  split
  · split
    · rfl
    · dsimp only
      split <;> rfl
  · rfl

theorem capped_parsePrecision (h : parsed.precision.Capped) (bytes : Bytes) :
    (parsePrecision parsed bytes).1.precision.Capped := by
  unfold parsePrecision
  split
  · split
    · exact h
    split
    · trivial
    · exact cappedSize_le _
  · exact h

theorem capped_parseConversion {bytes next : Bytes} (h : parseConversion bytes = .ok parsed next) :
    parsed.precision.Capped := by
  have hf := precision_parseFlags { } bytes
  have hw := precision_parseWidth (parseFlags { } bytes).1 (parseFlags { } bytes).2
  unfold parseConversion at h
  dsimp only at h
  generalize parseFlags { } bytes = flags at hf hw h
  generalize parseWidth flags.1 flags.2 = width at hw h
  have hp : (parsePrecision width.1 width.2).1.precision.Capped := by
    apply capped_parsePrecision
    rw [hw,hf]
    trivial
  generalize parsePrecision width.1 width.2 = precision at hp h
  cases hr : (precision.2.dropWhile isDigitByte).dropWhile isLengthByte with
  | nil =>
    rw [hr] at h
    cases h
  | cons b rest =>
    rw [hr] at h
    dsimp only at h
    split at h
    · cases ht : timeBody [] rest with
      | none =>
        rw [ht] at h
        cases h
      | some time =>
        rw [ht] at h
        dsimp only at h
        split at h
        · cases h
          exact hp
        · cases h
    · split at h
      · cases h
        exact hp
      · cases h

theorem starPrecision_le (n : Option ℤ) : (starPrecision n).getD 0 ≤ maxPrintfWidth := by
  cases n with
  | none => exact Nat.zero_le _
  | some n =>
    unfold starPrecision
    dsimp only
    split
    · exact min_le_right _ _
    · exact Nat.zero_le _

theorem takeArg_argIdx (args : List Text) (argIdx : ℕ) : (takeArg args argIdx).2.2 = argIdx + 1 := by
  unfold takeArg
  split <;> rfl

theorem le_resolveWidth (parsed : ParsedFormat) (args : List Text) (argIdx : ℕ) :
    argIdx ≤ (resolveWidth parsed args argIdx).2.2.1 := by
  unfold resolveWidth
  split
  · exact le_rfl
  · exact le_rfl
  · dsimp only
    rw [takeArg_argIdx]
    exact Nat.le_succ argIdx

theorem resolvePrecision_spec (h : parsed.precision.Capped) (args : List Text) (argIdx : ℕ) :
    (resolvePrecision parsed args argIdx).1.getD 0 ≤ maxPrintfWidth ∧ argIdx ≤ (resolvePrecision parsed args argIdx).2.1 := by
  unfold resolvePrecision
  cases hp : parsed.precision with
  | absent => exact ⟨Nat.zero_le _,le_rfl⟩
  | number n =>
    rw [hp] at h
    exact ⟨h,le_rfl⟩
  | star =>
    refine ⟨starPrecision_le _,?_⟩
    dsimp only
    rw [takeArg_argIdx]
    exact Nat.le_succ argIdx

theorem resolveStars_spec (h : parsed.precision.Capped) (args : List Text) (argIdx : ℕ) :
    (resolveStars parsed args argIdx).1.precision.getD 0 ≤ maxPrintfWidth ∧ argIdx ≤ (resolveStars parsed args argIdx).2.1 := by
  obtain ⟨hp,hle⟩ := resolvePrecision_spec h args (resolveWidth parsed args argIdx).2.2.1
  exact ⟨hp,(le_resolveWidth parsed args argIdx).trans hle⟩

abbrev InI64 (n : ℤ) : Prop := i64Min ≤ n ∧ n ≤ i64Max

theorem i64FromStrRadix_range {radix : ℕ} {s : Text} {n : ℤ} (h : i64FromStrRadix radix s = some n) : InI64 n := by
  simpa using (filter_eq_some_iff.mp h).2

theorem i64Neg_range {n : ℤ} (h : InI64 n) : InI64 (i64Neg n) := by
  unfold InI64 i64Neg i64Min i64Max at *
  split <;> omega

theorem headCode_range (s : Text) : InI64 ((s.head?.map fun c => (c.toNat : ℤ)).getD 0) := by
  cases s with
  | nil => decide
  | cons c rest =>
    have hc : c.toNat < 2 ^ 32 := c.val.toNat_lt
    unfold InI64 i64Min i64Max
    simp only [List.head?_cons,map_some,getD_some]
    omega

theorem parseSigned_range (negative : Bool) (digits : Text) : InI64 (parseSigned negative digits).1 := by
  unfold parseSigned
  split
  · rename_i value hv
    cases negative with
    | true => exact i64Neg_range (i64FromStrRadix_range hv)
    | false => exact i64FromStrRadix_range hv
  · split
    · cases negative <;> decide
    · decide

theorem parseIntegerArg_range (s : Text) (present : Bool) : InI64 (parseIntegerArg s present).1 := by
  have hz : InI64 0 := by decide
  have hr : ∀ s, InI64 ((i64FromStrRadix 16 s).elim (0,true) fun n => (n,false)).1 := by
    intro s
    cases h : i64FromStrRadix 16 s with
    | none => exact hz
    | some n => exact i64FromStrRadix_range h
  unfold parseIntegerArg
  split
  · exact hz
  split
  · exact hz
  split
  · exact hr _
  · exact hr _
  · exact headCode_range _
  · exact headCode_range _
  · exact parseSigned_range _ _
  · exact parseSigned_range _ _
  · exact parseSigned_range _ _
end

section
variable {H : Host} (args : List Text) (streamOutput : Bool) {st : RoundState H}

section
variable (st : RoundState H) (value : Text) (present : Bool)

theorem takeArg_state_argIdx : (st.takeArg args).2.2.argIdx = st.argIdx + 1 := takeArg_argIdx args st.argIdx

theorem integerArg_argIdx : (st.integerArg value present).2.argIdx = st.argIdx := by
  unfold RoundState.integerArg
  dsimp only
  split <;> rfl

theorem floatArg_argIdx : (st.floatArg value present).2.argIdx = st.argIdx := by
  unfold RoundState.floatArg
  split
  · rfl
  split
  · rfl
  · rfl
  · split <;> rfl

theorem timeArg_argIdx : (st.timeArg value present).2.argIdx = st.argIdx := by
  unfold RoundState.timeArg
  split
  · rfl
  split
  · rfl
  split
  · rfl
  split
  · rfl
  · exact integerArg_argIdx st value present

theorem integerArg_range : (st.integerArg value present).1.natAbs < 2 ^ 64 := by
  have hr := parseIntegerArg_range value present
  unfold InI64 i64Min i64Max at hr
  change (parseIntegerArg value present).1.natAbs < 2 ^ 64
  omega
end

theorem convertCount_argIdx (name : Text) (st : RoundState H) : (convertCount streamOutput name st).argIdx = st.argIdx := by
  unfold convertCount
  split
  · rfl
  split
  · cases streamOutput <;> rfl
  · split <;> rfl

theorem every_convert {spec : ResolvedFormat} (h : spec.precision.getD 0 ≤ maxPrintfWidth) (st : RoundState H) :
    (convert args streamOutput spec st).Every Request.Bounded fun a => a.2 = false → st.argIdx < a.1.argIdx := by
  have hn := takeArg_state_argIdx args st
  unfold convert
  generalize st.takeArg args = taken at hn ⊢
  obtain ⟨value,present,st'⟩ := taken
  have hlt : st.argIdx < st'.argIdx := hn ▸ Nat.lt_succ_self _
  have hsi := integerArg_range st' value present
  have hu : ((st'.integerArg value present).1 % 2 ^ 64).toNat < 2 ^ 64 := by omega
  have hi : st.argIdx < (st'.integerArg value present).2.argIdx := (integerArg_argIdx st' value present).symm ▸ hlt
  have hf : st.argIdx < (st'.floatArg value present).2.argIdx := (floatArg_argIdx st' value present).symm ▸ hlt
  have ht : st.argIdx < (st'.timeArg value present).2.argIdx := (timeArg_argIdx st' value present).symm ▸ hlt
  have hc : st.argIdx < (convertCount streamOutput value st').argIdx := (convertCount_argIdx streamOutput value st').symm ▸ hlt
  have ha : ∀ (r : Request H) (next : Text → RoundState H), r.Bounded → (∀ text, st.argIdx < (next text).argIdx) →
      Program.Every Request.Bounded (fun a => a.2 = false → st.argIdx < a.1.argIdx)
        (Program.call r >>= fun text => pure (next text,false) : Program (Request H) Text (RoundState H × Bool)) :=
    fun r next hr hid => Program.every_bind (Program.every_call hr) fun text _ => Program.every_pure fun _ => hid text
  dsimp only
  split
  case h_3 =>
    apply Program.every_pure
    intro hs
    split at hs
    · cases hs
    · rename_i hgo
      rw [if_neg hgo]
      split <;> exact hlt
  -- Strings, then the three kinds of numbers, the count and the time.
  all_goals first
    | exact Program.every_pure fun _ => hlt
    | exact ha _ (fun text => (st'.integerArg value present).2.put (encode text)) ⟨h,hsi⟩ fun _ => hi
    | exact ha _ (fun text => (st'.integerArg value present).2.put (encode text)) ⟨h,hu⟩ fun _ => hi
    | exact ha _ (fun text => (st'.floatArg value present).2.put
        (encode (applyDecimalLocale H (st'.floatArg value present).2.env text))) trivial fun _ => hf
    | exact Program.every_pure fun _ => hc
    | exact Program.every_pure fun _ => ht

theorem every_formatRound (bytes : Bytes) (anyConv : Bool) (st : RoundState H) :
    (formatRound args streamOutput bytes anyConv st).Every Request.Bounded fun a =>
      a.2.stop = false → st.argIdx ≤ a.1.argIdx ∧ (a.2.used = true → anyConv = true ∨ st.argIdx < a.1.argIdx) := by
  fun_induction formatRound args streamOutput bytes anyConv st with
  | case1 anyConv st | case2 anyConv st => exact Program.every_pure fun _ => ⟨le_rfl,.inl⟩
  | case3 anyConv st c rest e ih | case4 anyConv st b rest hb hb' ih | case5 anyConv st b rest hb hb' hp ih => exact ih
  | case6 anyConv st | case7 anyConv st => exact Program.every_pure fun h => by cases h
  | case8 anyConv st b rest hb hb' hp ch raw next hpa st' ih => exact ih
  | case9 anyConv st b rest hb hb' hp parsed next hpa st' spec argIdx reports hsa ih =>
    have hst : st'.argIdx = st.argIdx := by
      change (if parsed.conv = 'Q' ∧ parsed.precisionOverflow = true then _ else st).argIdx = st.argIdx
      split <;> rfl
    have hs := resolveStars_spec (capped_parseConversion hpa) args st'.argIdx
    rw [hsa,hst] at hs
    apply Program.every_bind (every_convert args streamOutput hs.1 _)
    rintro ⟨st₁,stop⟩ hc
    cases stop with
    | true => exact Program.every_pure fun h => by cases h
    | false =>
      have hlt := hs.2.trans_lt (hc rfl)
      apply (ih st₁).mono (fun _ hr => hr)
      intro a ha hso
      have hle := (ha hso).1
      exact ⟨(hlt.trans_le hle).le,fun _ => .inr (hlt.trans_le hle)⟩

variable (format : Bytes)

theorem every_round_goes_on (st : RoundState H) :
    (formatRound args streamOutput format false st).Every Request.Bounded fun a =>
      ¬(!a.2.used || a.2.stop) = true → st.argIdx < a.1.argIdx := by
  apply (every_formatRound args streamOutput format false st).mono (fun _ hr => hr)
  intro a ha hgo
  simp only [Bool.or_eq_true,Bool.not_eq_true',not_or,Bool.not_eq_false,Bool.not_eq_true] at hgo
  exact ((ha hgo.2).2 hgo.1).resolve_left (by simp)

theorem every_rounds {fuel : ℕ} (status : ℕ) (hf : args.length - st.argIdx < fuel) :
    (rounds format args streamOutput fuel status st).Every Request.Bounded fun a => a.isSome := by
  induction fuel generalizing status st with
  | zero => omega
  | succ fuel ih =>
    apply Program.every_bind (every_round_goes_on args streamOutput format _)
    rintro ⟨st₁,outcome⟩ hr
    dsimp only
    split
    · exact Program.every_pure rfl
    split
    · exact Program.every_pure rfl
    · rename_i hgo ha
      have hlt : st.argIdx < st₁.argIdx := hr hgo
      exact ih _ (by omega)

theorem answerWith_rounds {f : Request H → Option Text} {fuel fuel' status : ℕ} {last : ℕ × RoundState H}
    (h : (rounds format args streamOutput fuel status st).answerWith f = some (some last))
    (hf : args.length - st.argIdx < fuel') :
    (rounds format args streamOutput fuel' status st).answerWith f = some (some last) := by
  induction fuel generalizing fuel' status st with
  | zero => cases h
  | succ fuel ih =>
    obtain ⟨k,rfl⟩ := Nat.exists_eq_add_one_of_ne_zero (n := fuel') (by omega)
    rw [rounds,Program.answerWith_bind] at h ⊢
    obtain ⟨⟨st₁,outcome⟩,hro,hr⟩ := bind_eq_some_iff.mp h
    have hlt := (every_round_goes_on args streamOutput format _).answerWith hro
    rw [hro,bind_some]
    dsimp only at hr hlt ⊢
    split at hr
    · rwa [if_pos (by assumption)]
    rename_i hgo
    rw [if_neg hgo]
    split at hr
    · rwa [if_pos (by assumption)]
    · rw [if_neg (by assumption)]
      have hlt := hlt hgo
      exact ih hr (by omega)
end

section
variable {H : Host} (target : Option Text) (fmt : Text) (args : List Text) (env : H.Env)

def Terminates : Prop :=
  ∃ fuel result, (run fuel target fmt args env).answerWith (fun r => snprintfToString fuel r.rendering) = some (some result)

def allRounds : Program (Request H) Text (Option (ℕ × RoundState H)) :=
  rounds (encode fmt) args target.isNone (args.length + 1) 0 (.start env)

/-- The renderings that the run asks for, each answered in full. -/
def requests : List (Request H) := (allRounds target fmt args env).demands fun r => answerText r.rendering

theorem every_allRounds : (allRounds target fmt args env).Every Request.Bounded fun last => last.isSome :=
  every_rounds args target.isNone (encode fmt) 0 (Nat.lt_succ_self _)

theorem bounded_of_mem_requests {r : Request H} (hr : r ∈ requests target fmt args env) : r.Bounded :=
  (every_allRounds target fmt args env).demands _ r hr

theorem renderable_of_terminates (h : Terminates target fmt args env) : ∀ r ∈ requests target fmt args env, r.Renderable := by
  obtain ⟨fuel,result,hru⟩ := h
  unfold run at hru
  rw [Program.answerWith_bind] at hru
  obtain ⟨last,hro,hl⟩ := bind_eq_some_iff.mp hru
  obtain ⟨last,rfl⟩ : ∃ last', last = some last' := by
    cases last with
    | none => cases hl
    | some last => exact ⟨last,rfl⟩
  have hal : (allRounds target fmt args env).answerWith (fun r => snprintfToString fuel r.rendering) = some (some last) :=
    answerWith_rounds args target.isNone (encode fmt) hro (Nat.lt_succ_self _)
  intro r hr
  have ha : (snprintfToString fuel r.rendering).isSome :=
    Program.answered_of_answerWith (fun r b hb => snprintfLoop_eq_some hb) hal r hr
  rw [← fits_rendering_iff (bounded_of_mem_requests target fmt args env hr)]
  by_contra hno
  have hn : snprintfToString fuel r.rendering = none := snprintfLoop_of_not_fits hno (by decide) fuel
  rw [hn] at ha
  cases ha

theorem terminates_of_renderable (h : ∀ r ∈ requests target fmt args env, r.Renderable) : Terminates target fmt args env := by
  have ha : ∀ r ∈ requests target fmt args env,
      snprintfToString (args.length + 2) r.rendering = some (answerText r.rendering) :=
    fun r hr => snprintfToString_of_fits ((fits_rendering_iff (bounded_of_mem_requests target fmt args env hr)).mpr (h r hr)) _
  obtain ⟨last,hl⟩ := isSome_iff_exists.mp
    ((every_allRounds target fmt args env).result fun r => answerText r.rendering)
  have hro : (allRounds target fmt args env).answerWith (fun r => snprintfToString (args.length + 2) r.rendering) =
      some (some last) := by
    rw [← hl]
    exact Program.answerWith_eq_result ha
  refine ⟨args.length + 2,finish target last.1 last.2,?_⟩
  unfold run
  rw [Program.answerWith_bind,answerWith_rounds args target.isNone (encode fmt) hro
    (show args.length < args.length + 2 by omega)]
  rfl

/-- The builtin ends just when no integer has a width from 1000128 up to the largest `int`, and no
floating point rendering such a length. -/
theorem terminates_iff : Terminates target fmt args env ↔ ∀ r ∈ requests target fmt args env, r.Renderable :=
  ⟨renderable_of_terminates target fmt args env,terminates_of_renderable target fmt args env⟩

theorem formatRound_nil (streamOutput anyConv : Bool) (st : RoundState H) :
    formatRound args streamOutput [] anyConv st = pure (st,⟨anyConv,false,st.status⟩) := by
  rw [formatRound]

theorem formatRound_conversion {rest next : Bytes} {parsed : ParsedFormat} (hp : rest.head? ≠ some (ascii '%'))
    (hpa : parseConversion rest = .ok parsed next) (ho : parsed.precisionOverflow = false)
    (streamOutput anyConv : Bool) (st : RoundState H) : formatRound args streamOutput (ascii '%' :: rest) anyConv st =
      convert args streamOutput (resolveStars parsed args st.argIdx).1
        ({ st with argIdx := (resolveStars parsed args st.argIdx).2.1 }.report (resolveStars parsed args st.argIdx).2.2) >>=
        fun a => if a.2 then pure (a.1,⟨true,true,a.1.status⟩) else formatRound args streamOutput next true a.1 := by
  rw [formatRound.eq_def]
  dsimp only
  rw [if_neg (by decide),if_neg (by simp),if_neg hp]
  split
  · simp_all
  · simp_all
  · simp_all
  · rename_i heq
    rw [hpa] at heq
    cases heq
    rw [if_neg (by simp [ho])]

/-- A width argument of -1000128: the field is one byte longer than the buffer can get. -/
theorem never_terminates_negative_width :
    ¬∃ (H : Host) (env : H.Env), Terminates none "%*d" ["-1000128","1"] env := by
  rintro ⟨H,env,hterminates⟩
  have hformat : encode "%*d" = ascii '%' :: [0x2A,0x64] := rfl
  have hparse : parseConversion [0x2A,0x64] = .ok { width := .star, conv := 'd' } [] := rfl
  have hrequests : requests none "%*d" ["-1000128","1"] env =
      [.signed ⟨true,false,false,false,false,some 1000128,none,'d',none⟩ 1] := by
    unfold requests allRounds
    rw [rounds,hformat,formatRound_conversion _ (by decide) hparse rfl]
    simp only [formatRound_nil]
    rfl
  have hrenderable := renderable_of_terminates none _ _ env hterminates
  rw [hrequests] at hrenderable
  exact absurd (hrenderable _ mem_cons_self) (by decide : ¬Fits 1000128)
end
end Cherubsh.Builtins.Printf
