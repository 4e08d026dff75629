import Cherubsh.Builtins.Getopts

/-! # Restarting a scan of options

Assigning 1 to OPTIND starts a scan from the first letter exactly when the hidden pair does not
hold a place inside the first argument.
-/
namespace Cherubsh.Builtins.Getopts
open List Option
open Common (parseU64)
variable {name x base rest : Text} {c : Char}

section
variable {v : Vars} {depth : ℕ} {x : Text}

theorem parseU64_decimal {n : ℕ} (h : n < 2 ^ 64) : parseU64 (decimal n) = some n := by
  have hd : ∀ c ∈ decimal n, c.isDigit := fun c hc =>
    Nat.isDigit_of_mem_toDigits (by decide) (by decide) hc
  have hv : (decimal n).foldl (fun n ch => 10 * n + (ch.toNat - '0'.toNat)) 0 = n := by
    rw [← Nat.ofDigitChars_eq_foldl]
    exact Nat.ofDigitChars_toDigits (by decide) (by decide)
  unfold parseU64
  split
  · rename_i rest heq
    exact absurd (hd '+' (heq ▸ mem_cons_self)) (by decide)
  · have hne : decimal n ≠ [] := Nat.toDigits_ne_nil
    have ha := all_eq_true.mpr hd
    rw [if_neg (by simp [hne,ha]),hv,if_pos h]

@[simp] theorem assign_self (name value : Text) : assign name value v name = some value := Function.update_self ..
@[simp] theorem unset_self (name : Text) : unset name v name = none := Function.update_self ..

theorem assign_of_ne {value : Text} (h : x ≠ name) : assign name value v x = v x := Function.update_of_ne h ..
theorem unset_of_ne (h : x ≠ name) : unset name v x = v x := Function.update_of_ne h ..

structure Free (depth : ℕ) (name : Text) : Prop where
  optind : name ≠ optindVar
  optarg : name ≠ optargVar
  last : name ≠ stateVar lastOptindVar depth
  next : name ≠ stateVar nextCharVar depth

theorem last_ne_next : stateVar lastOptindVar depth ≠ stateVar nextCharVar depth := by
  intro h
  exact absurd (append_cancel_right h) (by decide)

theorem head_stateVar (h : base.head? = some '_') : (stateVar base depth).head? = some '_' := by
  rw [stateVar,List.head?_append,h,some_or]

theorem ne_stateVar (hx : x.head? = some 'O') (hb : base.head? = some '_') :
    x ≠ stateVar base depth := by
  rintro rfl
  rw [head_stateVar hb] at hx
  exact absurd hx (by decide)

theorem optarg_ne_optind : optargVar ≠ optindVar := by decide

section
variable {optind nextChar len : ℕ} (hlast : x ≠ stateVar lastOptindVar depth) (hnext : x ≠ stateVar nextCharVar depth)
include hlast hnext

theorem setInner_of_ne : setInner depth optind nextChar v x = v x := by
  rw [setInner,assign_of_ne hnext,assign_of_ne hlast]

theorem resetInner_of_ne : resetInner depth optind v x = v x := by
  rw [resetInner,assign_of_ne hnext,assign_of_ne hlast]

theorem pastArgument_of_ne (ho : x ≠ optindVar) : pastArgument depth optind v x = v x := by
  rw [pastArgument,resetInner_of_ne hlast hnext,assign_of_ne ho]

theorem pastLetter_of_ne (ho : x ≠ optindVar) : pastLetter depth optind nextChar len v x = v x := by
  unfold pastLetter
  split
  · rw [setInner_of_ne hlast hnext,assign_of_ne ho]
  · exact pastArgument_of_ne hlast hnext ho
end

@[simp] theorem pastArgument_optind (i : ℕ) : pastArgument depth i v optindVar = some (decimal i) := by
  rw [pastArgument,resetInner_of_ne (ne_stateVar rfl rfl) (ne_stateVar rfl rfl),assign_self]

@[simp] theorem pastLetter_optind (i j len : ℕ) : pastLetter depth i j len v optindVar =
    some (decimal (if j + 1 < len then i else i + 1)) := by
  unfold pastLetter
  split
  · rw [setInner_of_ne (ne_stateVar rfl rfl) (ne_stateVar rfl rfl),assign_self]
  · exact pastArgument_optind _
end

section
/-- The next call reads the letter `nextChar` of the argument `optind`. The builtin takes a
stored place 0 for 1. -/
structure At (depth : ℕ) (v : Vars) (optind nextChar : ℕ) : Prop where
  optind : v optindVar = some (decimal optind)
  next : max (readNextChar depth v) 1 = nextChar

variable {v : Vars} {depth i j len : ℕ}

theorem readOptind_eq (h : v optindVar = some (decimal i)) (hi : i < 2 ^ 64) : readOptind v = i := by
  rw [readOptind,h,bind_some,parseU64_decimal hi,getD_some]

theorem at_setInner (hv : v optindVar = some (decimal i)) (hi : i < 2 ^ 64) (hj : 1 ≤ j) (hj₂ : j < 2 ^ 64) :
    At depth (setInner depth i j v) i j := by
  have ho : setInner depth i j v optindVar = some (decimal i) := by
    rw [setInner_of_ne (ne_stateVar rfl rfl) (ne_stateVar rfl rfl),hv]
  refine ⟨ho,?_⟩
  have hlast : setInner depth i j v (stateVar lastOptindVar depth) = some (decimal i) := by
    rw [setInner,assign_of_ne last_ne_next,assign_self]
  have hnext : setInner depth i j v (stateVar nextCharVar depth) = some (decimal j) := assign_self ..
  rw [readNextChar,readOptind_eq ho hi,hlast,hnext,bind_some,bind_some,
    parseU64_decimal hi,parseU64_decimal hj₂,if_pos rfl,getD_some,Nat.max_eq_left hj]

theorem at_resetInner (hv : v optindVar = some (decimal i)) (hi : i < 2 ^ 64) : At depth (resetInner depth i v) i 1 :=
  at_setInner (j := 1) hv hi (by omega) (by omega)

theorem at_pastArgument (hi : i < 2 ^ 64) : At depth (pastArgument depth i v) i 1 :=
  at_resetInner (assign_self ..) hi

theorem at_pastLetter (hi : i + 1 < 2 ^ 64) (hlen : len < 2 ^ 64) : At depth (pastLetter depth i j len v)
    (if j + 1 < len then i else i + 1) (if j + 1 < len then j + 1 else 1) := by
  unfold pastLetter
  split
  · exact at_setInner (assign_self ..) (by omega) (by omega) (by omega)
  · exact at_pastArgument hi
end

section
variable (optstring : Text)

structure Report where
  name : Option Text
  optarg : Option Text
  optind : Option Text
  status : ℕ
  deriving DecidableEq

def Report.of (name : Text) (optarg : Option Text) (optind status : ℕ) : Report :=
  ⟨some name,optarg,some (decimal optind),status⟩

/-- Whether a letter is an option and takes an argument. A colon is never an option. -/
def declaredIn (option : Char) (options : Text) : Option Bool :=
  if option = ':' then none
  else match options.dropWhile (· ≠ option) with
    | [] => none
    | _ :: rest => some (rest.head? = some ':')

def declared (option : Char) : Option Bool := declaredIn option (body optstring)

def unknown (option : Char) (optind : ℕ) : Report :=
  .of ['?'] (if optstring.head? = some ':' then some [option] else none) optind 0

def missing (option : Char) (optind : ℕ) : Report :=
  if optstring.head? = some ':' then .of [':'] (some [option]) optind 0 else .of ['?'] none optind 0

/-- The reports for the letters of one argument, with the sequences behind it. -/
def letters (optstring : Text) (i : ℕ) (next : List Report) (value : Option (Text × List Report)) :
    Text → List Report
  | [] => next
  | c :: cs =>
    let here := if cs = [] then i + 1 else i
    match declared optstring c with
    | none => unknown optstring c here :: letters optstring i next value cs
    | some false => .of [c] none here 0 :: letters optstring i next value cs
    | some true =>
      if cs ≠ [] then .of [c] (some cs) (i + 1) 0 :: next
      else match value with
        | some (val,behind) => .of [c] (some val) (i + 2) 0 :: behind
        | none => missing optstring c (i + 1) :: next

/-- The reports POSIX asks for, from the argument `i` on, up to the end of the options. -/
def posix (optstring : Text) : ℕ → List Text → List Report
  | i, [] => [.of ['?'] none i 1]
  | i, arg :: rest =>
    if arg = ['-','-'] then [.of ['?'] none (i + 1) 1]
    else match arg with
      | '-' :: c :: cs =>
        letters optstring i (posix optstring (i + 1) rest)
          (match rest with
            | [] => none
            | val :: behind => some (val,posix optstring (i + 2) behind)) (c :: cs)
      | _ => [.of ['?'] none i 1]

theorem declaredIn_of_ne {ch : Char} (h : ch ≠ c) :
    declaredIn c (ch :: rest) = declaredIn c rest := by
  rw [declaredIn,dropWhile_cons_of_pos (by simpa using h),declaredIn]

theorem declaredIn_self (h : c ≠ ':') :
    declaredIn c (c :: rest) = some (decide (rest.head? = some ':')) := by
  unfold declaredIn
  rw [if_neg h,dropWhile_cons_of_neg (by simp)]

theorem declaredIn_colon (options : Text) : declaredIn ':' options = none := if_pos rfl

theorem optionSpecFrom_eq (c : Char) (options : Text) : optionSpecFrom c options = declaredIn c options := by
  fun_induction optionSpecFrom c options with
  | case1 => simp [declaredIn]
  | case2 rest ih =>
    by_cases hc : c = ':'
    · rw [ih,hc,declaredIn_colon,declaredIn_colon]
    · rw [ih,declaredIn_of_ne (Ne.symm hc)]
  | case3 rest hc => rw [declaredIn_self hc]; simp
  | case4 ch rest hch hne ih =>
    by_cases hc : c = ':'
    · rw [ih,hc,declaredIn_colon,declaredIn_colon]
    · rw [ih,declaredIn_of_ne hne,declaredIn_of_ne (Ne.symm hc)]
  | case5 rest hnext hc =>
    rw [declaredIn_self hc]
    cases rest with
    | nil => rfl
    | cons d rest => simpa using hnext rest
  | case6 ch rest hnext hch hne ih => rw [ih,declaredIn_of_ne hne]

theorem optionSpec_eq (c : Char) : optionSpec optstring c = declared optstring c :=
  optionSpecFrom_eq c _
end

section
def Fits (args : List Text) : Prop := args.length < 2 ^ 63 ∧ ∀ arg ∈ args, arg.length < 2 ^ 63

/-- The calls of a scan at one function depth: the same name and the same arguments every
time. -/
structure Scan (depth : ℕ) where
  positionals : List Text
  shellName : Text
  location : Option (Text × ℕ)
  name : Text
  given : List Text
  name_valid : Printf.isValidName name
  name_free : Free depth name
  positionals_fit : Fits positionals
  given_fit : Fits given

namespace Scan
variable {depth : ℕ} (s : Scan depth)

def ctx : Context := ⟨depth,s.positionals,s.shellName,s.location⟩

@[simp] theorem ctx_depth : s.ctx.depth = depth := rfl

def source : List Text := if s.given ≠ [] then s.given else s.positionals

theorem source_fits : Fits s.source := by
  unfold source
  split
  · exact s.given_fit
  · exact s.positionals_fit

def call (optstring : Text) (v : Vars) : Outcome := run s.ctx v (optstring :: s.name :: s.given)

def seen (out : Outcome) : Report := ⟨out.vars s.name,out.vars optargVar,out.vars optindVar,out.status⟩

def reports (optstring : Text) : ℕ → Vars → List Report
  | 0, _ => []
  | k + 1, v => s.seen (s.call optstring v) :: reports optstring k (s.call optstring v).vars

variable {optstring : Text} {v w : Vars} {i j k len status : ℕ} {arg : Text} {c : Char} {ds : List Text}

theorem call_eq (hopt : optstring.head? ≠ some '-') : s.call optstring v =
    walk s.ctx optstring s.name s.source (readOptind v) (readNextChar depth v) v := by
  unfold call
  rw [run]
  · rw [if_neg (not_not_intro s.name_valid)]
    rfl
  · rintro option rfl
    exact hopt rfl

theorem walk_max : walk s.ctx optstring s.name s.source i (max j 1) v = walk s.ctx optstring s.name s.source i j v := by
  have hj : (if max j 1 = 0 then 1 else max j 1) = if j = 0 then 1 else j := by split_ifs <;> omega
  unfold walk
  rw [hj]

theorem seen_pastArgument : s.seen ⟨status,pastArgument depth i w,ds⟩ =
    ⟨w s.name,w optargVar,some (decimal i),status⟩ := by
  unfold seen
  dsimp only
  rw [pastArgument_of_ne s.name_free.last s.name_free.next s.name_free.optind,
    pastArgument_of_ne (ne_stateVar rfl rfl) (ne_stateVar rfl rfl) optarg_ne_optind,pastArgument_optind]

theorem seen_pastLetter : s.seen ⟨status,pastLetter depth i j len w,ds⟩ =
    ⟨w s.name,w optargVar,some (decimal (if j + 1 < len then i else i + 1)),status⟩ := by
  unfold seen
  dsimp only
  rw [pastLetter_of_ne s.name_free.last s.name_free.next s.name_free.optind,
    pastLetter_of_ne (ne_stateVar rfl rfl) (ne_stateVar rfl rfl) optarg_ne_optind,pastLetter_optind]

structure Leads (out : Outcome) (r : Report) (optind nextChar : ℕ) : Prop where
  seen : s.seen out = r
  place : At depth out.vars optind nextChar

/-- Every scan from the given place starts with these reports. -/
def Starts (optstring : Text) (optind nextChar : ℕ) (rs : List Report) : Prop :=
  ∀ v, At depth v optind nextChar → s.reports optstring rs.length v = rs

variable {s} in
theorem Starts.cons {r : Report} {rs : List Report} {i' j' : ℕ}
    (hca : ∀ v, At depth v i j → s.Leads (s.call optstring v) r i' j')
    (hre : s.Starts optstring i' j' rs) : s.Starts optstring i j (r :: rs) := by
  intro v hv
  have hr := hca v hv
  rw [length_cons,reports,hr.seen,hre _ hr.place]

variable {s} in
theorem Starts.last {r : Report} {i' j' : ℕ} (hca : ∀ v, At depth v i j → s.Leads (s.call optstring v) r i' j') :
    s.Starts optstring i j [r] := .cons hca fun _ _ => rfl

theorem leads_pastArgument (status : ℕ) (w : Vars) (ds : List Text) (hi : i < 2 ^ 64) :
    s.Leads ⟨status,pastArgument depth i w,ds⟩ ⟨w s.name,w optargVar,some (decimal i),status⟩ i 1 :=
  ⟨s.seen_pastArgument,at_pastArgument hi⟩

theorem leads_pastLetter (status j : ℕ) (w : Vars) (ds : List Text) (hi : i + 1 < 2 ^ 64) (hlen : len < 2 ^ 64) :
    s.Leads ⟨status,pastLetter depth i j len w,ds⟩
      ⟨w s.name,w optargVar,some (decimal (if j + 1 < len then i else i + 1)),status⟩
      (if j + 1 < len then i else i + 1) (if j + 1 < len then j + 1 else 1) :=
  ⟨s.seen_pastLetter,at_pastLetter hi hlen⟩

section
variable (hi : i + 1 < 2 ^ 64) (hlen : arg.length < 2 ^ 64) (hc : arg[j]? = some c)
include hi hlen hc

theorem leads_unknown (hd : declared optstring c = none) :
    s.Leads (walkLetter s.ctx optstring s.name s.source i j arg v)
      (unknown optstring c (if j + 1 < arg.length then i else i + 1))
      (if j + 1 < arg.length then i else i + 1) (if j + 1 < arg.length then j + 1 else 1) := by
  have hp : optionPresent optstring c = false := by rw [optionPresent,optionSpec_eq,hd]; rfl
  unfold walkLetter unknown Report.of
  simp only [hc,getD_some,hp,Bool.false_eq_true,if_false]
  by_cases hs : optstring.head? = some ':'
  · rw [if_pos hs,if_pos hs]
    have h := s.leads_pastLetter 0 j (assign s.name ['?'] (assign optargVar [c] v)) [] hi hlen
    rwa [assign_self,assign_of_ne s.name_free.optarg.symm,assign_self] at h
  · rw [if_neg hs,if_neg hs]
    have h := s.leads_pastLetter 0 j (unset optargVar (assign s.name ['?'] v))
      (complaint s.ctx "illegal option" c v) hi hlen
    rwa [unset_of_ne s.name_free.optarg,assign_self,unset_self] at h

theorem leads_plain (hd : declared optstring c = some false) :
    s.Leads (walkLetter s.ctx optstring s.name s.source i j arg v)
      (.of [c] none (if j + 1 < arg.length then i else i + 1) 0)
      (if j + 1 < arg.length then i else i + 1) (if j + 1 < arg.length then j + 1 else 1) := by
  have hp : optionPresent optstring c := by rw [optionPresent,optionSpec_eq,hd]; rfl
  have hpl : optionRequiresArg optstring c = false := by rw [optionRequiresArg,optionSpec_eq,hd]; rfl
  unfold walkLetter
  simp only [hc,getD_some,hp,hpl,Bool.false_eq_true,if_true,if_false]
  have h := s.leads_pastLetter 0 j (assign s.name [c] (unset optargVar v)) [] hi hlen
  rwa [assign_self,assign_of_ne s.name_free.optarg.symm,unset_self] at h

omit hlen in
theorem leads_taking (hd : declared optstring c = some true) (hnext : i + 2 < 2 ^ 64) :
    s.Leads (walkLetter s.ctx optstring s.name s.source i j arg v)
      (if arg.drop (j + 1) ≠ [] then .of [c] (some (arg.drop (j + 1))) (i + 1) 0
        else match s.source[i]? with
          | some val => .of [c] (some val) (i + 2) 0
          | none => missing optstring c (i + 1))
      (if arg.drop (j + 1) = [] ∧ s.source[i]? ≠ none then i + 2 else i + 1) 1 := by
  have hp : optionPresent optstring c := by rw [optionPresent,optionSpec_eq,hd]; rfl
  have ht : optionRequiresArg optstring c := by rw [optionRequiresArg,optionSpec_eq,hd]; rfl
  have hg : ∀ (letter value : Text) {k : ℕ}, k < 2 ^ 64 → s.Leads
      ⟨0,pastArgument depth k (assign s.name letter (assign optargVar value v)),[]⟩
      (.of letter (some value) k 0) k 1 := by
    intro letter value k hk
    have h := s.leads_pastArgument 0 (assign s.name letter (assign optargVar value v)) [] hk
    rwa [assign_self,assign_of_ne s.name_free.optarg.symm,assign_self] at h
  unfold walkLetter
  simp only [hc,getD_some,hp,ht,if_true]
  by_cases hr : arg.drop (j + 1) = []
  · cases hv : s.source[i]? with
    | some val =>
      simpa [hr] using hg [c] val hnext
    | none =>
      unfold missing
      by_cases hs : optstring.head? = some ':'
      · simpa [hr,hs] using hg [':'] [c] hi
      · have h := s.leads_pastArgument 0 (unset optargVar (assign s.name ['?'] v))
          (complaint s.ctx "option requires an argument" c v) hi
        rw [unset_of_ne s.name_free.optarg,assign_self,unset_self] at h
        simpa [hr,hs,Report.of] using h
  · simpa [hr] using hg [c] (arg.drop (j + 1)) hi
end

section
variable {m : ℕ} {rest : List Text}

theorem getElem?_of_drop (h : s.source.drop m = arg :: rest) :
    s.source[m]? = some arg ∧ s.source.drop (m + 1) = rest ∧ m < s.source.length := by
  have hm : s.source[m]? = some arg := by rw [← List.head?_drop,h,List.head?_cons]
  refine ⟨hm,?_,(List.getElem?_eq_some_iff.mp hm).1⟩
  rw [← drop_drop,h,drop_one,tail_cons]

theorem length_lt (h : s.source[m]? = some arg) : arg.length < 2 ^ 64 := by
  have := s.source_fits.2 arg (mem_of_getElem? h)
  omega

def Lettered (arg : Text) : Prop := arg.head? = some '-' ∧ 2 ≤ arg.length ∧ arg ≠ ['-','-']

theorem Lettered.exists_cons (h : Lettered arg) : ∃ c cs, arg = '-' :: c :: cs := by
  obtain ⟨hd,hlen,-⟩ := h
  cases arg with
  | nil => cases hd
  | cons d ds =>
    cases hd
    cases ds with
    | nil => simp at hlen
    | cons c cs => exact ⟨c,cs,rfl⟩

theorem leads_ended (hk : k < 2 ^ 64) :
    s.Leads ⟨1,pastArgument depth k (ended s.name v),[]⟩ (.of ['?'] none k 1) k 1 := by
  have h := s.leads_pastArgument 1 (ended s.name v) [] hk
  rwa [ended,unset_of_ne s.name_free.optarg,assign_self,unset_self] at h

variable (hopt : optstring.head? ≠ some '-') (hat : At depth v (m + 1) j) (hm : m + 1 < 2 ^ 64)
include hopt hat hm

theorem call_at : s.call optstring v = walk s.ctx optstring s.name s.source (m + 1) j v := by
  rw [s.call_eq hopt,readOptind_eq hat.optind hm,← hat.next,walk_max]

theorem call_letter (hj : 1 ≤ j) (ha : s.source[m]? = some arg) (hf : Lettered arg) (hlt : j < arg.length) :
    s.call optstring v = walkLetter s.ctx optstring s.name s.source (m + 1) j arg v := by
  obtain ⟨hd,hlen,hne⟩ := hf
  have ho : arg ≠ ['-'] := by rintro rfl; simp at hlen
  have hl : ¬(arg.head? ≠ some '-' ∨ arg.length < 2 ∨ arg = ['-']) := by
    rintro (h | h | h)
    · exact h hd
    · omega
    · exact ho h
  rw [s.call_at hopt hat hm,walk]
  simp only [Nat.succ_ne_zero,if_false,Nat.add_sub_cancel,ha,show j ≠ 0 by omega]
  rw [if_neg hne,if_neg hl,if_neg (by omega)]

theorem leads_end (ha : s.source[m]? = none) (hle : m ≤ s.source.length) :
    s.Leads (s.call optstring v) (.of ['?'] none (m + 1) 1) (m + 1) 1 := by
  have hge : s.source.length ≤ m := List.getElem?_eq_none_iff.mp ha
  rw [s.call_at hopt hat hm,walk]
  simp only [Nat.succ_ne_zero,if_false,Nat.add_sub_cancel,ha]
  rw [Nat.le_antisymm hge hle]
  exact s.leads_ended hm

theorem leads_dashes (ha : s.source[m]? = some ['-','-']) (hm₂ : m + 2 < 2 ^ 64) :
    s.Leads (s.call optstring v) (.of ['?'] none (m + 2) 1) (m + 2) 1 := by
  rw [s.call_at hopt hat hm,walk]
  simp only [Nat.succ_ne_zero,if_false,Nat.add_sub_cancel,ha,if_true]
  exact s.leads_ended hm₂

theorem leads_operand (ha : s.source[m]? = some arg) (hne : arg ≠ ['-','-']) (hf : ¬Lettered arg) :
    s.Leads (s.call optstring v) (.of ['?'] none (m + 1) 1) (m + 1) 1 := by
  have ho : arg.head? ≠ some '-' ∨ arg.length < 2 ∨ arg = ['-'] := by
    by_contra hco
    push Not at hco
    exact hf ⟨hco.1,hco.2.1,hne⟩
  have hop : ended s.name v optindVar = some (decimal (m + 1)) := by
    rw [ended,unset_of_ne optarg_ne_optind.symm,assign_of_ne s.name_free.optind.symm,hat.optind]
  have hp : At depth (resetInner depth (m + 1) (ended s.name v)) (m + 1) 1 := at_resetInner hop hm
  rw [s.call_at hopt hat hm,walk]
  simp only [Nat.succ_ne_zero,if_false,Nat.add_sub_cancel,ha]
  rw [if_neg hne,if_pos ho]
  refine ⟨?_,hp⟩
  unfold seen
  dsimp only [ctx_depth]
  rw [resetInner_of_ne s.name_free.last s.name_free.next,
    resetInner_of_ne (x := optargVar) (ne_stateVar rfl rfl) (ne_stateVar rfl rfl),hp.optind,
    ended,unset_of_ne s.name_free.optarg,assign_self,unset_self]
  rfl
end

section
variable {m : ℕ} {rest : List Text} (hopt : optstring.head? ≠ some '-')
include hopt

theorem starts_letters {next : List Report} {value : Option (Text × List Report)} (hdr : s.source.drop m = arg :: rest)
    (hf : Lettered arg) (hnext : s.Starts optstring (m + 2) 1 next) (hva : value.map Prod.fst = rest.head?)
    (hb : ∀ val behind, value = some (val,behind) → s.Starts optstring (m + 3) 1 behind) (cs : Text) :
    ∀ j, 1 ≤ j → arg.drop j = cs →
      s.Starts optstring (if cs = [] then m + 2 else m + 1) (if cs = [] then 1 else j)
        (letters optstring (m + 1) next value cs) := by
  obtain ⟨ha,hr,hlt⟩ := s.getElem?_of_drop hdr
  have hs := s.source_fits.1
  have hlen := s.length_lt ha
  induction cs with
  | nil => exact fun j _ _ => hnext
  | cons c cs ih =>
    intro j hj hcs
    have hc : arg[j]? = some c := by rw [← List.head?_drop,hcs,List.head?_cons]
    have hjl : j < arg.length := (List.getElem?_eq_some_iff.mp hc).1
    have hcs' : arg.drop (j + 1) = cs := by rw [← drop_drop,hcs,drop_one,tail_cons]
    have hmo : j + 1 < arg.length ↔ cs ≠ [] := by
      rw [← hcs',Ne,drop_eq_nil_iff]
      omega
    have ho : (if j + 1 < arg.length then m + 1 else m + 1 + 1) = if cs = [] then m + 2 else m + 1 := by
      by_cases hn : cs = [] <;> simp [hmo,hn]
    have hp : (if j + 1 < arg.length then j + 1 else 1) = if cs = [] then 1 else j + 1 := by
      by_cases hn : cs = [] <;> simp [hmo,hn]
    have hca : ∀ v, At depth v (m + 1) j →
        s.call optstring v = walkLetter s.ctx optstring s.name s.source (m + 1) j arg v :=
      fun v hv => s.call_letter hopt hv (by omega) hj ha hf hjl
    rw [if_neg (cons_ne_nil _ _),if_neg (cons_ne_nil _ _)]
    unfold letters
    cases hd : declared optstring c with
    | none =>
      refine .cons (fun v hv => ?_) (ih (j + 1) (by omega) hcs')
      have h := s.leads_unknown (v := v) (show m + 1 + 1 < 2 ^ 64 by omega) hlen hc hd
      rwa [ho,hp,← hca v hv] at h
    | some takes =>
      cases takes with
      | false =>
        refine .cons (fun v hv => ?_) (ih (j + 1) (by omega) hcs')
        have h := s.leads_plain (v := v) (show m + 1 + 1 < 2 ^ 64 by omega) hlen hc hd
        rwa [ho,hp,← hca v hv] at h
      | true =>
        have h : ∀ v, At depth v (m + 1) j → s.Leads (s.call optstring v) _ _ 1 := fun v hv =>
          hca v hv ▸ s.leads_taking (v := v) (show m + 1 + 1 < 2 ^ 64 by omega) hc hd (by omega)
        have hh : s.source[m + 1]? = rest.head? := by rw [← List.head?_drop,hr]
        rw [hcs',hh,← hva] at h
        by_cases hn : cs = []
        · subst hn
          cases value with
          | none => exact .cons (by simpa using h) hnext
          | some pair =>
            obtain ⟨val,behind⟩ := pair
            exact .cons (by simpa using h) (hb val behind rfl)
        · rw [if_pos hn]
          exact .cons (by simpa [hn] using h) hnext

theorem starts_posix (args : List Text) (m : ℕ) (hle : m ≤ s.source.length) (hd : s.source.drop m = args) :
    s.Starts optstring (m + 1) 1 (posix optstring (m + 1) args) := by
  have hso := s.source_fits.1
  induction hn : args.length using Nat.strongRecOn generalizing args m with
  | ind n ih =>
    cases args with
    | nil =>
      have hno : s.source[m]? = none := by rw [← List.head?_drop,hd,List.head?_nil]
      exact .last fun v hv => s.leads_end hopt hv (by omega) hno hle
    | cons arg rest =>
      obtain ⟨ha,hr,hlt⟩ := s.getElem?_of_drop hd
      unfold posix
      split
      · rename_i hda
        subst hda
        exact .last fun v hv => s.leads_dashes hopt hv (by omega) ha (by omega)
      · rename_i hne
        split
        · rename_i c cs
          have hf : Lettered ('-' :: c :: cs) := ⟨rfl,by simp,hne⟩
          have hnext := ih rest.length (by rw [← hn]; simp) rest (m + 1) (by omega) hr rfl
          have hl : ∀ value, value.map Prod.fst = rest.head? →
              (∀ val behind, value = some (val,behind) → s.Starts optstring (m + 3) 1 behind) →
              s.Starts optstring (m + 1) 1 (letters optstring (m + 1) (posix optstring (m + 1 + 1) rest) value (c :: cs)) :=
            fun value hva hb =>
              s.starts_letters hopt hd hf hnext hva hb (c :: cs) 1 (by omega) rfl
          cases rest with
          | nil => exact hl none rfl fun _ _ h => by cases h
          | cons val behind =>
            refine hl _ rfl fun val' behind' h => ?_
            cases h
            obtain ⟨-,hb,hlt'⟩ := s.getElem?_of_drop hr
            exact ih behind.length (by rw [← hn,length_cons,length_cons]; omega) behind (m + 2) (by omega) hb rfl
        · rename_i hs
          have hf : ¬Lettered arg := by
            intro hf
            obtain ⟨c,cs,rfl⟩ := hf.exists_cons
            exact hs c cs rfl
          exact .last fun v hv => s.leads_operand hopt hv (by omega) ha hne hf
end

section
variable {m : ℕ}

/-- A place a scan can be at: inside the argument if the argument has letters. -/
structure Sound (m j : ℕ) : Prop where
  le : m ≤ s.source.length
  pos : 1 ≤ j
  inside : ∀ arg, s.source[m]? = some arg → Lettered arg → j < arg.length

variable {s} in
theorem sound_one (hm : m ≤ s.source.length) : s.Sound m 1 :=
  ⟨hm,Nat.le_refl 1,fun _ _ h => h.2.1⟩

theorem leads_of_place (hopt : optstring.head? ≠ some '-') (h : s.Sound m j) :
    ∃ r m' j', s.Sound m' j' ∧ ∀ v, At depth v (m + 1) j → s.Leads (s.call optstring v) r (m' + 1) j' := by
  have hs := s.source_fits.1
  have hm := h.le
  have hm₁ : m + 1 < 2 ^ 64 := by omega
  cases ha : s.source[m]? with
  | none => exact ⟨_,m,1,sound_one hm,fun v hv => s.leads_end hopt hv hm₁ ha hm⟩
  | some arg =>
    have hlt := (List.getElem?_eq_some_iff.mp ha).1
    by_cases hda : arg = ['-','-']
    · subst hda
      exact ⟨_,m + 1,1,sound_one hlt,fun v hv => s.leads_dashes hopt hv hm₁ ha (by omega)⟩
    · by_cases hf : Lettered arg
      · have hj := h.inside arg ha hf
        have hc : arg[j]? = some arg[j] := List.getElem?_eq_getElem hj
        have hlen := s.length_lt ha
        have hca : ∀ v, At depth v (m + 1) j → s.call optstring v =
            walkLetter s.ctx optstring s.name s.source (m + 1) j arg v :=
          fun v hv => s.call_letter hopt hv hm₁ h.pos ha hf hj
        -- behind a letter that takes nothing, the place is the next letter or the next argument
        have hle : ∀ r, (∀ v, At depth v (m + 1) j → s.Leads (s.call optstring v) r
              (if j + 1 < arg.length then m + 1 else m + 1 + 1) (if j + 1 < arg.length then j + 1 else 1)) →
            ∃ r m' j', s.Sound m' j' ∧ ∀ v, At depth v (m + 1) j → s.Leads (s.call optstring v) r (m' + 1) j' := by
          intro r hl
          by_cases hmo : j + 1 < arg.length
          · rw [if_pos hmo,if_pos hmo] at hl
            refine ⟨r,m,j + 1,⟨hm,by omega,fun arg' ha' _ => ?_⟩,hl⟩
            cases ha.symm.trans ha'
            exact hmo
          · rw [if_neg hmo,if_neg hmo] at hl
            exact ⟨r,m + 1,1,sound_one hlt,hl⟩
        cases hd : declared optstring arg[j] with
        | none => exact hle _ fun v hv => hca v hv ▸ s.leads_unknown (by omega) hlen hc hd
        | some takes =>
          cases takes with
          | false => exact hle _ fun v hv => hca v hv ▸ s.leads_plain (by omega) hlen hc hd
          | true =>
            have hl := fun v (hv : At depth v (m + 1) j) =>
              hca v hv ▸ s.leads_taking (v := v) (show m + 1 + 1 < 2 ^ 64 by omega) hc hd (by omega)
            by_cases ht : arg.drop (j + 1) = [] ∧ s.source[m + 1]? ≠ none
            · have hlt' : m + 1 < s.source.length := by
                by_contra hge
                exact ht.2 (List.getElem?_eq_none_iff.mpr (by omega))
              rw [if_pos ht] at hl
              exact ⟨_,m + 2,1,sound_one hlt',hl⟩
            · rw [if_neg ht] at hl
              exact ⟨_,m + 1,1,sound_one hlt,hl⟩
      · exact ⟨_,m,1,sound_one hm,fun v hv => s.leads_operand hopt hv hm₁ ha hda hf⟩

theorem reports_eq_of_place (hopt : optstring.head? ≠ some '-') (k : ℕ) {v v' : Vars} (h : s.Sound m j)
    (hv : At depth v (m + 1) j) (hv' : At depth v' (m + 1) j) : s.reports optstring k v = s.reports optstring k v' := by
  induction k generalizing m j v v' with
  | zero => rfl
  | succ k ih =>
    obtain ⟨r,m',j',hs,hl⟩ := s.leads_of_place hopt h
    have hr := hl v hv
    have hr' := hl v' hv'
    rw [reports,reports,hr.seen,hr'.seen,ih hs hr.place hr'.place]
end
end Scan
end

section
def fresh (depth : ℕ) (v : Vars) : Vars :=
  assign optindVar ['1'] (unset (stateVar lastOptindVar depth) (unset (stateVar nextCharVar depth) v))

def restart (v : Vars) : Vars := assign optindVar ['1'] v

/-- Every scan after OPTIND=1 reports what a fresh scan does, the sequence of POSIX. -/
def RestartsCleanly (depth : ℕ) (v : Vars) (optstring : Text) : Prop :=
  ∀ s : Scan depth, (∀ k, s.reports optstring k (restart v) = s.reports optstring k (fresh depth v)) ∧
    s.reports optstring (posix optstring 1 s.source).length (fresh depth v) = posix optstring 1 s.source

/-- The hidden pair holds a place behind the first letter of the first argument. -/
def InsideFirst (depth : ℕ) (v : Vars) : Prop :=
  (v (stateVar lastOptindVar depth)).bind parseU64 = some 1 ∧
    ∃ k, 2 ≤ k ∧ (v (stateVar nextCharVar depth)).bind parseU64 = some k

variable {depth : ℕ} {v : Vars} {optstring : Text}

theorem at_fresh : At depth (fresh depth v) 1 1 := by
  refine ⟨assign_self ..,?_⟩
  have hlast : fresh depth v (stateVar lastOptindVar depth) = none := by
    rw [fresh,assign_of_ne (ne_stateVar rfl rfl).symm,unset_self]
  rw [readNextChar,hlast]
  rfl

theorem readNextChar_restart : readNextChar depth (restart v) =
    if (v (stateVar lastOptindVar depth)).bind parseU64 = some 1 then
      ((v (stateVar nextCharVar depth)).bind parseU64).getD 1 else 1 := by
  have hr : readOptind (restart v) = 1 := readOptind_eq (i := 1) (assign_self ..) (by omega)
  rw [readNextChar,hr,restart,assign_of_ne (ne_stateVar rfl rfl).symm,assign_of_ne (ne_stateVar rfl rfl).symm]

theorem at_restart (h : ¬InsideFirst depth v) : At depth (restart v) 1 1 := by
  refine ⟨assign_self ..,?_⟩
  rw [readNextChar_restart]
  split
  · rename_i hlast
    cases hnext : (v (stateVar nextCharVar depth)).bind parseU64 with
    | none => rfl
    | some k =>
      have hk : ¬2 ≤ k := fun hk => h ⟨hlast,k,hk,hnext⟩
      rw [getD_some]
      omega
  · rfl

theorem restartsCleanly_of (hopt : optstring.head? ≠ some '-') (h : ¬InsideFirst depth v) :
    RestartsCleanly depth v optstring := fun s =>
  ⟨fun k => s.reports_eq_of_place hopt k (Scan.sound_one (Nat.zero_le _)) (at_restart h) at_fresh,
    s.starts_posix hopt s.source 0 (Nat.zero_le _) rfl _ at_fresh⟩

def scanOf (depth : ℕ) (given : List Text) (h : Fits given) : Scan depth where
  positionals := []
  shellName := "cherubsh"
  location := none
  name := ['x']
  given := given
  name_valid := rfl
  name_free := by
    have hstate : ∀ base : Text, base.head? = some '_' → ['x'] ≠ stateVar base depth := by
      intro base hbase heq
      have hhead : (stateVar base depth).head? = some '_' := head_stateVar hbase
      rw [← heq] at hhead
      exact absurd hhead (by decide)
    exact ⟨by decide,by decide,hstate _ rfl,hstate _ rfl⟩
  positionals_fit := ⟨by decide,by simp⟩
  given_fit := h

theorem not_dash_of_restartsCleanly (h : RestartsCleanly depth v optstring) : optstring.head? ≠ some '-' := by
  intro hd
  cases optstring with
  | nil => cases hd
  | cons c rest =>
    cases hd
    have hp := (h (scanOf depth [] ⟨by decide,by simp⟩)).2
    have hs : [2] = [1] := congrArg (fun rs => rs.map Report.status) hp
    exact absurd hs (by decide)

theorem not_insideFirst_of_restartsCleanly (hopt : optstring.head? ≠ some '-')
    (h : RestartsCleanly depth v optstring) : ¬InsideFirst depth v := by
  rintro ⟨hlast,k,hk,hnext⟩
  have hfi : Fits [['-',':',':']] := ⟨by decide,by simp⟩
  let s := scanOf depth [['-',':',':']] hfi
  have hf : Scan.Lettered ['-',':',':'] := ⟨rfl,by decide,by decide⟩
  have hco : declared optstring ':' = none := declaredIn_colon _
  have hat : At depth (restart v) 1 k := by
    refine ⟨assign_self ..,?_⟩
    rw [readNextChar_restart,if_pos hlast,hnext,getD_some]
    omega
  have hfr : s.seen (s.call optstring (fresh depth v)) = unknown optstring ':' 1 := by
    rw [s.call_letter hopt (m := 0) at_fresh (by omega) (by omega) rfl hf (by decide)]
    exact (s.leads_unknown (i := 1) (j := 1) (by omega) (by decide) rfl hco).seen
  have hs : s.seen (s.call optstring (restart v)) = unknown optstring ':' 1 := by
    rw [← hfr]
    exact head_eq_of_cons_eq ((h s).1 1)
  by_cases ht : k = 2
  · subst ht
    have hse : s.seen (s.call optstring (restart v)) = unknown optstring ':' 2 := by
      rw [s.call_letter hopt (m := 0) hat (by omega) (by omega) rfl hf (by decide)]
      exact (s.leads_unknown (i := 1) (j := 2) (by omega) (by decide) rfl hco).seen
    have ho : some (decimal 1) = some (decimal 2) := congrArg Report.optind (hs.symm.trans hse)
    exact absurd ho (by decide)
  · have hst : (s.call optstring (restart v)).status = 1 := by
      rw [s.call_at hopt (m := 0) hat (by omega),walk]
      simp only [show ¬k = 0 by omega]
      change (if 3 ≤ k then _ else _ : Outcome).status = 1
      rw [if_pos (by omega)]
      rfl
    have hz : (s.call optstring (restart v)).status = 0 := congrArg Report.status hs
    exact absurd (hst.symm.trans hz) (by decide)

theorem restarts_cleanly_iff (depth : ℕ) (v : Vars) (optstring : Text) :
    RestartsCleanly depth v optstring ↔ optstring.head? ≠ some '-' ∧ ¬InsideFirst depth v := by
  constructor
  · intro h
    have hopt := not_dash_of_restartsCleanly h
    exact ⟨hopt,not_insideFirst_of_restartsCleanly hopt h⟩
  · rintro ⟨hopt,hinside⟩
    exact restartsCleanly_of hopt hinside

/-- `getopts ab x -ab`, then OPTIND=1: the next call reports `b`. -/
theorem restart_in_cluster_goes_on :
    let s := scanOf 0 ["-ab"] ⟨by decide,by decide⟩
    ¬RestartsCleanly 0 (s.call "ab" (restart fun _ => none)).vars "ab" := by
  intro s h
  have hsame := congrArg (fun rs => rs.map Report.name) ((h s).1 1)
  exact absurd hsame (by decide)
end
end Cherubsh.Builtins.Getopts
