import Mathlib.Data.List.Infix
import Mathlib.Data.List.TakeWhile
import Cherubsh.Expander.Arith.Parses

/-! # Reading back what is written

Tokens written with a blank between any two are read back by the lexer one after the
other. A number is written in decimal; a name must be one that the lexer takes whole
when a blank comes after it, with or without a subscript.
-/
namespace Cherubsh.Expander.Arith
open Lexer Expr List
variable {after rest s src text : Text} {n depth start : ℕ} {c : Char} {t : Tok} {toks ts : List Tok} {lex : Lexer} {e : Expr}
variable {Env LVal E : Type}

def Breaks (after : Text) : Prop := after = [] ∨ ∃ rest, after = ' ' :: rest

theorem takeWhile_breaks {p : Char → Bool} (hp : p ' ' = false) (xs : Text) (h : Breaks after) :
    (xs ++ after).takeWhile p = xs.takeWhile p := by
  induction xs with
  | nil =>
    rcases h with rfl | ⟨rest,rfl⟩
    · rfl
    · exact takeWhile_cons_of_neg (by simp [hp])
  | cons c xs ih =>
    rw [cons_append,takeWhile_cons,takeWhile_cons,ih]

theorem isDigit_of_mem_toDigits (h : c ∈ Nat.toDigits 10 n) : c.isDigit :=
  Nat.isDigit_of_mem_toDigits (by decide) (by decide) h

theorem toDigits_head (hn : 0 < n) : ∃ c rest, Nat.toDigits 10 n = c :: rest ∧ c ≠ '0' := by
  induction n using Nat.strongRecOn with
  | ind n ih =>
    by_cases hlt : n < 10
    · refine ⟨Nat.digitChar n,[],Nat.toDigits_of_lt_base hlt,?_⟩
      intro hz
      have hv := congrArg Char.toNat hz
      rw [Nat.toNat_digitChar_of_lt_ten hlt] at hv
      change 48 + n = 48 at hv
      omega
    · obtain ⟨c,rest,hr,hc⟩ := ih (n / 10) (by omega) (by omega)
      refine ⟨c,rest ++ [Nat.digitChar (n % 10)],?_,hc⟩
      rw [Nat.toDigits_of_base_le (by decide) (by omega),hr,cons_append]

theorem toDigits_no_leading_zero (h : Nat.toDigits 10 n = '0' :: c :: rest) : False := by
  rcases Nat.eq_zero_or_pos n with rfl | hn
  · cases h
  · obtain ⟨d,rest',hdi,hd⟩ := toDigits_head hn
    rw [hdi] at h
    exact hd (List.cons.inj h).1

theorem charToDigit_digitChar {d : ℕ} (hd : d < 10) : charToDigit 10 (Nat.digitChar d) = some d := by
  have hc : d = 0 ∨ d = 1 ∨ d = 2 ∨ d = 3 ∨ d = 4 ∨ d = 5 ∨ d = 6 ∨ d = 7 ∨ d = 8 ∨ d = 9 := by omega
  rcases hc with rfl | rfl | rfl | rfl | rfl | rfl | rfl | rfl | rfl | rfl <;> rfl

theorem foldWrapping_toDigits (raw more : Text) (n : ℕ) :
    (foldWrapping 10 raw (Nat.toDigits 10 n ++ more) 0 : Except (ArithError E) I64) =
      foldWrapping 10 raw more (BitVec.ofNat 64 n) := by
  induction n using Nat.strongRecOn generalizing more with
  | ind n ih =>
    by_cases hlt : n < 10
    · rw [Nat.toDigits_of_lt_base hlt,singleton_append,foldWrapping,charToDigit_digitChar hlt]
      simp
    · have hd : n % 10 < 10 := by omega
      rw [Nat.toDigits_of_base_le (by decide) (by omega),append_assoc,ih (n / 10) (by omega),
        singleton_append,foldWrapping,charToDigit_digitChar hd]
      have hv : BitVec.ofNat 64 (n / 10) * BitVec.ofNat 64 10 + BitVec.ofNat 64 (n % 10) = BitVec.ofNat 64 n := by
        rw [← BitVec.ofNat_mul,← BitVec.ofNat_add]
        congr 1
        omega
      exact congrArg _ hv

theorem parseNumber_toDigits (n : I64) : (parseNumber (Nat.toDigits 10 n.toNat) : Except (ArithError E) I64) = .ok n := by
  have hh : '#' ∉ Nat.toDigits 10 n.toNat := fun h => absurd (isDigit_of_mem_toDigits h) (by decide)
  have hr : (parseRadixWrapping (Nat.toDigits 10 n.toNat) 10 (Nat.toDigits 10 n.toNat) : Except (ArithError E) I64) = .ok n := by
    have hf := foldWrapping_toDigits (E := E) (Nat.toDigits 10 n.toNat) [] n.toNat
    rw [append_nil] at hf
    rw [parseRadixWrapping,if_neg (by simp),hf,foldWrapping,BitVec.ofNat_toNat,BitVec.setWidth_eq]
  rw [parseNumber,if_neg hh,hr]
  · exact fun rest h => toDigits_no_leading_zero h
  · exact fun rest h => toDigits_no_leading_zero h
  · exact fun c rest h => toDigits_no_leading_zero h

section
variable {after : Text}

theorem subscriptLength_cons (hc : c ≠ '\\') (rest : Text) :
    subscriptLength (depth + 1) (c :: rest) =
      1 + subscriptLength (if depth = 0 ∧ (c = '[' ∨ c = ']') ∧ rest.head? = some ']' then 1
        else if c = '[' then depth + 2 else if c = ']' then depth else depth + 1) rest := by
  rw [subscriptLength]
  · split
    · rfl
    · split
      · rfl
      · split <;> rfl
  · intro a rest' hch
    exact absurd hch hc

theorem head?_breaks (h : Breaks after) : (s ++ after).head? = some ']' ↔ s.head? = some ']' := by
  cases s with
  | nil => rcases h with rfl | ⟨rest,rfl⟩ <;> simp
  | cons c s => rfl

theorem subscriptLength_breaks (h : subscriptLength depth (s ++ [' ']) = s.length)
    (ha : Breaks after) : subscriptLength depth (s ++ after) = s.length := by
  have hb : Breaks [' '] := Or.inr ⟨[],rfl⟩
  induction hl : s.length using Nat.strongRecOn generalizing s depth with
  | ind n ih =>
    subst hl
    cases depth with
    | zero =>
      rw [subscriptLength] at h ⊢
      exact h
    | succ depth =>
      cases s with
      | nil =>
        rw [nil_append,subscriptLength_cons (by decide)] at h
        rw [length_nil] at h
        omega
      | cons c s =>
        by_cases hc : c = '\\'
        · subst hc
          cases s with
          | nil =>
            change 2 + subscriptLength (depth + 1) [] = 1 at h
            omega
          | cons d s =>
            change 2 + subscriptLength (depth + 1) (s ++ [' ']) = s.length + 1 + 1 at h
            have hs : subscriptLength (depth + 1) (s ++ [' ']) = s.length := by omega
            have hr := ih s.length (by simp only [length_cons]; omega) hs rfl
            change 2 + subscriptLength (depth + 1) (s ++ after) = s.length + 1 + 1
            omega
        · rw [cons_append,subscriptLength_cons hc] at h ⊢
          simp only [head?_breaks hb] at h
          simp only [head?_breaks ha]
          rw [length_cons] at h ⊢
          have hr := ih s.length (Nat.lt_succ_self _) (Nat.add_left_cancel (h.trans (Nat.add_comm _ 1))) rfl
          rw [hr,Nat.add_comm]

/-- A name that is taken whole when a blank comes after it. -/
def takenWhole : Text → Bool
  | [] => false
  | c :: rest => isIdentStart c && decide (nameLength (c :: rest ++ [' ']) = (c :: rest).length)

theorem nameLength_append (x : Text) (h : Breaks after) :
    nameLength (x ++ after) = match x.dropWhile isIdentChar with
      | '[' :: rest => (x.takeWhile isIdentChar).length + 1 + subscriptLength 1 (rest ++ after)
      | _ => (x.takeWhile isIdentChar).length := by
  have hd : (x ++ after).drop (x.takeWhile isIdentChar).length = x.dropWhile isIdentChar ++ after := by
    have hs : x ++ after = x.takeWhile isIdentChar ++ (x.dropWhile isIdentChar ++ after) := by
      rw [← append_assoc,takeWhile_append_dropWhile]
    rw [hs,drop_left]
  rw [nameLength,takeWhile_breaks (by decide) x h,hd]
  cases x.dropWhile isIdentChar with
  | nil => rcases h with rfl | ⟨rest,rfl⟩ <;> rfl
  | cons c rest => by_cases hc : c = '[' <;> simp [hc]

theorem nameLength_breaks {x : Text} (h : nameLength (x ++ [' ']) = x.length) (ha : Breaks after) :
    nameLength (x ++ after) = x.length := by
  have hl : x.length = (x.takeWhile isIdentChar).length + (x.dropWhile isIdentChar).length := by
    rw [← length_append,takeWhile_append_dropWhile]
  rw [nameLength_append x (Or.inr ⟨[],rfl⟩)] at h
  rw [nameLength_append x ha]
  split at h
  · next rest hr =>
    have hw : (x.takeWhile isIdentChar).length + 1 + subscriptLength 1 (rest ++ [' ']) = x.length := h
    rw [hr,length_cons] at hl
    have hi : subscriptLength 1 (rest ++ [' ']) = rest.length := by omega
    change (x.takeWhile isIdentChar).length + 1 + subscriptLength 1 (rest ++ after) = _
    rw [subscriptLength_breaks hi ha]
    omega
  · exact h
end

def Tok.written : Tok → Bool
  | .ident x => takenWhole x
  | .eof => false
  | _ => true

theorem isNumberChar_of_isDigit (h : c.isDigit) : isNumberChar c := by
  simp [isNumberChar,Char.isAlphanum,h]

theorem not_isDigit_of_isIdentStart (h : isIdentStart c) : c.isDigit = false := by
  rw [isIdentStart,Bool.or_eq_true,decide_eq_true_eq] at h
  rcases h with rfl | h
  · rfl
  · have hn := Utf8.toNat_of_isAlpha h
    simp only [Char.isDigit,Bool.and_eq_false_iff,decide_eq_false_iff_not,UInt32.le_iff_toNat_le,ge_iff_le]
    change ¬48 ≤ c.toNat ∨ ¬c.toNat ≤ 57
    omega

theorem tokenAt_number (hc : c.isDigit)
    (hr : ∀ d ∈ c :: rest, isNumberChar d) (ha : ∀ d ∈ after.head?, isNumberChar d = false)
    (hd : src.drop start = c :: rest ++ after) : (tokenAt src start : Except (ArithError E) Lexer) =
      (parseNumber (c :: rest)).map fun v => take src start (.num v) (c :: rest).length := by
  have ht : (c :: rest ++ after).takeWhile isNumberChar = c :: rest := by
    rw [takeWhile_append_of_pos hr]
    cases after with
    | nil => simp
    | cons d after => simp [ha d rfl]
  change src.drop start = c :: (rest ++ after) at hd
  rw [tokenAt,hd]
  dsimp only
  rw [if_pos hc,← cons_append,ht]

theorem Tok.text_num (n : I64) : ∃ d ds, Tok.text (.num n) = d :: ds ∧ ∀ c ∈ d :: ds, c.isDigit := by
  obtain ⟨d,ds,hd⟩ := exists_cons_of_ne_nil (Nat.toDigits_ne_nil (b := 10) (n := n.toNat))
  exact ⟨d,ds,hd,fun c hc => isDigit_of_mem_toDigits (hd ▸ hc)⟩

theorem tokenAt_text (ht : t.written) (ha : Breaks after) (hd : src.drop start = t.text ++ after) :
    (tokenAt src start : Except (ArithError E) Lexer) = .ok (take src start t t.text.length) := by
  cases t with
  | num n =>
    have hs : ∀ d ∈ after.head?, isNumberChar d = false := by
      rcases ha with rfl | ⟨rest,rfl⟩
      · simp
      · rintro _ ⟨⟩
        decide
    obtain ⟨d,ds,hte,hal⟩ := Tok.text_num n
    have hp : (parseNumber (d :: ds) : Except (ArithError E) I64) = .ok n := hte ▸ parseNumber_toDigits n
    rw [hte] at hd ⊢
    rw [tokenAt_number (hal d mem_cons_self) (fun c hc => isNumberChar_of_isDigit (hal c hc)) hs hd,hp]
    rfl
  | ident x =>
    cases x with
    | nil => cases ht
    | cons c rest =>
      rw [Tok.written,takenWhole,Bool.and_eq_true,decide_eq_true_eq] at ht
      have hn := nameLength_breaks ht.2 ha
      change src.drop start = c :: (rest ++ after) at hd
      rw [tokenAt,hd]
      change (if c.isDigit then _ else if isIdentStart c then _ else _) = _
      rw [if_neg (by rw [not_isDigit_of_isIdentStart ht.1]; exact Bool.false_ne_true),if_pos ht.1,← cons_append,hn]
      dsimp only
      rw [take_left]
      rfl
  | eof => cases ht
  | _ =>
    rw [tokenAt,hd]
    rcases ha with rfl | ⟨rest,rfl⟩ <;> rfl

def ahead : List Tok → Text
  | [] => []
  | t :: ts => ' ' :: spaced (t :: ts)

theorem spaced_cons (t : Tok) (ts : List Tok) : spaced (t :: ts) = t.text ++ ahead ts := by
  cases ts with
  | nil => exact (append_nil _).symm
  | cons u us => rfl

theorem ahead_breaks (toks : List Tok) : Breaks (ahead toks) := by
  cases toks with
  | nil => exact Or.inl rfl
  | cons t ts => exact Or.inr ⟨_,rfl⟩

theorem not_blank_of_toNat (h : 33 ≤ c.toNat) (hlt : c.toNat < 128) :
    isWhitespace c = false ∧ isAsciiWhitespace c = false := by
  have hne : ∀ d : Char, d.toNat < 33 → c ≠ d := by
    rintro d hd rfl
    omega
  constructor
  · simp only [isWhitespace,Bool.or_eq_false_iff,Bool.and_eq_false_iff,decide_eq_false_iff_not]
    omega
  · simp only [isAsciiWhitespace,Bool.or_eq_false_iff,decide_eq_false_iff_not]
    exact ⟨⟨⟨⟨hne _ (by decide),hne _ (by decide)⟩,hne _ (by decide)⟩,hne _ (by decide)⟩,hne _ (by decide)⟩

theorem not_blank_of_isDigit (h : c.isDigit) : isWhitespace c = false ∧ isAsciiWhitespace c = false := by
  simp only [Char.isDigit,Bool.and_eq_true,decide_eq_true_eq,UInt32.le_iff_toNat_le,ge_iff_le] at h
  change 48 ≤ c.toNat ∧ c.toNat ≤ 57 at h
  exact not_blank_of_toNat (by omega) (by omega)

theorem not_blank_of_isIdentStart (h : isIdentStart c) :
    isWhitespace c = false ∧ isAsciiWhitespace c = false := by
  rw [isIdentStart,Bool.or_eq_true,decide_eq_true_eq] at h
  rcases h with rfl | h
  · exact ⟨rfl,rfl⟩
  · have hn := Utf8.toNat_of_isAlpha h
    exact not_blank_of_toNat (by omega) (by omega)

theorem Tok.text_head (ht : t.written) :
    ∃ c rest, t.text = c :: rest ∧ isWhitespace c = false ∧ isAsciiWhitespace c = false := by
  cases t with
  | num n =>
    obtain ⟨d,ds,hte,ha⟩ := Tok.text_num n
    exact ⟨d,ds,hte,not_blank_of_isDigit (ha d mem_cons_self)⟩
  | ident x =>
    cases x with
    | nil => cases ht
    | cons c rest =>
      rw [Tok.written,takenWhole,Bool.and_eq_true] at ht
      exact ⟨c,rest,rfl,not_blank_of_isIdentStart ht.1⟩
  | eof => cases ht
  | _ => exact ⟨_,_,rfl,rfl,rfl⟩

theorem advance_text (ht : t.written) (lex : Lexer) {blank : Text} (hb : blank = [] ∨ blank = [' '])
    (ha : Breaks after) (h : lex.src.drop lex.i = blank ++ (t.text ++ after)) :
    ∃ next, lex.advance = (.ok next : Except (ArithError E) Lexer) ∧ next.cur = t ∧ next.src.drop next.i = after := by
  obtain ⟨c,rest,hte,-,hc⟩ := t.text_head ht
  have hs : (lex.src.drop lex.i).takeWhile isAsciiWhitespace = blank := by
    have hn : (c :: rest ++ after).takeWhile isAsciiWhitespace = [] :=
      takeWhile_cons_of_neg (by rw [hc]; exact Bool.false_ne_true)
    rw [h,hte]
    rcases hb with rfl | rfl
    · exact hn
    · exact (takeWhile_cons_of_pos rfl).trans (congrArg _ hn)
  have hd : lex.src.drop (lex.i + blank.length) = t.text ++ after := by
    rw [← drop_drop,h,drop_left]
  refine ⟨take lex.src (lex.i + blank.length) t t.text.length,?_,rfl,?_⟩
  · rw [advance,hs]
    exact tokenAt_text ht ha hd
  · change lex.src.drop (lex.i + blank.length + t.text.length) = after
    rw [← drop_drop,hd,drop_left]

theorem advance_ahead (ht : ∀ t ∈ toks, t.written) (h : lex.src.drop lex.i = ahead toks) :
    ∃ next, lex.advance = (.ok next : Except (ArithError E) Lexer) ∧ At E next toks := by
  induction toks generalizing lex with
  | nil =>
    refine ⟨take lex.src lex.i .eof 0,?_,rfl⟩
    change lex.src.drop lex.i = [] at h
    rw [advance,h]
    change tokenAt lex.src lex.i = _
    rw [tokenAt,h]
  | cons t ts ih =>
    have hr : ∀ u ∈ ts, u.written := fun u hu => ht u (mem_cons_of_mem t hu)
    rw [ahead,spaced_cons] at h
    obtain ⟨next,hn,hc,hd⟩ := advance_text (ht t mem_cons_self) lex (Or.inr rfl) (ahead_breaks ts) h
    exact ⟨next,hn,hc,ih hr hd⟩

theorem new_spaced (ht : ∀ u ∈ t :: ts, u.written) :
    ∃ lex, new (spaced (t :: ts)) = (.ok lex : Except (ArithError E) Lexer) ∧ At E lex (t :: ts) := by
  have hr : ∀ u ∈ ts, u.written := fun u hu => ht u (mem_cons_of_mem t hu)
  have h := spaced_cons t ts
  obtain ⟨lex,hl,hc,hd⟩ := advance_text (ht t mem_cons_self) ⟨spaced (t :: ts),0,.eof,0,0⟩ (Or.inl rfl)
    (ahead_breaks ts) h
  exact ⟨lex,hl,hc,advance_ahead hr hd⟩

theorem trim_prefix (s : Text) : trim s <+: trimStart s := by
  have hs : trimStart (trimStart s).reverse <:+ (trimStart s).reverse := dropWhile_suffix _
  have hp := reverse_prefix.mpr hs
  rwa [reverse_reverse] at hp

theorem trim_ne_nil (hc : isWhitespace c = false) (rest : Text) : trim (c :: rest) ≠ [] := by
  have hs : trimStart (c :: rest) = c :: rest := dropWhile_cons_of_neg (by rw [hc]; exact Bool.false_ne_true)
  intro h
  have ha : trimStart (c :: rest).reverse = [] := by
    rw [trim,hs] at h
    exact reverse_eq_nil_iff.mp h
  have hb := dropWhile_eq_nil_iff.mp ha c (mem_reverse.mpr mem_cons_self)
  rw [hc] at hb
  cases hb

theorem Tok.text_of_double (ht : t.written) (hc : c = '+' ∨ c = '-')
    (ha : Breaks after) (h : [c,c] <+: t.text ++ after) : t.text = [c,c] := by
  obtain ⟨rest,hr⟩ := h
  cases t with
  | num n =>
    obtain ⟨d,ds,hte,hal⟩ := Tok.text_num n
    have hd := hal d mem_cons_self
    rw [hte] at hr
    rw [← (List.cons.inj hr).1] at hd
    rcases hc with rfl | rfl <;> cases hd
  | ident x =>
    cases x with
    | nil => cases ht
    | cons d ds =>
      rw [Tok.written,takenWhole,Bool.and_eq_true] at ht
      have hd := ht.1
      rw [← (List.cons.inj hr).1] at hd
      rcases hc with rfl | rfl <;> cases hd
  | eof => cases ht
  | _ => rcases hc with rfl | rfl <;> rcases ha with rfl | ⟨after,rfl⟩ <;> first | rfl | cases hr

theorem isArithIdentifier_of_breaks {m : Text} (h : Breaks after) (hm : m <+: after) : isArithIdentifier m = false := by
  cases m with
  | nil => rfl
  | cons c m =>
    obtain ⟨rest,hr⟩ := hm
    rcases h with rfl | ⟨after,rfl⟩
    · cases hr
    · obtain rfl : c = ' ' := (List.cons.inj hr).1
      rfl

theorem prefixPostfixLvalueError_eq_none (h : ∀ d : Char, d = '+' ∨ d = '-' → [d,d] <+: trim text → ∀ n,
    isArithIdentifier (((trim text).drop 2).take n) = false) : (prefixPostfixLvalueError text : Option (ArithError E)) = none := by
  unfold prefixPostfixLvalueError
  dsimp only
  split
  · next he =>
    rw [Bool.and_eq_true,List.isPrefixOf_iff_prefix] at he
    rw [h '-' (.inr rfl) he.1]
    rfl
  · split
    · next he =>
      rw [Bool.and_eq_true,List.isPrefixOf_iff_prefix] at he
      rw [h '+' (.inl rfl) he.1]
      rfl
    · rfl

theorem prefixPostfixLvalueError_spaced (ht : t.written) (ts : List Tok) :
    (prefixPostfixLvalueError (spaced (t :: ts)) : Option (ArithError E)) = none := by
  obtain ⟨c,rest,hte,hb,-⟩ := t.text_head ht
  have hs : trim (spaced (t :: ts)) <+: t.text ++ ahead ts := by
    have hst : trimStart (spaced (t :: ts)) = t.text ++ ahead ts := by
      rw [spaced_cons,hte]
      exact dropWhile_cons_of_neg (by rw [hb]; exact Bool.false_ne_true)
    exact hst ▸ trim_prefix _
  refine prefixPostfixLvalueError_eq_none fun d hd hdo n => ?_
  have hdr := hs.drop 2
  rw [t.text_of_double ht hd (ahead_breaks ts) (hdo.trans hs)] at hdr
  exact isArithIdentifier_of_breaks (ahead_breaks ts) ((List.take_prefix _ _).trans hdr)

section
variable (acc : Access Env LVal E)

def outcome (r : Except (ArithError E) I64 × Env) : Except (Fault E) I64 × Env := (r.1.mapError ArithError.fault,r.2)

theorem evalInner_of_new (hd : depth < maxArithNesting) (hf : trim text ≠ [])
    (hl : (prefixPostfixLvalueError text : Option (ArithError E)) = none) (hle : new text = (.ok lex : Except (ArithError E) Lexer))
    (hat : At E lex toks) {s : Effect Env E I64} (h : Refines (parseComma acc (text.length + 1) true) s toks []) (env : Env) :
    outcome (evalInner acc depth text env) = s env := by
  have hr := h lex hat env
  unfold evalInner
  rw [if_neg (by rwa [List.isEmpty_iff]),hl,hle]
  dsimp only
  rw [if_neg (by omega)]
  revert hr
  generalize parseComma acc (text.length + 1) true lex env = r
  generalize s env = q
  intro hr
  cases hr with
  | ok he =>
    have heo : cur _ = .eof := he.cur
    dsimp only
    rw [if_pos heo]
    rfl
  | error => rfl

theorem evalInner_spaced (hd : depth < maxArithNesting) (hto : ∀ u ∈ t :: ts, u.written) {s : Effect Env E I64}
    (h : Refines (parseComma acc ((spaced (t :: ts)).length + 1) true) s (t :: ts) []) (env : Env) :
    outcome (evalInner acc depth (spaced (t :: ts)) env) = s env := by
  have ht : t.written := hto t mem_cons_self
  obtain ⟨c,rest,hte,hb,-⟩ := t.text_head ht
  have hf : trim (spaced (t :: ts)) ≠ [] := by
    rw [spaced_cons,hte]
    exact trim_ne_nil hb _
  obtain ⟨lex,hl,hat⟩ := new_spaced (E := E) hto
  exact evalInner_of_new acc hd hf (prefixPostfixLvalueError_spaced ht ts) hl hat h env

def Expr.named : Expr → Bool
  | .const _ => true
  | .var x | .pre _ x | .post _ x => takenWhole x
  | .unary _ e | .group e => e.named
  | .binary _ a b => a.named && b.named
  | .ternary c t f => c.named && (t.named && f.named)
  | .assign _ x e => takenWhole x && e.named

theorem parenthesise_written {level own : ℕ} {toks : List Tok} (h : ∀ t ∈ toks, t.written) :
    ∀ t ∈ parenthesise level own toks, t.written := by
  intro t ht
  rw [parenthesise] at ht
  split at ht
  · exact h t ht
  · simp only [mem_cons,mem_append,not_mem_nil,or_false] at ht
    rcases ht with rfl | ht | rfl
    · rfl
    · exact h t ht
    · rfl

theorem Expr.body_written (he : e.named) : ∀ t ∈ e.body, t.written := by
  induction e with
  | const n => simp [body,Tok.written]
  | var x => simpa [body,named,Tok.written] using he
  | unary op e ih =>
    intro t ht
    rcases mem_cons.mp ht with rfl | ht
    · cases op <;> rfl
    · exact parenthesise_written (ih he) t ht
  | pre up x | post up x => cases up <;> simpa [body,named,Tok.written,incDecTok] using he
  | binary op a b iha ihb =>
    rw [named,Bool.and_eq_true] at he
    intro t ht
    rcases mem_append.mp ht with ht | ht
    · exact parenthesise_written (iha he.1) t ht
    · rcases mem_cons.mp ht with rfl | ht
      · cases op <;> rfl
      · exact parenthesise_written (ihb he.2) t ht
  | ternary c t f ihc iht ihf =>
    rw [named,Bool.and_eq_true,Bool.and_eq_true] at he
    intro u hu
    simp only [body,mem_append,mem_cons] at hu
    rcases hu with hu | rfl | hu | rfl | hu
    · exact parenthesise_written (ihc he.1) u hu
    · rfl
    · exact iht he.2.1 u hu
    · rfl
    · exact parenthesise_written (ihf he.2.2) u hu
  | assign op x e ih =>
    rw [named,Bool.and_eq_true] at he
    intro t ht
    simp only [body,mem_cons] at ht
    rcases ht with rfl | rfl | ht
    · exact he.1
    · cases op <;> rfl
    · exact parenthesise_written (ih he.2) t ht
  | group e ih => exact @parenthesise_written 16 15 _ (ih he)

theorem length_le_parenthesise (level own : ℕ) (toks : List Tok) : toks.length ≤ (parenthesise level own toks).length := by
  rw [parenthesise]
  split
  · exact Nat.le_refl _
  · simp only [length_cons,length_append]
    omega

theorem Expr.size_lt (e : Expr) : e.size < 2 * e.body.length := by
  induction e with
  | const n | var x => exact Nat.lt_succ_self 1
  | unary op e ih =>
    have hp := length_le_parenthesise 14 e.level e.body
    simp only [size,body,length_cons]
    omega
  | pre up x | post up x => exact (by decide : 1 < 2 * 2)
  | binary op a b iha ihb =>
    have hpa := length_le_parenthesise op.leftLevel a.level a.body
    have hpb := length_le_parenthesise op.rightLevel b.level b.body
    simp only [size,body,length_append,length_cons]
    omega
  | ternary c t f ihc iht ihf =>
    have hpc := length_le_parenthesise 3 c.level c.body
    have hpf := length_le_parenthesise 2 f.level f.body
    simp only [size,body,length_append,length_cons]
    omega
  | assign op x e ih =>
    have hp := length_le_parenthesise 1 e.level e.body
    simp only [size,body,length_cons]
    omega
  | group e ih =>
    simp only [size,body,length_cons,length_append]
    omega

theorem length_spaced (ht : ∀ t ∈ toks, t.written) :
    2 * toks.length ≤ (spaced toks).length + 1 := by
  induction toks with
  | nil => exact Nat.zero_le _
  | cons t ts ih =>
    obtain ⟨c,rest,hte,-⟩ := t.text_head (ht t mem_cons_self)
    have hts := ih fun u hu => ht u (mem_cons_of_mem t hu)
    rw [spaced_cons,hte]
    cases ts with
    | nil =>
      simp only [length_cons,length_append,length_nil]
      omega
    | cons u us =>
      simp only [ahead,length_cons,length_append] at hts ⊢
      omega

theorem evalInner_render (hd : depth < maxArithNesting) (he : e.named) (env : Env) :
    outcome (evalInner acc depth e.render env) = e.walk acc true env := by
  have hw := e.body_written he
  have hf := length_spaced hw
  have hs := e.size_lt
  have hp := (parses_and_loops acc e).1 (spaced e.body).length (spaced e.body).length 0 true [] (by omega) (by omega)
    (Nat.zero_le _) (fun m hm => by cases hm)
  rw [append_nil] at hp
  rw [render]
  cases hb : e.body with
  | nil =>
    rw [hb] at hs
    exact absurd hs (Nat.not_lt_zero _)
  | cons t ts =>
    rw [hb] at hw hp
    exact evalInner_spaced acc hd hw hp env
end
end Cherubsh.Expander.Arith
