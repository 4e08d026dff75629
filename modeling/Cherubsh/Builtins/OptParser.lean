import Cherubsh.Expander.Arith.Lexer

/-! # The options of a builtin

`OptParser` keeps a place in the arguments and one inside the argument, and looks a character up
in the raw text of the specification, where it finds the colons as well.
-/
namespace Cherubsh.Builtins.Options
open Expander.Arith (Text)
open List

inductive GetOpt where
  | opt (plus : Bool) (ch : Char) (arg : Option Text)
  | finish
  | done
  | unknown (plus : Bool) (ch : Char)
  | missing (plus : Bool) (ch : Char)
  deriving DecidableEq

structure OptParser where
  args : List Text
  spec : Text
  pos : ℕ
  inner : ℕ
  index : ℕ

def notOption (arg : Text) : Bool :=
  arg.isEmpty || (arg.head? ≠ some '-' && arg.head? ≠ some '+') || arg = ['-'] || arg = ['+']

def isPlus (arg : Text) : Bool := arg.head? = some '+'

namespace OptParser

def new (args : List Text) (spec : Text) : OptParser := ⟨args,spec,0,0,0⟩

def remaining (p : OptParser) : List Text := p.args.drop p.index

def found (p : OptParser) (arg : Text) (plus : Bool) (ch : Char) (idx : ℕ) : GetOpt × OptParser :=
  if p.spec[idx + 1]? = some ':' then
    let rest := arg.drop p.inner
    if rest ≠ [] then (.opt plus ch (some rest),{p with pos := p.pos + 1, inner := 0})
    else match p.args[p.pos + 1]? with
      | none => (.missing plus ch,{p with pos := p.pos + 1, inner := 0})
      | some v => (.opt plus ch (some v),{p with pos := p.pos + 2, inner := 0})
  else (.opt plus ch none,{p with index := if arg.length ≤ p.inner then p.pos + 1 else p.pos})

/-- At the end of an argument it calls itself; the fuel counts the arguments left. -/
def nextFrom : ℕ → OptParser → GetOpt × OptParser
  | 0,p => (.done,{p with index := p.pos})
  | fuel + 1,p =>
    match p.args[p.pos]? with
    | none => (.done,{p with index := p.pos})
    | some arg =>
      if p.inner = 0 ∧ arg = ['-','-'] then (.finish,{p with index := p.pos + 1, pos := p.args.length})
      else if p.inner = 0 ∧ notOption arg then (.done,{p with index := p.pos})
      else
        let p := if p.inner = 0 then {p with inner := 1} else p
        let plus := isPlus arg
        match arg[p.inner]? with
        | none => nextFrom fuel {p with pos := p.pos + 1, inner := 0}
        | some ch =>
          let p := {p with inner := p.inner + 1}
          match p.spec.idxOf? ch with
          | none => (.unknown plus ch,p)
          | some idx => p.found arg plus ch idx

def next (p : OptParser) : GetOpt × OptParser := nextFrom (p.args.length + 1 - p.pos) p

/-- The results up to the end of the options, and the arguments that remain. -/
inductive Runs : OptParser → List GetOpt × List Text → Prop
  | last {p q : OptParser} {r : GetOpt} (he : p.next = (r,q)) (hr : r = .finish ∨ r = .done) : Runs p ([r],q.remaining)
  | step {p q : OptParser} {r : GetOpt} {R : List GetOpt × List Text} (he : p.next = (r,q)) (hr : r ≠ .finish ∧ r ≠ .done)
      (h : Runs q R) : Runs p (r :: R.1,R.2)

section
variable {p q : OptParser} {R R' : List GetOpt × List Text}

theorem Runs.of_next (he : p.next = q.next) (h : Runs q R) : Runs p R := by
  cases h with
  | last h hr => exact .last (he.trans h) hr
  | step h hr h' => exact .step (he.trans h) hr h'

theorem Runs.unique (h : Runs p R) (h' : Runs p R') : R = R' := by
  induction h generalizing R' with
  | last he hr =>
    cases h' with
    | last he' => cases he.symm.trans he'; rfl
    | step he' hr' => cases he.symm.trans he'; exact absurd hr (not_or.mpr hr')
  | step he hr h ih =>
    cases h' with
    | last he' hr' => cases he.symm.trans he'; exact absurd hr' (not_or.mpr hr)
    | step he' hr' h' => cases he.symm.trans he'; rw [ih h']
end
end OptParser

section
variable (takes : Char → Option Bool)

def letters (plus : Bool) : Text → List GetOpt × Option (Bool × Char)
  | [] => ([],none)
  | ch :: rest =>
    let more := letters plus rest
    match takes ch with
    | none => (.unknown plus ch :: more.1,more.2)
    | some false => (.opt plus ch none :: more.1,more.2)
    | some true => if rest = [] then ([],some (plus,ch)) else ([.opt plus ch (some rest)],none)

/-- The reference parse, behind an option that waits for its argument or none. -/
def parse : List Text → Option (Bool × Char) → List GetOpt × List Text
  | [],none => ([.done],[])
  | [],some (plus,ch) => ([.missing plus ch,.done],[])
  | value :: rest,some (plus,ch) => (.opt plus ch (some value) :: (parse rest none).1,(parse rest none).2)
  | arg :: rest,none =>
    if arg = ['-','-'] then ([.finish],rest)
    else if notOption arg then ([.done],arg :: rest)
    else
      let word := letters takes (isPlus arg) arg.tail
      (word.1 ++ (parse rest word.2).1,(parse rest word.2).2)
end

abbrev SpecItem := {c : Char // c ≠ ':'} × Bool

def specText (spec : List SpecItem) : Text := spec.flatMap fun o => if o.2 then [o.1.val,':'] else [o.1.val]

def takesIn (spec : List SpecItem) (ch : Char) : Option Bool := (spec.find? (·.1.val = ch)).map Prod.snd

def lookup (spec : Text) (ch : Char) : Option Bool := (spec.idxOf? ch).map fun idx => decide (spec[idx + 1]? = some ':')

theorem lookup_cons (c ch : Char) (spec : Text) :
    lookup (c :: spec) ch = if c = ch then some (decide (spec.head? = some ':')) else lookup spec ch := by
  unfold lookup
  rw [idxOf?_cons]
  by_cases hc : c = ch
  · simp [hc,head?_eq_getElem?]
  · simp [hc,Function.comp_def]

theorem head?_specText (spec : List SpecItem) : (specText spec).head? ≠ some ':' := by
  cases spec with
  | nil => simp [specText]
  | cons o spec =>
    have ho := o.1.prop
    cases hb : o.2 <;> simp [specText,hb,ho]

theorem lookup_specText (spec : List SpecItem) (ch : Char) :
    lookup (specText spec) ch = if ch = ':' ∧ spec.any Prod.snd then some false else takesIn spec ch := by
  induction spec with
  | nil => simp [specText,takesIn,lookup]
  | cons o spec ih =>
    obtain ⟨⟨c,hc⟩,a⟩ := o
    have hh := head?_specText spec
    have ht : takesIn ((⟨c,hc⟩,a) :: spec) ch = if c = ch then some a else takesIn spec ch := by
      by_cases h : c = ch <;> simp [takesIn,h]
    by_cases h : c = ch
    · subst h
      cases a <;> simp [specText,lookup_cons,hc,ht]
      simpa [specText] using hh
    · cases a with
      | false => simpa only [specText,flatMap_cons,any_cons,Bool.false_or,Bool.false_eq_true,if_false,singleton_append,
          lookup_cons,h,ht] using ih
      | true =>
        by_cases hl : ch = ':'
        · subst hl
          simpa [specText,lookup_cons,h] using hh
        · simpa [specText,lookup_cons,h,ht,hl,Ne.symm hl] using ih

namespace OptParser
variable {args rest : List Text} {spec arg cs : Text} {pos inner idx : ℕ} {ch : Char}

theorem at_drop {α : Type*} {l more : List α} {x : α} {n : ℕ} (h : l.drop n = x :: more) :
    l[n]? = some x ∧ l.drop (n + 1) = more ∧ l.length + 1 - n = l.length - n + 1 := by
  have hl := congrArg List.length h
  rw [length_drop,length_cons] at hl
  exact ⟨by rw [← head?_drop,h,head?_cons],by rw [← drop_drop,h,drop_one,tail_cons],by omega⟩

theorem next_inside (hd : args.drop pos = arg :: rest) (hi : inner ≠ 0) :
    next ⟨args,spec,pos,inner,idx⟩ = arg[inner]?.elim (next ⟨args,spec,pos + 1,0,idx⟩) fun ch =>
      (spec.idxOf? ch).elim (.unknown (isPlus arg) ch,⟨args,spec,pos,inner + 1,idx⟩)
        fun i => found ⟨args,spec,pos,inner + 1,idx⟩ arg (isPlus arg) ch i := by
  obtain ⟨ha,-,hf⟩ := at_drop hd
  rw [next,hf,nextFrom]
  simp only [ha,hi,false_and,if_false]
  cases arg[inner]? with
  | none => rw [Option.elim_none,next,Nat.add_sub_add_right]
  | some ch => cases hx : spec.idxOf? ch <;> simp [hx]

theorem next_word (hd : args.drop pos = arg :: rest) (he : arg ≠ ['-','-']) (hn : ¬notOption arg) :
    next ⟨args,spec,pos,0,idx⟩ = next ⟨args,spec,pos,1,idx⟩ := by
  obtain ⟨ha,-,hf⟩ := at_drop hd
  rw [next,next,hf,nextFrom,nextFrom]
  simp [ha,he,hn]

/-- The calls follow the parse of the last arguments, also behind an option that waits for one. -/
def Continues (args : List Text) (spec : Text) (rest : List Text) : Prop :=
  (∀ pos idx, args.drop pos = rest → Runs ⟨args,spec,pos,0,idx⟩ (parse (lookup spec) rest none)) ∧
    ∀ pos inner idx arg ch, args.drop pos = arg :: rest → arg.drop inner = [ch] → inner ≠ 0 → lookup spec ch = some true →
      Runs ⟨args,spec,pos,inner,idx⟩ (parse (lookup spec) rest (some (isPlus arg,ch)))

theorem Continues.letters (h : Continues args spec rest) (hd : args.drop pos = arg :: rest) (hc : arg.drop inner = cs)
    (hi : inner ≠ 0) :
    Runs ⟨args,spec,pos,inner,idx⟩ ((letters (lookup spec) (isPlus arg) cs).1 ++
      (parse (lookup spec) rest (letters (lookup spec) (isPlus arg) cs).2).1,
      (parse (lookup spec) rest (letters (lookup spec) (isPlus arg) cs).2).2) := by
  have hb := fun idx => h.1 (pos + 1) idx (at_drop hd).2.1
  induction cs generalizing inner idx with
  | nil => exact (hb idx).of_next (by rw [next_inside hd hi,getElem?_eq_none (drop_eq_nil_iff.mp hc)]; rfl)
  | cons ch cs ih =>
    obtain ⟨hg,hdr,-⟩ := at_drop hc
    have hnx : next ⟨args,spec,pos,inner,idx⟩ = _ := next_inside hd hi
    have hm : ∀ idx, Runs ⟨args,spec,pos,inner + 1,idx⟩ _ := fun idx => ih hdr (Nat.succ_ne_zero inner)
    rw [hg,Option.elim_some] at hnx
    rw [Options.letters]
    cases hx : spec.idxOf? ch with
    | none =>
      rw [hx] at hnx
      simp only [show lookup spec ch = none by simp [lookup,hx]]
      exact .step hnx (by simp) (hm idx)
    | some i =>
      rw [hx,Option.elim_some,found] at hnx
      have hl : lookup spec ch = some (decide (spec[i + 1]? = some ':')) := by simp [lookup,hx]
      by_cases hw : spec[i + 1]? = some ':'
      · rw [hw,decide_eq_true rfl] at hl
        simp only [hl]
        by_cases hr : cs = []
        · subst hr
          exact h.2 pos inner idx arg ch hd hc hi hl
        · simp only [if_pos hw,hdr,ne_eq,hr,not_false_eq_true,if_true] at hnx
          simp only [hr,if_false]
          exact .step hnx (by simp) (hb idx)
      · rw [decide_eq_false hw] at hl
        simp only [hl]
        rw [if_neg hw] at hnx
        exact .step hnx (by simp) (hm _)

theorem continues (args : List Text) (spec : Text) (rest : List Text) : Continues args spec rest := by
  have hnx : ∀ {rest pos inner idx arg ch}, args.drop pos = arg :: rest → arg.drop inner = [ch] → inner ≠ 0 →
      lookup spec ch = some true → next ⟨args,spec,pos,inner,idx⟩ =
        rest.head?.elim (.missing (isPlus arg) ch,⟨args,spec,pos + 1,0,idx⟩)
        fun v => (.opt (isPlus arg) ch (some v),⟨args,spec,pos + 2,0,idx⟩) := by
    intro rest pos inner idx arg ch hd hc hi ht
    obtain ⟨i,hx,hw⟩ := Option.map_eq_some_iff.mp ht
    obtain ⟨hg,hdr,-⟩ := at_drop hc
    rw [next_inside hd hi,hg,Option.elim_some,hx,Option.elim_some,found,if_pos (of_decide_eq_true hw),
      ← (at_drop hd).2.1,head?_drop]
    simp only [hdr,ne_eq,not_true_eq_false,if_false]
    cases args[pos + 1]? <;> rfl
  induction rest with
  | nil =>
    have hdone : ∀ pos idx, args.drop pos = [] → Runs ⟨args,spec,pos,0,idx⟩ ([.done],[]) := by
      intro pos idx hd
      have hn : next ⟨args,spec,pos,0,idx⟩ = (.done,⟨args,spec,pos,0,pos⟩) := by
        rw [next]
        cases args.length + 1 - pos <;> simp [nextFrom,drop_eq_nil_iff.mp hd]
      simpa [remaining,hd] using Runs.last hn (.inr rfl)
    exact ⟨hdone,fun pos inner idx arg ch hd hc hi ht =>
      .step (hnx hd hc hi ht) (by simp) (hdone _ idx (at_drop hd).2.1)⟩
  | cons arg rest ih =>
    refine ⟨fun pos idx hd => ?_,fun pos inner idx word ch hd hc hi ht => ?_⟩
    · obtain ⟨ha,hdr,hf⟩ := at_drop hd
      rw [parse]
      split
      · rename_i he
        have hn : next ⟨args,spec,pos,0,idx⟩ = (.finish,⟨args,spec,args.length,0,pos + 1⟩) := by
          rw [next,hf,nextFrom]
          simp [ha,he]
        simpa [remaining,hdr] using Runs.last hn (.inl rfl)
      rename_i he
      split
      · rename_i ho
        have hn : next ⟨args,spec,pos,0,idx⟩ = (.done,⟨args,spec,pos,0,pos⟩) := by
          rw [next,hf,nextFrom]
          simp [ha,he,ho]
        simpa [remaining,hd] using Runs.last hn (.inr rfl)
      · rename_i ho
        rw [← drop_one]
        exact (ih.letters hd rfl Nat.one_ne_zero).of_next (next_word hd he ho)
    · exact .step (hnx hd hc hi ht) (by simp) (ih.1 (pos + 2) idx (at_drop (at_drop hd).2.1).2.1)
end OptParser

/-- What finding a colon changes. -/
def mend : GetOpt → GetOpt
  | .unknown plus ch => if ch = ':' then .opt plus ch none else .unknown plus ch
  | r => r

section
variable {spec : List SpecItem} (hc : spec.any Prod.snd)
include hc

theorem letters_specText (plus : Bool) (cs : Text) : letters (lookup (specText spec)) plus cs =
    ((letters (takesIn spec) plus cs).1.map mend,(letters (takesIn spec) plus cs).2) := by
  induction cs with
  | nil => rfl
  | cons ch cs ih =>
    rw [letters,letters,lookup_specText,ih]
    by_cases hl : ch = ':'
    · have ht : takesIn spec ch = none := by
        rw [hl,takesIn,Option.map_eq_none_iff,find?_eq_none]
        exact fun o _ => by simpa using o.1.prop
      rw [ht,if_pos ⟨hl,hc⟩]
      simp [mend,hl]
    · simp only [hl,false_and,if_false]
      cases takesIn spec ch with
      | none => simp [mend,hl]
      | some a => cases a <;> simp [mend]; split <;> simp [mend]

theorem parse_specText (args : List Text) (waiting : Option (Bool × Char)) : parse (lookup (specText spec)) args waiting =
    ((parse (takesIn spec) args waiting).1.map mend,(parse (takesIn spec) args waiting).2) := by
  induction args generalizing waiting with
  | nil => cases waiting <;> rfl
  | cons arg rest ih =>
    cases waiting with
    | some o => simp [parse,ih,mend]
    | none =>
      rw [parse,parse,letters_specText hc]
      split
      · rfl
      split
      · rfl
      · simp [ih]
end

/-- The calls give the reference parse exactly when it finds no colon in the place of an option,
or no option takes an argument. -/
theorem runs_parse_iff (spec : List SpecItem) (args : List Text) :
    (OptParser.new args (specText spec)).Runs (parse (takesIn spec) args none) ↔
      (spec.any Prod.snd → ∀ plus, .unknown plus ':' ∉ (parse (takesIn spec) args none).1) := by
  have hf := (OptParser.continues args (specText spec) args).1 0 0 rfl
  by_cases hc : spec.any Prod.snd
  · rw [parse_specText hc] at hf
    generalize parse (takesIn spec) args none = R at hf ⊢
    have hm : R.1.map mend = R.1 ↔ ∀ plus, .unknown plus ':' ∉ R.1 := by
      rw [show R.1.map mend = R.1 ↔ ∀ r ∈ R.1, mend r = id r by rw [← map_inj_left,map_id]]
      refine ⟨fun h plus hr => (by simpa [mend] using h _ hr),fun h r hr => ?_⟩
      cases r with
      | unknown plus ch => exact if_neg fun hl : ch = ':' => h plus (hl ▸ hr)
      | _ => rfl
    rw [forall_prop_of_true hc,← hm]
    refine ⟨fun h => congrArg Prod.fst (hf.unique h),fun h => ?_⟩
    rw [h] at hf
    exact hf
  · rw [show lookup (specText spec) = takesIn spec from funext fun ch => by simp [lookup_specText,hc]] at hf
    exact iff_of_true hf fun h => absurd h hc

/-- `-:` is taken for an option as soon as one takes an argument. -/
theorem runs_takes_colon :
    (OptParser.new [['-',':']] (specText [(⟨'r',by decide⟩,true)])).Runs ([.opt false ':' none,.done],[]) ∧
      parse (takesIn [(⟨'r',by decide⟩,true)]) [['-',':']] none = ([.unknown false ':',.done],[]) :=
  ⟨.step rfl (by decide) (.last rfl (.inr rfl)),by decide⟩

theorem parse_suffix (takes : Char → Option Bool) (args : List Text) (waiting : Option (Bool × Char)) :
    (parse takes args waiting).2 <:+ args := by
  fun_induction parse takes args waiting with
  | case1 | case2 | case5 => exact suffix_rfl
  | case3 value rest _ _ ih => exact ih.trans (suffix_cons ..)
  | case4 => exact suffix_cons ..
  | case6 arg rest _ _ word ih => exact ih.trans (suffix_cons ..)

namespace OptParser

/-- Both places are in the arguments or right behind them. -/
def Inside (args : List Text) (p : OptParser) : Prop := p.args = args ∧ p.pos ≤ args.length ∧ p.index ≤ args.length

variable {args : List Text} {p : OptParser}

theorem Inside.found (h : Inside args p) (hp : p.pos < args.length) (arg : Text) (plus : Bool) (ch : Char) (idx : ℕ) :
    Inside args (p.found arg plus ch idx).2 := by
  obtain ⟨rfl,-,hi⟩ := h
  unfold OptParser.found
  grind [Inside]

theorem Inside.nextFrom (h : Inside args p) (fuel : ℕ) : Inside args (nextFrom fuel p).2 := by
  induction fuel generalizing p with
  | zero => exact ⟨h.1,h.2.1,h.2.1⟩
  | succ fuel ih =>
    obtain ⟨rfl,hp,hi⟩ := h
    have hq : ∀ inner, Inside p.args {p with inner := inner} := fun _ => ⟨rfl,hp,hi⟩
    unfold OptParser.nextFrom
    split
    · exact ⟨rfl,hp,hp⟩
    next arg ha =>
      have hlt : p.pos < p.args.length := (List.getElem?_eq_some_iff.mp ha).1
      have hinner : (if p.inner = 0 then {p with inner := 1} else p) = {p with inner := if p.inner = 0 then 1 else p.inner} := by
        split <;> rfl
      split
      · exact ⟨rfl,Nat.le_refl _,hlt⟩
      split
      · exact ⟨rfl,hp,hp⟩
      rw [hinner]
      dsimp only
      split
      · exact ih ⟨rfl,hlt,hi⟩
      · split
        · exact hq _
        · exact (hq ((if p.inner = 0 then 1 else p.inner) + 1)).found hlt ..
end OptParser

/-- Whatever is specified, the calls come to an end and leave a final part of the arguments, and no
call takes a place behind them. -/
theorem runs_leave_suffix (args : List Text) (spec : Text) : (∃ R, (OptParser.new args spec).Runs R ∧ R.2 <:+ args) ∧
    ∀ n, ((fun p : OptParser => p.next.2)^[n] (.new args spec)).index ≤ args.length := by
  refine ⟨⟨_,(OptParser.continues args spec args).1 0 0 rfl,parse_suffix ..⟩,fun n => ?_⟩
  have hinside : OptParser.Inside args ((fun p : OptParser => p.next.2)^[n] (.new args spec)) := by
    induction n with
    | zero => exact ⟨rfl,Nat.zero_le _,Nat.zero_le _⟩
    | succ n ih =>
      rw [Function.iterate_succ_apply']
      exact ih.nextFrom _
  exact hinside.2.2
end Cherubsh.Builtins.Options
