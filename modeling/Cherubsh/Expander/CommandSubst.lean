import Cherubsh.Expander.QuotedWords

/-! # Command substitution

The output loses its newlines at the end first and its NUL bytes then, so a newline with only NUL
bytes behind it stays.
-/
namespace Cherubsh.Expander.CommandSubst
open Utf8 Split Buffer Words Parameters Cuts ExpandBuf List
variable {o l v : Bytes}

def newline : UInt8 := '\n'

def stripNewlines (bytes : Bytes) : Bytes := bytes.rdropWhile fun b => b = newline

def bytesToSubstBuf (bytes : Bytes) (quoted : Bool) : ExpandBuf :=
  let bytes := bytes.filter fun b => b ≠ 0
  if quoted && bytes.isEmpty then new.pushQuotedParamNull
  else if quoted then new.pushQuotedSlice bytes
  else new.pushLiteralSlice bytes

def inputFileSubstitutionWord (src : Text) : Option Text :=
  match Arith.trim src with
  | '<' :: rest =>
    if rest.head?.any (fun c => c ∈ ['<','>','&','(']) then none
    else if (Arith.trim rest).isEmpty then none
    else some (Arith.trim rest)
  | _ => none

def cmdSubstHeredocWarnMarker : Text := "\x1dcherubsh-cmdsubst-heredoc-warn\x1d"

def removeFrom (marker : Text) : ℕ → Text → Text
  | _, [] => []
  | skip + 1, _ :: rest => removeFrom marker skip rest
  | 0, c :: rest => if marker <+: c :: rest then removeFrom marker (marker.length - 1) rest else c :: removeFrom marker 0 rest

structure Runner (S E : Type) where
  runSubst : Text → S → Except (ExpandError E) (Bytes × S)
  runBackquoteSubst : Text → S → Except (ExpandError E) (Bytes × S)
  expandWordList : List WordDesc → ExpandFlags → S → Except (ExpandError E) (List WordDesc × S)
  readFile : S → Text → Option Bytes
  posix : S → Bool
  pushDiagnosticLine : ℕ → S → S
  popDiagnosticLine : S → S
  setStatus : ℕ → S → S
  keepStatus : S → S

section
variable {S E : Type} (R : Runner S E)

def run (backquote : Bool) (src : Text) : S → Except (ExpandError E) (Bytes × S) :=
  if backquote then R.runBackquoteSubst src else R.runSubst src

def pathWord (word : Text) : WordDesc := ⟨word,{ Flags.none with hasDollar := word.any fun c => c = '$' || c = '\x60' }⟩

def pathFlags (s : S) : ExpandFlags := ⟨false,!R.posix s,false,false⟩

/-- The bytes of the file, with the shell behind; none when there is no path or no such file. -/
def readPath (expanded : List WordDesc) (s : S) : Bytes × S :=
  match expanded.head?.bind fun path => R.readFile s path.text with
  | some bytes => (stripNewlines bytes,R.setStatus 0 s)
  | none => ([],R.setStatus 1 s)

def tryInputFileSubstitution (src : Text) (quoted : Bool) (s : S) : Except (ExpandError E) (Option ExpandBuf × S) :=
  match inputFileSubstitutionWord src with
  | none => .ok (none,s)
  | some word => (R.expandWordList [pathWord word] (pathFlags R s) s).map fun p =>
      (some (bytesToSubstBuf (readPath R p.1 p.2).1 quoted),(readPath R p.1 p.2).2)

def lineAt (backquote : Bool) (closeLine : Option ℕ) : Option ℕ := if backquote then none else closeLine

def begin (line : Option ℕ) (s : S) : S := line.elim s fun n => R.pushDiagnosticLine n s
def finish (line : Option ℕ) (s : S) : S := line.elim s fun _ => R.popDiagnosticLine s

def commandSubstitute (src : Text) (quoted backquote : Bool) (closeLine : Option ℕ) (s : S) :
    Except (ExpandError E) (ExpandBuf × S) := do
  let src := removeFrom cmdSubstHeredocWarnMarker 0 src
  let line := lineAt backquote closeLine
  match ← tryInputFileSubstitution R src quoted (begin R line s) with
  | (some buf,s) => return (buf,finish R line s)
  | (none,s) =>
    let (bytes,s) ← run R backquote src s
    return (bytesToSubstBuf (stripNewlines bytes) quoted,R.keepStatus (finish R line s))

inductive Outputs (src : Text) (backquote : Bool) (s : S) : Bytes → Prop
  | command {o : Bytes} {s' : S} (hword : inputFileSubstitutionWord src = none) (hrun : run R backquote src s = .ok (o,s')) :
      Outputs src backquote s o
  | file {word : Text} {path : WordDesc} {more : List WordDesc} {o : Bytes} {s' : S} (hword : inputFileSubstitutionWord src = some word)
      (hpath : R.expandWordList [pathWord word] (pathFlags R s) s = .ok (path :: more,s'))
      (hread : R.readFile s' path.text = some o) : Outputs src backquote s o

theorem commandSubstitute_of_outputs {src : Text} {backquote : Bool} {closeLine : Option ℕ} {s : S}
    (h : Outputs R (removeFrom cmdSubstHeredocWarnMarker 0 src) backquote (begin R (lineAt backquote closeLine) s) o) (quoted : Bool) :
    ∃ s', commandSubstitute R src quoted backquote closeLine s = .ok (bytesToSubstBuf (stripNewlines o) quoted,s') := by
  unfold commandSubstitute tryInputFileSubstitution
  obtain @⟨_,s',hw,hru⟩ | @⟨_,_,_,_,s',hw,hp,hr⟩ := h
  · refine ⟨R.keepStatus (finish R (lineAt backquote closeLine) s'),?_⟩
    simp only [hw]
    show (run R backquote _ _).bind _ = _
    rw [hru]
    rfl
  · refine ⟨finish R (lineAt backquote closeLine) (R.setStatus 0 s'),?_⟩
    simp only [hw,hp,Except.map]
    simp only [readPath,List.head?_cons,Option.bind_some,hr]
    rfl
end

def substituted (o : Bytes) : Bytes := stripNewlines (o.filter fun b => b ≠ 0)

/-- A newline behind which only NUL bytes and newlines stand, with a NUL byte among them. -/
def HidesNewline (o : Bytes) : Prop := ∃ rest, newline :: rest <:+ o ∧ (∀ b ∈ rest, b = 0 ∨ b = newline) ∧ 0 ∈ rest

/-- The bytes of an output from its end. -/
def Hidden (l : Bytes) : Prop := ∃ rest more, l = rest ++ newline :: more ∧ (∀ b ∈ rest, b = 0 ∨ b = newline) ∧ 0 ∈ rest

theorem hidesNewline_iff : HidesNewline o ↔ Hidden o.reverse := by
  constructor
  · rintro ⟨rest,⟨before,rfl⟩,hr,hz⟩
    exact ⟨rest.reverse,before.reverse,by simp,by simpa using hr,by simpa using hz⟩
  · rintro ⟨rest,more,ho,hr,hz⟩
    refine ⟨rest.reverse,⟨more.reverse,?_⟩,by simpa using hr,by simpa using hz⟩
    rw [← o.reverse_reverse,ho]
    simp

theorem hidden_newline_cons : Hidden (newline :: l) ↔ Hidden l := by
  constructor
  · rintro ⟨_ | ⟨b,rest⟩,more,hl,hr,hz⟩
    · cases hz
    · obtain ⟨rfl,rfl⟩ := List.cons.inj hl
      exact ⟨rest,more,rfl,(forall_mem_cons.mp hr).2,(mem_cons.mp hz).resolve_left (by decide)⟩
  · rintro ⟨rest,more,rfl,hr,hz⟩
    exact ⟨newline :: rest,more,rfl,forall_mem_cons.mpr ⟨.inr rfl,hr⟩,mem_cons_of_mem _ hz⟩

theorem hidden_zero_cons : Hidden (0 :: l) ↔ (l.filter fun b => b ≠ 0).head? = some newline := by
  constructor
  · rintro ⟨_ | ⟨b,rest⟩,more,hl,hr,-⟩
    · cases hl
    obtain ⟨rfl,rfl⟩ := List.cons.inj hl
    replace hr := (forall_mem_cons.mp hr).2
    clear hl
    induction rest with
    | nil => rfl
    | cons b rest ih =>
      obtain ⟨rfl | rfl,ht⟩ := forall_mem_cons.mp hr
      · exact ih ht
      · rfl
  · intro h
    obtain ⟨tail,ht⟩ := List.head?_eq_some_iff.mp h
    obtain ⟨rest,more,rfl,hr,-⟩ := filter_eq_cons_iff.mp ht
    refine ⟨0 :: rest,more,rfl,forall_mem_cons.mpr ⟨.inl rfl,fun b hb => .inl ?_⟩,mem_cons_self⟩
    simpa using hr b hb

theorem filter_dropWhile_iff (l : Bytes) : (l.dropWhile fun b => b = newline).filter (fun b => b ≠ 0) =
    (l.filter fun b => b ≠ 0).dropWhile (fun b => b = newline) ↔ ¬Hidden l := by
  induction l with
  | nil => simp [Hidden]
  | cons b l ih =>
    by_cases hn : b = newline
    · subst hn
      rw [hidden_newline_cons,← ih]
      exact Iff.rfl
    by_cases hz : b = 0
    · subst hz
      rw [hidden_zero_cons,dropWhile_cons_of_neg (by decide)]
      show l.filter _ = (l.filter _).dropWhile _ ↔ _
      generalize l.filter (fun b => b ≠ 0) = kept
      cases kept with
      | nil => simp
      | cons c kept =>
        by_cases hc : c = newline
        · subst hc
          simp only [List.head?_cons,not_true_eq_false,iff_false]
          intro heq
          have hle := (dropWhile_suffix (l := kept) fun b => decide (b = newline)).length_le
          have := congrArg List.length heq
          simp only [dropWhile_cons_of_pos,decide_true,length_cons] at this
          omega
        · simp [hc]
    · have hh : ¬Hidden (b :: l) := by
        rintro ⟨_ | ⟨c,rest⟩,more,hl,hr,hm⟩
        · cases hm
        · obtain ⟨rfl,-⟩ := List.cons.inj hl
          exact ((forall_mem_cons.mp hr).1).elim hz hn
      simp [hn,hz,hh]

theorem filter_stripNewlines_iff (o : Bytes) : (stripNewlines o).filter (fun b => b ≠ 0) = substituted o ↔ ¬HidesNewline o := by
  rw [hidesNewline_iff,← filter_dropWhile_iff,filter_reverse]
  simp only [stripNewlines,substituted,List.rdropWhile,filter_reverse]
  exact reverse_inj

theorem getLast?_substituted (o : Bytes) : (substituted o).getLast? ≠ some newline := fun h => by
  have hne : substituted o ≠ [] := fun hn => by simp [hn] at h
  have hl := rdropWhile_last_not (fun b => decide (b = newline)) (o.filter fun b => b ≠ 0) hne
  rw [List.getLast?_eq_some_getLast hne,Option.some.injEq] at h
  exact hl (decide_eq_true h)

section
variable (bytes : Bytes)

def pieces (quoted : Bool) (v : Bytes) : List Piece := if quoted then quoteText v else v.map .plain

theorem bytes_bytesToSubstBuf (quoted : Bool) :
    (bytesToSubstBuf bytes quoted).bytes = write (pieces quoted (bytes.filter fun b => b ≠ 0)) := by
  unfold bytesToSubstBuf pieces quoteText
  generalize bytes.filter (fun b => b ≠ 0) = v
  cases quoted with
  | false => simp [new]
  | true => cases v <;> simp [new,pushQuotedParamNull,Piece.bytes]

theorem dequoteBytes_pieces (hv : 0 ∉ v) (quoted : Bool) : dequoteBytes (write (pieces quoted v)) = v := by
  cases quoted with
  | true => exact dequoteBytes_quoteText hv
  | false =>
    rw [dequoteBytes_write (by simp [pieces])]
    simp [pieces,flatMap_map,Piece.text]

theorem zero_notMem_filter : 0 ∉ bytes.filter fun b => b ≠ 0 := by simp

theorem exists_field_quoteText {ifs : IfsState} (hse : Separated ifs) (hv : 0 ∉ v) {before after : List Piece}
    (hb : Splittable before) (ha : Splittable after) :
    ∃ groups, CutsInto (Delimiter ifs) (Fieldable ifs) (before ++ (quoteText v ++ after)) groups ∧
      split (write (before ++ (quoteText v ++ after))) ifs = groups.map write ∧ ∃ g ∈ groups, quoteText v <:+: g := by
  have hq : Splittable (quoteText v) := fun p hp =>
    ⟨fun h => quoted_zero_notMem_quoteText hv (h ▸ hp),fun h => field_notMem_quoteText v (h ▸ hp)⟩
  have hps : Splittable (before ++ (quoteText v ++ after)) := by
    simp only [Splittable,mem_append]
    rintro p (hp | hp | hp)
    exacts [hb p hp,hq p hp,ha p hp]
  obtain ⟨groups,hc,hs⟩ := split_pieces hse hps
  refine ⟨groups,hc,hs,hc.exists_infix rfl (quoteText_ne_nil v) ?_⟩
  rintro p hp ⟨b,rfl,-⟩
  obtain h | ⟨c,-,h⟩ := mem_quoteText hp <;> cases h
end

/-- The text is the output without NUL bytes and newlines at the end exactly where no newline
hides behind NUL bytes; in double quotes it lies in one field. -/
theorem substitution_text_iff {S E : Type} (R : Runner S E) {src : Text} {backquote : Bool} {closeLine : Option ℕ} {s : S} {o : Bytes}
    (h : Outputs R (removeFrom cmdSubstHeredocWarnMarker 0 src) backquote (begin R (lineAt backquote closeLine) s) o) (quoted : Bool) :
    ∃ buf s' v, commandSubstitute R src quoted backquote closeLine s = .ok (buf,s') ∧ dequoteBytes buf.bytes = v ∧
      (v = substituted o ∧ v.getLast? ≠ some newline ↔ ¬HidesNewline o) ∧
      (quoted = true → buf.bytes = write (quoteText v) ∧ ∀ (value : Option Text) (before after : List Piece), Splittable before →
        Splittable after → ∃ groups, CutsInto (Delimiter (IfsState.fromEnv value)) (Fieldable (IfsState.fromEnv value))
            (before ++ (quoteText v ++ after)) groups ∧
          split (write (before ++ (quoteText v ++ after))) (IfsState.fromEnv value) = groups.map write ∧
          ∃ g ∈ groups, quoteText v <:+: g) := by
  obtain ⟨s',hrun⟩ := commandSubstitute_of_outputs R h quoted
  have hzero := zero_notMem_filter (stripNewlines o)
  refine ⟨_,s',(stripNewlines o).filter fun b => b ≠ 0,hrun,?_,?_,?_⟩
  · rw [bytes_bytesToSubstBuf]
    exact dequoteBytes_pieces hzero quoted
  · rw [← filter_stripNewlines_iff]
    exact ⟨And.left,fun heq => ⟨heq,heq ▸ getLast?_substituted o⟩⟩
  · rintro rfl
    exact ⟨bytes_bytesToSubstBuf _ true,fun value before after => exists_field_quoteText (separated_fromEnv value) hzero⟩

def printer (o : Bytes) : Runner Unit Unit where
  runSubst _ s := .ok (o,s)
  runBackquoteSubst _ s := .ok (o,s)
  expandWordList words _ s := .ok (words,s)
  readFile _ _ := none
  posix _ := false
  pushDiagnosticLine _ s := s
  popDiagnosticLine s := s
  setStatus _ s := s
  keepStatus s := s

/-- `printf 'a\0 b\n\n'` within double quotes. -/
theorem substitution_text_two_newlines : ¬HidesNewline "a\x00 b\n\n".toUTF8.toList ∧
    ∃ buf s' v, commandSubstitute (printer "a\x00 b\n\n".toUTF8.toList) "p" true false (some 1) () = .ok (buf,s') ∧
      dequoteBytes buf.bytes = v ∧ v = substituted "a\x00 b\n\n".toUTF8.toList := by
  have hhidden : ¬HidesNewline "a\x00 b\n\n".toUTF8.toList := (filter_stripNewlines_iff _).mp (by decide +kernel)
  have houtputs : Outputs (printer "a\x00 b\n\n".toUTF8.toList) (removeFrom cmdSubstHeredocWarnMarker 0 "p") false
      (begin (printer "a\x00 b\n\n".toUTF8.toList) (lineAt false (some 1)) ()) "a\x00 b\n\n".toUTF8.toList :=
    .command (by decide +kernel) rfl
  obtain ⟨buf,s',v,hrun,hv,hiff,-⟩ := substitution_text_iff (printer "a\x00 b\n\n".toUTF8.toList) houtputs true
  exact ⟨hhidden,buf,s',v,hrun,hv,(hiff.mpr hhidden).1⟩

/-- `$(printf 'a\n\0')` ends with a newline. -/
theorem substitution_keeps_newline : ∃ buf s', commandSubstitute (printer [0x61,newline,0]) "p" false false none () = .ok (buf,s') ∧
    dequoteBytes buf.bytes = [0x61,newline] ∧ substituted [0x61,newline,0] = [0x61] :=
  ⟨bytesToSubstBuf (stripNewlines [0x61,newline,0]) false,(),by decide +kernel,by decide +kernel,by decide +kernel⟩
end Cherubsh.Expander.CommandSubst
