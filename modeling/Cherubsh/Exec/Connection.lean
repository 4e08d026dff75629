import Cherubsh.Parser.SimpleList
import Mathlib.Data.List.Infix

/-! # Running the tree of a list

At an ampersand the executor has to find the one command it belongs to. The run records what is
started and where.
-/
namespace Cherubsh.Exec
open Cherubsh.Parser List
variable {Cmd : Type*}

inductive Unwind where
  | abortLine (status : ℤ)
  | leave
  deriving DecidableEq

inductive Start (Cmd : Type*) where
  | sync (c : Cmd)
  | background (command : Command Cmd)
  deriving DecidableEq

structure Shell (Cmd : Type*) where
  pending : Option Unwind
  abortLineDepth : ℕ
  started : List (Start Cmd)
open Shell

section
def collectAsyncChain : Command Cmd → List (Command Cmd)
  | .connection first second .amp => collectAsyncChain first ++ collectAsyncChain second
  | command => [command]

def spawnBackground (command : Command Cmd) (s : Shell Cmd) : Shell Cmd :=
  {s with started := s.started ++ [.background command]}

def unlessPending (k : Shell Cmd → Shell Cmd) (s : Shell Cmd) : Shell Cmd :=
  if s.pending.isSome then s else k s

def spawnChain : List (Command Cmd) → Shell Cmd → Shell Cmd
  | [], s => s
  | command :: rest, s => unlessPending (spawnChain rest) (spawnBackground command s)

def endLine (s : Shell Cmd) : Shell Cmd :=
  match s.pending with
  | some (.abortLine _) => if s.abortLineDepth = 0 then {s with pending := none} else s
  | _ => s

variable (unwind : Cmd → Option Unwind)

def runSimple (c : Cmd) (s : Shell Cmd) : Shell Cmd :=
  {s with pending := unwind c,started := s.started ++ [.sync c]}

mutual
def executeCommand : Command Cmd → Shell Cmd → Shell Cmd
  | .null, s => s
  | .simple c, s => unlessPending (runSimple unwind c) s
  | .connection first second .semi, s =>
    unlessPending (fun s => unlessPending (executeCommand second) (executeCommand first s)) s
  | .connection first second .newline, s =>
    unlessPending (fun s => unlessPending (executeCommand second) (endLine (executeCommand first s))) s
  | .connection first second .amp, s =>
    unlessPending (fun s => executeCommand second (executeAmp first s)) s

/-- The left side of an ampersand, reassociated after a `;` or newline. -/
def executeAmp : Command Cmd → Shell Cmd → Shell Cmd
  | .connection first second .amp, s => spawnChain (collectAsyncChain (.connection first second .amp)) s
  | .connection first second .semi, s => unlessPending (executeAmp second) (executeCommand first s)
  | .connection first second .newline, s => unlessPending (executeAmp second) (executeCommand first s)
  | .null, s => spawnBackground .null s
  | .simple c, s => spawnBackground (.simple c) s
end
end

mutual
def starts : Command Cmd → List (Start Cmd)
  | .null => []
  | .simple c => [.sync c]
  | .connection first second .semi => starts first ++ starts second
  | .connection first second .newline => starts first ++ starts second
  | .connection first second .amp => startsAmp first ++ starts second

def startsAmp : Command Cmd → List (Start Cmd)
  | .connection first second .amp => (collectAsyncChain (.connection first second .amp)).map .background
  | .connection first second .semi => starts first ++ startsAmp second
  | .connection first second .newline => starts first ++ startsAmp second
  | .null => [.background .null]
  | .simple c => [.background (.simple c)]
end

def Shell.start (s : Shell Cmd) (new : List (Start Cmd)) : Shell Cmd := {s with started := s.started ++ new}

theorem Shell.start_start (s : Shell Cmd) (xs ys : List (Start Cmd)) : (s.start xs).start ys = s.start (xs ++ ys) := by
  simp [start]

theorem unlessPending_none {s : Shell Cmd} (h : s.pending = none) (k : Shell Cmd → Shell Cmd) :
    unlessPending k s = k s := by
  simp [unlessPending,h]

theorem endLine_none {s : Shell Cmd} (h : s.pending = none) : endLine s = s := by
  simp [endLine,h]

theorem spawnChain_eq (chain : List (Command Cmd)) {s : Shell Cmd} (h : s.pending = none) :
    spawnChain chain s = s.start (chain.map .background) := by
  induction chain generalizing s with
  | nil => simp [spawnChain,start]
  | cons command rest ih =>
    have hn : (spawnBackground command s).pending = none := h
    rw [spawnChain,unlessPending_none hn,ih hn]
    simp [start,spawnBackground]

section
variable {unwind : Cmd → Option Unwind}

theorem runSimple_eq (hr : ∀ c, unwind c = none) (c : Cmd) {s : Shell Cmd} (h : s.pending = none) :
    runSimple unwind c s = s.start [.sync c] := by
  simp [runSimple,start,hr,h]

mutual
theorem executeCommand_eq (hr : ∀ c, unwind c = none) : ∀ (command : Command Cmd) {s : Shell Cmd}, s.pending = none →
    executeCommand unwind command s = s.start (starts command)
  | .null, s, _ => by simp [executeCommand,starts,start]
  | .simple c, s, h => by rw [executeCommand,unlessPending_none h,runSimple_eq hr c h,starts]
  | .connection first second .semi, s, h => by
    have hm : (s.start (starts first)).pending = none := h
    rw [executeCommand,unlessPending_none h,executeCommand_eq hr first h,unlessPending_none hm,
      executeCommand_eq hr second hm,start_start,starts]
  | .connection first second .newline, s, h => by
    have hm : (s.start (starts first)).pending = none := h
    rw [executeCommand,unlessPending_none h,executeCommand_eq hr first h,endLine_none hm,unlessPending_none hm,
      executeCommand_eq hr second hm,start_start,starts]
  | .connection first second .amp, s, h => by
    have hm : (s.start (startsAmp first)).pending = none := h
    rw [executeCommand,unlessPending_none h,executeAmp_eq hr first h,executeCommand_eq hr second hm,
      start_start,starts]

theorem executeAmp_eq (hr : ∀ c, unwind c = none) : ∀ (command : Command Cmd) {s : Shell Cmd}, s.pending = none →
    executeAmp unwind command s = s.start (startsAmp command)
  | .null, s, _ | .simple c, s, _ => by rw [executeAmp,startsAmp]; rfl
  | .connection first second .amp, s, h => by rw [executeAmp,startsAmp,spawnChain_eq _ h]
  | .connection first second .semi, s, h | .connection first second .newline, s, h => by
    have hm : (s.start (starts first)).pending = none := h
    rw [executeAmp,executeCommand_eq hr first h,unlessPending_none hm,executeAmp_eq hr second hm,
      start_start,startsAmp]
end
end

section
variable {ops : List Connector} {op : Connector}

/-- No two ampersands in a row come right after another separator. -/
def Unchained (ops : List Connector) : Prop := ∀ sep, sep ≠ .amp → ¬[sep,.amp,.amp] <:+: ops

theorem suffix_amp_concat (pre : List Connector) :
    pre ++ [.amp] <:+ ops ++ [op] ↔ op = .amp ∧ pre <:+ ops := by
  constructor
  · rintro ⟨xs,hxs⟩
    rw [← append_assoc] at hxs
    obtain ⟨h1,h2⟩ := append_inj' hxs rfl
    exact ⟨(singleton_inj.mp h2).symm,xs,h1⟩
  · rintro ⟨rfl,xs,rfl⟩
    exact ⟨xs,append_assoc .. |>.symm⟩

theorem unchained_concat :
    Unchained (ops ++ [op]) ↔ Unchained ops ∧ (op = .amp → ∀ sep, sep ≠ .amp → ¬[sep,.amp] <:+ ops) := by
  constructor
  · intro h
    refine ⟨fun sep hse hin => h sep hse (hin.trans (prefix_append _ _).isInfix),?_⟩
    intro hop sep hse hsu
    exact h sep hse ((suffix_amp_concat [sep,.amp]).mpr ⟨hop,hsu⟩).isInfix
  · rintro ⟨ho,hn⟩ sep hse hin
    rcases infix_concat_iff.mp hin with hs | hi
    · obtain ⟨hop,hsu⟩ := (suffix_amp_concat [sep,.amp]).mp hs
      exact hn hop sep hse hsu
    · exact ho sep hse hi

theorem unchained_nil : Unchained [] := by
  intro sep _ h
  simpa using h.length_le

theorem unchained_concat_sep (h : op ≠ .amp) : Unchained (ops ++ [op]) ↔ Unchained ops := by
  rw [unchained_concat]
  exact and_iff_left fun hop => absurd hop h

theorem unchained_concat_sep_amp (h : op ≠ .amp) :
    Unchained (ops ++ [op] ++ [.amp]) ↔ Unchained ops := by
  rw [unchained_concat,unchained_concat_sep h]
  refine and_iff_left fun _ sep _ hs => ?_
  exact h ((suffix_amp_concat [sep]).mp hs).1

theorem allAmp_concat : (∀ op ∈ ops ++ [Connector.amp], op = .amp) ↔ ∀ op ∈ ops, op = .amp := by
  constructor
  · exact fun h op hop => h op (mem_append_left _ hop)
  · intro h op hop
    rcases mem_append.mp hop with hop | hop
    · exact h op hop
    · exact mem_singleton.mp hop

theorem unchained_concat_amp_amp : Unchained (ops ++ [.amp] ++ [.amp]) ↔ ∀ op ∈ ops, op = .amp := by
  have hs : ∀ {ops sep}, [sep,.amp] <:+ ops ++ [Connector.amp] ↔ [sep] <:+ ops :=
    fun {ops sep} => (suffix_amp_concat [sep]).trans (and_iff_right rfl)
  induction ops using List.reverseRecOn with
  | nil =>
    refine iff_of_true ?_ (by simp)
    rw [unchained_concat,unchained_concat]
    refine ⟨⟨unchained_nil,fun _ sep _ h => ?_⟩,fun _ sep _ h => ?_⟩
    · simpa using h.length_le
    · simpa using (hs.mp h).length_le
  | append_singleton ops op ih =>
    rw [unchained_concat]
    by_cases hop : op = .amp
    · subst hop
      rw [allAmp_concat]
      refine (and_iff_left fun _ sep hse h => ?_).trans ih
      obtain ⟨xs,hxs⟩ := hs.mp h
      exact hse (singleton_inj.mp (append_inj' hxs rfl).2)
    · refine iff_of_false (fun h => ?_) fun h => hop (h op (by simp))
      exact h.2 rfl op hop (hs.mpr (suffix_append _ _))
end

section
variable (c : Cmd) (rest : List (Connector × Cmd))

def startOf (c : Cmd) (op : Option Connector) : Start Cmd :=
  if op = some .amp then .background (.simple c) else .sync c

def expectedFrom (c : Cmd) : List (Connector × Cmd) → Option Connector → List (Start Cmd)
  | [], last => [startOf c last]
  | (op,d) :: rest, last => startOf c (some op) :: expectedFrom d rest last

def expected (l : CommandList Cmd) : List (Start Cmd) := expectedFrom l.first l.rest l.last

theorem expectedFrom_concat (op : Connector) (d : Cmd) (last : Option Connector) :
    expectedFrom c (rest ++ [(op,d)]) last = expectedFrom c rest (some op) ++ [startOf d last] := by
  induction rest generalizing c with
  | nil => rfl
  | cons p rest ih => exact congrArg _ (ih p.2)

theorem length_expectedFrom (last : Option Connector) :
    (expectedFrom c rest last).length = rest.length + 1 := by
  induction rest generalizing c with
  | nil => rfl
  | cons p rest ih => exact congrArg (· + 1) (ih p.2)

theorem expectedFrom_sync {last : Option Connector}
    (h : last ≠ some .amp) : expectedFrom c rest last = expectedFrom c rest none := by
  induction rest generalizing c with
  | nil => simp [expectedFrom,startOf,h]
  | cons p rest ih => exact congrArg (startOf c (some p.1) :: ·) (ih p.2)

theorem spine_concat (left : Command Cmd) (rest : List (Connector × Cmd)) (op : Connector) (d : Cmd) :
    spine left (rest ++ [(op,d)]) = .connection (spine left rest) (.simple d) op := by
  simp [spine,connect]

theorem chain_eq_iff :
    (collectAsyncChain (spine (.simple c) rest)).map Start.background = expectedFrom c rest (some .amp) ↔
      ∀ op ∈ rest.map Prod.fst, op = .amp := by
  induction rest using List.reverseRecOn with
  | nil => simp [spine,collectAsyncChain,expectedFrom,startOf]
  | append_singleton rest p ih =>
    obtain ⟨op,d⟩ := p
    rw [spine_concat,expectedFrom_concat]
    by_cases hop : op = .amp
    · subst hop
      have hla : (collectAsyncChain (.simple d)).map Start.background = [startOf d (some .amp)] := rfl
      rw [collectAsyncChain,map_append,hla,append_left_inj,ih,map_append]
      exact allAmp_concat.symm
    · have ho : ∀ t : Command Cmd, collectAsyncChain (.connection t (.simple d) op) =
          [.connection t (.simple d) op] := by
        intro t
        cases op <;> first | rfl | exact absurd rfl hop
      refine iff_of_false (fun h => ?_) fun h => hop (h op (by simp))
      have hl := congrArg List.length h
      rw [ho,length_append,length_expectedFrom] at hl
      simp only [map_cons,map_nil,length_cons,length_nil] at hl
      omega

theorem starts_spine_iff :
    (starts (spine (.simple c) rest) = expectedFrom c rest none ↔ Unchained (rest.map Prod.fst)) ∧
      (startsAmp (spine (.simple c) rest) = expectedFrom c rest (some .amp) ↔
        Unchained (rest.map Prod.fst ++ [.amp])) := by
  induction rest using List.reverseRecOn with
  | nil =>
    refine ⟨iff_of_true rfl unchained_nil,iff_of_true rfl ?_⟩
    refine unchained_concat.mpr ⟨unchained_nil,fun _ sep _ h => ?_⟩
    simpa using h.length_le
  | append_singleton rest p ih =>
    obtain ⟨op,d⟩ := p
    obtain ⟨ih1,ih2⟩ := ih
    rw [spine_concat,expectedFrom_concat,expectedFrom_concat,map_append,map_cons,map_nil]
    by_cases hop : op = .amp
    · subst hop
      refine ⟨?_,?_⟩
      · rw [starts,starts,startOf,if_neg (by decide),append_left_inj]
        exact ih2
      · rw [startsAmp,unchained_concat_amp_amp,← spine_concat,← expectedFrom_concat,chain_eq_iff,
          map_append]
        exact allAmp_concat
    · have hs : ∀ t : Command Cmd, starts (.connection t (.simple d) op) = starts t ++ [.sync d] ∧
          startsAmp (.connection t (.simple d) op) = starts t ++ [.background (.simple d)] := by
        intro t
        cases op <;> first | exact ⟨rfl,rfl⟩ | exact absurd rfl hop
      have hsy : some op ≠ some Connector.amp := fun h => hop (Option.some.inj h)
      rw [(hs _).1,(hs _).2,expectedFrom_sync c rest hsy,unchained_concat_sep hop,
        unchained_concat_sep_amp hop]
      exact ⟨(append_left_inj _).trans ih1,(append_left_inj _).trans ih1⟩

/-- Running a parsed list starts what was written, in order and place, exactly if no chain of
ampersands begins after another separator. -/
theorem execute_parsed_list_iff (unwind : Cmd → Option Unwind) (hret : ∀ c, unwind c = none) (l : CommandList Cmd)
    (ending : Ending) (after : List (Token Cmd)) (depth : ℕ) :
    (∃ tree rest, parseSimpleListUntil (l.render ending after) = some (tree,rest) ∧
      (executeCommand unwind tree ⟨none,depth,[]⟩).started = expected l) ↔
    ∀ sep, sep ≠ Connector.amp → ¬[sep,.amp,.amp] <:+: l.ops := by
  have hrun : ∀ tree : Command Cmd, (executeCommand unwind tree ⟨none,depth,[]⟩).started = starts tree := by
    intro tree
    rw [executeCommand_eq hret tree rfl]
    exact nil_append _
  have hparse := parse_render l ending after
  trans starts l.tree = expected l
  · constructor
    · rintro ⟨tree,rest,hp,hs⟩
      rw [hparse,Option.some.injEq,Prod.mk.injEq] at hp
      rw [hp.1,← hrun,hs]
    · exact fun h => ⟨l.tree,_,hparse,(hrun _).trans h⟩
  · obtain ⟨h1,h2⟩ := starts_spine_iff l.first l.rest
    change _ ↔ Unchained l.ops
    by_cases hlast : l.last = some .amp
    · have htree : starts l.tree = startsAmp (spine (.simple l.first) l.rest) := by
        rw [CommandList.tree,hlast]
        exact append_nil _
      rw [htree,expected,CommandList.ops,hlast]
      exact h2
    · have htree : l.tree = spine (.simple l.first) l.rest := by
        rw [CommandList.tree]
        split
        · next h => exact absurd h hlast
        · rfl
      have hops : Unchained l.ops ↔ Unchained (l.rest.map Prod.fst) := by
        rw [CommandList.ops]
        cases hl : l.last with
        | none => rw [Option.toList_none,append_nil]
        | some op => exact unchained_concat_sep fun h => hlast (by rw [hl,h])
      rw [htree,expected,expectedFrom_sync _ _ hlast,hops]
      exact h1

/-- `a & b ; c &` starts `a` and `c` in the background and `b` in the shell. -/
theorem execute_parsed_list_mixed :
    ∃ tree rest, parseSimpleListUntil
        ((⟨0,[(.amp,1),(.semi,2)],some .amp⟩ : CommandList ℕ).render .eof []) = some (tree,rest) ∧
      (executeCommand (fun _ => none) tree ⟨none,0,[]⟩).started =
        [.background (.simple 0),.sync 1,.background (.simple 2)] := by
  refine (execute_parsed_list_iff (fun _ => none) (fun _ => rfl) ⟨0,[(.amp,1),(.semi,2)],some .amp⟩ .eof [] 0).mpr ?_
  intro sep
  cases sep <;> decide

/-- `a ; b & c & d`: the chain takes `a ; b` as one command, so `a` runs in the background. -/
theorem execute_parsed_list_takes_sync :
    ¬∃ tree rest, parseSimpleListUntil
        ((⟨0,[(.semi,1),(.amp,2),(.amp,3)],none⟩ : CommandList ℕ).render .eof []) = some (tree,rest) ∧
      (executeCommand (fun _ => none) tree ⟨none,0,[]⟩).started =
        [.sync 0,.background (.simple 1),.background (.simple 2),.sync 3] := by
  rintro ⟨tree,rest,hp,hs⟩
  cases hp
  cases hs
end

def simples : Command Cmd → List Cmd
  | .null => []
  | .simple c => [c]
  | .connection first second _ => simples first ++ simples second

def Start.simples : Start Cmd → List Cmd
  | .sync c => [c]
  | .background command => Exec.simples command

theorem simples_chain (command : Command Cmd) : (collectAsyncChain command).flatMap simples = simples command := by
  fun_induction collectAsyncChain command with
  | case1 first second ih₁ ih₂ => simp [simples,ih₁,ih₂]
  | case2 => simp

mutual
theorem simples_starts : ∀ command : Command Cmd, (starts command).flatMap Start.simples = simples command
  | .null | .simple _ => rfl
  | .connection first second op => by
    cases op <;> simp [starts,simples,simples_starts first,simples_startsAmp first,simples_starts second]

theorem simples_startsAmp : ∀ command : Command Cmd, (startsAmp command).flatMap Start.simples = simples command
  | .null | .simple _ => rfl
  | .connection first second op => by
    have hc := simples_chain (.connection first second .amp)
    cases op <;> simp_all [startsAmp,flatMap_map,Start.simples,simples,simples_starts first,simples_startsAmp second]
end

/-- However the commands are grouped, each of them is started once and in order. -/
theorem executeCommand_starts_each {unwind : Cmd → Option Unwind} (hr : ∀ c, unwind c = none) (command : Command Cmd)
    {s : Shell Cmd} (hs : s.pending = none) : (executeCommand unwind command s).started.flatMap Start.simples =
      s.started.flatMap Start.simples ++ simples command := by
  rw [executeCommand_eq hr command hs,start,flatMap_append,simples_starts]

/-- `a ; b & c & d` -/
theorem executeCommand_starts_four : (executeCommand (fun _ => none) (spine (.simple 0) [(.semi,1),(.amp,2),(.amp,3)])
    ⟨none,0,[]⟩).started.flatMap Start.simples = [0,1,2,3] :=
  executeCommand_starts_each (fun _ => rfl) _ rfl
end Cherubsh.Exec
