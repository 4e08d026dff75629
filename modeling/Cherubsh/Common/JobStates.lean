import Cherubsh.Common.JobsConsistent

/-! # Job numbers, markers and states

The markers of the current and previous job are set in place when a job is added or stopped, and found
again from all the jobs when one leaves the table or a marked one is done. The state of a job is changed
with one of its processes and does not look at the others.
-/
namespace Cherubsh.Common.Jobs
open GuardedRun JobTable List
variable {t t' : JobTable} {id : JobId} {f : Job → Job} {j : Job} {pid : Pid}

def JobOp.ofTable : JobOp → Bool
  | .add .. | .markDead .. | .markStopped .. | .markRunning .. | .markJobRunning .. | .remove .. | .purgeDone
  | .pendingNotifications => true
  | _ => false

abbrev TableOp := {op : JobOp // op.ofTable}

def tableStep (t : JobTable) (op : TableOp) : JobTable := jobStep t op

/-- Numbers are distinct, and the markers name two jobs of the table, the first one whenever a job is not done. -/
structure MarkersRight (t : JobTable) : Prop where
  ids : (t.jobs.map Job.id).Nodup
  current : ∀ id ∈ t.current, id ∈ t.jobs.map Job.id
  previous : ∀ id ∈ t.previous, id ∈ t.jobs.map Job.id ∧ t.current ≠ some id
  active : ∀ j ∈ t.jobs, j.state ≠ .done → t.current.isSome

/-- Beside them, the map leads to jobs with the process, and a job is done with all its processes. -/
structure Marked (t : JobTable) : Prop extends MarkersRight t where
  found : ∀ pid id, t.pidToJob pid = some id → ∃ j ∈ t.jobs, j.id = id ∧ pid ∈ j.pids
  ended : ∀ j ∈ t.jobs, j.state = .done → AllDone j

theorem markersRight_reset (h : (t.jobs.map Job.id).Nodup) : MarkersRight t.resetCurrentPrevious := by
  obtain ⟨js,hc,hp,⟨l,hl,hs⟩,ha⟩ : ∃ js : List Job, t.resetCurrentPrevious.current = (js.map Job.id).getLast? ∧
      t.resetCurrentPrevious.previous = (js.map Job.id).dropLast.getLast? ∧ js <+~ t.jobs ∧
      (js = [] → ∀ j ∈ t.jobs, j.state = .done) := by
    unfold resetCurrentPrevious
    have hp := filter_append_perm (fun j : Job => j.state ≠ .stopped) (t.jobs.filter fun j => j.state ≠ .done)
    simp only [ne_eq,decide_not,Bool.not_not] at hp ⊢
    split
    · rename_i he
      rw [he,nil_perm,filter_eq_nil_iff] at hp
      exact ⟨_,rfl,rfl,filter_sublist.subperm,fun _ => by simpa using hp⟩
    · exact ⟨_,rfl,rfl,hp.subperm.trans filter_sublist.subperm,fun hn => absurd hn ‹_›⟩
  have hn : (js.map Job.id).Nodup := (hl.map _).nodup_iff.mp (h.sublist (hs.map _))
  have hm : ∀ id ∈ js.map Job.id, id ∈ t.jobs.map Job.id := fun id hi => (hs.map _).subset ((hl.map _).mem_iff.mpr hi)
  refine ⟨h,fun id hi => hm id (mem_of_getLast? (hc ▸ hi)),fun id hi => ?_,fun j hj hd => ?_⟩
  · have hi' := mem_of_getLast? (hp ▸ hi)
    refine ⟨hm id (dropLast_subset _ hi'),fun hcu => ?_⟩
    rw [hc] at hcu
    rw [← dropLast_append_getLast? id hcu] at hn
    grind
  · rw [hc,getLast?_isSome,ne_eq,map_eq_nil_iff]
    exact fun hn => hd (ha hn j hj)

section
variable (h : Marked t)
include h

theorem Marked.update (hk : Keeps f) (hj : t'.jobs = updateJob id f t.jobs) (hm : t'.pidToJob = t.pidToJob)
    (hr : MarkersRight t') : Marked t' := by
  rw [updateJob_eq_map h.ids] at hj
  refine ⟨hr,fun pid id hp => ?_,fun j hj' => ?_⟩
  · have := h.found pid id
    grind [Keeps]
  · have := h.ended
    grind [Keeps]

theorem map_updateJob (hk : Keeps f) : (updateJob id f t.jobs).map Job.id = t.jobs.map Job.id := by
  rw [updateJob_eq_map h.ids,map_map]
  exact map_congr_left fun j _ => by grind [Keeps]

/-- The markers stay where they are while no job comes back that was done. -/
theorem Marked.update_unmarked (hk : Keeps f) (hs : ∀ j, AllDone j → j.state = .done → (f j).state = .done)
    (hj : t'.jobs = updateJob id f t.jobs) (hm : t'.pidToJob = t.pidToJob) (hc : t'.current = t.current)
    (hp : t'.previous = t.previous) : Marked t' := by
  have hi : t'.jobs.map Job.id = t.jobs.map Job.id := hj ▸ map_updateJob h hk
  refine h.update hk hj hm ⟨hi ▸ h.ids,hi ▸ hc ▸ h.current,hi ▸ hc ▸ hp ▸ h.previous,?_⟩
  rw [updateJob_eq_map h.ids] at hj
  have := h.active
  have := h.ended
  grind

theorem Marked.removed {leaves : Job → Bool} (hr : Removes t t' leaves) (hu : ∃ u, t' = resetCurrentPrevious u) : Marked t' := by
  obtain ⟨u,rfl⟩ := hu
  have hj : u.jobs = _ := hr.jobs
  refine ⟨markersRight_reset (hj ▸ h.ids.sublist (filter_sublist.map _)),fun pid id hp => ?_,fun j _ => ?_⟩
  · have := h.found pid id
    have := hr.gone
    have := hr.kept pid
    grind [Job.pids,resetCurrentPrevious]
  · have := h.ended j
    grind [resetCurrentPrevious]

theorem Marked.markDead (pid : Pid) (statusRaw : Status) : Marked (t.markDead pid statusRaw) := by
  have hk := keeps_endProcess pid statusRaw
  have hs : ∀ j, AllDone j → j.state = .done → (endProcess pid statusRaw j).state = .done := by grind [endProcess]
  unfold JobTable.markDead
  split
  · exact h
  dsimp only
  split
  · split
    · exact h.update hk rfl rfl (markersRight_reset (map_updateJob h hk ▸ h.ids))
    · exact h.update_unmarked hk hs rfl rfl rfl rfl
  · exact h.update_unmarked hk hs rfl rfl rfl rfl

theorem Marked.markStopped (pid : Pid) (stopSig : ℕ) : Marked (t.markStopped pid stopSig) := by
  have hk := keeps_stopProcess pid stopSig
  unfold JobTable.markStopped
  split
  · exact h
  rename_i id hm
  have hi : (updateJob id (stopProcess pid stopSig) t.jobs).map Job.id = t.jobs.map Job.id := map_updateJob h hk
  obtain ⟨k,hk',rfl,-⟩ := h.found pid id hm
  dsimp only
  split
  · rename_i hc
    refine h.update hk rfl rfl ⟨hi ▸ h.ids,?_,fun id hp => ⟨hi ▸ h.current id hp,fun he => hc (hp.trans he.symm)⟩,fun _ _ _ => rfl⟩
    rintro _ ⟨⟩
    exact hi ▸ mem_map_of_mem hk'
  · exact h.update hk rfl rfl ⟨hi ▸ h.ids,hi ▸ h.current,hi ▸ h.previous,by simp_all⟩

theorem Marked.markJobRunning (id : JobId) : Marked (t.markJobRunning id) :=
  h.update_unmarked keeps_continueJob (by grind [continueJob,continueProcesses,AllDone]) rfl rfl rfl rfl

theorem Marked.remove (id : JobId) : Marked (t.remove id) := by
  refine h.removed (removes_remove h.ids id) ?_
  unfold JobTable.remove
  split <;> exact ⟨_,rfl⟩

theorem Marked.purgeDone : Marked t.purgeDone := by
  by_cases hp : t.jobs.filter purgeable = []
  · have hf : t.jobs.filter (fun j => !purgeable j) = t.jobs :=
      filter_eq_self.mpr fun j hj => by simpa using filter_eq_nil_iff.mp hp j hj
    have he : t.purgeDone = t := by
      unfold JobTable.purgeDone
      rw [if_pos hp,hp,hf,foldl_nil]
    rwa [he]
  · exact h.removed (removes_purgeDone t) ⟨_,if_neg hp⟩

theorem Marked.pendingNotifications : Marked t.pendingNotifications := by
  have hi : t.pendingNotifications.jobs.map Job.id = t.jobs.map Job.id := by
    rw [JobTable.pendingNotifications,map_map]
    exact map_congr_left fun j _ => by grind
  refine ⟨⟨hi ▸ h.ids,hi ▸ h.current,hi ▸ h.previous,?_⟩,fun pid id hp => ?_,?_⟩
  · have := h.active
    grind [JobTable.pendingNotifications]
  · obtain ⟨j,hj,rfl,hpid⟩ := h.found pid id hp
    refine ⟨_,mem_map_of_mem hj,?_⟩
    split <;> exact ⟨rfl,hpid⟩
  · have := h.ended
    grind [JobTable.pendingNotifications,AllDone]

theorem Marked.add (pgid leaderPid : Pid) (commandLine : Text) (asyncFlag jobControl : Bool) (processes : List Process) :
    Marked (t.add pgid leaderPid commandLine asyncFlag jobControl processes) := by
  have hl := (isLeast_allocateId t).1.2
  refine ⟨⟨by simpa [JobTable.add] using nodup_add h.ids,?_,fun id hp => ?_,fun _ _ _ => rfl⟩,fun pid id hp => ?_,fun j hj hd => ?_⟩
  · rintro _ ⟨⟩
    simp [JobTable.add]
  · have := h.current id hp
    grind [JobTable.add]
  · simp only [JobTable.add,foldl_update] at hp ⊢
    split at hp
    · cases hp
      exact ⟨_,mem_concat_self,rfl,‹_›⟩
    · obtain ⟨j,hj,hid⟩ := h.found pid id hp
      exact ⟨j,mem_append_left _ hj,hid⟩
  · have := h.ended j
    grind [JobTable.add]

theorem Marked.step (op : TableOp) : Marked (tableStep t op) := by
  obtain ⟨op,ho⟩ := op
  cases op with
  | add => exact h.add ..
  | remove => exact h.remove _
  | markDead => exact h.markDead ..
  | markStopped => exact h.markStopped ..
  | markRunning pid =>
    show Marked (t.markRunning pid)
    unfold markRunning
    split
    · exact h
    · exact h.markJobRunning _
  | markJobRunning => exact h.markJobRunning _
  | purgeDone => exact h.purgeDone
  | pendingNotifications => exact h.pendingNotifications
  | _ => cases ho

theorem Marked.run (ops : List TableOp) : Marked (run tableStep t ops) := by
  induction ops generalizing t with
  | nil => exact h
  | cons op ops ih => exact ih (h.step op)
end

theorem marked_new : Marked new := ⟨⟨nodup_nil,by simp [new],by simp [new],by simp [new]⟩,by simp [new],by simp [new]⟩

/-- After every run of the operations of the table numbers and markers are right, and a job that is added
takes the least number that is free. -/
theorem markers_right (ops : List TableOp) : MarkersRight (run tableStep new ops) ∧
    ∀ pgid leaderPid commandLine asyncFlag jobControl processes, ∃ job : Job,
      ((run tableStep new ops).add pgid leaderPid commandLine asyncFlag jobControl processes).jobs =
        (run tableStep new ops).jobs ++ [job] ∧
        IsLeast {n : ℕ | 1 ≤ n ∧ n ∉ (run tableStep new ops).jobs.map Job.id} job.id :=
  ⟨(marked_new.run ops).toMarkersRight,fun _ _ _ _ _ _ => ⟨_,rfl,isLeast_allocateId _⟩⟩

/-- The state of a job and its exit status are those its processes give it. -/
def Follows (j : Job) : Prop :=
  (j.state = .done ↔ AllDone j) ∧ (j.state = .running ↔ ∃ p ∈ j.processes, p.state = .running) ∧
    (j.state = .done → j.exitStatus = j.processes.getLast?.map fun p => decodeStatus p.statusRaw)

def OthersRest (pid : Pid) (j : Job) : Prop := ∀ p ∈ j.processes, p.pid ≠ pid → p.state ≠ .running

/-- A process may end beside stopped ones only while another one runs, and not twice with two statuses. -/
def EndsWell (pid : Pid) (statusRaw : Status) (j : Job) : Prop :=
  (j.state = .running → OthersRest pid j → ∀ p ∈ j.processes, p.pid ≠ pid → p.state = .done) ∧
    (j.state = .done → ∀ p ∈ j.processes.getLast?, p.pid = pid → decodeStatus p.statusRaw = decodeStatus statusRaw)

def StateSafe (t : JobTable) (op : TableOp) : Prop :=
  match op.val with
  | .add _ _ _ _ _ processes => ∃ p ∈ processes, p.state = .running
  | .markDead pid statusRaw => ∀ j ∈ t.jobs, t.pidToJob pid = some j.id → EndsWell pid statusRaw j
  | .markStopped pid _ => ∀ j ∈ t.jobs, t.pidToJob pid = some j.id → OthersRest pid j
  | _ => True

theorem follows_stopProcess (hp : pid ∈ j.pids) (stopSig : ℕ) : Follows (stopProcess pid stopSig j) ↔ OthersRest pid j := by
  obtain ⟨q,hq,rfl⟩ := mem_map.mp hp
  constructor
  · rintro ⟨-,hf,-⟩
    grind [stopProcess,OthersRest]
  · intro ho
    refine ⟨iff_of_false (fun hs => by cases hs) fun hd => ?_,?_,?_⟩
    · have := hd _ (mem_map_of_mem hq)
      simp at this
    · grind [stopProcess,OthersRest]
    · grind [stopProcess]

theorem follows_endProcess (h : Follows j) (hp : pid ∈ j.pids) (statusRaw : Status) :
    Follows (endProcess pid statusRaw j) ↔ EndsWell pid statusRaw j := by
  obtain ⟨q,hq,rfl⟩ := mem_map.mp hp
  obtain ⟨hfd,hfr,hfe⟩ := h
  constructor
  · rintro ⟨-,hf,he⟩
    constructor <;> grind [endProcess,OthersRest,AllDone]
  · rintro ⟨hr,hd⟩
    refine ⟨?_,?_,?_⟩
    · grind [endProcess,OthersRest,AllDone]
    · grind [endProcess,OthersRest,AllDone]
    · have := getLast?_eq_some_getLast (ne_nil_of_mem hq)
      grind [endProcess,AllDone]

theorem Follows.continueJob (h : Follows j) : Follows (continueJob j) := by
  unfold JobTable.continueJob
  dsimp only
  split
  · rename_i hr
    obtain ⟨p,hp,hpr⟩ := any_eq_true.mp hr
    refine ⟨iff_of_false (by simp) fun hd => ?_,iff_of_true rfl ⟨p,hp,by simpa using hpr⟩,by simp⟩
    simp [hd p hp] at hpr
  · rename_i hr
    -- no process was stopped, so that none is changed
    have hc : continueProcesses j.processes = j.processes := by
      refine (map_congr_left fun p hp => if_neg fun hs => hr ?_).trans (map_id' _)
      exact any_eq_true.mpr ⟨_,mem_map_of_mem hp,by simp [hs]⟩
    rwa [hc]

def changed (t : JobTable) (pid : Pid) (f : Job → Job) : List Job :=
  (t.pidToJob pid).elim t.jobs fun id => updateJob id f t.jobs

theorem jobs_markDead (t : JobTable) (pid : Pid) (statusRaw : Status) :
    (t.markDead pid statusRaw).jobs = changed t pid (endProcess pid statusRaw) := by
  grind [markDead,changed,resetCurrentPrevious]

theorem jobs_markStopped (t : JobTable) (pid : Pid) (stopSig : ℕ) :
    (t.markStopped pid stopSig).jobs = changed t pid (stopProcess pid stopSig) := by
  grind [markStopped,changed]

theorem jobs_markRunning (t : JobTable) (pid : Pid) : (t.markRunning pid).jobs = changed t pid continueJob := by
  grind [markRunning,markJobRunning,changed]

theorem follows_step (h : Marked t) (hf : ∀ j ∈ t.jobs, Follows j) (op : TableOp) :
    (∀ j ∈ (tableStep t op).jobs, Follows j) ↔ StateSafe t op := by
  have hu : ∀ {f : Job → Job} {id}, (∀ j ∈ updateJob id f t.jobs, Follows j) ↔ ∀ j ∈ t.jobs, id = j.id → Follows (f j) := by
    intro f id
    rw [updateJob_eq_map h.ids,forall_mem_map]
    refine forall₂_congr fun j hj => ?_
    have := hf j hj
    grind
  have hm : ∀ {f : Job → Job} {pid}, (∀ j ∈ changed t pid f, Follows j) ↔ ∀ j ∈ t.jobs, t.pidToJob pid = some j.id →
    Follows (f j) := by
    intro f pid
    unfold changed
    cases t.pidToJob pid with
    | none => simpa using hf
    | some id => simpa using hu
  have hp : ∀ {pid j}, j ∈ t.jobs → t.pidToJob pid = some j.id → pid ∈ j.pids := by
    intro pid j hj hp
    obtain ⟨k,hk,he,hpi⟩ := h.found pid j.id hp
    rwa [inj_on_of_nodup_map h.ids hk hj he] at hpi
  obtain ⟨op,ho⟩ := op
  cases op with
  | add pgid leaderPid commandLine asyncFlag jobControl processes =>
    show (∀ j ∈ t.jobs ++ [_],Follows j) ↔ ∃ p ∈ processes, p.state = .running
    rw [forall_mem_append,and_iff_right hf,forall_mem_singleton]
    refine ⟨fun hj => hj.2.1.mp rfl,fun hx => ⟨iff_of_false (by simp) fun hd => ?_,iff_of_true rfl hx,by simp⟩⟩
    obtain ⟨p,hp,hr⟩ := hx
    simp [hd p hp] at hr
  | remove id => exact iff_of_true (fun j hj => hf j (mem_of_mem_filter ((removes_remove h.ids id).jobs ▸ hj))) trivial
  | purgeDone => exact iff_of_true (fun j hj => hf j (mem_of_mem_filter ((removes_purgeDone t).jobs ▸ hj))) trivial
  | pendingNotifications =>
    refine iff_of_true (forall_mem_map.mpr fun j hj => ?_) trivial
    have := hf j hj
    grind [Follows,AllDone]
  | markDead pid statusRaw =>
    show (∀ j ∈ (t.markDead pid statusRaw).jobs, Follows j) ↔ _
    rw [jobs_markDead,hm]
    exact forall₃_congr fun j hj hj' => follows_endProcess (hf j hj) (hp hj hj') statusRaw
  | markStopped pid stopSig =>
    show (∀ j ∈ (t.markStopped pid stopSig).jobs, Follows j) ↔ _
    rw [jobs_markStopped,hm]
    exact forall₃_congr fun j hj hj' => follows_stopProcess (hp hj hj') stopSig
  | markRunning pid => exact iff_of_true (jobs_markRunning t pid ▸ hm.mpr fun j hj _ => (hf j hj).continueJob) trivial
  | markJobRunning id => exact iff_of_true (hu.mpr fun j hj _ => (hf j hj).continueJob) trivial
  | _ => cases ho

/-- Every job follows its processes throughout exactly when a job is added with a process that runs, a
process is stopped only while no other one of its job runs, and each one ends well. -/
theorem follows_iff (ops : List TableOp) :
    (∀ n, ∀ j ∈ (run tableStep new (ops.take n)).jobs, Follows j) ↔ Guarded tableStep StateSafe new ops := by
  have hp : ∀ t, Guarded tableStep (fun _ _ => True) t ops := by
    induction ops with
    | nil => exact fun _ => trivial
    | cons op ops ih => exact fun t => ⟨trivial,ih _⟩
  exact guarded_iff_prefixes (I := fun t => Marked t ∧ ∀ j ∈ t.jobs, Follows j) (fun _ h => h.2)
    (fun _ op h _ hs => ⟨h.1.step op,(follows_step h.1 h.2 op).mpr hs⟩) (fun _ op h _ hg => (follows_step h.1 h.2 op).mp hg)
    ⟨marked_new,by simp [new]⟩ (hp new)

/-- One process of two is stopped, and its job with it. -/
theorem stopped_beside_running : ¬∀ j ∈ (run tableStep new
    [⟨.add 100 100 "sleep".toList true true [process100,{ process100 with pid := 101 }],rfl⟩,⟨.markStopped 100 19,rfl⟩]).jobs,
    Follows j := by
  intro h
  cases (h _ mem_cons_self).2.1.mpr ⟨_,mem_cons_of_mem _ mem_cons_self,rfl⟩
end Cherubsh.Common.Jobs
