import Cherubsh.Common.Jobs
import Cherubsh.Library.GuardedRun
import Mathlib.Data.Finset.Card
import Mathlib.Order.Bounds.Defs

/-! # Finding jobs by the numbers of their processes

The map from process numbers to jobs is right for every process that has not ended, as long as no
number of a job that leaves the table is in use again by a job that stays.
-/
namespace Cherubsh.Common.Jobs
open GuardedRun Process JobTable List
variable {j : Job} {id : JobId} {jobs : List Job} {processes : List Process}

section
variable (t : JobTable)

/-- Looking up the number of a process that has not ended gives its job. -/
def Good : Prop :=
  ∀ j ∈ t.jobs, ∀ p ∈ j.processes, p.state ≠ .done → (t.jobOfPid p.pid).bind t.get = some j

/-- The operating system gives a number to a new process only when no process that has
not ended has it. -/
def FreshPids : JobOp → Prop
  | .add _ _ _ _ _ processes =>
    ∀ j ∈ t.jobs, ∀ p ∈ j.processes, p.state ≠ .done → p.pid ∉ processes.map pid
  | _ => True

/-- No job that stays has a process that has not ended under a number of a job that leaves. -/
def SafeRemoval (leaves : Job → Bool) : Prop :=
  ∀ j ∈ t.jobs, leaves j = false → ∀ p ∈ j.processes, p.state ≠ .done →
    ∀ k ∈ t.jobs, leaves k → p.pid ∉ k.processes.map pid

def Safe : JobOp → Prop
  | .remove id => SafeRemoval t (fun j => j.id = id)
  | .purgeDone => SafeRemoval t purgeable
  | .disown all runningOnly false specs => SafeRemoval t (fun j => j.id ∈ t.disowned all runningOnly specs)
  | _ => True

instance (t : JobTable) : Decidable (Good t) := by unfold Good; infer_instance
instance (t : JobTable) (leaves : Job → Bool) : Decidable (SafeRemoval t leaves) := by
  unfold SafeRemoval; infer_instance
instance (t : JobTable) (op : JobOp) : Decidable (FreshPids t op) := by
  cases op <;> unfold FreshPids <;> infer_instance
instance (t : JobTable) (op : JobOp) : Decidable (Safe t op) := by
  unfold Safe; split <;> infer_instance
end

/-- Job numbers are distinct and the map is right for the processes that have not ended. -/
structure Consistent (t : JobTable) : Prop where
  ids : (t.jobs.map Job.id).Nodup
  live : ∀ j ∈ t.jobs, ∀ p ∈ j.processes, p.state ≠ .done → t.pidToJob p.pid = some j.id

namespace Consistent
variable {t t' : JobTable}

theorem congr (h : Consistent t) (hj : t'.jobs = t.jobs) (hm : t'.pidToJob = t.pidToJob) : Consistent t' :=
  ⟨hj ▸ h.ids,by rw [hj,hm]; exact h.live⟩

theorem get_eq (h : Consistent t) (hj : j ∈ t.jobs) : t.get j.id = some j := by
  unfold JobTable.get
  have hs : (t.jobs.find? (fun k => k.id = j.id)).isSome := List.find?_isSome.mpr ⟨j,hj,by simp⟩
  obtain ⟨k,hk⟩ := Option.isSome_iff_exists.mp hs
  have hid : k.id = j.id := by simpa using List.find?_some hk
  rw [hk,inj_on_of_nodup_map h.ids (mem_of_find?_eq_some hk) hj hid]

theorem good (h : Consistent t) : Good t := by
  intro j hj p hp hl
  rw [jobOfPid,h.live j hj p hp hl]
  exact h.get_eq hj

theorem new : Consistent JobTable.new := ⟨nodup_nil,by simp [JobTable.new]⟩
end Consistent

def Job.pids (j : Job) : List Pid := j.processes.map Process.pid

def AllDone (j : Job) : Prop := ∀ p ∈ j.processes, p.state = .done

/-- What the operations on one job leave as it is. -/
structure Keeps (f : Job → Job) : Prop where
  id : ∀ j, (f j).id = j.id
  pids : ∀ j, (f j).pids = j.pids
  ended : ∀ j, (j.state = .done → AllDone j) → (f j).state = .done → AllDone (f j)

theorem keeps_endProcess (pid : Pid) (statusRaw : Status) : Keeps (endProcess pid statusRaw) := by
  refine ⟨fun j => ?_,fun j => ?_,fun j hd hs p hp => ?_⟩
  · grind [endProcess]
  · simp only [endProcess,Job.pids]
    split <;> simp [Function.comp_def,apply_ite]
  · grind [endProcess,AllDone]

theorem keeps_stopProcess (pid : Pid) (stopSig : ℕ) : Keeps (stopProcess pid stopSig) := by
  refine ⟨fun _ => rfl,fun j => ?_,fun j _ hs => by cases hs⟩
  simp [Job.pids,stopProcess,Function.comp_def,apply_ite]

theorem keeps_continueJob : Keeps continueJob := by
  refine ⟨fun j => ?_,fun j => ?_,fun j hd hs p hp => ?_⟩
  · grind [continueJob]
  · simp only [continueJob,Job.pids]
    split <;> simp [continueProcesses,Function.comp_def,apply_ite]
  · grind [continueJob,continueProcesses,AllDone]

section
variable {t : JobTable} {f : Job → Job} (pid : Pid)

theorem updateJob_eq_map (h : (jobs.map Job.id).Nodup) :
    updateJob id f jobs = jobs.map fun j => if j.id = id then f j else j := by
  induction jobs with
  | nil => rfl
  | cons j jobs ih =>
    rw [map_cons,nodup_cons] at h
    rw [updateJob,map_cons]
    split
    · rename_i hj
      have hn : ∀ k ∈ jobs, k.id ≠ id := fun k hk he => h.1 (mem_map.mpr ⟨k,hk,he.trans hj.symm⟩)
      rw [map_congr_left fun k hk => if_neg (hn k hk),map_id']
    · rw [ih h.2]

variable (h : Consistent t)
include h

theorem Consistent.map (hf : ∀ j, (f j).id = j.id)
    (hl : ∀ j, ∀ p ∈ (f j).processes, p.state ≠ .done →
      (∃ q ∈ j.processes, q.pid = p.pid ∧ q.state ≠ .done) ∨ t.pidToJob p.pid = some j.id) :
    Consistent { t with jobs := t.jobs.map f } := by
  refine ⟨by simpa [Function.comp_def,hf] using h.ids,forall_mem_map.mpr fun k hk p hp hp' => ?_⟩
  rw [hf]
  rcases hl k p hp hp' with ⟨q,hq,hpi,hq'⟩ | hm
  · exact hpi ▸ h.live k hk q hq hq'
  · exact hm

theorem Consistent.updateJob (id : JobId) (hf : ∀ j, (f j).id = j.id)
    (hl : ∀ j, ∀ p ∈ (f j).processes, p.state ≠ .done →
      (∃ q ∈ j.processes, q.pid = p.pid ∧ q.state ≠ .done) ∨ t.pidToJob p.pid = some id) :
    Consistent { t with jobs := updateJob id f t.jobs } := by
  rw [updateJob_eq_map h.ids]
  refine h.map (fun j => ?_) fun j p hp hp' => ?_
  · split
    · exact hf j
    · rfl
  · split at hp
    · exact ‹j.id = id› ▸ hl j p hp hp'
    · exact .inl ⟨p,hp,rfl,hp'⟩

theorem Consistent.updateJob_of_processes (id : JobId) (hf : ∀ j, (f j).id = j.id) (hpr : ∀ j, (f j).processes = j.processes) :
    Consistent { t with jobs := JobTable.updateJob id f t.jobs } := by
  refine h.updateJob id hf fun j p hp hp' => .inl ⟨p,?_,rfl,hp'⟩
  rwa [hpr] at hp

theorem Consistent.markDead (statusRaw : Status) : Consistent (t.markDead pid statusRaw) := by
  unfold JobTable.markDead
  cases hm : t.pidToJob pid with
  | none => exact h
  | some id =>
    have hpr : ∀ j, (endProcess pid statusRaw j).processes =
        j.processes.map (fun p => if p.pid = pid then { p with statusRaw := statusRaw, state := .done } else p) := fun j => by
      unfold endProcess
      dsimp only
      split <;> rfl
    have hu := h.updateJob id (keeps_endProcess pid statusRaw).id fun j p hp hl => by
      rw [hpr] at hp
      obtain ⟨q,hq,rfl⟩ := mem_map.mp hp
      by_cases hpi : q.pid = pid
      · rw [if_pos hpi] at hl
        exact absurd rfl hl
      · rw [if_neg hpi] at hl ⊢
        exact .inl ⟨q,hq,rfl,hl⟩
    dsimp only
    split
    · split
      · exact hu.congr rfl rfl
      · exact hu.congr rfl rfl
    · exact hu

theorem Consistent.markStopped (stopSig : ℕ) : Consistent (t.markStopped pid stopSig) := by
  unfold JobTable.markStopped
  cases hm : t.pidToJob pid with
  | none => exact h
  | some id =>
    have hu := h.updateJob id (f := stopProcess pid stopSig) (fun _ => rfl) fun j p hp hl => by
      obtain ⟨q,hq,rfl⟩ := mem_map.mp hp
      by_cases hpi : q.pid = pid
      · -- the number was found in the map, so the process belongs to the job already
        rw [if_pos hpi] at hl ⊢
        exact .inr (hpi ▸ hm)
      · rw [if_neg hpi] at hl ⊢
        exact .inl ⟨q,hq,rfl,hl⟩
    dsimp only
    split
    · exact hu.congr rfl rfl
    · exact hu

omit h in
theorem live_continueProcesses {p : Process} (hp : p ∈ continueProcesses processes)
    (hl : p.state ≠ .done) : ∃ q ∈ processes, q.pid = p.pid ∧ q.state ≠ .done := by
  obtain ⟨q,hq,rfl⟩ := mem_map.mp hp
  by_cases hs : q.state = .stopped
  · exact ⟨q,hq,by rw [if_pos hs],by rw [hs]; decide⟩
  · rw [if_neg hs] at hl ⊢
    exact ⟨q,hq,rfl,hl⟩

theorem Consistent.markJobRunning (id : JobId) : Consistent (t.markJobRunning id) := by
  have hpr : ∀ j, (continueJob j).processes = continueProcesses j.processes := fun j => by
    unfold continueJob
    dsimp only
    split <;> rfl
  refine h.updateJob id keeps_continueJob.id fun j p hp hl => .inl ?_
  rw [hpr] at hp
  exact live_continueProcesses hp hl

theorem Consistent.markRunning : Consistent (t.markRunning pid) := by
  unfold JobTable.markRunning
  split
  · exact h
  · exact h.markJobRunning _

theorem Consistent.reap (status : Status) : Consistent (t.reap pid status) := by
  unfold JobTable.reap
  split
  · exact h.markDead _ _
  split
  · exact h.markStopped _ _
  split
  · exact h.markRunning _
  · exact h

theorem Consistent.reapAll (reaped : List (Pid × Status)) : Consistent (t.reapAll reaped) := by
  induction reaped generalizing t with
  | nil => exact h
  | cons r reaped ih => exact ih (h.reap r.1 r.2)

theorem Consistent.markPidWaited : Consistent (t.markPidWaited pid) := by
  have hw : Consistent { t with waitedPids := Function.update t.waitedPids pid true } := h.congr rfl rfl
  unfold JobTable.markPidWaited
  dsimp only
  split
  · exact hw
  · split
    · exact hw.updateJob_of_processes _ (fun _ => rfl) fun _ => rfl
    · exact hw

theorem Consistent.foreground (pgid : Pid) : Consistent (t.foreground pgid) := by
  refine h.map (fun j => ?_) fun j p hp hl => ?_
  · split <;> rfl
  · split at hp
    · exact .inl (live_continueProcesses hp hl)
    · exact .inl ⟨p,hp,rfl,hl⟩

theorem Consistent.background (pgid : Pid) : Consistent (t.background pgid) := by
  unfold JobTable.background
  split
  · exact h
  · exact h.updateJob _ (fun _ => rfl) fun j p hp hl => .inl (live_continueProcesses hp hl)

theorem Consistent.pendingNotifications : Consistent t.pendingNotifications := by
  refine h.map (fun j => ?_) fun j p hp hl => .inl ⟨p,?_,rfl,hl⟩
  · split <;> rfl
  · split at hp <;> exact hp
end

section
variable {t : JobTable}

theorem foldl_update {β : Type*} (processes : List Process) (b : β) (m : Pid → β) (pid : Pid) :
    processes.foldl (fun m p => Function.update m p.pid b) m pid =
      if pid ∈ processes.map Process.pid then b else m pid := by
  induction processes generalizing m with
  | nil => simp
  | cons p processes ih =>
    rw [foldl_cons,ih,map_cons]
    simp only [mem_cons]
    by_cases hm : pid ∈ processes.map Process.pid
    · rw [if_pos hm,if_pos (.inr hm)]
    · by_cases hp : pid = p.pid
      · rw [if_neg hm,if_pos (.inl hp),hp,Function.update_self]
      · rw [if_neg hm,if_neg (not_or.mpr ⟨hp,hm⟩),Function.update_of_ne hp]

theorem allocateIdFrom_free (jobs : List Job) (fuel id : ℕ) : id ≤ allocateIdFrom jobs fuel id ∧
    (∀ n : ℕ, id ≤ n → n < allocateIdFrom jobs fuel id → n ∈ jobs.map Job.id) ∧
      (allocateIdFrom jobs fuel id ∉ jobs.map Job.id ∨ allocateIdFrom jobs fuel id = id + fuel) := by
  induction fuel generalizing id with
  | zero => exact ⟨Nat.le_refl id,fun n h h' => absurd h' (Nat.not_lt.mpr h),.inr rfl⟩
  | succ fuel ih =>
    have ha : (jobs.any fun j => j.id = id) ↔ id ∈ jobs.map Job.id := by simp
    unfold allocateIdFrom
    split
    · rename_i ht
      obtain ⟨hle,hb,hf⟩ := ih (id + 1)
      refine ⟨by omega,fun n h h' => ?_,hf.imp_right fun he => he.trans (Nat.add_right_comm id 1 fuel)⟩
      by_cases hn : n = id
      · exact hn ▸ ha.mp ht
      · exact hb n (by omega) h'
    · exact ⟨Nat.le_refl id,fun n h h' => absurd h' (Nat.not_lt.mpr h),.inl (ha.not.mp ‹_›)⟩

/-- A new job takes the least number that is free. -/
theorem isLeast_allocateId (t : JobTable) : IsLeast {n : ℕ | 1 ≤ n ∧ n ∉ t.jobs.map Job.id} t.allocateId := by
  obtain ⟨hle,hb,hf⟩ := allocateIdFrom_free t.jobs t.jobs.length 1
  refine ⟨⟨hle,fun hm => ?_⟩,fun n hn => Nat.not_lt.mp fun hl => hn.2 (hb n hn.1 hl)⟩
  have he := hf.resolve_left (not_not.mpr hm)
  have hs : List.range' 1 (t.jobs.length + 1) ⊆ t.jobs.map Job.id := by
    intro (n : ℕ) hn
    obtain ⟨hlo,hh⟩ := mem_range'_1.mp hn
    by_cases hl : n = 1 + t.jobs.length
    · exact hl ▸ he ▸ hm
    · exact hb n hlo (he ▸ by omega)
  have hle := (subperm_of_subset nodup_range' hs).length_le
  rw [length_range',length_map] at hle
  omega

theorem nodup_add (h : (t.jobs.map Job.id).Nodup) : (t.jobs.map Job.id ++ [t.allocateId]).Nodup :=
  nodup_append.mpr ⟨h,nodup_singleton _,fun _ ha _ hb hab => (isLeast_allocateId t).1.2 (mem_singleton.mp hb ▸ hab ▸ ha)⟩

theorem Consistent.add (h : Consistent t) {pgid leaderPid : Pid} {commandLine : Text} {asyncFlag jobControl : Bool}
    (hf : FreshPids t (.add pgid leaderPid commandLine asyncFlag jobControl processes)) :
    Consistent (t.add pgid leaderPid commandLine asyncFlag jobControl processes) := by
  constructor
  · simpa [JobTable.add] using nodup_add h.ids
  · intro j hj p hp hl
    simp only [JobTable.add,foldl_update]
    rcases mem_append.mp hj with hj | hj
    · rw [if_neg (hf j hj p hp hl)]
      exact h.live j hj p hp hl
    · rw [mem_singleton.mp hj] at hp ⊢
      rw [if_pos (mem_map_of_mem hp)]
end

section
/-- The jobs for which `leaves` holds are out of the table, and all their numbers out of
the map. -/
structure Removes (t t' : JobTable) (leaves : Job → Bool) : Prop where
  jobs : t'.jobs = t.jobs.filter (fun j => !leaves j)
  gone : ∀ k ∈ t.jobs, leaves k → ∀ q ∈ k.processes, t'.pidToJob q.pid = none
  kept : ∀ pid, (∀ k ∈ t.jobs, leaves k → pid ∉ k.processes.map Process.pid) → t'.pidToJob pid = t.pidToJob pid

variable {t t' : JobTable} {leaves : Job → Bool}

theorem Removes.consistent (hr : Removes t t' leaves) (h : Consistent t) (hsa : SafeRemoval t leaves) :
    Consistent t' := by
  constructor
  · rw [hr.jobs]
    exact h.ids.sublist (filter_sublist.map _)
  · intro j hj p hp hl
    rw [hr.jobs,mem_filter] at hj
    have hs : leaves j = false := by simpa using hj.2
    rw [hr.kept p.pid (hsa j hj.1 hs p hp hl)]
    exact h.live j hj.1 p hp hl

theorem Removes.safe (hr : Removes t t' leaves) (hg : Good t') : SafeRemoval t leaves := by
  intro j hj hs p hp hli k hk hl hm
  obtain ⟨q,hq,hpi⟩ := mem_map.mp hm
  have hj' : j ∈ t'.jobs := by
    rw [hr.jobs,mem_filter]
    exact ⟨hj,by simpa using hs⟩
  have hf := hg j hj' p hp hli
  rw [jobOfPid,← hpi,hr.gone k hk hl q hq] at hf
  cases hf

theorem forget_pidToJob (t : JobTable) (job : Job) (pid : Pid) :
    (t.forget job).pidToJob pid = if pid ∈ job.processes.map Process.pid then none else t.pidToJob pid :=
  foldl_update job.processes none t.pidToJob pid

theorem foldl_forget_jobs (t : JobTable) (jobs : List Job) : (jobs.foldl forget t).jobs = t.jobs := by
  induction jobs generalizing t with
  | nil => rfl
  | cons job jobs ih => exact ih _

theorem foldl_forget_pidToJob (t : JobTable) (jobs : List Job) (pid : Pid) :
    (jobs.foldl forget t).pidToJob pid =
      if ∃ k ∈ jobs, pid ∈ k.processes.map Process.pid then none else t.pidToJob pid := by
  induction jobs generalizing t with
  | nil => simp
  | cons job jobs ih =>
    rw [foldl_cons,ih,forget_pidToJob]
    simp only [exists_mem_cons_iff]
    by_cases hl : ∃ k ∈ jobs, pid ∈ k.processes.map Process.pid
    · rw [if_pos hl,if_pos (.inr hl)]
    · rw [if_neg hl]
      by_cases hm : pid ∈ job.processes.map Process.pid
      · rw [if_pos hm,if_pos (.inl hm)]
      · rw [if_neg hm,if_neg (not_or.mpr ⟨hm,hl⟩)]

theorem removes_of_forget {jobs : List Job} (hj : t'.jobs = t.jobs.filter (fun j => !leaves j))
    (hl : ∀ k, k ∈ jobs ↔ k ∈ t.jobs ∧ leaves k)
    (hm : ∀ pid, t'.pidToJob pid = if ∃ k ∈ jobs, pid ∈ k.processes.map Process.pid then none else t.pidToJob pid) :
    Removes t t' leaves := by
  refine ⟨hj,fun k hk hle q hq => ?_,fun pid hn => ?_⟩
  · rw [hm,if_pos ⟨k,(hl k).mpr ⟨hk,hle⟩,mem_map_of_mem hq⟩]
  · rw [hm,if_neg]
    rintro ⟨k,hk,hme⟩
    obtain ⟨hk,hle⟩ := (hl k).mp hk
    exact hn k hk hle hme

theorem removes_purgeDone (t : JobTable) : Removes t t.purgeDone purgeable := by
  have hf : Removes t ((t.jobs.filter purgeable).foldl forget
      { t with jobs := t.jobs.filter (fun j => !purgeable j) }) purgeable :=
    removes_of_forget (foldl_forget_jobs _ _) (fun k => mem_filter) (foldl_forget_pidToJob _ _)
  unfold purgeDone
  dsimp only
  split
  · exact hf
  · exact ⟨hf.jobs,hf.gone,hf.kept⟩

theorem filter_eq_eraseIdx {id pos : ℕ} (hi : (jobs.map Job.id).Nodup) (hp : jobs.findIdx? (fun j => j.id = id) = some pos) :
    jobs.eraseIdx pos = jobs.filter (fun j => !decide (j.id = id)) := by
  induction jobs generalizing pos with
  | nil => simp at hp
  | cons j jobs ih =>
    rw [map_cons,nodup_cons] at hi
    rw [List.findIdx?_cons] at hp
    by_cases hid : j.id = id
    · have ha : ∀ k ∈ jobs, (!decide (k.id = id)) := fun k hk => by
        have hne : k.id ≠ id := fun hk' => hi.1 (mem_map.mpr ⟨k,hk,hk'.trans hid.symm⟩)
        simpa using hne
      rw [if_pos (by simpa using hid)] at hp
      cases hp
      rw [eraseIdx_cons_zero,filter_cons_of_neg (by simpa using hid),filter_eq_self.mpr ha]
    · rw [if_neg (by simpa using hid)] at hp
      obtain ⟨pos',hp',rfl⟩ := Option.map_eq_some_iff.mp hp
      rw [eraseIdx_cons_succ,filter_cons_of_pos (by simpa using hid),ih hi.2 hp']

theorem removes_remove (h : (t.jobs.map Job.id).Nodup) (id : JobId) : Removes t (t.remove id) (fun j => j.id = id) := by
  unfold remove
  cases hp : t.jobs.findIdx? (fun j => j.id = id) with
  | none =>
    have hn : ∀ k ∈ t.jobs, k.id ≠ id := by simpa using List.findIdx?_eq_none_iff.mp hp
    refine ⟨?_,fun k hk hl => absurd (by simpa using hl) (hn k hk),fun pid _ => rfl⟩
    exact (filter_eq_self.mpr fun k hk => by simpa using hn k hk).symm
  | some pos =>
    have hs : (t.get id).isSome := by
      rw [JobTable.get,List.find?_isSome]
      obtain ⟨hlt,hf,-⟩ := List.findIdx?_eq_some_iff_getElem.mp hp
      exact ⟨_,getElem_mem hlt,hf⟩
    obtain ⟨job,hj⟩ := Option.isSome_iff_exists.mp hs
    have hm := mem_of_find?_eq_some hj
    have hid : job.id = id := by simpa using List.find?_some hj
    simp only [hj]
    refine @removes_of_forget _ _ _ [job] (filter_eq_eraseIdx h hp) (fun k => ?_) fun pid => ?_
    · rw [mem_singleton,decide_eq_true_eq]
      exact ⟨fun hk => hk ▸ ⟨hm,hid⟩,fun hk => inj_on_of_nodup_map h hk.1 hm (hk.2.trans hid.symm)⟩
    · change (forget _ job).pidToJob pid = _
      rw [forget_pidToJob]
      simp

/-- Two removals in a row are one. -/
theorem Removes.trans {t'' : JobTable} {leaves' : Job → Bool} (h : Removes t t' leaves) (h' : Removes t' t'' leaves') :
    Removes t t'' (fun j => leaves j || leaves' j) := by
  have hm : ∀ k, k ∈ t'.jobs ↔ k ∈ t.jobs ∧ leaves k = false := fun k => by
    rw [h.jobs,mem_filter]
    simp
  refine ⟨?_,fun k hk hl q hq => ?_,fun pid hn => ?_⟩
  · rw [h'.jobs,h.jobs,filter_filter]
    congr 1
    funext j
    simp [Bool.and_comm]
  · by_cases ho : ∀ k' ∈ t'.jobs, leaves' k' → q.pid ∉ k'.processes.map pid
    · rw [h'.kept q.pid ho]
      cases hf : leaves k with
      | true => exact h.gone k hk hf q hq
      | false =>
        have hs : leaves' k := by simpa [hf] using hl
        exact absurd (mem_map_of_mem hq) (ho k ((hm k).mpr ⟨hk,hf⟩) hs)
    · push Not at ho
      obtain ⟨k',hk',hl',hp⟩ := ho
      obtain ⟨q',hq',heq⟩ := mem_map.mp hp
      rw [← heq]
      exact h'.gone k' hk' hl' q' hq'
  · rw [h'.kept pid fun k hk hl => hn k ((hm k).mp hk).1 (by simp [hl]),
      h.kept pid fun k hk hl => hn k hk (by simp [hl])]

theorem removes_foldl (h : (t.jobs.map Job.id).Nodup) (ids : List JobId) :
    Removes t (ids.foldl remove t) (fun j => j.id ∈ ids) := by
  induction ids generalizing t with
  | nil => exact ⟨by simp,by simp,fun pid _ => rfl⟩
  | cons id ids ih =>
    have hf := removes_remove h id
    have hr := ih (hf.jobs ▸ h.sublist (filter_sublist.map _))
    have hl : (fun j : Job => decide (j.id ∈ id :: ids)) = fun j => decide (j.id = id) || decide (j.id ∈ ids) := by
      funext j
      simp
    rw [hl]
    exact hf.trans hr
end

section
variable {t : JobTable} {op : JobOp}

theorem consistent_nohup (h : Consistent t) (ids : List JobId) :
    Consistent { t with jobs := ids.foldl (fun jobs id => updateJob id
      (fun job => { job with flags := { job.flags with nohup := true } }) jobs) t.jobs } := by
  induction ids generalizing t with
  | nil => exact h
  | cons id ids ih =>
    have hf := h.updateJob_of_processes id (f := fun job => { job with flags := { job.flags with nohup := true } })
      (fun _ => rfl) fun _ => rfl
    exact ih hf

theorem consistent_jobStep (h : Consistent t) (hf : FreshPids t op) (hs : Safe t op) :
    Consistent (jobStep t op) := by
  cases op with
  | add pgid leaderPid commandLine asyncFlag jobControl processes => exact h.add hf
  | remove id => exact (removes_remove h.ids id).consistent h hs
  | markPidWaited pid => exact h.markPidWaited pid
  | markDead pid statusRaw => exact h.markDead pid statusRaw
  | markStopped pid stopSig => exact h.markStopped pid stopSig
  | markRunning pid => exact h.markRunning pid
  | markJobRunning id => exact h.markJobRunning id
  | foreground pgid => exact h.foreground pgid
  | background pgid => exact h.background pgid
  | purgeDone => exact (removes_purgeDone t).consistent h hs
  | reapAll reaped => exact h.reapAll reaped
  | pendingNotifications => exact h.pendingNotifications
  | disown all runningOnly nohupOnly specs =>
    cases nohupOnly with
    | true => exact consistent_nohup h _
    | false => exact (removes_foldl h.ids _).consistent h hs

theorem safe_of_good (h : Consistent t) (hg : Good (jobStep t op)) : Safe t op := by
  cases op with
  | remove id => exact (removes_remove h.ids id).safe hg
  | purgeDone => exact (removes_purgeDone t).safe hg
  | disown all runningOnly nohupOnly specs =>
    cases nohupOnly with
    | true => trivial
    | false => exact (removes_foldl h.ids _).safe hg
  | _ => trivial

/-- Along a run with fresh process numbers every lookup is right throughout exactly when
every removal is safe. -/
theorem lookups_good_iff (ops : List JobOp) (hfresh : Guarded jobStep FreshPids new ops) :
    (∀ n, Good (run jobStep new (ops.take n))) ↔ Guarded jobStep Safe new ops :=
  guarded_iff_prefixes (I := Consistent) (fun _ h => h.good) (fun _ _ h hfresh hsafe => consistent_jobStep h hfresh hsafe)
    (fun _ _ h _ hgood => safe_of_good h hgood) Consistent.new hfresh

def process100 : Process := ⟨100,0,.running,"sleep".toList⟩

/-- The number 100 is used again after its job has left the table. -/
theorem lookups_good_after_removal : Good (run jobStep new
      [.add 100 100 "sleep".toList true true [process100],.markDead 100 0,.remove 1,
        .add 100 100 "sleep".toList true true [process100]]) :=
  (lookups_good_iff
    [.add 100 100 "sleep".toList true true [process100],.markDead 100 0,.remove 1,
      .add 100 100 "sleep".toList true true [process100]] (by decide)).mpr (by decide) 4

/-- Removing an ended job takes the number 100 from the job that uses it again. -/
theorem lookups_lost_by_removal :
    Guarded jobStep FreshPids new
      [.add 100 100 "sleep".toList true true [process100],.markDead 100 0,
        .add 100 100 "sleep".toList true true [process100],.remove 1] ∧
    ¬Good (run jobStep new
      [.add 100 100 "sleep".toList true true [process100],.markDead 100 0,
        .add 100 100 "sleep".toList true true [process100],.remove 1]) := by
  decide
end
end Cherubsh.Common.Jobs
