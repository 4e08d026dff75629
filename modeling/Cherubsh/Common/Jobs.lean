import Cherubsh.Common.History
import Mathlib.Data.List.Infix

/-! # The job table

Jobs stand in the order they were added, each with its processes; beside them the
table keeps a map from process numbers to jobs, the process numbers that were waited
for and the order in which jobs were completed. A raw wait status has the bits of the
`waitpid` interface.
-/
namespace Cherubsh.Common.Jobs

abbrev JobId := ℕ
abbrev Pid := ℤ
abbrev Status := BitVec 32

inductive JobState where
  | running
  | stopped
  | done
  deriving DecidableEq

structure JobFlags where
  foreground : Bool
  async : Bool
  waitedFor : Bool
  nohup : Bool
  jobcontrol : Bool
  deriving DecidableEq

structure Process where
  pid : Pid
  statusRaw : Status
  state : JobState
  command : Text
  deriving DecidableEq

structure Job where
  id : JobId
  pgid : Pid
  leaderPid : Pid
  state : JobState
  flags : JobFlags
  processes : List Process
  commandLine : Text
  notified : Bool
  exitStatus : Option ℕ
  deriving DecidableEq

inductive JobSpec where
  | current
  | previous
  | id (id : JobId)
  | prefixString (s : Text)
  | substringString (s : Text)
  | pid (pid : Pid)

inductive JobLookupErr where
  | noSuchJob
  | ambiguous
  deriving DecidableEq

structure JobTable where
  jobs : List Job
  current : Option JobId
  previous : Option JobId
  pidToJob : Pid → Option JobId
  waitedPids : Pid → Bool
  completionOrder : JobId → Option UInt64
  nextCompletionOrder : UInt64

section
variable (raw : Status)

def wifexited : Bool := raw &&& 0x7f#32 = 0#32
def wexitstatus : ℕ := ((raw >>> 8) &&& 0xff#32).toNat
def wtermsig : ℕ := (raw &&& 0x7f#32).toNat
def wifstopped : Bool := raw &&& 0xff#32 = 0x7f#32
def wstopsig : ℕ := wexitstatus raw
def wifsignaled : Bool := !wifexited raw && raw &&& 0x7f#32 ≠ 0x7f#32
def wifcontinued : Bool := raw = 0xffff#32

def decodeStatus : ℕ :=
  if wifexited raw then wexitstatus raw
  else if wifsignaled raw then 128 + wtermsig raw
  else if wifstopped raw then 128 + wstopsig raw
  else 1
end

namespace JobTable

def new : JobTable := ⟨[],none,none,fun _ => none,fun _ => false,fun _ => none,0⟩

/-- The lowest number from `id` on that no job has; one more than there are jobs is
always enough to look at. -/
def allocateIdFrom (jobs : List Job) : ℕ → JobId → JobId
  | 0, id => id
  | fuel + 1, id => if jobs.any (fun j => j.id = id) then allocateIdFrom jobs fuel (id + 1) else id

def allocateId (t : JobTable) : JobId := allocateIdFrom t.jobs t.jobs.length 1

def lastTwo (ids : List JobId) : Option JobId × Option JobId := (ids.getLast?,ids.dropLast.getLast?)

/-- Stopped jobs come last among the unfinished; without any, finished ones not reported are
taken. -/
def resetCurrentPrevious (t : JobTable) : JobTable :=
  let active := t.jobs.filter (fun j => j.state ≠ .done)
  let candidates := active.filter (fun j => j.state ≠ .stopped) ++ active.filter (fun j => j.state = .stopped)
  let chosen := if candidates = [] then lastTwo ((t.jobs.filter (fun j => !j.notified)).map Job.id)
    else lastTwo (candidates.map Job.id)
  { t with current := chosen.1, previous := chosen.2 }

def add (t : JobTable) (pgid leaderPid : Pid) (commandLine : Text) (asyncFlag jobControl : Bool)
    (processes : List Process) : JobTable :=
  let id := t.allocateId
  let job : Job := ⟨id,pgid,leaderPid,.running,⟨!asyncFlag,asyncFlag,false,false,jobControl⟩,processes,commandLine,false,none⟩
  { t with
    jobs := t.jobs ++ [job]
    current := some id
    previous := t.current
    pidToJob := processes.foldl (fun m p => Function.update m p.pid (some id)) t.pidToJob
    waitedPids := processes.foldl (fun w p => Function.update w p.pid false) t.waitedPids }

def get (t : JobTable) (id : JobId) : Option Job := t.jobs.find? (fun j => j.id = id)

/-- `get_mut`: the first job of that number is changed. -/
def updateJob (id : JobId) (f : Job → Job) : List Job → List Job
  | [] => []
  | j :: js => if j.id = id then f j :: js else j :: updateJob id f js

def forget (t : JobTable) (job : Job) : JobTable :=
  { t with
    pidToJob := job.processes.foldl (fun m p => Function.update m p.pid none) t.pidToJob
    waitedPids := job.processes.foldl (fun w p => Function.update w p.pid false) t.waitedPids
    completionOrder := Function.update t.completionOrder job.id none }

def remove (t : JobTable) (id : JobId) : JobTable :=
  match t.jobs.findIdx? (fun j => j.id = id), t.get id with
  | some pos, some job => (forget { t with jobs := t.jobs.eraseIdx pos } job).resetCurrentPrevious
  | _, _ => t.resetCurrentPrevious

def jobOfPid (t : JobTable) (pid : Pid) : Option JobId := t.pidToJob pid

def markPidWaited (t : JobTable) (pid : Pid) : JobTable :=
  let t := { t with waitedPids := Function.update t.waitedPids pid true }
  match t.jobOfPid pid with
  | none => t
  | some id =>
    if (t.get id).any (fun job => job.processes.all (fun p => t.waitedPids p.pid)) then
      { t with jobs := updateJob id (fun job => { job with flags := { job.flags with waitedFor := true } }) t.jobs }
    else t

def onlyOne : List JobId → Except JobLookupErr JobId
  | [] => .error .noSuchJob
  | [id] => .ok id
  | _ => .error .ambiguous

def lookup (t : JobTable) : JobSpec → Except JobLookupErr JobId
  | .current => t.current.elim (.error .noSuchJob) .ok
  | .previous => t.previous.elim (.error .noSuchJob) .ok
  | .id id => if (t.get id).isSome then .ok id else .error .noSuchJob
  | .prefixString s => onlyOne ((t.jobs.filter (fun j => s.isPrefixOf j.commandLine)).map Job.id)
  | .substringString s => onlyOne ((t.jobs.filter (fun j => s <:+: j.commandLine)).map Job.id)
  | .pid pid => (t.pidToJob pid).elim (.error .noSuchJob) .ok

def endProcess (pid : Pid) (statusRaw : Status) (job : Job) : Job :=
  let processes := job.processes.map (fun p => if p.pid = pid then { p with statusRaw := statusRaw, state := .done } else p)
  if job.state ≠ .done ∧ processes.all (fun p => p.state = .done) then
    { job with processes := processes, state := .done,
               exitStatus := some (decodeStatus ((processes.getLast?.map Process.statusRaw).getD 0)) }
  else { job with processes := processes }

def markDead (t : JobTable) (pid : Pid) (statusRaw : Status) : JobTable :=
  match t.pidToJob pid with
  | none => t
  | some id =>
    let completed := (t.get id).any (fun job => job.state ≠ .done && (endProcess pid statusRaw job).state = .done)
    let t := { t with jobs := updateJob id (endProcess pid statusRaw) t.jobs }
    if completed then
      let t := { t with completionOrder := Function.update t.completionOrder id (some t.nextCompletionOrder),
                        nextCompletionOrder := t.nextCompletionOrder + 1 }
      if t.current = some id ∨ t.previous = some id then t.resetCurrentPrevious else t
    else t

def stopProcess (pid : Pid) (stopSig : ℕ) (job : Job) : Job :=
  { job with
    processes := job.processes.map (fun p =>
      if p.pid = pid then { p with state := .stopped, statusRaw := (BitVec.ofNat 32 stopSig <<< 8) ||| 0x7f#32 } else p)
    state := .stopped }

def markStopped (t : JobTable) (pid : Pid) (stopSig : ℕ) : JobTable :=
  match t.pidToJob pid with
  | none => t
  | some id =>
    let t := { t with jobs := updateJob id (stopProcess pid stopSig) t.jobs }
    if t.current ≠ some id then { t with previous := t.current, current := some id } else t

def continueProcesses (processes : List Process) : List Process :=
  processes.map (fun p => if p.state = .stopped then { p with state := .running } else p)

def continueJob (job : Job) : Job :=
  let processes := continueProcesses job.processes
  if processes.any (fun p => p.state = .running) then { job with processes := processes, state := .running, notified := false }
  else { job with processes := processes }

def markJobRunning (t : JobTable) (id : JobId) : JobTable := { t with jobs := updateJob id continueJob t.jobs }

def markRunning (t : JobTable) (pid : Pid) : JobTable :=
  match t.pidToJob pid with
  | none => t
  | some id => t.markJobRunning id

/-- What `fg` and `bg` do through `list_mut`; `fg` goes through all the jobs of the
group, `bg` stops at the first. -/
def resume (job : Job) : Job := { job with state := .running, processes := continueProcesses job.processes }

def foreground (t : JobTable) (pgid : Pid) : JobTable :=
  { t with jobs := t.jobs.map (fun j => if j.pgid = pgid then resume j else j) }

def background (t : JobTable) (pgid : Pid) : JobTable :=
  match t.jobs.find? (fun j => j.pgid = pgid) with
  | none => t
  | some job => { t with jobs := updateJob job.id resume t.jobs }

def purgeable (job : Job) : Bool := job.state = .done && job.notified

def purgeDone (t : JobTable) : JobTable :=
  let purged := t.jobs.filter purgeable
  let t := purged.foldl forget { t with jobs := t.jobs.filter (fun j => !purgeable j) }
  if purged = [] then t else t.resetCurrentPrevious

def reap (t : JobTable) (pid : Pid) (status : Status) : JobTable :=
  if wifexited status || wifsignaled status then t.markDead pid status
  else if wifstopped status then t.markStopped pid (wstopsig status)
  else if wifcontinued status then t.markRunning pid
  else t

def reapAll (t : JobTable) (reaped : List (Pid × Status)) : JobTable := reaped.foldl (fun t r => t.reap r.1 r.2) t

def pendingNotifications (t : JobTable) : JobTable :=
  { t with jobs := t.jobs.map (fun j => if !j.notified && j.state ≠ .running then { j with notified := true } else j) }

def disowned (t : JobTable) (all runningOnly : Bool) (specs : List JobSpec) : List JobId :=
  if all then (t.jobs.filter (fun j => !runningOnly || j.state = .running)).map Job.id
  else if specs.isEmpty then t.current.toList
  else specs.filterMap (fun spec => (t.lookup spec).toOption)

def disown (t : JobTable) (all runningOnly nohupOnly : Bool) (specs : List JobSpec) : JobTable :=
  let ids := t.disowned all runningOnly specs
  if nohupOnly then
    { t with jobs := ids.foldl (fun jobs id =>
        updateJob id (fun job => { job with flags := { job.flags with nohup := true } }) jobs) t.jobs }
  else ids.foldl remove t
end JobTable

inductive JobOp where
  | add (pgid leaderPid : Pid) (commandLine : Text) (asyncFlag jobControl : Bool) (processes : List Process)
  | remove (id : JobId)
  | markPidWaited (pid : Pid)
  | markDead (pid : Pid) (statusRaw : Status)
  | markStopped (pid : Pid) (stopSig : ℕ)
  | markRunning (pid : Pid)
  | markJobRunning (id : JobId)
  | foreground (pgid : Pid)
  | background (pgid : Pid)
  | purgeDone
  | reapAll (reaped : List (Pid × Status))
  | pendingNotifications
  | disown (all runningOnly nohupOnly : Bool) (specs : List JobSpec)

def jobStep (t : JobTable) : JobOp → JobTable
  | .add pgid leaderPid commandLine asyncFlag jobControl processes =>
    t.add pgid leaderPid commandLine asyncFlag jobControl processes
  | .remove id => t.remove id
  | .markPidWaited pid => t.markPidWaited pid
  | .markDead pid statusRaw => t.markDead pid statusRaw
  | .markStopped pid stopSig => t.markStopped pid stopSig
  | .markRunning pid => t.markRunning pid
  | .markJobRunning id => t.markJobRunning id
  | .foreground pgid => t.foreground pgid
  | .background pgid => t.background pgid
  | .purgeDone => t.purgeDone
  | .reapAll reaped => t.reapAll reaped
  | .pendingNotifications => t.pendingNotifications
  | .disown all runningOnly nohupOnly specs => t.disown all runningOnly nohupOnly specs
end Cherubsh.Common.Jobs
