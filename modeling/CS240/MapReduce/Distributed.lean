/-
The distributed run: a master that hands out the tasks of a phase to workers, and workers that may fail.

`schedule` starts one goroutine for each task of the phase. It takes the name of an idle worker from `registerChannel`
and calls `Worker.DoTask`; if the call succeeds the name goes back to the channel and the task is done, if it fails the
name is dropped and the goroutine takes another one. Reads and writes of different calls interleave. A call can fail at
any point: before the worker has started, after any of its reads and writes, or when it is through and only the reply is
lost. After that it writes nothing more.

- `step_phaseOk`, `run_phaseOk`: where the run stands, and that the directory is one that the sequential run could have
  left there, up to files that tasks of the phase still create.
- `distributed_sequential`: a finished run leaves the directory that the sequential run leaves.
-/
import CS240.Lib.Attempts
import CS240.Lib.Machine
import CS240.MapReduce.Sequential

namespace CS240.MapReduce

open Lib

inductive JobPhase where
  | mapPhase
  | reducePhase
deriving DecidableEq, Repr

structure DoTaskArgs where
  jobName : Bytes
  file : Bytes
  phase : JobPhase
  taskNumber : ℕ
  /-- how many tasks the other phase has -/
  numOtherPhase : ℕ
deriving DecidableEq, Repr

/-- `Worker.DoTask` -/
def doTask (json : Json) (mapF : Bytes → Bytes → List KeyValue) (reduceF : Bytes → List Bytes → Bytes)
    (arg : DoTaskArgs) : FileTask Bytes Byte :=
  match arg.phase with
  | .mapPhase => doMap json arg.jobName arg.taskNumber arg.file arg.numOtherPhase mapF
  | .reducePhase => doReduce json arg.jobName arg.taskNumber arg.numOtherPhase reduceF

namespace Job

variable (job : Job) (json : Json)

def ntasks : JobPhase → ℕ
  | .mapPhase => job.files.length
  | .reducePhase => job.nReduce

def nios : JobPhase → ℕ
  | .mapPhase => job.nReduce
  | .reducePhase => job.files.length

/-- the arguments that `schedule` calls a worker with -/
def doTaskArgs (phase : JobPhase) (task : ℕ) : DoTaskArgs where
  jobName := job.jobName
  file :=
    match phase with
    | .mapPhase => (job.files[task]?).getD []
    | .reducePhase => []
  phase := phase
  taskNumber := task
  numOtherPhase := job.nios phase

/-- the calls of a phase -/
def tasks (phase : JobPhase) : List (FileTask Bytes Byte) :=
  (List.range (job.ntasks phase)).map fun task => doTask json job.mapF job.reduceF (job.doTaskArgs phase task)

end Job

/-! ## The master -/

/-- where `run` stands -/
inductive Stage where
  | scheduling (phase : JobPhase)
  | merging
  | finished
deriving DecidableEq, Repr

/-- `ω` are the names of workers -/
structure Master (ω : Type) where
  stage : Stage
  batch : Batch Bytes Byte ω
  workers : List ω
  /-- the names that goroutines are about to send on `registerChannel` -/
  idle : List ω

inductive Action (ω : Type) where
  | register (worker : ω)
  /-- the goroutine of `task` receives `worker` from the channel and calls it -/
  | call (task : ℕ) (worker : ω)
  /-- the worker that is called for `task` does its next read or write -/
  | work (task : ℕ)
  /-- the call for `task` returns true, or false -/
  | reply (task : ℕ)
  | fail (task : ℕ)
  /-- `schedule` has received `ntasks` times from `doneChan` and returns -/
  | proceed
  | merge
deriving DecidableEq, Repr

inductive Event (ω : Type) where
  | registered (worker : ω)
  | called (phase : JobPhase) (task : ℕ) (worker : ω)
  | succeeded (phase : JobPhase) (task : ℕ) (worker : ω)
  | failed (phase : JobPhase) (task : ℕ) (worker : ω)
  | merged
deriving DecidableEq, Repr

namespace Master

variable {ω : Type} [DecidableEq ω]

omit [DecidableEq ω] in
/-- `run` goes on after `schedule(phase)` -/
def next (s : Master ω) : JobPhase → Master ω
  | .mapPhase => { s with stage := .scheduling .reducePhase, batch := .init s.batch.disk }
  | .reducePhase => { s with stage := .merging }

/-- a step inside `schedule(phase)` -/
def stepPhase (job : Job) (json : Json) (phase : JobPhase) (s : Master ω) :
    Action ω → Option (Master ω × List (Event ω))
  | .call task worker =>
    if worker ∈ s.idle then
      (s.batch.start (job.tasks json phase) task worker).map fun b =>
        ({ s with batch := b, idle := s.idle.erase worker }, [.called phase task worker])
    else none
  | .work task => (s.batch.work (job.tasks json phase) task).map fun b => ({ s with batch := b }, [])
  | .reply task =>
    (s.batch.finish task).map fun (b, worker) =>
      ({ s with batch := b, idle := s.idle ++ [worker] }, [.succeeded phase task worker])
  | .fail task =>
    (s.batch.fail task).map fun (b, worker) => ({ s with batch := b }, [.failed phase task worker])
  | .proceed =>
    if (List.range (job.ntasks phase)).all fun task => (s.batch.attempt task).isDone then some (s.next phase, [])
    else none
  | _ => none

def step (job : Job) (json : Json) (s : Master ω) (a : Action ω) : Option (Master ω × List (Event ω)) :=
  match a, s.stage with
  | .register worker, _ =>
    some ({ s with workers := s.workers ++ [worker], idle := s.idle ++ [worker] }, [.registered worker])
  | .merge, .merging =>
    ((CS240.MapReduce.merge json job.jobName job.nReduce).run s.batch.disk).map fun d =>
      ({ s with stage := .finished, batch := { s.batch with disk := d } }, [.merged])
  | a, .scheduling phase => s.stepPhase job json phase a
  | _, _ => none

def machine (ω : Type) [DecidableEq ω] (job : Job) (json : Json) (d : Disk Bytes Byte) :
    Machine (Master ω) (Action ω) (Event ω) where
  init := ⟨.scheduling .mapPhase, .init d, [], []⟩
  step := step job json

/-! ## The directory along a run -/

variable {job : Job} {json : Json} {d₀ : Disk Bytes Byte} {s s' : Master ω} {a : Action ω} {evs : List (Event ω)}
  {phase : JobPhase}

/-- the calls of the map phase are the tasks of the sequential run -/
theorem tasks_mapPhase : job.tasks json .mapPhase = job.maps json := by
  refine List.ext_getElem (by simp [Job.tasks, Job.maps, Job.ntasks]) ?_
  intro i hi hi'
  simp only [Job.maps, List.length_mapIdx] at hi'
  simp [Job.tasks, Job.maps, doTask, Job.doTaskArgs, Job.nios, hi']

theorem tasks_reducePhase : job.tasks json .reducePhase = job.reduces json := rfl

theorem tasks_independent (hin : job.InputsApart) (d : Disk Bytes Byte) : Independent (job.tasks json phase) d := by
  cases phase with
  | mapPhase => rw [tasks_mapPhase]; exact Job.maps_independent hin
  | reducePhase => rw [tasks_reducePhase]; exact Job.reduces_independent

/-- A step inside a phase keeps what the attempts have done so far sound; the phase ends when all its tasks are done. -/
theorem stepPhase_sound (hin : job.InputsApart) {d : Disk Bytes Byte}
    (hs : s.stepPhase job json phase a = some (s', evs)) (hb : s.batch.Sound (job.tasks json phase) d) :
    (s'.stage = s.stage ∧ s'.batch.Sound (job.tasks json phase) d) ∨
      (s' = s.next phase ∧ runAll (job.tasks json phase) d = some s.batch.disk) := by
  have hind : Independent (job.tasks json phase) d := tasks_independent hin d
  cases a with
  | register worker => cases hs
  | merge => cases hs
  | call task worker =>
    simp only [stepPhase] at hs
    split_ifs at hs
    obtain ⟨b, hstart, hs⟩ := Option.map_eq_some_iff.1 hs
    cases hs
    exact .inl ⟨rfl, hb.start hstart⟩
  | work task =>
    obtain ⟨b, hwork, hs⟩ := Option.map_eq_some_iff.1 hs
    cases hs
    exact .inl ⟨rfl, hb.work hind hwork⟩
  | reply task =>
    obtain ⟨⟨b, worker⟩, hfinish, hs⟩ := Option.map_eq_some_iff.1 hs
    cases hs
    exact .inl ⟨rfl, hb.finish hind hfinish⟩
  | fail task =>
    obtain ⟨⟨b, worker⟩, hfail, hs⟩ := Option.map_eq_some_iff.1 hs
    cases hs
    exact .inl ⟨rfl, hb.fail hfail⟩
  | proceed =>
    simp only [stepPhase] at hs
    split_ifs at hs with hdone
    cases hs
    refine .inr ⟨rfl, hb.finished hind ?_⟩
    intro i hi
    rw [Job.tasks, List.length_map, List.length_range] at hi
    exact Attempt.isDone_iff.1 (List.all_eq_true.1 hdone i (List.mem_range.2 hi))

/-- where the run stands, and how the sequential run gets to the directory -/
def PhaseOk (job : Job) (json : Json) (d₀ : Disk Bytes Byte) (s : Master ω) : Prop :=
  match s.stage with
  | .scheduling .mapPhase => s.batch.Sound (job.tasks json .mapPhase) d₀
  | .scheduling .reducePhase =>
    ∃ d, runAll (job.tasks json .mapPhase) d₀ = some d ∧ s.batch.Sound (job.tasks json .reducePhase) d
  | .merging =>
    ∃ d, runAll (job.tasks json .mapPhase) d₀ = some d ∧ runAll (job.tasks json .reducePhase) d = some s.batch.disk
  | .finished => job.sequential json d₀ = some s.batch.disk

theorem step_phaseOk (hin : job.InputsApart) (hs : step job json s a = some (s', evs)) (h : PhaseOk job json d₀ s) :
    PhaseOk job json d₀ s' := by
  unfold step at hs
  split at hs
  · cases hs
    exact h
  · rename_i hstage
    obtain ⟨d, hmerge, hs⟩ := Option.map_eq_some_iff.1 hs
    cases hs
    simp only [PhaseOk, hstage] at h
    obtain ⟨d₁, hmaps, hreduces⟩ := h
    rw [tasks_mapPhase] at hmaps
    rw [tasks_reducePhase] at hreduces
    simp [PhaseOk, Job.sequential, hmaps, hreduces, hmerge]
  · rename_i phase _ hstage
    cases phase with
    | mapPhase =>
      simp only [PhaseOk, hstage] at h
      rcases stepPhase_sound hin hs h with ⟨hstage', hb⟩ | ⟨rfl, hrun⟩
      · simp only [PhaseOk, hstage', hstage]
        exact hb
      · exact ⟨s.batch.disk, hrun, Batch.Sound.init _ _⟩
    | reducePhase =>
      simp only [PhaseOk, hstage] at h
      obtain ⟨d, hmaps, hb⟩ := h
      rcases stepPhase_sound hin hs hb with ⟨hstage', hb⟩ | ⟨rfl, hrun⟩
      · simp only [PhaseOk, hstage', hstage]
        exact ⟨d, hmaps, hb⟩
      · exact ⟨d, hmaps, hrun⟩
  · cases hs

theorem run_phaseOk (hin : job.InputsApart) {h : List (Event ω)} (hr : (machine ω job json d₀).Run Machine.free s h) :
    PhaseOk job json d₀ s := by
  have hinit : PhaseOk job json d₀ (machine ω job json d₀).init := Batch.Sound.init _ _
  refine hr.invariant (I := fun s _ => PhaseOk job json d₀ s) hinit ?_
  intro s h a s' evs hok _ hs
  exact step_phaseOk hin hs hok

/-- the reduce tasks have left every file that the merge opens -/
theorem merge_run_isSome {d e : Disk Bytes Byte} (hr : runAll (job.reduces json) d = some e) :
    ∃ e', (CS240.MapReduce.merge json job.jobName job.nReduce).run e = some e' := by
  obtain ⟨d', hr', hfiles⟩ := Job.reduces_run job json d
  rw [hr] at hr'
  obtain rfl := Option.some.inj hr'
  obtain ⟨e', hmerge, -⟩ := Job.merge_run json hfiles
  exact ⟨e', hmerge⟩

/-- **Distributed is Sequential.** Whatever the order of registrations, assignments and failures: if the run gets to the
merge, the merge goes through and leaves the directory that the sequential run leaves. -/
theorem distributed_sequential (job : Job) (json : Json) (d₀ : Disk Bytes Byte) (hin : job.InputsApart) {s : Master ω}
    {h : List (Event ω)} (hr : (machine ω job json d₀).Run Machine.free s h) :
    (s.stage = .merging → ∃ s', step job json s .merge = some (s', [.merged]) ∧
      job.sequential json d₀ = some s'.batch.disk) ∧
    (s.stage = .finished → job.sequential json d₀ = some s.batch.disk) := by
  have hok := run_phaseOk hin hr
  constructor
  · intro hs
    simp only [PhaseOk, hs, tasks_mapPhase, tasks_reducePhase] at hok
    obtain ⟨d, hmaps, hreduces⟩ := hok
    obtain ⟨e, hmerge⟩ := merge_run_isSome hreduces
    refine ⟨{ s with stage := .finished, batch := { s.batch with disk := e } }, ?_, ?_⟩
    · simp [step, hs, hmerge]
    · simp [Job.sequential, hmaps, hreduces, hmerge]
  · intro hs
    simpa only [PhaseOk, hs] using hok

/-- worker 1 fails after it has created the intermediate file and written half of it; worker 2 does everything again -/
def failedOnce : List (Action ℕ) :=
  [.register 1, .call 0 1, .work 0, .work 0, .work 0, .work 0, .fail 0, .register 2, .call 0 2, .work 0,
    .work 0, .work 0,
    .work 0, .work 0, .reply 0, .proceed, .call 0 2, .work 0, .work 0, .work 0, .work 0, .reply 0, .proceed, .merge]

theorem distributed_sequential_failedOnce : ∃ s h,
    (machine ℕ Job.byteCount taggedJson (Job.inputOnly [7, 8])).Run Machine.free s h ∧
      Event.failed .mapPhase 0 1 ∈ h ∧
      Job.byteCount.sequential taggedJson (Job.inputOnly [7, 8]) = some s.batch.disk := by
  have he : ((machine ℕ Job.byteCount taggedJson (Job.inputOnly [7, 8])).exec Machine.free failedOnce).any
      (fun r => decide (r.1.stage = .finished ∧ .failed .mapPhase 0 1 ∈ r.2)) = true := by decide +kernel
  obtain ⟨s, h, hr, ht⟩ := Machine.exists_run_of_exec he
  obtain ⟨hstage, hfailed⟩ := of_decide_eq_true ht
  exact ⟨s, h, hr, hfailed, (distributed_sequential _ _ _ Job.byteCount_inputsApart hr).2 hstage⟩

/-- `byteCount` with one more input, which does not exist and has the name of an intermediate file of the other map task
-/
def ownInput : Job := { Job.byteCount with files := [reduceName Job.byteCount.jobName 1 0, ascii ['i', 'n']] }

/-- map task 1 is through before map task 0 reads its input -/
def secondFirst : List (Action ℕ) :=
  [.register 1, .call 1 1] ++ List.replicate 4 (.work 1) ++ [.reply 1, .call 0 1] ++ List.replicate 11 (.work 0) ++
    [.reply 0, .proceed, .call 0 1] ++ List.replicate 5 (.work 0) ++ [.reply 0, .proceed, .merge]

/-- In a clean directory the sequential run counts the byte of the input. A distributed run also counts the bytes that
map task 1 has written. -/
theorem ownInput_counted : Job.Clean (Job.inputOnly [7]) ∧
    (∃ e, ownInput.sequential taggedJson (Job.inputOnly [7]) = some e ∧
      e (outputName ownInput.jobName) = some (line (ascii ['n']) (ascii ['1']))) ∧
    ∃ s h, (machine ℕ ownInput taggedJson (Job.inputOnly [7])).Run Machine.free s h ∧ s.stage = .finished ∧
      s.batch.disk (outputName ownInput.jobName) = some (line (ascii ['n']) (ascii ['9'])) := by
  refine ⟨Job.clean_inputOnly _, ?_, ?_⟩
  · have he : (ownInput.sequential taggedJson (Job.inputOnly [7])).any
        (fun e => decide (e (outputName ownInput.jobName) = some (line (ascii ['n']) (ascii ['1'])))) = true := by
      decide +kernel
    obtain ⟨e, hrun, hout⟩ := (Option.any_eq_true _ _).1 he
    exact ⟨e, hrun, of_decide_eq_true hout⟩
  · have he : ((machine ℕ ownInput taggedJson (Job.inputOnly [7])).exec Machine.free secondFirst).any
        (fun r => decide (r.1.stage = .finished ∧
          r.1.batch.disk (outputName ownInput.jobName) = some (line (ascii ['n']) (ascii ['9'])))) = true := by
      decide +kernel
    obtain ⟨s, h, hr, ht⟩ := Machine.exists_run_of_exec he
    exact ⟨s, h, hr, of_decide_eq_true ht⟩

end Master

end CS240.MapReduce
