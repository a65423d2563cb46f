/-
Who is called when: worker names are tokens, and the phases follow each other.

A name is sent on `registerChannel` once by `Register`. The goroutine of a task that receives it calls the worker, and
after a successful call sends it back; after a failed one the name is lost.

- `Stepped`, `step_cases`: what a step does to the attempts, the idle names and the history.
- `ScheduleOk`: the names are conserved, and the successful calls are those of the tasks that are finished.
- `exclusive_scheduling`: what this means for workers that register under different names.
-/
import CS240.MapReduce.Distributed

namespace CS240.MapReduce.Master

open Lib

variable {ω : Type} [DecidableEq ω] {job : Job} {json : Json} {d₀ : Disk Bytes Byte} {s s' : Master ω} {a : Action ω}
  {h evs : List (Event ω)} {phase : JobPhase}

/-! ## Steps -/

inductive Stepped (job : Job) (s : Master ω) : Action ω → Master ω → List (Event ω) → Prop
  | registered (w : ω) :
      Stepped job s (.register w) { s with workers := s.workers ++ [w], idle := s.idle ++ [w] } [.registered w]
  | called {phase : JobPhase} {t : ℕ} {w : ω} : s.stage = .scheduling phase → t < job.ntasks phase →
      s.batch.attempt t = .waiting → w ∈ s.idle →
      Stepped job s (.call t w) { s with batch := s.batch.set t (.reading w []), idle := s.idle.erase w }
        [.called phase t w]
  | worked {phase : JobPhase} {t : ℕ} {w : ω} {a : Attempt Bytes Byte ω} {d : Disk Bytes Byte} :
      s.stage = .scheduling phase → (s.batch.attempt t).who = some w → a.who = some w →
      Stepped job s (.work t) { s with batch := { s.batch.set t a with disk := d } } []
  | replied {phase : JobPhase} {t : ℕ} {w : ω} : s.stage = .scheduling phase → (s.batch.attempt t).who = some w →
      Stepped job s (.reply t) { s with batch := s.batch.set t .done, idle := s.idle ++ [w] } [.succeeded phase t w]
  | failed {phase : JobPhase} {t : ℕ} {w : ω} : s.stage = .scheduling phase → (s.batch.attempt t).who = some w →
      Stepped job s (.fail t) { s with batch := s.batch.set t .waiting } [.failed phase t w]
  | proceeded {phase : JobPhase} : s.stage = .scheduling phase → (∀ t < job.ntasks phase, s.batch.attempt t = .done) →
      Stepped job s .proceed (s.next phase) []
  | merged {d : Disk Bytes Byte} : s.stage = .merging →
      Stepped job s .merge { s with stage := .finished, batch := { s.batch with disk := d } } [.merged]

theorem stepPhase_cases (hstage : s.stage = .scheduling phase) (hs : s.stepPhase job json phase a = some (s', evs)) :
    Stepped job s a s' evs := by
  cases a with
  | register worker => cases hs
  | merge => cases hs
  | call task worker =>
    simp only [stepPhase] at hs
    split_ifs at hs with hidle
    obtain ⟨b, hstart, hs⟩ := Option.map_eq_some_iff.1 hs
    cases hs
    obtain ⟨hlt, hwaiting, rfl⟩ := Batch.start_some hstart
    rw [Job.tasks, List.length_map, List.length_range] at hlt
    exact .called hstage hlt hwaiting hidle
  | work task =>
    obtain ⟨b, hwork, hs⟩ := Option.map_eq_some_iff.1 hs
    cases hs
    obtain ⟨who, attempt, d, hwho, hwho', rfl⟩ := Batch.work_some hwork
    exact .worked hstage hwho hwho'
  | reply task =>
    obtain ⟨⟨b, worker⟩, hfinish, hs⟩ := Option.map_eq_some_iff.1 hs
    cases hs
    obtain ⟨hwriting, rfl⟩ := Batch.finish_some hfinish
    exact .replied hstage (by rw [hwriting]; rfl)
  | fail task =>
    obtain ⟨⟨b, worker⟩, hfail, hs⟩ := Option.map_eq_some_iff.1 hs
    cases hs
    obtain ⟨hwho, rfl⟩ := Batch.fail_some hfail
    exact .failed hstage hwho
  | proceed =>
    simp only [stepPhase] at hs
    split_ifs at hs with hdone
    cases hs
    refine .proceeded hstage fun t ht => ?_
    exact Attempt.isDone_iff.1 (List.all_eq_true.1 hdone t (List.mem_range.2 ht))

theorem step_cases (hs : step job json s a = some (s', evs)) : Stepped job s a s' evs := by
  unfold step at hs
  split at hs
  · cases hs
    exact .registered _
  · rename_i hstage
    obtain ⟨d, -, hs⟩ := Option.map_eq_some_iff.1 hs
    cases hs
    exact .merged hstage
  · rename_i hstage
    exact stepPhase_cases hstage hs
  · cases hs

/-! ## Names and successes -/

def isFailure (w : ω) : Event ω → Bool
  | .failed _ _ worker => decide (worker = w)
  | _ => false

omit [DecidableEq ω] in
def isSuccess (phase : JobPhase) (t : ℕ) : Event ω → Bool
  | .succeeded p task _ => decide (p = phase ∧ task = t)
  | _ => false

omit [DecidableEq ω] in
/-- the successful calls for a task -/
def successes (h : List (Event ω)) (phase : JobPhase) (t : ℕ) : ℕ := h.countP (isSuccess phase t)

/-- for how many tasks `w` is called at the moment -/
def held (job : Job) (s : Master ω) (w : ω) : ℕ :=
  match s.stage with
  | .scheduling phase => s.batch.held (job.ntasks phase) w
  | _ => 0

omit [DecidableEq ω] in
def finishedTask (job : Job) (s : Master ω) (phase : JobPhase) (t : ℕ) : Bool :=
  match s.stage with
  | .scheduling current =>
    if phase = current then (s.batch.attempt t).isDone else decide (phase = .mapPhase ∧ t < job.ntasks phase)
  | _ => decide (t < job.ntasks phase)

structure ScheduleOk (job : Job) (s : Master ω) (h : List (Event ω)) : Prop where
  /-- attempts are made at the tasks of the phase -/
  confined : ∀ phase, s.stage = .scheduling phase → ∀ t, job.ntasks phase ≤ t → s.batch.attempt t = .waiting
  quiet : (∀ phase, s.stage ≠ .scheduling phase) → ∀ t, (s.batch.attempt t).who = none
  /-- each name that was registered is idle, or with the goroutine of a task, or lost in a failed call -/
  tokens : ∀ w, s.idle.count w + s.held job w + h.countP (isFailure w) = s.workers.count w
  counted : ∀ phase t, successes h phase t = if s.finishedTask job phase t then 1 else 0

/-- the attempt at one task changes; what the step does to the idle names and what it reports are in balance -/
theorem ScheduleOk.set (hok : ScheduleOk job s h) (hstage : s.stage = .scheduling phase) {t : ℕ}
    (ht : t < job.ntasks phase) (hnot : (s.batch.attempt t).isDone = false) {a : Attempt Bytes Byte ω} {idle : List ω}
    {d : Disk Bytes Byte}
    (hidle : ∀ w, idle.count w + (if a.who = some w then 1 else 0) + evs.countP (isFailure w) =
      s.idle.count w + (if (s.batch.attempt t).who = some w then 1 else 0))
    (hevs : ∀ p t', successes evs p t' = if p = phase ∧ t' = t ∧ a.isDone then 1 else 0) :
    ScheduleOk job { s with batch := { s.batch.set t a with disk := d }, idle := idle } (h ++ evs) where
  confined := by
    intro p hp t' ht'
    obtain rfl : phase = p := Stage.scheduling.inj (hstage.symm.trans hp)
    exact (s.batch.attempt_set_of_ne (by omega) a).trans (hok.confined phase hstage t' ht')
  quiet := fun hne => absurd hstage (hne phase)
  tokens := by
    intro w
    have hold := hok.tokens w
    have hheld := Batch.held_set ht s.batch a w
    have hbalance := hidle w
    simp only [held, hstage] at hold ⊢
    rw [List.countP_append]
    have hdisk : ({ s.batch.set t a with disk := d } : Batch Bytes Byte ω).held (job.ntasks phase) w =
        (s.batch.set t a).held (job.ntasks phase) w := rfl
    rw [hdisk]
    omega
  counted := by
    intro p t'
    have hold := hok.counted p t'
    have hsplit : successes (h ++ evs) p t' = successes h p t' + successes evs p t' := List.countP_append
    rw [hsplit, hold, hevs p t']
    simp only [finishedTask, hstage]
    by_cases hp : p = phase
    · rw [if_pos hp, if_pos hp]
      by_cases htt : t' = t
      · subst htt
        simp [hp, hnot]
      · simp [htt, s.batch.attempt_set_of_ne htt]
    · simp [hp]

/-- an attempt under way is at a task of the phase, and the task is not done -/
theorem ScheduleOk.underway (hok : ScheduleOk job s h) (hstage : s.stage = .scheduling phase) {t : ℕ} {w : ω}
    (hwho : (s.batch.attempt t).who = some w) : t < job.ntasks phase ∧ (s.batch.attempt t).isDone = false := by
  refine ⟨?_, ?_⟩
  · by_contra hle
    rw [hok.confined phase hstage t (not_lt.1 hle)] at hwho
    cases hwho
  · cases hattempt : s.batch.attempt t <;> rw [hattempt] at hwho <;> first | rfl | cases hwho

/-- when all tasks of the phase are done, they are all that was attempted -/
theorem ScheduleOk.attempt_eq (hok : ScheduleOk job s h) (hstage : s.stage = .scheduling phase)
    (hdone : ∀ t < job.ntasks phase, s.batch.attempt t = .done) (t : ℕ) :
    s.batch.attempt t = if t < job.ntasks phase then .done else .waiting := by
  split_ifs with ht
  · exact hdone t ht
  · exact hok.confined phase hstage t (not_lt.1 ht)

theorem held_next (job : Job) (s : Master ω) (phase : JobPhase) (w : ω) : (s.next phase).held job w = 0 := by
  cases phase with
  | mapPhase => exact Batch.held_eq_zero.2 fun _ _ => (Option.some_ne_none w).symm
  | reducePhase => rfl

omit [DecidableEq ω] in
theorem finishedTask_next (hstage : s.stage = .scheduling phase)
    (hattempt : ∀ t, s.batch.attempt t = if t < job.ntasks phase then .done else .waiting) (p : JobPhase) (t : ℕ) :
    (s.next phase).finishedTask job p t = s.finishedTask job p t := by
  have hisDone : (s.batch.attempt t).isDone = decide (t < job.ntasks phase) := by
    rw [hattempt t]
    split_ifs with ht <;> simp [ht, Attempt.isDone]
  have hinit : ((Batch.init s.batch.disk : Batch Bytes Byte ω).attempt t).isDone = false := rfl
  cases phase <;> cases p <;> simp [finishedTask, Master.next, hstage, hisDone, hinit]

/-- the phase ends, and all its tasks are done -/
theorem ScheduleOk.next (hok : ScheduleOk job s h) (hstage : s.stage = .scheduling phase)
    (hdone : ∀ t < job.ntasks phase, s.batch.attempt t = .done) : ScheduleOk job (s.next phase) h := by
  have hattempt := hok.attempt_eq hstage hdone
  have hnone : ∀ t, (s.batch.attempt t).who = none := by
    intro t
    rw [hattempt t]
    split_ifs <;> rfl
  have hheld : ∀ w, s.held job w = (s.next phase).held job w := by
    intro w
    rw [held_next]
    simp only [held, hstage]
    exact Batch.held_eq_zero.2 fun t _ => by rw [hnone t]; exact (Option.some_ne_none w).symm
  have htokens := hok.tokens
  have hcounted := hok.counted
  simp only [hheld] at htokens
  simp only [← finishedTask_next hstage hattempt] at hcounted
  cases phase with
  | mapPhase => exact ⟨fun _ _ _ _ => rfl, fun hne => absurd rfl (hne .reducePhase), htokens, hcounted⟩
  | reducePhase => exact ⟨fun p hp => (by cases hp), fun _ => hnone, htokens, hcounted⟩

theorem ScheduleOk.register (hok : ScheduleOk job s h) (w : ω) :
    ScheduleOk job { s with workers := s.workers ++ [w], idle := s.idle ++ [w] } (h ++ [.registered w]) where
  confined := hok.confined
  quiet := hok.quiet
  tokens := by
    intro w'
    have hold := hok.tokens w'
    have hfailed : (h ++ [Event.registered w]).countP (isFailure w') = h.countP (isFailure w') := by simp [isFailure]
    calc (s.idle ++ [w]).count w' + s.held job w' + (h ++ [Event.registered w]).countP (isFailure w')
        = s.idle.count w' + s.held job w' + h.countP (isFailure w') + [w].count w' := by
          rw [hfailed, List.count_append]; omega
      _ = (s.workers ++ [w]).count w' := by rw [hold, List.count_append]
  counted := by
    intro p t
    have hsame : successes (h ++ [.registered w]) p t = successes h p t := by simp [successes, isSuccess]
    rw [hsame]
    exact hok.counted p t

theorem ScheduleOk.merge (hok : ScheduleOk job s h) (hstage : s.stage = .merging) (d : Disk Bytes Byte) :
    ScheduleOk job { s with stage := .finished, batch := { s.batch with disk := d } } (h ++ [.merged]) where
  confined := fun p hp => by cases hp
  quiet := fun _ => hok.quiet (by rw [hstage]; exact fun _ => Stage.noConfusion)
  tokens := by
    intro w
    have hold := hok.tokens w
    simp only [held, hstage] at hold ⊢
    simpa [isFailure] using hold
  counted := by
    intro p t
    have hold := hok.counted p t
    simp only [finishedTask, hstage] at hold ⊢
    simpa [successes, isSuccess] using hold

theorem count_erase_add {l : List ω} {w : ω} (hw : w ∈ l) (w' : ω) :
    (l.erase w).count w' + (if some w = some w' then 1 else 0) = l.count w' := by
  by_cases heq : w = w'
  · subst heq
    have hpos := List.count_pos_iff.2 hw
    rw [List.count_erase_self, if_pos rfl]
    omega
  · rw [List.count_erase_of_ne (Ne.symm heq), if_neg (by simpa using heq), Nat.add_zero]

theorem Stepped.scheduleOk (hs : Stepped job s a s' evs) (hok : ScheduleOk job s h) : ScheduleOk job s' (h ++ evs) := by
  cases hs with
  | registered w => exact hok.register w
  | @called phase t w hstage ht hwaiting hmem =>
    refine hok.set hstage ht (by rw [hwaiting]; rfl) ?_ ?_
    · intro w'
      simpa [Attempt.who, isFailure, hwaiting] using count_erase_add hmem w'
    · simp [successes, isSuccess, Attempt.isDone]
  | @worked phase t w a d hstage hwho hwho' =>
    obtain ⟨ht, hnot⟩ := hok.underway hstage hwho
    refine hok.set hstage ht hnot ?_ ?_
    · simp [hwho, hwho']
    · have hnot' : a.isDone = false := by cases a <;> first | rfl | cases hwho'
      simp [successes, hnot']
  | @replied phase t w hstage hwho =>
    obtain ⟨ht, hnot⟩ := hok.underway hstage hwho
    refine hok.set hstage ht hnot ?_ ?_
    · intro w'
      rw [hwho]
      simp [Attempt.who, isFailure, List.count_singleton]
    · intro p t'
      have hiff : (phase = p ∧ t = t') ↔ (p = phase ∧ t' = t) := and_congr eq_comm eq_comm
      simp [successes, isSuccess, Attempt.isDone, List.countP_singleton, hiff]
  | @failed phase t w hstage hwho =>
    obtain ⟨ht, hnot⟩ := hok.underway hstage hwho
    refine hok.set hstage ht hnot ?_ ?_
    · intro w'
      rw [hwho]
      simp [Attempt.who, isFailure, List.countP_singleton]
    · simp [successes, isSuccess, Attempt.isDone]
  | proceeded hstage hdone =>
    rw [List.append_nil]
    exact hok.next hstage hdone
  | merged hstage => exact hok.merge hstage _

/-! ## Runs -/

omit [DecidableEq ω] in
/-- workers register under different names -/
def Distinct (s : Master ω) : Action ω → Prop
  | .register worker => worker ∉ s.workers
  | _ => True

instance : DecidableRel (@Distinct ω)
  | s, .register worker => inferInstanceAs (Decidable (worker ∉ s.workers))
  | _, .call .. | _, .work _ | _, .reply _ | _, .fail _ | _, .proceed | _, .merge => inferInstanceAs (Decidable True)

omit [DecidableEq ω] in
/-- `w` is the worker of an outstanding call for `t` -/
def Assigned (s : Master ω) (t : ℕ) (w : ω) : Prop := (s.batch.attempt t).who = some w

omit [DecidableEq ω] in
def Discarded (h : List (Event ω)) (w : ω) : Prop := ∃ phase t, .failed phase t w ∈ h

omit [DecidableEq ω] in
/-- `schedule(phase)` has returned -/
def Past (s : Master ω) (phase : JobPhase) : Prop :=
  match s.stage with
  | .scheduling current => phase = .mapPhase ∧ current = .reducePhase
  | _ => True

omit [DecidableEq ω] in
/-- what a call needs of the history before it -/
def CallOk (job : Job) (h : List (Event ω)) (e : Event ω) : Prop :=
  ∀ phase t w, e = .called phase t w →
    ¬Discarded h w ∧ (phase = .reducePhase → ∀ m < job.files.length, successes h .mapPhase m = 1)

theorem countP_isFailure {w : ω} : h.countP (isFailure w) = 0 ↔ ¬Discarded h w := by
  rw [List.countP_eq_zero]
  constructor
  · rintro hnone ⟨phase, t, hmem⟩
    exact hnone _ hmem (decide_eq_true rfl)
  · intro hno e he
    cases e with
    | failed phase t worker =>
      intro hw
      obtain rfl := of_decide_eq_true hw
      exact hno ⟨phase, t, he⟩
    | _ => exact Bool.false_ne_true

theorem ScheduleOk.init (job : Job) (d : Disk Bytes Byte) :
    ScheduleOk job (⟨.scheduling .mapPhase, .init d, [], []⟩ : Master ω) [] where
  confined := fun _ _ _ _ => rfl
  quiet := fun _ _ => rfl
  tokens := by
    intro w
    have hzero : held job (⟨.scheduling .mapPhase, .init d, [], []⟩ : Master ω) w = 0 :=
      Batch.held_eq_zero.2 fun t _ => (Option.some_ne_none w).symm
    rw [hzero]
    rfl
  counted := by
    intro phase t
    cases phase <;> simp [successes, finishedTask, Batch.init, Attempt.isDone]

/-- a name that is idle has not failed, and the reduce phase comes after all the map tasks -/
theorem ScheduleOk.callOk (hok : ScheduleOk job s h) (hnodup : s.workers.Nodup) {t : ℕ} {w : ω}
    (hstage : s.stage = .scheduling phase) (hidle : w ∈ s.idle) : CallOk job h (.called phase t w) := by
  rintro p t' w' heq
  cases heq
  refine ⟨countP_isFailure.1 ?_, ?_⟩
  · have htokens := hok.tokens w
    have hpos := List.count_pos_iff.2 hidle
    have hone := List.nodup_iff_count_le_one.1 hnodup w
    omega
  · rintro rfl m hm
    rw [hok.counted]
    simp [finishedTask, hstage, Job.ntasks, hm]

structure RunOk (job : Job) (s : Master ω) (h : List (Event ω)) : Prop where
  schedule : ScheduleOk job s h
  nodup : s.workers.Nodup
  calls : ∀ h₁ e h₂, h = h₁ ++ e :: h₂ → CallOk job h₁ e

theorem Stepped.runOk (hs : Stepped job s a s' evs) (hd : Distinct s a) (hok : RunOk job s h) :
    RunOk job s' (h ++ evs) := by
  refine ⟨hs.scheduleOk hok.schedule, ?_, ?_⟩
  · cases hs with
    | registered w => exact List.nodup_append_comm.1 (List.nodup_cons.2 ⟨hd, hok.nodup⟩)
    | @proceeded phase hstage hdone => cases phase <;> exact hok.nodup
    | _ => exact hok.nodup
  · cases hs with
    | called hstage ht hwaiting hidle =>
      exact Machine.forall_split_snoc hok.calls (hok.schedule.callOk hok.nodup hstage hidle)
    | worked => rw [List.append_nil]; exact hok.calls
    | proceeded => rw [List.append_nil]; exact hok.calls
    | _ => exact Machine.forall_split_snoc hok.calls fun _ _ _ heq => by cases heq

theorem run_runOk (hr : (machine ω job json d₀).Run Distinct s h) : RunOk job s h := by
  have hinit : RunOk job (machine ω job json d₀).init [] := by
    refine ⟨ScheduleOk.init job d₀, List.nodup_nil, ?_⟩
    intro h₁ e h₂ heq
    simp at heq
  refine hr.invariant hinit ?_
  intro s h a s' evs hok hd hs
  exact (step_cases hs).runOk hd hok

theorem ScheduleOk.not_assigned (hok : ScheduleOk job s h) {w : ω} (hheld : s.held job w = 0) (t : ℕ) :
    ¬s.Assigned t w := by
  intro hwho
  cases hstage : s.stage with
  | scheduling phase =>
    simp only [held, hstage] at hheld
    exact Batch.held_eq_zero.1 hheld t (hok.underway hstage hwho).1 hwho
  | _ =>
    rw [Assigned, hok.quiet (by rw [hstage]; exact fun _ => Stage.noConfusion) t] at hwho
    cases hwho

theorem ScheduleOk.assigned (hok : ScheduleOk job s h) {w : ω} (hheld : s.held job w = 1) : ∃! t, s.Assigned t w := by
  cases hstage : s.stage with
  | scheduling phase =>
    simp only [held, hstage] at hheld
    obtain ⟨t, ⟨-, hwho⟩, hunique⟩ := Batch.existsUnique_of_held hheld
    exact ⟨t, hwho, fun t' hwho' => hunique t' ⟨(hok.underway hstage hwho').1, hwho'⟩⟩
  | _ => simp [held, hstage] at hheld

/-- **Exclusive Scheduling.** Workers register under different names, whenever they do and whatever becomes of their
calls. Each of them is idle, or has one outstanding call, or was discarded after a failed one and is never called again.
No task has two successful calls, and each has one when `schedule` returns. Reduce tasks are called when all map tasks
have had theirs. -/
theorem exclusive_scheduling (job : Job) (json : Json) (d₀ : Disk Bytes Byte) {s : Master ω} {h : List (Event ω)}
    (hr : (machine ω job json d₀).Run Distinct s h) :
    (∀ w ∈ s.workers,
      (s.idle.count w = 1 ∧ (∀ t, ¬s.Assigned t w) ∧ ¬Discarded h w) ∨
      (w ∉ s.idle ∧ (∃! t, s.Assigned t w) ∧ ¬Discarded h w) ∨
      (w ∉ s.idle ∧ (∀ t, ¬s.Assigned t w) ∧ Discarded h w)) ∧
    (∀ h₁ phase t w h₂, h = h₁ ++ .failed phase t w :: h₂ → ∀ phase' t', .called phase' t' w ∉ h₂) ∧
    (∀ phase t, successes h phase t ≤ 1) ∧
    (∀ phase, s.Past phase → ∀ t < job.ntasks phase, successes h phase t = 1) ∧
    (∀ h₁ t w h₂, h = h₁ ++ .called .reducePhase t w :: h₂ → ∀ m < job.files.length, successes h₁ .mapPhase m = 1) := by
  have hok := run_runOk hr
  refine ⟨?_, ?_, ?_, ?_, ?_⟩
  · intro w hw
    have htokens := hok.schedule.tokens w
    rw [List.count_eq_one_of_mem hok.nodup hw] at htokens
    have hcases : (s.idle.count w = 1 ∧ s.held job w = 0 ∧ h.countP (isFailure w) = 0) ∨
        (s.idle.count w = 0 ∧ s.held job w = 1 ∧ h.countP (isFailure w) = 0) ∨
        (s.idle.count w = 0 ∧ s.held job w = 0 ∧ h.countP (isFailure w) ≠ 0) := by omega
    rcases hcases with ⟨hidle, hheld, hfail⟩ | ⟨hidle, hheld, hfail⟩ | ⟨hidle, hheld, hfail⟩
    · exact .inl ⟨hidle, hok.schedule.not_assigned hheld, countP_isFailure.1 hfail⟩
    · exact .inr (.inl ⟨List.count_eq_zero.1 hidle, hok.schedule.assigned hheld, countP_isFailure.1 hfail⟩)
    · exact .inr (.inr ⟨List.count_eq_zero.1 hidle, hok.schedule.not_assigned hheld,
        not_not.1 (mt countP_isFailure.2 hfail)⟩)
  · intro h₁ phase t w h₂ heq phase' t' hmem
    obtain ⟨between, later, rfl⟩ := List.append_of_mem hmem
    have hcall := hok.calls (h₁ ++ .failed phase t w :: between) (.called phase' t' w) later (by simp [heq])
    exact (hcall phase' t' w rfl).1 ⟨phase, t, by simp⟩
  · intro phase t
    rw [hok.schedule.counted]
    split_ifs <;> omega
  · intro phase hpast t ht
    rw [hok.schedule.counted]
    refine if_pos ?_
    cases hstage : s.stage with
    | scheduling current =>
      simp only [Past, hstage] at hpast
      obtain ⟨rfl, rfl⟩ := hpast
      simp [finishedTask, hstage, ht]
    | _ => simp [finishedTask, hstage, ht]
  · intro h₁ t w h₂ heq
    exact (hok.calls h₁ _ h₂ heq .reducePhase t w rfl).2 rfl

theorem exclusive_scheduling_failedOnce : ∃ s h,
    (machine ℕ Job.byteCount taggedJson (Job.inputOnly [7, 8])).Run Distinct s h ∧ s.workers = [1, 2] ∧ Discarded h 1 ∧
      1 ∉ s.idle ∧ successes h .mapPhase 0 = 1 ∧ successes h .reducePhase 0 = 1 := by
  have he : ((machine ℕ Job.byteCount taggedJson (Job.inputOnly [7, 8])).exec Distinct failedOnce).any
      (fun r => decide (r.1.stage = .finished ∧ r.1.workers = [1, 2] ∧ .failed .mapPhase 0 1 ∈ r.2)) = true := by
    decide +kernel
  obtain ⟨s, h, hr, ht⟩ := Machine.exists_run_of_exec he
  have hfacts : s.stage = .finished ∧ s.workers = [1, 2] ∧ .failed .mapPhase 0 1 ∈ h := of_decide_eq_true ht
  obtain ⟨hstage, hworkers, hfailed⟩ := hfacts
  have hdiscarded : Discarded h 1 := ⟨.mapPhase, 0, hfailed⟩
  have hpast : ∀ phase, s.Past phase := by simp [Past, hstage]
  obtain ⟨hstates, -, -, honce, -⟩ := exclusive_scheduling _ _ _ hr
  have hidle : 1 ∉ s.idle := by
    rcases hstates 1 (by simp [hworkers]) with ⟨-, -, hno⟩ | ⟨hidle, -⟩ | ⟨hidle, -⟩
    · exact absurd hdiscarded hno
    · exact hidle
    · exact hidle
  exact ⟨s, h, hr, hworkers, hdiscarded, hidle, honce _ (hpast _) 0 (by decide), honce _ (hpast _) 0 (by decide)⟩

end CS240.MapReduce.Master
