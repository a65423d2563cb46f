/-
The distributed run comes to an end.

A step of the master or of a worker that is neither a registration nor a failure of a call is steady. Every steady step
takes one away from the steps the run has left (`step_stepsLeft`), and as long as one registered worker has not failed,
a steady step is possible until the run is finished (`steady_step`).

- `distributed_finishes`: once calls fail no more, the run finishes, after a number of steady steps that is known in
  advance.
- `starved_iff`: `schedule` hangs exactly when all registered workers have failed.
-/
import CS240.Lib.Remaining
import CS240.MapReduce.Scheduling

namespace CS240.MapReduce.Master

open Lib

variable {ω : Type} [DecidableEq ω] {job : Job} {json : Json} {d₀ d₁ : Disk Bytes Byte} {s s' : Master ω} {a : Action ω}
  {h evs : List (Event ω)} {phase : JobPhase}

/-- neither a registration nor a failure -/
def Steady : Action ω → Prop
  | .register _ | .fail _ => False
  | _ => True

instance : DecidablePred (@Steady ω)
  | .register _ | .fail _ => inferInstanceAs (Decidable False)
  | .call .. | .work _ | .reply _ | .proceed | .merge => inferInstanceAs (Decidable True)

/-! ## The tasks of a phase can be carried out -/

theorem getElem?_tasks (json : Json) {t : ℕ} (ht : t < job.ntasks phase) :
    ∃ task, (job.tasks json phase)[t]? = some task := by
  refine ⟨_, List.getElem?_eq_getElem ?_⟩
  rw [Job.tasks, List.length_map, List.length_range]
  exact ht

theorem tasks_length : (job.tasks json phase).length = job.ntasks phase := by
  rw [Job.tasks, List.length_map, List.length_range]

theorem tasks_plan (hn : 1 ≤ job.nReduce) {i : ℕ} {t : FileTask Bytes Byte} (ht : (job.tasks json phase)[i]? = some t)
    (d : Disk Bytes Byte) : (t.plan d).isSome := by
  cases phase with
  | mapPhase =>
    rw [tasks_mapPhase] at ht
    obtain ⟨f, hf, rfl⟩ := Job.getElem?_maps.1 ht
    rw [Job.doMap_plan hf, if_neg (by omega)]
    rfl
  | reducePhase =>
    rw [tasks_reducePhase] at ht
    obtain ⟨-, rfl⟩ := Job.getElem?_reduces.1 ht
    rw [Job.doReduce_plan]
    rfl

/-! ## What is left to do -/

/-- the steady steps that are left; `d₁` is the directory after the map phase -/
def stepsLeft (job : Job) (json : Json) (d₀ d₁ : Disk Bytes Byte) (s : Master ω) : ℕ :=
  match s.stage with
  | .scheduling .mapPhase =>
    s.batch.remaining (job.tasks json .mapPhase) d₀ +
      ((Batch.init d₁ : Batch Bytes Byte ω).remaining (job.tasks json .reducePhase) d₁ + 3)
  | .scheduling .reducePhase => s.batch.remaining (job.tasks json .reducePhase) d₁ + 2
  | .merging => 1
  | .finished => 0

/-- the directory in which the current phase began -/
def phaseDisk (d₀ d₁ : Disk Bytes Byte) : JobPhase → Disk Bytes Byte
  | .mapPhase => d₀
  | .reducePhase => d₁

omit [DecidableEq ω] in
theorem PhaseOk.sound (hok : PhaseOk job json d₀ s) (hd₁ : runAll (job.tasks json .mapPhase) d₀ = some d₁)
    (hstage : s.stage = .scheduling phase) : s.batch.Sound (job.tasks json phase) (phaseDisk d₀ d₁ phase) := by
  cases phase with
  | mapPhase =>
    simp only [PhaseOk, hstage] at hok
    exact hok
  | reducePhase =>
    simp only [PhaseOk, hstage] at hok
    obtain ⟨d, hd, hb⟩ := hok
    cases hd.symm.trans hd₁
    exact hb

omit [DecidableEq ω] in
/-- within a phase only what the batch has left changes -/
theorem stepsLeft_batch {b b' : Batch Bytes Byte ω} (hstage : s.stage = .scheduling phase) {idle : List ω}
    (hb : s.batch = b)
    (hless : b'.remaining (job.tasks json phase) (phaseDisk d₀ d₁ phase) + 1 =
      b.remaining (job.tasks json phase) (phaseDisk d₀ d₁ phase)) :
    stepsLeft job json d₀ d₁ { s with batch := b', idle := idle } + 1 = stepsLeft job json d₀ d₁ s := by
  subst hb
  cases phase <;> simp only [stepsLeft, hstage, phaseDisk] at hless ⊢ <;> omega

omit [DecidableEq ω] in
/-- when all tasks are done, the end of the phase is what is left of it -/
theorem stepsLeft_next (hstage : s.stage = .scheduling phase)
    (hdone : ∀ t < job.ntasks phase, s.batch.attempt t = .done) :
    stepsLeft job json d₀ d₁ (s.next phase) + 1 = stepsLeft job json d₀ d₁ s := by
  have hzero : s.batch.remaining (job.tasks json phase) (phaseDisk d₀ d₁ phase) = 0 :=
    Batch.remaining_done fun i hi => hdone i (by rwa [tasks_length] at hi)
  cases phase with
  | mapPhase =>
    simp only [phaseDisk] at hzero
    simp only [stepsLeft, next, hstage, hzero]
    show (Batch.init d₁ : Batch Bytes Byte ω).remaining (job.tasks json .reducePhase) d₁ + 2 + 1 = _
    omega
  | reducePhase =>
    simp only [phaseDisk] at hzero
    simp only [stepsLeft, next, hstage, hzero]

theorem stepPhase_stepsLeft (hstage : s.stage = .scheduling phase) (hok : ScheduleOk job s h)
    (hsound : s.batch.Sound (job.tasks json phase) (phaseDisk d₀ d₁ phase)) (hsteady : Steady a)
    (hs : s.stepPhase job json phase a = some (s', evs)) :
    stepsLeft job json d₀ d₁ s' + 1 = stepsLeft job json d₀ d₁ s := by
  cases a with
  | register | fail => exact hsteady.elim
  | merge => cases hs
  | call task worker =>
    simp only [stepPhase] at hs
    split_ifs at hs with hidle
    obtain ⟨b, hstart, hs⟩ := Option.map_eq_some_iff.1 hs
    cases hs
    exact stepsLeft_batch hstage rfl (Batch.remaining_start hstart)
  | work task =>
    obtain ⟨b, hwork, hs⟩ := Option.map_eq_some_iff.1 hs
    cases hs
    exact stepsLeft_batch hstage rfl (hsound.remaining_work hwork)
  | reply task =>
    obtain ⟨⟨b, worker⟩, hfinish, hs⟩ := Option.map_eq_some_iff.1 hs
    cases hs
    have hwho : (s.batch.attempt task).who = some worker := by
      rw [(Batch.finish_some hfinish).1]
      rfl
    obtain ⟨t, ht⟩ := getElem?_tasks json (hok.underway hstage hwho).1
    exact stepsLeft_batch hstage rfl (Batch.remaining_finish ht hfinish)
  | proceed =>
    cases stepPhase_cases hstage hs with
    | proceeded hstage' hdone =>
      cases hstage.symm.trans hstage'
      exact stepsLeft_next hstage hdone

/-- **A steady step takes one away from what is left.** -/
theorem step_stepsLeft (hd₁ : runAll (job.tasks json .mapPhase) d₀ = some d₁) (hphase : PhaseOk job json d₀ s)
    (hok : ScheduleOk job s h) (hsteady : Steady a) (hs : step job json s a = some (s', evs)) :
    stepsLeft job json d₀ d₁ s' + 1 = stepsLeft job json d₀ d₁ s := by
  unfold step at hs
  split at hs
  · exact hsteady.elim
  · rename_i hstage
    obtain ⟨d, -, hs⟩ := Option.map_eq_some_iff.1 hs
    cases hs
    simp only [stepsLeft, hstage]
  · rename_i hstage
    exact stepPhase_stepsLeft hstage hok (hphase.sound hd₁ hstage) hsteady hs
  · cases hs

/-- a registration leaves the tasks as they are -/
theorem register_stepsLeft {w : ω} (hs : step job json s (.register w) = some (s', evs)) :
    stepsLeft job json d₀ d₁ s' = stepsLeft job json d₀ d₁ s := by
  cases hs
  rfl

/-! ## Somebody can go on -/

/-- an attempt under way can go on -/
theorem underway_step (hn : 1 ≤ job.nReduce) (hstage : s.stage = .scheduling phase) (hok : ScheduleOk job s h)
    {d : Disk Bytes Byte} (hsound : s.batch.Sound (job.tasks json phase) d) {t : ℕ} {w : ω}
    (hwho : (s.batch.attempt t).who = some w) : ∃ a, Steady a ∧ (step job json s a).isSome := by
  obtain ⟨task, ht⟩ := getElem?_tasks json (hok.underway hstage hwho).1
  rcases hsound.can_go ht (tasks_plan hn ht d) hwho with hwork | hfinish
  · exact ⟨.work t, trivial, by simpa [step, hstage, stepPhase] using hwork⟩
  · exact ⟨.reply t, trivial, by simpa [step, hstage, stepPhase] using hfinish⟩

/-- a worker that has not failed is idle or at work -/
theorem ScheduleOk.available (hok : ScheduleOk job s h) {w : ω} (hw : w ∈ s.workers) (hgood : ¬Discarded h w) :
    w ∈ s.idle ∨ ∃ phase t, s.stage = .scheduling phase ∧ (s.batch.attempt t).who = some w := by
  have htokens := hok.tokens w
  have hpos := List.count_pos_iff.2 hw
  rw [countP_isFailure.2 hgood] at htokens
  by_cases hidle : w ∈ s.idle
  · exact .inl hidle
  · right
    rw [List.count_eq_zero.2 hidle] at htokens
    cases hstage : s.stage with
    | scheduling phase =>
      simp only [held, hstage] at htokens
      have hheld : s.batch.held (job.ntasks phase) w ≠ 0 := by omega
      rw [Ne, Batch.held_eq_zero] at hheld
      push Not at hheld
      obtain ⟨t, -, hwho⟩ := hheld
      exact ⟨phase, t, rfl, hwho⟩
    | merging | finished =>
      simp only [held, hstage] at htokens
      omega

/-- **No deadlock while a worker is left**: until the run is finished, a steady step is possible. -/
theorem steady_step (hn : 1 ≤ job.nReduce) (hd₁ : runAll (job.tasks json .mapPhase) d₀ = some d₁)
    (hphase : PhaseOk job json d₀ s) (hok : ScheduleOk job s h) {w : ω} (hw : w ∈ s.workers) (hgood : ¬Discarded h w)
    (hrunning : s.stage ≠ .finished) : ∃ a, Steady a ∧ (step job json s a).isSome := by
  cases hstage : s.stage with
  | finished => exact absurd hstage hrunning
  | merging =>
    simp only [PhaseOk, hstage, tasks_reducePhase] at hphase
    obtain ⟨d, -, hreduces⟩ := hphase
    obtain ⟨e, hmerge⟩ := merge_run_isSome hreduces
    exact ⟨.merge, trivial, by simp [step, hstage, hmerge]⟩
  | scheduling phase =>
    have hsound := hphase.sound hd₁ hstage
    by_cases hdone : ∀ t < job.ntasks phase, s.batch.attempt t = .done
    · refine ⟨.proceed, trivial, ?_⟩
      have hall : ((List.range (job.ntasks phase)).all fun task => (s.batch.attempt task).isDone) = true :=
        List.all_eq_true.2 fun t ht => Attempt.isDone_iff.2 (hdone t (List.mem_range.1 ht))
      simp [step, hstage, stepPhase, hall]
    · push Not at hdone
      obtain ⟨t, ht, hnot⟩ := hdone
      rcases hok.available hw hgood with hidle | ⟨_, t', -, hwho⟩
      · -- the worker takes the task, unless somebody is at it
        cases hattempt : s.batch.attempt t with
        | done => exact absurd hattempt hnot
        | waiting =>
          obtain ⟨task, htask⟩ := getElem?_tasks json ht
          exact ⟨.call t w, trivial, by simp [step, hstage, stepPhase, hidle, Batch.start, htask, hattempt]⟩
        | reading w' | writing w' => exact underway_step hn hstage hok hsound (t := t) (w := w') (by rw [hattempt]; rfl)
      · exact underway_step hn hstage hok hsound hwho

/-! ## Runs -/

theorem run_scheduleOk {ok : Master ω → Action ω → Prop} (hr : (machine ω job json d₀).Run ok s h) :
    ScheduleOk job s h :=
  hr.invariant (I := ScheduleOk job) (ScheduleOk.init job d₀) fun _ _ _ _ _ hI _ hs => (step_cases hs).scheduleOk hI

/-- a step other than a failure loses no worker -/
theorem Stepped.keeps (hs : Stepped job s a s' evs) (hfails : ∀ t, .fail t ≠ a) {w : ω} (hw : w ∈ s.workers)
    (hgood : ¬Discarded h w) : w ∈ s'.workers ∧ ¬Discarded (h ++ evs) w := by
  have hlater : (∀ phase t, .failed phase t w ∉ evs) → ¬Discarded (h ++ evs) w := by
    rintro hno ⟨phase, t, hmem⟩
    rcases List.mem_append.1 hmem with hmem | hmem
    · exact hgood ⟨phase, t, hmem⟩
    · exact hno phase t hmem
  cases hs with
  | failed => exact absurd rfl (hfails _)
  | registered => exact ⟨List.mem_append_left _ hw, hlater (by simp)⟩
  | @proceeded phase => exact ⟨by cases phase <;> exact hw, hlater (by simp)⟩
  | called | worked | replied | merged => exact ⟨hw, hlater (by simp)⟩

/-- steady steps cost one each, registrations nothing, and they end with the job -/
theorem execFrom_stepsLeft (hin : job.InputsApart) (hn : 1 ≤ job.nReduce)
    (hd₁ : runAll (job.tasks json .mapPhase) d₀ = some d₁) {w : ω} {as : List (Action ω)} {h' : List (Event ω)}
    (hr : (machine ω job json d₀).Run Machine.free s h) (hw : w ∈ s.workers) (hgood : ¬Discarded h w)
    (hfails : ∀ t, .fail t ∉ as) (he : (machine ω job json d₀).execFrom Machine.free s h as = some (s', h')) :
    stepsLeft job json d₀ d₁ s' + as.countP (Steady ·) = stepsLeft job json d₀ d₁ s ∧
      (s'.stage = .finished ∨ ∃ a, Steady a ∧ (step job json s' a).isSome) := by
  induction as generalizing s h with
  | nil =>
    cases he
    refine ⟨rfl, or_iff_not_imp_left.2 fun hrunning => ?_⟩
    exact steady_step hn hd₁ (run_phaseOk hin hr) (run_scheduleOk hr) hw hgood hrunning
  | cons a as ih =>
    simp only [List.mem_cons, not_or] at hfails
    simp only [Machine.execFrom] at he
    split_ifs at he
    split at he
    · cases he
    · rename_i s₁ evs hs
      obtain ⟨hw₁, hgood₁⟩ := (step_cases hs).keeps (fun t => (hfails t).1) hw hgood
      obtain ⟨hcount, hend⟩ := ih (hr.step trivial hs) hw₁ hgood₁ (fun t => (hfails t).2) he
      refine ⟨?_, hend⟩
      by_cases hsteady : Steady a
      · have hone := step_stepsLeft hd₁ (run_phaseOk hin hr) (run_scheduleOk hr) hsteady hs
        rw [List.countP_cons, if_pos (decide_eq_true hsteady)]
        omega
      · rw [List.countP_cons, if_neg (by simpa using hsteady), Nat.add_zero]
        cases a with
        | register w => rw [hcount, register_stepsLeft hs]
        | fail t => exact absurd rfl (hfails t).1
        | _ => exact absurd trivial hsteady

omit [DecidableEq ω] in
theorem stepsLeft_eq_zero (job : Job) (json : Json) (d₀ d₁ : Disk Bytes Byte) (s : Master ω) :
    stepsLeft job json d₀ d₁ s = 0 ↔ s.stage = .finished := by
  unfold stepsLeft
  split <;> simp [*]

/-- **Termination.** Once calls fail no more, and one of the registered workers is not among those that failed, the run
finishes: the number of steady steps it takes is settled, whatever their order and whoever registers meanwhile, until
then another one is possible, and the directory in the end is the one that the sequential run leaves. -/
theorem distributed_finishes (job : Job) (json : Json) (d₀ : Disk Bytes Byte) (hin : job.InputsApart)
    (hn : 1 ≤ job.nReduce) {s : Master ω} {h : List (Event ω)} (hr : (machine ω job json d₀).Run Machine.free s h)
    {w : ω} (hw : w ∈ s.workers) (hgood : ¬Discarded h w) :
    ∃ n, ∀ as s' h', (∀ t, .fail t ∉ as) → (machine ω job json d₀).execFrom Machine.free s h as = some (s', h') →
      as.countP (Steady ·) ≤ n ∧ (as.countP (Steady ·) = n ↔ s'.stage = .finished) ∧
      (as.countP (Steady ·) < n → ∃ a, Steady a ∧ (step job json s' a).isSome) ∧
      (as.countP (Steady ·) = n → job.sequential json d₀ = some s'.batch.disk) := by
  obtain ⟨d₁, hmaps, -⟩ := Job.maps_run json d₀ hin hn
  rw [← tasks_mapPhase] at hmaps
  refine ⟨stepsLeft job json d₀ d₁ s, fun as s' h' hfails he => ?_⟩
  obtain ⟨hcount, hend⟩ := execFrom_stepsLeft hin hn hmaps hr hw hgood hfails he
  have hfinished : as.countP (Steady ·) = stepsLeft job json d₀ d₁ s ↔ s'.stage = .finished := by
    rw [← stepsLeft_eq_zero job json d₀ d₁ s']
    omega
  refine ⟨by omega, hfinished, fun hlt => ?_, fun heq => ?_⟩
  · exact hend.resolve_left fun hstage => absurd (hfinished.2 hstage) (by omega)
  · have hok := run_phaseOk hin (.trans hr (Machine.path_of_execFrom he))
    simpa only [PhaseOk, hfinished.1 heq] using hok

/-- after worker 1 has failed and worker 2 has registered, no call fails any more -/
theorem distributed_finishes_failedOnce : ∃ s h s' h',
    (machine ℕ Job.byteCount taggedJson (Job.inputOnly [7, 8])).Run Machine.free s h ∧ Discarded h 1 ∧
      (machine ℕ Job.byteCount taggedJson (Job.inputOnly [7, 8])).execFrom Machine.free s h (failedOnce.drop 8) =
        some (s', h') ∧
      Job.byteCount.sequential taggedJson (Job.inputOnly [7, 8]) = some s'.batch.disk := by
  have he : ((machine ℕ Job.byteCount taggedJson (Job.inputOnly [7, 8])).exec Machine.free (failedOnce.take 8)).any
      (fun r => decide (.failed .mapPhase 0 1 ∈ r.2 ∧ 2 ∈ r.1.workers ∧ r.2.countP (isFailure 2) = 0) &&
        ((machine ℕ Job.byteCount taggedJson (Job.inputOnly [7, 8])).execFrom Machine.free r.1 r.2
          (failedOnce.drop 8)).any (fun r' => decide (r'.1.stage = .finished))) = true := by decide +kernel
  obtain ⟨s, h, hr, ht⟩ := Machine.exists_run_of_exec he
  obtain ⟨hfacts, hrest⟩ := Bool.and_eq_true_iff.1 ht
  obtain ⟨hfailed, hw, hcount⟩ : .failed .mapPhase 0 1 ∈ h ∧ 2 ∈ s.workers ∧ h.countP (isFailure 2) = 0 :=
    of_decide_eq_true hfacts
  obtain ⟨⟨s', h'⟩, he', hstage⟩ := (Option.any_eq_true _ _).1 hrest
  obtain ⟨n, hn⟩ := distributed_finishes Job.byteCount taggedJson (Job.inputOnly [7, 8]) Job.byteCount_inputsApart
    (by decide) hr hw (countP_isFailure.1 hcount)
  obtain ⟨-, hiff, -, hdisk⟩ := hn (failedOnce.drop 8) s' h' (by simp [failedOnce]) he'
  exact ⟨s, h, s', h', hr, ⟨.mapPhase, 0, hfailed⟩, he', hdisk (hiff.2 (of_decide_eq_true hstage))⟩

/-! ## Without workers -/

/-- workers that have all failed are neither idle nor called -/
theorem ScheduleOk.all_lost (hok : ScheduleOk job s h) (hnodup : s.workers.Nodup)
    (hlost : ∀ w ∈ s.workers, Discarded h w) (w : ω) : w ∉ s.idle ∧ s.held job w = 0 := by
  have htokens := hok.tokens w
  have hone := List.nodup_iff_count_le_one.1 hnodup w
  have hzero : s.idle.count w = 0 ∧ s.held job w = 0 := by
    by_cases hw : w ∈ s.workers
    · have hfailed : h.countP (isFailure w) ≠ 0 := fun hnone => countP_isFailure.1 hnone (hlost w hw)
      omega
    · rw [List.count_eq_zero.2 hw] at htokens
      omega
  exact ⟨List.count_eq_zero.1 hzero.1, hzero.2⟩

/-- **Starvation.** While a task of the phase is not done, `schedule` waits for a worker to register, and nothing else
can happen, exactly when all workers that have registered so far have failed. -/
theorem starved_iff (job : Job) (json : Json) (d₀ : Disk Bytes Byte) (hin : job.InputsApart) (hn : 1 ≤ job.nReduce)
    {s : Master ω} {h : List (Event ω)} (hr : (machine ω job json d₀).Run Distinct s h) {phase : JobPhase}
    (hstage : s.stage = .scheduling phase) (hopen : ∃ t < job.ntasks phase, s.batch.attempt t ≠ .done) :
    (∀ a, (step job json s a).isSome → ∃ w, a = .register w) ↔ ∀ w ∈ s.workers, Discarded h w := by
  have hok := run_runOk hr
  constructor
  · intro honly w hw
    by_contra hgood
    obtain ⟨d₁, hmaps, -⟩ := Job.maps_run json d₀ hin hn
    rw [← tasks_mapPhase] at hmaps
    obtain ⟨a, hsteady, ha⟩ :=
      steady_step hn hmaps (run_phaseOk hin (hr.mono fun _ _ _ => trivial)) hok.schedule hw hgood
      (by rw [hstage]; exact Stage.noConfusion)
    obtain ⟨w', rfl⟩ := honly a ha
    exact hsteady
  · intro hlost a ha
    have hnobody := hok.schedule.all_lost hok.nodup hlost
    have hnone : ∀ {t w}, (s.batch.attempt t).who = some w → False := fun {t w} hwho =>
      hok.schedule.not_assigned (hnobody w).2 t hwho
    obtain ⟨⟨s', evs⟩, hs⟩ := Option.isSome_iff_exists.1 ha
    cases step_cases hs with
    | registered w => exact ⟨w, rfl⟩
    | called _ _ _ hidle => exact absurd hidle (hnobody _).1
    | worked _ hwho _ | replied _ hwho | failed _ hwho => exact (hnone hwho).elim
    | proceeded hstage' hdone =>
      cases hstage.symm.trans hstage'
      obtain ⟨t, ht, hnot⟩ := hopen
      exact absurd (hdone t ht) hnot
    | merged hstage' => rw [hstage] at hstage'; cases hstage'

/-- the only worker fails before its first read -/
theorem starved_iff_onlyWorker : ∃ s h,
    (machine ℕ Job.byteCount taggedJson (Job.inputOnly [7, 8])).Run Distinct s h ∧ s.workers = [1] ∧
      ∀ a, (step Job.byteCount taggedJson s a).isSome → ∃ w, a = .register w := by
  have he : ((machine ℕ Job.byteCount taggedJson (Job.inputOnly [7, 8])).exec Distinct
      [.register 1, .call 0 1, .fail 0]).any
      (fun r => decide (r.1.stage = .scheduling .mapPhase ∧ r.1.batch.attempt 0 ≠ .done ∧ r.1.workers = [1] ∧
        .failed .mapPhase 0 1 ∈ r.2)) = true := by decide +kernel
  obtain ⟨s, h, hr, ht⟩ := Machine.exists_run_of_exec he
  obtain ⟨hstage, hopen, hworkers, hfailed⟩ : s.stage = .scheduling .mapPhase ∧ s.batch.attempt 0 ≠ .done ∧
    s.workers = [1] ∧ .failed .mapPhase 0 1 ∈ h := of_decide_eq_true ht
  refine ⟨s, h, hr, hworkers, ?_⟩
  refine (starved_iff _ _ _ Job.byteCount_inputsApart (by decide) hr hstage ⟨0, by decide, hopen⟩).2 ?_
  intro w hw
  obtain rfl : w = 1 := by simpa [hworkers] using hw
  exact ⟨.mapPhase, 0, hfailed⟩

end CS240.MapReduce.Master
