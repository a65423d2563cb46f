/-
A batch of file tasks carried out by workers that may fail.

Each task is attempted until an attempt succeeds. Attempts of different tasks interleave in single reads and writes; an
attempt can break off anywhere and leave whatever it has written, and the next one starts from the beginning.

`Batch.held n b w`: for how many tasks `w` makes an attempt; `held_set` says how it changes with one attempt.

`Batch.Sound ts d₀ b`: the directory of `b` is `d₀`, changed only in files the tasks write, and each attempt under way
is an attempt as it would have gone in `d₀`. Every step keeps it, for independent tasks. When all tasks are done, the
directory is the one in which the tasks were run one after the other, once each (`Batch.Sound.finished`): whatever
failed attempts left behind was in files that the successful one created anew.
-/
import CS240.Lib.Files

namespace CS240.Lib

/-- how far a task has come; an attempt under way is made by `who` -/
inductive Attempt (N B ω : Type) where
  | waiting
  /-- it has read these answers so far -/
  | reading (who : ω) (answers : List (Option (List B)))
  /-- it has read everything, and these writes are left -/
  | writing (who : ω) (rest : List (Write N B))
  | done
deriving DecidableEq, Repr

def Attempt.isDone {N B ω : Type} : Attempt N B ω → Bool
  | .done => true
  | _ => false

theorem Attempt.isDone_iff {N B ω : Type} {a : Attempt N B ω} : a.isDone = true ↔ a = .done := by
  cases a <;> simp [isDone]

/-- who makes the attempt that is under way -/
def Attempt.who {N B ω : Type} : Attempt N B ω → Option ω
  | .reading who _ => some who
  | .writing who _ => some who
  | _ => none

structure Batch (N B ω : Type) where
  disk : Disk N B
  attempt : ℕ → Attempt N B ω

namespace Batch

variable {N B ω : Type}

/-- nothing attempted yet -/
def init (d : Disk N B) : Batch N B ω := ⟨d, fun _ => .waiting⟩

variable [DecidableEq N]

omit [DecidableEq N] in
def set (b : Batch N B ω) (i : ℕ) (a : Attempt N B ω) : Batch N B ω :=
  { b with attempt := Function.update b.attempt i a }

omit [DecidableEq N] in
/-- a new attempt at a task that is waiting -/
def start (ts : List (FileTask N B)) (b : Batch N B ω) (i : ℕ) (who : ω) : Option (Batch N B ω) :=
  match ts[i]?, b.attempt i with
  | some _, .waiting => some (b.set i (.reading who []))
  | _, _ => none

/-- the next read or write of an attempt; a task that panics gets no further -/
def work (ts : List (FileTask N B)) (b : Batch N B ω) (i : ℕ) : Option (Batch N B ω) :=
  match ts[i]?, b.attempt i with
  | some t, .reading who answers =>
    match t.reads[answers.length]? with
    | some n => some (b.set i (.reading who (answers ++ [b.disk n])))
    | none => (t.writes answers).map fun ws => b.set i (.writing who ws)
  | some _, .writing who (w :: ws) => some { b.set i (.writing who ws) with disk := w.apply b.disk }
  | _, _ => none

omit [DecidableEq N] in
/-- an attempt with nothing left to do succeeds -/
def finish (b : Batch N B ω) (i : ℕ) : Option (Batch N B ω × ω) :=
  match b.attempt i with
  | .writing who [] => some (b.set i .done, who)
  | _ => none

omit [DecidableEq N] in
/-- an attempt breaks off -/
def fail (b : Batch N B ω) (i : ℕ) : Option (Batch N B ω × ω) :=
  match b.attempt i with
  | .reading who _ | .writing who _ => some (b.set i .waiting, who)
  | _ => none

/-! ## What the operations do -/

variable {ts : List (FileTask N B)} {b b' : Batch N B ω} {i : ℕ} {who : ω}

omit [DecidableEq N] in
theorem start_some (hs : b.start ts i who = some b') :
    i < ts.length ∧ b.attempt i = .waiting ∧ b' = b.set i (.reading who []) := by
  unfold start at hs
  split at hs
  · rename_i t ht hwaiting
    cases hs
    exact ⟨(List.getElem?_eq_some_iff.1 ht).1, hwaiting, rfl⟩
  · cases hs

/-- a read or a write is by whoever makes the attempt, and leaves it to them -/
theorem work_some (hw : b.work ts i = some b') :
    ∃ who a d, (b.attempt i).who = some who ∧ a.who = some who ∧ b' = { b.set i a with disk := d } := by
  unfold work at hw
  split at hw
  · rename_i t who answers ht hreading
    have hwho : (b.attempt i).who = some who := by rw [hreading]; rfl
    split at hw
    · cases hw
      exact ⟨who, _, b.disk, hwho, rfl, rfl⟩
    · obtain ⟨ws, -, rfl⟩ := Option.map_eq_some_iff.1 hw
      exact ⟨who, _, b.disk, hwho, rfl, rfl⟩
  · rename_i t who w ws ht hwriting
    cases hw
    exact ⟨who, _, w.apply b.disk, by rw [hwriting]; rfl, rfl, rfl⟩
  · cases hw

omit [DecidableEq N] in
theorem finish_some (hf : b.finish i = some (b', who)) : b.attempt i = .writing who [] ∧ b' = b.set i .done := by
  unfold finish at hf
  split at hf
  · rename_i hwriting
    cases hf
    exact ⟨hwriting, rfl⟩
  · cases hf

omit [DecidableEq N] in
theorem fail_some (hf : b.fail i = some (b', who)) : (b.attempt i).who = some who ∧ b' = b.set i .waiting := by
  unfold fail at hf
  split at hf
  · rename_i hreading
    cases hf
    exact ⟨by rw [hreading]; rfl, rfl⟩
  · rename_i hwriting
    cases hf
    exact ⟨by rw [hwriting]; rfl, rfl⟩
  · cases hf

end Batch

/-! ## Who is busy -/

namespace Batch

variable {N B ω : Type}

variable [DecidableEq ω]

/-- for how many of the first `n` tasks `w` makes an attempt -/
def held (n : ℕ) (b : Batch N B ω) (w : ω) : ℕ := ∑ i ∈ Finset.range n, if (b.attempt i).who = some w then 1 else 0

omit [DecidableEq ω] in
@[simp]
theorem attempt_set_self (b : Batch N B ω) (i : ℕ) (a : Attempt N B ω) : (b.set i a).attempt i = a :=
  Function.update_self _ _ _

omit [DecidableEq ω] in
theorem attempt_set_of_ne (b : Batch N B ω) {i j : ℕ} (hj : j ≠ i) (a : Attempt N B ω) :
    (b.set i a).attempt j = b.attempt j := Function.update_of_ne hj _ _

omit [DecidableEq ω] in
/-- setting one attempt moves the sum by the difference at its place -/
theorem sum_set {n i : ℕ} (hi : i < n) (b : Batch N B ω) (a : Attempt N B ω) (g : ℕ → Attempt N B ω → ℕ) :
    (∑ j ∈ Finset.range n, g j ((b.set i a).attempt j)) + g i (b.attempt i) =
      (∑ j ∈ Finset.range n, g j (b.attempt j)) + g i a := by
  have hmem : i ∈ Finset.range n := Finset.mem_range.2 hi
  have hrest : ∑ j ∈ (Finset.range n).erase i, g j ((b.set i a).attempt j) =
      ∑ j ∈ (Finset.range n).erase i, g j (b.attempt j) := by
    refine Finset.sum_congr rfl fun j hj => ?_
    rw [attempt_set_of_ne b (Finset.ne_of_mem_erase hj)]
  calc (∑ j ∈ Finset.range n, g j ((b.set i a).attempt j)) + g i (b.attempt i)
      = g i a + (∑ j ∈ (Finset.range n).erase i, g j (b.attempt j)) + g i (b.attempt i) := by
        rw [← Finset.add_sum_erase _ _ hmem, hrest, attempt_set_self]
    _ = (g i (b.attempt i) + ∑ j ∈ (Finset.range n).erase i, g j (b.attempt j)) + g i a := by ring
    _ = (∑ j ∈ Finset.range n, g j (b.attempt j)) + g i a := by
        rw [Finset.add_sum_erase _ (fun j => g j (b.attempt j)) hmem]

theorem held_set {n i : ℕ} (hi : i < n) (b : Batch N B ω) (a : Attempt N B ω) (w : ω) :
    (b.set i a).held n w + (if (b.attempt i).who = some w then 1 else 0) =
      b.held n w + (if a.who = some w then 1 else 0) :=
  b.sum_set hi a fun _ a => if a.who = some w then 1 else 0

theorem held_eq_zero {n : ℕ} {b : Batch N B ω} {w : ω} : b.held n w = 0 ↔ ∀ i < n, (b.attempt i).who ≠ some w := by
  simp [held]

/-- who is busy once is busy with one task -/
theorem existsUnique_of_held {n : ℕ} {b : Batch N B ω} {w : ω} (h : b.held n w = 1) :
    ∃! i, i < n ∧ (b.attempt i).who = some w := by
  rw [held, ← Finset.card_filter, Finset.card_eq_one] at h
  obtain ⟨i, hi⟩ := h
  have hmem : ∀ j, j < n ∧ (b.attempt j).who = some w ↔ j = i := by
    intro j
    have hj := Finset.ext_iff.1 hi j
    rwa [Finset.mem_filter, Finset.mem_range, Finset.mem_singleton] at hj
  exact ⟨i, (hmem i).2 rfl, fun j hj => (hmem j).1 hj⟩

end Batch

namespace Batch

variable {N B ω : Type} [DecidableEq N]

/-! ## Attempts as they would have gone in the initial directory -/

def AttemptOk (t : FileTask N B) (d₀ d : Disk N B) : Attempt N B ω → Prop
  | .waiting => True
  | .reading _ answers => answers <+: t.reads.map d₀
  | .writing _ rest => ∃ pre, t.plan d₀ = some (pre ++ rest) ∧ ∀ n, .create n ∈ pre → d n = applyAll d₀ pre n
  | .done => ∃ ws, t.plan d₀ = some ws ∧ ∀ n ∈ ws.map Write.name, d n = applyAll d₀ ws n

structure Sound (ts : List (FileTask N B)) (d₀ : Disk N B) (b : Batch N B ω) : Prop where
  rest : ∀ n, (∀ t ∈ ts, ∀ ws, t.plan d₀ = some ws → n ∉ ws.map Write.name) → b.disk n = d₀ n
  attempts : ∀ (i : ℕ) (t : FileTask N B), ts[i]? = some t → AttemptOk t d₀ b.disk (b.attempt i)

variable {ts : List (FileTask N B)} {d₀ d d' : Disk N B} {b b' : Batch N B ω} {i : ℕ} {t : FileTask N B} {who : ω}

theorem Sound.init (ts : List (FileTask N B)) (d₀ : Disk N B) : Sound ts d₀ (init d₀ : Batch N B ω) :=
  ⟨fun _ _ => rfl, fun _ _ _ => trivial⟩

/-- an attempt does not notice changes in files that are not its own -/
theorem AttemptOk.congr {a : Attempt N B ω} (ha : AttemptOk t d₀ d a)
    (hd : ∀ ws, t.plan d₀ = some ws → ∀ n ∈ ws.map Write.name, d' n = d n) : AttemptOk t d₀ d' a := by
  cases a with
  | waiting => trivial
  | reading who answers => exact ha
  | writing who rest =>
    obtain ⟨pre, hplan, hpre⟩ := ha
    refine ⟨pre, hplan, ?_⟩
    intro n hn
    rw [hd _ hplan n (name_mem_of_create (List.mem_append_left _ hn))]
    exact hpre n hn
  | done =>
    obtain ⟨ws, hplan, hws⟩ := ha
    refine ⟨ws, hplan, ?_⟩
    intro n hn
    rw [hd ws hplan n hn]
    exact hws n hn

/-- changing the attempt at one task -/
theorem Sound.set (hb : Sound ts d₀ b) {a : Attempt N B ω} (ha : ∀ t, ts[i]? = some t → AttemptOk t d₀ b.disk a) :
    Sound ts d₀ (b.set i a) where
  rest := hb.rest
  attempts := (Function.forall_update_iff b.attempt fun j a => ∀ t, ts[j]? = some t → AttemptOk t d₀ b.disk a).2
    ⟨ha, fun j _ => hb.attempts j⟩

theorem Sound.start (hb : Sound ts d₀ b) (hs : b.start ts i who = some b') : Sound ts d₀ b' := by
  obtain ⟨-, -, rfl⟩ := start_some hs
  exact hb.set fun t _ => List.nil_prefix

theorem Sound.finish (hb : Sound ts d₀ b) (h : Independent ts d₀) (hf : b.finish i = some (b', who)) :
    Sound ts d₀ b' := by
  obtain ⟨hi, rfl⟩ := finish_some hf
  refine hb.set ?_
  intro t ht
  have hok := hb.attempts i t ht
  rw [hi] at hok
  obtain ⟨pre, hplan, hpre⟩ := hok
  rw [List.append_nil] at hplan
  exact ⟨pre, hplan, fun n hn => hpre n (h.creates t (List.mem_of_getElem? ht) pre hplan n hn)⟩

theorem Sound.fail (hb : Sound ts d₀ b) (hf : b.fail i = some (b', who)) : Sound ts d₀ b' := by
  obtain ⟨-, rfl⟩ := fail_some hf
  exact hb.set fun _ _ => trivial

/-- the next answer an attempt reads is the one it would have read in the initial directory -/
theorem Sound.read (hb : Sound ts d₀ b) (h : Independent ts d₀) (ht : ts[i]? = some t)
    {answers : List (Option (List B))} (hi : b.attempt i = .reading who answers) {n : N}
    (hn : t.reads[answers.length]? = some n) : Sound ts d₀ (b.set i (.reading who (answers ++ [b.disk n]))) := by
  have hmem := List.mem_of_getElem? ht
  refine hb.set ?_
  intro u hu
  rw [ht] at hu
  cases hu
  have hok := hb.attempts i t ht
  rw [hi] at hok
  have hval : b.disk n = d₀ n := hb.rest n fun u hu ws hws => h.inputs t hmem u hu ws hws n (List.mem_of_getElem? hn)
  obtain ⟨more, hmore⟩ := (hok : answers <+: t.reads.map d₀)
  have hget : (t.reads.map d₀)[answers.length]? = some (d₀ n) := by rw [List.getElem?_map, hn]; rfl
  rw [← hmore, List.getElem?_append_right le_rfl, Nat.sub_self] at hget
  rw [hval]
  cases more with
  | nil => cases hget
  | cons x more =>
    cases hget
    exact ⟨more, by rw [List.append_assoc]; exact hmore⟩

/-- an attempt that has read all its files has read them as they were -/
theorem Sound.answers_eq (hb : Sound ts d₀ b) (ht : ts[i]? = some t) {answers : List (Option (List B))}
    (hi : b.attempt i = .reading who answers) (hn : t.reads[answers.length]? = none) : answers = t.reads.map d₀ := by
  have hok := hb.attempts i t ht
  rw [hi] at hok
  refine List.IsPrefix.eq_of_length_le hok ?_
  rw [List.length_map]
  exact List.getElem?_eq_none_iff.1 hn

/-- it does what it would have done in the initial directory -/
theorem Sound.planned (hb : Sound ts d₀ b) (ht : ts[i]? = some t) {answers : List (Option (List B))}
    (hi : b.attempt i = .reading who answers) (hn : t.reads[answers.length]? = none) {ws : List (Write N B)}
    (hws : t.writes answers = some ws) : Sound ts d₀ (b.set i (.writing who ws)) := by
  refine hb.set ?_
  intro u hu
  rw [ht] at hu
  cases hu
  refine ⟨[], ?_, fun n hn => by cases hn⟩
  rw [List.nil_append, FileTask.plan, ← hb.answers_eq ht hi hn]
  exact hws

/-- a write changes a file of its own task only -/
theorem Sound.write (hb : Sound ts d₀ b) (h : Independent ts d₀) (ht : ts[i]? = some t) {w : Write N B}
    {ws : List (Write N B)} (hi : b.attempt i = .writing who (w :: ws)) :
    Sound ts d₀ { b.set i (.writing who ws) with disk := w.apply b.disk } := by
  have hok := hb.attempts i t ht
  rw [hi] at hok
  obtain ⟨pre, hplan, hpre⟩ := hok
  have hown : w.name ∈ (pre ++ w :: ws).map Write.name := List.mem_map_of_mem (by simp)
  refine ⟨?_, ?_⟩
  · intro n hn
    have hne : n ≠ w.name := by
      rintro rfl
      exact hn t (List.mem_of_getElem? ht) _ hplan hown
    exact (apply_of_ne hne).trans (hb.rest n hn)
  · refine (Function.forall_update_iff b.attempt fun j a => ∀ t, ts[j]? = some t →
      AttemptOk t d₀ (w.apply b.disk) a).2 ⟨?_, ?_⟩
    · intro u hu
      rw [ht] at hu
      cases hu
      refine ⟨pre ++ [w], by rw [List.append_assoc]; exact hplan, ?_⟩
      intro n hn
      rw [applyAll_append, applyAll_cons, applyAll_nil]
      -- either this write creates the file, or it was as planned before
      rcases List.mem_append.1 hn with hn | hn
      · exact apply_congr (hpre n hn) w
      · simp only [List.mem_singleton] at hn
        subst hn
        simp [Write.apply]
    · intro j hj u hu
      refine (hb.attempts j u hu).congr ?_
      intro us hus n hn
      refine apply_of_ne ?_
      rintro rfl
      exact h.apart j i u t hu ht hj us _ hus hplan _ hn hown

theorem Sound.work (hb : Sound ts d₀ b) (h : Independent ts d₀) (hw : b.work ts i = some b') : Sound ts d₀ b' := by
  unfold Batch.work at hw
  split at hw
  · rename_i t who answers ht hi
    split at hw
    · rename_i n hn
      cases hw
      exact hb.read h ht hi hn
    · rename_i hn
      rw [Option.map_eq_some_iff] at hw
      obtain ⟨ws, hws, rfl⟩ := hw
      exact hb.planned ht hi hn hws
  · rename_i t who w ws ht hi
    cases hw
    exact hb.write h ht hi
  · cases hw

/-- **Failures leave no trace.** When every task has had a successful attempt, the directory is the one in which the
tasks were run one after the other. -/
theorem Sound.finished (hb : Sound ts d₀ b) (h : Independent ts d₀) (hdone : ∀ i < ts.length, b.attempt i = .done) :
    runAll ts d₀ = some b.disk := by
  have hplan : ∀ (i : ℕ) (t : FileTask N B), ts[i]? = some t →
      ∃ ws, t.plan d₀ = some ws ∧ ∀ n ∈ ws.map Write.name, b.disk n = applyAll d₀ ws n := by
    intro i t ht
    have hok := hb.attempts i t ht
    rwa [hdone i (List.getElem?_eq_some_iff.1 ht).1] at hok
  have hplans : ∀ t ∈ ts, ∃ ws, t.plan d₀ = some ws := by
    intro t ht
    obtain ⟨i, hi⟩ := List.mem_iff_getElem?.1 ht
    obtain ⟨ws, hws, -⟩ := hplan i t hi
    exact ⟨ws, hws⟩
  obtain ⟨d', hrun, hran⟩ := h.runAll hplans
  rw [hrun]
  congr 1
  funext n
  by_cases hn : ∀ t ∈ ts, ∀ ws, t.plan d₀ = some ws → n ∉ ws.map Write.name
  · rw [hran.rest n hn, hb.rest n hn]
  · push Not at hn
    obtain ⟨t, ht, ws, hws, hmem⟩ := hn
    obtain ⟨i, hi⟩ := List.mem_iff_getElem?.1 ht
    obtain ⟨ws', hws', hdisk⟩ := hplan i t hi
    rw [hws] at hws'
    cases hws'
    rw [hran.own i t ws hi hws n hmem, hdisk n hmem]

end Batch

end CS240.Lib
