/-
What the appliers send on `applyCh`.

The applier takes an entry under the lock and sends it after the lock is released, so that a message can be pending
while other sections run, and a crash can lose it. `step_sends` says once what a step can do to the pending messages and
to those already sent: a property of messages that only grows with the history holds of all of them as soon as it holds
of every message an applier takes.
-/
import CS240.Raft.Steps

namespace CS240.Raft

open Lib

variable {n : ℕ} {Cmd : Type} {s s' : Cluster n Cmd} {a : Action n Cmd} {h evs : List (Event (Fin n) Cmd)}

/-- a task leaves the applier's message alone, takes it away, or puts the next one there -/
theorem run_pending {sv : Server n Cmd} {task : Server.Task Cmd} {r : Server.Result n Cmd} (hr : sv.run task = some r) :
    r.1.pending = sv.pending ∨ r.1.pending = none ∨ r.1.pending = sv.rf.applier.2 := by
  cases task with
  | lifeRead | lifeSleep | lifeHeartbeat =>
    simp only [Server.run] at hr
    split_ifs at hr
    cases hr
    exact Or.inl rfl
  | lifeElection =>
    simp only [Server.run, Server.election] at hr
    split_ifs at hr
    cases hr
    split <;> exact Or.inl rfl
  | goroutine k =>
    simp only [Server.run, Server.runGoroutine] at hr
    split at hr
    · cases hr
    · cases hr; exact Or.inl rfl
    · cases hr; exact Or.inl rfl
    · split at hr <;> cases hr <;> exact Or.inl rfl
  | apply =>
    simp only [Server.run] at hr
    split_ifs at hr
    cases hr
    exact Or.inr (Or.inr rfl)
  | applySend =>
    simp only [Server.run] at hr
    split at hr <;> cases hr
    exact Or.inr (Or.inl rfl)
  | start command =>
    simp only [Server.run] at hr
    split_ifs at hr <;> cases hr <;> exact Or.inl rfl
  | restart =>
    cases hr
    exact Or.inr (Or.inl rfl)

theorem handle_pending {sv : Server n Cmd} {m : Message n Cmd} {r : Server.Result n Cmd} (hr : sv.handle m = some r) :
    r.1.pending = sv.pending := by
  unfold Server.handle at hr
  split at hr
  · cases hr; rfl
  · dsimp only at hr
    split_ifs at hr <;> cases hr <;> rfl
  · cases hr; rfl
  · cases hr; rfl
  · cases hr; rfl
  · split at hr <;> cases hr <;> rfl

theorem failed_pending (sv : Server n Cmd) (m : Message n Cmd) : (sv.failed m).pending = sv.pending := by
  unfold Server.failed
  split <;> rfl

/-- only the applier's own send is seen on `applyCh` -/
theorem Acts.applied {sv : Server n Cmd} {task : Server.Task Cmd} {rf : Raft n Cmd} {out : List (Message n Cmd)}
    (ha : Acts sv task rf out evs) {q : Fin n} {msg : ApplyMsg Cmd} (hq : .applied q msg ∈ evs) :
    sv.pending = some msg := by
  cases ha with
  | applySend hmsg =>
    simp only [List.mem_singleton, Event.applied.injEq] at hq
    rw [hq.2]
    exact hmsg
  | _ => simp at hq

theorem Receives.applied {rf rf' : Raft n Cmd} {m : Message n Cmd} {out : List (Message n Cmd)}
    (hr : Receives rf m rf' out evs) (q : Fin n) (msg : ApplyMsg Cmd) : .applied q msg ∉ evs := by
  intro hq
  cases hr with
  | requestVoteReply => rcases List.mem_append.1 hq with hq | hq <;> split_ifs at hq <;> simp at hq
  | requestVote | appendEntries | appendEntriesReply => split_ifs at hq <;> simp at hq
  | heartbeat | heartbeatReply => cases hq

/-- where the message an applier holds after a step comes from -/
theorem step_pending (hs : s.step a = some (s', evs)) {p : Fin n} {msg : ApplyMsg Cmd}
    (hp : (s'.node p).pending = some msg) : (s.node p).pending = some msg ∨ (s.rf p).applier.2 = some msg := by
  have hserved := step_served hs p
  generalize s'.node p = sv' at hserved hp
  cases hserved with
  | same => exact Or.inl hp
  | run hr =>
    rcases run_pending hr with he | he | he <;> rw [he] at hp
    · exact Or.inl hp
    · cases hp
    · exact Or.inr hp
  | handle hm hrec hr =>
    rw [handle_pending hr] at hp
    exact Or.inl hp
  | failed =>
    rw [failed_pending] at hp
    exact Or.inl hp
  | crashed => cases hp

/-- what is seen on `applyCh` in a step was pending before it -/
theorem step_applied (hs : s.step a = some (s', evs)) {q : Fin n} {msg : ApplyMsg Cmd} (hq : .applied q msg ∈ evs) :
    ∃ p, (s.node p).pending = some msg := by
  cases step_cases hs with
  | @run p task r hr => exact ⟨p, (run_acts hr).applied hq⟩
  | handle hm hrec hr => exact absurd hq ((handle_receives hr).applied q msg)
  | orphan | lose | abandon | crashIn => cases hq

/-- **What the appliers send.** A property of messages that only grows with the history and holds of every message an
applier takes holds of what is pending and of what was sent. -/
theorem step_sends {J : List (Event (Fin n) Cmd) → ApplyMsg Cmd → Prop}
    (hmono : ∀ h h' msg, h ⊆ h' → J h msg → J h' msg) (hpend : ∀ p msg, (s.node p).pending = some msg → J h msg)
    (happ : ∀ p msg, .applied p msg ∈ h → J h msg) (htake : ∀ p msg, (s.rf p).applier.2 = some msg → J h msg)
    (hs : s.step a = some (s', evs)) :
    (∀ p msg, (s'.node p).pending = some msg → J (h ++ evs) msg) ∧
    ∀ p msg, .applied p msg ∈ h ++ evs → J (h ++ evs) msg := by
  have hsub := List.subset_append_left h evs
  refine ⟨fun p msg hp => hmono _ _ msg hsub ?_, fun p msg hp => hmono _ _ msg hsub ?_⟩
  · rcases step_pending hs hp with hp | hp
    · exact hpend p msg hp
    · exact htake p msg hp
  · rcases List.mem_append.1 hp with hp | hp
    · exact happ p msg hp
    · obtain ⟨q, hq⟩ := step_applied hs hp
      exact hpend q msg hq

end CS240.Raft
