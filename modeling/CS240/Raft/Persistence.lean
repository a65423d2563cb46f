/-
Crash recovery: what a node has in memory is what its Persister would give it back.

`Saved rf` says that `Make`, reading the Persister, comes up with the node's own term, votedFor and log. Every section
leaves a saved node saved, because whatever touches one of the three calls `persist` after its last change and before
the lock is released. A crash at that moment loses nothing, and a node's term never decreases, restarts included.

- `Follows rf rf'`: what every section keeps: the node's index, its term or a larger one, and that it is saved.
- `step_saved`, `run_saved`: in every state of every run, every node is saved.
- `SavedLog`, `run_savedLog`: a Persister holds no other log than its node's.
- `run_recovers`: crash recovery, with the terms of a node along a run.
-/
import CS240.Raft.Steps

namespace CS240.Raft

open Lib

variable {n : ℕ} {Cmd : Type} {rf rf' : Raft n Cmd}

/-- the Persister holds the node's term, votedFor and log -/
structure Saved (rf : Raft n Cmd) : Prop where
  log : rf.log ≠ []
  made : Raft.make rf.me rf.persister =
    { Raft.initial rf.me rf.persister with term := rf.term, votedFor := rf.votedFor, log := rf.log }

/-- only term, votedFor, log and the Persister matter -/
theorem Saved.congr (hs : Saved rf) (hm : rf'.me = rf.me) (ht : rf'.term = rf.term) (hv : rf'.votedFor = rf.votedFor)
    (hl : rf'.log = rf.log) (hp : rf'.persister = rf.persister) : Saved rf' := by
  refine ⟨hl ▸ hs.log, ?_⟩
  rw [hm, hp, ht, hv, hl]
  exact hs.made

/-- `persist` saves, and it does not matter what else changes after it -/
theorem Saved.of_persist (hl : rf.log ≠ []) : Saved rf.persist := by
  refine ⟨hl, ?_⟩
  have hlen : rf.log.length ≠ 0 := by simpa using hl
  simp [Raft.make, Raft.persist, Raft.readPersist, Raft.initial, hl]

theorem make_nil_saved (p : Fin n) : Saved (Raft.make p [] : Raft n Cmd) := ⟨by simp [Raft.make, Raft.initial,
  Raft.readPersist], rfl⟩

/-! ## What every section keeps -/

structure Follows (rf rf' : Raft n Cmd) : Prop where
  me : rf'.me = rf.me
  term : rf.term ≤ rf'.term
  saved : Saved rf'

theorem Follows.refl (hs : Saved rf) : Follows rf rf := ⟨rfl, le_rfl, hs⟩

theorem Follows.trans {rf'' : Raft n Cmd} (h₁ : Follows rf rf') (h₂ : Follows rf' rf'') : Follows rf rf'' :=
  ⟨h₂.me.trans h₁.me, h₁.term.trans h₂.term, h₂.saved⟩

/-- a restart resumes with what was saved -/
theorem make_follows (hs : Saved rf) : Follows rf (Raft.make rf.me rf.persister) := by
  have hm := hs.made
  refine ⟨by rw [hm]; rfl, by rw [hm], ⟨by rw [hm]; exact hs.log, ?_⟩⟩
  have hme : (Raft.make rf.me rf.persister).me = rf.me := by rw [hm]; rfl
  have hp : (Raft.make rf.me rf.persister).persister = rf.persister := by rw [hm]; rfl
  rw [hme, hp]
  nth_rewrite 1 [hm]
  simp only [hm]

theorem stepDownLocked_follows (hs : Saved rf) (t : ℕ) : Follows rf (rf.stepDownLocked t) := by
  unfold Raft.stepDownLocked
  dsimp only
  split_ifs with ht
  · exact ⟨rfl, ht.le, .of_persist hs.log⟩
  · exact ⟨rfl, le_rfl, .of_persist hs.log⟩

/-- a crash after stepDownLocked has saved the newer term -/
theorem crash_made (hs : Saved rf) (t : ℕ) :
    Raft.make rf.me (rf.stepDownLocked t).persister =
      { Raft.initial rf.me (rf.stepDownLocked t).persister with
        term := (rf.stepDownLocked t).term, votedFor := -1, log := rf.log } := by
  have hdown := stepDownLocked_follows hs t
  have hmade := hdown.saved.made
  rw [hdown.me] at hmade
  rw [hmade]
  unfold Raft.stepDownLocked Raft.persist
  dsimp only
  split_ifs <;> rfl

theorem crash_follows (hs : Saved rf) (t : ℕ) : Follows rf (Raft.make rf.me (rf.stepDownLocked t).persister) := by
  have hdown := stepDownLocked_follows hs t
  have hmake := hdown.trans (make_follows hdown.saved)
  rwa [hdown.me] at hmake

theorem raised_follows (hs : Saved rf) (t : ℕ) : Follows rf (raised rf t) := by
  unfold raised
  split_ifs
  · exact stepDownLocked_follows hs t
  · exact .refl hs

theorem adopted_follows (hs : Saved rf) (t : ℕ) : Follows rf (adopted rf t) := by
  unfold adopted
  split_ifs
  · exact stepDownLocked_follows hs t
  · exact ⟨rfl, le_rfl, hs.congr rfl rfl rfl rfl rfl⟩

theorem becomeLeaderLocked_follows (hs : Saved rf) : Follows rf rf.becomeLeaderLocked := by
  have hp : Saved (Raft.persist { rf with state := .leader }) := .of_persist hs.log
  exact ⟨rfl, le_rfl, hp.congr rfl rfl rfl rfl rfl⟩

theorem stood_follows (hs : Saved rf) : Follows rf (stood rf) := ⟨rfl, Nat.le_succ _, .of_persist hs.log⟩

theorem Acts.follows {sv : Server n Cmd} {task : Server.Task Cmd} {out : List (Message n Cmd)}
    {evs : List (Event (Fin n) Cmd)} (hs : Saved sv.rf) (ha : Acts sv task rf' out evs) : Follows sv.rf rf' := by
  cases ha with
  | idle | beat | applySend => exact .refl hs
  | election _ he =>
    obtain ⟨rfl, -⟩ := startElection_some he
    exact stood_follows hs
  | win _ he =>
    obtain ⟨rfl, -⟩ := startElection_none he
    exact (stood_follows hs).trans (becomeLeaderLocked_follows (stood_follows hs).saved)
  | send hsend =>
    obtain ⟨-, next, rfl⟩ := replicateSend_some hsend
    exact ⟨rfl, le_rfl, hs.congr rfl rfl rfl rfl rfl⟩
  | apply =>
    rcases applier_cases sv.rf with he | ⟨e, -, -, he⟩ <;> rw [he]
    · exact .refl hs
    · exact ⟨rfl, le_rfl, hs.congr rfl rfl rfl rfl rfl⟩
  | @start command hl =>
    have hp : Saved (Raft.persist { sv.rf with log := sv.rf.log ++ [⟨sv.rf.term, command⟩] }) := .of_persist (by simp)
    rw [start_leader hl]
    exact ⟨rfl, le_rfl, hp.congr rfl rfl rfl rfl rfl⟩
  | restart => exact make_follows hs

theorem Receives.follows {m : Message n Cmd} {out : List (Message n Cmd)} {evs : List (Event (Fin n) Cmd)}
    (hs : Saved rf) (hr : Receives rf m rf' out evs) : Follows rf rf' := by
  cases hr with
  | @requestVote _ args _ _ hv =>
    have hup := raised_follows hs args.electionTerm
    cases requestVote_cases hv with
    | stale => exact .refl hs
    | refused => exact hup
    | granted => exact ⟨hup.me, hup.term, .of_persist hup.saved.log⟩
  | requestVoteReply _ hv =>
    have hcount : Follows rf { rf with voteCount := rf.voteCount + 1 } := ⟨rfl, le_rfl, hs.congr rfl rfl rfl rfl rfl⟩
    cases requestVoteReply_cases hv with
    | higher => exact stepDownLocked_follows hs _
    | refused => exact .refl hs
    | counted => exact hcount
    | won => exact hcount.trans (becomeLeaderLocked_follows hcount.saved)
  | heartbeat _ hb =>
    cases heartbeat_cases hb with
    | stale => exact .refl hs
    | newer hlt => exact ⟨rfl, hlt.le, .of_persist hs.log⟩
    | same => exact ⟨rfl, le_rfl, .of_persist hs.log⟩
  | heartbeatReply =>
    unfold Raft.heartbeatReply
    split_ifs
    · exact stepDownLocked_follows hs _
    · exact .refl hs
  | @appendEntries _ args _ _ _ ha =>
    have hup := adopted_follows hs args.term
    cases appendEntries_cases hs.log ha with
    | stale => exact .refl hs
    | refused => exact hup
    | accepted _ hprev => exact ⟨hup.me, hup.term, (Saved.of_persist (merge_ne_nil hs.log)).congr rfl rfl rfl rfl rfl⟩
  | appendEntriesReply _ hrep =>
    cases replicateReply_cases hrep with
    | higher => exact stepDownLocked_follows hs _
    | ignored => exact .refl hs
    | matched | pushed | rejected => exact ⟨rfl, le_rfl, hs.congr rfl rfl rfl rfl rfl⟩

/-! ## The log on disk -/

/-- the Persister holds no other log than the node's own -/
def SavedLog (rf : Raft n Cmd) : Prop := ∀ log, .entries log ∈ rf.persister → log = rf.log

theorem SavedLog.of_persist (rf : Raft n Cmd) : SavedLog rf.persist := by
  intro log hlog
  simpa [Raft.persist] using hlog

theorem SavedLog.congr (hd : SavedLog rf) (hl : rf'.log = rf.log) (hp : rf'.persister = rf.persister) :
    SavedLog rf' := by
  intro log hlog
  rw [hl]
  exact hd log (by rwa [hp] at hlog)

theorem stepDownLocked_log (rf : Raft n Cmd) (t : ℕ) : (rf.stepDownLocked t).log = rf.log := by
  unfold Raft.stepDownLocked Raft.persist
  dsimp only
  split_ifs <;> rfl

theorem stepDownLocked_savedLog (rf : Raft n Cmd) (t : ℕ) : SavedLog (rf.stepDownLocked t) := .of_persist _

theorem raised_savedLog (hd : SavedLog rf) (t : ℕ) : SavedLog (raised rf t) := by
  unfold raised
  split_ifs
  · exact stepDownLocked_savedLog rf t
  · exact hd

theorem adopted_savedLog (hd : SavedLog rf) (t : ℕ) : SavedLog (adopted rf t) := by
  unfold adopted
  split_ifs
  · exact stepDownLocked_savedLog rf t
  · exact hd.congr rfl rfl

theorem becomeLeaderLocked_savedLog (rf : Raft n Cmd) : SavedLog rf.becomeLeaderLocked :=
  (SavedLog.of_persist { rf with state := .leader }).congr rfl rfl

theorem Acts.savedLog {sv : Server n Cmd} {task : Server.Task Cmd} {out : List (Message n Cmd)}
    {evs : List (Event (Fin n) Cmd)} (hs : Saved sv.rf) (hd : SavedLog sv.rf) (ha : Acts sv task rf' out evs) :
    SavedLog rf' := by
  cases ha with
  | idle | beat | applySend => exact hd
  | election _ he =>
    obtain ⟨rfl, -⟩ := startElection_some he
    exact .of_persist _
  | win _ he =>
    obtain ⟨rfl, -⟩ := startElection_none he
    exact becomeLeaderLocked_savedLog _
  | send hsend =>
    obtain ⟨-, next, rfl⟩ := replicateSend_some hsend
    exact hd.congr rfl rfl
  | apply =>
    rcases applier_cases sv.rf with he | ⟨e, -, -, he⟩ <;> rw [he]
    · exact hd
    · exact hd.congr rfl rfl
  | @start command hl =>
    rw [start_leader hl]
    exact (SavedLog.of_persist { sv.rf with log := sv.rf.log ++ [⟨sv.rf.term, command⟩] }).congr rfl rfl
  | restart =>
    rw [hs.made]
    exact hd.congr rfl rfl

theorem Receives.savedLog {m : Message n Cmd} {out : List (Message n Cmd)} {evs : List (Event (Fin n) Cmd)}
    (hs : Saved rf) (hd : SavedLog rf) (hr : Receives rf m rf' out evs) : SavedLog rf' := by
  cases hr with
  | requestVote _ hv =>
    cases requestVote_cases hv with
    | stale => exact hd
    | refused => exact raised_savedLog hd _
    | granted => exact .of_persist _
  | requestVoteReply _ hv =>
    cases requestVoteReply_cases hv with
    | higher => exact stepDownLocked_savedLog _ _
    | refused => exact hd
    | counted => exact hd.congr rfl rfl
    | won => exact becomeLeaderLocked_savedLog _
  | heartbeat _ hb =>
    cases heartbeat_cases hb with
    | stale => exact hd
    | newer | same => exact .of_persist _
  | heartbeatReply =>
    unfold Raft.heartbeatReply
    split_ifs
    · exact stepDownLocked_savedLog _ _
    · exact hd
  | appendEntries _ ha =>
    cases appendEntries_cases hs.log ha with
    | stale => exact hd
    | refused => exact adopted_savedLog hd _
    | accepted => exact (SavedLog.of_persist _).congr rfl rfl
  | appendEntriesReply _ hrep =>
    cases replicateReply_cases hrep with
    | higher => exact stepDownLocked_savedLog _ _
    | ignored => exact hd
    | matched | pushed | rejected => exact hd.congr rfl rfl

/-! ## Runs -/

variable {s s' : Cluster n Cmd} {a : Action n Cmd} {h h' evs : List (Event (Fin n) Cmd)}
  {ok : Cluster n Cmd → Action n Cmd → Prop}

theorem step_follows (hs : s.step a = some (s', evs)) (hI : ∀ p, Saved (s.rf p)) (p : Fin n) :
    Follows (s.rf p) (s'.rf p) := by
  refine step_node (P := fun p rf => Follows (s.rf p) rf) hs (fun p => .refl (hI p)) ?_ ?_ ?_ p
  · intro p t _ _
    exact crash_follows (hI p) t
  · intro p task rf out evs _ ha
    exact ha.follows (hI p)
  · intro p m rf out evs _ hr
    exact hr.follows (hI p)

/-- **Every node is saved** in every state of every run, and knows its own index. -/
theorem run_saved (hr : (machine n Cmd).Run ok s h) : ∀ p, (s.rf p).me = p ∧ Saved (s.rf p) := by
  refine hr.invariant (I := fun s _ => ∀ p, (s.rf p).me = p ∧ Saved (s.rf p)) ?_ ?_
  · exact fun p => ⟨rfl, make_nil_saved p⟩
  · intro s h a s' evs hI _ hs p
    have hf := step_follows hs (fun p => (hI p).2) p
    exact ⟨hf.me.trans (hI p).1, hf.saved⟩

/-- **No Persister holds another log** than its node's. -/
theorem run_savedLog (hr : (machine n Cmd).Run ok s h) : ∀ p, SavedLog (s.rf p) := by
  induction hr with
  | init => exact fun p log hlog => by cases hlog
  | @step s _ _ _ _ hr _ hs ih =>
    have hS := run_saved hr
    refine step_node (P := fun _ rf => SavedLog rf) hs ih ?_ ?_ ?_
    · intro p t _ _
      rw [crash_made (hS p).2]
      have hdown := stepDownLocked_savedLog (s.rf p) t
      exact hdown.congr (stepDownLocked_log (s.rf p) t).symm rfl
    · intro p task rf out evs hd ha
      exact ha.savedLog (hS p).2 hd
    · intro p m rf out evs hd hr
      exact hr.savedLog (hS p).2 hd

theorem run_term_le (hr : (machine n Cmd).Run ok s h) (hp : (machine n Cmd).Path ok s h s' h') (p : Fin n) :
    (s.rf p).term ≤ (s'.rf p).term := by
  refine hp.le (fun s => (s.rf p).term) ?_ hr
  intro s h a s' evs hr hs
  exact (step_follows hs (fun p => (run_saved hr p).2) p).term

/-- **Crash recovery loses nothing.** Whenever the lock is free, `readPersist` on the Persister's bytes, from the values
`Make` starts with, gives the node's term, votedFor and log; so does a crash followed by `Make`; and the node's term
never decreases, restarts included. -/
theorem run_recovers (hr : (machine n Cmd).Run Machine.free s h) (p : Fin n) :
    (let rf := (Raft.initial p (s.rf p).persister).readPersist (s.rf p).persister
     rf.term = (s.rf p).term ∧ rf.votedFor = (s.rf p).votedFor ∧ rf.log = (s.rf p).log) ∧
    (∃ s', s.step (.run p .restart) = some (s', []) ∧ s'.rf p = Raft.make p (s.rf p).persister ∧
      (s'.rf p).term = (s.rf p).term ∧ (s'.rf p).votedFor = (s.rf p).votedFor ∧ (s'.rf p).log = (s.rf p).log) ∧
    ∀ s' h', (machine n Cmd).Path Machine.free s h s' h' → (s.rf p).term ≤ (s'.rf p).term := by
  obtain ⟨hme, hsaved⟩ := run_saved hr p
  have hmade := hsaved.made
  rw [hme] at hmade
  refine ⟨?_, ?_, fun s' h' hp => run_term_le hr hp p⟩
  · have hread : (Raft.initial p (s.rf p).persister).readPersist (s.rf p).persister =
        Raft.make p (s.rf p).persister := rfl
    simp only [hread, hmade, and_self]
  · let booted := Server.boot (s.rf p).me (s.rf p).persister ((s.node p).incarnation + 1)
    refine ⟨(s.put p s.net (booted, [], [])).1, rfl, ?_⟩
    have hrestart : (s.put p s.net (booted, [], [])).1.rf p = Raft.make p (s.rf p).persister := by
      rw [rf_put, Function.update_self]
      exact congrArg (Raft.make · (s.rf p).persister) hme
    rw [hrestart, hmade]
    exact ⟨rfl, rfl, rfl, rfl⟩

/-- a node that stood for election in term 1 comes back in term 1, with its vote -/
theorem run_recovers_candidate : ∃ s h, (machine 3 ℕ).Run Machine.free s h ∧
    (Raft.make (0 : Fin 3) (s.rf 0).persister).term = 1 ∧ (Raft.make (0 : Fin 3) (s.rf 0).persister).votedFor = 0 := by
  obtain ⟨s, h, hr, ht⟩ := Machine.exists_run_of_exec
    (show ((machine 3 ℕ).exec Machine.free [.run 0 .lifeRead, .run 0 .lifeElection]).any
      (fun r => decide ((r.1.rf 0).term = 1 ∧ (r.1.rf 0).votedFor = 0)) = true by decide +kernel)
  obtain ⟨hterm, hvote⟩ := of_decide_eq_true ht
  obtain ⟨⟨h1, h2, -⟩, -, -⟩ := run_recovers hr 0
  exact ⟨s, h, hr, h1.trans hterm, h2.trans hvote⟩

end CS240.Raft
