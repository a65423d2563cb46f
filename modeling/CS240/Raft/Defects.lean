/-
Steps at which the code does something the protocol does not provide for. Each is a condition on a node and the message
it is about to process, or on a node and the task it is about to run, so that "no step of the run is one of these" is a
condition on runs.

- `forgetsVote`: StartHeartbeat's goroutine compares `reply.Term` with the term it sent, not with `rf.term` as the other
  reply handlers do, and stepDownLocked clears votedFor although the term stays the same.
- `countsStale`: the vote goroutine counts a vote before it asks whether the vote was for the current election.
- `cuts`: syncLocked cuts the log behind the entries of a request even if all of them were there already, so that an
  old request, shorter than what the node has acknowledged since, takes entries back.
- `demotes`: the same comparison as in `forgetsVote`, at a leader.
- `rejectsLate`: `replicateTo` sets nextIndex back on any rejection, also on one that is older than an acknowledgement
  it has already counted for the same peer.
- `standsAsLeader`: `life` starts an election because of a state it read before it released the lock.
- `beatsUnelected`: `StartHeartbeat` reads the term in a section of its own, by which time the node may be a follower or
  candidate of a newer term.
-/
import CS240.Raft.Steps

namespace CS240.Raft

open Lib

variable {n : ℕ} {Cmd : Type}

namespace Message

/-- a heartbeat reply that makes the node forget its vote of the current term -/
def forgetsVote (m : Message n Cmd) (rf : Raft n Cmd) : Prop :=
  match m.body with
  | .heartbeatReply t reply => t < reply.term ∧ reply.term ≤ rf.term ∧ rf.votedFor ≠ -1
  | _ => False

/-- a vote of an earlier election that a candidate adds to the votes of the current one -/
def countsStale (m : Message n Cmd) (rf : Raft n Cmd) : Prop :=
  match m.body with
  | .requestVoteReply term reply =>
    reply.electionTerm ≤ rf.term ∧ reply.vote = true ∧ rf.state = .candidate ∧ rf.term ≠ term
  | _ => False

/-- an accepted request whose entries are all in the log, with more behind them -/
def cuts (m : Message n Cmd) (rf : Raft n Cmd) : Prop :=
  match m.body with
  | .appendEntries args _ =>
    rf.term ≤ args.term ∧ args.prevLogIndex ≤ rf.lastLogIndexLocked ∧
      rf.termAtLocked args.prevLogIndex = args.prevLogTerm ∧
      Cuts LogEntry.term rf.log (args.prevLogIndex + 1) args.entries
  | _ => False

/-- a heartbeat reply that makes a leader step down within its term -/
def demotes (m : Message n Cmd) (rf : Raft n Cmd) : Prop :=
  match m.body with
  | .heartbeatReply t reply => t < reply.term ∧ reply.term ≤ rf.term ∧ rf.state = .leader
  | _ => False

/-- a rejection of a request that the leader sent in its current term -/
def rejects (m : Message n Cmd) (rf : Raft n Cmd) : Prop :=
  match m.body with
  | .appendEntriesReply args _ reply =>
    reply.term ≤ rf.term ∧ rf.term = args.term ∧ rf.state = .leader ∧ reply.success = false
  | _ => False

/-- a rejection from a peer that has acknowledged entries before -/
def rejectsLate (m : Message n Cmd) (rf : Raft n Cmd) : Prop := m.rejects rf ∧ 0 < rf.matchIndex.getD m.server 0

instance (m : Message n Cmd) (rf : Raft n Cmd) : Decidable (m.forgetsVote rf) := by
  unfold forgetsVote; split <;> infer_instance

instance (m : Message n Cmd) (rf : Raft n Cmd) : Decidable (m.countsStale rf) := by
  unfold countsStale; split <;> infer_instance

instance (m : Message n Cmd) (rf : Raft n Cmd) : Decidable (m.cuts rf) := by
  unfold cuts; split <;> infer_instance

instance (m : Message n Cmd) (rf : Raft n Cmd) : Decidable (m.demotes rf) := by
  unfold demotes; split <;> infer_instance

instance (m : Message n Cmd) (rf : Raft n Cmd) : Decidable (m.rejects rf) := by
  unfold rejects; split <;> infer_instance

instance (m : Message n Cmd) (rf : Raft n Cmd) : Decidable (m.rejectsLate rf) := inferInstanceAs (Decidable (_ ∧ _))

end Message

/-- the step does not process a message of the kind `bad` -/
def Avoids (bad : Message n Cmd → Raft n Cmd → Prop) (s : Cluster n Cmd) (a : Action n Cmd) : Prop :=
  match s.received a with
  | some (p, m) => ¬ bad m (s.rf p)
  | none => True

instance (bad : Message n Cmd → Raft n Cmd → Prop) [∀ m rf, Decidable (bad m rf)] : DecidableRel (Avoids bad) := by
  intro s a; unfold Avoids; split <;> infer_instance

theorem Avoids.not {bad : Message n Cmd → Raft n Cmd → Prop} {s : Cluster n Cmd} {a : Action n Cmd} {p : Fin n}
    {m : Message n Cmd} (ha : Avoids bad s a) (hr : s.received a = some (p, m)) : ¬ bad m (s.rf p) := by
  simpa only [Avoids, hr] using ha

/-- `life` starts an election at a leader -/
def standsAsLeader (s : Cluster n Cmd) : Action n Cmd → Prop
  | .run p .lifeElection => (s.rf p).state = .leader
  | _ => False

/-- `StartHeartbeat` runs at a node that is not leader -/
def beatsUnelected (s : Cluster n Cmd) : Action n Cmd → Prop
  | .run p task => (s.node p).beats task ∧ (s.rf p).state ≠ .leader
  | _ => False

instance : DecidableRel (@standsAsLeader n Cmd) := by
  intro s a; unfold standsAsLeader; split <;> infer_instance

instance : DecidableRel (@beatsUnelected n Cmd) := by
  intro s a; unfold beatsUnelected; split <;> infer_instance

end CS240.Raft
