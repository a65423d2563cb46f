/-
One Raft node (`src/raft/raft.go`): its fields and the bodies of the sections it runs under `rf.mu`.

Every definition keeps the name of the Go function it embeds. A section is a function from the node before the lock is
taken to the node when it is released, with what the section hands to the code after it (the reply of an RPC handler,
the request a leader sends, whether a commit was pushed).

- Go's `int` is ℕ where the code keeps it non-negative (terms, indices, counters) and ℤ where −1 is a value (votedFor,
  ConflictTerm, the result of termAtLocked and of a refused Start). `len(rf.peers)` is `n`.
- `Command interface{}` is `Option Cmd`, with `none` for nil.
- The Persister's bytes are the values the gob encoder wrote, in order (`Gob`); decoding reads them back in order and
  fails on a value of the wrong type or at the end. This is the assumption that gob decodes what it encoded.
- An index out of range, which panics in Go, is `none` where the leader's slices are indexed (`replicateSend`,
  `replicateReply`, `tryAdvanceCommitLocked`).
- Timers (`electionTimeout`, `lastHeartbeat`) and `say` are left out: whether a timeout has passed is a choice of the
  scheduler.
-/
import CS240.Lib.TermLog

namespace CS240

open Lib

namespace Raft

/-- the states a node can be -/
inductive State where
  | leader
  | candidate
  | follower
deriving DecidableEq, Repr

structure LogEntry (Cmd : Type) where
  term : ℕ
  command : Option Cmd
deriving DecidableEq, Repr

structure ApplyMsg (Cmd : Type) where
  index : ℕ
  command : Option Cmd
deriving DecidableEq, Repr

/-- one value in a gob stream -/
inductive Gob (Cmd : Type) where
  | int (i : ℤ)
  | entries (log : List (LogEntry Cmd))
deriving DecidableEq, Repr

end Raft

open Raft in
structure Raft (n : ℕ) (Cmd : Type) where
  me : Fin n
  state : State
  term : ℕ
  votedFor : ℤ
  voteCount : ℕ
  log : List (LogEntry Cmd)
  commitIndex : ℕ
  lastApplied : ℕ
  nextIndex : List ℕ
  matchIndex : List ℕ
  /-- what the Persister holds -/
  persister : List (Gob Cmd)
deriving DecidableEq, Repr

namespace Raft

structure RequestVoteArgs (n : ℕ) where
  electionTerm : ℕ
  candidateID : Fin n
  lastLogIndex : ℕ
  lastLogTerm : ℕ
deriving DecidableEq, Repr

structure RequestVoteReply where
  electionTerm : ℕ
  vote : Bool
deriving DecidableEq, Repr

structure HeartbeatArgs (n : ℕ) where
  leaderID : Fin n
  term : ℕ
deriving DecidableEq, Repr

structure HeartbeatReply where
  term : ℕ
  status : Bool
deriving DecidableEq, Repr

structure AppendEntriesArgs (n : ℕ) (Cmd : Type) where
  term : ℕ
  leaderID : Fin n
  prevLogIndex : ℕ
  prevLogTerm : ℤ
  entries : List (LogEntry Cmd)
  leaderCommit : ℕ
deriving DecidableEq, Repr

structure AppendEntriesReply where
  term : ℕ
  success : Bool
  conflictTerm : ℤ
  conflictIndex : ℕ
deriving DecidableEq, Repr

/-- `LogEntry{Term: 0}`, the entry at index 0 of every log -/
def sentinel {Cmd : Type} : LogEntry Cmd := ⟨0, none⟩

variable {n : ℕ} {Cmd : Type}

/-! ## Persistence -/

def persist (rf : Raft n Cmd) : Raft n Cmd :=
  { rf with persister := [.int rf.term, .int rf.votedFor, .entries rf.log] }

/-- decode term, votedFor and log in the order `persist` wrote them; on anything else keep the node as it is -/
def readPersist (rf : Raft n Cmd) : List (Gob Cmd) → Raft n Cmd
  | .int term :: .int votedFor :: .entries log :: _ =>
    { rf with term := term.toNat, votedFor := votedFor, log := if log.length = 0 then [sentinel] else log }
  | _ => rf

/-- the values `Make` sets before it reads the Persister -/
def initial (me : Fin n) (persister : List (Gob Cmd)) : Raft n Cmd where
  me := me
  state := .follower
  term := 0
  votedFor := -1
  voteCount := 0
  log := [sentinel]
  commitIndex := 0
  lastApplied := 0
  nextIndex := []
  matchIndex := []
  persister := persister

def make (me : Fin n) (persister : List (Gob Cmd)) : Raft n Cmd := (initial me persister).readPersist persister

/-! ## Helpers -/

def stepDownLocked (rf : Raft n Cmd) (term : ℕ) : Raft n Cmd :=
  let rf := if term > rf.term then { rf with term := term } else rf
  persist { rf with votedFor := -1, state := .follower, voteCount := 0 }

def lastLogIndexLocked (rf : Raft n Cmd) : ℕ := rf.log.length - 1

def lastLogTermLocked (rf : Raft n Cmd) : ℕ := lastTerm LogEntry.term rf.log

def termAtLocked (rf : Raft n Cmd) (i : ℕ) : ℤ :=
  if i = 0 then 0
  else
    match rf.log[i]? with
    | none => -1
    | some e => e.term

/-- the state change of `becomeLeaderLocked`; the goroutine it starts is the cluster's -/
def becomeLeaderLocked (rf : Raft n Cmd) : Raft n Cmd :=
  let rf := persist { rf with state := .leader }
  let last := rf.lastLogIndexLocked
  { rf with
    nextIndex := List.replicate n (last + 1)
    matchIndex := (List.replicate n 0).set rf.me last }

/-! ## Elections -/

def requestVote (rf : Raft n Cmd) (args : RequestVoteArgs n) : Raft n Cmd × RequestVoteReply :=
  if args.electionTerm < rf.term then (rf, ⟨rf.term, false⟩)
  else
    let old := rf.term
    let rf := if args.electionTerm > rf.term then rf.stepDownLocked args.electionTerm else rf
    let myLastIdx := rf.lastLogIndexLocked
    let myLastTerm := rf.lastLogTermLocked
    let upToDate := args.lastLogTerm > myLastTerm ∨ (args.lastLogTerm = myLastTerm ∧ args.lastLogIndex ≥ myLastIdx)
    if (rf.votedFor = -1 ∨ rf.votedFor = (args.candidateID : ℕ)) ∧ upToDate then
      (persist { rf with votedFor := (args.candidateID : ℕ) }, ⟨rf.term, true⟩)
    else (rf, ⟨old, false⟩)

/-- the candidate's side of `StartElection`, up to the point where the lock is released; the arguments of the requests
to send when the node did not win at once -/
def startElection (rf : Raft n Cmd) : Raft n Cmd × Option (RequestVoteArgs n) :=
  let rf := persist { rf with term := rf.term + 1, state := .candidate, votedFor := (rf.me : ℕ), voteCount := 1 }
  if rf.voteCount > n / 2 then (rf.becomeLeaderLocked, none)
  else (rf, some ⟨rf.term, rf.me, rf.lastLogIndexLocked, rf.lastLogTermLocked⟩)

/-- a RequestVote reply reaches the goroutine that asked in the election of `term`; true when the node wins -/
def requestVoteReply (rf : Raft n Cmd) (term : ℕ) (reply : RequestVoteReply) : Raft n Cmd × Bool :=
  if reply.electionTerm > rf.term then (rf.stepDownLocked reply.electionTerm, false)
  else if reply.vote then
    let rf := { rf with voteCount := rf.voteCount + 1 }
    if rf.voteCount > n / 2 ∧ rf.state = .candidate ∧ rf.term = term then (rf.becomeLeaderLocked, true)
    else (rf, false)
  else (rf, false)

/-! ## Heartbeats -/

def heartbeat (rf : Raft n Cmd) (args : HeartbeatArgs n) : Raft n Cmd × HeartbeatReply :=
  if args.term < rf.term then (rf, ⟨rf.term, false⟩)
  else
    let rf := if args.term > rf.term then { rf with term := args.term, votedFor := -1 } else rf
    let rf := if rf.state ≠ .follower then { rf with state := .follower } else rf
    let rf := persist rf
    (rf, ⟨rf.term, true⟩)

/-- the section of `StartHeartbeat`: what the heartbeats will say, whatever the node's state is by now -/
def startHeartbeat (rf : Raft n Cmd) : HeartbeatArgs n := ⟨rf.me, rf.term⟩

/-- a Heartbeat reply reaches the goroutine that sent the heartbeat of term `t` -/
def heartbeatReply (rf : Raft n Cmd) (t : ℕ) (reply : HeartbeatReply) : Raft n Cmd :=
  if reply.term > t then rf.stepDownLocked reply.term else rf

/-! ## Replication -/

/-- the first index of the run of term `ct` that ends at `i` -/
def firstIndexOf (rf : Raft n Cmd) (ct : ℤ) : ℕ → ℕ
  | 0 => 0
  | i + 1 => if rf.termAtLocked i = ct then rf.firstIndexOf ct i else i + 1

/-- `i` and `j` of the Go loop advance together by the length of the matching run -/
def syncLocked (rf : Raft n Cmd) (startIndex : ℕ) (entries : List (LogEntry Cmd)) : Raft n Cmd :=
  if entries.length = 0 then rf
  else
    let startIndex := if startIndex > rf.log.length then rf.log.length else startIndex
    let j := matchLen LogEntry.term (rf.log.drop startIndex) entries
    let i := startIndex + j
    let rf := { rf with log := rf.log.take i }
    if j < entries.length then { rf with log := rf.log ++ entries.drop j } else rf

def appendEntries (rf : Raft n Cmd) (args : AppendEntriesArgs n Cmd) : Raft n Cmd × AppendEntriesReply :=
  if args.term < rf.term then (rf, ⟨rf.term, false, 0, 0⟩)
  else
    let old := rf.term
    let rf :=
      if args.term > rf.term then rf.stepDownLocked args.term
      else if rf.state ≠ .follower then { rf with state := .follower }
      else rf
    if args.prevLogIndex > rf.lastLogIndexLocked then (rf, ⟨old, false, -1, rf.lastLogIndexLocked + 1⟩)
    else if rf.termAtLocked args.prevLogIndex ≠ args.prevLogTerm then
      let ct := rf.termAtLocked args.prevLogIndex
      (rf, ⟨old, false, ct, rf.firstIndexOf ct args.prevLogIndex⟩)
    else
      let rf := persist (rf.syncLocked (args.prevLogIndex + 1) args.entries)
      let rf :=
        if args.leaderCommit > rf.commitIndex then
          { rf with
            commitIndex :=
              if args.leaderCommit < rf.lastLogIndexLocked then args.leaderCommit else rf.lastLogIndexLocked }
        else rf
      (rf, ⟨rf.term, true, 0, 0⟩)

/-- the first section of `replicateTo`: outer `none` is a panic, inner `none` is the return of a node that no longer
leads in `leaderTerm` -/
def replicateSend (rf : Raft n Cmd) (peer : Fin n) (leaderTerm : ℕ) :
    Option (Raft n Cmd × Option (AppendEntriesArgs n Cmd)) :=
  if rf.state ≠ .leader ∨ rf.term ≠ leaderTerm then some (rf, none)
  else do
    let next ← rf.nextIndex[peer.val]?
    let rf := if next < 1 then { rf with nextIndex := rf.nextIndex.set peer 1 } else rf
    let next := if next < 1 then 1 else next
    if next > rf.log.length then none
    else
      let prevIdx := next - 1
      some (rf, some {
        term := rf.term
        leaderID := rf.me
        prevLogIndex := prevIdx
        prevLogTerm := rf.termAtLocked prevIdx
        entries := rf.log.drop next
        leaderCommit := rf.commitIndex })

/-- `1 + |{i ≠ me : matchIndex[i] ≥ N}|` as the loop in `tryAdvanceCommitLocked` counts it -/
def countMatch (rf : Raft n Cmd) (N : ℕ) : ℕ :=
  1 + (List.finRange n).countP fun i => i ≠ rf.me ∧ rf.matchIndex.getD i 0 ≥ N

/-- the loop of `tryAdvanceCommitLocked` from `N` down to `commitIndex`: the index it commits, if any; outer `none`
is an index out of range -/
def commitSearch (rf : Raft n Cmd) : ℕ → Option (Option ℕ)
  | 0 => some none
  | N + 1 =>
    if N + 1 > rf.commitIndex then do
      let e ← rf.log[N + 1]?
      if e.term ≠ rf.term then rf.commitSearch N
      else if rf.countMatch (N + 1) > n / 2 then some (some (N + 1))
      else rf.commitSearch N
    else some none

/-- true when `commitIndex` advanced, so that the new value is pushed to the peers -/
def tryAdvanceCommitLocked (rf : Raft n Cmd) : Option (Raft n Cmd × Bool) := do
  match ← rf.commitSearch rf.lastLogIndexLocked with
  | some N => some ({ rf with commitIndex := N }, true)
  | none => some (rf, false)

/-- the leader's scan for its last entry of term `ct` at or below `i`, given up at a smaller term -/
def lastIndexOf (rf : Raft n Cmd) (ct : ℤ) : ℕ → Option (Option ℕ)
  | 0 => some none
  | i + 1 => do
    let e ← rf.log[i + 1]?
    if (e.term : ℤ) = ct then some (some (i + 1))
    else if (e.term : ℤ) < ct then some none
    else rf.lastIndexOf ct i

/-- what `replicateTo` does after its reply section -/
inductive Next where
  | done
  | pushed
  | retry
deriving DecidableEq, Repr

/-- the second section of `replicateTo(peer, leaderTerm)`, for the reply to the request `args`; `none` is a panic -/
def replicateReply (rf : Raft n Cmd) (peer : Fin n) (leaderTerm : ℕ) (args : AppendEntriesArgs n Cmd)
    (reply : AppendEntriesReply) : Option (Raft n Cmd × Next) :=
  if reply.term > rf.term then some (rf.stepDownLocked reply.term, .done)
  else if rf.term ≠ leaderTerm ∨ rf.state ≠ .leader then some (rf, .done)
  else if reply.success then do
    let m := args.prevLogIndex + args.entries.length
    let cur ← rf.matchIndex[peer.val]?
    let rf :=
      if m > cur then
        { rf with matchIndex := rf.matchIndex.set peer m, nextIndex := rf.nextIndex.set peer (m + 1) }
      else rf
    let (rf, advanced) ← rf.tryAdvanceCommitLocked
    some (rf, if advanced then .pushed else .done)
  else do
    let _ ← rf.nextIndex[peer.val]?
    let next ←
      if reply.conflictTerm = -1 then some reply.conflictIndex
      else
        match ← rf.lastIndexOf reply.conflictTerm rf.lastLogIndexLocked with
        | some last => some (last + 1)
        | none => some reply.conflictIndex
    let next := if next < 1 then 1 else next
    some ({ rf with nextIndex := rf.nextIndex.set peer next }, .retry)

/-! ## Clients -/

/-- one round of the applier's inner loop: the message to send once the lock is released -/
def applier (rf : Raft n Cmd) : Raft n Cmd × Option (ApplyMsg Cmd) :=
  if rf.lastApplied ≥ rf.commitIndex then (rf, none)
  else
    match rf.log[rf.lastApplied + 1]? with
    | none => (rf, none)
    | some e => ({ rf with lastApplied := rf.lastApplied + 1 }, some ⟨rf.lastApplied + 1, e.command⟩)

/-- `Start(command)`: index, term and whether the node is leader -/
def start (rf : Raft n Cmd) (command : Option Cmd) : Raft n Cmd × ℤ × ℕ × Bool :=
  if rf.state ≠ .leader then (rf, -1, rf.term, false)
  else
    let rf := persist { rf with log := rf.log ++ [⟨rf.term, command⟩] }
    let index := rf.log.length - 1
    let rf := { rf with matchIndex := rf.matchIndex.set rf.me index, nextIndex := rf.nextIndex.set rf.me (index + 1) }
    (rf, index, rf.term, true)

end Raft

end CS240
