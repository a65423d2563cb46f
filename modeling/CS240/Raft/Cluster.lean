/-
A cluster of `n` Raft nodes over labrpc: goroutines, messages in flight, crashes and restarts.

A step of the cluster is one section under `rf.mu` of one node (or the send on `applyCh`, or the return of an RPC that
failed). Which node, which goroutine and which message comes next is chosen by the scheduler through an `Action`, so
a run is an arbitrary interleaving of the sections.

- A server keeps, next to its `Raft` struct, where its life loop is, which goroutines are about to run a section, and
  the ApplyMsg its applier is about to send. Goroutines that wait for an RPC are not kept: what they remember (the
  election's term, the heartbeat's term, the AppendEntries arguments and the peers left to serve) travels with the call
  in the message.
- The network is a list of requests and replies in flight, delivered or lost in any order. A call is executed at most
  once and answered at most once, as in labrpc. A call may also return false while its handler is still to run at a live
  node (`abandon`): labrpc's ProcessReq stops waiting for the handler when the connection has been disabled.
- `restart` is a crash followed by `Make`; a node that is down takes no step, so only the moment it is back matters.
  Calls of the old incarnation may still be executed, but nobody waits for their replies. `crashIn` is a crash in the
  middle of RequestVote or AppendEntries, after stepDownLocked has saved the new term and before the section saves
  again: the only sections that write the Persister twice with different values.
- `Event`s are what a run leaves behind: candidacies, votes, elections, commands started, requests sent and accepted,
  commits, and messages sent on `applyCh`.
-/
import CS240.Lib.Machine
import CS240.Raft.Node

namespace CS240.Raft

open Lib

/-! ## Events -/

inductive Event (ι Cmd : Type) where
  /-- `StartElection` at `p` for term `t`, with the log it will be compared by -/
  | candidacy (p : ι) (t : ℕ) (log : List (LogEntry Cmd))
  /-- `RequestVote` of `c` for term `t` answered with Vote = true by `v`, whose log is `log` -/
  | voteGranted (v : ι) (t : ℕ) (c : ι) (log : List (LogEntry Cmd))
  /-- `c` counts the vote `v` gave it in the election of term `t` -/
  | voteCounted (c : ι) (t : ℕ) (v : ι)
  /-- `becomeLeaderLocked` at `p` in term `t` -/
  | becameLeader (p : ι) (t : ℕ) (log : List (LogEntry Cmd))
  /-- `Start(command)` returned `(index, t, true)` at `p` -/
  | started (p : ι) (t : ℕ) (index : ℕ) (command : Option Cmd)
  /-- `replicateTo` built a request at leader `p` in term `t` -/
  | sent (p : ι) (t : ℕ) (log : List (LogEntry Cmd)) (commit : ℕ)
  /-- `AppendEntries` of term `t` succeeded at `v` up to index `i`; `cut` when it dropped entries without a conflict -/
  | accepted (v : ι) (t : ℕ) (i : ℕ) (cut : Bool)
  /-- `tryAdvanceCommitLocked` at `p` in term `t` set commitIndex to `N` -/
  | committed (p : ι) (t : ℕ) (N : ℕ) (log : List (LogEntry Cmd))
  /-- an ApplyMsg was sent on `applyCh` of `p` -/
  | applied (p : ι) (msg : ApplyMsg Cmd)
deriving DecidableEq, Repr

/-! ## Servers and messages -/

/-- where `life` is: at the top of its loop, or past the section that read the state -/
inductive Life where
  | top
  | saw (state : State)
deriving DecidableEq, Repr

/-- a goroutine about to run a section -/
inductive Goroutine (n : ℕ) where
  /-- a vote goroutine that won, about to call `StartHeartbeat` -/
  | startHeartbeat
  /-- about to call `replicateTo` for these peers, one after the other -/
  | replicateTo (peers : List (Fin n)) (leaderTerm : ℕ)
deriving DecidableEq, Repr

structure Server (n : ℕ) (Cmd : Type) where
  rf : Raft n Cmd
  life : Life
  goroutines : List (Goroutine n)
  /-- the message the applier is about to send -/
  pending : Option (ApplyMsg Cmd)
  incarnation : ℕ
deriving DecidableEq, Repr

/-- a request with what its goroutine remembers, or a reply on its way back to that goroutine -/
inductive Body (n : ℕ) (Cmd : Type) where
  | requestVote (args : RequestVoteArgs n)
  | requestVoteReply (term : ℕ) (reply : RequestVoteReply)
  | heartbeat (args : HeartbeatArgs n)
  | heartbeatReply (t : ℕ) (reply : HeartbeatReply)
  | appendEntries (args : AppendEntriesArgs n Cmd) (rest : List (Fin n))
  | appendEntriesReply (args : AppendEntriesArgs n Cmd) (rest : List (Fin n)) (reply : AppendEntriesReply)
deriving DecidableEq, Repr

structure Message (n : ℕ) (Cmd : Type) where
  client : Fin n
  server : Fin n
  /-- of the client that waits for the reply; none once the call has returned -/
  incarnation : Option ℕ
  body : Body n Cmd
deriving DecidableEq, Repr

variable {n : ℕ} {Cmd : Type}

namespace Message

def isRequest (m : Message n Cmd) : Bool :=
  match m.body with
  | .requestVote _ | .heartbeat _ | .appendEntries _ _ => true
  | _ => false

/-- the term a request or reply carries -/
def term (m : Message n Cmd) : ℕ :=
  match m.body with
  | .requestVote args => args.electionTerm
  | .requestVoteReply _ reply => reply.electionTerm
  | .heartbeat args => args.term
  | .heartbeatReply _ reply => reply.term
  | .appendEntries args _ => args.term
  | .appendEntriesReply _ _ reply => reply.term

/-- the message once its call has returned -/
def abandoned (m : Message n Cmd) : Message n Cmd := { m with incarnation := none }

end Message

/-! ## The sections of one server -/

namespace Server

/-- every peer but the node itself -/
def others (me : Fin n) : List (Fin n) := (List.finRange n).filter (· ≠ me)

/-- one goroutine that serves the peers in turn -/
def spawn (peers : List (Fin n)) (leaderTerm : ℕ) : List (Goroutine n) :=
  if peers = [] then [] else [.replicateTo peers leaderTerm]

/-- one goroutine for each peer -/
def spawnEach (me : Fin n) (leaderTerm : ℕ) : List (Goroutine n) :=
  (others me).map fun p => .replicateTo [p] leaderTerm

/-- the calls a server makes to all its peers -/
def broadcast (sv : Server n Cmd) (body : Body n Cmd) : List (Message n Cmd) :=
  (others sv.rf.me).map fun p => ⟨sv.rf.me, p, some sv.incarnation, body⟩

def boot (me : Fin n) (persister : List (Gob Cmd)) (incarnation : ℕ) : Server n Cmd :=
  ⟨Raft.make me persister, .top, [], none, incarnation⟩

/-- what a section leaves: the server, the messages it puts on the network, the events -/
abbrev Result (n : ℕ) (Cmd : Type) := Server n Cmd × List (Message n Cmd) × List (Event (Fin n) Cmd)

/-- what a server can be scheduled to do by itself -/
inductive Task (Cmd : Type) where
  /-- `life` reads the state -/
  | lifeRead
  /-- `life` finds that no timeout has passed, and sleeps -/
  | lifeSleep
  /-- `life` calls `StartElection` -/
  | lifeElection
  /-- `life` calls `StartHeartbeat` -/
  | lifeHeartbeat
  /-- the `k`-th goroutine runs its next section -/
  | goroutine (k : ℕ)
  /-- the applier takes the next entry -/
  | apply
  /-- the applier's send on `applyCh` -/
  | applySend
  /-- a client calls `Start` -/
  | start (command : Option Cmd)
  /-- crash, and `Make` from the Persister -/
  | restart
deriving DecidableEq, Repr

def election (sv : Server n Cmd) : Result n Cmd :=
  let (rf, args) := sv.rf.startElection
  match args with
  | none =>
    ({ sv with rf := rf, life := .top, goroutines := sv.goroutines ++ spawn (others rf.me) rf.term }, [],
      [.candidacy rf.me rf.term rf.log, .becameLeader rf.me rf.term rf.log])
  | some args =>
    ({ sv with rf := rf, life := .top }, sv.broadcast (.requestVote args), [.candidacy rf.me rf.term rf.log])

def runGoroutine (sv : Server n Cmd) (k : ℕ) : Option (Result n Cmd) :=
  let rest := sv.goroutines.eraseIdx k
  match sv.goroutines[k]? with
  | none => none
  | some .startHeartbeat => some ({ sv with goroutines := rest }, sv.broadcast (.heartbeat sv.rf.startHeartbeat), [])
  | some (.replicateTo [] _) => some ({ sv with goroutines := rest }, [], [])
  | some (.replicateTo (peer :: peers) leaderTerm) =>
    match sv.rf.replicateSend peer leaderTerm with
    | none => none
    | some (rf, none) => some ({ sv with rf := rf, goroutines := rest ++ spawn peers leaderTerm }, [], [])
    | some (rf, some args) =>
      some ({ sv with rf := rf, goroutines := rest }, [⟨rf.me, peer, some sv.incarnation, .appendEntries args peers⟩],
        [.sent rf.me rf.term rf.log rf.commitIndex])

def run (sv : Server n Cmd) : Task Cmd → Option (Result n Cmd)
  | .lifeRead => if sv.life = .top then some ({ sv with life := .saw sv.rf.state }, [], []) else none
  | .lifeSleep =>
    if sv.life = .saw .follower ∨ sv.life = .saw .candidate then some ({ sv with life := .top }, [], []) else none
  | .lifeElection =>
    if sv.life = .saw .follower ∨ sv.life = .saw .candidate then some sv.election else none
  | .lifeHeartbeat =>
    if sv.life = .saw .leader then
      some ({ sv with life := .top }, sv.broadcast (.heartbeat sv.rf.startHeartbeat), [])
    else none
  | .goroutine k => sv.runGoroutine k
  | .apply =>
    if sv.pending = none then
      let (rf, msg) := sv.rf.applier
      some ({ sv with rf := rf, pending := msg }, [], [])
    else none
  | .applySend =>
    match sv.pending with
    | none => none
    | some msg => some ({ sv with pending := none }, [], [.applied sv.rf.me msg])
  | .start command =>
    let (rf, index, term, isLeader) := sv.rf.start command
    if isLeader then
      some ({ sv with rf := rf, goroutines := sv.goroutines ++ spawnEach rf.me term }, [],
        [.started rf.me term index.toNat command])
    else some ({ sv with rf := rf }, [], [])
  | .restart => some (boot sv.rf.me sv.rf.persister (sv.incarnation + 1), [], [])

/-- a request is handled, or a reply reaches the goroutine that waits for it -/
def handle (sv : Server n Cmd) (m : Message n Cmd) : Option (Result n Cmd) :=
  match m.body with
  | .requestVote args =>
    let (rf, reply) := sv.rf.requestVote args
    some ({ sv with rf := rf }, [{ m with body := .requestVoteReply args.electionTerm reply }],
      if reply.vote then [.voteGranted rf.me rf.term args.candidateID rf.log] else [])
  | .requestVoteReply term reply =>
    let (rf, won) := sv.rf.requestVoteReply term reply
    let counted := if reply.electionTerm ≤ sv.rf.term ∧ reply.vote then [.voteCounted rf.me term m.server] else []
    if won then
      some ({ sv with rf := rf, goroutines := sv.goroutines ++ .startHeartbeat :: spawn (others rf.me) rf.term }, [],
        counted ++ [.becameLeader rf.me rf.term rf.log])
    else some ({ sv with rf := rf }, [], counted)
  | .heartbeat args =>
    let (rf, reply) := sv.rf.heartbeat args
    some ({ sv with rf := rf }, [{ m with body := .heartbeatReply args.term reply }], [])
  | .heartbeatReply t reply =>
    some ({ sv with rf := sv.rf.heartbeatReply t reply, goroutines := sv.goroutines ++ spawn [m.server] t }, [], [])
  | .appendEntries args rest =>
    let (rf, reply) := sv.rf.appendEntries args
    some ({ sv with rf := rf }, [{ m with body := .appendEntriesReply args rest reply }],
      if reply.success then
        [.accepted rf.me rf.term (args.prevLogIndex + args.entries.length)
          (decide (Cuts LogEntry.term sv.rf.log (args.prevLogIndex + 1) args.entries))]
      else [])
  | .appendEntriesReply args rest reply =>
    match sv.rf.replicateReply m.server args.term args reply with
    | none => none
    | some (rf, .done) => some ({ sv with rf := rf, goroutines := sv.goroutines ++ spawn rest args.term }, [], [])
    | some (rf, .pushed) =>
      some ({ sv with
          rf := rf
          goroutines := sv.goroutines ++ spawnEach rf.me rf.term ++ spawn rest args.term }, [],
        [.committed rf.me rf.term rf.commitIndex rf.log])
    | some (rf, .retry) =>
      some ({ sv with rf := rf, goroutines := sv.goroutines ++ spawn (m.server :: rest) args.term }, [], [])

/-- the call of `m` returns false. A heartbeat goroutine goes on to `replicateTo`, since its reply is still zero;
`replicateTo` returns. -/
def failed (sv : Server n Cmd) (m : Message n Cmd) : Server n Cmd :=
  match m.body with
  | .requestVote _ | .requestVoteReply _ _ => sv
  | .heartbeat args => { sv with goroutines := sv.goroutines ++ spawn [m.server] args.term }
  | .heartbeatReply t _ => { sv with goroutines := sv.goroutines ++ spawn [m.server] t }
  | .appendEntries args rest | .appendEntriesReply args rest _ =>
    { sv with goroutines := sv.goroutines ++ spawn rest args.term }

end Server

/-! ## The cluster -/

structure Cluster (n : ℕ) (Cmd : Type) where
  node : Fin n → Server n Cmd
  net : List (Message n Cmd)

inductive Action (n : ℕ) (Cmd : Type) where
  | run (p : Fin n) (task : Server.Task Cmd)
  /-- the `k`-th message in flight arrives -/
  | deliver (k : ℕ)
  /-- the `k`-th message in flight is lost, and its call returns false -/
  | lose (k : ℕ)
  /-- the call of the `k`-th message, a request, returns false, and the request stays in flight -/
  | abandon (k : ℕ)
  /-- the handler of the `k`-th message crashes after saving the message's newer term, and restarts -/
  | crashIn (k : ℕ)
deriving DecidableEq, Repr

namespace Cluster

def init (n : ℕ) (Cmd : Type) : Cluster n Cmd := ⟨fun p => Server.boot p [] 0, []⟩

/-- the node that processes a message in flight: the server of a request, the client of a reply unless the goroutine
that made the call has gone on or died in a crash -/
def receiver (s : Cluster n Cmd) (m : Message n Cmd) : Option (Fin n) :=
  if m.isRequest then some m.server
  else if m.incarnation = some (s.node m.client).incarnation then some m.client
  else none

/-- put a node's result back into the cluster -/
def put (s : Cluster n Cmd) (p : Fin n) (net : List (Message n Cmd)) (r : Server.Result n Cmd) :
    Cluster n Cmd × List (Event (Fin n) Cmd) :=
  (⟨Function.update s.node p r.1, net ++ r.2.1⟩, r.2.2)

def deliver (s : Cluster n Cmd) (k : ℕ) : Option (Cluster n Cmd × List (Event (Fin n) Cmd)) :=
  match s.net[k]? with
  | none => none
  | some m =>
    match s.receiver m with
    | none => some (⟨s.node, s.net.eraseIdx k⟩, [])
    | some p => ((s.node p).handle m).map (s.put p (s.net.eraseIdx k))

def lose (s : Cluster n Cmd) (k : ℕ) : Option (Cluster n Cmd × List (Event (Fin n) Cmd)) :=
  match s.net[k]? with
  | none => none
  | some m =>
    if m.incarnation = some (s.node m.client).incarnation then
      some (s.put m.client (s.net.eraseIdx k) ((s.node m.client).failed m, [], []))
    else some (⟨s.node, s.net.eraseIdx k⟩, [])

/-- the caller sees its call fail, the handler is still to run, and nobody waits for its reply -/
def abandon (s : Cluster n Cmd) (k : ℕ) : Option (Cluster n Cmd × List (Event (Fin n) Cmd)) :=
  match s.net[k]? with
  | none => none
  | some m =>
    if m.isRequest ∧ m.incarnation = some (s.node m.client).incarnation then
      some (s.put m.client (s.net.eraseIdx k) ((s.node m.client).failed m, [m.abandoned], []))
    else none

/-- `p` crashes after saving the newer term `t`, and restarts -/
def crash (s : Cluster n Cmd) (p : Fin n) (t : ℕ) : Cluster n Cmd :=
  let sv := s.node p
  (s.put p s.net (Server.boot sv.rf.me (sv.rf.stepDownLocked t).persister (sv.incarnation + 1), [], [])).1

/-- the caller sees its call fail, and the handler's node restarts from what it saved -/
def crashIn (s : Cluster n Cmd) (k : ℕ) : Option (Cluster n Cmd × List (Event (Fin n) Cmd)) :=
  match s.net[k]? with
  | none => none
  | some m =>
    match m.body with
    | .requestVote _ | .appendEntries _ _ =>
      if m.term > (s.node m.server).rf.term then (s.lose k).map fun r => (r.1.crash m.server m.term, r.2) else none
    | _ => none

def step (s : Cluster n Cmd) : Action n Cmd → Option (Cluster n Cmd × List (Event (Fin n) Cmd))
  | .run p task => ((s.node p).run task).map (s.put p s.net)
  | .deliver k => s.deliver k
  | .lose k => s.lose k
  | .abandon k => s.abandon k
  | .crashIn k => s.crashIn k

/-- the message a step processes, and where -/
def received (s : Cluster n Cmd) : Action n Cmd → Option (Fin n × Message n Cmd)
  | .deliver k => (s.net[k]?).bind fun m => (s.receiver m).map fun p => (p, m)
  | _ => none

end Cluster

/-- the cluster as a machine -/
def machine (n : ℕ) (Cmd : Type) : Machine (Cluster n Cmd) (Action n Cmd) (Event (Fin n) Cmd) where
  init := Cluster.init n Cmd
  step := Cluster.step

end CS240.Raft
