/-
The test harness (`src/raft/config.go`): Raft instances over labrpc, crashed, restarted and partitioned by one thread.

- The harness cannot kill an instance: `Kill` does nothing. `crash1` cuts it off (its ends and those that lead to it are
  disabled, its server is deleted), copies its Persister and forgets it; the instance goes on running, and handlers that
  were on their way still run in it. `start1` makes a new instance over new ends and a copy of the Persister. An
  instance is named by its server and its incarnation, the number of instances made for that server before it.
- The harness is one thread, and every operation it makes (one lock of `rn.mu` or `cfg.mu`, one assignment) is a step of
  its own, between those of the network and of the instances. A command (`crash1`, `start1`, `connect`, `disconnect`,
  `setunreliable`) becomes the list of its operations, with what it reads in `cfg` at its start: nobody else writes
  there.
- The network is `Labrpc.Network`, with the Raft messages as arguments and their bodies as replies. A call carries the
  goroutine that waits for it, as a message of the cluster does.
- `Control` is what the harness alone changes; which Persister `cfg.saved[i]` points to is there, its bytes are in the
  instance that writes it or, for a copy that nobody writes, in `data`.
- A Persister is copied between two sections of its instance. A copy in the middle of a handler is the cluster's
  `crashIn`, and is not repeated here.
-/
import CS240.Labrpc.Network
import CS240.Raft.Cluster

namespace CS240.Raft

open Lib

/-! ## What the harness changes -/

/-- the Persister `cfg.saved[i]` points to -/
inductive PersisterRef where
  /-- the one that this incarnation was made with, and writes -/
  | object (incarnation : ℕ)
  /-- one that nobody writes -/
  | copy
deriving DecidableEq, Repr

structure Control (n : ℕ) (E : Type) where
  switch : Labrpc.Switch E (Fin n) (Fin n × ℕ)
  connected : Fin n → Bool
  /-- the ends each server sends to -/
  endnames : Fin n → Option (Fin n → E)
  saved : Fin n → Option PersisterRef
  /-- the incarnation `cfg.rafts[i]` points to -/
  rafts : Fin n → Option ℕ
  /-- the ends of every instance made so far -/
  made : Fin n → List (Fin n → E)

/-- an operation of the harness -/
inductive Op (n : ℕ) (E : Type) where
  | connected (i : Fin n) (yes : Bool)
  | admin (op : Labrpc.Admin E (Fin n) (Fin n × ℕ))
  /-- a fresh Persister with the content of the old one, if there is one -/
  | refresh (i : Fin n)
  /-- `cfg.rafts[i] = nil` -/
  | forget (i : Fin n)
  | endnames (i : Fin n) (names : Fin n → E)
  /-- a fresh Persister with the content of the old one, or an empty one -/
  | load (i : Fin n)
  | make (i : Fin n)
  /-- `cfg.rafts[i] = rf`, for the instance just made -/
  | record (i : Fin n)
  /-- `AddServer`, for the instance just made -/
  | serve (i : Fin n)

/-- what a test asks of the harness -/
inductive Command (n : ℕ) (E : Type) where
  | crash1 (i : Fin n)
  /-- with the new end names that `randstring` gave -/
  | start1 (i : Fin n) (names : Fin n → E)
  | connect (i : Fin n)
  | disconnect (i : Fin n)
  | setunreliable (unrel : Bool)

namespace Control

variable {n : ℕ} {E : Type}

def init (n : ℕ) (E : Type) : Control n E :=
  ⟨.makeNetwork, fun _ => false, fun _ => none, fun _ => none, fun _ => none, fun _ => []⟩

/-- the ends of one instance -/
def endsOf (g : Control n E) (i : Fin n) (inc : ℕ) : Option (Fin n → E) := (g.made i)[inc]?

/-- the instance of server `i` made last -/
def latest (g : Control n E) (i : Fin n) : ℕ := (g.made i).length - 1

def apply [DecidableEq E] (g : Control n E) : Op n E → Option (Control n E)
  | .connected i yes => some { g with connected := Function.update g.connected i yes }
  | .admin op => (g.switch.apply op).map fun rn => { g with switch := rn }
  | .refresh i =>
    match g.saved i with
    | none => some g
    | some _ => some { g with saved := Function.update g.saved i (some .copy) }
  | .forget i => some { g with rafts := Function.update g.rafts i none }
  | .endnames i names => some { g with endnames := Function.update g.endnames i (some names) }
  | .load i => some { g with saved := Function.update g.saved i (some .copy) }
  | .make i =>
    match g.endnames i with
    | none => none
    | some ends =>
      some { g with
        saved := Function.update g.saved i (some (.object (g.made i).length))
        made := Function.update g.made i (g.made i ++ [ends]) }
  | .record i => some { g with rafts := Function.update g.rafts i (some (g.latest i)) }
  | .serve i => (g.switch.apply (.addServer i (i, g.latest i))).map fun rn => { g with switch := rn }

def enableAll (ends : List E) (yes : Bool) : List (Op n E) := ends.map fun e => .admin (.enable e yes)

/-- the ends from `i` to each of `js`, and from each of `js` to `i` -/
def links (g : Control n E) (i : Fin n) (js : List (Fin n)) : List E :=
  ((g.endnames i).elim [] fun ends => js.map ends) ++ js.filterMap fun j => (g.endnames j).map fun ends => ends i

def disconnect (g : Control n E) (i : Fin n) : List (Op n E) :=
  .connected i false :: enableAll (g.links i (List.finRange n)) false

/-- the servers that are connected when `i` is, too -/
def joined (g : Control n E) (i : Fin n) : List (Fin n) :=
  (List.finRange n).filter fun j => j = i ∨ g.connected j

/-- none: an index into the end names of a server that was never started -/
def connect (g : Control n E) (i : Fin n) : Option (List (Op n E)) :=
  if ∀ j ∈ g.joined i, (g.endnames j).isSome then some (.connected i true :: enableAll (g.links i (g.joined i)) true)
  else none

def crash1 (g : Control n E) (i : Fin n) : List (Op n E) :=
  g.disconnect i ++ [.admin (.deleteServer i), .refresh i, .forget i, .refresh i]

def makeEnds (names : Fin n → E) : List (Op n E) :=
  (List.finRange n).flatMap fun j => [.admin (.makeEnd (names j)), .admin (.connect (names j) j)]

def start1 (g : Control n E) (i : Fin n) (names : Fin n → E) : List (Op n E) :=
  g.crash1 i ++ .endnames i names :: (makeEnds names ++ [.load i, .make i, .record i, .serve i])

/-- the operations of a command -/
def ops (g : Control n E) : Command n E → Option (List (Op n E))
  | .crash1 i => some (g.crash1 i)
  | .start1 i names => some (g.start1 i names)
  | .connect i => g.connect i
  | .disconnect i => some (g.disconnect i)
  | .setunreliable unrel => some [.admin (.reliable !unrel)]

end Control

/-! ## The tested system -/

/-- the method a request is for -/
def Body.svcMeth {n : ℕ} {Cmd : Type} : Body n Cmd → String
  | .requestVote _ | .requestVoteReply _ _ => "Raft.RequestVote"
  | .heartbeat _ | .heartbeatReply _ _ => "Raft.Heartbeat"
  | .appendEntries _ _ | .appendEntriesReply _ _ _ => "Raft.AppendEntries"

/-- `MakeServer` with the service of a Raft instance: its exported methods with two arguments and no result -/
def raftServer : Labrpc.Server :=
  Labrpc.makeServer.addService "Raft" ["AppendEntries", "Heartbeat", "RequestVote"]

abbrev RaftCall (n : ℕ) (Cmd E : Type) := Labrpc.Call E (Fin n) (Fin n × ℕ) (Message n Cmd) (Body n Cmd)

structure Config (n : ℕ) (Cmd E : Type) where
  ctl : Control n E
  /-- what is left of the command under way -/
  todo : List (Op n E)
  /-- the content of the Persisters that nobody writes -/
  data : Fin n → List (Gob Cmd)
  instances : Fin n → List (Server n Cmd)
  objects : Fin n × ℕ → Labrpc.Server
  calls : List (RaftCall n Cmd E)

namespace Config

/-- an event of an instance, and whether the harness had not crashed it by then -/
inductive Event (n : ℕ) (Cmd : Type) where
  | raft (live : Bool) (ev : Raft.Event (Fin n) Cmd)
  | rpc (live : Bool) (ev : Labrpc.Event (Fin n × ℕ) (Body n Cmd))
deriving DecidableEq, Repr

inductive Action (n : ℕ) (Cmd E : Type) where
  | command (cmd : Command n E)
  /-- the next operation of the harness -/
  | next
  /-- a section of an instance, whether the harness has crashed it or not -/
  | run (i : Fin n) (inc : ℕ) (task : Server.Task Cmd)
  /-- a step of a call on the network -/
  | move (k : ℕ) (mv : Labrpc.Move (Body n Cmd))
  /-- the handler of a call runs -/
  | execute (k : ℕ)
  /-- a call returns to the goroutine that made it -/
  | reply (k : ℕ)

variable {n : ℕ} {Cmd E : Type}

def init (n : ℕ) (Cmd E : Type) : Config n Cmd E :=
  ⟨.init n E, [], fun _ => [], fun _ => [], fun _ => raftServer, []⟩

def net (c : Config n Cmd E) : Labrpc.Network E (Fin n) (Fin n × ℕ) (Message n Cmd) (Body n Cmd) :=
  ⟨c.ctl.switch, c.objects, c.calls⟩

def setNet (c : Config n Cmd E) (nw : Labrpc.Network E (Fin n) (Fin n × ℕ) (Message n Cmd) (Body n Cmd)) :
    Config n Cmd E :=
  { c with ctl := { c.ctl with switch := nw.switch }, objects := nw.objects, calls := nw.calls }

/-- the harness has not replaced the Persister of this instance -/
def live (c : Config n Cmd E) (i : Fin n) (inc : ℕ) : Bool := c.ctl.saved i = some (.object inc)

def instance? (c : Config n Cmd E) (i : Fin n) (inc : ℕ) : Option (Server n Cmd) := (c.instances i)[inc]?

/-- what the Persister `cfg.saved[i]` points to holds -/
def persisted (c : Config n Cmd E) (i : Fin n) : List (Gob Cmd) :=
  match c.ctl.saved i with
  | none => []
  | some .copy => c.data i
  | some (.object inc) => ((c.instance? i inc).map fun sv => sv.rf.persister).getD []

def put (c : Config n Cmd E) (i : Fin n) (inc : ℕ) (sv : Server n Cmd) : Config n Cmd E :=
  { c with instances := Function.update c.instances i ((c.instances i).set inc sv) }

/-- the calls an instance makes, over its own ends -/
def dial (ends : Fin n → E) (out : List (Message n Cmd)) : List (RaftCall n Cmd E) :=
  out.map fun m => .new (ends m.server) m.body.svcMeth m

/-- the result of a section of an instance -/
def settle (c : Config n Cmd E) (i : Fin n) (inc : ℕ) (ends : Fin n → E) (r : Server.Result n Cmd) :
    Config n Cmd E × List (Event n Cmd) :=
  ({ c.put i inc r.1 with calls := c.calls ++ dial ends r.2.1 }, r.2.2.map (.raft (c.live i inc)))

def operate [DecidableEq E] (c : Config n Cmd E) (op : Op n E) : Option (Config n Cmd E) :=
  (c.ctl.apply op).map fun g =>
    match op with
    | .refresh i | .load i => { c with ctl := g, data := Function.update c.data i (c.persisted i) }
    | .make i =>
      { c with
        ctl := g
        instances := Function.update c.instances i
          (c.instances i ++ [Server.boot i (c.persisted i) (c.instances i).length]) }
    | _ => { c with ctl := g }

/-- the handler of call `k` runs in the instance its request was routed to -/
def execute [DecidableEq E] (c : Config n Cmd E) (k : ℕ) : Option (Config n Cmd E × List (Event n Cmd)) := do
  let call ← c.calls[k]?
  let r ← call.route
  let (i, inc) := r.server
  let sv ← c.instance? i inc
  match ← sv.handle call.args with
  | (sv', [reply], evs) =>
    let (nw, rpc) ← c.net.step (.move k (.execute reply.body))
    some ((c.put i inc sv').setNet nw, evs.map (.raft (c.live i inc)) ++ rpc.map (.rpc (c.live i inc)))
  | _ => none

/-- the goroutine that waits for call `k` goes on with the reply, or without -/
def resume (sv : Server n Cmd) (m : Message n Cmd) : Option (Body n Cmd) → Option (Server.Result n Cmd)
  | none => some (sv.failed m, [], [])
  | some body => sv.handle { m with body := body }

def reply [DecidableEq E] (c : Config n Cmd E) (k : ℕ) : Option (Config n Cmd E × List (Event n Cmd)) := do
  let call ← c.calls[k]?
  let i := call.args.client
  let inc ← call.args.incarnation
  let sv ← c.instance? i inc
  let ends ← c.ctl.endsOf i inc
  match call.stage with
  | .answering answer =>
    let r ← resume sv call.args answer
    let (nw, rpc) ← c.net.step (.move k .reply)
    let (c', evs) := (c.setNet nw).settle i inc ends r
    some (c', evs ++ rpc.map (.rpc (c.live i inc)))
  | _ => none

def step [DecidableEq E] (c : Config n Cmd E) : Action n Cmd E → Option (Config n Cmd E × List (Event n Cmd))
  | .command cmd => if c.todo.isEmpty then (c.ctl.ops cmd).map fun ops => ({ c with todo := ops }, []) else none
  | .next =>
    match c.todo with
    | [] => none
    | op :: ops => (c.operate op).map fun c' => ({ c' with todo := ops }, [])
  | .run _ _ .restart => none
  | .run i inc task => do
    let sv ← c.instance? i inc
    let ends ← c.ctl.endsOf i inc
    let r ← sv.run task
    some (c.settle i inc ends r)
  | .move _ (.execute _) => none
  | .move _ .reply => none
  | .move k mv => (c.net.step (.move k mv)).map fun r => (c.setNet r.1, [])
  | .execute k => c.execute k
  | .reply k => c.reply k

/-- the tested system as a machine -/
def machine (n : ℕ) (Cmd E : Type) [DecidableEq E] : Machine (Config n Cmd E) (Action n Cmd E) (Event n Cmd) where
  init := init n Cmd E
  step := step

/-- the tests connect a server only when it is started -/
def Proper (c : Config n Cmd E) : Action n Cmd E → Prop
  | .command (.connect i) => (c.ctl.rafts i).isSome
  | _ => True

instance : DecidableRel (@Proper n Cmd E) := by
  intro c a
  unfold Proper
  split <;> infer_instance

end Config

end CS240.Raft
