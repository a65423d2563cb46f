/-
The simulated network of the tests (`src/labrpc/labrpc.go`).

A `ClientEnd.Call` hands its request to the network and waits; `ProcessReq` serves each request in a goroutine of its
own, and starts another one for the handler. The two are interleaved with those of every other call and with the
administration of the network (`MakeEnd`, `Connect`, `Enable`, `AddServer`, `DeleteServer`, `Reliable`), which takes the
lock `rn.mu` for one operation at a time.

- What the lock protects is the `Switch`; ends, servers and server objects are named by arbitrary types. `servers` holds
  pointers, so that a server that is deleted and added again under the same name is a different one.
- A `Call` is where `ProcessReq` is (`Stage`) and where its handler is (`Handler`). A handler runs at the server that
  `ReadEndnameInfo` found, whatever happens to the connection afterwards, and also when nobody waits for it any more.
- What a handler computes is not labrpc's: `execute` takes the reply.
- Go maps that answer false or nil for an unknown key are functions. Sleeping (`longDelays`, `longReordering`, the short
  delays of an unreliable network) is left to the scheduler, as is every choice by `rand`.
- `log.Fatalf` ends the process, so such a step is not possible (`none`). Encoding and decoding are the identity.
-/
import CS240.Lib.Machine

namespace CS240.Labrpc

open Lib

/-! ## Server objects -/

/-- a collection of services, by name, each with the names of its methods -/
structure Server where
  services : String → Option (List String)
  /-- incoming RPCs -/
  count : ℕ

def makeServer : Server := ⟨fun _ => none, 0⟩

def Server.addService (rs : Server) (name : String) (methods : List String) : Server :=
  { rs with services := Function.update rs.services name (some methods) }

/-- the names before and after the last dot -/
def splitMethod : List Char → Option (List Char × List Char)
  | [] => none
  | c :: cs =>
    match splitMethod cs with
    | some (service, method) => some (c :: service, method)
    | none => if c = '.' then some ([], cs) else none

/-- count the RPC and find its method; a name without a dot, an unknown service and an unknown method end the process -/
def Server.dispatch (rs : Server) (svcMeth : String) : Option Server := do
  let rs := { rs with count := rs.count + 1 }
  let (serviceName, methodName) ← splitMethod svcMeth.toList
  let methods ← rs.services (String.ofList serviceName)
  if String.ofList methodName ∈ methods then some rs else none

/-! ## What the lock protects -/

structure Switch (E N S : Type) where
  reliable : Bool
  ends : List E
  enabled : E → Bool
  servers : N → Option S
  connections : E → Option N

/-- the operations on the network under `rn.mu` -/
inductive Admin (E N S : Type) where
  | reliable (yes : Bool)
  | makeEnd (endname : E)
  | addServer (servername : N) (rs : S)
  | deleteServer (servername : N)
  | connect (endname : E) (servername : N)
  | enable (endname : E) (enabled : Bool)
deriving DecidableEq, Repr

namespace Switch

variable {E N S : Type}

def makeNetwork : Switch E N S := ⟨true, [], fun _ => false, fun _ => none, fun _ => none⟩

variable [DecidableEq E] [DecidableEq N]

def apply (rn : Switch E N S) : Admin E N S → Option (Switch E N S)
  | .reliable yes => some { rn with reliable := yes }
  | .makeEnd endname =>
    if endname ∈ rn.ends then none
    else
      some { rn with
        ends := rn.ends ++ [endname]
        enabled := Function.update rn.enabled endname false
        connections := Function.update rn.connections endname none }
  | .addServer servername rs => some { rn with servers := Function.update rn.servers servername (some rs) }
  | .deleteServer servername => some { rn with servers := Function.update rn.servers servername none }
  | .connect endname servername =>
    some { rn with connections := Function.update rn.connections endname (some servername) }
  | .enable endname enabled => some { rn with enabled := Function.update rn.enabled endname enabled }

/-- only `Enable` enables an end -/
theorem enabled_apply {rn rn' : Switch E N S} {op : Admin E N S} (hop : rn.apply op = some rn') {e : E}
    (he : rn'.enabled e = true) : rn.enabled e = true ∨ op = .enable e true := by
  cases op with
  | makeEnd endname =>
    simp only [apply] at hop
    split_ifs at hop
    cases hop
    dsimp only at he
    rw [Function.update_apply] at he
    split_ifs at he
    exact .inl he
  | enable endname enabled =>
    cases hop
    dsimp only at he
    rw [Function.update_apply] at he
    split_ifs at he with heq
    · subst heq
      exact .inr (by rw [he])
    · exact .inl he
  | _ => cases hop; exact .inl he

/-- only `AddServer` registers a server -/
theorem servers_apply {rn rn' : Switch E N S} {op : Admin E N S} (hop : rn.apply op = some rn') {n : N} {rs : S}
    (hn : rn'.servers n = some rs) : rn.servers n = some rs ∨ op = .addServer n rs := by
  cases op with
  | makeEnd endname =>
    simp only [apply] at hop
    split_ifs at hop
    cases hop
    exact .inl hn
  | addServer servername server =>
    cases hop
    dsimp only at hn
    rw [Function.update_apply] at hn
    split_ifs at hn with heq
    · subst heq
      exact .inr (by rw [Option.some.inj hn])
    · exact .inl hn
  | deleteServer servername =>
    cases hop
    dsimp only at hn
    rw [Function.update_apply] at hn
    split_ifs at hn
    exact .inl hn
  | _ => cases hop; exact .inl hn

omit [DecidableEq E] [DecidableEq N] in
def readEndnameInfo (rn : Switch E N S) (endname : E) : Bool × Option N × Option S × Bool :=
  (rn.enabled endname, rn.connections endname, (rn.connections endname).bind rn.servers, rn.reliable)

omit [DecidableEq E] [DecidableEq N] in
def isServerDead [DecidableEq S] (rn : Switch E N S) (endname : E) (servername : N) (server : S) : Bool :=
  rn.enabled endname == false || rn.servers servername != some server

omit [DecidableEq E] [DecidableEq N] in
theorem isServerDead_eq_false [DecidableEq S] {rn : Switch E N S} {endname : E} {servername : N} {server : S} :
    rn.isServerDead endname servername server = false ↔
      rn.enabled endname = true ∧ rn.servers servername = some server := by
  simp [isServerDead]

end Switch

/-! ## Calls -/

/-- what `ReadEndnameInfo` found for a request -/
structure Route (N S : Type) where
  servername : N
  server : S
  reliable : Bool
deriving DecidableEq, Repr

/-- where `ProcessReq` is -/
inductive Stage (R : Type) where
  /-- about to call `ReadEndnameInfo` -/
  | received
  /-- the end is enabled and has a server; the request may still be dropped -/
  | admitted
  /-- in the loop that waits for the handler -/
  | waiting
  /-- out of the loop, with the handler's reply or because the server is dead; about to check once more -/
  | checking (reply : Option R)
  /-- about to answer on `replyCh` -/
  | answering (reply : Option R)
  /-- `Call` has returned -/
  | returned (reply : Option R)
deriving DecidableEq, Repr

/-- where the goroutine of the handler is -/
inductive Handler (R : Type) where
  | idle
  | spawned
  /-- `dispatch` has found the method -/
  | dispatched
  /-- the method has returned, and its reply is offered on `ech` -/
  | executed (reply : R)
  | handed (reply : R)
deriving DecidableEq, Repr

structure Call (E N S A R : Type) where
  endname : E
  svcMeth : String
  args : A
  route : Option (Route N S)
  stage : Stage R
  handler : Handler R
deriving DecidableEq, Repr

/-- a step of one call -/
inductive Move (R : Type) where
  | read
  | dropRequest
  | spawn
  | dispatch
  | execute (reply : R)
  /-- the loop takes the handler's reply -/
  | receive
  /-- the loop looks whether the server is dead -/
  | poll
  | recheck
  | dropReply
  | reply
deriving DecidableEq, Repr

variable {E N S A R : Type}

namespace Call

def new (endname : E) (svcMeth : String) (args : A) : Call E N S A R :=
  ⟨endname, svcMeth, args, none, .received, .idle⟩

variable [DecidableEq S]

def dead (rn : Switch E N S) (c : Call E N S A R) : Bool :=
  match c.route with
  | none => true
  | some r => rn.isServerDead c.endname r.servername r.server

/-- `ProcessReq` and its handler, step by step -/
def move (rn : Switch E N S) (c : Call E N S A R) : Move R → Option (Call E N S A R)
  | .read =>
    match c.stage with
    | .received =>
      match rn.readEndnameInfo c.endname with
      | (true, some servername, some server, reliable) =>
        some { c with stage := .admitted, route := some ⟨servername, server, reliable⟩ }
      | _ => some { c with stage := .answering none }
    | _ => none
  | .dropRequest =>
    match c.stage, c.route with
    | .admitted, some r => if r.reliable = false then some { c with stage := .answering none } else none
    | _, _ => none
  | .spawn =>
    match c.stage with
    | .admitted => some { c with stage := .waiting, handler := .spawned }
    | _ => none
  | .dispatch =>
    match c.handler with
    | .spawned => some { c with handler := .dispatched }
    | _ => none
  | .execute reply =>
    match c.handler with
    | .dispatched => some { c with handler := .executed reply }
    | _ => none
  | .receive =>
    match c.stage, c.handler with
    | .waiting, .executed reply => some { c with stage := .checking (some reply), handler := .handed reply }
    | _, _ => none
  | .poll =>
    match c.stage with
    | .waiting => some (if c.dead rn then { c with stage := .checking none } else c)
    | _ => none
  | .recheck =>
    match c.stage with
    | .checking none => some { c with stage := .answering none }
    | .checking (some reply) => some { c with stage := .answering (if c.dead rn then none else some reply) }
    | _ => none
  | .dropReply =>
    match c.stage, c.route with
    | .answering (some _), some r => if r.reliable = false then some { c with stage := .answering none } else none
    | _, _ => none
  | .reply =>
    match c.stage with
    | .answering reply => some { c with stage := .returned reply }
    | _ => none

end Call

/-! ## The network -/

structure Network (E N S A R : Type) where
  switch : Switch E N S
  objects : S → Server
  calls : List (Call E N S A R)

inductive Action (E N S A R : Type) where
  | admin (op : Admin E N S)
  | call (endname : E) (svcMeth : String) (args : A)
  | move (k : ℕ) (mv : Move R)
deriving DecidableEq, Repr

/-- what happens to call `k` -/
inductive Event (S R : Type) where
  | executed (k : ℕ) (server : S) (reply : R)
  | returned (k : ℕ) (reply : Option R)
deriving DecidableEq, Repr

namespace Network

variable [DecidableEq E] [DecidableEq N] [DecidableEq S]

/-- the server object, when its `dispatch` runs -/
def served (nw : Network E N S A R) (c : Call E N S A R) : Move R → Option (S → Server)
  | .dispatch => do
    let r ← c.route
    let rs ← (nw.objects r.server).dispatch c.svcMeth
    some (Function.update nw.objects r.server rs)
  | _ => some nw.objects

omit [DecidableEq E] [DecidableEq N] [DecidableEq S] in
def seen (k : ℕ) (c : Call E N S A R) : Move R → List (Event S R)
  | .execute reply => c.route.toList.map fun r => .executed k r.server reply
  | .reply =>
    match c.stage with
    | .answering reply => [.returned k reply]
    | _ => []
  | _ => []

def step (nw : Network E N S A R) : Action E N S A R → Option (Network E N S A R × List (Event S R))
  | .admin op => (nw.switch.apply op).map fun rn => ({ nw with switch := rn }, [])
  | .call endname svcMeth args => some ({ nw with calls := nw.calls ++ [.new endname svcMeth args] }, [])
  | .move k mv =>
    match nw.calls[k]? with
    | none => none
    | some c => do
      let c' ← c.move nw.switch mv
      let objects ← nw.served c mv
      some ({ nw with objects := objects, calls := nw.calls.set k c' }, seen k c mv)

end Network

variable [DecidableEq E] [DecidableEq N] [DecidableEq S]

/-- the network with these server objects as a machine -/
def machine (E N A R : Type) [DecidableEq E] [DecidableEq N] (objects : S → Server) :
    Machine (Network E N S A R) (Action E N S A R) (Event S R) where
  init := ⟨.makeNetwork, objects, []⟩
  step := Network.step

end CS240.Labrpc
