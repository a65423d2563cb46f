/-
The tested system as a whole: harness, network and instances.

`Config.step_cases` says once what a step can be. `Config.Ok` holds of every state the tests reach: the harness is in
the middle of a command that keeps the network in order (`Control.keeps_ops`), every instance has its own name and a
Persister it can restart from, and every call is a request of one instance over one of its own ends, routed to an
instance of the server it is for. An instance that has been crashed is never live again (`step_live`).

- `partitioned`: between two commands exactly the ends between connected servers are enabled, and exactly the running
  servers are registered, by their last instance.
- `crashed_isolated`: a request that was not on its way when its instance was crashed is never executed.
- `acknowledged_live`: a reply that a caller gets was given by an instance whose Persister was not superseded at the
  time.
-/
import CS240.Labrpc.Calls
import CS240.Raft.Control
import CS240.Raft.Persistence

namespace CS240.Raft

open Lib

variable {n : ℕ} {Cmd E : Type}

/-! ## Sections of an instance -/

section Sections

variable {sv : Server n Cmd} {task : Server.Task Cmd} {r : Server.Result n Cmd} {m : Message n Cmd}

theorem runGoroutine_incarnation {k : ℕ} (hr : sv.runGoroutine k = some r) : r.1.incarnation = sv.incarnation := by
  unfold Server.runGoroutine at hr
  split at hr
  · cases hr
  · cases hr; rfl
  · cases hr; rfl
  · split at hr
    · cases hr
    · cases hr; rfl
    · cases hr; rfl

theorem run_incarnation (ht : task ≠ .restart) (hr : sv.run task = some r) : r.1.incarnation = sv.incarnation := by
  cases task with
  | lifeRead | lifeSleep | lifeHeartbeat | apply =>
    simp only [Server.run] at hr
    split_ifs at hr
    cases hr
    rfl
  | lifeElection =>
    simp only [Server.run] at hr
    split_ifs at hr
    cases hr
    unfold Server.election
    dsimp only
    split <;> rfl
  | goroutine k => exact runGoroutine_incarnation hr
  | applySend =>
    simp only [Server.run] at hr
    split at hr
    · cases hr
    · cases hr; rfl
  | start command =>
    simp only [Server.run] at hr
    split_ifs at hr <;> cases hr <;> rfl
  | restart => exact absurd rfl ht

theorem handle_incarnation (hr : sv.handle m = some r) : r.1.incarnation = sv.incarnation := by
  unfold Server.handle at hr
  split at hr
  · cases hr; rfl
  · dsimp only at hr
    split_ifs at hr <;> cases hr <;> rfl
  · cases hr; rfl
  · cases hr; rfl
  · cases hr; rfl
  · split at hr <;> cases hr <;> rfl

/-- what an instance sends are requests in its own name -/
theorem Acts.out {rf' : Raft n Cmd} {out : List (Message n Cmd)} {evs : List (Event (Fin n) Cmd)}
    (ha : Acts sv task rf' out evs) (hm : m ∈ out) :
    m.client = sv.rf.me ∧ m.incarnation = some sv.incarnation ∧ m.isRequest = true := by
  cases ha with
  | idle | win | apply | applySend | start | restart => cases hm
  | election | beat =>
    obtain ⟨p, -, rfl⟩ := List.mem_map.1 hm
    exact ⟨rfl, rfl, rfl⟩
  | send hsend =>
    obtain ⟨-, next, rfl⟩ := replicateSend_some hsend
    obtain rfl := List.mem_singleton.1 hm
    exact ⟨rfl, rfl, rfl⟩

/-- `body'` is a reply to the request `body`, for the goroutine that made it -/
def Body.Answers : Body n Cmd → Body n Cmd → Prop
  | .requestVote args, .requestVoteReply term _ => term = args.electionTerm
  | .heartbeat args, .heartbeatReply t _ => t = args.term
  | .appendEntries args rest, .appendEntriesReply args' rest' _ => args' = args ∧ rest' = rest
  | _, _ => False

theorem Body.Answers.isReply {body : Body n Cmd} (ha : m.body.Answers body) :
    ({ m with body := body } : Message n Cmd).isRequest = false := by
  cases hb : m.body <;> cases body <;> rw [hb] at ha <;> first | rfl | cases ha

/-- a goroutine whose call fails does not know whether its request was answered -/
theorem Body.Answers.failed {body : Body n Cmd} (ha : m.body.Answers body) :
    sv.failed { m with body := body } = sv.failed m := by
  cases hb : m.body <;> cases body <;> rw [hb] at ha <;> try cases ha
  all_goals simp_all [Server.failed]

/-- the handler of a request always answers, and does not look at who waits -/
theorem handle_request (sv : Server n Cmd) (hm : m.isRequest = true) : ∃ sv' body evs, m.body.Answers body ∧
    ∀ o, sv.handle { m with incarnation := o } = some (sv', [{ m with incarnation := o, body := body }], evs) := by
  obtain ⟨client, server, inc, body⟩ := m
  cases body with
  | requestVote args =>
    exact ⟨_, .requestVoteReply args.electionTerm (sv.rf.requestVote args).2, _, rfl, fun o => rfl⟩
  | heartbeat args => exact ⟨_, .heartbeatReply args.term (sv.rf.heartbeat args).2, _, rfl, fun o => rfl⟩
  | appendEntries args rest =>
    exact ⟨_, .appendEntriesReply args rest (sv.rf.appendEntries args).2, _, ⟨rfl, rfl⟩, fun o => rfl⟩
  | requestVoteReply | heartbeatReply | appendEntriesReply => cases hm

/-- a goroutine that gets a reply sends nothing in the same section -/
theorem Receives.reply_out {rf rf' : Raft n Cmd} {out : List (Message n Cmd)} {evs : List (Event (Fin n) Cmd)}
    (hm : m.isRequest = false) (hr : Receives rf m rf' out evs) : out = [] := by
  cases hr with
  | requestVote h | heartbeat h | appendEntries h => simp [Message.isRequest, h] at hm
  | requestVoteReply | heartbeatReply | appendEntriesReply => rfl

end Sections

namespace Config

variable [DecidableEq E] {c c' : Config n Cmd E} {a : Action n Cmd E} {h evs : List (Event n Cmd)} {k : ℕ} {i : Fin n}
  {inc : ℕ}

/-! ## What a step can be -/

inductive StepOf (c : Config n Cmd E) : Action n Cmd E → Config n Cmd E → List (Event n Cmd) → Prop
  | command {cmd : Command n E} {ops : List (Op n E)} : c.todo = [] → c.ctl.ops cmd = some ops →
      StepOf c (.command cmd) { c with todo := ops } []
  | next {op : Op n E} {ops : List (Op n E)} {c₁ : Config n Cmd E} : c.todo = op :: ops → c.operate op = some c₁ →
      StepOf c .next { c₁ with todo := ops } []
  | run {i : Fin n} {inc : ℕ} {task : Server.Task Cmd} {sv : Server n Cmd} {ends : Fin n → E}
      {r : Server.Result n Cmd} :
      task ≠ .restart → c.instance? i inc = some sv → c.ctl.endsOf i inc = some ends → sv.run task = some r →
      StepOf c (.run i inc task) { c.put i inc r.1 with calls := c.calls ++ dial ends r.2.1 }
        (r.2.2.map (.raft (c.live i inc)))
  | move {k : ℕ} {mv : Labrpc.Move (Body n Cmd)} {call call' : RaftCall n Cmd E} {objects : Fin n × ℕ → Labrpc.Server} :
      (∀ reply, mv ≠ .execute reply) → mv ≠ .reply → c.calls[k]? = some call →
      Labrpc.Moves c.ctl.switch call mv call' → c.net.served call mv = some objects →
      StepOf c (.move k mv) { c with objects := objects, calls := c.calls.set k call' } []
  | execute {k : ℕ} {call : RaftCall n Cmd E} {r : Labrpc.Route (Fin n) (Fin n × ℕ)} {sv sv' : Server n Cmd}
      {reply : Message n Cmd} {evs : List (Raft.Event (Fin n) Cmd)} : c.calls[k]? = some call → call.route = some r →
      call.handler = .dispatched → c.instance? r.server.1 r.server.2 = some sv →
      sv.handle call.args = some (sv', [reply], evs) →
      StepOf c (.execute k)
        { c.put r.server.1 r.server.2 sv' with calls := c.calls.set k { call with handler := .executed reply.body } }
        (evs.map (.raft (c.live r.server.1 r.server.2)) ++
          [.rpc (c.live r.server.1 r.server.2) (.executed k r.server reply.body)])
  | reply {k : ℕ} {call : RaftCall n Cmd E} {inc : ℕ} {sv : Server n Cmd} {ends : Fin n → E}
      {answer : Option (Body n Cmd)} {r : Server.Result n Cmd} : c.calls[k]? = some call →
      call.args.incarnation = some inc → c.instance? call.args.client inc = some sv →
      c.ctl.endsOf call.args.client inc = some ends → call.stage = .answering answer →
      resume sv call.args answer = some r →
      StepOf c (.reply k)
        { c.put call.args.client inc r.1 with
          calls := c.calls.set k { call with stage := .returned answer } ++ dial ends r.2.1 }
        (r.2.2.map (.raft (c.live call.args.client inc)) ++ [.rpc (c.live call.args.client inc) (.returned k answer)])

theorem execute_cases (hs : c.execute k = some (c', evs)) : StepOf c (.execute k) c' evs := by
  simp only [execute, Option.bind_eq_bind, Option.bind_eq_some_iff] at hs
  obtain ⟨call, hk, r, hr, sv, hsv, res, hres, hs⟩ := hs
  split at hs
  · rename_i sv' reply evs'
    simp only [Option.bind_eq_some_iff] at hs
    obtain ⟨⟨nw, rpc⟩, hnw, heq⟩ := hs
    cases heq
    cases Labrpc.step_cases hnw with
    | @move _ _ call₀ call' _ hk₀ hm hobj =>
      cases hk.symm.trans hk₀
      cases hobj
      cases hm with
      | execute hh =>
        have hseen : Labrpc.Network.seen k call (.execute reply.body) = [.executed k r.server reply.body] := by
          simp [Labrpc.Network.seen, hr]
        rw [hseen]
        exact .execute hk hr hh hsv hres
  · cases hs

theorem reply_cases (hs : c.reply k = some (c', evs)) : StepOf c (.reply k) c' evs := by
  simp only [reply, Option.bind_eq_bind, Option.bind_eq_some_iff] at hs
  obtain ⟨call, hk, inc, hinc, sv, hsv, ends, hends, hs⟩ := hs
  split at hs
  · rename_i answer hst
    simp only [Option.bind_eq_some_iff] at hs
    obtain ⟨r, hr, ⟨nw, rpc⟩, hnw, heq⟩ := hs
    cases heq
    cases Labrpc.step_cases hnw with
    | @move _ _ call₀ call' _ hk₀ hm hobj =>
      cases hk.symm.trans hk₀
      cases hobj
      cases hm with
      | reply hst' =>
        cases hst.symm.trans hst'
        simp only [Labrpc.Network.seen, hst, List.map_cons, List.map_nil]
        exact .reply hk hinc hsv hends hst hr
  · cases hs

theorem move_cases {mv : Labrpc.Move (Body n Cmd)} (hs : c.step (.move k mv) = some (c', evs)) :
    StepOf c (.move k mv) c' evs := by
  have hne : (∀ reply, mv ≠ .execute reply) ∧ mv ≠ .reply := by
    constructor
    · rintro reply rfl; cases hs
    · rintro rfl; cases hs
  have hstep : c.step (.move k mv) = (c.net.step (.move k mv)).map fun r => (c.setNet r.1, []) := by
    cases mv with
    | execute reply => exact absurd rfl (hne.1 reply)
    | reply => exact absurd rfl hne.2
    | _ => rfl
  rw [hstep, Option.map_eq_some_iff] at hs
  obtain ⟨⟨nw, rpc⟩, hnw, heq⟩ := hs
  cases heq
  cases Labrpc.step_cases hnw with
  | move hk hm hobj => exact .move hne.1 hne.2 hk hm hobj

theorem step_cases (hs : c.step a = some (c', evs)) : StepOf c a c' evs := by
  cases a with
  | command cmd =>
    simp only [step] at hs
    split_ifs at hs with htodo
    rw [Option.map_eq_some_iff] at hs
    obtain ⟨ops, hops, heq⟩ := hs
    cases heq
    exact .command (List.isEmpty_iff.1 htodo) hops
  | next =>
    simp only [step] at hs
    split at hs
    · cases hs
    · rename_i op ops htodo
      rw [Option.map_eq_some_iff] at hs
      obtain ⟨c₁, hop, heq⟩ := hs
      cases heq
      exact .next htodo hop
  | run i inc task =>
    have ht : task ≠ .restart := by
      rintro rfl
      cases hs
    have hrun : c.step (.run i inc task) = (c.instance? i inc).bind fun sv => (c.ctl.endsOf i inc).bind fun ends =>
        (sv.run task).bind fun r => some (c.settle i inc ends r) := by
      cases task with
      | restart => exact absurd rfl ht
      | _ => rfl
    simp only [hrun, Option.bind_eq_some_iff] at hs
    obtain ⟨sv, hsv, ends, hends, r, hr, heq⟩ := hs
    cases heq
    exact .run ht hsv hends hr
  | move k mv => exact move_cases hs
  | execute k => exact execute_cases hs
  | reply k => exact reply_cases hs

/-! ## The states the tests reach -/

/-- an instance has its own name, and a Persister it can restart from -/
structure Named (i : Fin n) (inc : ℕ) (sv : Server n Cmd) : Prop where
  me : sv.rf.me = i
  incarnation : sv.incarnation = inc
  saved : Saved sv.rf

/-- a call is a request of an instance over its own end, and goes to an instance of the server it is for -/
structure CallOk (c : Config n Cmd E) (call : RaftCall n Cmd E) : Prop where
  request : call.args.isRequest = true
  caller : ∃ inc ends, call.args.incarnation = some inc ∧ c.ctl.endsOf call.args.client inc = some ends ∧
    call.endname = ends call.args.server
  method : call.svcMeth = call.args.body.svcMeth
  routed : ∀ r, call.route = some r → r.servername = call.args.server ∧ r.server.1 = call.args.server ∧
    r.server.2 < (c.instances r.server.1).length
  answered : ∀ reply, call.handler = .executed reply ∨ call.handler = .handed reply → call.args.body.Answers reply
  agree : call.Ok

structure Ok (c : Config n Cmd E) : Prop where
  control : Keeps Control.apply Control.Ok Control.Idle c.todo c.ctl
  made : ∀ i, (c.instances i).length = (c.ctl.made i).length
  named : ∀ i inc sv, c.instance? i inc = some sv → Named i inc sv
  stored : ∀ i, ∃ rf, rf.me = i ∧ Saved rf ∧ rf.persister = c.persisted i
  calls : ∀ call ∈ c.calls, CallOk c call

omit [DecidableEq E] in
theorem CallOk.mono {call : RaftCall n Cmd E} (hc : CallOk c call)
    (hends : ∀ i inc ends, c.ctl.endsOf i inc = some ends → c'.ctl.endsOf i inc = some ends)
    (hlen : ∀ i, (c.instances i).length ≤ (c'.instances i).length) : CallOk c' call := by
  obtain ⟨inc, ends, hinc, hof, hend⟩ := hc.caller
  refine { hc with caller := ⟨inc, ends, hinc, hends _ _ _ hof, hend⟩, routed := fun r hr => ?_ }
  obtain ⟨h1, h2, h3⟩ := hc.routed r hr
  exact ⟨h1, h2, h3.trans_le (hlen _)⟩

omit [DecidableEq E] in
theorem instance?_put {sv₀ sv : Server n Cmd} (hsv : c.instance? i inc = some sv₀) (a : Fin n) (b : ℕ) :
    (c.put i inc sv).instance? a b = if a = i ∧ b = inc then some sv else c.instance? a b := by
  have hlt : inc < (c.instances i).length := (List.getElem?_eq_some_iff.1 hsv).1
  unfold instance? put
  dsimp only
  by_cases ha : a = i
  · subst ha
    rw [Function.update_self, List.getElem?_set]
    by_cases hb : b = inc
    · simp [hb, hlt]
    · rw [if_neg (Ne.symm hb), if_neg fun h => hb h.2]
  · rw [Function.update_of_ne ha, if_neg fun h => ha h.1]

omit [DecidableEq E] in
theorem length_put (sv : Server n Cmd) (a : Fin n) :
    ((c.put i inc sv).instances a).length = (c.instances a).length := by
  unfold put
  dsimp only
  rw [Function.update_apply]
  split_ifs with ha
  · rw [List.length_set, ha]
  · rfl

omit [DecidableEq E] in
/-- the Persister of a server is that of its live instance -/
theorem persisted_live {sv : Server n Cmd} (hlive : c.live i inc = true) (hsv : c.instance? i inc = some sv) :
    c.persisted i = sv.rf.persister := by
  rw [live, decide_eq_true_eq] at hlive
  simp [persisted, hlive, hsv]

omit [DecidableEq E] in
/-- a section of an instance that is not live leaves the Persisters alone -/
theorem persisted_put {sv₀ sv : Server n Cmd} (hsv : c.instance? i inc = some sv₀) {a : Fin n}
    (ha : a ≠ i ∨ c.live i inc = false) : (c.put i inc sv).persisted a = c.persisted a := by
  have hctl : (c.put i inc sv).ctl.saved a = c.ctl.saved a := rfl
  unfold persisted
  rw [hctl]
  split
  · rfl
  · rfl
  · rename_i b hb
    rw [instance?_put hsv, if_neg]
    rintro ⟨rfl, rfl⟩
    rcases ha with ha | ha
    · exact ha rfl
    · rw [live, hb] at ha
      simp at ha

/-! ### Operations of the harness -/

/-- what an operation does to the instances and their Persisters -/
structure Operated (c : Config n Cmd E) (op : Op n E) (c' : Config n Cmd E) : Prop where
  apply : c.ctl.apply op = some c'.ctl
  calls : c'.calls = c.calls
  objects : c'.objects = c.objects
  persisted : ∀ a, c'.persisted a = c.persisted a
  instances : (c'.instances = c.instances ∧ c'.ctl.made = c.ctl.made ∧
      ∀ a b, c'.ctl.saved a = some (.object b) → c.ctl.saved a = some (.object b)) ∨
    ∃ i ends, op = .make i ∧
      c'.instances = Function.update c.instances i
        (c.instances i ++ [Server.boot i (c.persisted i) (c.instances i).length]) ∧
      c'.ctl.made = Function.update c.ctl.made i (c.ctl.made i ++ [ends]) ∧
      c'.ctl.saved = Function.update c.ctl.saved i (some (.object (c.ctl.made i).length))

theorem make_persister (i : Fin n) (data : List (Gob Cmd)) : (Raft.make i data).persister = data := by
  unfold Raft.make Raft.readPersist
  split <;> rfl

omit [DecidableEq E] in
theorem persisted_copy {g : Control n E} (hg : ∀ a, a ≠ i → g.saved a = c.ctl.saved a) (hi : g.saved i = some .copy)
    (a : Fin n) : ({ c with ctl := g, data := Function.update c.data i (c.persisted i) } : Config n Cmd E).persisted a =
      c.persisted a := by
  by_cases ha : a = i
  · subst ha
    simp [persisted, hi]
  · simp only [persisted, hg a ha, Function.update_of_ne ha]
    rfl

/-- an operation that touches neither instances nor Persisters -/
theorem Operated.of_ctl {op : Op n E} {g : Control n E} (hop : c.ctl.apply op = some g) (hsaved : g.saved = c.ctl.saved)
    (hmade : g.made = c.ctl.made) : Operated c op { c with ctl := g } where
  apply := hop
  calls := rfl
  objects := rfl
  persisted := by
    intro a
    simp only [Config.persisted, hsaved]
    rfl
  instances := .inl ⟨rfl, hmade, fun a b h => by rwa [← hsaved]⟩

/-- a Persister is replaced by one with the same content -/
theorem Operated.of_copy {op : Op n E} {g : Control n E} (hop : c.ctl.apply op = some g)
    (hsaved : g.saved = Function.update c.ctl.saved i (some .copy)) (hmade : g.made = c.ctl.made) :
    Operated c op { c with ctl := g, data := Function.update c.data i (c.persisted i) } where
  apply := hop
  calls := rfl
  objects := rfl
  persisted :=
    persisted_copy (fun a ha => by rw [hsaved, Function.update_of_ne ha]) (by rw [hsaved, Function.update_self])
  instances := by
    refine .inl ⟨rfl, hmade, fun a b h => ?_⟩
    dsimp only at h
    rw [hsaved, Function.update_apply] at h
    split_ifs at h
    · cases h
    · exact h

theorem Operated.of_make {g : Control n E} (hmade : (c.instances i).length = (c.ctl.made i).length)
    (hop : c.ctl.apply (.make i) = some g) :
    Operated c (.make i) { c with
      ctl := g
      instances := Function.update c.instances i
        (c.instances i ++ [Server.boot i (c.persisted i) (c.instances i).length]) } := by
  have happly := hop
  simp only [Control.apply] at hop
  split at hop
  · cases hop
  · rename_i ends hends
    cases hop
    refine ⟨happly, rfl, rfl, fun a => ?_, .inr ⟨i, ends, rfl, rfl, rfl, rfl⟩⟩
    by_cases ha : a = i
    · subst ha
      simp [Config.persisted, instance?, ← hmade, Server.boot, make_persister]
    · simp only [Config.persisted, instance?, Function.update_of_ne ha]

theorem operated {op : Op n E} (hmade : ∀ i, (c.instances i).length = (c.ctl.made i).length)
    (hop : c.operate op = some c') : Operated c op c' := by
  simp only [operate, Option.map_eq_some_iff] at hop
  obtain ⟨g, hg, rfl⟩ := hop
  cases op with
  | connected i yes => cases hg; exact .of_ctl rfl rfl rfl
  | admin op =>
    have happly := hg
    simp only [Control.apply, Option.map_eq_some_iff] at hg
    obtain ⟨rn, -, rfl⟩ := hg
    exact .of_ctl happly rfl rfl
  | refresh i =>
    rw [Control.apply_refresh] at hg
    cases hg
    cases hi : c.ctl.saved i with
    | some r => exact .of_copy (Control.apply_refresh _ _) (by simp [Control.refreshed, hi]) rfl
    | none =>
      have hsame : c.ctl.refreshed i = c.ctl.saved := by
        refine Function.update_eq_self_iff.2 ?_
        rw [hi, Option.map_none]
      refine ⟨Control.apply_refresh _ _, rfl, rfl, fun a => ?_, .inl ⟨rfl, rfl, fun a b h => by rwa [← hsame]⟩⟩
      by_cases ha : a = i
      · subst ha
        simp [persisted, hsame, hi]
      · simp only [persisted, hsame, Function.update_of_ne ha]
        rfl
  | forget i => cases hg; exact .of_ctl rfl rfl rfl
  | endnames i names => cases hg; exact .of_ctl rfl rfl rfl
  | load i => cases hg; exact .of_copy rfl rfl rfl
  | make i => exact .of_make (hmade i) hg
  | record i => cases hg; exact .of_ctl rfl rfl rfl
  | serve i =>
    have happly := hg
    simp only [Control.apply, Option.map_eq_some_iff] at hg
    obtain ⟨rn, -, rfl⟩ := hg
    exact .of_ctl happly rfl rfl

/-! ### Every step keeps them -/

theorem init_ok : (init n Cmd E).Ok where
  control := ⟨Control.init_idle.toOk, Control.init_idle⟩
  made := fun _ => rfl
  named := fun i inc sv h => by simp [instance?, init] at h
  stored := fun i => ⟨Raft.make i [], rfl, make_nil_saved i, make_persister i []⟩
  calls := fun call h => by cases h

/-- a section of an instance, and the calls after it -/
theorem Ok.put {sv₀ sv : Server n Cmd} {calls : List (RaftCall n Cmd E)} (hc : c.Ok)
    (hsv₀ : c.instance? i inc = some sv₀) (hsv : Named i inc sv) (hcalls : ∀ call ∈ calls, CallOk c call) :
    Ok { c.put i inc sv with calls := calls } where
  control := hc.control
  made := fun a => (length_put sv a).trans (hc.made a)
  named := by
    intro a b sv₁ h₁
    have hput : (c.put i inc sv).instance? a b = some sv₁ := h₁
    rw [instance?_put hsv₀] at hput
    split_ifs at hput with hab
    · obtain ⟨rfl, rfl⟩ := hab
      exact Option.some.inj hput ▸ hsv
    · exact hc.named a b sv₁ hput
  stored := by
    intro a
    by_cases ha : a ≠ i ∨ c.live i inc = false
    · obtain ⟨rf, h1, h2, h3⟩ := hc.stored a
      exact ⟨rf, h1, h2, h3.trans (persisted_put hsv₀ ha).symm⟩
    · rw [not_or, not_not, Bool.not_eq_false] at ha
      obtain ⟨rfl, hlive⟩ := ha
      have hself : (c.put a inc sv).instance? a inc = some sv := by rw [instance?_put hsv₀, if_pos ⟨rfl, rfl⟩]
      exact ⟨sv.rf, hsv.me, hsv.saved, (persisted_live (c := c.put a inc sv) hlive hself).symm⟩
  calls := fun call hcall => (hcalls call hcall).mono (fun _ _ _ h => h) fun a => (length_put sv a).ge

theorem Ok.operate {op : Op n E} {ops : List (Op n E)} (hc : c.Ok) (htodo : c.todo = op :: ops)
    (hop : c.operate op = some c') : Ok { c' with todo := ops } := by
  have ho := operated hc.made hop
  have hstored : ∀ a, ∃ rf, rf.me = a ∧ Saved rf ∧ rf.persister = c'.persisted a := by
    intro a
    rw [ho.persisted]
    exact hc.stored a
  have hcontrol : Keeps Control.apply Control.Ok Control.Idle ops c'.ctl := by
    have := hc.control
    rw [htodo] at this
    exact this.2 _ ho.apply
  rcases ho.instances with ⟨hinst, hmade, -⟩ | ⟨i, ends, -, hinst, hmade, -⟩
  · refine ⟨hcontrol, ?_, ?_, hstored, ?_⟩
    · intro a
      show (c'.instances a).length = (c'.ctl.made a).length
      rw [hinst, hmade]
      exact hc.made a
    · intro a b sv hsv
      have hsv : (c'.instances a)[b]? = some sv := hsv
      rw [hinst] at hsv
      exact hc.named a b sv hsv
    · intro call hcall
      refine (hc.calls call (ho.calls ▸ hcall)).mono (fun a b e h => ?_) fun a => ?_
      · show (c'.ctl.made a)[b]? = some e
        rw [hmade]
        exact h
      · show _ ≤ (c'.instances a).length
        rw [hinst]
  · have hboot : Named i (c.instances i).length (Server.boot i (c.persisted i) (c.instances i).length) := by
      obtain ⟨rf, rfl, hsaved, hpers⟩ := hc.stored i
      have hfol := make_follows hsaved
      rw [hpers] at hfol
      exact ⟨hfol.me, rfl, hfol.saved⟩
    refine ⟨hcontrol, ?_, ?_, hstored, ?_⟩
    · intro a
      show (c'.instances a).length = (c'.ctl.made a).length
      rw [hinst, hmade, Function.update_apply, Function.update_apply]
      split_ifs
      · rw [List.length_append, List.length_append, hc.made i]; rfl
      · exact hc.made a
    · intro a b sv hsv
      have hsv : (c'.instances a)[b]? = some sv := hsv
      rw [hinst, Function.update_apply] at hsv
      split_ifs at hsv with ha
      · subst ha
        rw [List.getElem?_append] at hsv
        split_ifs at hsv with hlt
        · exact hc.named a b sv hsv
        · rw [List.getElem?_singleton] at hsv
          split_ifs at hsv with hb
          cases hsv
          obtain rfl : b = (c.instances a).length := by omega
          exact hboot
      · exact hc.named a b sv hsv
    · intro call hcall
      refine (hc.calls call (ho.calls ▸ hcall)).mono (fun a b e h => ?_) fun a => ?_
      · exact (Control.endsOf_push hmade).2 (.inl h)
      · show _ ≤ (c'.instances a).length
        rw [hinst, Function.update_apply]
        split_ifs with ha
        · rw [ha, List.length_append]; omega
        · exact le_rfl

/-- the network routes a call to an instance of the server it is for -/
theorem CallOk.moves {call call' : RaftCall n Cmd E} {mv : Labrpc.Move (Body n Cmd)} (hc : c.Ok) (hcall : CallOk c call)
    (hm : Labrpc.Moves c.ctl.switch call mv call') (hne : ∀ reply, mv ≠ .execute reply) : CallOk c call' := by
  have hagree := hm.ok hcall.agree
  obtain ⟨hend, hmeth, hargs⟩ := hm.request
  obtain ⟨request, caller, method, routed, answered, -⟩ := hcall
  rw [← hargs, ← hend] at caller
  rw [← hargs] at request routed
  rw [← hargs, ← hmeth] at method
  cases hm with
  | @accept servername server _ _ hconn hserv =>
    refine ⟨request, caller, method, ?_, answered, hagree⟩
    intro r hr
    cases hr
    have hok := hc.control.inv
    obtain ⟨inc, ends, -, hof, hend⟩ := caller
    have hname := (hok.known _ ends (List.mem_of_getElem? hof) call.args.server).2
    dsimp only at hend
    rw [← hend, hconn] at hname
    cases hname
    obtain ⟨h1, h2⟩ := hok.registered _ _ hserv
    refine ⟨rfl, h1, ?_⟩
    have hlen := hok.latest _ _ h2
    show server.2 < (c.instances server.1).length
    rw [hc.made, h1]
    omega
  | execute => exact absurd rfl (hne _)
  | dispatch | spawn => exact ⟨request, caller, method, routed, by simp, hagree⟩
  | receive hst hh =>
    refine ⟨request, caller, method, routed, fun reply h => ?_, hagree⟩
    rcases h with h | h <;> cases h
    exact answered _ (.inl hh)
  | _ => exact ⟨request, caller, method, routed, answered, hagree⟩

omit [DecidableEq E] in
theorem CallOk.dial {sv : Server n Cmd} {ends : Fin n → E} {out : List (Message n Cmd)} (hsv : Named i inc sv)
    (hends : c.ctl.endsOf i inc = some ends)
    (hout : ∀ m ∈ out, m.client = sv.rf.me ∧ m.incarnation = some sv.incarnation ∧ m.isRequest = true) :
    ∀ call ∈ dial ends out, CallOk c call := by
  intro call hcall
  obtain ⟨m, hm, rfl⟩ := List.mem_map.1 hcall
  obtain ⟨h1, h2, h3⟩ := hout m hm
  refine ⟨h3, ⟨inc, ends, h2.trans (congrArg _ hsv.incarnation), ?_, rfl⟩, rfl, nofun, fun reply h => ?_,
    Labrpc.Call.Ok.new _ _ _⟩
  · show c.ctl.endsOf m.client inc = some ends
    rw [h1, hsv.me]
    exact hends
  · rcases h with h | h <;> cases h

omit [DecidableEq E] in
theorem CallOk.executed {call : RaftCall n Cmd E} {sv sv' : Server n Cmd} {reply : Message n Cmd}
    {evs : List (Raft.Event (Fin n) Cmd)} (hcall : CallOk c call) (hh : call.handler = .dispatched)
    (hhandle : sv.handle call.args = some (sv', [reply], evs)) :
    CallOk c { call with handler := .executed reply.body } := by
  have hmoves : Labrpc.Moves c.ctl.switch call (.execute reply.body) { call with handler := .executed reply.body } :=
    .execute hh
  have hagree := hmoves.ok hcall.agree
  refine { hcall with answered := fun reply' h => ?_, agree := hagree }
  rcases h with h | h <;> cases h
  obtain ⟨sv₁, body, evs₁, hans, hany⟩ := handle_request sv hcall.request
  have heq := hhandle.symm.trans (hany call.args.incarnation)
  simp only [Option.some.injEq, Prod.mk.injEq, List.cons.injEq, and_true] at heq
  rw [heq.2.1]
  exact hans

omit [DecidableEq E] in
/-- a goroutine that goes on makes no call in the same section -/
theorem resume_out {call : RaftCall n Cmd E} {sv : Server n Cmd} {answer : Option (Body n Cmd)}
    {r : Server.Result n Cmd} (hcall : CallOk c call) (hst : call.stage = .answering answer)
    (hr : resume sv call.args answer = some r) :
    r.2.1 = [] := by
  cases answer with
  | none => cases hr; rfl
  | some body =>
    have hans := hcall.answered body (.inr (hcall.agree.replied body (by rw [hst]; rfl)))
    exact (handle_receives hr).reply_out hans.isReply

theorem Named.resume {m : Message n Cmd} {sv : Server n Cmd} (answer : Option (Body n Cmd)) {r : Server.Result n Cmd}
    (hsv : Named i inc sv) (hr : resume sv m answer = some r) : Named i inc r.1 := by
  cases answer with
  | none =>
    cases hr
    exact ⟨by rw [failed_rf]; exact hsv.me, (failed_incarnation sv m).trans hsv.incarnation, by
      rw [failed_rf]; exact hsv.saved⟩
  | some body =>
    have hfol := (handle_receives hr).follows hsv.saved
    exact ⟨hfol.me.trans hsv.me, (handle_incarnation hr).trans hsv.incarnation, hfol.saved⟩

theorem step_ok (hc : c.Ok) (ha : Proper c a) (hs : c.step a = some (c', evs)) : c'.Ok := by
  cases step_cases hs with
  | @command cmd ops htodo hops =>
    have hidle : c.ctl.Idle := by
      have := hc.control
      rw [htodo] at this
      exact this.2
    refine { hc with control := Control.keeps_ops hidle ?_ hops, calls := fun call hcall => ?_ }
    · rintro i rfl
      exact ha
    · exact (hc.calls call hcall).mono (fun _ _ _ h => h) fun _ => le_rfl
  | next htodo hop => exact hc.operate htodo hop
  | run ht hsv hends hr =>
    have hnamed := hc.named _ _ _ hsv
    have hfol := (run_acts hr).follows hnamed.saved
    refine hc.put hsv ⟨hfol.me.trans hnamed.me, (run_incarnation ht hr).trans hnamed.incarnation, hfol.saved⟩ ?_
    intro call hcall
    rcases List.mem_append.1 hcall with hcall | hcall
    · exact hc.calls call hcall
    · exact CallOk.dial hnamed hends (fun m hm => (run_acts hr).out hm) call hcall
  | move hne _ hk hm hobj =>
    refine { hc with calls := fun call hcall => ?_ }
    refine CallOk.mono (c := c) ?_ (fun _ _ _ h => h) fun _ => le_rfl
    rcases List.mem_or_eq_of_mem_set hcall with hcall | rfl
    · exact hc.calls call hcall
    · exact (hc.calls _ (List.mem_of_getElem? hk)).moves hc hm hne
  | execute hk hr hh hsv hhandle =>
    have hnamed := hc.named _ _ _ hsv
    have hfol := (handle_receives hhandle).follows hnamed.saved
    refine hc.put hsv ⟨hfol.me.trans hnamed.me, (handle_incarnation hhandle).trans hnamed.incarnation, hfol.saved⟩ ?_
    intro call hcall
    rcases List.mem_or_eq_of_mem_set hcall with hcall | rfl
    · exact hc.calls call hcall
    · exact (hc.calls _ (List.mem_of_getElem? hk)).executed hh hhandle
  | reply hk hinc hsv hends hst hr =>
    have hcall := hc.calls _ (List.mem_of_getElem? hk)
    have hnamed := hc.named _ _ _ hsv
    refine hc.put hsv (hnamed.resume _ hr) ?_
    rw [resume_out hcall hst hr]
    intro call₁ hcall₁
    rw [dial, List.map_nil, List.append_nil] at hcall₁
    rcases List.mem_or_eq_of_mem_set hcall₁ with hcall₁ | rfl
    · exact hc.calls call₁ hcall₁
    · exact hcall.moves hc (Labrpc.Moves.reply hst) nofun

theorem run_ok {ok : Config n Cmd E → Action n Cmd E → Prop} (hok : ∀ c a, ok c a → Proper c a)
    (hr : (machine n Cmd E).Run ok c h) : c.Ok :=
  hr.invariant (I := fun c _ => c.Ok) init_ok fun _ _ _ _ _ hI ha hs => step_ok hI (hok _ _ ha) hs

/-- where a call comes from in a step that leaves `evs` -/
inductive Fate (c : Config n Cmd E) (k : ℕ) (evs : List (Event n Cmd)) (call' : RaftCall n Cmd E) : Prop
  | same : c.calls[k]? = some call' → Fate c k evs call'
  | moved {call : RaftCall n Cmd E} {mv : Labrpc.Move (Body n Cmd)} : c.calls[k]? = some call →
      Labrpc.Moves c.ctl.switch call mv call' →
      (∀ reply r, mv = .execute reply → call.route = some r →
        .rpc (c.live r.server.1 r.server.2) (.executed k r.server reply) ∈ evs) → Fate c k evs call'
  | new {endname : E} {svcMeth : String} {args : Message n Cmd} : c.calls[k]? = none →
      call' = .new endname svcMeth args → Fate c k evs call'

omit [DecidableEq E] in
theorem fate_set {j : ℕ} {call call' call₁ : RaftCall n Cmd E} {mv : Labrpc.Move (Body n Cmd)}
    (hj : c.calls[j]? = some call) (hm : Labrpc.Moves c.ctl.switch call mv call')
    (hevs : ∀ reply r, mv = .execute reply → call.route = some r →
      .rpc (c.live r.server.1 r.server.2) (.executed j r.server reply) ∈ evs)
    (hk : (c.calls.set j call')[k]? = some call₁) : Fate c k evs call₁ := by
  rw [List.getElem?_set] at hk
  split_ifs at hk with hjk hlt
  · subst hjk
    cases hk
    exact .moved hj hm hevs
  · exact .same hk

omit [DecidableEq E] in
theorem fate_dial {ends : Fin n → E} {out : List (Message n Cmd)} {call₁ : RaftCall n Cmd E}
    (hk : (c.calls ++ dial ends out)[k]? = some call₁) : Fate c k evs call₁ := by
  rw [List.getElem?_append] at hk
  split_ifs at hk with hlt
  · exact .same hk
  · obtain ⟨m, -, rfl⟩ := List.mem_map.1 (List.mem_of_getElem? hk)
    exact .new (List.getElem?_eq_none (not_lt.1 hlt)) rfl

theorem step_fate (hc : c.Ok) (hs : c.step a = some (c', evs)) {call' : RaftCall n Cmd E}
    (hk : c'.calls[k]? = some call') : Fate c k evs call' := by
  cases step_cases hs with
  | command => exact .same hk
  | next _ hop =>
    dsimp only at hk
    rw [(operated hc.made hop).calls] at hk
    exact .same hk
  | run => exact fate_dial hk
  | move hne _ hj hm => exact fate_set hj hm (fun reply _ h => absurd h (hne reply)) hk
  | execute hj hr hh =>
    refine fate_set hj (.execute hh) (fun reply r heq hr' => ?_) hk
    cases heq
    cases hr.symm.trans hr'
    exact List.mem_append_right _ (List.mem_singleton_self _)
  | reply hj _ _ _ hst hr =>
    rw [resume_out (hc.calls _ (List.mem_of_getElem? hj)) hst hr] at hk
    simp only [dial, List.map_nil, List.append_nil] at hk
    exact fate_set hj (.reply hst) nofun hk

/-! ## Partitions -/

theorem Ok.idle (hc : c.Ok) (htodo : c.todo = []) : c.ctl.Idle := by
  have := hc.control
  rw [htodo] at this
  exact this.2

/-- **The network of the tests is what the last commands made it**: whenever no command is under way, the end from
server `i` to server `j` is enabled exactly when both are connected, no other end is, and exactly the servers that run
are registered, each by the instance that was made last. -/
theorem partitioned (hr : (machine n Cmd E).Run Proper c h) (htodo : c.todo = []) :
    (∀ i j ends, c.ctl.endnames i = some ends →
      (c.ctl.switch.enabled (ends j) = true ↔ c.ctl.connected i = true ∧ c.ctl.connected j = true)) ∧
    (∀ e, c.ctl.switch.enabled e = true → ∃ i j ends, c.ctl.endnames i = some ends ∧ ends j = e) ∧
    ∀ i, c.ctl.switch.servers i = (c.ctl.rafts i).map (fun inc => (i, inc)) ∧
      ∀ inc, c.ctl.rafts i = some inc → (c.instances i).length = inc + 1 := by
  have hc := run_ok (fun _ _ ha => ha) hr
  have hidle := hc.idle htodo
  refine ⟨fun i j ends hends => ⟨fun hen => ?_, fun hcon => ?_⟩, fun e hen => ?_, fun i => ⟨hidle.servers i, ?_⟩⟩
  · obtain ⟨a, b, ends', ha, hb, hends', heq⟩ := (hidle.linked _).1 hen
    obtain ⟨rfl, rfl⟩ := hidle.link_unique hends hends' heq.symm
    exact ⟨ha, hb⟩
  · exact (hidle.linked _).2 ⟨i, j, ends, hcon.1, hcon.2, hends, rfl⟩
  · obtain ⟨a, b, ends, -, -, hends, heq⟩ := (hidle.linked e).1 hen
    exact ⟨a, b, ends, hends, heq⟩
  · intro inc hinc
    rw [hc.made]
    exact hidle.latest i inc ((hidle.saved i inc).1 hinc)

/-- the runs of two servers write them as numerals, and all modules mean the same term by one -/
instance instNeZeroTwo : NeZero 2 := inferInstance

/-- end names of the `r`-th instance that is made -/
def names (r : ℕ) (j : Fin 2) : ℕ := 10 * r + j

/-- two servers are started and connected -/
def twoServers {Cmd : Type} : List (Action 2 Cmd ℕ) :=
  .command (.start1 0 (names 1)) :: List.replicate 14 .next ++
    .command (.start1 1 (names 2)) :: List.replicate 15 .next ++
    .command (.connect 0) :: List.replicate 3 .next ++ .command (.connect 1) :: List.replicate 5 .next

theorem partitioned_twoServers : ∃ c h ends, (machine 2 ℕ ℕ).Run Proper c h ∧ c.ctl.endnames 0 = some ends ∧
    c.ctl.connected 0 = true ∧ c.ctl.connected 1 = true ∧ c.ctl.switch.enabled (ends 1) = true := by
  obtain ⟨c, h, hr, ht⟩ := Machine.exists_run_of_exec
    (show ((machine 2 ℕ ℕ).exec Proper twoServers).any
      (fun r => decide
        (r.1.todo.isEmpty ∧ (r.1.ctl.endnames 0).isSome ∧ r.1.ctl.connected 0 ∧ r.1.ctl.connected 1)) = true
      by decide +kernel)
  obtain ⟨htodo, hends, h0, h1⟩ := of_decide_eq_true ht
  obtain ⟨ends, hends⟩ := Option.isSome_iff_exists.1 hends
  exact ⟨c, h, ends, hr, hends, h0, h1, ((partitioned hr (List.isEmpty_iff.1 htodo)).1 0 1 ends hends).2 ⟨h0, h1⟩⟩

/-! ## Crashed instances -/

omit [DecidableEq E] in
theorem live_iff : c.live i inc = true ↔ c.ctl.saved i = some (.object inc) := decide_eq_true_iff

/-- only a new instance becomes live -/
theorem step_live (hc : c.Ok) (hs : c.step a = some (c', evs)) (hlive : c'.live i inc = true) :
    c.live i inc = true ∨ inc = (c.instances i).length := by
  cases step_cases hs with
  | command | run | move | execute | reply => exact .inl hlive
  | next htodo hop =>
    have ho := operated hc.made hop
    rw [live_iff] at hlive ⊢
    rcases ho.instances with ⟨-, -, hsaved⟩ | ⟨j, ends, -, -, -, hsaved⟩
    · exact .inl (hsaved i inc hlive)
    · dsimp only at hlive
      rw [hsaved, Function.update_apply] at hlive
      split_ifs at hlive with hij
      · cases hlive
        rw [hij]
        exact .inr (hc.made j).symm
      · exact .inl hlive

/-- instances are not forgotten -/
theorem step_instances (hc : c.Ok) (hs : c.step a = some (c', evs)) (i : Fin n) :
    (c.instances i).length ≤ (c'.instances i).length := by
  cases step_cases hs with
  | command | move => exact le_rfl
  | run | execute | reply => exact (length_put _ i).ge
  | next htodo hop =>
    rcases (operated hc.made hop).instances with ⟨hinst, -⟩ | ⟨j, ends, -, hinst, -⟩
    · show _ ≤ (Config.instances _ i).length
      rw [hinst]
    · show _ ≤ (Config.instances _ i).length
      rw [hinst, Function.update_apply]
      split_ifs with hij
      · rw [hij, List.length_append]; omega
      · exact le_rfl

/-- the ends of an instance that is not live are disabled -/
theorem Ok.cut_off (hc : c.Ok) (hdead : c.live i inc = false) {ends : Fin n → E}
    (hends : c.ctl.endsOf i inc = some ends) (j : Fin n) : c.ctl.switch.enabled (ends j) = false := by
  by_contra hen
  obtain ⟨a, b, inc', ends', hof, heq, hsaved⟩ := hc.control.inv.enabled _ (Bool.eq_true_of_not_eq_false hen)
  obtain ⟨rfl, rfl, -⟩ := hc.control.inv.distinct _ _ _ _ _ _ _ _ hof hends heq
  rw [live_iff.2 hsaved] at hdead
  cases hdead

/-- a call that was not admitted -/
def Refused (call : RaftCall n Cmd E) : Prop :=
  call.handler = .idle ∧ (call.stage = .received ∨ call.stage = .answering none ∨ call.stage = .returned none)

theorem Refused.moves {call call' : RaftCall n Cmd E} {mv : Labrpc.Move (Body n Cmd)} (hc : c.Ok)
    (hcall : CallOk c call) (hinc : call.args.incarnation = some inc) (hdead : c.live call.args.client inc = false)
    (hm : Labrpc.Moves c.ctl.switch call mv call') (href : Refused call) : Refused call' := by
  obtain ⟨hh, hst⟩ := href
  have stage : ∀ {st : Labrpc.Stage (Body n Cmd)}, call.stage = st →
      st = .received ∨ st = .answering none ∨ st = .returned none := fun h => h ▸ hst
  cases hm with
  | accept _ hen =>
    obtain ⟨inc', ends, hinc', hof, hend⟩ := hcall.caller
    cases hinc.symm.trans hinc'
    rw [hend, hc.cut_off hdead hof] at hen
    cases hen
  | refuse => exact ⟨hh, .inr (.inl rfl)⟩
  | dropRequest h | spawn h | quit h | giveUp h | confirm h | dropReply h => simpa using stage h
  | stay => exact ⟨hh, hst⟩
  | dispatch h | execute h | receive _ h => cases hh.symm.trans h
  | @reply reply h =>
    have hnone : reply = none := by simpa using stage h
    exact ⟨hh, .inr (.inr (by rw [hnone]))⟩

/-- instance `inc` of server `i` is not live, and all its calls but those that had been read in `old` are refused -/
structure CutOff (i : Fin n) (inc : ℕ) (old : List (RaftCall n Cmd E)) (c : Config n Cmd E) : Prop where
  made : inc < (c.instances i).length
  dead : c.live i inc = false
  calls : ∀ (k : ℕ) (call : RaftCall n Cmd E), c.calls[k]? = some call → call.args.client = i →
    call.args.incarnation = some inc → (∀ call₀, old[k]? = some call₀ → call₀.stage = .received) → Refused call

theorem step_cutOff {old : List (RaftCall n Cmd E)} (hc : c.Ok) (hcut : CutOff i inc old c)
    (hs : c.step a = some (c', evs)) : CutOff i inc old c' := by
  have hdead : c'.live i inc = false := by
    by_contra hlive
    rcases step_live hc hs (Bool.eq_true_of_not_eq_false hlive) with h | h
    · rw [hcut.dead] at h; cases h
    · exact hcut.made.ne h
  refine ⟨hcut.made.trans_le (step_instances hc hs i), hdead, fun k call hk hclient hinc hold => ?_⟩
  cases step_fate hc hs hk with
  | same hk₀ => exact hcut.calls k call hk₀ hclient hinc hold
  | @moved call₀ mv hk₀ hm _ =>
    have hargs := hm.request.2.2
    rw [hargs] at hclient hinc
    have href := hcut.calls k call₀ hk₀ hclient hinc hold
    exact href.moves hc (hc.calls _ (List.mem_of_getElem? hk₀)) hinc (by rw [hclient]; exact hcut.dead) hm
  | new _ hnew =>
    rw [hnew]
    exact ⟨rfl, .inl rfl⟩

/-- **A crashed instance is cut off**: from the moment the harness has copied its Persister on, no request of the
instance is executed and none is answered, except those the network had read by then; although the instance goes on
running. -/
theorem crashed_isolated (hr : (machine n Cmd E).Run Proper c h) (hmade : inc < (c.instances i).length)
    (hdead : c.live i inc = false) {h' : List (Event n Cmd)} (hp : (machine n Cmd E).Path Proper c h c' h')
    (k : ℕ) (call : RaftCall n Cmd E) (hk : c'.calls[k]? = some call) (hclient : call.args.client = i)
    (hinc : call.args.incarnation = some inc) (hold : ∀ call₀, c.calls[k]? = some call₀ → call₀.stage = .received) :
    call.handler = .idle ∧ ∀ reply, call.stage.reply ≠ some reply := by
  have hcut : CutOff i inc c.calls c' ∧ (machine n Cmd E).Run Proper c' h' := by
    clear hk
    induction hp with
    | refl =>
      refine ⟨⟨hmade, hdead, fun k call hk _ _ hold => ?_⟩, hr⟩
      have hst := hold call hk
      have hagree := ((run_ok (fun _ _ ha => ha) hr).calls call (List.mem_of_getElem? hk)).agree
      exact ⟨hagree.early (.inl hst), .inl hst⟩
    | step _ ha hs ih => exact ⟨step_cutOff (run_ok (fun _ _ ha => ha) ih.2) ih.1 hs, ih.2.step ha hs⟩
  obtain ⟨hidle, hst | hst | hst⟩ := hcut.1.calls k call hk hclient hinc hold <;>
    exact ⟨hidle, fun reply h => by rw [hst] at h; cases h⟩

/-- the first server is crashed, and stands for election afterwards -/
theorem crashed_isolated_candidate : ∃ c h c' h' call, (machine 2 ℕ ℕ).Run Proper c h ∧ c.live 0 0 = false ∧
    (machine 2 ℕ ℕ).Path Proper c h c' h' ∧ c'.calls[0]? = some call ∧ call.args.client = 0 ∧
    call.stage = .returned none ∧ call.handler = .idle := by
  obtain ⟨c, h, hr, ht⟩ := Machine.exists_run_of_exec
    (show ((machine 2 ℕ ℕ).exec Proper (twoServers ++ .command (.crash1 0) :: List.replicate 9 .next)).any
      (fun r => decide ((r.1.instances 0).length = 1 ∧ r.1.live 0 0 = false ∧ r.1.calls.isEmpty) &&
        ((machine 2 ℕ ℕ).execFrom Proper r.1 r.2
          [.run 0 0 .lifeRead, .run 0 0 .lifeElection, .move 0 .read, .reply 0]).any fun r' =>
            (r'.1.calls[0]?).any fun call =>
              decide (call.args.client = 0 ∧ call.args.incarnation = some 0 ∧ call.stage = .returned none)) = true
      by decide +kernel)
  obtain ⟨h1, h2⟩ := Bool.and_eq_true_iff.1 ht
  obtain ⟨hlen, hdead, hempty⟩ := of_decide_eq_true h1
  obtain ⟨r', hpath, h3⟩ := (Option.any_eq_true _ _).1 h2
  obtain ⟨call, hk, h4⟩ := (Option.any_eq_true _ _).1 h3
  obtain ⟨hclient, hinc, hst⟩ := of_decide_eq_true h4
  have hp := Machine.path_of_execFrom hpath
  have hcalls : c.calls = [] := List.isEmpty_iff.1 hempty
  have hnone : ∀ call₀, c.calls[0]? = some call₀ → call₀.stage = .received := by
    intro call₀ h0
    rw [hcalls] at h0
    cases h0
  have hidle := (crashed_isolated hr (by rw [hlen]; exact Nat.zero_lt_one) hdead hp 0 call hk hclient hinc hnone).1
  exact ⟨c, h, r'.1, r'.2, call, hr, hdead, hp, hk, hclient, hst, hidle⟩

/-! ## Acknowledged requests -/

/-- what the history knows about the executions of call `k` -/
structure Vouched (c : Config n Cmd E) (h : List (Event n Cmd)) (k : ℕ) (call : RaftCall n Cmd E) : Prop where
  executed : ∀ r reply, call.route = some r → call.handler = .executed reply ∨ call.handler = .handed reply →
    c.live r.server.1 r.server.2 = true → .rpc true (.executed k r.server reply) ∈ h
  answered : ∀ reply, call.stage = .answering (some reply) ∨ call.stage = .returned (some reply) →
    ∃ server, .rpc true (.executed k server reply) ∈ h

/-- the last check of a call finds its server registered, and only servers of live instances are -/
theorem Vouched.moves {call call' : RaftCall n Cmd E} {mv : Labrpc.Move (Body n Cmd)} (hc : c.Ok)
    (hcall : call.Ok) (hne : ∀ reply, mv ≠ .execute reply) (hm : Labrpc.Moves c.ctl.switch call mv call')
    (hv : Vouched c h k call) : Vouched c h k call' := by
  cases hm with
  | accept hst =>
    refine ⟨fun r reply _ hh => ?_, by simp⟩
    rw [hcall.early (.inl hst)] at hh
    simp at hh
  | spawn => exact ⟨fun r reply _ hh => by simp at hh, by simp⟩
  | dispatch => exact ⟨fun r reply _ hh => by simp at hh, hv.answered⟩
  | execute => exact absurd rfl (hne _)
  | receive hst hh => exact ⟨fun r reply hr hh' => hv.executed r reply hr (.inl (by simpa [hh] using hh')), by simp⟩
  | @confirm reply hst halive =>
    refine ⟨hv.executed, fun reply' hst' => ?_⟩
    obtain rfl : reply = reply' := by simpa using hst'
    have hh := hcall.replied reply (by rw [hst]; rfl)
    obtain ⟨r, hr⟩ := Option.isSome_iff_exists.1 (hcall.routed (.inl (by simp [hh])))
    rw [Labrpc.Call.dead, hr] at halive
    obtain ⟨h1, h2⟩ := hc.control.inv.registered _ _ (Labrpc.Switch.isServerDead_eq_false.1 halive).2
    exact ⟨r.server, hv.executed r reply hr (.inr hh) (live_iff.2 (h1 ▸ h2))⟩
  | stay => exact hv
  | reply hst => exact ⟨hv.executed, fun reply' hst' => hv.answered reply' (.inl (by simpa [hst] using hst'))⟩
  | refuse | dropRequest | quit | giveUp | dropReply => exact ⟨hv.executed, by simp⟩

omit [DecidableEq E] in
theorem Vouched.mono {h' : List (Event n Cmd)} {call : RaftCall n Cmd E} (hv : Vouched c h k call) (hh : h ⊆ h')
    (hlive : ∀ r, call.route = some r → c'.live r.server.1 r.server.2 = true → c.live r.server.1 r.server.2 = true) :
    Vouched c' h' k call :=
  ⟨fun r reply hr hex hl => hh (hv.executed r reply hr hex (hlive r hr hl)), fun reply hst =>
    (hv.answered reply hst).imp fun _ hmem => hh hmem⟩

theorem step_vouched (hc : c.Ok) (hv : ∀ k call, c.calls[k]? = some call → Vouched c h k call)
    (hs : c.step a = some (c', evs)) : ∀ k call, c'.calls[k]? = some call → Vouched c' (h ++ evs) k call := by
  intro k call' hk
  have hsub : h ⊆ h ++ evs := List.subset_append_left _ _
  have older : ∀ {call : RaftCall n Cmd E} r, CallOk c call → call.route = some r →
      c'.live r.server.1 r.server.2 = true → c.live r.server.1 r.server.2 = true := by
    intro call r hcall hr hlive
    exact (step_live hc hs hlive).resolve_right (hcall.routed r hr).2.2.ne
  cases step_fate hc hs hk with
  | same hk₀ => exact (hv k call' hk₀).mono hsub fun r => older r (hc.calls _ (List.mem_of_getElem? hk₀))
  | @moved call mv hk₀ hm hevs =>
    have hcall := hc.calls _ (List.mem_of_getElem? hk₀)
    by_cases hexe : ∃ reply, mv = .execute reply
    · obtain ⟨reply, rfl⟩ := hexe
      cases hm with
      | execute hh =>
        refine ⟨fun r reply' hr hh' hlive => ?_, fun reply' hst => ?_⟩
        · obtain rfl : reply = reply' := by simpa using hh'
          have hmem := hevs reply r rfl hr
          rw [older r hcall hr hlive] at hmem
          exact List.mem_append_right _ hmem
        · exact ((hv k call hk₀).answered reply' hst).imp fun _ hmem => hsub hmem
    · have hne : ∀ reply, mv ≠ .execute reply := fun reply h => hexe ⟨reply, h⟩
      exact ((hv k call hk₀).moves hc hcall.agree hne hm).mono hsub fun r => older r (hcall.moves hc hm hne)
  | new _ hnew =>
    rw [hnew]
    exact ⟨nofun, fun reply h => by rcases h with h | h <;> cases h⟩

theorem step_acknowledged (hv : ∀ k call, c.calls[k]? = some call → Vouched c h k call)
    (hs : c.step a = some (c', evs)) {live : Bool} {k : ℕ} {reply : Body n Cmd}
    (hret : .rpc live (.returned k (some reply)) ∈ evs) : ∃ server, .rpc true (.executed k server reply) ∈ h := by
  cases step_cases hs with
  | command | next | move => cases hret
  | run => simp at hret
  | execute => simp at hret
  | reply hk _ _ _ hst _ =>
    simp only [List.mem_append, List.mem_map, reduceCtorEq, and_false, exists_false, List.mem_singleton, false_or,
      Event.rpc.injEq, Labrpc.Event.returned.injEq] at hret
    obtain ⟨-, rfl, rfl⟩ := hret
    exact (hv _ _ hk).answered reply (.inl hst)

/-- **What is acknowledged is live**: when a call returns a reply to its caller, the handler that gave it ran in an
instance whose Persister the harness had not replaced. -/
theorem acknowledged_live (hr : (machine n Cmd E).Run Proper c h) (live : Bool) (k : ℕ) (reply : Body n Cmd)
    (hret : .rpc live (.returned k (some reply)) ∈ h) : ∃ server, .rpc true (.executed k server reply) ∈ h := by
  have hall : (∀ k call, c.calls[k]? = some call → Vouched c h k call) ∧
      ∀ live k reply, .rpc live (.returned k (some reply)) ∈ h →
        ∃ server, .rpc true (.executed k server reply) ∈ h := by
    clear hret
    induction hr with
    | init => exact ⟨fun k call hk => by simp [machine, init] at hk, nofun⟩
    | @step _ h₀ _ _ _ hr ha hs ih =>
      refine ⟨step_vouched (run_ok (fun _ _ ha => ha) hr) ih.1 hs, fun live k reply hret => ?_⟩
      have hexe : ∃ server, .rpc true (.executed k server reply) ∈ h₀ := by
        rcases List.mem_append.1 hret with hret | hret
        · exact ih.2 live k reply hret
        · exact step_acknowledged ih.1 hs hret
      exact hexe.imp fun _ hmem => List.mem_append_left _ hmem
  exact hall.2 live k reply hret

/-- the steps of a call that is executed and answered -/
def answered {Cmd : Type} (k : ℕ) : List (Action 2 Cmd ℕ) :=
  [.move k .read, .move k .spawn, .move k .dispatch, .execute k, .move k .receive, .move k .recheck, .reply k]

/-- the first server gets the vote of the second -/
def oneVote {Cmd : Type} : List (Action 2 Cmd ℕ) :=
  twoServers ++ [.run 0 0 .lifeRead, .run 0 0 .lifeElection] ++ answered 0

theorem acknowledged_live_oneVote : ∃ c h, (machine 2 ℕ ℕ).Run Proper c h ∧
    .rpc true (.returned 0 (some (.requestVoteReply 1 ⟨1, true⟩))) ∈ h ∧
    ∃ server, .rpc true (.executed 0 server (.requestVoteReply 1 ⟨1, true⟩)) ∈ h := by
  obtain ⟨c, h, hr, ht⟩ := Machine.exists_run_of_exec
    (show ((machine 2 ℕ ℕ).exec Proper oneVote).any
      (fun r => decide (.rpc true (.returned 0 (some (.requestVoteReply 1 ⟨1, true⟩))) ∈ r.2)) = true by decide +kernel)
  have hret := of_decide_eq_true ht
  exact ⟨c, h, hr, hret, acknowledged_live hr true 0 _ hret⟩

end Config

end CS240.Raft
