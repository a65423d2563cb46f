/-
How properties pass through a step of the cluster.

A step changes one server through one of its sections, or two when a handler crashes and its caller sees the call fail.
`step_cases` says once what a step can be, `Acts` and `Receives` what a section can do to the `Raft` struct it runs on.
From them, `step_preserves` reduces an invariant of the nodes, the messages in flight and the history to the sections:
it has to survive a lost message, a call given up by its caller, a section a server runs by itself, the handling of a
message in flight, and a crash in the middle of a handler. `step_node` does the same for a property of each node alone.
`step_served` says what a step can do to the server of one node, and `step_at` what it can do to a node that keeps
running.
-/
import CS240.Raft.Cluster
import CS240.Raft.Sections

namespace CS240.Raft

open Lib

variable {n : ℕ} {Cmd : Type} {s s' s₁ : Cluster n Cmd} {a : Action n Cmd} {evs : List (Event (Fin n) Cmd)}

/-! ## What a step can be -/

/-- message `m` at position `k` is lost: its caller goes on, unless it died in a crash -/
inductive Lost (s : Cluster n Cmd) (k : ℕ) (m : Message n Cmd) : Cluster n Cmd → Prop
  | failed : Lost s k m (s.put m.client (s.net.eraseIdx k) ((s.node m.client).failed m, [], [])).1
  | orphan : Lost s k m ⟨s.node, s.net.eraseIdx k⟩

inductive StepOf (s : Cluster n Cmd) : Action n Cmd → Cluster n Cmd → List (Event (Fin n) Cmd) → Prop
  | run {p : Fin n} {task : Server.Task Cmd} {r : Server.Result n Cmd} :
      (s.node p).run task = some r → StepOf s (.run p task) (s.put p s.net r).1 r.2.2
  | handle {k : ℕ} {m : Message n Cmd} {p : Fin n} {r : Server.Result n Cmd} :
      s.net[k]? = some m → s.receiver m = some p → (s.node p).handle m = some r →
      StepOf s (.deliver k) (s.put p (s.net.eraseIdx k) r).1 r.2.2
  | orphan {k : ℕ} {m : Message n Cmd} :
      s.net[k]? = some m → s.receiver m = none → StepOf s (.deliver k) ⟨s.node, s.net.eraseIdx k⟩ []
  | lose {k : ℕ} {m : Message n Cmd} {s₁ : Cluster n Cmd} :
      s.net[k]? = some m → Lost s k m s₁ → StepOf s (.lose k) s₁ []
  | abandon {k : ℕ} {m : Message n Cmd} : s.net[k]? = some m →
      StepOf s (.abandon k)
        (s.put m.client (s.net.eraseIdx k) ((s.node m.client).failed m, [m.abandoned], [])).1 []
  | crashIn {k : ℕ} {m : Message n Cmd} {s₁ : Cluster n Cmd} :
      s.net[k]? = some m → m.term > (s.node m.server).rf.term → Lost s k m s₁ →
      StepOf s (.crashIn k) (s₁.crash m.server m.term) []

theorem lose_cases {k : ℕ} (hs : s.lose k = some (s', evs)) :
    evs = [] ∧ ∃ m, s.net[k]? = some m ∧ Lost s k m s' := by
  unfold Cluster.lose at hs
  split at hs
  · cases hs
  · rename_i m hm
    split_ifs at hs <;> cases hs
    · exact ⟨rfl, m, hm, .failed⟩
    · exact ⟨rfl, m, hm, .orphan⟩

theorem step_cases (hs : s.step a = some (s', evs)) : StepOf s a s' evs := by
  cases a with
  | run p task =>
    simp only [Cluster.step, Option.map_eq_some_iff] at hs
    obtain ⟨r, hr, heq⟩ := hs
    cases heq
    exact .run hr
  | deliver k =>
    simp only [Cluster.step, Cluster.deliver] at hs
    split at hs
    · cases hs
    · rename_i m hm
      split at hs
      · rename_i hrec
        cases hs
        exact .orphan hm hrec
      · rename_i p hrec
        simp only [Option.map_eq_some_iff] at hs
        obtain ⟨r, hr, heq⟩ := hs
        cases heq
        exact .handle hm hrec hr
  | lose k =>
    obtain ⟨rfl, m, hm, hl⟩ := lose_cases hs
    exact .lose hm hl
  | abandon k =>
    simp only [Cluster.step, Cluster.abandon] at hs
    split at hs
    · cases hs
    · rename_i m hm
      split_ifs at hs
      cases hs
      exact .abandon hm
  | crashIn k =>
    simp only [Cluster.step, Cluster.crashIn] at hs
    split at hs
    · cases hs
    · rename_i m hm
      have key : m.term > (s.node m.server).rf.term → ∀ r, s.lose k = some r →
          (r.1.crash m.server m.term, r.2) = (s', evs) → StepOf s (.crashIn k) s' evs := by
        intro hterm r hr heq
        obtain ⟨hevs, m', hm', hl⟩ := lose_cases (show s.lose k = some (r.1, r.2) from hr)
        rw [hm] at hm'
        cases hm'
        cases heq
        rw [hevs]
        exact .crashIn hm hterm hl
      split at hs
      all_goals first
        | cases hs
        | split_ifs at hs with hterm
          simp only [Option.map_eq_some_iff] at hs
          obtain ⟨r, hr, heq⟩ := hs
          exact key hterm r hr heq

/-! ## What the sections do to the node itself

Goroutines, the life loop and the pending message only decide which section comes next. `Acts` and `Receives` forget
them: they list what a section can do to the `Raft` struct, the messages it sends and the events it leaves. -/

/-- the task is a call of `StartHeartbeat` -/
def Server.beats (sv : Server n Cmd) : Server.Task Cmd → Prop
  | .lifeHeartbeat => True
  | .goroutine k => sv.goroutines[k]? = some .startHeartbeat
  | _ => False

instance (sv : Server n Cmd) (task : Server.Task Cmd) : Decidable (sv.beats task) := by
  unfold Server.beats; split <;> infer_instance

/-- the sections a server runs by itself -/
inductive Acts (sv : Server n Cmd) (task : Server.Task Cmd) :
    Raft n Cmd → List (Message n Cmd) → List (Event (Fin n) Cmd) → Prop
  | idle : Acts sv task sv.rf [] []
  | election {rf : Raft n Cmd} {args : RequestVoteArgs n} : task = .lifeElection →
      sv.rf.startElection = (rf, some args) →
      Acts sv task rf (sv.broadcast (.requestVote args)) [.candidacy rf.me rf.term rf.log]
  | win {rf : Raft n Cmd} : task = .lifeElection → sv.rf.startElection = (rf, none) →
      Acts sv task rf [] [.candidacy rf.me rf.term rf.log, .becameLeader rf.me rf.term rf.log]
  | beat : sv.beats task → Acts sv task sv.rf (sv.broadcast (.heartbeat sv.rf.startHeartbeat)) []
  | send {rf : Raft n Cmd} {peer : Fin n} {leaderTerm : ℕ} {args : AppendEntriesArgs n Cmd} {rest : List (Fin n)} :
      sv.rf.replicateSend peer leaderTerm = some (rf, some args) →
      Acts sv task rf [⟨rf.me, peer, some sv.incarnation, .appendEntries args rest⟩]
        [.sent rf.me rf.term rf.log rf.commitIndex]
  | apply : Acts sv task sv.rf.applier.1 [] []
  | applySend {msg : ApplyMsg Cmd} : sv.pending = some msg → Acts sv task sv.rf [] [.applied sv.rf.me msg]
  | start {command : Option Cmd} : sv.rf.state = .leader →
      Acts sv task (sv.rf.start command).1 [] [.started sv.rf.me sv.rf.term sv.rf.log.length command]
  | restart : task = .restart → Acts sv task (Raft.make sv.rf.me sv.rf.persister) [] []

/-- the sections a message makes its receiver run -/
inductive Receives (rf : Raft n Cmd) (m : Message n Cmd) :
    Raft n Cmd → List (Message n Cmd) → List (Event (Fin n) Cmd) → Prop
  | requestVote {rf' : Raft n Cmd} {args : RequestVoteArgs n} {reply : RequestVoteReply} :
      m.body = .requestVote args → rf.requestVote args = (rf', reply) →
      Receives rf m rf' [{ m with body := .requestVoteReply args.electionTerm reply }]
        (if reply.vote then [.voteGranted rf'.me rf'.term args.candidateID rf'.log] else [])
  | requestVoteReply {rf' : Raft n Cmd} {term : ℕ} {reply : RequestVoteReply} {won : Bool} :
      m.body = .requestVoteReply term reply → rf.requestVoteReply term reply = (rf', won) →
      Receives rf m rf' []
        ((if reply.electionTerm ≤ rf.term ∧ reply.vote then [.voteCounted rf'.me term m.server] else []) ++
          if won then [.becameLeader rf'.me rf'.term rf'.log] else [])
  | heartbeat {rf' : Raft n Cmd} {args : HeartbeatArgs n} {reply : HeartbeatReply} :
      m.body = .heartbeat args → rf.heartbeat args = (rf', reply) →
      Receives rf m rf' [{ m with body := .heartbeatReply args.term reply }] []
  | heartbeatReply {t : ℕ} {reply : HeartbeatReply} :
      m.body = .heartbeatReply t reply → Receives rf m (rf.heartbeatReply t reply) [] []
  | appendEntries {rf' : Raft n Cmd} {args : AppendEntriesArgs n Cmd} {rest : List (Fin n)}
      {reply : AppendEntriesReply} :
      m.body = .appendEntries args rest → rf.appendEntries args = (rf', reply) →
      Receives rf m rf' [{ m with body := .appendEntriesReply args rest reply }]
        (if reply.success then
          [.accepted rf'.me rf'.term (args.prevLogIndex + args.entries.length)
            (decide (Cuts LogEntry.term rf.log (args.prevLogIndex + 1) args.entries))]
        else [])
  | appendEntriesReply {rf' : Raft n Cmd} {args : AppendEntriesArgs n Cmd} {rest : List (Fin n)}
      {reply : AppendEntriesReply} {next : Next} :
      m.body = .appendEntriesReply args rest reply →
      rf.replicateReply m.server args.term args reply = some (rf', next) →
      Receives rf m rf' []
        (if next = .pushed then [.committed rf'.me rf'.term rf'.commitIndex rf'.log] else [])

theorem runGoroutine_acts {sv : Server n Cmd} {k : ℕ} {r : Server.Result n Cmd} (hr : sv.runGoroutine k = some r) :
    Acts sv (.goroutine k) r.1.rf r.2.1 r.2.2 := by
  unfold Server.runGoroutine at hr
  split at hr
  · cases hr
  · rename_i hk
    cases hr
    exact .beat hk
  · cases hr
    exact .idle
  · split at hr
    · cases hr
    · rename_i hsend
      cases hr
      rw [replicateSend_none hsend]
      exact .idle
    · rename_i hsend
      cases hr
      exact .send hsend

theorem run_acts {sv : Server n Cmd} {task : Server.Task Cmd} {r : Server.Result n Cmd}
    (hr : sv.run task = some r) : Acts sv task r.1.rf r.2.1 r.2.2 := by
  cases task with
  | lifeRead | lifeSleep =>
    simp only [Server.run] at hr
    split_ifs at hr
    cases hr
    exact .idle
  | lifeElection =>
    simp only [Server.run] at hr
    split_ifs at hr
    cases hr
    unfold Server.election
    rcases he : sv.rf.startElection with ⟨rf, _ | args⟩
    · exact .win rfl he
    · exact .election rfl he
  | lifeHeartbeat =>
    simp only [Server.run] at hr
    split_ifs at hr
    cases hr
    exact .beat trivial
  | goroutine k => exact runGoroutine_acts hr
  | apply =>
    simp only [Server.run] at hr
    split_ifs at hr
    cases hr
    exact .apply
  | applySend =>
    simp only [Server.run] at hr
    split at hr
    · cases hr
    · rename_i hmsg
      cases hr
      exact .applySend hmsg
  | start command =>
    simp only [Server.run] at hr
    by_cases hl : sv.rf.state = .leader
    · have hst : Acts sv (.start command) (sv.rf.start command).1 [] _ := .start hl
      simp only [Raft.start, hl, ne_eq, not_true_eq_false, if_false, if_true, Option.some.injEq] at hr hst
      subst hr
      simpa [Raft.persist] using hst
    · simp only [Raft.start, ne_eq, hl, not_false_eq_true, if_true, Bool.false_eq_true, if_false,
        Option.some.injEq] at hr
      subst hr
      exact .idle
  | restart =>
    cases hr
    exact .restart rfl

theorem handle_receives {sv : Server n Cmd} {m : Message n Cmd} {r : Server.Result n Cmd}
    (hr : sv.handle m = some r) : Receives sv.rf m r.1.rf r.2.1 r.2.2 := by
  unfold Server.handle at hr
  split at hr
  · rename_i hm
    cases hr
    exact .requestVote hm rfl
  · rename_i term reply hm
    rcases hv : sv.rf.requestVoteReply term reply with ⟨rf, _ | _⟩
    · have h := Receives.requestVoteReply hm hv
      simp only [hv, Bool.false_eq_true, if_false, Option.some.injEq] at hr h
      subst hr
      simpa using h
    · have h := Receives.requestVoteReply hm hv
      simp only [hv, if_true, Option.some.injEq] at hr h
      subst hr
      exact h
  · rename_i hm
    cases hr
    exact .heartbeat hm rfl
  · rename_i hm
    cases hr
    exact .heartbeatReply hm
  · rename_i hm
    cases hr
    exact .appendEntries hm rfl
  · rename_i hm
    split at hr
    · cases hr
    all_goals
      rename_i hrep
      cases hr
      exact .appendEntriesReply hm hrep

/-! ## Invariants of the nodes, the messages in flight and the history -/

def Cluster.rf (s : Cluster n Cmd) (p : Fin n) : Raft n Cmd := (s.node p).rf

theorem rf_put (p : Fin n) (net : List (Message n Cmd)) (r : Server.Result n Cmd) :
    (s.put p net r).1.rf = Function.update s.rf p r.1.rf := by
  funext q
  by_cases hq : q = p
  · subst hq; simp [Cluster.rf, Cluster.put]
  · simp [Cluster.rf, Cluster.put, hq]

/-- a failed call changes no `Raft` struct -/
theorem failed_rf (sv : Server n Cmd) (m : Message n Cmd) : (sv.failed m).rf = sv.rf := by
  unfold Server.failed
  split <;> rfl

theorem rf_put_failed (m : Message n Cmd) (net out : List (Message n Cmd)) :
    (s.put m.client net ((s.node m.client).failed m, out, [])).1.rf = s.rf := by
  rw [rf_put, failed_rf]
  exact Function.update_eq_self _ _

theorem Lost.rf {k : ℕ} {m : Message n Cmd} (hl : Lost s k m s₁) : s₁.rf = s.rf ∧ s₁.net = s.net.eraseIdx k := by
  cases hl with
  | orphan => exact ⟨rfl, rfl⟩
  | failed => exact ⟨rf_put_failed m _ _, List.append_nil _⟩

/-- where a message in flight is processed -/
def Message.target (m : Message n Cmd) : Fin n := if m.isRequest then m.server else m.client

theorem receiver_target {m : Message n Cmd} {p : Fin n} (hr : s.receiver m = some p) : p = m.target := by
  unfold Cluster.receiver at hr
  unfold Message.target
  split_ifs at hr ⊢ <;> cases hr <;> rfl

/-- **Invariants go through the sections.** What survives every section, a lost message, a call given up by its caller
and a crash in the middle of a handler survives every step. -/
theorem step_preserves {J : (Fin n → Raft n Cmd) → List (Message n Cmd) → List (Event (Fin n) Cmd) → Prop}
    {h : List (Event (Fin n) Cmd)} (hs : s.step a = some (s', evs))
    (erase : ∀ k, J s.rf (s.net.eraseIdx k) h)
    (abandon : ∀ k m, s.net[k]? = some m → J s.rf (s.net.eraseIdx k ++ [m.abandoned]) h)
    (crash : ∀ net p t, J s.rf net h → (s.rf p).term < t →
      J (Function.update s.rf p (Raft.make (s.rf p).me ((s.rf p).stepDownLocked t).persister)) net h)
    (acts : ∀ p task rf out evs, a = .run p task → Acts (s.node p) task rf out evs →
      J (Function.update s.rf p rf) (s.net ++ out) (h ++ evs))
    (receives : ∀ p m k rf out evs, s.received a = some (p, m) → s.net[k]? = some m → p = m.target →
      Receives (s.rf p) m rf out evs → J (Function.update s.rf p rf) (s.net.eraseIdx k ++ out) (h ++ evs)) :
    J s'.rf s'.net (h ++ evs) := by
  cases step_cases hs with
  | run hr =>
    rw [rf_put]
    exact acts _ _ _ _ _ rfl (run_acts hr)
  | handle hm hrec hr =>
    rw [rf_put]
    refine receives _ _ _ _ _ _ ?_ hm (receiver_target hrec) (handle_receives hr)
    simp [Cluster.received, hm, hrec]
  | orphan hm hrec =>
    rw [List.append_nil]
    exact erase _
  | lose hm hl =>
    rw [List.append_nil, hl.rf.1, hl.rf.2]
    exact erase _
  | abandon hm =>
    rw [List.append_nil, rf_put_failed]
    exact abandon _ _ hm
  | @crashIn k m s₁ hm hterm hl =>
    have hnode : ∀ p, (s₁.node p).rf = s.rf p := fun p => congrFun hl.rf.1 p
    rw [List.append_nil, Cluster.crash, rf_put, hl.rf.1, hnode]
    have hnet := crash s₁.net m.server m.term (hl.rf.2 ▸ erase k) hterm
    simpa [Cluster.put, Server.boot] using hnet

/-- a property of single nodes that every section keeps -/
theorem step_node {P : Fin n → Raft n Cmd → Prop} (hs : s.step a = some (s', evs)) (hP : ∀ p, P p (s.rf p))
    (crash : ∀ p t, P p (s.rf p) → (s.rf p).term < t →
      P p (Raft.make (s.rf p).me ((s.rf p).stepDownLocked t).persister))
    (acts : ∀ p task rf out evs, P p (s.rf p) → Acts (s.node p) task rf out evs → P p rf)
    (receives : ∀ p m rf out evs, P p (s.rf p) → Receives (s.rf p) m rf out evs → P p rf) : ∀ p, P p (s'.rf p) := by
  have update : ∀ p rf, P p rf → ∀ q, P q (Function.update s.rf p rf q) := by
    intro p rf hrf
    exact (Function.forall_update_iff s.rf P).2 ⟨hrf, fun q _ => hP q⟩
  refine step_preserves (J := fun R _ _ => ∀ p, P p (R p)) (h := []) hs (fun _ => hP) (fun _ _ _ => hP) ?_ ?_ ?_
  · intro net p t _ ht
    exact update p _ (crash p t (hP p) ht)
  · intro p task rf out evs _ ha
    exact update p rf (acts p task rf out evs (hP p) ha)
  · intro p m k rf out evs _ _ _ hr
    exact update p rf (receives p m rf out evs (hP p) hr)

/-! ## The server of one node -/

/-- what a step can do to the server of node `p` -/
inductive Served (s : Cluster n Cmd) (p : Fin n) : Action n Cmd → Server n Cmd → List (Event (Fin n) Cmd) → Prop
  | same {a : Action n Cmd} {evs : List (Event (Fin n) Cmd)} : Served s p a (s.node p) evs
  | run {task : Server.Task Cmd} {r : Server.Result n Cmd} :
      (s.node p).run task = some r → Served s p (.run p task) r.1 r.2.2
  | handle {k : ℕ} {m : Message n Cmd} {r : Server.Result n Cmd} :
      s.net[k]? = some m → s.receiver m = some p → (s.node p).handle m = some r → Served s p (.deliver k) r.1 r.2.2
  | failed {a : Action n Cmd} {evs : List (Event (Fin n) Cmd)} {m : Message n Cmd} :
      Served s p a ((s.node p).failed m) evs
  | crashed {a : Action n Cmd} {evs : List (Event (Fin n) Cmd)} {me : Fin n} {persister : List (Gob Cmd)} :
      Served s p a (Server.boot me persister ((s.node p).incarnation + 1)) evs

theorem node_put_of_ne {p q : Fin n} (hq : p ≠ q) (net : List (Message n Cmd)) (r : Server.Result n Cmd) :
    (s.put q net r).1.node p = s.node p := Function.update_of_ne hq _ _

theorem node_put_self (p : Fin n) (net : List (Message n Cmd)) (r : Server.Result n Cmd) :
    (s.put p net r).1.node p = r.1 := Function.update_self _ _ _

theorem node_put_failed (m : Message n Cmd) (net out : List (Message n Cmd)) (p : Fin n) :
    (s.put m.client net ((s.node m.client).failed m, out, [])).1.node p = s.node p ∨
      (s.put m.client net ((s.node m.client).failed m, out, [])).1.node p = (s.node p).failed m := by
  by_cases hp : p = m.client
  · subst hp
    exact Or.inr (node_put_self _ _ _)
  · exact Or.inl (node_put_of_ne hp _ _)

theorem Lost.node {k : ℕ} {m : Message n Cmd} (hl : Lost s k m s₁) (p : Fin n) :
    s₁.node p = s.node p ∨ s₁.node p = (s.node p).failed m := by
  cases hl with
  | orphan => exact Or.inl rfl
  | failed => exact node_put_failed m _ _ p

theorem failed_incarnation (sv : Server n Cmd) (m : Message n Cmd) : (sv.failed m).incarnation = sv.incarnation := by
  unfold Server.failed
  split <;> rfl

theorem step_served (hs : s.step a = some (s', evs)) (p : Fin n) : Served s p a (s'.node p) evs := by
  have hfailed : ∀ {sv : Server n Cmd} {m : Message n Cmd}, sv = s.node p ∨ sv = (s.node p).failed m →
      Served s p a sv evs := by
    rintro sv m (rfl | rfl)
    · exact .same
    · exact .failed
  cases step_cases hs with
  | @run q task r hr =>
    by_cases hq : p = q
    · subst hq
      rw [node_put_self]
      exact .run hr
    · rw [node_put_of_ne hq]
      exact .same
  | @handle k m q r hm hrec hr =>
    by_cases hq : p = q
    · subst hq
      rw [node_put_self]
      exact .handle hm hrec hr
    · rw [node_put_of_ne hq]
      exact .same
  | orphan => exact .same
  | lose hm hl => exact hfailed (hl.node p)
  | abandon hm => exact hfailed (node_put_failed _ _ _ p)
  | @crashIn k m s₁ hm hterm hl =>
    by_cases hq : p = m.server
    · subst hq
      have hinc : (s₁.node m.server).incarnation = (s.node m.server).incarnation := by
        rcases hl.node m.server with he | he <;> rw [he]
        exact failed_incarnation _ _
      rw [Cluster.crash, node_put_self, hinc]
      exact .crashed
    · rw [Cluster.crash, node_put_of_ne hq]
      exact hfailed (hl.node p)

/-- what a step can do to a node that does not crash in it: nothing, a task of its own, or a message -/
theorem step_at (hs : s.step a = some (s', evs)) {p : Fin n}
    (hinc : (s'.node p).incarnation = (s.node p).incarnation) :
    s'.rf p = s.rf p ∨
      (∃ task out, a = .run p task ∧ task ≠ .restart ∧ Acts (s.node p) task (s'.rf p) out evs) ∨
      ∃ m out, s.received a = some (p, m) ∧ m ∈ s.net ∧ p = m.target ∧ Receives (s.rf p) m (s'.rf p) out evs := by
  have hserved := step_served hs p
  unfold Cluster.rf
  generalize s'.node p = sv' at hserved hinc ⊢
  cases hserved with
  | same => exact Or.inl rfl
  | @run task r hr =>
    refine Or.inr (Or.inl ⟨task, r.2.1, rfl, ?_, run_acts hr⟩)
    rintro rfl
    cases hr
    exact absurd hinc (Nat.succ_ne_self _)
  | @handle k m r hm hrec hr =>
    refine Or.inr (Or.inr ⟨m, r.2.1, ?_, List.mem_of_getElem? hm, receiver_target hrec, handle_receives hr⟩)
    simp [Cluster.received, hm, hrec]
  | failed => exact Or.inl (failed_rf _ _)
  | crashed => exact absurd hinc (Nat.succ_ne_self _)

end CS240.Raft
