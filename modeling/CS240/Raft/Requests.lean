/-
What the requests of a leader say, and what their receivers may make of it.

`leaders_speak`: whoever sends a Heartbeat or an AppendEntries request in the name of a term leads in that term when the
term is read. For AppendEntries this is one section of `replicateTo`. `StartHeartbeat` reads the term in a section of
its own, after `life` or a won election has decided to call it (`owesBeat`); so the result is about runs in which no
node loses its office in between (`deposesDue`). `follower_speaks` is a run in which one does.

`commit_verified`: a follower's commit index never covers an entry that the request it handles has not matched. The code
bounds LeaderCommit by the follower's own last index, so this rests on the leader: a careful leader has not committed
more than its log holds. `commit_unverified` is a run in which a cut log has made a leader of a node that has.
-/
import CS240.Raft.Safety

namespace CS240.Raft

open Lib

variable {n : ℕ} {Cmd : Type} {rf rf' : Raft n Cmd} {p : Fin n} {h evs : List (Event (Fin n) Cmd)}
  {s s' s₁ : Cluster n Cmd} {a : Action n Cmd} {ok : Cluster n Cmd → Action n Cmd → Prop}

/-! ## What a step puts on the network -/

/-- the requests and replies a step puts on the network -/
def Cluster.emitted (s : Cluster n Cmd) : Action n Cmd → List (Message n Cmd)
  | .run p task =>
    match (s.node p).run task with
    | some r => r.2.1
    | none => []
  | .deliver k =>
    match s.received (.deliver k) with
    | some (p, m) =>
      match (s.node p).handle m with
      | some r => r.2.1
      | none => []
    | none => []
  | _ => []

/-- nothing else is new in flight, up to calls that their callers have given up -/
theorem step_emitted (hs : s.step a = some (s', evs)) {m : Message n Cmd} (hm : m ∈ s'.net) :
    m ∈ s.emitted a ∨ ∃ m' ∈ s.net, m = m' ∨ m = m'.abandoned := by
  have herase : ∀ k, ∀ m ∈ s.net.eraseIdx k, ∃ m' ∈ s.net, m = m' ∨ m = m'.abandoned :=
    fun k m hm => ⟨m, List.mem_of_mem_eraseIdx hm, Or.inl rfl⟩
  cases step_cases hs with
  | run hr =>
    rcases List.mem_append.1 hm with hm | hm
    · exact Or.inr ⟨m, hm, Or.inl rfl⟩
    · simp only [Cluster.emitted, hr]
      exact Or.inl hm
  | handle hk hrec hr =>
    rcases List.mem_append.1 hm with hm | hm
    · exact Or.inr (herase _ m hm)
    · simp only [Cluster.emitted, Cluster.received, hk, hrec, hr, Option.bind_some, Option.map_some]
      exact Or.inl hm
  | orphan => exact Or.inr (herase _ m hm)
  | lose hk hl =>
    rw [hl.rf.2] at hm
    exact Or.inr (herase _ m hm)
  | @abandon k m' hk =>
    rcases List.mem_append.1 hm with hm | hm
    · exact Or.inr (herase _ m hm)
    · simp only [List.mem_singleton] at hm
      exact Or.inr ⟨m', List.mem_of_getElem? hk, Or.inr hm⟩
  | @crashIn k m' s₁ hk hterm hl =>
    simp only [Cluster.crash, Cluster.put, List.append_nil] at hm
    rw [hl.rf.2] at hm
    exact Or.inr (herase _ m hm)

/-- the node and the term in whose name a request speaks -/
def Message.speaksFor (m : Message n Cmd) : Option (Fin n × ℕ) :=
  match m.body with
  | .heartbeat args => some (args.leaderID, args.term)
  | .appendEntries args _ => some (args.leaderID, args.term)
  | _ => none

/-! ## Calls of StartHeartbeat that are due -/

/-- `StartHeartbeat` is going to be called: `life` has seen the leader state, or a vote goroutine has won -/
def Server.owesBeat (sv : Server n Cmd) : Prop := sv.life = .saw .leader ∨ .startHeartbeat ∈ sv.goroutines

instance (sv : Server n Cmd) : Decidable sv.owesBeat := inferInstanceAs (Decidable (_ ∨ _))

/-- the step takes the office from a node that is about to call `StartHeartbeat` and keeps running -/
def deposesDue (s : Cluster n Cmd) (a : Action n Cmd) : Prop :=
  ∃ p, (s.node p).owesBeat ∧ (s.rf p).state = .leader ∧
    match s.step a with
    | some (s', _) => (s'.node p).incarnation = (s.node p).incarnation ∧ (s'.rf p).state ≠ .leader
    | none => False

instance : DecidableRel (@deposesDue n Cmd) := by
  intro s a
  refine @Fintype.decidableExistsFintype _ _ (fun p => ?_) _
  refine @instDecidableAnd _ _ _ (@instDecidableAnd _ _ _ ?_)
  split <;> infer_instance

@[simp]
theorem startHeartbeat_notMem_spawn {peers : List (Fin n)} {t : ℕ} : .startHeartbeat ∉ Server.spawn peers t := by
  unfold Server.spawn
  split_ifs <;> simp

@[simp]
theorem startHeartbeat_notMem_spawnEach {me : Fin n} {t : ℕ} : .startHeartbeat ∉ Server.spawnEach me t := by
  simp [Server.spawnEach]

/-- a server that gets no new goroutine to send heartbeats, and whose `life` has not read the state -/
theorem Server.owesBeat.before {sv sv' : Server n Cmd} (ho : sv'.owesBeat)
    (hlife : sv'.life = sv.life ∨ sv'.life = .top)
    (hg : .startHeartbeat ∈ sv'.goroutines → .startHeartbeat ∈ sv.goroutines) : sv.owesBeat := by
  rcases ho with hl | hb
  · rcases hlife with he | he <;> rw [he] at hl
    · exact Or.inl hl
    · cases hl
  · exact Or.inr (hg hb)

theorem runGoroutine_owesBeat {sv : Server n Cmd} {k : ℕ} {r : Server.Result n Cmd} (hr : sv.runGoroutine k = some r)
    (ho : r.1.owesBeat) : sv.owesBeat ∧ r.1.incarnation = sv.incarnation := by
  have herase : .startHeartbeat ∈ sv.goroutines.eraseIdx k → .startHeartbeat ∈ sv.goroutines := List.mem_of_mem_eraseIdx
  unfold Server.runGoroutine at hr
  split at hr
  · cases hr
  · cases hr; exact ⟨ho.before (Or.inl rfl) herase, rfl⟩
  · cases hr; exact ⟨ho.before (Or.inl rfl) herase, rfl⟩
  · split at hr <;> cases hr
    · exact ⟨ho.before (Or.inl rfl) (by simpa using herase), rfl⟩
    · exact ⟨ho.before (Or.inl rfl) herase, rfl⟩

/-- a task makes a call of `StartHeartbeat` due only at a leader -/
theorem run_owesBeat {sv : Server n Cmd} {task : Server.Task Cmd} {r : Server.Result n Cmd} (hr : sv.run task = some r)
    (ho : r.1.owesBeat) : r.1.rf.state = .leader ∨ (sv.owesBeat ∧ r.1.incarnation = sv.incarnation) := by
  cases task with
  | lifeRead =>
    simp only [Server.run] at hr
    split_ifs at hr
    cases hr
    rcases ho with hl | hb
    · exact Or.inl (Life.saw.inj hl)
    · exact Or.inr ⟨Or.inr hb, rfl⟩
  | lifeSleep | lifeHeartbeat =>
    simp only [Server.run] at hr
    split_ifs at hr
    cases hr
    exact Or.inr ⟨ho.before (Or.inr rfl) id, rfl⟩
  | lifeElection =>
    simp only [Server.run] at hr
    split_ifs at hr
    cases hr
    unfold Server.election at ho ⊢
    rcases he : sv.rf.startElection with ⟨rf, _ | args⟩ <;> simp only [he] at ho
    · exact Or.inr ⟨ho.before (Or.inr rfl) (by simp), rfl⟩
    · exact Or.inr ⟨ho.before (Or.inr rfl) id, rfl⟩
  | goroutine k => exact Or.inr (runGoroutine_owesBeat hr ho)
  | apply =>
    simp only [Server.run] at hr
    split_ifs at hr
    cases hr
    exact Or.inr ⟨ho, rfl⟩
  | applySend =>
    simp only [Server.run] at hr
    split at hr <;> cases hr
    exact Or.inr ⟨ho, rfl⟩
  | start command =>
    simp only [Server.run] at hr
    split_ifs at hr <;> cases hr
    · exact Or.inr ⟨ho.before (Or.inl rfl) (by simp), rfl⟩
    · exact Or.inr ⟨ho, rfl⟩
  | restart =>
    cases hr
    rcases ho with hl | hb
    · cases hl
    · cases hb

theorem handle_owesBeat {sv : Server n Cmd} {m : Message n Cmd} {r : Server.Result n Cmd} (hr : sv.handle m = some r)
    (ho : r.1.owesBeat) : r.1.rf.state = .leader ∨ (sv.owesBeat ∧ r.1.incarnation = sv.incarnation) := by
  unfold Server.handle at hr
  split at hr
  · cases hr; exact Or.inr ⟨ho, rfl⟩
  · rename_i term reply _
    rcases hv : sv.rf.requestVoteReply term reply with ⟨rf, _ | _⟩
    · simp only [hv, Bool.false_eq_true, if_false, Option.some.injEq] at hr
      subst hr
      exact Or.inr ⟨ho, rfl⟩
    · simp only [hv, if_true, Option.some.injEq] at hr
      subst hr
      cases requestVoteReply_cases hv with
      | won => exact Or.inl rfl
  · cases hr; exact Or.inr ⟨ho, rfl⟩
  · cases hr; exact Or.inr ⟨ho.before (Or.inl rfl) (by simp), rfl⟩
  · cases hr; exact Or.inr ⟨ho, rfl⟩
  · split at hr <;> cases hr <;> exact Or.inr ⟨ho.before (Or.inl rfl) (by simp), rfl⟩

theorem failed_owesBeat {sv : Server n Cmd} {m : Message n Cmd} (ho : (sv.failed m).owesBeat) : sv.owesBeat := by
  unfold Server.failed at ho
  split at ho
  · exact ho
  · exact ho
  all_goals exact ho.before (Or.inl rfl) (by simp)

/-- where a call that is due after a step comes from -/
theorem step_owesBeat (hs : s.step a = some (s', evs)) (ho : (s'.node p).owesBeat) :
    (s'.rf p).state = .leader ∨
      ((s.node p).owesBeat ∧ (s'.node p).incarnation = (s.node p).incarnation) := by
  have hserved := step_served hs p
  unfold Cluster.rf
  generalize s'.node p = sv' at hserved ho ⊢
  cases hserved with
  | same => exact Or.inr ⟨ho, rfl⟩
  | run hr => exact run_owesBeat hr ho
  | handle hm hrec hr => exact handle_owesBeat hr ho
  | failed => exact Or.inr ⟨failed_owesBeat ho, failed_incarnation _ _⟩
  | crashed =>
    rcases ho with hlife | hb
    · cases hlife
    · cases hb

/-- whoever is about to send heartbeats still leads -/
theorem run_owesBeat_leads (hok : ∀ s a, ok s a → ¬ deposesDue s a) (hr : (machine n Cmd).Run ok s h) :
    ∀ p, (s.node p).owesBeat → (s.rf p).state = .leader := by
  refine hr.invariant (I := fun s _ => ∀ p, (s.node p).owesBeat → (s.rf p).state = .leader) ?_ ?_
  · rintro p (hl | hb)
    · cases hl
    · cases hb
  · intro s h a s' evs hI ha hs p ho
    rcases step_owesBeat hs ho with hl | ⟨ho', hinc⟩
    · exact hl
    · by_contra hne
      refine hok s a ha ⟨p, ho', hI p ho', ?_⟩
      have hstep : s.step a = some (s', evs) := hs
      rw [hstep]
      exact ⟨hinc, hne⟩

/-! ## Only leaders speak for a term -/

/-- requests are answered with replies, which speak for nobody -/
theorem Receives.silent {m : Message n Cmd} {out : List (Message n Cmd)} (hr : Receives rf m rf' out evs) :
    ∀ m' ∈ out, m'.speaksFor = none := by
  intro m' hm'
  cases hr with
  | requestVote | heartbeat | appendEntries =>
    simp only [List.mem_singleton] at hm'
    subst hm'
    rfl
  | _ => cases hm'

/-- a task that speaks for a term is a call of `StartHeartbeat` that was due, or a request of a leader -/
theorem run_speaks {sv : Server n Cmd} {task : Server.Task Cmd} {r : Server.Result n Cmd} (hr : sv.run task = some r)
    {m : Message n Cmd} (hm : m ∈ r.2.1) {q : Fin n} {t : ℕ} (hq : m.speaksFor = some (q, t)) :
    q = sv.rf.me ∧ t = sv.rf.term ∧ (sv.owesBeat ∨ sv.rf.state = .leader) := by
  have hdue : sv.beats task → sv.owesBeat := by
    intro hb
    cases task with
    | lifeHeartbeat =>
      simp only [Server.run] at hr
      split_ifs at hr with hl
      exact Or.inl hl
    | goroutine k => exact Or.inr (List.mem_of_getElem? hb)
    | _ => cases hb
  have hacts := run_acts hr
  generalize r.1.rf = rf', r.2.1 = out, r.2.2 = evs at hacts hm
  cases hacts with
  | election =>
    simp only [Server.broadcast, List.mem_map] at hm
    obtain ⟨peer, -, rfl⟩ := hm
    cases hq
  | beat hb =>
    simp only [Server.broadcast, List.mem_map] at hm
    obtain ⟨peer, -, rfl⟩ := hm
    cases hq
    exact ⟨rfl, rfl, Or.inl (hdue hb)⟩
  | send hsend =>
    have hreq := (replicateSend_some hsend).1
    simp only [List.mem_singleton] at hm
    subst hm
    cases hq
    exact ⟨hreq.leaderID, hreq.term, Or.inr hreq.leader⟩
  | _ => cases hm

/-- **Only leaders speak for a term**: in every run in which no node loses its office while a call of `StartHeartbeat`
is due, a step that puts a Heartbeat or AppendEntries request with LeaderID `p` and Term `t` on the network reads this
term at node `p`, which is leader in term `t`. -/
theorem leaders_speak (hr : (machine n Cmd).Run (fun s a => ¬ deposesDue s a) s h) (a : Action n Cmd)
    (m : Message n Cmd) (hm : m ∈ s.emitted a) (p : Fin n) (t : ℕ) (hp : m.speaksFor = some (p, t)) :
    (s.rf p).state = .leader ∧ (s.rf p).term = t := by
  have hdue := run_owesBeat_leads (fun _ _ ha => ha) hr
  cases a with
  | run q task =>
    simp only [Cluster.emitted] at hm
    split at hm
    · rename_i r hrun
      obtain ⟨hid, hterm, hlead⟩ := run_speaks hrun hm hp
      have hme : (s.node q).rf.me = q := (run_saved hr q).1
      obtain rfl : p = q := hid.trans hme
      refine ⟨?_, hterm.symm⟩
      rcases hlead with ho | hl
      · exact hdue p ho
      · exact hl
    · cases hm
  | deliver k =>
    simp only [Cluster.emitted] at hm
    split at hm
    · split at hm
      · rename_i hhandle
        rw [(handle_receives hhandle).silent m hm] at hp
        cases hp
      · cases hm
    · cases hm
  | _ => cases hm

theorem leaders_speak_firstElection : ∃ s h m, (machine 3 ℕ).Run (fun s a => ¬ deposesDue s a) s h ∧
    m ∈ s.emitted (.run 0 (.goroutine 0)) ∧ m.speaksFor = some (0, 1) ∧ (s.rf 0).state = .leader ∧
    (s.rf 0).term = 1 := by
  let beat : Message 3 ℕ := ⟨0, 1, some 0, .heartbeat ⟨0, 1⟩⟩
  obtain ⟨s, h, hr, ht⟩ := Machine.exists_run_of_exec
    (show ((machine 3 ℕ).exec (fun s a => ¬ deposesDue s a) firstElection).any
      (fun r => decide (beat ∈ r.1.emitted (.run 0 (.goroutine 0)))) = true by decide +kernel)
  have hm := of_decide_eq_true ht
  exact ⟨s, h, beat, hr, hm, rfl, leaders_speak hr _ beat hm 0 1 rfl⟩

/-- node 0 has won term 1 and is about to call `StartHeartbeat`, when it votes for node 2 in term 2 -/
def outvoted : List (Action 3 ℕ) :=
  firstElection ++ [.run 2 .lifeRead, .run 2 .lifeElection, .run 2 .lifeRead, .run 2 .lifeElection, .deliver 3]

/-- **A follower speaks for a term**: node 0 sends heartbeats of term 2, in which it has voted for node 2 -/
theorem follower_speaks : ∃ s h m s' evs, (machine 3 ℕ).Run Machine.free s h ∧
    s.step (.run 0 (.goroutine 0)) = some (s', evs) ∧ m ∈ s.emitted (.run 0 (.goroutine 0)) ∧ m ∈ s'.net ∧
    m.speaksFor = some (0, 2) ∧ (s.rf 0).state = .follower := by
  let beat : Message 3 ℕ := ⟨0, 1, some 0, .heartbeat ⟨0, 2⟩⟩
  obtain ⟨s, h, s', evs, hr, -, hs, ht⟩ := Machine.exists_step_of_exec
    (show ((machine 3 ℕ).exec Machine.free outvoted).any
      (fun r => decide (Machine.free r.1 (Action.run 0 (.goroutine 0))) &&
        ((machine 3 ℕ).step r.1 (.run 0 (.goroutine 0))).any fun r' => decide
          (beat ∈ r.1.emitted (.run 0 (.goroutine 0)) ∧ beat ∈ r'.1.net ∧ (r.1.rf 0).state = .follower)) = true
      by decide +kernel)
  obtain ⟨hm, hnet, hst⟩ := of_decide_eq_true ht
  exact ⟨s, h, beat, s', evs, hr, hs, hm, hnet, rfl, hst⟩

/-! ## What a follower commits -/

/-- the commit index after a request that was accepted -/
theorem appendEntries_commitIndex {args : AppendEntriesArgs n Cmd} (hlog : rf.log ≠ [])
    (hsucc : (rf.appendEntries args).2.success = true) :
    (rf.appendEntries args).1.commitIndex ≤ max rf.commitIndex args.leaderCommit := by
  generalize ha : rf.appendEntries args = r at hsucc ⊢
  obtain ⟨rf', reply⟩ := r
  cases appendEntries_cases hlog ha with
  | stale _ hf | refused _ hf => rw [hf] at hsucc; cases hsucc
  | accepted =>
    dsimp only
    split_ifs
    · exact le_max_of_le_right (min_le_left _ _)
    · exact le_max_left _ _

/-- a step that hands a request to its receiver -/
theorem step_received {m : Message n Cmd} {args : AppendEntriesArgs n Cmd} {rest : List (Fin n)}
    (hs : s.step a = some (s', evs)) (hrec : s.received a = some (p, m)) (hbody : m.body = .appendEntries args rest) :
    m ∈ s.net ∧ s'.rf p = ((s.rf p).appendEntries args).1 := by
  cases step_cases hs with
  | @handle k m' q r hk hq hr =>
    simp only [Cluster.received, hk, hq, Option.bind_some, Option.map_some, Option.some.injEq, Prod.mk.injEq] at hrec
    obtain ⟨rfl, rfl⟩ := hrec
    refine ⟨List.mem_of_getElem? hk, ?_⟩
    rw [rf_put, Function.update_self]
    simp only [Server.handle, hbody, Option.some.injEq] at hr
    rw [← hr]
    rfl
  | orphan hk hq => simp [Cluster.received, hk, hq] at hrec
  | run | lose | abandon | crashIn => cases hrec

/-- **Followers commit only what the request verified**: in every careful run in which no term has two leaders, a node
that accepts a request has a commit index afterwards that it had before, or one at or below the last entry the request
matched. -/
theorem commit_verified (hr : (machine n Cmd).Run Careful s h) (ho : OneLeader h) (p : Fin n) (m : Message n Cmd)
    (args : AppendEntriesArgs n Cmd) (rest : List (Fin n)) (hrec : s.received a = some (p, m))
    (hbody : m.body = .appendEntries args rest) (hsucc : ((s.rf p).appendEntries args).2.success = true)
    (hs : s.step a = some (s', evs)) :
    (s'.rf p).commitIndex ≤ max (s.rf p).commitIndex (args.prevLogIndex + args.entries.length) := by
  have hI := run_refines hr
  have hh := run_sound (fun _ _ ha => ha) hr ho
  obtain ⟨hm, hrf⟩ := step_received hs hrec hbody
  rw [hrf]
  -- the leader had committed no more than its log held when it built the request
  have hok := hI.net m hm
  simp only [MsgOk, hbody] at hok
  obtain ⟨-, full, hsent, ⟨e, he, -⟩, hents⟩ := hok
  have hcert : args.leaderCommit < full.length :=
    ((hI.reach.commitOk hh.oneLeader hh.noCut hh.backed).sent _ _ _ _ hsent).1
  have hprev := (List.getElem?_eq_some_iff.1 he).1
  have hlast : args.leaderCommit ≤ args.prevLogIndex + args.entries.length := by
    rw [hents, List.length_drop]
    omega
  calc ((s.rf p).appendEntries args).1.commitIndex
      ≤ max (s.rf p).commitIndex args.leaderCommit := appendEntries_commitIndex (run_saved hr p).2.log hsucc
    _ ≤ max (s.rf p).commitIndex (args.prevLogIndex + args.entries.length) := max_le_max le_rfl hlast

/-- the request with which `followed` ends tells node 1 that index 2 is committed -/
theorem commit_verified_followed : ∃ (s : Cluster 3 ℕ) (h : List (Event (Fin 3) ℕ)) (s' : Cluster 3 ℕ)
    (evs : List (Event (Fin 3) ℕ)), (machine 3 ℕ).Run Careful s h ∧ OneLeader h ∧
    s.step (.deliver 2) = some (s', evs) ∧ (s.rf 1).commitIndex = 0 ∧ (s'.rf 1).commitIndex ≤ max 0 2 := by
  let args : AppendEntriesArgs 3 ℕ := ⟨1, 0, 2, 1, [], 2⟩
  let m : Message 3 ℕ := ⟨0, 1, some 0, .appendEntries args []⟩
  obtain ⟨s, h, s', evs, hr, -, hs, ho, ht⟩ := exists_step_of_fair
    (show ((machine 3 ℕ).exec (fun s a => FairElections s a ∧ Careful s a) (overtaken ++ [.run 0 (.goroutine 4)])).any
      (fun r => decide (FairElections r.1 (.deliver 2) ∧ Careful r.1 (.deliver 2)) &&
        (r.1.step (.deliver 2)).any fun r' => decide (r.1.received (.deliver 2) = some (1, m) ∧
          ((r.1.rf 1).appendEntries args).2.success = true ∧ (r.1.rf 1).commitIndex = 0)) = true by decide +kernel)
  obtain ⟨hrec, hsucc, hci⟩ := of_decide_eq_true ht
  have hle := commit_verified hr ho.of_append 1 m args [] hrec rfl hsucc hs
  rw [hci] at hle
  exact ⟨s, h, s', evs, hr, ho.of_append, hs, hci, hle⟩

/-- After `followed` the request `[7]` reaches node 1 at last and makes it drop the 8, but its commit index stays at 2.
Node 1 becomes leader in term 2 with the vote of node 2, and node 0, which still has the 8, restarts. -/
def misled : List (Action 3 ℕ) :=
  followed ++ [.deliver 1, .run 1 .lifeRead, .run 1 .lifeElection, .deliver 4, .deliver 4, .run 0 .restart,
    .run 1 (.goroutine 1)]

/-- **A follower commits what nobody verified**: node 1 sends an empty request for index 1 with LeaderCommit 2, and node
0 commits its own entry at index 2 -/
theorem commit_unverified : ∃ (s : Cluster 3 ℕ) (h : List (Event (Fin 3) ℕ)) (s' : Cluster 3 ℕ)
    (evs : List (Event (Fin 3) ℕ)) (m : Message 3 ℕ) (args : AppendEntriesArgs 3 ℕ),
    (machine 3 ℕ).Run Machine.free s h ∧ s.step (.deliver 4) = some (s', evs) ∧ OneLeader (h ++ evs) ∧
    s.received (.deliver 4) = some (0, m) ∧ m.body = .appendEntries args [2] ∧
    ((s.rf 0).appendEntries args).2.success = true ∧ (s.rf 0).commitIndex = 0 ∧
    args.prevLogIndex + args.entries.length = 1 ∧ (s'.rf 0).commitIndex = 2 := by
  let args : AppendEntriesArgs 3 ℕ := ⟨2, 1, 1, 1, [], 2⟩
  let m : Message 3 ℕ := ⟨1, 0, some 0, .appendEntries args [2]⟩
  obtain ⟨s, h, s', evs, hr, -, hs, ho, ht⟩ := exists_step_of_fair
    (show ((machine 3 ℕ).exec (fun s a => FairElections s a ∧ Machine.free s a) misled).any
      (fun r => decide (FairElections r.1 (.deliver 4) ∧ Machine.free r.1 (Action.deliver 4)) &&
        (r.1.step (.deliver 4)).any fun r' => decide (r.1.received (.deliver 4) = some (0, m) ∧
          ((r.1.rf 0).appendEntries args).2.success = true ∧ (r.1.rf 0).commitIndex = 0 ∧
          (r'.1.rf 0).commitIndex = 2)) = true by decide +kernel)
  obtain ⟨hrec, hsucc, hci, hci'⟩ := of_decide_eq_true ht
  exact ⟨s, h, s', evs, m, args, hr, hs, ho, hrec, rfl, hsucc, hci, rfl, hci'⟩

end CS240.Raft
