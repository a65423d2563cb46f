/-
How a leader loses its office.

`leader_displaced`: in every run in which no term has two leaders, a leader of term `t` that does not crash leaves
office only in a step in which it processes a message of a larger term. This needs three conditions on the steps
(`Steady`): no heartbeat reply demotes a leader within its term, `life` starts no election at a leader, and
`StartHeartbeat` runs only at leaders. `leader_deposed` is a run in which `life` starts an election at a node that has
just won one.

Two facts about messages carry the proof: nobody calls itself (`Addressed`), and heartbeats come from leaders
(`run_heartbeats`), so that a request of the leader's own term would come from a second leader.
-/
import CS240.Raft.Elections

namespace CS240.Raft

open Lib

variable {n : ℕ} {Cmd : Type} {rf rf' : Raft n Cmd} {p : Fin n} {h evs : List (Event (Fin n) Cmd)}
  {s s' s₁ : Cluster n Cmd} {a : Action n Cmd} {ok : Cluster n Cmd → Action n Cmd → Prop}

/-! ## Nobody calls itself -/

/-- the peers a goroutine is going to call -/
def Goroutine.peers : Goroutine n → List (Fin n)
  | .startHeartbeat => []
  | .replicateTo peers _ => peers

/-- the peer a call was made to, and those its goroutine is going to call after it -/
def Message.peers (m : Message n Cmd) : List (Fin n) :=
  m.server ::
    match m.body with
    | .appendEntries _ rest | .appendEntriesReply _ rest _ => rest
    | _ => []

structure Addressed (s : Cluster n Cmd) : Prop where
  goroutines : ∀ p, ∀ g ∈ (s.node p).goroutines, p ∉ g.peers
  net : ∀ m ∈ s.net, m.client ∉ m.peers

theorem not_mem_others (me : Fin n) : me ∉ Server.others me := by simp [Server.others]

theorem spawn_peers {peers : List (Fin n)} {t : ℕ} (hp : p ∉ peers) : ∀ g ∈ Server.spawn peers t, p ∉ g.peers := by
  intro g hg
  unfold Server.spawn at hg
  split_ifs at hg
  · cases hg
  · simp only [List.mem_singleton] at hg
    subst hg
    exact hp

theorem spawnEach_peers (me : Fin n) (t : ℕ) : ∀ g ∈ Server.spawnEach me t, me ∉ g.peers := by
  intro g hg
  simp only [Server.spawnEach, List.mem_map] at hg
  obtain ⟨q, hq, rfl⟩ := hg
  have hne : me ≠ q := by rintro rfl; exact not_mem_others me hq
  simpa [Goroutine.peers] using hne

theorem append_peers {gs gs' : List (Goroutine n)} (h₁ : ∀ g ∈ gs, p ∉ g.peers) (h₂ : ∀ g ∈ gs', p ∉ g.peers) :
    ∀ g ∈ gs ++ gs', p ∉ g.peers := by
  intro g hg
  rcases List.mem_append.1 hg with hg | hg
  · exact h₁ g hg
  · exact h₂ g hg

theorem broadcast_peers {sv : Server n Cmd} {body : Body n Cmd}
    (hb : ∀ m : Message n Cmd, m.body = body → m.peers = [m.server]) :
    ∀ m ∈ sv.broadcast body, m.client ∉ m.peers := by
  intro m hm
  simp only [Server.broadcast, List.mem_map] at hm
  obtain ⟨q, hq, rfl⟩ := hm
  have hne : sv.rf.me ≠ q := by rintro he; exact not_mem_others _ (he ▸ hq)
  rw [hb _ rfl]
  simpa using hne

theorem runGoroutine_peers {sv : Server n Cmd} {k : ℕ} {r : Server.Result n Cmd}
    (hg : ∀ g ∈ sv.goroutines, sv.rf.me ∉ g.peers) (hme : r.1.rf.me = sv.rf.me) (hr : sv.runGoroutine k = some r) :
    (∀ g ∈ r.1.goroutines, sv.rf.me ∉ g.peers) ∧ ∀ m ∈ r.2.1, m.client ∉ m.peers := by
  have herase : ∀ g ∈ sv.goroutines.eraseIdx k, sv.rf.me ∉ g.peers :=
    fun g hk => hg g (List.mem_of_mem_eraseIdx hk)
  unfold Server.runGoroutine at hr
  split at hr
  · cases hr
  · cases hr
    exact ⟨herase, broadcast_peers fun m hm => by simp [Message.peers, hm]⟩
  · cases hr
    exact ⟨herase, by simp⟩
  · rename_i peer peers leaderTerm hk
    have hself : sv.rf.me ∉ peer :: peers := hg _ (List.mem_of_getElem? hk)
    split at hr
    · cases hr
    · cases hr
      exact ⟨append_peers herase (spawn_peers fun hmem => hself (List.mem_cons_of_mem _ hmem)), by simp⟩
    · cases hr
      refine ⟨herase, fun m hm => ?_⟩
      simp only [List.mem_singleton] at hm
      subst hm
      simp only at hme
      rw [← hme] at hself
      exact hself

theorem run_peers {sv : Server n Cmd} {task : Server.Task Cmd} {r : Server.Result n Cmd} (hs : Saved sv.rf)
    (hg : ∀ g ∈ sv.goroutines, sv.rf.me ∉ g.peers) (hr : sv.run task = some r) :
    (∀ g ∈ r.1.goroutines, sv.rf.me ∉ g.peers) ∧ ∀ m ∈ r.2.1, m.client ∉ m.peers := by
  have hme : r.1.rf.me = sv.rf.me := ((run_acts hr).follows hs).me
  cases task with
  | lifeRead | lifeSleep | apply =>
    simp only [Server.run] at hr
    split_ifs at hr
    cases hr
    exact ⟨hg, by simp⟩
  | lifeElection =>
    simp only [Server.run, Server.election] at hr
    split_ifs at hr
    cases hr
    rcases he : sv.rf.startElection with ⟨rf, _ | args⟩
    · simp only [he] at hme ⊢
      refine ⟨append_peers hg (spawn_peers ?_), by simp⟩
      rw [hme]
      exact not_mem_others _
    · exact ⟨hg, broadcast_peers fun m hm => by simp [Message.peers, hm]⟩
  | lifeHeartbeat =>
    simp only [Server.run] at hr
    split_ifs at hr
    cases hr
    exact ⟨hg, broadcast_peers fun m hm => by simp [Message.peers, hm]⟩
  | goroutine k => exact runGoroutine_peers hg hme hr
  | applySend =>
    simp only [Server.run] at hr
    split at hr <;> cases hr
    exact ⟨hg, by simp⟩
  | start command =>
    simp only [Server.run] at hr
    split_ifs at hr
    · cases hr
      refine ⟨append_peers hg ?_, by simp⟩
      simp only at hme
      rw [hme]
      exact spawnEach_peers _ _
    · cases hr
      exact ⟨hg, by simp⟩
  | restart =>
    cases hr
    exact ⟨by simp [Server.boot], by simp⟩

theorem handle_peers {sv : Server n Cmd} {m : Message n Cmd} {r : Server.Result n Cmd} (hs : Saved sv.rf)
    (hg : ∀ g ∈ sv.goroutines, sv.rf.me ∉ g.peers) (hm : m.client ∉ m.peers) (hp : sv.rf.me = m.target)
    (hr : sv.handle m = some r) :
    (∀ g ∈ r.1.goroutines, sv.rf.me ∉ g.peers) ∧ ∀ m' ∈ r.2.1, m'.client ∉ m'.peers := by
  have hme : r.1.rf.me = sv.rf.me := ((handle_receives hr).follows hs).me
  unfold Server.handle at hr
  split at hr <;> rename_i hbody <;> simp only [Message.target, Message.isRequest, Message.peers, hbody] at hp hm
  · cases hr
    exact ⟨hg, by simpa [Message.peers] using hm⟩
  · rename_i term reply
    dsimp only at hr
    by_cases hwon : (sv.rf.requestVoteReply term reply).2 = true
    · rw [if_pos hwon] at hr
      cases hr
      refine ⟨append_peers hg fun g hg' => ?_, by simp⟩
      rcases List.mem_cons.1 hg' with rfl | hg'
      · simp [Goroutine.peers]
      · refine spawn_peers ?_ g hg'
        simp only at hme
        rw [hme]
        exact not_mem_others _
    · rw [if_neg hwon] at hr
      cases hr
      exact ⟨hg, by simp⟩
  · cases hr
    exact ⟨hg, by simpa [Message.peers] using hm⟩
  · cases hr
    refine ⟨append_peers hg (spawn_peers ?_), by simp⟩
    rw [hp]
    simpa using hm
  · cases hr
    exact ⟨hg, by simpa [Message.peers] using hm⟩
  · simp only [Bool.false_eq_true, if_false] at hp
    have hrest := fun hmem => hm (List.mem_cons_of_mem _ hmem)
    split at hr
    · cases hr
    · cases hr
      refine ⟨append_peers hg (spawn_peers ?_), by simp⟩
      rw [hp]; exact hrest
    · cases hr
      refine ⟨append_peers (append_peers hg ?_) (spawn_peers ?_), by simp⟩
      · simp only at hme
        rw [hme]
        exact spawnEach_peers _ _
      · rw [hp]; exact hrest
    · cases hr
      refine ⟨append_peers hg (spawn_peers ?_), by simp⟩
      rw [hp]; exact hm

theorem failed_peers {sv : Server n Cmd} {m : Message n Cmd} (hg : ∀ g ∈ sv.goroutines, m.client ∉ g.peers)
    (hm : m.client ∉ m.peers) : ∀ g ∈ (sv.failed m).goroutines, m.client ∉ g.peers := by
  unfold Server.failed
  split <;> rename_i hbody <;> simp only [Message.peers, hbody] at hm
  · exact hg
  · exact hg
  · exact append_peers hg (spawn_peers (by simpa using hm))
  · exact append_peers hg (spawn_peers (by simpa using hm))
  · exact append_peers hg (spawn_peers fun hmem => hm (List.mem_cons_of_mem _ hmem))
  · exact append_peers hg (spawn_peers fun hmem => hm (List.mem_cons_of_mem _ hmem))

theorem Addressed.put {net : List (Message n Cmd)} {r : Server.Result n Cmd} (hA : Addressed s)
    (hg : ∀ g ∈ r.1.goroutines, p ∉ g.peers) (hnet : ∀ m ∈ net, m.client ∉ m.peers)
    (hout : ∀ m ∈ r.2.1, m.client ∉ m.peers) : Addressed (s.put p net r).1 := by
  refine ⟨fun q => ?_, fun m hm => ?_⟩
  · by_cases hq : q = p
    · subst hq; simpa [Cluster.put] using hg
    · simpa [Cluster.put, hq] using hA.goroutines q
  · rcases List.mem_append.1 hm with hm | hm
    · exact hnet m hm
    · exact hout m hm

theorem Lost.addressed {k : ℕ} {m : Message n Cmd} (hl : Lost s k m s₁) (hm : s.net[k]? = some m) (hA : Addressed s) :
    Addressed s₁ := by
  have herase : ∀ m ∈ s.net.eraseIdx k, m.client ∉ m.peers := fun m hm => hA.net m (List.mem_of_mem_eraseIdx hm)
  cases hl with
  | orphan => exact ⟨hA.goroutines, herase⟩
  | failed =>
    exact hA.put (failed_peers (hA.goroutines m.client) (hA.net m (List.mem_of_getElem? hm))) herase (by simp)

theorem step_addressed (hA : Addressed s) (hS : ∀ p, (s.rf p).me = p ∧ Saved (s.rf p))
    (hs : s.step a = some (s', evs)) : Addressed s' := by
  have herase : ∀ k, ∀ m ∈ s.net.eraseIdx k, m.client ∉ m.peers :=
    fun k m hm => hA.net m (List.mem_of_mem_eraseIdx hm)
  have hme : ∀ p, (s.node p).rf.me = p := fun p => (hS p).1
  have hown : ∀ p, ∀ g ∈ (s.node p).goroutines, (s.node p).rf.me ∉ g.peers := by
    intro p g hg
    rw [hme p]
    exact hA.goroutines p g hg
  cases step_cases hs with
  | @run p task r hr =>
    obtain ⟨hg, hout⟩ := run_peers (hS p).2 (hown p) hr
    rw [hme p] at hg
    exact hA.put hg hA.net hout
  | @handle k m p r hm hrec hr =>
    obtain ⟨hg, hout⟩ := handle_peers (hS p).2 (hown p) (hA.net m (List.mem_of_getElem? hm))
      ((hS p).1.trans (receiver_target hrec)) hr
    rw [hme p] at hg
    exact hA.put hg (herase k) hout
  | orphan => exact ⟨hA.goroutines, herase _⟩
  | lose hm hl => exact hl.addressed hm hA
  | @abandon k m hm =>
    have hself := hA.net m (List.mem_of_getElem? hm)
    refine hA.put (failed_peers (hA.goroutines m.client) hself) (herase k) fun m' hm' => ?_
    simp only [List.mem_singleton] at hm'
    subst hm'
    exact hself
  | crashIn hm hterm hl => exact (hl.addressed hm hA).put nofun (hl.addressed hm hA).net (by simp)

theorem run_addressed (hr : (machine n Cmd).Run ok s h) : Addressed s := by
  induction hr with
  | init => exact ⟨nofun, nofun⟩
  | step hr _ hs ih => exact step_addressed ih (run_saved hr) hs

/-! ## Heartbeats come from leaders -/

/-- every heartbeat in flight is of a term its sender was elected in -/
def HeartbeatsOk (net : List (Message n Cmd)) (h : List (Event (Fin n) Cmd)) : Prop :=
  ∀ m ∈ net, ∀ args, m.body = .heartbeat args → ∃ l, .becameLeader m.client args.term l ∈ h

theorem HeartbeatsOk.append {net net' out : List (Message n Cmd)} (hB : HeartbeatsOk net h)
    (hnet : ∀ m ∈ net', m ∈ net) (hout : HeartbeatsOk out h) : HeartbeatsOk (net' ++ out) (h ++ evs) := by
  have hmono : ∀ {c : Fin n} {t : ℕ}, (∃ l, .becameLeader c t l ∈ h) → ∃ l, .becameLeader c t l ∈ h ++ evs :=
    fun ⟨l, hl⟩ => ⟨l, List.mem_append_left _ hl⟩
  intro m hm args hbody
  rcases List.mem_append.1 hm with hm | hm
  · exact hmono (hB m (hnet m hm) args hbody)
  · exact hmono (hout m hm args hbody)

theorem step_heartbeats (hB : HeartbeatsOk s.net h) (hI : Refines s.rf s.net h)
    (hS : ∀ p, (s.rf p).me = p ∧ Saved (s.rf p)) (hok : ¬ beatsUnelected s a) (hs : s.step a = some (s', evs)) :
    HeartbeatsOk s'.net (h ++ evs) := by
  refine step_preserves (J := fun _ net h => HeartbeatsOk net h) hs ?_ ?_ (fun _ _ _ hB _ => hB) ?_ ?_
  · exact fun k m hm => hB m (List.mem_of_mem_eraseIdx hm)
  · intro k m hk m' hm' args hbody
    rcases List.mem_append.1 hm' with hm' | hm'
    · exact hB m' (List.mem_of_mem_eraseIdx hm') args hbody
    · simp only [List.mem_singleton] at hm'
      subst hm'
      exact hB m (List.mem_of_getElem? hk) args hbody
  · intro p task rf out evs ha hacts
    refine hB.append (fun m hm => hm) ?_
    intro m hm args hbody
    cases hacts with
    | beat hbeat =>
      simp only [Server.broadcast, List.mem_map] at hm
      obtain ⟨q, -, rfl⟩ := hm
      cases hbody
      have hl : (s.rf p).state = .leader := by
        by_contra hne
        subst ha
        exact hok ⟨hbeat, hne⟩
      have hme : (s.node p).rf.me = p := (hS p).1
      show ∃ l, .becameLeader (s.node p).rf.me (s.rf p).term l ∈ h
      rw [hme]
      exact (hI.reach.basic.nodes p).leader hl
    | election =>
      simp only [Server.broadcast, List.mem_map] at hm
      obtain ⟨q, -, rfl⟩ := hm
      cases hbody
    | send =>
      simp only [List.mem_singleton] at hm
      subst hm
      cases hbody
    | idle | win | apply | applySend | start | restart => cases hm
  · intro p m k rf out evs _ _ _ hr
    refine hB.append (fun m hm => List.mem_of_mem_eraseIdx hm) ?_
    intro m' hm args hbody
    cases hr with
    | requestVote | heartbeat | appendEntries =>
      simp only [List.mem_singleton] at hm
      subst hm
      cases hbody
    | requestVoteReply | heartbeatReply | appendEntriesReply => cases hm

theorem run_heartbeats (hok : ∀ s a, ok s a → ¬ beatsUnelected s a) (hr : (machine n Cmd).Run ok s h) :
    HeartbeatsOk s.net h := by
  induction hr with
  | init => exact nofun
  | step hr ha hs ih => exact step_heartbeats ih (run_refines hr) (run_saved hr) (hok _ _ ha) hs

/-! ## Leaving office -/

/-- no leader steps down or stands within its term, and only leaders send heartbeats -/
def Steady (s : Cluster n Cmd) (a : Action n Cmd) : Prop :=
  Avoids Message.demotes s a ∧ ¬ standsAsLeader s a ∧ ¬ beatsUnelected s a

instance : DecidableRel (@Steady n Cmd) := fun _ _ => inferInstanceAs (Decidable (_ ∧ _ ∧ _))

/-- a task of a leader that is neither an election nor a restart -/
theorem Acts.leader {sv : Server n Cmd} {task : Server.Task Cmd} {out : List (Message n Cmd)}
    (ha : Acts sv task rf' out evs) (he : task ≠ .lifeElection) (hre : task ≠ .restart) :
    rf'.state = sv.rf.state ∧ rf'.term = sv.rf.term := by
  cases ha with
  | idle | beat | applySend => exact ⟨rfl, rfl⟩
  | election ht | win ht => exact absurd ht he
  | send hsend =>
    obtain ⟨-, next, rfl⟩ := replicateSend_some hsend
    exact ⟨rfl, rfl⟩
  | apply => rcases applier_cases sv.rf with he | ⟨e, -, -, he⟩ <;> rw [he] <;> exact ⟨rfl, rfl⟩
  | start hl => rw [start_leader hl]; exact ⟨rfl, rfl⟩
  | restart ht => exact absurd ht hre

/-- a message that does not take a leader out of office: it stays leader of its term, or the message is of a newer term,
or it is a request of a leader of the same term, or a heartbeat reply that demotes it -/
theorem Receives.leader {m : Message n Cmd} {out : List (Message n Cmd)} (hs : Saved rf)
    (hr : Receives rf m rf' out evs) (hl : rf.state = .leader) :
    (rf'.state = .leader ∧ rf'.term = rf.term) ∨ rf.term < m.term ∨
      (∃ args, m.body = .heartbeat args ∧ args.term = rf.term) ∨
      (∃ args rest, m.body = .appendEntries args rest ∧ args.term = rf.term) ∨ m.demotes rf := by
  cases hr with
  | @requestVote _ args _ hbody hv =>
    by_cases hlt : rf.term < args.electionTerm
    · exact Or.inr (Or.inl (by simpa [Message.term, hbody] using hlt))
    · have hsame : raised rf args.electionTerm = rf := if_neg hlt
      left
      cases requestVote_cases hv with
      | stale => exact ⟨hl, rfl⟩
      | refused => rw [hsame]; exact ⟨hl, rfl⟩
      | granted => rw [hsame]; exact ⟨hl, rfl⟩
  | requestVoteReply hbody hv =>
    cases requestVoteReply_cases hv with
    | higher hlt => exact Or.inr (Or.inl (by simpa [Message.term, hbody] using hlt))
    | refused | counted => exact Or.inl ⟨hl, rfl⟩
    | won => exact Or.inl ⟨rfl, rfl⟩
  | heartbeat hbody hb =>
    cases heartbeat_cases hb with
    | stale => exact Or.inl ⟨hl, rfl⟩
    | newer hlt => exact Or.inr (Or.inl (by simpa [Message.term, hbody] using hlt))
    | same heq => exact Or.inr (Or.inr (Or.inl ⟨_, hbody, heq⟩))
  | @heartbeatReply t reply hbody =>
    rcases heartbeatReply_cases rf t reply with he | ⟨hnew, -⟩ | ⟨hlt, hle, -⟩
    · rw [he]
      exact Or.inl ⟨hl, rfl⟩
    · exact Or.inr (Or.inl (by simpa [Message.term, hbody] using hnew))
    · refine Or.inr (Or.inr (Or.inr (Or.inr ?_)))
      simp only [Message.demotes, hbody]
      exact ⟨hlt, hle, hl⟩
  | @appendEntries _ args rest _ hbody ha =>
    rcases lt_trichotomy args.term rf.term with hlt | heq | hgt
    · cases appendEntries_cases hs.log ha with
      | stale => exact Or.inl ⟨hl, rfl⟩
      | refused hle => omega
      | accepted hle => omega
    · exact Or.inr (Or.inr (Or.inr (Or.inl ⟨args, rest, hbody, heq⟩)))
    · exact Or.inr (Or.inl (by simpa [Message.term, hbody] using hgt))
  | appendEntriesReply hbody hrep =>
    cases replicateReply_cases hrep with
    | higher hlt => exact Or.inr (Or.inl (by simpa [Message.term, hbody] using hlt))
    | ignored | matched | pushed | rejected => exact Or.inl ⟨hl, rfl⟩

/-- **A leader is displaced only by a larger term**: in every steady run in which no term has two leaders, a step in
which a leader of term `t` that does not crash stops being leader of `t` is one in which it processes a request or reply
of a term above `t`. -/
theorem leader_displaced (hr : (machine n Cmd).Run Steady s h) (ho : OneLeader h) (ha : Steady s a)
    (hs : s.step a = some (s', evs)) (p : Fin n) (t : ℕ) (hl : (s.rf p).state = .leader) (ht : (s.rf p).term = t)
    (hinc : (s'.node p).incarnation = (s.node p).incarnation)
    (hl' : ¬ ((s'.rf p).state = .leader ∧ (s'.rf p).term = t)) : ∃ m, s.received a = some (p, m) ∧ t < m.term := by
  subst ht
  have hI := run_refines hr
  have hS := run_saved hr
  obtain ⟨l, hel⟩ := run_leader hr hl
  -- a request of the leader's own term would come from a second leader, or from the node itself
  have hself : ∀ m ∈ s.net, p = m.target → m.isRequest = true →
      (∃ l', .becameLeader m.client (s.rf p).term l' ∈ h) → False := by
    intro m hm hp hreq ⟨l', hl'⟩
    rw [Message.target, if_pos hreq] at hp
    have hclient := (run_addressed hr).net m hm
    rw [ho m.client p _ l' l hl' hel, hp] at hclient
    exact hclient List.mem_cons_self
  rcases step_at hs hinc with hsame | ⟨task, out, rfl, htask, hacts⟩ | ⟨m, out, hrec, hm, hp, hrecv⟩
  · rw [hsame] at hl'
    exact absurd ⟨hl, rfl⟩ hl'
  · have helect : task ≠ .lifeElection := by
      rintro rfl
      exact ha.2.1 hl
    obtain ⟨hst, hterm⟩ := hacts.leader helect htask
    exact absurd ⟨hst.trans hl, hterm⟩ hl'
  · rcases hrecv.leader (hS p).2 hl with hstay | hlt | ⟨args, hbody, heq⟩ | ⟨args, rest, hbody, heq⟩ | hdem
    · exact absurd hstay hl'
    · exact ⟨m, hrec, hlt⟩
    · obtain ⟨l', hl''⟩ := run_heartbeats (fun _ _ ha => ha.2.2) hr m hm args hbody
      rw [heq] at hl''
      exact (hself m hm hp (by simp [Message.isRequest, hbody]) ⟨l', hl''⟩).elim
    · have hok := hI.net m hm
      simp only [MsgOk, hbody] at hok
      obtain ⟨hid, full, hsent, -⟩ := hok
      obtain ⟨⟨l', hl''⟩, -⟩ := hI.reach.basic.events _ hsent
      rw [hid, heq] at hl''
      exact (hself m hm hp (by simp [Message.isRequest, hbody]) ⟨l', hl''⟩).elim
    · exact absurd hdem (ha.1.not hrec)

/-- after `firstElection` node 2 stands twice, and its request of term 2 is on its way to node 0 -/
def challenged : List (Action 3 ℕ) :=
  firstElection ++ [.run 2 .lifeRead, .run 2 .lifeElection, .run 2 .lifeRead, .run 2 .lifeElection]

theorem leader_displaced_challenged : ∃ (s : Cluster 3 ℕ) (h : List (Event (Fin 3) ℕ)) (s' : Cluster 3 ℕ)
    (evs : List (Event (Fin 3) ℕ)), (machine 3 ℕ).Run Steady s h ∧ s.step (.deliver 3) = some (s', evs) ∧
    (s.rf 0).state = .leader ∧ (s.rf 0).term = 1 ∧ (s'.rf 0).state = .follower ∧
    ∃ m, s.received (.deliver 3) = some (0, m) ∧ 1 < m.term := by
  obtain ⟨s, h, s', evs, hr, ha, hs, ho, ht⟩ := exists_step_of_fair
    (show ((machine 3 ℕ).exec (fun s a => FairElections s a ∧ Steady s a) challenged).any (fun r =>
      decide (FairElections r.1 (.deliver 3) ∧ Steady r.1 (.deliver 3)) &&
        (r.1.step (.deliver 3)).any fun r' => decide ((r.1.rf 0).state = .leader ∧ (r.1.rf 0).term = 1 ∧
          (r'.1.rf 0).state = .follower ∧ (r'.1.node 0).incarnation = (r.1.node 0).incarnation)) = true
      by decide +kernel)
  obtain ⟨hl, hterm, hl', hinc⟩ := of_decide_eq_true ht
  refine ⟨s, h, s', evs, hr, hs, hl, hterm, hl', ?_⟩
  exact leader_displaced hr ho.of_append ha hs 0 1 hl hterm hinc (by rw [hl']; nofun)

/-- `life` of node 0 reads that it is a candidate just before the vote of node 1 makes it leader -/
def hasty : List (Action 3 ℕ) :=
  [.run 0 .lifeRead, .run 0 .lifeElection, .run 0 .lifeRead, .deliver 0, .deliver 1]

/-- **A leader deposes itself**: `life` acts on what it read, and the leader of term 1 stands for election -/
theorem leader_deposed : ∃ (s : Cluster 3 ℕ) (h : List (Event (Fin 3) ℕ)) (s' : Cluster 3 ℕ)
    (evs : List (Event (Fin 3) ℕ)), (machine 3 ℕ).Run Machine.free s h ∧
    s.step (.run 0 .lifeElection) = some (s', evs) ∧ OneLeader (h ++ evs) ∧
    (s'.node 0).incarnation = (s.node 0).incarnation ∧ (s.rf 0).state = .leader ∧ (s.rf 0).term = 1 ∧
    (s'.rf 0).state = .candidate ∧ s.received (.run 0 .lifeElection) = none := by
  obtain ⟨s, h, s', evs, hr, -, hs, ho, ht⟩ := exists_step_of_fair
    (show ((machine 3 ℕ).exec (fun s a => FairElections s a ∧ Machine.free s a) hasty).any (fun r =>
      decide (FairElections r.1 (.run 0 .lifeElection) ∧ Machine.free r.1 (Action.run 0 .lifeElection)) &&
        (r.1.step (.run 0 .lifeElection)).any fun r' =>
          decide ((r'.1.node 0).incarnation = (r.1.node 0).incarnation ∧ (r.1.rf 0).state = .leader ∧
            (r.1.rf 0).term = 1 ∧ (r'.1.rf 0).state = .candidate)) = true by decide +kernel)
  obtain ⟨hinc, hl, hterm, hc⟩ := of_decide_eq_true ht
  exact ⟨s, h, s', evs, hr, hs, ho, hinc, hl, hterm, hc, rfl⟩

end CS240.Raft
