/-
What the harness sees of a run never trips its checks.

An applier sends an index only after the one below it (`run_consecutive`, in every run), and what it sends are entries
that leaders committed, so the reports of one index agree. Through the simulation this holds of the instances that the
tests run, as long as they are live.

- `reports_accepted`: the checker accepts the reports of live instances, in whatever order those of different servers
  reach it.
- `checkOneLeader_sound`: a round of `checkOneLeader` never sees two leaders of one term.
-/
import CS240.Raft.Checker
import CS240.Raft.Entries
import CS240.Raft.Simulation

namespace CS240.Raft

open Lib

variable {n : ℕ}

/-! ## What an applier sends -/

section Applier

variable {Cmd : Type} {s s' : Cluster n Cmd} {a : Action n Cmd} {h evs : List (Event (Fin n) Cmd)} {p : Fin n}
  {sv : Server n Cmd}

/-- what server `p` has sent on applyCh -/
def sentBy (p : Fin n) (h : List (Event (Fin n) Cmd)) : List (ApplyMsg Cmd) :=
  h.filterMap fun
    | .applied q msg => if q = p then some msg else none
    | _ => none

theorem sentBy_append (p : Fin n) (h evs : List (Event (Fin n) Cmd)) :
    sentBy p (h ++ evs) = sentBy p h ++ sentBy p evs := List.filterMap_append

theorem mem_sentBy {msg : ApplyMsg Cmd} : msg ∈ sentBy p h ↔ .applied p msg ∈ h := by
  unfold sentBy
  rw [List.mem_filterMap]
  constructor
  · rintro ⟨ev, hev, heq⟩
    split at heq
    · split_ifs at heq with hq
      cases heq
      exact hq ▸ hev
    · cases heq
  · exact fun hmem => ⟨_, hmem, by simp⟩

/-- nothing is sent in a step without applied events -/
theorem sentBy_eq_nil (hno : ∀ q msg, .applied q msg ∉ evs) (p : Fin n) : sentBy p evs = [] :=
  List.eq_nil_iff_forall_not_mem.2 fun msg hmsg => hno p msg (mem_sentBy.1 hmsg)

/-- what a task does to the applier -/
inductive Applies (sv : Server n Cmd) : Server.Result n Cmd → Prop
  | other {r : Server.Result n Cmd} : r.1.rf.lastApplied = sv.rf.lastApplied → r.1.pending = sv.pending →
      (∀ q msg, .applied q msg ∉ r.2.2) → Applies sv r
  | take {r : Server.Result n Cmd} {msg : ApplyMsg Cmd} : sv.pending = none →
      r.1.rf.lastApplied = sv.rf.lastApplied + 1 → r.1.pending = some msg → msg.index = sv.rf.lastApplied + 1 →
      r.2.2 = [] → Applies sv r
  | send {r : Server.Result n Cmd} {msg : ApplyMsg Cmd} : sv.pending = some msg →
      r.1.rf.lastApplied = sv.rf.lastApplied → r.1.pending = none → r.2.2 = [.applied sv.rf.me msg] → Applies sv r
  | fresh {r : Server.Result n Cmd} : r.1.rf.lastApplied = 0 → r.1.pending = none → r.2.2 = [] → Applies sv r

theorem boot_applies (sv : Server n Cmd) (me : Fin n) (persister : List (Gob Cmd)) (inc : ℕ) :
    Applies sv (Server.boot me persister inc, [], []) := by
  refine .fresh ?_ rfl rfl
  unfold Server.boot Raft.make Raft.readPersist
  dsimp only
  split <;> rfl

theorem election_applies (sv : Server n Cmd) : Applies sv sv.election := by
  unfold Server.election Raft.startElection
  dsimp only
  split_ifs
  · exact .other rfl rfl (by simp)
  · exact .other rfl rfl (by simp)

theorem runGoroutine_applies {k : ℕ} {r : Server.Result n Cmd} (hr : sv.runGoroutine k = some r) : Applies sv r := by
  unfold Server.runGoroutine at hr
  split at hr
  · cases hr
  · cases hr; exact .other rfl rfl (by simp)
  · cases hr; exact .other rfl rfl (by simp)
  · split at hr
    · cases hr
    · rename_i hsend
      cases hr
      exact .other (by rw [replicateSend_none hsend]) rfl (by simp)
    · rename_i hsend
      cases hr
      obtain ⟨-, next, rfl⟩ := replicateSend_some hsend
      exact .other rfl rfl (by simp)

theorem run_applies {task : Server.Task Cmd} {r : Server.Result n Cmd} (hr : sv.run task = some r) : Applies sv r := by
  cases task with
  | lifeRead | lifeSleep | lifeHeartbeat =>
    simp only [Server.run] at hr
    split_ifs at hr
    cases hr
    exact .other rfl rfl (by simp)
  | lifeElection =>
    simp only [Server.run] at hr
    split_ifs at hr
    cases hr
    exact election_applies sv
  | goroutine k => exact runGoroutine_applies hr
  | apply =>
    simp only [Server.run] at hr
    split_ifs at hr with hnone
    cases hr
    rcases applier_cases sv.rf with he | ⟨e, -, -, he⟩
    · exact .other (by simp [he]) (by simp [he, hnone]) (by simp)
    · exact .take hnone (by simp [he]) (by rw [he]) rfl rfl
  | applySend =>
    simp only [Server.run] at hr
    split at hr
    · cases hr
    · rename_i msg hmsg
      cases hr
      exact .send hmsg rfl rfl rfl
  | start command =>
    have hlast : (sv.rf.start command).1.lastApplied = sv.rf.lastApplied := by
      unfold Raft.start Raft.persist
      split_ifs <;> rfl
    simp only [Server.run] at hr
    split_ifs at hr <;> cases hr <;> exact .other hlast rfl (by simp)
  | restart =>
    cases hr
    exact boot_applies sv _ _ _

/-- the applier of a server has sent everything up to what it took last -/
structure InTurn (sent : List (ApplyMsg Cmd)) (sv : Server n Cmd) : Prop where
  pending : ∀ msg, sv.pending = some msg → msg.index = sv.rf.lastApplied ∧ 1 ≤ msg.index
  sent : ∀ j, 1 ≤ j → j ≤ sv.rf.lastApplied →
    (∃ msg ∈ sent, msg.index = j) ∨ ∃ msg, sv.pending = some msg ∧ msg.index = j

/-- no index is sent before the one below it -/
def Consecutive (sent : List (ApplyMsg Cmd)) : Prop :=
  ∀ l₁ msg l₂, sent = l₁ ++ msg :: l₂ → 1 < msg.index → ∃ msg' ∈ l₁, msg'.index + 1 = msg.index

theorem Applies.inTurn {r : Server.Result n Cmd} {sent : List (ApplyMsg Cmd)} (ha : Applies sv r) (hme : sv.rf.me = p)
    (hin : InTurn sent sv) (hcons : Consecutive sent) :
    InTurn (sent ++ sentBy p r.2.2) r.1 ∧ Consecutive (sent ++ sentBy p r.2.2) := by
  cases ha with
  | other hlast hpend hno =>
    rw [sentBy_eq_nil hno, List.append_nil]
    exact ⟨⟨by rw [hpend, hlast]; exact hin.pending, by rw [hpend, hlast]; exact hin.sent⟩, hcons⟩
  | @take msg hnone hlast hpend hidx hevs =>
    rw [hevs]
    refine ⟨⟨fun msg' h => ?_, fun j hj hle => ?_⟩, by rwa [sentBy, List.filterMap_nil, List.append_nil]⟩
    · cases hpend.symm.trans h
      omega
    · rw [sentBy, List.filterMap_nil, List.append_nil]
      rcases Nat.lt_or_eq_of_le hle with hlt | rfl
      · refine .inl ((hin.sent j hj (by omega)).resolve_right fun ⟨msg', h, _⟩ => ?_)
        rw [hnone] at h
        cases h
      · exact .inr ⟨msg, hpend, by omega⟩
  | @send msg hpend hlast hnone hevs =>
    have hsent : sentBy p r.2.2 = [msg] := by
      rw [hevs]
      simp [sentBy, hme]
    rw [hsent]
    obtain ⟨hidx, hpos⟩ := hin.pending msg hpend
    refine ⟨⟨fun msg' h => absurd (hnone.symm.trans h) nofun, fun j hj hle => .inl ?_⟩, ?_⟩
    · rcases hin.sent j hj (by omega) with ⟨msg', hm', hj'⟩ | ⟨msg', hp', hj'⟩
      · exact ⟨msg', List.mem_append_left _ hm', hj'⟩
      · cases hpend.symm.trans hp'
        exact ⟨msg, List.mem_append_right _ List.mem_cons_self, hj'⟩
    · -- what is sent now is the entry the applier took, and all before it were sent
      refine Machine.forall_split_snoc (P := fun (l₁ : List (ApplyMsg Cmd)) msg =>
        1 < msg.index → ∃ msg' ∈ l₁, msg'.index + 1 = msg.index) hcons ?_
      intro hlt
      rcases hin.sent (msg.index - 1) (by omega) (by omega) with ⟨msg', hm', hj'⟩ | ⟨msg', hp', hj'⟩
      · exact ⟨msg', hm', by omega⟩
      · cases hpend.symm.trans hp'
        omega
  | fresh hlast hnone hevs =>
    rw [hevs, sentBy, List.filterMap_nil, List.append_nil]
    exact ⟨⟨fun msg h => absurd (hnone.symm.trans h) nofun, fun j hj hle => by omega⟩, hcons⟩

theorem InTurn.congr {sv' : Server n Cmd} {sent : List (ApplyMsg Cmd)} (hin : InTurn sent sv)
    (hlast : sv'.rf.lastApplied = sv.rf.lastApplied) (hpend : sv'.pending = sv.pending) : InTurn sent sv' :=
  ⟨by rw [hpend, hlast]; exact hin.pending, by rw [hpend, hlast]; exact hin.sent⟩

theorem step_inTurn (hS : ∀ p, (s.rf p).me = p ∧ Saved (s.rf p))
    (hI : ∀ p, InTurn (sentBy p h) (s.node p) ∧ Consecutive (sentBy p h)) (hs : s.step a = some (s', evs)) (p : Fin n) :
    InTurn (sentBy p (h ++ evs)) (s'.node p) ∧ Consecutive (sentBy p (h ++ evs)) := by
  rw [sentBy_append]
  have hfailed : ∀ {sv : Server n Cmd} {m : Message n Cmd}, sv = s.node p ∨ sv = (s.node p).failed m →
      InTurn (sentBy p h) sv ∧ Consecutive (sentBy p h) := by
    rintro sv m (rfl | rfl)
    · exact hI p
    · exact ⟨(hI p).1.congr (by rw [failed_rf]) (failed_pending _ _), (hI p).2⟩
  cases step_cases hs with
  | @run q task r hr =>
    by_cases hq : p = q
    · subst hq
      rw [node_put_self]
      exact (run_applies hr).inTurn (hS p).1 (hI p).1 (hI p).2
    · rw [node_put_of_ne hq]
      have hnil : sentBy p r.2.2 = [] := by
        refine List.eq_nil_iff_forall_not_mem.2 fun msg hmsg => hq ?_
        cases run_applies hr with
        | other _ _ hno => exact absurd (mem_sentBy.1 hmsg) (hno p msg)
        | take _ _ _ _ hevs | fresh _ _ hevs => rw [hevs] at hmsg; cases hmsg
        | send _ _ _ hevs =>
          rw [mem_sentBy, hevs, List.mem_singleton, Event.applied.injEq] at hmsg
          exact hmsg.1.trans (hS q).1
      show InTurn (sentBy p h ++ sentBy p r.2.2) _ ∧ _
      rw [hnil, List.append_nil]
      exact hI p
  | @handle k m q r hm hrec hr =>
    show InTurn (sentBy p h ++ sentBy p r.2.2) _ ∧ Consecutive (sentBy p h ++ sentBy p r.2.2)
    rw [sentBy_eq_nil (handle_receives hr).applied, List.append_nil]
    by_cases hq : p = q
    · subst hq
      rw [node_put_self]
      exact ⟨(hI p).1.congr ((handle_receives hr).lastApplied_eq (hS p).2) (handle_pending hr), (hI p).2⟩
    · rw [node_put_of_ne hq]
      exact hI p
  | orphan =>
    rw [sentBy, sentBy, List.filterMap_nil, List.append_nil]
    exact hI p
  | lose hm hl =>
    rw [sentBy, sentBy, List.filterMap_nil, List.append_nil]
    exact hfailed (hl.node p)
  | abandon hm =>
    rw [sentBy, sentBy, List.filterMap_nil, List.append_nil]
    exact hfailed (node_put_failed _ _ _ p)
  | @crashIn k m s₁ hm hterm hl =>
    by_cases hq : p = m.server
    · subst hq
      rw [Cluster.crash, node_put_self]
      exact (boot_applies (s.node m.server) _ _ _).inTurn (hS _).1 (hI _).1 (hI _).2
    · rw [Cluster.crash, node_put_of_ne hq, sentBy, sentBy, List.filterMap_nil, List.append_nil]
      exact hfailed (hl.node p)

/-- **Appliers send in order**: in every run, no server sends an index on applyCh before the one below it. -/
theorem run_consecutive {ok : Cluster n Cmd → Action n Cmd → Prop} (hr : (machine n Cmd).Run ok s h) (p : Fin n) :
    Consecutive (sentBy p h) := by
  have hall : ∀ p, InTurn (sentBy p h) (s.node p) ∧ Consecutive (sentBy p h) := by
    induction hr with
    | init =>
      refine fun p => ⟨⟨nofun, fun j hj hle => ?_⟩, fun l₁ msg l₂ heq => ?_⟩
      · have hzero : j ≤ 0 := hle
        omega
      · cases l₁ <;> cases heq
    | step hr _ hs ih => exact step_inTurn (run_saved hr) ih hs
  exact (hall p).2

/-- two messages that leaders' commits justify agree -/
theorem justified_agree {ok : Cluster n Cmd → Action n Cmd → Prop} (hok : ∀ s a, ok s a → Faultless s a)
    (hr : (machine n Cmd).Run ok s h) {msg msg' : ApplyMsg Cmd} (hj : Justified h msg) (hj' : Justified h msg')
    (hidx : msg.index = msg'.index) : msg.command = msg'.command := by
  have ho := run_oneLeader (fun _ _ ha => (hok _ _ ha).1) hr
  have hh := run_sound (fun _ _ ha => (hok _ _ ha).careful) hr ho
  obtain ⟨c, t, N, l, e, hc, hN, he, hcmd⟩ := hj
  obtain ⟨c', t', N', l', e', hc', hN', he', hcmd'⟩ := hj'
  have hagree := (run_refines hr).reach.committed_agree hh.oneLeader hh.noCut hh.backed hc hc' hN (hidx ▸ hN')
  rw [he, hidx, he'] at hagree
  calc msg.command = e.command := hcmd.symm
    _ = e'.command := by rw [Option.some.inj hagree]
    _ = msg'.command := hcmd'

end Applier

/-! ## Reports of a run -/

section Reports

variable {s : Cluster n ℤ} {h : List (Event (Fin n) ℤ)} {rs : List (Report n)}

/-- the reports of one server -/
def ofServer (i : Fin n) (rs : List (Report n)) : List (ApplyMsg ℤ) := (rs.filter fun r => r.1 = i).map Prod.snd

theorem mem_ofServer {i : Fin n} {m : ApplyMsg ℤ} : m ∈ ofServer i rs ↔ (i, m) ∈ rs := by
  simp [ofServer]

/-- every server's reports are seen in the order in which it sent them, some perhaps not yet -/
def Seen (h : List (Event (Fin n) ℤ)) (rs : List (Report n)) : Prop := ∀ i, ofServer i rs <+: sentBy i h

theorem Seen.mem (hseen : Seen h rs) {r : Report n} (hr : r ∈ rs) : .applied r.1 r.2 ∈ h :=
  mem_sentBy.1 ((hseen r.1).subset (mem_ofServer.2 hr))

/-- what is applied at one index is the same everywhere -/
theorem run_applied_command {ok : Cluster n ℤ → Action n ℤ → Prop} (hok : ∀ s a, ok s a → Faultless s a)
    (hr : (machine n ℤ).Run ok s h) {p q : Fin n} {msg msg' : ApplyMsg ℤ} (hm : .applied p msg ∈ h)
    (hm' : .applied q msg' ∈ h) (hidx : msg.index = msg'.index) : msg.command = msg'.command := by
  have ho := run_oneLeader (fun _ _ ha => (hok _ _ ha).1) hr
  have hA := run_appliedOk (fun _ _ ha => (hok _ _ ha).careful) hr ho
  exact justified_agree hok hr (hA.applied _ _ hm) (hA.applied _ _ hm') hidx

/-- however the reports of the servers are interleaved, the checker sees no error -/
theorem run_orderly {ok : Cluster n ℤ → Action n ℤ → Prop} (hok : ∀ s a, ok s a → Faultless s a)
    (hr : (machine n ℤ).Run ok s h) (hint : ∀ p t i command, .started p t i command ∈ h → command.isSome)
    (hseen : Seen h rs) : Orderly rs := by
  refine ⟨fun r hmem => ?_, fun r hmem r' hmem' hidx => ?_, fun rs₁ i m rs₂ heq hlt => ?_⟩
  · obtain ⟨q, t, hstart⟩ := (run_returned hr).2 r.1 r.2 (hseen.mem hmem)
    exact hint q t _ _ hstart
  · exact run_applied_command hok hr (hseen.mem hmem) (hseen.mem hmem') hidx
  · have hsplit : ofServer i rs = ofServer i rs₁ ++ m :: ofServer i rs₂ := by
      rw [heq]
      simp [ofServer]
    obtain ⟨rest, hrest⟩ := hseen i
    rw [hsplit, List.append_assoc, List.cons_append] at hrest
    obtain ⟨m', hm', hidx⟩ := run_consecutive hr i _ m _ hrest.symm hlt
    exact ⟨m', mem_ofServer.1 hm', hidx⟩

namespace Config

variable {E : Type} [DecidableEq E] {c : Config n ℤ E} {h : List (Event n ℤ)}

theorem live_orderly (hr : (machine n ℤ E).Run (Tame faulty) c h)
    (hint : ∀ p t i command, .raft true (.started p t i command) ∈ h → command.isSome)
    (hseen : Seen (liveEvents h) rs) : Orderly rs := by
  obtain ⟨s, hrun, -⟩ := run_simulated faulty_insensitive hr
  exact run_orderly (fun _ _ ha => faultless_of_avoids ha) hrun
    (fun p t i command hst => hint p t i command (mem_liveEvents.1 hst)) hseen

/-- **Live servers report no error.** In every run of the tested system in which no live instance forgets a vote, counts
a stale one or cuts its log without a conflict, and tests start only ints, the reports of live instances pass the
checker, however those of different servers are interleaved; whatever is crashed, restarted, partitioned and delayed. -/
theorem reports_accepted (hr : (machine n ℤ E).Run (Tame faulty) c h)
    (hint : ∀ p t i command, .raft true (.started p t i command) ∈ h → command.isSome)
    (rs : List (Report n)) (hseen : Seen (liveEvents h) rs) : ∃ logs, checkAll noLogs rs = .ok logs :=
  (live_orderly hr hint hseen).accepted

end Config

instance (h : List (Event (Fin n) ℤ)) (rs : List (Report n)) : Decidable (Seen h rs) :=
  inferInstanceAs (Decidable (∀ _, _))

/-- after `oneVote` the first server replicates and commits 7, and both servers apply it -/
def Config.oneCommit : List (Config.Action 2 ℤ ℕ) :=
  oneVote ++ [.run 0 0 (.start (some 7)), .run 0 0 (.goroutine 1)] ++ answered 1 ++ [.run 0 0 (.goroutine 2)] ++
    answered 2 ++ [.run 0 0 .apply, .run 0 0 .applySend, .run 1 0 .apply, .run 1 0 .applySend]

/-- the reports of this run, that of the second server first -/
def Config.twoReports : List (Report 2) := [(1, ⟨1, some 7⟩), (0, ⟨1, some 7⟩)]

/-- a live instance is given ints only -/
def Config.Event.startsInt : Config.Event n ℤ → Bool
  | .raft true (.started _ _ _ command) => command.isSome
  | _ => true

/-- the term that `GetState` returns for server `i`; none if the harness has no instance of it -/
def Config.termOf {Cmd E : Type} (c : Config n Cmd E) (i : Fin n) : Option ℕ :=
  (c.ctl.rafts i).bind fun inc => (c.instance? i inc).map fun sv => sv.rf.term

theorem Config.exists_oneCommit : ∃ (c : Config 2 ℤ ℕ) (h : List (Config.Event 2 ℤ)),
    (machine 2 ℤ ℕ).Run (Tame faulty) c h ∧
      (∀ p t i command, .raft true (.started p t i command) ∈ h → command.isSome) ∧
    Seen (liveEvents h) twoReports ∧ .started 0 1 1 (some 7) ∈ liveEvents h ∧ ∀ i, c.termOf i = some 1 := by
  obtain ⟨c, h, hr, ht⟩ := Machine.exists_run_of_exec
    (show ((machine 2 ℤ ℕ).exec (Tame faulty) oneCommit).any (fun r =>
      decide (Seen (liveEvents r.2) twoReports ∧ .started 0 1 1 (some 7) ∈ liveEvents r.2 ∧
        ∀ i, r.1.termOf i = some 1) && r.2.all Event.startsInt) = true by decide +kernel)
  obtain ⟨hrun, hall⟩ := Bool.and_eq_true_iff.1 ht
  exact ⟨c, h, hr, fun p t i command hmem => List.all_eq_true.1 hall _ hmem, of_decide_eq_true hrun⟩

theorem Config.reports_accepted_oneCommit : ∃ (c : Config 2 ℤ ℕ) (h : List (Config.Event 2 ℤ)),
    (machine 2 ℤ ℕ).Run (Tame faulty) c h ∧ Seen (liveEvents h) twoReports ∧
    ∃ logs : Logs 2, checkAll noLogs twoReports = .ok logs := by
  obtain ⟨c, h, hr, hint, hseen, -⟩ := exists_oneCommit
  exact ⟨c, h, hr, hseen, reports_accepted hr hint _ hseen⟩

end Reports

/-! ## Leaders of a run -/

namespace Config

variable {Cmd E : Type} [DecidableEq E] {c : Config n Cmd E} {h : List (Event n Cmd)}

/-- the messages at which elections go wrong -/
def unfair (m : Message n Cmd) (rf : Raft n Cmd) : Prop := m.forgetsVote rf ∨ m.countsStale rf

instance (m : Message n Cmd) (rf : Raft n Cmd) : Decidable (unfair m rf) := inferInstanceAs (Decidable (_ ∨ _))

/-- what `GetState` is called on: the instance of a started server, at some time of the run -/
def Observed (c : Config n Cmd E) (h : List (Event n Cmd)) (i : Fin n) (rf : Raft n Cmd) : Prop :=
  ∃ c₁ h₁ inc sv, (machine n Cmd E).Run (Tame unfair) c₁ h₁ ∧ (machine n Cmd E).Path (Tame unfair) c₁ h₁ c h ∧
    c₁.live i inc = true ∧ c₁.instance? i inc = some sv ∧ sv.rf = rf

theorem liveEvents_subset {h₁ h₂ : List (Event n Cmd)} (hsub : h₁ ⊆ h₂) : liveEvents h₁ ⊆ liveEvents h₂ :=
  fun _ hev => mem_liveEvents.2 (hsub (mem_liveEvents.1 hev))

/-- a leader that is observed was elected, by a live instance -/
theorem Observed.elected {i : Fin n} {rf : Raft n Cmd} (hobs : Observed c h i rf) (hst : rf.state = .leader) :
    ∃ l, .becameLeader i rf.term l ∈ liveEvents h := by
  obtain ⟨c₁, h₁, inc, sv, hr₁, hp, hlive, hsv, rfl⟩ := hobs
  obtain ⟨s₁, hrun, hsim⟩ := run_simulated (fun _ _ _ hb => hb) hr₁
  have hnode : s₁.node i = sv := Option.some.inj (((hsim.node i).live inc hlive).symm.trans hsv)
  have hrf : s₁.rf i = sv.rf := congrArg Server.rf hnode
  obtain ⟨l, hl⟩ := run_leader (p := i) hrun (by rw [hrf]; exact hst)
  rw [hrf] at hl
  exact ⟨l, liveEvents_subset hp.history.subset hl⟩

/-- **checkOneLeader never finds two leaders of one term**, although it asks the servers one after the other while
elections go on, and the server it returns leads in a greater term than every other leader it saw; in every run of the
tested system in which no live instance forgets a vote or counts a stale one. -/
theorem checkOneLeader_sound (hr : (machine n Cmd E).Run (Tame unfair) c h) (reads : Fin n → Option (Raft n Cmd))
    (hobs : ∀ i rf, reads i = some rf → Observed c h i rf) :
    ∃ r, checkOneLeader reads = some r ∧ ∀ i, r = some i → ∃ rf, reads i = some rf ∧ rf.state = .leader ∧
      ∀ j rf', reads j = some rf' → rf'.state = .leader → j ≠ i → rf'.term < rf.term := by
  obtain ⟨s, hrun, -⟩ := run_simulated (fun _ _ _ hb => hb) hr
  have ho : OneLeader (liveEvents h) := by
    refine run_oneLeader (fun s a ha => ⟨avoids_mono (fun _ _ => .inl) ha, avoids_mono (fun _ _ => .inr) ha⟩) hrun
  refine checkOneLeader_unique fun i j rf rf' hi hj hst hst' heq => ?_
  obtain ⟨l, hl⟩ := (hobs i rf hi).elected hst
  obtain ⟨l', hl'⟩ := (hobs j rf' hj).elected hst'
  rw [← heq] at hl'
  exact ho i j rf.term l l' hl hl'

/-- after `oneVote` both servers are asked, and the first one is the leader -/
theorem checkOneLeader_sound_oneVote : ∃ (c : Config 2 ℕ ℕ) (h : List (Event 2 ℕ)) (reads : Fin 2 → Option (Raft 2 ℕ)),
    (machine 2 ℕ ℕ).Run (Tame unfair) c h ∧ (∀ i rf, reads i = some rf → Observed c h i rf) ∧
    checkOneLeader reads = some (some 0) ∧ ∃ rf, reads 0 = some rf ∧ rf.term = 1 := by
  obtain ⟨c, h, hr, ht⟩ := Machine.exists_run_of_exec
    (show ((machine 2 ℕ ℕ).exec (Tame unfair) oneVote).any (fun r =>
      decide (r.1.live 0 0 = true ∧ r.1.live 1 0 = true) && decide (checkOneLeader
        (fun i => (r.1.instance? i 0).map fun sv => sv.rf) = some (some 0)) &&
        (r.1.instance? 0 0).any fun sv => decide (sv.rf.term = 1)) = true by decide +kernel)
  simp only [Bool.and_eq_true, Option.any_eq_true, decide_eq_true_eq] at ht
  obtain ⟨⟨⟨h0, h1⟩, hcheck⟩, sv, hsv, hterm⟩ := ht
  let reads : Fin 2 → Option (Raft 2 ℕ) := fun i => (c.instance? i 0).map fun sv => sv.rf
  have hobs : ∀ i rf, reads i = some rf → Observed c h i rf := by
    intro i rf hi
    obtain ⟨sv, hsv, rfl⟩ := Option.map_eq_some_iff.1 hi
    have hlive : c.live i 0 = true := by
      fin_cases i
      · exact h0
      · exact h1
    exact ⟨c, h, 0, sv, hr, .refl, hlive, hsv, rfl⟩
  obtain ⟨r, hr', hlead⟩ := checkOneLeader_sound hr reads hobs
  cases hcheck.symm.trans hr'
  obtain ⟨rf, hrf, -⟩ := hlead 0 rfl
  refine ⟨c, h, reads, hr, hobs, hcheck, rf, hrf, ?_⟩
  have hrf' : reads 0 = some sv.rf := by
    show (c.instance? 0 0).map _ = _
    rw [hsv]
    rfl
  cases hrf.symm.trans hrf'
  exact hterm

end Config

end CS240.Raft
