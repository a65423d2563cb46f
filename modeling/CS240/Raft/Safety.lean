/-
Safety of what is committed and applied.

- `leader_complete`: what a leader committed is in the log of every leader of a later term;
- `committed_stays`: a running node keeps its log up to its commit index, never lowers that index, and keeps it between
  what it applied and what it has;
- `applied_agree`: whatever is sent on the applyCh of any node at one index is the same command.

The first two are stated for runs in which no term has two leaders, no candidate counts a vote of an earlier election
and no request cuts a log without a conflict (`Careful`); in the third the elections are fair too, and the single
leaders follow. Each is followed by a run of the code that breaks it: an old AppendEntries request makes a follower drop
what the leader has already committed, or two leaders of one term commit different entries.
-/
import CS240.Raft.Applier
import CS240.Raft.Replication
import CS240.Raft.Commitment

namespace CS240.Raft

open Lib

variable {n : ℕ} {Cmd : Type} {rf rf' : Raft n Cmd} {p : Fin n} {h evs : List (Event (Fin n) Cmd)}
  {s s' : Cluster n Cmd} {a : Action n Cmd} {ok : Cluster n Cmd → Action n Cmd → Prop}

/-- neither a stale vote nor a cut without a conflict -/
def Careful (s : Cluster n Cmd) (a : Action n Cmd) : Prop := Avoids Message.countsStale s a ∧ Avoids Message.cuts s a

instance : DecidableRel (@Careful n Cmd) := fun _ _ => inferInstanceAs (Decidable (_ ∧ _))

/-! ## Leader completeness -/

/-- **Leader completeness**: in every careful run in which no term has two leaders, an entry up to an index the leader
of term `t` committed is in the log with which any node becomes leader in a later term. -/
theorem leader_complete (hr : (machine n Cmd).Run Careful s h) (ho : OneLeader h) (L c : Fin n) (t t' N i : ℕ)
    (log cl : List (LogEntry Cmd)) (hc : .committed L t N log ∈ h) (hi : i ≤ N) (hl : .becameLeader c t' cl ∈ h)
    (ht : t < t') : ∃ e, log[i]? = some e ∧ cl[i]? = some e := by
  have hI := run_refines hr
  have hpre := hI.reach.complete ho (run_noCut (fun _ _ ha => ha.2) hr) (run_backed (fun _ _ ha => ha.1) hr) hc ht
    ⟨c, hl⟩
  obtain ⟨-, -, e, he, -⟩ := hI.reach.basic.events _ hc
  have hlt := (List.getElem?_eq_some_iff.1 he).1
  have hget : log[i]? = some log[i] := List.getElem?_eq_getElem (by omega)
  exact ⟨_, hget, prefix_getElem? hpre (by rw [List.getElem?_take_of_lt (by omega), hget])⟩

/-- node 1 becomes leader in term 2 with the vote of node 2 -/
def secondElection : List (Action 3 ℕ) := [.run 1 .lifeRead, .run 1 .lifeElection, .deliver 3, .deliver 3]

theorem leader_complete_secondElection : ∃ s h cl, (machine 3 ℕ).Run Careful s h ∧ OneLeader h ∧
    .committed 0 1 2 [sentinel, ⟨1, some 7⟩, ⟨1, some 8⟩] ∈ h ∧ .becameLeader 1 2 cl ∈ h ∧
    cl[2]? = some ⟨1, some 8⟩ := by
  obtain ⟨s, h, hr, ho, ht⟩ := exists_run_of_fair
    (show ((machine 3 ℕ).exec (fun s a => FairElections s a ∧ Careful s a) (overtaken ++ secondElection)).any
      (fun r => decide (.committed 0 1 2 [sentinel, ⟨1, some 7⟩, ⟨1, some 8⟩] ∈ r.2 ∧
        .becameLeader 1 2 [sentinel, ⟨1, some 7⟩, ⟨1, some 8⟩] ∈ r.2)) = true by decide +kernel)
  obtain ⟨hc, hl⟩ := of_decide_eq_true ht
  obtain ⟨e, he, hcl⟩ := leader_complete hr ho 0 1 1 2 2 2 _ _ hc le_rfl hl (by decide)
  exact ⟨s, h, _, hr, ho, hc, hl, hcl.trans he.symm⟩

/-- **A committed entry is lost**: after `overtaken` the request `[7]` reaches node 1, which drops the committed 8 and
becomes leader in term 2 without it -/
theorem leader_incomplete : ∃ s h, (machine 3 ℕ).Run Machine.free s h ∧ OneLeader h ∧
    .committed 0 1 2 [sentinel, ⟨1, some 7⟩, ⟨1, some 8⟩] ∈ h ∧ .becameLeader 1 2 [sentinel, ⟨1, some 7⟩] ∈ h := by
  obtain ⟨s, h, hr, ho, ht⟩ := exists_run_of_fair
    (show ((machine 3 ℕ).exec (fun s a => FairElections s a ∧ Machine.free s a)
        (overtaken ++ .deliver 1 :: secondElection)).any
      (fun r => decide (.committed 0 1 2 [sentinel, ⟨1, some 7⟩, ⟨1, some 8⟩] ∈ r.2 ∧
        .becameLeader 1 2 [sentinel, ⟨1, some 7⟩] ∈ r.2)) = true by decide +kernel)
  exact ⟨s, h, hr, ho, of_decide_eq_true ht⟩

/-! ## The committed part of a node's log -/

/-- a section of a running node applies at most what is committed -/
theorem Acts.lastApplied_le {sv : Server n Cmd} {task : Server.Task Cmd} {out : List (Message n Cmd)}
    (hs : Saved sv.rf) (ha : Acts sv task rf' out evs) (hle : sv.rf.lastApplied ≤ sv.rf.commitIndex) :
    rf'.lastApplied ≤ sv.rf.commitIndex := by
  cases ha with
  | idle | beat | applySend => exact hle
  | election _ he =>
    obtain ⟨rfl, -⟩ := startElection_some he
    exact hle
  | win _ he =>
    obtain ⟨rfl, -⟩ := startElection_none he
    exact hle
  | send hsend =>
    obtain ⟨-, next, rfl⟩ := replicateSend_some hsend
    exact hle
  | apply =>
    rcases applier_cases sv.rf with he | ⟨e, hlt, -, he⟩ <;> rw [he]
    · exact hle
    · exact hlt
  | start hl => rw [start_leader hl]; exact hle
  | restart => rw [hs.made]; exact Nat.zero_le _

theorem stepDownLocked_lastApplied (rf : Raft n Cmd) (t : ℕ) : (rf.stepDownLocked t).lastApplied = rf.lastApplied := by
  unfold Raft.stepDownLocked Raft.persist
  dsimp only
  split_ifs <;> rfl

/-- messages do not touch the applier -/
theorem Receives.lastApplied_eq {m : Message n Cmd} {out : List (Message n Cmd)} (hs : Saved rf)
    (hr : Receives rf m rf' out evs) : rf'.lastApplied = rf.lastApplied := by
  cases hr with
  | @requestVote _ args _ _ hv =>
    have hup := (raised_rest rf args.electionTerm).2.2.2
    cases requestVote_cases hv with
    | stale => rfl
    | refused => exact hup
    | granted => exact hup
  | requestVoteReply _ hv =>
    cases requestVoteReply_cases hv with
    | higher => exact stepDownLocked_lastApplied _ _
    | refused | counted | won => rfl
  | heartbeat _ hb => cases heartbeat_cases hb <;> rfl
  | heartbeatReply =>
    unfold Raft.heartbeatReply
    split_ifs
    · exact stepDownLocked_lastApplied _ _
    · rfl
  | @appendEntries _ args _ _ _ ha =>
    have hup := (adopted_rest rf args.term).2.2.2
    cases appendEntries_cases hs.log ha with
    | stale => rfl
    | refused => exact hup
    | accepted => exact hup
  | appendEntriesReply _ hrep =>
    cases replicateReply_cases hrep with
    | higher => exact stepDownLocked_lastApplied _ _
    | ignored | matched | pushed | rejected => rfl

/-- the hypotheses of `Commitment` on a history -/
structure Sound (h : List (Event (Fin n) Cmd)) : Prop where
  oneLeader : OneLeader h
  noCut : NoCut h
  backed : Backed h

theorem Sound.of_append (hh : Sound (h ++ evs)) : Sound h := ⟨hh.1.of_append, hh.2.of_append, hh.3.of_append⟩

theorem run_sound (hok : ∀ s a, ok s a → Careful s a) (hr : (machine n Cmd).Run ok s h) (ho : OneLeader h) : Sound h :=
  ⟨ho, run_noCut (fun s a ha => (hok s a ha).2) hr, run_backed (fun s a ha => (hok s a ha).1) hr⟩

/-- a section of a running node leaves the committed part of its log alone -/
theorem Carries.keepsCommitted {out : List (Message n Cmd)} {R : Fin n → Raft n Cmd}
    (hr : Reach (fun p => (R p).core) h) (hc : Carries p h (R p) rf' out evs) (hh : Sound (h ++ evs)) :
    (R p).commitIndex ≤ rf'.commitIndex ∧ (R p).log.take ((R p).commitIndex + 1) <+: rf'.log :=
  Moves.keepsCommitted (C := fun p => (R p).core) hr hc.moves hh.oneLeader hh.noCut hh.backed

theorem step_lastApplied (hI : Refines s.rf s.net h) (hS : ∀ p, (s.rf p).me = p ∧ Saved (s.rf p))
    (hA : Sound h → ∀ p, (s.rf p).lastApplied ≤ (s.rf p).commitIndex) (hs : s.step a = some (s', evs)) :
    Sound (h ++ evs) → ∀ p, (s'.rf p).lastApplied ≤ (s'.rf p).commitIndex := by
  have update : ∀ (h' : List (Event (Fin n) Cmd)) p rf, (Sound h' → Sound h) →
      (Sound h' → rf.lastApplied ≤ rf.commitIndex) → Sound h' →
      ∀ q, (Function.update s.rf p rf q).lastApplied ≤ (Function.update s.rf p rf q).commitIndex := by
    intro h' p rf hh hrf hh'
    exact (Function.forall_update_iff s.rf fun _ rf => rf.lastApplied ≤ rf.commitIndex).2
      ⟨hrf hh', fun q _ => hA (hh hh') q⟩
  refine step_preserves (J := fun R _ h => Sound h → ∀ q, (R q).lastApplied ≤ (R q).commitIndex) hs (fun _ => hA)
    (fun _ _ _ => hA) ?_ ?_ ?_
  · intro net p t _ _
    refine update h p _ id fun _ => ?_
    rw [crash_made (hS p).2]
    exact le_rfl
  · intro p task rf out evs _ ha
    refine update _ p _ Sound.of_append fun hh => ?_
    rcases hI.acts (hS p).1 ha with hc | ⟨-, rfl, -, -⟩
    · have hkeep := (Carries.keepsCommitted (R := s.rf) hI.reach hc hh).1
      exact (ha.lastApplied_le (hS p).2 (hA hh.of_append p)).trans hkeep
    · rw [(hS p).2.made]
      exact le_rfl
  · intro p m k rf out evs _ hk hp hr
    refine update _ p _ Sound.of_append fun hh => ?_
    have hc := hI.receives (hS p).1 (List.mem_of_getElem? hk) hp hr
    rw [hr.lastApplied_eq (hS p).2]
    exact (hA hh.of_append p).trans (Carries.keepsCommitted (R := s.rf) hI.reach hc hh).1

theorem run_lastApplied (hr : (machine n Cmd).Run ok s h) :
    Sound h → ∀ p, (s.rf p).lastApplied ≤ (s.rf p).commitIndex := by
  induction hr with
  | init => exact fun _ p => le_rfl
  | step hr _ hs ih => exact step_lastApplied (run_refines hr) (run_saved hr) ih hs

/-- **The committed part of a log is immutable**: in every careful run in which no term has two leaders, a step in which
a node does not crash leaves its entries up to its commit index as they are and does not lower that index; and after the
step the index lies between what was applied and what is in the log. -/
theorem committed_stays (hr : (machine n Cmd).Run Careful s h) (ha : Careful s a) (hs : s.step a = some (s', evs))
    (ho : OneLeader (h ++ evs)) (p : Fin n) (hinc : (s'.node p).incarnation = (s.node p).incarnation) :
    (∀ i ≤ (s.rf p).commitIndex, (s'.rf p).log[i]? = (s.rf p).log[i]?) ∧
    (s.rf p).commitIndex ≤ (s'.rf p).commitIndex ∧
    (s'.rf p).lastApplied ≤ (s'.rf p).commitIndex ∧ (s'.rf p).commitIndex ≤ (s'.rf p).lastLogIndexLocked := by
  have hI := run_refines hr
  have hS := run_saved hr
  have hr' : (machine n Cmd).Run Careful s' (h ++ evs) := hr.step ha hs
  have hh := run_sound (fun _ _ ha => ha) hr' ho
  have hkeep : (s.rf p).commitIndex ≤ (s'.rf p).commitIndex ∧
      (s.rf p).log.take ((s.rf p).commitIndex + 1) <+: (s'.rf p).log := by
    rcases step_at hs hinc with hsame | ⟨task, out, -, htask, hacts⟩ | ⟨m, out, -, hm, hp, hrecv⟩
    · rw [hsame]
      exact ⟨le_rfl, List.take_prefix _ _⟩
    · rcases hI.acts (hS p).1 hacts with hc | ⟨hre, -⟩
      · exact Carries.keepsCommitted (R := s.rf) hI.reach hc hh
      · exact absurd hre htask
    · exact Carries.keepsCommitted (R := s.rf) hI.reach (hI.receives (hS p).1 hm hp hrecv) hh
  have hlt : (s.rf p).commitIndex < (s.rf p).log.length :=
    ((hI.reach.commitOk hh.of_append.oneLeader hh.of_append.noCut hh.of_append.backed).node p).1
  have hlt' : (s'.rf p).commitIndex < (s'.rf p).log.length :=
    (((run_refines hr').reach.commitOk hh.oneLeader hh.noCut hh.backed).node p).1
  refine ⟨fun i hi => ?_, hkeep.1, run_lastApplied hr' hh p, ?_⟩
  · have hget : (s.rf p).log[i]? = some (s.rf p).log[i] := List.getElem?_eq_getElem (by omega)
    rw [hget]
    exact prefix_getElem? hkeep.2 (by rw [List.getElem?_take_of_lt (by omega), hget])
  · unfold Raft.lastLogIndexLocked
    omega

/-- after `overtaken` node 0 tells node 1 that index 2 is committed -/
def followed : List (Action 3 ℕ) := overtaken ++ [.run 0 (.goroutine 4), .deliver 2]

theorem committed_stays_followed : ∃ (s : Cluster 3 ℕ) (h : List (Event (Fin 3) ℕ)) (s' : Cluster 3 ℕ)
    (evs : List (Event (Fin 3) ℕ)), (machine 3 ℕ).Run Careful s h ∧ s.step (.run 1 .apply) = some (s', evs) ∧
    (s.rf 1).commitIndex = 2 ∧ (∀ i ≤ 2, (s'.rf 1).log[i]? = (s.rf 1).log[i]?) ∧ 2 ≤ (s'.rf 1).commitIndex := by
  obtain ⟨s, h, s', evs, hr, ha, hs, ho, ht⟩ := exists_step_of_fair
    (show ((machine 3 ℕ).exec (fun s a => FairElections s a ∧ Careful s a) followed).any (fun r =>
      decide (FairElections r.1 (.run 1 .apply) ∧ Careful r.1 (.run 1 .apply)) &&
        (r.1.step (.run 1 .apply)).any fun r' => decide ((r'.1.node 1).incarnation = (r.1.node 1).incarnation ∧
          (r.1.rf 1).commitIndex = 2)) = true by decide +kernel)
  obtain ⟨hinc, hci⟩ := of_decide_eq_true ht
  obtain ⟨hlog, hle, -⟩ := committed_stays hr ha hs ho 1 hinc
  rw [hci] at hlog hle
  exact ⟨s, h, s', evs, hr, hs, hci, hlog, hle⟩

/-- **A committed entry is dropped** by the follower that committed it, when the request `[7]` reaches it at last -/
theorem committed_dropped : ∃ (s : Cluster 3 ℕ) (h : List (Event (Fin 3) ℕ)) (s' : Cluster 3 ℕ)
    (evs : List (Event (Fin 3) ℕ)), (machine 3 ℕ).Run Machine.free s h ∧ s.step (.deliver 1) = some (s', evs) ∧
    OneLeader (h ++ evs) ∧ (s'.node 1).incarnation = (s.node 1).incarnation ∧ (s.rf 1).commitIndex = 2 ∧
    (s.rf 1).log[2]? = some ⟨1, some 8⟩ ∧ (s'.rf 1).log[2]? = none ∧ (s'.rf 1).commitIndex = 2 ∧
    (s'.rf 1).lastLogIndexLocked = 1 := by
  obtain ⟨s, h, s', evs, hr, -, hs, ho, ht⟩ := exists_step_of_fair
    (show ((machine 3 ℕ).exec (fun s a => FairElections s a ∧ Machine.free s a) followed).any (fun r =>
      decide (FairElections r.1 (.deliver 1) ∧ Machine.free r.1 (Action.deliver 1)) &&
        (r.1.step (.deliver 1)).any fun r' => decide ((r'.1.node 1).incarnation = (r.1.node 1).incarnation ∧
          (r.1.rf 1).commitIndex = 2 ∧ (r.1.rf 1).log[2]? = some ⟨1, some 8⟩ ∧ (r'.1.rf 1).log[2]? = none ∧
          (r'.1.rf 1).commitIndex = 2 ∧ (r'.1.rf 1).lastLogIndexLocked = 1)) = true by decide +kernel)
  exact ⟨s, h, s', evs, hr, hs, ho, of_decide_eq_true ht⟩

/-! ## State machine safety -/

/-- what is sent on applyCh is an entry that a leader committed -/
def Justified (h : List (Event (Fin n) Cmd)) (msg : ApplyMsg Cmd) : Prop :=
  ∃ q t N l e, .committed q t N l ∈ h ∧ msg.index ≤ N ∧ l[msg.index]? = some e ∧ e.command = msg.command

theorem Justified.mono {h' : List (Event (Fin n) Cmd)} (hs : h ⊆ h') {msg : ApplyMsg Cmd} (hj : Justified h msg) :
    Justified h' msg := by
  obtain ⟨q, t, N, l, e, hc, hrest⟩ := hj
  exact ⟨q, t, N, l, e, hs hc, hrest⟩

/-- the applier takes a certified entry -/
theorem applier_justified {t : ℕ} (hc : Certified h t rf.log rf.commitIndex) {msg : ApplyMsg Cmd}
    (hm : rf.applier.2 = some msg) : Justified h msg := by
  rcases applier_cases rf with he | ⟨e, hlt, he, heq⟩
  · rw [he] at hm; cases hm
  · rw [heq] at hm
    cases hm
    obtain ⟨q, t₀, N, l, hl, -, hN, hpre⟩ := hc.2 (by omega)
    refine ⟨q, t₀, N, l, e, hl, by show rf.lastApplied + 1 ≤ N; omega, prefix_getElem? hpre ?_, rfl⟩
    rw [List.getElem?_take_of_lt (by show rf.lastApplied + 1 < rf.commitIndex + 1; omega)]
    exact he

/-- everything the appliers have sent or are about to send -/
structure AppliedOk (s : Cluster n Cmd) (h : List (Event (Fin n) Cmd)) : Prop where
  pending : ∀ p msg, (s.node p).pending = some msg → Justified h msg
  applied : ∀ p msg, .applied p msg ∈ h → Justified h msg

theorem step_appliedOk (hA : AppliedOk s h) (hK : CommitOk (fun p => (s.rf p).core) h)
    (hs : s.step a = some (s', evs)) : AppliedOk s' (h ++ evs) := by
  obtain ⟨hpend, happ⟩ := step_sends (fun _ _ _ hs hj => hj.mono hs) hA.pending hA.applied
    (fun p msg hm => applier_justified (hK.node p) hm) hs
  exact ⟨hpend, happ⟩

theorem run_appliedOk (hok : ∀ s a, ok s a → Careful s a) (hr : (machine n Cmd).Run ok s h) (ho : OneLeader h) :
    AppliedOk s h := by
  refine hr.invariant_of (H := OneLeader) (I := AppliedOk) (fun _ _ => OneLeader.of_append) ?_ ?_ ho
  · exact ⟨nofun, nofun⟩
  · intro s h a s' evs hr ho hA _ hs
    have hh := run_sound hok hr ho.of_append
    exact step_appliedOk hA ((run_refines hr).reach.commitOk hh.oneLeader hh.noCut hh.backed) hs

/-- fair elections, and no cut without a conflict -/
def Faultless (s : Cluster n Cmd) (a : Action n Cmd) : Prop := FairElections s a ∧ Avoids Message.cuts s a

instance : DecidableRel (@Faultless n Cmd) := fun _ _ => inferInstanceAs (Decidable (_ ∧ _))

theorem Faultless.careful (ha : Faultless s a) : Careful s a := ⟨ha.1.2, ha.2⟩

/-- **State machine safety**: in every run in which no node forgets a vote of its current term, no candidate counts a
vote of an earlier election and no request cuts a log without a conflict, two messages with the same index that were
ever sent on applyCh, by whichever nodes and incarnations, carry the same command. -/
theorem applied_agree (hr : (machine n Cmd).Run Faultless s h) (p q : Fin n) (msg msg' : ApplyMsg Cmd)
    (hp : .applied p msg ∈ h) (hq : .applied q msg' ∈ h) (hi : msg.index = msg'.index) :
    msg.command = msg'.command := by
  have ho := run_oneLeader (fun _ _ ha => ha.1) hr
  have hh := run_sound (fun _ _ => Faultless.careful) hr ho
  have hA := run_appliedOk (fun _ _ => Faultless.careful) hr ho
  obtain ⟨c, t, N, l, e, hc, hN, he, hcmd⟩ := hA.applied p msg hp
  obtain ⟨c', t', N', l', e', hc', hN', he', hcmd'⟩ := hA.applied q msg' hq
  have hagree := (run_refines hr).reach.committed_agree hh.oneLeader hh.noCut hh.backed hc hc' hN (hi ▸ hN')
  rw [he, hi, he'] at hagree
  rw [← hcmd, ← hcmd', Option.some.inj hagree]

/-- nodes 0 and 1 apply the first entry after `followed` -/
def applying : List (Action 3 ℕ) := followed ++ [.run 0 .apply, .run 0 .applySend, .run 1 .apply, .run 1 .applySend]

theorem applied_agree_applying : ∃ s h, (machine 3 ℕ).Run Faultless s h ∧ .applied 0 ⟨1, some 7⟩ ∈ h ∧
    ∀ q msg, .applied q msg ∈ h → msg.index = 1 → some 7 = msg.command := by
  obtain ⟨s, h, hr, ht⟩ := Machine.exists_run_of_exec
    (show ((machine 3 ℕ).exec Faultless applying).any
      (fun r => decide (.applied 0 ⟨1, some 7⟩ ∈ r.2 ∧ .applied 1 ⟨1, some 7⟩ ∈ r.2)) = true by decide +kernel)
  obtain ⟨h0, -⟩ := of_decide_eq_true ht
  exact ⟨s, h, hr, h0, fun q msg hq hi => applied_agree hr 0 q _ msg h0 hq hi.symm⟩

/-- the two leaders of term 2 that `forgottenVote` leads to start different commands; node 0 accepts the entry of the
first and the first applies it, then it accepts that of the second and the second applies it -/
def splitBrain : List (Action 3 ℕ) :=
  forgottenVote ++ [.run 2 (.start (some 7)), .run 1 (.start (some 8)), .run 2 (.goroutine 2), .deliver 6, .deliver 6,
    .run 2 .apply, .run 2 .applySend, .run 1 (.goroutine 2), .deliver 6, .deliver 6, .run 1 .apply, .run 1 .applySend]

/-- **Two nodes apply different commands** at index 1 -/
theorem applied_differ : ∃ s h, (machine 3 ℕ).Run Machine.free s h ∧ .applied 2 ⟨1, some 7⟩ ∈ h ∧
    .applied 1 ⟨1, some 8⟩ ∈ h := by
  obtain ⟨s, h, hr, ht⟩ := Machine.exists_run_of_exec
    (show ((machine 3 ℕ).exec Machine.free splitBrain).any
      (fun r => decide (.applied 2 ⟨1, some 7⟩ ∈ r.2 ∧ .applied 1 ⟨1, some 8⟩ ∈ r.2)) = true by decide +kernel)
  exact ⟨s, h, hr, of_decide_eq_true ht⟩

end CS240.Raft
