/-
Replicated logs: log matching, and what a leader may conclude from the replies it got.

Both are stated for runs in which no term has two leaders.

- `log_matching`: logs with entries of one term at one index agree up to it, also the logs requests were built from.
- `matchIndex_sound`: a follower in the leader's term has what the leader's matchIndex says it has, in every run in
  which no request cuts a log that it does not conflict with; `matchIndex_unsound` is a run in which one does.
-/
import CS240.Raft.Elections
import CS240.Raft.Completeness

namespace CS240.Raft

open Lib

variable {n : ℕ} {Cmd : Type} {rf rf' : Raft n Cmd} {p : Fin n} {h evs : List (Event (Fin n) Cmd)}
  {s s' : Cluster n Cmd} {a : Action n Cmd} {ok : Cluster n Cmd → Action n Cmd → Prop}

/-! ## Log matching -/

/-- wherever the two logs have entries of the same term, they are equal up to that index -/
def LogsMatch (l₁ l₂ : List (LogEntry Cmd)) : Prop :=
  ∀ (i : ℕ) (e₁ e₂ : LogEntry Cmd), l₁[i]? = some e₁ → l₂[i]? = some e₂ → e₁.term = e₂.term → ∀ j ≤ i, l₁[j]? = l₂[j]?

theorem LogsMatch.of_coherent {T : ℕ → List (LogEntry Cmd)} {l₁ l₂ : List (LogEntry Cmd)}
    (h₁ : Coherent LogEntry.term T l₁) (h₂ : Coherent LogEntry.term T l₂) : LogsMatch l₁ l₂ := by
  intro i e₁ e₂ he₁ he₂ ht j hj
  exact getElem?_eq_of_take (h₁.agree h₂ he₁ he₂ ht) (Nat.lt_succ_of_le hj)

/-- **Log matching**: in every run in which no term has two leaders, any two nodes' logs match, and so do a node's log
and the log any request in flight was built from. -/
theorem log_matching (hr : (machine n Cmd).Run Machine.free s h) (ho : OneLeader h) :
    (∀ a b, LogsMatch (s.rf a).log (s.rf b).log) ∧
    ∀ m ∈ s.net, ∀ args rest, m.body = .appendEntries args rest →
      (∃ full, Describes h args full) ∧ ∀ full, Describes h args full → ∀ a, LogsMatch (s.rf a).log full := by
  have hI := run_refines hr
  have hM := hI.reach.matching ho
  refine ⟨fun a b => .of_coherent (hM.node a) (hM.node b), fun m hm args rest hbody => ⟨?_, ?_⟩⟩
  · have hok := hI.net m hm
    simp only [MsgOk, hbody] at hok
    exact hok.2
  · intro full hfull a
    exact .of_coherent (hM.node a) (hM.request hfull.1)

/-- Node 0 leads in term 1. It starts 7 and sends `[7]` to node 1, starts 8 and sends `[7, 8]`; node 1 answers the
second request, and node 0 commits both. -/
def overtaken : List (Action 3 ℕ) :=
  firstElection ++ [.run 0 (.start (some 7)), .run 0 (.goroutine 2), .run 0 (.start (some 8)), .run 0 (.goroutine 3),
    .deliver 2, .deliver 2]

theorem log_matching_overtaken : ∃ s h, (machine 3 ℕ).Run Machine.free s h ∧ OneLeader h ∧
    (s.rf 0).log[2]? = some ⟨1, some 8⟩ ∧ (s.rf 1).log[2]? = some ⟨1, some 8⟩ ∧
      LogsMatch (s.rf 0).log (s.rf 1).log := by
  obtain ⟨s, h, hr, ho, ht⟩ := exists_run_of_fair
    (show ((machine 3 ℕ).exec (fun s a => FairElections s a ∧ Machine.free s a) overtaken).any
      (fun r => decide ((r.1.rf 0).log[2]? = some ⟨1, some 8⟩ ∧ (r.1.rf 1).log[2]? = some ⟨1, some 8⟩)) = true
      by decide +kernel)
  obtain ⟨h0, h1⟩ := of_decide_eq_true ht
  exact ⟨s, h, hr, ho, h0, h1, (log_matching hr ho).1 0 1⟩

/-! ## Acknowledgements -/

theorem Receives.noCut {m : Message n Cmd} {out : List (Message n Cmd)} (hr : Receives rf m rf' out evs)
    (hc : ¬ m.cuts rf) : NoCut evs := by
  intro v t i cut hv
  cases hr with
  | @appendEntries rf' args rest reply hbody ha =>
    split_ifs at hv with hs
    · simp only [List.mem_singleton, Event.accepted.injEq] at hv
      obtain ⟨-, -, -, rfl⟩ := hv
      have hsuccess : (rf.appendEntries args).2.success = true := by rw [ha]; exact hs
      obtain ⟨hterm, hprev, hmatch⟩ := appendEntries_accepted hsuccess
      simp only [Message.cuts, hbody] at hc
      simpa using fun hcut => hc ⟨hterm, hprev, hmatch, hcut⟩
    · cases hv
  | requestVote | appendEntriesReply => split_ifs at hv <;> simp at hv
  | requestVoteReply =>
    rcases List.mem_append.1 hv with hv | hv <;> split_ifs at hv <;> simp at hv
  | heartbeat | heartbeatReply => cases hv

theorem run_noCut (hok : ∀ s a, ok s a → Avoids Message.cuts s a) (hr : (machine n Cmd).Run ok s h) : NoCut h := by
  have happend : ∀ {h evs : List (Event (Fin n) Cmd)}, NoCut h → NoCut evs → NoCut (h ++ evs) := by
    intro h evs h₁ h₂ v t i cut hv
    rcases List.mem_append.1 hv with hv | hv
    · exact h₁ v t i cut hv
    · exact h₂ v t i cut hv
  refine hr.invariant (I := fun _ h => NoCut h) (fun v t i cut hv => by cases hv) ?_
  intro s h a s' evs hN ha hs
  refine step_preserves (J := fun _ _ h => NoCut h) hs (fun _ => hN) (fun _ _ _ => hN) (fun _ _ _ _ _ => hN) ?_ ?_
  · intro p task rf out evs _ hacts
    refine happend hN fun v t i cut hv => ?_
    cases hacts <;> simp at hv
  · intro p m k rf out evs hrec _ _ hrecv
    exact happend hN (hrecv.noCut ((hok s a ha).not hrec))

/-- **matchIndex is sound**: in every run in which no term has two leaders and no request cuts a log without a conflict,
a follower in the leader's term has the leader's entries up to matchIndex. -/
theorem matchIndex_sound (hr : (machine n Cmd).Run (Avoids Message.cuts) s h) (ho : OneLeader h) (L p : Fin n)
    (hne : p ≠ L) (m : ℕ) (hl : (s.rf L).state = .leader) (hm : (s.rf L).matchIndex[p.val]? = some m)
    (ht : (s.rf p).term = (s.rf L).term) :
    m < (s.rf p).log.length ∧ ∀ i ≤ m, (s.rf p).log[i]? = (s.rf L).log[i]? := by
  have hI := run_refines hr
  have hM := hI.reach.matching ho
  have hR := hI.reach.retains ho (run_noCut (fun _ _ ha => ha) hr)
  have hlog : (s.rf L).log = termLog h (s.rf L).term := hM.leader L hl
  -- the entries up to `m` are a prefix of both logs
  have hpre : m < (s.rf L).log.length ∧ (s.rf L).log.take (m + 1) <+: (s.rf p).log := by
    rcases Nat.eq_zero_or_pos m with rfl | hpos
    · have hroot : ∀ q, [sentinel] <+: (s.rf q).log := fun q => (hI.reach.basic.nodes q).root
      refine ⟨(hroot L).length_le, ?_⟩
      rw [prefix_take_eq (hroot L) (by simp)]
      exact hroot p
    · have hget : (s.rf L).matchIndex.getD p 0 = m := by rw [List.getD_eq_getElem?_getD, hm]; rfl
      obtain ⟨j, cut, hj, hle⟩ := hI.acks L hl p (by rwa [(run_saved hr L).1]) (by omega)
      have hlt := hR.accepted p _ j cut hj
      rw [hget] at hle
      rw [hlog]
      refine ⟨by omega, ?_⟩
      rcases hR.kept p _ _ _ (Or.inl ⟨j, cut, hj, hlt, rfl⟩)
        (List.take_prefix_take_left (show m + 1 ≤ j + 1 by omega)) with hkept | ⟨t', l, h1, h2, -⟩
      · exact hkept
      · have : (core (s.rf p)).term = (s.rf L).term := ht
        omega
  have hlen : ((s.rf L).log.take (m + 1)).length = m + 1 := by rw [List.length_take]; omega
  refine ⟨by have := hpre.2.length_le; omega, fun i hi => ?_⟩
  refine getElem?_eq_of_take (k := m + 1) ?_ (by omega)
  rw [prefix_take_eq hpre.2 (by omega), List.take_take, min_self]

theorem matchIndex_sound_overtaken : ∃ s h, (machine 3 ℕ).Run (Avoids Message.cuts) s h ∧ OneLeader h ∧
    (s.rf 0).matchIndex[1]? = some 2 ∧ 2 < (s.rf 1).log.length ∧ ∀ i ≤ 2, (s.rf 1).log[i]? = (s.rf 0).log[i]? := by
  obtain ⟨s, h, hr, ho, ht⟩ := exists_run_of_fair
    (show ((machine 3 ℕ).exec (fun s a => FairElections s a ∧ Avoids Message.cuts s a) overtaken).any
      (fun r => decide ((r.1.rf 0).state = .leader ∧ (r.1.rf 0).matchIndex[1]? = some 2 ∧
        (r.1.rf 1).term = (r.1.rf 0).term)) = true by decide +kernel)
  obtain ⟨hl, hm, ht⟩ := of_decide_eq_true ht
  exact ⟨s, h, hr, ho, hm, matchIndex_sound hr ho 0 1 (by decide) 2 hl hm ht⟩

/-- **matchIndex is too large**: the request `[7]` arrives after `[7, 8]`, and node 1 drops the 8 it acknowledged -/
theorem matchIndex_unsound : ∃ s h, (machine 3 ℕ).Run Machine.free s h ∧ OneLeader h ∧ (s.rf 0).state = .leader ∧
    (s.rf 0).matchIndex[1]? = some 2 ∧ (s.rf 1).term = (s.rf 0).term ∧ (s.rf 1).log.length = 2 := by
  obtain ⟨s, h, hr, ho, ht⟩ := exists_run_of_fair
    (show ((machine 3 ℕ).exec (fun s a => FairElections s a ∧ Machine.free s a) (overtaken ++ [.deliver 1])).any
      (fun r => decide ((r.1.rf 0).state = .leader ∧ (r.1.rf 0).matchIndex[1]? = some 2 ∧
        (r.1.rf 1).term = (r.1.rf 0).term ∧ (r.1.rf 1).log.length = 2)) = true by decide +kernel)
  exact ⟨s, h, hr, ho, of_decide_eq_true ht⟩

end CS240.Raft
