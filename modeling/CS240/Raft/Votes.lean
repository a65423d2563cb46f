/-
One vote per term.

`Polls` says what a section can do to a node's term, votedFor and voteCount, together with the events it leaves; the two
ways in which the code departs from the protocol are marked by the propositions `forgets` and `stale`. From it follows
`votes_unique`: a node votes for one candidate in a term, in every run in which no heartbeat reply makes a node forget
its vote. `votes_twice` is a run in which one does.
-/
import CS240.Raft.Defects
import CS240.Raft.Refinement

namespace CS240.Raft

open Lib

variable {n : ℕ} {Cmd : Type} {rf rf' : Raft n Cmd} {p : Fin n} {h evs : List (Event (Fin n) Cmd)}
  {forgets stale : Prop}

/-! ## What a section does to the votes -/

/-- an event that has nothing to do with votes and elections -/
def Event.Silent {ι : Type} : Event ι Cmd → Prop
  | .candidacy _ _ _ | .voteGranted _ _ _ _ | .voteCounted _ _ _ | .becameLeader _ _ _ => False
  | _ => True

inductive Polls (forgets stale : Prop) (rf : Raft n Cmd) : Raft n Cmd → List (Event (Fin n) Cmd) → Prop
  | keep {rf' : Raft n Cmd} {evs : List (Event (Fin n) Cmd)} : rf'.term = rf.term → rf'.votedFor = rf.votedFor →
      (rf'.state = .candidate → rf.state = .candidate ∧ rf'.voteCount = rf.voteCount) → (∀ e ∈ evs, e.Silent) →
      Polls forgets stale rf rf' evs
  | newer {rf' : Raft n Cmd} {evs : List (Event (Fin n) Cmd)} : rf.term < rf'.term → rf'.state = .follower →
      (∀ e ∈ evs, e.Silent) → Polls forgets stale rf rf' evs
  /-- the vote of the current term is forgotten -/
  | forget {rf' : Raft n Cmd} : forgets → rf'.term = rf.term → rf'.state = .follower → Polls forgets stale rf rf' []
  | stand : Polls forgets stale rf (stood rf) [.candidacy rf.me (rf.term + 1) rf.log]
  | win : n / 2 < 1 →
      Polls forgets stale rf (stood rf).becomeLeaderLocked
        [.candidacy rf.me (rf.term + 1) rf.log, .becameLeader rf.me (rf.term + 1) rf.log]
  | grant {rf' : Raft n Cmd} {c : Fin n} {l : List (LogEntry Cmd)} : rf.term ≤ rf'.term →
      (rf'.term = rf.term → rf.votedFor = -1 ∨ rf.votedFor = (c : ℕ)) → rf'.votedFor = (c : ℕ) →
      (rf'.state = .candidate → rf'.term = rf.term ∧ rf.state = .candidate ∧ rf'.voteCount = rf.voteCount) →
      Polls forgets stale rf rf' [.voteGranted rf.me rf'.term c l]
  | count {t : ℕ} {v : Fin n} : (rf.state = .candidate → rf.term = t ∨ stale) →
      Polls forgets stale rf { rf with voteCount := rf.voteCount + 1 } [.voteCounted rf.me t v]
  | won {v : Fin n} : rf.state = .candidate → n / 2 < rf.voteCount + 1 →
      Polls forgets stale rf (Raft.becomeLeaderLocked { rf with voteCount := rf.voteCount + 1 })
        [.voteCounted rf.me rf.term v, .becameLeader rf.me rf.term rf.log]

/-- nothing happened -/
theorem Polls.refl : Polls forgets stale rf rf [] := .keep rfl rfl (fun hc => ⟨hc, rfl⟩) (by simp)

/-- a newer term always makes the node a follower without a vote -/
theorem stepDownLocked_polls {t : ℕ} (ht : rf.term < t) : Polls forgets stale rf (rf.stepDownLocked t) [] := by
  refine .newer ?_ rfl (by simp)
  unfold Raft.stepDownLocked Raft.persist
  simp [ht]

theorem Acts.polls {sv : Server n Cmd} {task : Server.Task Cmd} {out : List (Message n Cmd)} (hs : Saved sv.rf)
    (ha : Acts sv task rf' out evs) : Polls forgets stale sv.rf rf' evs := by
  cases ha with
  | idle | beat => exact .refl
  | election _ he =>
    obtain ⟨rfl, -⟩ := startElection_some he
    exact .stand
  | win _ he =>
    obtain ⟨rfl, hn⟩ := startElection_none he
    exact .win hn
  | send hsend =>
    obtain ⟨-, next, rfl⟩ := replicateSend_some hsend
    exact .keep rfl rfl (fun hc => ⟨hc, rfl⟩) (by simp [Event.Silent])
  | apply =>
    rcases applier_cases sv.rf with he | ⟨e, -, -, he⟩ <;> rw [he]
    · exact .refl
    · exact .keep rfl rfl (fun hc => ⟨hc, rfl⟩) (by simp)
  | applySend => exact .keep rfl rfl (fun hc => ⟨hc, rfl⟩) (by simp [Event.Silent])
  | start hl =>
    rw [start_leader hl]
    exact .keep rfl rfl (fun hc => ⟨hc, rfl⟩) (by simp [Event.Silent])
  | restart =>
    rw [hs.made]
    exact .keep rfl rfl nofun (by simp)

theorem requestVote_polls {args : RequestVoteArgs n} {reply : RequestVoteReply}
    (hv : rf.requestVote args = (rf', reply)) :
    Polls forgets stale rf rf'
      (if reply.vote then [.voteGranted rf'.me rf'.term args.candidateID rf'.log] else []) := by
  cases requestVote_cases hv with
  | stale => exact .refl
  | refused =>
    rw [if_neg (by simp), raised]
    split_ifs with hlt
    · exact stepDownLocked_polls hlt
    · exact .refl
  | granted hle hfree hup =>
    have hme := (raised_rest rf args.electionTerm).1
    simp only [if_true, Raft.persist, hme]
    refine .grant ?_ (fun heq => ?_) rfl (fun hc => ?_)
    · simpa only [raised_term hle] using hle
    · -- in the same term nothing was cleared
      have hsame : raised rf args.electionTerm = rf := if_neg (by simp only [raised_term hle] at heq; omega)
      rwa [hsame] at hfree
    · have hsame : raised rf args.electionTerm = rf := by
        unfold raised at hc ⊢
        split_ifs at hc ⊢
        · cases hc
        · rfl
      rw [hsame] at hc ⊢
      exact ⟨rfl, hc, rfl⟩

/-- a leader of the same term or a newer one, whatever it makes of the log -/
theorem adopted_polls {t : ℕ} (hle : rf.term ≤ t) (hst : rf'.state = .follower) (hterm : rf'.term = t)
    (hvote : rf'.votedFor = (adopted rf t).votedFor) (hsil : ∀ e ∈ evs, e.Silent) : Polls forgets stale rf rf' evs := by
  by_cases hlt : rf.term < t
  · exact .newer (by omega) hst hsil
  · refine .keep (by omega) ?_ (by rw [hst]; nofun) hsil
    rw [hvote, adopted, if_neg (by omega)]

theorem appendEntries_polls {args : AppendEntriesArgs n Cmd} {reply : AppendEntriesReply} (hl : rf.log ≠ [])
    (ha : rf.appendEntries args = (rf', reply)) (hsil : ∀ e ∈ evs, e.Silent) : Polls forgets stale rf rf' evs := by
  cases appendEntries_cases hl ha with
  | stale => exact .keep rfl rfl (fun hc => ⟨hc, rfl⟩) hsil
  | refused hle => exact adopted_polls hle (adopted_state _) (adopted_term hle) rfl hsil
  | accepted hle => exact adopted_polls hle (adopted_state _) (adopted_term hle) rfl hsil

theorem requestVoteReply_polls {m : Message n Cmd} {term : ℕ} {reply : RequestVoteReply} {won : Bool}
    (hbody : m.body = .requestVoteReply term reply) (hv : rf.requestVoteReply term reply = (rf', won)) :
    Polls (m.forgetsVote rf) (m.countsStale rf) rf rf'
      ((if reply.electionTerm ≤ rf.term ∧ reply.vote then [.voteCounted rf'.me term m.server] else []) ++
        if won then [.becameLeader rf'.me rf'.term rf'.log] else []) := by
  cases requestVoteReply_cases hv with
  | higher hlt =>
    rw [if_neg (by omega)]
    exact stepDownLocked_polls hlt
  | refused hle hvote =>
    rw [if_neg (by simp [hvote])]
    exact .refl
  | counted hle hvote =>
    rw [if_pos ⟨hle, hvote⟩]
    refine .count fun hc => or_iff_not_imp_left.2 fun hne => ?_
    simp only [Message.countsStale, hbody]
    exact ⟨hle, hvote, hc, hne⟩
  | won hle hvote hmaj hst hterm =>
    rw [if_pos ⟨hle, hvote⟩]
    subst hterm
    exact .won hst hmaj

theorem heartbeatReply_polls {m : Message n Cmd} {t : ℕ} {reply : HeartbeatReply}
    (hbody : m.body = .heartbeatReply t reply) :
    Polls (m.forgetsVote rf) stale rf (rf.heartbeatReply t reply) [] := by
  rcases heartbeatReply_cases rf t reply with he | ⟨hnew, he⟩ | ⟨hlt, hle, he⟩ <;> rw [he]
  · exact .refl
  · exact stepDownLocked_polls hnew
  · by_cases hv : rf.votedFor = -1
    · exact .keep rfl hv.symm nofun (by simp)
    · refine .forget ?_ rfl rfl
      simp only [Message.forgetsVote, hbody]
      exact ⟨hlt, hle, hv⟩

theorem Receives.polls {m : Message n Cmd} {out : List (Message n Cmd)} (hs : Saved rf)
    (hr : Receives rf m rf' out evs) : Polls (m.forgetsVote rf) (m.countsStale rf) rf rf' evs := by
  cases hr with
  | requestVote hbody hv => exact requestVote_polls hv
  | requestVoteReply hbody hv => exact requestVoteReply_polls hbody hv
  | heartbeat hbody hb =>
    cases heartbeat_cases hb with
    | stale => exact .refl
    | newer hlt => exact .newer hlt rfl (by simp)
    | same => exact .keep rfl rfl nofun (by simp)
  | heartbeatReply hbody => exact heartbeatReply_polls hbody
  | appendEntries hbody ha =>
    refine appendEntries_polls hs.log ha (fun e he => ?_)
    split_ifs at he
    · simp only [List.mem_singleton] at he; subst he; trivial
    · cases he
  | appendEntriesReply hbody hrep =>
    cases replicateReply_cases hrep with
    | higher hlt => exact stepDownLocked_polls hlt
    | ignored => exact .refl
    | matched | pushed | rejected => exact .keep rfl rfl (fun hc => ⟨hc, rfl⟩) (by simp [Event.Silent])

/-! ## One vote per term -/

theorem voted_append {v c : Fin n} {t : ℕ} : Voted (h ++ evs) v t c ↔ Voted h v t c ∨ Voted evs v t c := by
  unfold Voted
  simp only [List.mem_append, exists_or, and_or_left]
  exact or_or_or_comm

/-- the votes of a section: the node's own, in the term and for the candidate it remembers -/
theorem Polls.voted (hp : Polls forgets stale rf rf' evs) {v c : Fin n} {t : ℕ} (hv : Voted evs v t c) :
    v = rf.me ∧ t = rf'.term ∧ rf'.votedFor = (c : ℕ) := by
  have hsilent : (∀ e ∈ evs, e.Silent) → False := by
    intro hsil
    rcases hv with ⟨-, l, hl⟩ | ⟨l, hl⟩ <;> exact hsil _ hl
  cases hp with
  | keep _ _ _ hsil => exact (hsilent hsil).elim
  | newer _ _ hsil => exact (hsilent hsil).elim
  | forget => exact (hsilent (by simp)).elim
  | stand | win =>
    simp only [Voted, List.mem_cons, Event.candidacy.injEq, reduceCtorEq, List.not_mem_nil, or_false, exists_false]
      at hv
    obtain ⟨rfl, -, rfl, rfl, -⟩ := hv
    exact ⟨rfl, rfl, rfl⟩
  | grant _ _ hvote =>
    simp only [Voted, List.mem_cons, Event.voteGranted.injEq, reduceCtorEq, List.not_mem_nil, or_false, exists_false,
      and_false, false_or] at hv
    obtain ⟨l, rfl, rfl, rfl, -⟩ := hv
    exact ⟨rfl, rfl, hvote⟩
  | count | won => simp [Voted] at hv

/-- what is left of an earlier vote -/
theorem Polls.remembers (hp : Polls forgets stale rf rf' evs) (hf : ¬ forgets) (hterm : rf'.term ≤ rf.term) :
    rf'.term = rf.term ∧ (rf.votedFor = -1 ∨ rf'.votedFor = rf.votedFor) := by
  cases hp with
  | keep ht hv => exact ⟨ht, Or.inr hv⟩
  | newer hlt => omega
  | forget hfg => exact absurd hfg hf
  | stand | win => exact absurd hterm (Nat.not_succ_le_self _)
  | grant hle hfree hvote =>
    have heq := le_antisymm hterm hle
    exact ⟨heq, (hfree heq).imp_right (fun hv => hvote.trans hv.symm)⟩
  | count | won => exact ⟨rfl, Or.inr rfl⟩

/-- a node's votes so far: none above its term, that of its term in votedFor, one in each term -/
structure VoteOk (h : List (Event (Fin n) Cmd)) (p : Fin n) (rf : Raft n Cmd) : Prop where
  bound : ∀ t c, Voted h p t c → t ≤ rf.term
  current : ∀ c, Voted h p rf.term c → rf.votedFor = (c : ℕ)
  unique : ∀ t c c', Voted h p t c → Voted h p t c' → c = c'

theorem candidate_inj {c c' : Fin n} {x : ℤ} (hc : x = (c : ℕ)) (hc' : x = (c' : ℕ)) : c = c' := by
  apply Fin.ext
  omega

theorem VoteOk.polls (hV : VoteOk h p rf) (hp : Polls forgets stale rf rf' evs) (hf : ¬ forgets)
    (hle : rf.term ≤ rf'.term) : VoteOk (h ++ evs) p rf' := by
  have hnew : ∀ c, Voted h p rf'.term c → rf'.votedFor = (c : ℕ) := by
    intro c hc
    obtain ⟨heq, hvote⟩ := hp.remembers hf (hV.bound _ c hc)
    have hcur := hV.current c (heq ▸ hc)
    rcases hvote with hnone | hsame
    · omega
    · rw [hsame, hcur]
  refine ⟨fun t c hc => ?_, fun c hc => ?_, fun t c c' hc hc' => ?_⟩
  · rcases voted_append.1 hc with hc | hc
    · exact (hV.bound t c hc).trans hle
    · exact (hp.voted hc).2.1.le
  · rcases voted_append.1 hc with hc | hc
    · exact hnew c hc
    · exact (hp.voted hc).2.2
  · -- an earlier vote of the term the new one is in is still in votedFor
    rcases voted_append.1 hc with hc | hc <;> rcases voted_append.1 hc' with hc' | hc'
    · exact hV.unique t c c' hc hc'
    · obtain ⟨-, rfl, hvote⟩ := hp.voted hc'
      exact candidate_inj (hnew c hc) hvote
    · obtain ⟨-, rfl, hvote⟩ := hp.voted hc
      exact candidate_inj hvote (hnew c' hc')
    · exact candidate_inj (hp.voted hc).2.2 (hp.voted hc').2.2

/-- the other nodes' votes are not touched -/
theorem VoteOk.other {q : Fin n} {rq : Raft n Cmd} (hV : VoteOk h q rq) (hp : Polls forgets stale rf rf' evs)
    (hq : q ≠ rf.me) : VoteOk (h ++ evs) q rq := by
  have hback : ∀ t c, Voted (h ++ evs) q t c → Voted h q t c := by
    intro t c hc
    rcases voted_append.1 hc with hc | hc
    · exact hc
    · exact absurd (hp.voted hc).1 hq
  exact ⟨fun t c hc => hV.bound t c (hback t c hc), fun c hc => hV.current c (hback _ c hc),
    fun t c c' hc hc' => hV.unique t c c' (hback t c hc) (hback t c' hc')⟩

variable {s s' : Cluster n Cmd} {a : Action n Cmd} {ok : Cluster n Cmd → Action n Cmd → Prop}
  {R : Fin n → Raft n Cmd}

theorem VoteOk.update (hV : ∀ q, VoteOk h q (R q)) (hme : (R p).me = p) (hp : Polls forgets stale (R p) rf' evs)
    (hf : ¬ forgets) (hle : (R p).term ≤ rf'.term) (q : Fin n) : VoteOk (h ++ evs) q (Function.update R p rf' q) := by
  refine (Function.forall_update_iff R (VoteOk (h ++ evs))).2 ⟨(hV p).polls hp hf hle, ?_⟩ q
  intro q hq
  exact (hV q).other hp (by rwa [hme])

/-- what a crash in the middle of a handler comes to -/
theorem crash_polls (hs : Saved rf) {t : ℕ} (ht : rf.term < t) :
    Polls forgets stale rf (Raft.make rf.me (rf.stepDownLocked t).persister) [] := by
  rw [crash_made hs]
  refine .newer ?_ rfl (by simp)
  simp [Raft.stepDownLocked, Raft.persist, ht]

theorem step_voteOk (hV : ∀ q, VoteOk h q (s.rf q)) (hS : ∀ p, (s.rf p).me = p ∧ Saved (s.rf p))
    (hok : Avoids Message.forgetsVote s a) (hs : s.step a = some (s', evs)) : ∀ q, VoteOk (h ++ evs) q (s'.rf q) := by
  refine step_preserves (J := fun R _ h => ∀ q, VoteOk h q (R q)) hs (fun _ => hV) (fun _ _ _ => hV) ?_ ?_ ?_
  · intro net p t _ ht
    have hcrash : Polls False False (s.rf p) _ [] := crash_polls (hS p).2 ht
    have hup := VoteOk.update hV (hS p).1 hcrash not_false (crash_follows (hS p).2 t).term
    rwa [List.append_nil] at hup
  · intro p task rf out evs _ ha
    have hpolls : Polls False False (s.rf p) rf evs := ha.polls (hS p).2
    exact VoteOk.update hV (hS p).1 hpolls not_false (ha.follows (hS p).2).term
  · intro p m k rf out evs hrec _ _ hr
    exact VoteOk.update hV (hS p).1 (hr.polls (hS p).2) (hok.not hrec) (hr.follows (hS p).2).term

theorem run_voteOk (hok : ∀ s a, ok s a → Avoids Message.forgetsVote s a) (hr : (machine n Cmd).Run ok s h) :
    ∀ q, VoteOk h q (s.rf q) := by
  induction hr with
  | init => exact fun q => ⟨by simp [Voted], by simp [Voted], by simp [Voted]⟩
  | step hr ha hs ih => exact step_voteOk ih (run_saved hr) (hok _ _ ha) hs

/-- **One vote per term**: in every run in which no heartbeat reply makes a node forget the vote of its current term, a
node votes for at most one candidate in a term, its own candidacy and restarts included. -/
theorem votes_unique (hr : (machine n Cmd).Run (Avoids Message.forgetsVote) s h) (p : Fin n) (t : ℕ) (c c' : Fin n)
    (hc : Voted h p t c) (hc' : Voted h p t c') : c = c' :=
  (run_voteOk (fun _ _ ha => ha) hr p).unique t c c' hc hc'

/-- the runs of three nodes write them as numerals, and all modules mean the same term by one -/
instance instNeZeroThree : NeZero 3 := inferInstance

/-- node 0 stands in term 1 and gets the vote of node 1 -/
def firstElection : List (Action 3 ℕ) := [.run 0 .lifeRead, .run 0 .lifeElection, .deliver 0, .deliver 1]

theorem votes_unique_firstElection : ∃ s h, (machine 3 ℕ).Run (Avoids Message.forgetsVote) s h ∧
    Voted h 1 1 0 ∧ ∀ c, Voted h 1 1 c → c = 0 := by
  obtain ⟨s, h, hr, ht⟩ := Machine.exists_run_of_exec
    (show ((machine 3 ℕ).exec (Avoids Message.forgetsVote) firstElection).any
      (fun r => decide (.voteGranted 1 1 0 [sentinel] ∈ r.2)) = true by decide +kernel)
  have hv : Voted h 1 1 0 := Or.inr ⟨_, of_decide_eq_true ht⟩
  exact ⟨s, h, hr, hv, fun c hc => votes_unique hr 1 1 c 0 hc hv⟩

/-- Node 0 leads in term 1 and its heartbeats are on their way. Node 2 stands twice and asks for votes in term 2. Node 0
votes for it, then learns from node 2's answer to the heartbeat of term 1 that a term 2 exists, clears votedFor, and
votes for node 1 in term 2. -/
def forgottenVote : List (Action 3 ℕ) :=
  firstElection ++ [.run 0 (.goroutine 0), .run 2 .lifeRead, .run 2 .lifeElection, .run 2 .lifeRead,
    .run 2 .lifeElection, .deliver 2, .deliver 4, .deliver 6, .deliver 5, .run 1 .lifeRead, .run 1 .lifeElection,
    .deliver 5, .deliver 6]

/-- **A node votes twice in a term** -/
theorem votes_twice : ∃ s h, (machine 3 ℕ).Run Machine.free s h ∧ Voted h 0 2 2 ∧ Voted h 0 2 1 := by
  obtain ⟨s, h, hr, ht⟩ := Machine.exists_run_of_exec
    (show ((machine 3 ℕ).exec Machine.free forgottenVote).any
      (fun r => decide (.voteGranted 0 2 2 [sentinel] ∈ r.2 ∧ .voteGranted 0 2 1 [sentinel] ∈ r.2)) = true
      by decide +kernel)
  obtain ⟨h2, h1⟩ := of_decide_eq_true ht
  exact ⟨s, h, hr, Or.inr ⟨_, h2⟩, Or.inr ⟨_, h1⟩⟩

end CS240.Raft
