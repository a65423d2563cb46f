/-
What each section of a node can come to.

The sections branch on terms, states and log contents. For each of them an inductive relation lists its outcomes, with
the guards that lead to them and the node they leave: `Balloted` for RequestVote, `Counted` for its reply, `Beaten` for
Heartbeat, `Appended` for AppendEntries, `Requests` for the requests a leader builds and `Replied` for what it does with
the replies. A `_cases` lemma says that the section has no other outcome, so that invariants never unfold the code.
-/
import CS240.Raft.Node

namespace CS240.Raft

open Lib

variable {n : ℕ} {Cmd : Type} {rf rf' : Raft n Cmd}

/-! ## Elections -/

/-- a node stands for election: a new term, and its own vote -/
def stood (rf : Raft n Cmd) : Raft n Cmd :=
  Raft.persist { rf with term := rf.term + 1, state := .candidate, votedFor := (rf.me : ℕ), voteCount := 1 }

/-- it asks for votes, or wins at once when its own vote is enough -/
theorem startElection_eq (rf : Raft n Cmd) :
    rf.startElection =
      if 1 > n / 2 then ((stood rf).becomeLeaderLocked, none)
      else (stood rf, some ⟨rf.term + 1, rf.me, rf.lastLogIndexLocked, rf.lastLogTermLocked⟩) := rfl

theorem startElection_some {args : RequestVoteArgs n} (he : rf.startElection = (rf', some args)) :
    rf' = stood rf ∧ args = ⟨rf.term + 1, rf.me, rf.lastLogIndexLocked, rf.lastLogTermLocked⟩ := by
  rw [startElection_eq] at he
  split_ifs at he
  · cases he
  · cases he
    exact ⟨rfl, rfl⟩

theorem startElection_none (he : rf.startElection = (rf', none)) :
    rf' = (stood rf).becomeLeaderLocked ∧ n / 2 < 1 := by
  rw [startElection_eq] at he
  split_ifs at he with hn
  · cases he
    exact ⟨rfl, hn⟩
  · cases he

/-- a node hears of term `t` -/
def raised (rf : Raft n Cmd) (t : ℕ) : Raft n Cmd := if t > rf.term then rf.stepDownLocked t else rf

theorem raised_term {t : ℕ} (ht : rf.term ≤ t) : (raised rf t).term = t := by
  unfold raised Raft.stepDownLocked Raft.persist
  split_ifs with hlt
  · rfl
  · exact le_antisymm ht (not_lt.1 hlt)

theorem raised_rest (rf : Raft n Cmd) (t : ℕ) :
    (raised rf t).me = rf.me ∧ (raised rf t).log = rf.log ∧ (raised rf t).commitIndex = rf.commitIndex ∧
      (raised rf t).lastApplied = rf.lastApplied := by
  unfold raised Raft.stepDownLocked Raft.persist
  dsimp only
  split_ifs <;> exact ⟨rfl, rfl, rfl, rfl⟩

/-- a candidate of an old term, a refusal, and a vote -/
inductive Balloted (rf : Raft n Cmd) (args : RequestVoteArgs n) : Raft n Cmd → RequestVoteReply → Prop
  | stale : args.electionTerm < rf.term → Balloted rf args rf ⟨rf.term, false⟩
  | refused : rf.term ≤ args.electionTerm → Balloted rf args (raised rf args.electionTerm) ⟨rf.term, false⟩
  | granted : rf.term ≤ args.electionTerm →
      (raised rf args.electionTerm).votedFor = -1 ∨
        (raised rf args.electionTerm).votedFor = (args.candidateID : ℕ) →
      args.lastLogTerm > rf.lastLogTermLocked ∨
        (args.lastLogTerm = rf.lastLogTermLocked ∧ args.lastLogIndex ≥ rf.lastLogIndexLocked) →
      Balloted rf args
        (Raft.persist { raised rf args.electionTerm with votedFor := (args.candidateID : ℕ) })
        ⟨args.electionTerm, true⟩

theorem requestVote_cases {args : RequestVoteArgs n} {reply : RequestVoteReply}
    (hv : rf.requestVote args = (rf', reply)) : Balloted rf args rf' reply := by
  unfold Raft.requestVote at hv
  by_cases hold : args.electionTerm < rf.term
  · rw [if_pos hold] at hv
    cases hv
    exact .stale hold
  rw [if_neg hold] at hv
  have hterm : rf.term ≤ args.electionTerm := not_lt.1 hold
  obtain ⟨-, hlog, -, -⟩ := raised_rest rf args.electionTerm
  have hfold : (if args.electionTerm > rf.term then rf.stepDownLocked args.electionTerm else rf) =
      raised rf args.electionTerm := rfl
  simp only [hfold, Raft.lastLogIndexLocked, Raft.lastLogTermLocked, hlog, raised_term hterm] at hv
  split_ifs at hv with hvote
  · cases hv
    simpa only [hlog, raised_term hterm] using Balloted.granted hterm hvote.1 hvote.2
  · cases hv
    exact .refused hterm

/-- a reply of a newer term, a vote counted, the last vote that was needed, and a refusal -/
inductive Counted (rf : Raft n Cmd) (term : ℕ) (reply : RequestVoteReply) : Raft n Cmd → Bool → Prop
  | higher : rf.term < reply.electionTerm → Counted rf term reply (rf.stepDownLocked reply.electionTerm) false
  | refused : reply.electionTerm ≤ rf.term → reply.vote = false → Counted rf term reply rf false
  | counted : reply.electionTerm ≤ rf.term → reply.vote = true →
      Counted rf term reply { rf with voteCount := rf.voteCount + 1 } false
  | won : reply.electionTerm ≤ rf.term → reply.vote = true → n / 2 < rf.voteCount + 1 → rf.state = .candidate →
      rf.term = term →
      Counted rf term reply (Raft.becomeLeaderLocked { rf with voteCount := rf.voteCount + 1 }) true

theorem requestVoteReply_cases {term : ℕ} {reply : RequestVoteReply} {won : Bool}
    (hv : rf.requestVoteReply term reply = (rf', won)) : Counted rf term reply rf' won := by
  unfold Raft.requestVoteReply at hv
  dsimp only at hv
  split_ifs at hv with hhigh hvote hwon
  · cases hv; exact .higher hhigh
  · cases hv; exact .won (not_lt.1 hhigh) hvote hwon.1 hwon.2.1 hwon.2.2
  · cases hv; exact .counted (not_lt.1 hhigh) hvote
  · cases hv; exact .refused (not_lt.1 hhigh) (by simpa using hvote)

/-! ## Heartbeats -/

/-- an old heartbeat, one of a newer term, and one of the node's own term -/
inductive Beaten (rf : Raft n Cmd) (args : HeartbeatArgs n) : Raft n Cmd → HeartbeatReply → Prop
  | stale : args.term < rf.term → Beaten rf args rf ⟨rf.term, false⟩
  | newer : rf.term < args.term →
      Beaten rf args (Raft.persist { rf with term := args.term, votedFor := -1, state := .follower })
        ⟨args.term, true⟩
  | same : args.term = rf.term → Beaten rf args (Raft.persist { rf with state := .follower }) ⟨rf.term, true⟩

theorem heartbeat_cases {args : HeartbeatArgs n} {reply : HeartbeatReply} (hb : rf.heartbeat args = (rf', reply)) :
    Beaten rf args rf' reply := by
  have hfollow : ∀ g : Raft n Cmd, (if g.state ≠ .follower then { g with state := .follower } else g) =
      { g with state := .follower } := by
    intro g
    split_ifs with hg
    · rfl
    · cases g; simp_all
  unfold Raft.heartbeat at hb
  simp only [hfollow] at hb
  split_ifs at hb with hold hnew
  · cases hb; exact .stale hold
  · cases hb; exact .newer hnew
  · cases hb; exact .same (le_antisymm (not_lt.1 hnew) (not_lt.1 hold))

/-- a heartbeat reply does nothing, makes the node step down to a newer term, or, since it is compared with the term the
heartbeat was sent in, within its own term -/
theorem heartbeatReply_cases (rf : Raft n Cmd) (t : ℕ) (reply : HeartbeatReply) :
    rf.heartbeatReply t reply = rf ∨
      (rf.term < reply.term ∧ rf.heartbeatReply t reply = rf.stepDownLocked reply.term) ∨
      (t < reply.term ∧ reply.term ≤ rf.term ∧
        rf.heartbeatReply t reply = Raft.persist { rf with votedFor := -1, state := .follower, voteCount := 0 }) := by
  unfold Raft.heartbeatReply
  split_ifs with hlt
  · by_cases hnew : rf.term < reply.term
    · exact Or.inr (Or.inl ⟨hnew, rfl⟩)
    · refine Or.inr (Or.inr ⟨hlt, not_lt.1 hnew, ?_⟩)
      unfold Raft.stepDownLocked
      rw [if_neg hnew]
  · exact Or.inl rfl

/-! ## AppendEntries -/

/-- the loop of `syncLocked` merges by terms -/
theorem syncLocked_eq {k : ℕ} (hk : k ≤ rf.log.length) (entries : List (LogEntry Cmd)) :
    rf.syncLocked k entries = { rf with log := merge LogEntry.term rf.log k entries } := by
  unfold Raft.syncLocked merge
  have hclamp : ¬ k > rf.log.length := by omega
  simp only [hclamp, if_false, List.length_eq_zero_iff]
  split_ifs with hnil hj
  · rfl
  · rfl
  · have hrest : entries.drop (matchLen LogEntry.term (rf.log.drop k) entries) = [] :=
      List.drop_of_length_le (by omega)
    rw [hrest, List.append_nil]

/-- a node hears of a leader of term `t`, which is not older than its own -/
def adopted (rf : Raft n Cmd) (t : ℕ) : Raft n Cmd :=
  if t > rf.term then rf.stepDownLocked t else { rf with state := .follower }

theorem adopted_state (t : ℕ) : (adopted rf t).state = .follower := by
  unfold adopted
  split_ifs <;> rfl

theorem adopted_term {t : ℕ} (ht : rf.term ≤ t) : (adopted rf t).term = t := by
  unfold adopted Raft.stepDownLocked Raft.persist
  split_ifs with hlt
  · rfl
  · exact le_antisymm ht (not_lt.1 hlt)

theorem adopted_rest (rf : Raft n Cmd) (t : ℕ) :
    (adopted rf t).me = rf.me ∧ (adopted rf t).log = rf.log ∧ (adopted rf t).commitIndex = rf.commitIndex ∧
      (adopted rf t).lastApplied = rf.lastApplied := by
  unfold adopted Raft.stepDownLocked Raft.persist
  dsimp only
  split_ifs <;> exact ⟨rfl, rfl, rfl, rfl⟩

/-- a request of an old term, a request that does not fit the log, and one that does -/
inductive Appended (rf : Raft n Cmd) (args : AppendEntriesArgs n Cmd) : Raft n Cmd → AppendEntriesReply → Prop
  | stale {reply : AppendEntriesReply} : args.term < rf.term → reply.success = false → reply.term = rf.term →
      Appended rf args rf reply
  | refused {reply : AppendEntriesReply} : rf.term ≤ args.term → reply.success = false → reply.term = rf.term →
      Appended rf args (adopted rf args.term) reply
  | accepted {reply : AppendEntriesReply} : rf.term ≤ args.term → args.prevLogIndex < rf.log.length →
      rf.termAtLocked args.prevLogIndex = args.prevLogTerm → reply.success = true → reply.term = args.term →
      Appended rf args
        { Raft.persist { adopted rf args.term with
            log := merge LogEntry.term rf.log (args.prevLogIndex + 1) args.entries } with
          commitIndex :=
            if args.leaderCommit > rf.commitIndex then
              min args.leaderCommit ((merge LogEntry.term rf.log (args.prevLogIndex + 1) args.entries).length - 1)
            else rf.commitIndex } reply

/-- the commit index follows the leader's as far as the log goes -/
theorem followCommit_eq (k : ℕ) :
    (if k > rf.commitIndex then
      { rf with commitIndex := if k < rf.lastLogIndexLocked then k else rf.lastLogIndexLocked } else rf) =
    { rf with commitIndex := if k > rf.commitIndex then min k rf.lastLogIndexLocked else rf.commitIndex } := by
  split_ifs with h1 h2
  · rw [min_eq_left h2.le]
  · rw [min_eq_right (not_lt.1 h2)]
  · rfl

theorem firstIndexOf_congr (hl : rf'.log = rf.log) (ct : ℤ) (i : ℕ) : rf'.firstIndexOf ct i = rf.firstIndexOf ct i := by
  have ht : rf'.termAtLocked = rf.termAtLocked := by
    funext j
    simp only [Raft.termAtLocked, hl]
  induction i with
  | zero => rfl
  | succ i ih => simp only [Raft.firstIndexOf, ht, ih]

/-- the answer to a request that is not of an old term -/
theorem appendEntries_eq (args : AppendEntriesArgs n Cmd) (hl : rf.log ≠ []) (hterm : rf.term ≤ args.term) :
    rf.appendEntries args =
      if rf.log.length ≤ args.prevLogIndex then (adopted rf args.term, ⟨rf.term, false, -1, rf.log.length⟩)
      else if rf.termAtLocked args.prevLogIndex ≠ args.prevLogTerm then
        (adopted rf args.term, ⟨rf.term, false, rf.termAtLocked args.prevLogIndex,
          rf.firstIndexOf (rf.termAtLocked args.prevLogIndex) args.prevLogIndex⟩)
      else
        ({ Raft.persist { adopted rf args.term with
            log := merge LogEntry.term rf.log (args.prevLogIndex + 1) args.entries } with
          commitIndex :=
            if args.leaderCommit > rf.commitIndex then
              min args.leaderCommit ((merge LogEntry.term rf.log (args.prevLogIndex + 1) args.entries).length - 1)
            else rf.commitIndex }, ⟨args.term, true, 0, 0⟩) := by
  have hadopt : (if args.term > rf.term then rf.stepDownLocked args.term
      else if rf.state ≠ .follower then { rf with state := .follower } else rf) = adopted rf args.term := by
    unfold adopted
    split_ifs with h1 h2
    · rfl
    · rfl
    · cases rf; simp_all
  have hpos : 0 < rf.log.length := List.length_pos_iff.mpr hl
  obtain ⟨-, hlog, hcommit, -⟩ := adopted_rest rf args.term
  have hlast : (adopted rf args.term).lastLogIndexLocked = rf.log.length - 1 := by
    rw [Raft.lastLogIndexLocked, hlog]
  have htermAt : (adopted rf args.term).termAtLocked args.prevLogIndex = rf.termAtLocked args.prevLogIndex := by
    simp only [Raft.termAtLocked, hlog]
  unfold Raft.appendEntries
  rw [if_neg (not_lt.mpr hterm)]
  dsimp only
  rw [hadopt, hlast, htermAt, firstIndexOf_congr hlog]
  by_cases hshort : rf.log.length ≤ args.prevLogIndex
  · rw [if_pos hshort, if_pos (by omega), Nat.sub_add_cancel hpos]
  rw [if_neg hshort, if_neg (by omega)]
  by_cases hmismatch : rf.termAtLocked args.prevLogIndex ≠ args.prevLogTerm
  · rw [if_pos hmismatch, if_pos hmismatch]
  · rw [if_neg hmismatch, if_neg hmismatch, syncLocked_eq (by rw [hlog]; omega), followCommit_eq, hlog]
    simp only [Raft.lastLogIndexLocked, Raft.persist, hcommit, adopted_term hterm]

theorem appendEntries_cases {args : AppendEntriesArgs n Cmd} {reply : AppendEntriesReply} (hl : rf.log ≠ [])
    (ha : rf.appendEntries args = (rf', reply)) : Appended rf args rf' reply := by
  by_cases hold : args.term < rf.term
  · rw [Raft.appendEntries, if_pos hold] at ha
    cases ha
    exact .stale hold rfl rfl
  have hterm : rf.term ≤ args.term := not_lt.1 hold
  rw [appendEntries_eq args hl hterm] at ha
  by_cases hshort : rf.log.length ≤ args.prevLogIndex
  · rw [if_pos hshort] at ha
    cases ha
    exact .refused hterm rfl rfl
  rw [if_neg hshort] at ha
  by_cases hmismatch : rf.termAtLocked args.prevLogIndex ≠ args.prevLogTerm
  · rw [if_pos hmismatch] at ha
    cases ha
    exact .refused hterm rfl rfl
  · rw [if_neg hmismatch] at ha
    cases ha
    exact .accepted hterm (not_le.1 hshort) (not_not.1 hmismatch) rfl rfl

theorem firstIndexOf_le (rf : Raft n Cmd) (ct : ℤ) (i : ℕ) : rf.firstIndexOf ct i ≤ i := by
  induction i with
  | zero => exact le_rfl
  | succ i ih =>
    simp only [Raft.firstIndexOf]
    split_ifs
    · exact Nat.le_succ_of_le ih
    · exact le_rfl

/-- the hint of a refused request lies at or below the entry that was compared -/
theorem appendEntries_conflict (args : AppendEntriesArgs n Cmd) (hf : (rf.appendEntries args).2.success = false) :
    (rf.appendEntries args).2.conflictIndex ≤ args.prevLogIndex := by
  unfold Raft.appendEntries at hf ⊢
  by_cases hold : args.term < rf.term
  · rw [if_pos hold]
    exact Nat.zero_le _
  rw [if_neg hold] at hf ⊢
  dsimp only at hf ⊢
  -- the node after it has heard of the leader; only its log matters here
  generalize (if args.term > rf.term then rf.stepDownLocked args.term
    else if rf.state ≠ .follower then { rf with state := .follower } else rf) = rf₁ at hf ⊢
  by_cases hshort : args.prevLogIndex > rf₁.lastLogIndexLocked
  · rw [if_pos hshort]
    exact hshort
  rw [if_neg hshort] at hf ⊢
  by_cases hmismatch : rf₁.termAtLocked args.prevLogIndex ≠ args.prevLogTerm
  · rw [if_pos hmismatch]
    exact firstIndexOf_le _ _ _
  · rw [if_neg hmismatch] at hf
    cases hf

/-- the guards that a request has passed when it is accepted -/
theorem appendEntries_accepted {args : AppendEntriesArgs n Cmd} (hs : (rf.appendEntries args).2.success = true) :
    rf.term ≤ args.term ∧ args.prevLogIndex ≤ rf.lastLogIndexLocked ∧
      rf.termAtLocked args.prevLogIndex = args.prevLogTerm := by
  unfold Raft.appendEntries at hs
  by_cases hold : args.term < rf.term
  · rw [if_pos hold] at hs
    cases hs
  rw [if_neg hold] at hs
  dsimp only at hs
  generalize hadopt : (if args.term > rf.term then rf.stepDownLocked args.term
    else if rf.state ≠ .follower then { rf with state := .follower } else rf) = rf₁ at hs
  have hlog : rf₁.log = rf.log := by
    rw [← hadopt]
    unfold Raft.stepDownLocked Raft.persist
    split_ifs <;> rfl
  simp only [Raft.lastLogIndexLocked, Raft.termAtLocked, ← hlog]
  by_cases hshort : args.prevLogIndex > rf₁.lastLogIndexLocked
  · rw [if_pos hshort] at hs
    cases hs
  rw [if_neg hshort] at hs
  by_cases hmismatch : rf₁.termAtLocked args.prevLogIndex ≠ args.prevLogTerm
  · rw [if_pos hmismatch] at hs
    cases hs
  · exact ⟨not_lt.1 hold, not_lt.1 hshort, not_not.1 hmismatch⟩

/-! ## Replication -/

/-- a node that no longer leads sends nothing and stays as it is -/
theorem replicateSend_none {peer : Fin n} {leaderTerm : ℕ}
    (hs : rf.replicateSend peer leaderTerm = some (rf', none)) : rf' = rf := by
  unfold Raft.replicateSend at hs
  split_ifs at hs with hc
  · cases hs; rfl
  · simp only [Option.bind_eq_bind, Option.bind_eq_some_iff] at hs
    obtain ⟨next, -, hs⟩ := hs
    split_ifs at hs <;> cases hs

/-- what a request says about the leader that built it -/
structure Requests (rf : Raft n Cmd) (args : AppendEntriesArgs n Cmd) : Prop where
  leader : rf.state = .leader
  term : args.term = rf.term
  leaderID : args.leaderID = rf.me
  prevLogIndex : args.prevLogIndex < rf.log.length
  prevLogTerm : args.prevLogTerm = rf.termAtLocked args.prevLogIndex
  entries : args.entries = rf.log.drop (args.prevLogIndex + 1)
  leaderCommit : args.leaderCommit = rf.commitIndex

theorem replicateSend_some {peer : Fin n} {leaderTerm : ℕ} {args : AppendEntriesArgs n Cmd}
    (hs : rf.replicateSend peer leaderTerm = some (rf', some args)) :
    Requests rf args ∧ ∃ nextIndex, rf' = { rf with nextIndex := nextIndex } := by
  unfold Raft.replicateSend at hs
  by_cases hc : rf.state ≠ .leader ∨ rf.term ≠ leaderTerm
  · rw [if_pos hc] at hs; cases hs
  rw [if_neg hc] at hs
  obtain ⟨hleader, -⟩ := not_or.1 hc
  have hleader := not_not.1 hleader
  simp only [Option.bind_eq_bind, Option.bind_eq_some_iff] at hs
  obtain ⟨next, -, hs⟩ := hs
  split_ifs at hs with h1 h2 h2
  · cases hs
    exact ⟨⟨hleader, rfl, rfl, by dsimp only at h2 ⊢; omega, rfl, rfl, rfl⟩, _, rfl⟩
  · cases hs
    refine ⟨⟨hleader, rfl, rfl, by dsimp only; omega, rfl, ?_, rfl⟩, rf.nextIndex, rfl⟩
    simp only [show next - 1 + 1 = next by omega]

theorem commitSearch_some {N₀ N : ℕ} (hs : rf.commitSearch N₀ = some (some N)) :
    rf.commitIndex < N ∧ (∃ e, rf.log[N]? = some e ∧ e.term = rf.term) ∧ n / 2 < rf.countMatch N := by
  induction N₀ with
  | zero => simp [Raft.commitSearch] at hs
  | succ M ih =>
    simp only [Raft.commitSearch] at hs
    by_cases hlt : M + 1 > rf.commitIndex
    · rw [if_pos hlt] at hs
      simp only [Option.bind_eq_bind, Option.bind_eq_some_iff] at hs
      obtain ⟨e, he, hs⟩ := hs
      split_ifs at hs with hterm hcount
      · exact ih hs
      · cases hs
        exact ⟨hlt, ⟨e, he, not_not.1 hterm⟩, hcount⟩
      · exact ih hs
    · rw [if_neg hlt] at hs
      cases hs

/-- the slices after an acknowledgement: as they were, or with the entries of the request counted -/
def Noted (rf : Raft n Cmd) (peer : Fin n) (args : AppendEntriesArgs n Cmd) (matchIndex nextIndex : List ℕ) : Prop :=
  (matchIndex = rf.matchIndex ∧ nextIndex = rf.nextIndex) ∨
    (matchIndex = rf.matchIndex.set peer (args.prevLogIndex + args.entries.length) ∧
      nextIndex = rf.nextIndex.set peer (args.prevLogIndex + args.entries.length + 1))

/-- what `replicateTo` can do with a reply: step down, find that it no longer leads, raise matchIndex and perhaps
commit, or go back and try again -/
inductive Replied (rf : Raft n Cmd) (peer : Fin n) (args : AppendEntriesArgs n Cmd) (reply : AppendEntriesReply) :
    Raft n Cmd → Next → Prop
  | higher : rf.term < reply.term → Replied rf peer args reply (rf.stepDownLocked reply.term) .done
  | ignored : Replied rf peer args reply rf .done
  | matched {matchIndex nextIndex : List ℕ} : rf.term = args.term → rf.state = .leader → reply.success = true →
      Noted rf peer args matchIndex nextIndex →
      { rf with matchIndex := matchIndex, nextIndex := nextIndex }.tryAdvanceCommitLocked =
        some ({ rf with matchIndex := matchIndex, nextIndex := nextIndex }, false) →
      Replied rf peer args reply { rf with matchIndex := matchIndex, nextIndex := nextIndex } .done
  | pushed {matchIndex nextIndex : List ℕ} {N : ℕ} : rf.term = args.term → rf.state = .leader →
      reply.success = true → Noted rf peer args matchIndex nextIndex →
      { rf with matchIndex := matchIndex, nextIndex := nextIndex }.tryAdvanceCommitLocked =
        some ({ rf with matchIndex := matchIndex, nextIndex := nextIndex, commitIndex := N }, true) →
      Replied rf peer args reply
        { rf with matchIndex := matchIndex, nextIndex := nextIndex, commitIndex := N } .pushed
  | rejected {next : ℕ} : reply.term ≤ rf.term → rf.term = args.term → rf.state = .leader → reply.success = false →
      next = reply.conflictIndex ∨
        (∃ last, rf.lastIndexOf reply.conflictTerm rf.lastLogIndexLocked = some (some last) ∧ next = last + 1) →
      Replied rf peer args reply { rf with nextIndex := rf.nextIndex.set peer (if next < 1 then 1 else next) } .retry

/-- the search for an index to commit, after matchIndex was raised -/
theorem tryAdvanceCommitLocked_cases {adv : Bool} (ht : rf.tryAdvanceCommitLocked = some (rf', adv)) :
    (rf' = rf ∧ adv = false) ∨ ∃ N, rf' = { rf with commitIndex := N } ∧ adv = true ∧
      rf.commitSearch rf.lastLogIndexLocked = some (some N) := by
  unfold Raft.tryAdvanceCommitLocked at ht
  simp only [Option.bind_eq_bind, Option.bind_eq_some_iff] at ht
  obtain ⟨r, hr, ht⟩ := ht
  cases r with
  | none => cases ht; exact Or.inl ⟨rfl, rfl⟩
  | some N => cases ht; exact Or.inr ⟨N, rfl, rfl, hr⟩

/-- an index that is committed is new, holds an entry of the current term, and a majority has it -/
theorem tryAdvanceCommitLocked_pushed {N : ℕ}
    (ht : rf.tryAdvanceCommitLocked = some ({ rf with commitIndex := N }, true)) :
    rf.commitIndex < N ∧ (∃ e, rf.log[N]? = some e ∧ e.term = rf.term) ∧ n / 2 < rf.countMatch N := by
  rcases tryAdvanceCommitLocked_cases ht with ⟨-, hno⟩ | ⟨M, he, -, hM⟩
  · cases hno
  · obtain rfl : N = M := congrArg Raft.commitIndex he
    exact commitSearch_some hM

theorem Replied.acknowledged {peer : Fin n} {args : AppendEntriesArgs n Cmd} {reply : AppendEntriesReply}
    (hterm : rf.term = args.term) (hstate : rf.state = .leader) (hsucc : reply.success = true)
    {matchIndex nextIndex : List ℕ} (hset : Noted rf peer args matchIndex nextIndex) {adv : Bool}
    (hadv : { rf with matchIndex := matchIndex, nextIndex := nextIndex }.tryAdvanceCommitLocked = some (rf', adv)) :
    Replied rf peer args reply rf' (if adv then .pushed else .done) := by
  rcases tryAdvanceCommitLocked_cases hadv with ⟨rfl, rfl⟩ | ⟨N, rfl, rfl, -⟩
  · exact .matched hterm hstate hsucc hset hadv
  · exact .pushed hterm hstate hsucc hset hadv

theorem replicateReply_cases {peer : Fin n} {args : AppendEntriesArgs n Cmd} {reply : AppendEntriesReply} {next : Next}
    (hr : rf.replicateReply peer args.term args reply = some (rf', next)) : Replied rf peer args reply rf' next := by
  unfold Raft.replicateReply at hr
  by_cases hhigh : reply.term > rf.term
  · rw [if_pos hhigh] at hr
    cases hr
    exact .higher hhigh
  rw [if_neg hhigh] at hr
  by_cases hlead : rf.term ≠ args.term ∨ rf.state ≠ .leader
  · rw [if_pos hlead] at hr
    cases hr
    exact .ignored
  rw [if_neg hlead] at hr
  obtain ⟨hterm, hstate⟩ := not_or.1 hlead
  have hterm := not_not.1 hterm
  have hstate := not_not.1 hstate
  by_cases hsucc : reply.success = true
  · rw [if_pos hsucc] at hr
    simp only [Option.bind_eq_bind, Option.bind_eq_some_iff] at hr
    obtain ⟨cur, -, ⟨rf₂, adv⟩, hadv, hr⟩ := hr
    cases hr
    split_ifs at hadv
    · exact .acknowledged hterm hstate hsucc (Or.inr ⟨rfl, rfl⟩) hadv
    · exact .acknowledged hterm hstate hsucc (Or.inl ⟨rfl, rfl⟩) hadv
  · have hfail : reply.success = false := by simpa using hsucc
    rw [if_neg hsucc] at hr
    simp only [Option.bind_eq_bind, Option.bind_eq_some_iff] at hr
    obtain ⟨-, -, hr⟩ := hr
    by_cases hshort : reply.conflictTerm = -1
    · rw [if_pos hshort] at hr
      cases hr
      exact .rejected (not_lt.1 hhigh) hterm hstate hfail (Or.inl rfl)
    · rw [if_neg hshort] at hr
      simp only [Option.bind_eq_some_iff] at hr
      obtain ⟨last, hlast, hr⟩ := hr
      cases last with
      | none =>
        cases hr
        exact .rejected (not_lt.1 hhigh) hterm hstate hfail (Or.inl rfl)
      | some last =>
        cases hr
        exact .rejected (not_lt.1 hhigh) hterm hstate hfail (Or.inr ⟨last, hlast, rfl⟩)

/-- the search for an index to commit stays inside the log -/
theorem commitSearch_isSome {N : ℕ} (hN : N = 0 ∨ N < rf.log.length) : (rf.commitSearch N).isSome := by
  induction N with
  | zero => rfl
  | succ N ih =>
    have hget : rf.log[N + 1]? = some rf.log[N + 1] := List.getElem?_eq_getElem (by omega)
    simp only [Raft.commitSearch, hget, Option.bind_eq_bind, Option.bind_some]
    have hrest := ih (by omega)
    split_ifs <;> first | exact hrest | rfl

theorem tryAdvanceCommitLocked_isSome (rf : Raft n Cmd) : rf.tryAdvanceCommitLocked.isSome := by
  have hs : (rf.commitSearch rf.lastLogIndexLocked).isSome :=
    commitSearch_isSome (by unfold Raft.lastLogIndexLocked; omega)
  obtain ⟨r, hr⟩ := Option.isSome_iff_exists.1 hs
  simp only [Raft.tryAdvanceCommitLocked, hr, Option.bind_eq_bind, Option.bind_some]
  cases r <;> rfl

/-- the search takes the largest index there is to commit -/
theorem commitSearch_max {M : ℕ} {r : Option ℕ} (hs : rf.commitSearch M = some r) {N : ℕ}
    (hN : r.getD rf.commitIndex < N) (hM : N ≤ M) {e : LogEntry Cmd} (he : rf.log[N]? = some e)
    (ht : e.term = rf.term) : rf.countMatch N ≤ n / 2 := by
  induction M with
  | zero => omega
  | succ M ih =>
    simp only [Raft.commitSearch] at hs
    by_cases hlt : M + 1 > rf.commitIndex
    · rw [if_pos hlt] at hs
      simp only [Option.bind_eq_bind, Option.bind_eq_some_iff] at hs
      obtain ⟨e', he', hs⟩ := hs
      rcases Nat.lt_or_eq_of_le hM with hlow | rfl
      · -- below the index the loop looks at
        split_ifs at hs with hterm hcount
        · exact ih hs (by omega)
        · cases hs
          simp only [Option.getD_some] at hN
          omega
        · exact ih hs (by omega)
      · rw [he] at he'
        cases he'
        rw [if_neg (not_not.2 ht)] at hs
        by_cases hcount : rf.countMatch (M + 1) > n / 2
        · rw [if_pos hcount] at hs
          cases hs
          exact absurd hN (lt_irrefl _)
        · exact not_lt.1 hcount
    · rw [if_neg hlt] at hs
      cases hs
      simp only [Option.getD_none] at hN
      omega

/-- whether or not it advanced, the commit index is behind no index that could be committed -/
theorem tryAdvanceCommitLocked_max {adv : Bool} (ht : rf.tryAdvanceCommitLocked = some (rf', adv)) :
    ∃ N, rf' = { rf with commitIndex := N } ∧ ∀ M e, N < M → rf.log[M]? = some e → e.term = rf.term →
      rf.countMatch M ≤ n / 2 := by
  unfold Raft.tryAdvanceCommitLocked at ht
  simp only [Option.bind_eq_bind, Option.bind_eq_some_iff] at ht
  obtain ⟨r, hr, ht⟩ := ht
  have hmax : ∀ M e, r.getD rf.commitIndex < M → rf.log[M]? = some e → e.term = rf.term → rf.countMatch M ≤ n / 2 := by
    intro M e hM he hterm
    have hlt := (List.getElem?_eq_some_iff.1 he).1
    exact commitSearch_max hr hM (by unfold Raft.lastLogIndexLocked; omega) he hterm
  cases r with
  | none => cases ht; exact ⟨rf.commitIndex, rfl, hmax⟩
  | some N => cases ht; exact ⟨N, rfl, hmax⟩

/-- the leader's scan for a term stays inside the log -/
theorem lastIndexOf_isSome (ct : ℤ) {i : ℕ} (hi : i = 0 ∨ i < rf.log.length) : (rf.lastIndexOf ct i).isSome := by
  induction i with
  | zero => rfl
  | succ i ih =>
    have hget : rf.log[i + 1]? = some rf.log[i + 1] := List.getElem?_eq_getElem (by omega)
    simp only [Raft.lastIndexOf, hget, Option.bind_eq_bind, Option.bind_some]
    have hrest := ih (by omega)
    split_ifs <;> first | exact hrest | rfl

theorem lastIndexOf_le {ct : ℤ} {i last : ℕ} (hs : rf.lastIndexOf ct i = some (some last)) : last ≤ i := by
  induction i with
  | zero => cases hs
  | succ i ih =>
    simp only [Raft.lastIndexOf, Option.bind_eq_bind, Option.bind_eq_some_iff] at hs
    obtain ⟨e, -, hs⟩ := hs
    split_ifs at hs
    · cases hs; exact le_rfl
    · cases hs
    · exact Nat.le_succ_of_le (ih hs)

/-! ## Clients -/

/-- the applier waits, or takes the entry after the last one it applied -/
theorem applier_cases (rf : Raft n Cmd) :
    rf.applier = (rf, none) ∨ ∃ e, rf.lastApplied < rf.commitIndex ∧ rf.log[rf.lastApplied + 1]? = some e ∧
      rf.applier = ({ rf with lastApplied := rf.lastApplied + 1 }, some ⟨rf.lastApplied + 1, e.command⟩) := by
  unfold Raft.applier
  split_ifs with hle
  · exact Or.inl rfl
  · split
    · exact Or.inl rfl
    · rename_i e he
      exact Or.inr ⟨e, not_le.1 hle, he, rfl⟩

/-- a leader appends the command to its own log -/
theorem start_leader (hl : rf.state = .leader) (command : Option Cmd) :
    (rf.start command).1 =
      { Raft.persist { rf with log := rf.log ++ [⟨rf.term, command⟩] } with
        matchIndex := rf.matchIndex.set rf.me rf.log.length
        nextIndex := rf.nextIndex.set rf.me (rf.log.length + 1) } := by
  simp [Raft.start, Raft.persist, hl]

end CS240.Raft
