/-
Invariants of nextIndex, matchIndex and the commit index that follows from them.

- `run_leading`: what each of the five ways of `Books` keeps holds of every leader.
- `indices_in_range`: no access of the leader to its log or its slices is out of range, in any run.
- `commit_not_late`: a leader of at least two nodes has committed whatever its matchIndex allows; `commit_late` is a
  single node that has not.
- `nextIndex_ahead`: nextIndex stays ahead of matchIndex, in runs in which no peer's rejection is handled after an
  acknowledgement of it; `nextIndex_behind` is a run in which one is.
-/
import CS240.Raft.Bookkeeping

namespace CS240.Raft

open Lib

variable {n : ℕ} {Cmd : Type} {rf rf' : Raft n Cmd} {p : Fin n} {h h' evs : List (Event (Fin n) Cmd)}
  {s s' : Cluster n Cmd} {a : Action n Cmd} {ok : Cluster n Cmd → Action n Cmd → Prop} {rejected : Fin n → Prop}

/-! ## Bounds -/

/-- a slice with a place for every peer -/
theorem getElem?_slice {l : List ℕ} (hlen : l.length = n) (q : Fin n) : l[q.val]? = some (l.getD q 0) := by
  have hlt : q.val < l.length := by omega
  rw [List.getD_eq_getElem?_getD, List.getElem?_eq_getElem hlt]
  rfl

/-- both slices have a place for every peer, and their entries lie inside the log -/
structure IndicesOk (rf : Raft n Cmd) : Prop where
  nextIndex : rf.nextIndex.length = n
  matchIndex : rf.matchIndex.length = n
  next : ∀ k ∈ rf.nextIndex, 1 ≤ k ∧ k ≤ rf.log.length
  matched : ∀ k ∈ rf.matchIndex, k < rf.log.length

theorem forall_mem_set {P : ℕ → Prop} {l : List ℕ} {i v : ℕ} (hl : ∀ k ∈ l, P k) (hv : P v) :
    ∀ k ∈ l.set i v, P k := by
  intro k hk
  rcases List.mem_or_eq_of_mem_set hk with hk | rfl
  · exact hl k hk
  · exact hv

theorem Books.indicesOk (hb : Books rejected rf rf') (hlog : rf'.log ≠ []) (hI : rf.state = .leader → IndicesOk rf) :
    IndicesOk rf' := by
  have hpos := List.length_pos_iff.2 hlog
  cases hb with
  | kept hl _ _ hlog' _ hni hmi =>
    obtain ⟨h1, h2, h3, h4⟩ := hI hl
    exact ⟨hni ▸ h1, hmi ▸ h2, by rwa [hni, hlog'], by rwa [hmi, hlog']⟩
  | elected _ hni hmi =>
    have hlast : rf'.lastLogIndexLocked + 1 = rf'.log.length := by
      unfold Raft.lastLogIndexLocked
      omega
    refine ⟨by rw [hni, List.length_replicate], by rw [hmi, List.length_set, List.length_replicate], ?_, ?_⟩
    · intro k hk
      rw [hni] at hk
      have hk := List.eq_of_mem_replicate hk
      omega
    · rw [hmi]
      refine forall_mem_set ?_ (by omega)
      intro k hk
      rw [List.eq_of_mem_replicate hk]
      exact hpos
  | started command hl =>
    obtain ⟨h1, h2, h3, h4⟩ := hI hl
    rw [start_leader hl]
    simp only [Raft.persist]
    have hlen : ∀ e : LogEntry Cmd, (rf.log ++ [e]).length = rf.log.length + 1 := fun _ => List.length_append
    refine ⟨by simpa using h1, by simpa using h2, forall_mem_set ?_ (by simp), forall_mem_set ?_ (by simp)⟩
    · intro k hk
      exact ⟨(h3 k hk).1, (hlen _).symm ▸ Nat.le_succ_of_le (h3 k hk).2⟩
    · intro k hk
      exact (hlen _).symm ▸ Nat.lt_succ_of_lt (h4 k hk)
  | acknowledged peer hl hk hset htry =>
    obtain ⟨h1, h2, h3, h4⟩ := hI hl
    obtain ⟨N, rfl, -⟩ := tryAdvanceCommitLocked_max htry
    rcases hset with ⟨rfl, rfl⟩ | ⟨rfl, rfl⟩
    · exact ⟨h1, h2, h3, h4⟩
    · exact ⟨by simpa using h1, by simpa using h2, forall_mem_set h3 ⟨Nat.succ_pos _, hk⟩, forall_mem_set h4 hk⟩
  | rejected hl _ hge hle =>
    obtain ⟨h1, h2, h3, h4⟩ := hI hl
    exact ⟨by simpa using h1, h2, forall_mem_set h3 ⟨hge, hle⟩, h4⟩

/-- the step makes `p` handle a rejection of `q` -/
def Rejected (s : Cluster n Cmd) (a : Action n Cmd) (p q : Fin n) : Prop :=
  ∃ m, s.received a = some (p, m) ∧ m.rejects (s.rf p) ∧ q = m.server

theorem step_books (hI : Refines s.rf s.net h) (hR : ∀ m ∈ s.net, ReplyOk h m)
    (hS : ∀ p, (s.rf p).me = p ∧ Saved (s.rf p)) (hN : ∀ p, (s.rf p).state = .leader → IndicesOk (s.rf p))
    (hs : s.step a = some (s', evs)) :
    ∀ p, (s'.rf p).state = .leader → Books (Rejected s a p) (s.rf p) (s'.rf p) := by
  have update : ∀ q rf, (rf.state = .leader → Books (Rejected s a q) (s.rf q) rf) →
      ∀ p, (Function.update s.rf q rf p).state = .leader →
        Books (Rejected s a p) (s.rf p) (Function.update s.rf q rf p) := by
    intro q rf hrf
    exact (Function.forall_update_iff s.rf fun p rf => rf.state = .leader → Books (Rejected s a p) (s.rf p) rf).2
      ⟨hrf, fun _ _ hl => .refl hl⟩
  have hB := hI.reach.basic
  refine step_preserves (J := fun R _ _ => ∀ p, (R p).state = .leader → Books (Rejected s a p) (s.rf p) (R p))
    (h := h) hs (fun _ p hl => .refl hl) (fun _ _ _ p hl => .refl hl) ?_ ?_ ?_
  · intro net q t _ _
    refine update q _ ?_
    intro hl
    rw [crash_made (hS q).2] at hl
    cases hl
  · intro q task rf out evs _ ha
    refine update q rf ?_
    exact ha.books (hS q).2 (hB.nodes q).terms (fun hl k hk => ((hN q hl).next k hk).1)
  · intro q m k rf out evs hrec hk hq hr
    refine update q rf ?_
    refine hr.books (hS q).2 ?_ ?_ ?_
    · intro hc
      exact (hB.events _ ((hB.nodes q).candidate hc)).2
    · intro args rest reply hbody hl ht
      have hclient : q = m.client := by simpa [Message.target, Message.isRequest, hbody] using hq
      subst hclient
      exact (hR m (List.mem_of_getElem? hk)).bound hI.reach hbody hl ht
    · intro hrej
      exact ⟨m, hrec, hrej, rfl⟩

theorem run_indicesOk (hr : (machine n Cmd).Run ok s h) : ∀ p, (s.rf p).state = .leader → IndicesOk (s.rf p) := by
  induction hr with
  | init => exact fun p hl => by cases hl
  | step hr ha hs ih =>
    intro p hl
    have hb := step_books (run_refines hr) (run_replyOk hr) (run_saved hr) ih hs p hl
    exact hb.indicesOk (run_saved (hr.step ha hs) p).2.log (ih p)

/-- what a leader's bookkeeping keeps holds of every leader -/
theorem run_leading {P : Raft n Cmd → Prop}
    (hP : ∀ s a p rf', ok s a → Books (Rejected s a p) (s.rf p) rf' → ((s.rf p).state = .leader → IndicesOk (s.rf p)) →
      ((s.rf p).state = .leader → P (s.rf p)) → P rf')
    (hr : (machine n Cmd).Run ok s h) : ∀ p, (s.rf p).state = .leader → P (s.rf p) := by
  induction hr with
  | init => exact fun p hl => by cases hl
  | step hr ha hs ih =>
    intro p hl
    have hN := run_indicesOk hr
    exact hP _ _ p _ ha (step_books (run_refines hr) (run_replyOk hr) (run_saved hr) hN hs p hl) (hN p) (ih p)

/-- a leader builds requests without going out of range -/
theorem replicateSend_isSome (hN : rf.state = .leader → IndicesOk rf) (peer : Fin n) (leaderTerm : ℕ) :
    (rf.replicateSend peer leaderTerm).isSome := by
  unfold Raft.replicateSend
  by_cases hc : rf.state ≠ .leader ∨ rf.term ≠ leaderTerm
  · rw [if_pos hc]; rfl
  obtain ⟨hl, -⟩ := not_or.1 hc
  obtain ⟨h1, -, h3, -⟩ := hN (not_not.1 hl)
  have hget := getElem?_slice h1 peer
  obtain ⟨hge, hle⟩ := h3 _ (List.mem_of_getElem? hget)
  rw [if_neg hc, hget]
  simp only [Option.bind_eq_bind, Option.bind_some, if_neg (not_lt.2 hge), if_neg (not_lt.2 hle)]
  rfl

/-- a leader handles replies without going out of range -/
theorem replicateReply_isSome (hN : rf.state = .leader → IndicesOk rf) (peer : Fin n) (args : AppendEntriesArgs n Cmd)
    (reply : AppendEntriesReply) : (rf.replicateReply peer args.term args reply).isSome := by
  unfold Raft.replicateReply
  by_cases hhigh : reply.term > rf.term
  · rw [if_pos hhigh]; rfl
  by_cases hlead : rf.term ≠ args.term ∨ rf.state ≠ .leader
  · rw [if_neg hhigh, if_pos hlead]; rfl
  rw [if_neg hhigh, if_neg hlead]
  obtain ⟨-, hl⟩ := not_or.1 hlead
  obtain ⟨h1, h2, -, -⟩ := hN (not_not.1 hl)
  have hnext := getElem?_slice h1 peer
  have hmatch := getElem?_slice h2 peer
  by_cases hsucc : reply.success = true
  · simp only [if_pos hsucc, hmatch, Option.bind_eq_bind, Option.bind_some]
    generalize (if args.prevLogIndex + args.entries.length > rf.matchIndex.getD peer 0 then _ else rf) = rf₁
    obtain ⟨r, hr⟩ := Option.isSome_iff_exists.1 (tryAdvanceCommitLocked_isSome rf₁)
    rw [hr]
    rfl
  · have hscan : (rf.lastIndexOf reply.conflictTerm rf.lastLogIndexLocked).isSome :=
      lastIndexOf_isSome _ (by unfold Raft.lastLogIndexLocked; omega)
    obtain ⟨r, hr⟩ := Option.isSome_iff_exists.1 hscan
    rw [if_neg hsucc, hnext, hr]
    by_cases hshort : reply.conflictTerm = -1
    · simp only [if_pos hshort, Option.bind_eq_bind, Option.bind_some, Option.isSome_some]
    · cases r <;> simp only [if_neg hshort, Option.bind_eq_bind, Option.bind_some, Option.isSome_some]

/-- **No access of a leader is out of range**: in every state of every run, a leader's slices have a place for each
peer, nextIndex lies between 1 and the length of the log and matchIndex at or below its last index, and at any later
point of the run at which the node leads in the same term its log has only grown. So building a request, handling any
reply that is in flight to it, and looking for an index to commit do not panic. -/
theorem indices_in_range (hr : (machine n Cmd).Run Machine.free s h) (p : Fin n) (hl : (s.rf p).state = .leader) :
    (s.rf p).nextIndex.length = n ∧ (s.rf p).matchIndex.length = n ∧
    (∀ q : Fin n, ∃ k, (s.rf p).nextIndex[q.val]? = some k ∧ 1 ≤ k ∧ k ≤ (s.rf p).log.length) ∧
    (∀ q : Fin n, ∃ k, (s.rf p).matchIndex[q.val]? = some k ∧ k ≤ (s.rf p).lastLogIndexLocked) ∧
    (∀ s' h', (machine n Cmd).Path Machine.free s h s' h' → (s'.rf p).state = .leader →
      (s'.rf p).term = (s.rf p).term → (s.rf p).log <+: (s'.rf p).log) ∧
    (∀ peer leaderTerm, ((s.rf p).replicateSend peer leaderTerm).isSome) ∧
    (∀ m ∈ s.net, ∀ args rest reply, m.body = .appendEntriesReply args rest reply → m.client = p →
      ((s.rf p).replicateReply m.server args.term args reply).isSome) ∧
    (s.rf p).tryAdvanceCommitLocked.isSome := by
  have hN := run_indicesOk hr p
  obtain ⟨h1, h2, h3, h4⟩ := hN hl
  refine ⟨h1, h2, ?_, ?_, ?_, replicateSend_isSome hN, ?_, tryAdvanceCommitLocked_isSome _⟩
  · intro q
    have hget := getElem?_slice h1 q
    exact ⟨_, hget, h3 _ (List.mem_of_getElem? hget)⟩
  · intro q
    have hget := getElem?_slice h2 q
    have hlt := h4 _ (List.mem_of_getElem? hget)
    refine ⟨_, hget, ?_⟩
    unfold Raft.lastLogIndexLocked
    omega
  · intro s' h' hp hl' ht
    have hled : LedIn (s.rf p).term (s.rf p).log (s.rf p).core := Or.inr ⟨rfl, Or.inr ⟨hl, List.prefix_refl _⟩⟩
    exact (path_ledIn hr hp hled).grown ht hl'
  · intro m _ args rest reply _ _
    exact replicateReply_isSome hN _ args reply

theorem indices_in_range_firstElection : ∃ s h, (machine 3 ℕ).Run Machine.free s h ∧ (s.rf 0).state = .leader ∧
    (s.rf 0).nextIndex.length = 3 ∧ ((s.rf 0).replicateSend 1 1).isSome := by
  obtain ⟨s, h, hr, ht⟩ := Machine.exists_run_of_exec
    (show ((machine 3 ℕ).exec Machine.free firstElection).any
      (fun r => decide ((r.1.rf 0).state = .leader)) = true by decide +kernel)
  have hl := of_decide_eq_true ht
  obtain ⟨hlen, -, -, -, -, hsend, -⟩ := indices_in_range hr 0 hl
  exact ⟨s, h, hr, hl, hlen, hsend 1 1⟩

/-! ## The commit index -/

theorem countMatch_congr (hme : rf'.me = rf.me)
    (hm : ∀ i : Fin n, i ≠ rf.me → rf'.matchIndex.getD i 0 = rf.matchIndex.getD i 0) (N : ℕ) :
    rf'.countMatch N = rf.countMatch N := by
  unfold Raft.countMatch
  congr 1
  refine List.countP_congr ?_
  intro i _
  simp only [decide_eq_true_eq, hme]
  constructor
  · rintro ⟨hi, hge⟩
    exact ⟨hi, by rwa [hm i hi] at hge⟩
  · rintro ⟨hi, hge⟩
    exact ⟨hi, by rwa [hm i hi]⟩

/-- `Start` changes matchIndex for the leader itself, which is not looked at -/
theorem start_countMatch (hl : rf.state = .leader) (command : Option Cmd) (N : ℕ) :
    (rf.start command).1.countMatch N = rf.countMatch N := by
  refine countMatch_congr (by rw [start_leader hl]; rfl) ?_ N
  intro i hi
  rw [start_leader hl]
  exact getD_set_of_ne _ hi _

/-- nobody is counted for an index that no peer has acknowledged -/
theorem countMatch_fresh {N : ℕ} (hm : ∀ k ∈ rf.matchIndex, k < N) (hN : 0 < N) : rf.countMatch N = 1 := by
  unfold Raft.countMatch
  have hzero : (List.finRange n).countP (fun i => i ≠ rf.me ∧ rf.matchIndex.getD i 0 ≥ N) = 0 := by
    rw [List.countP_eq_zero]
    intro i _ hi
    have hge := (of_decide_eq_true hi).2
    rw [List.getD_eq_getElem?_getD] at hge
    cases hget : rf.matchIndex[i.val]? with
    | none => rw [hget, Option.getD_none] at hge; omega
    | some k =>
      rw [hget, Option.getD_some] at hge
      have := hm k (List.mem_of_getElem? hget)
      omega
  rw [hzero]

/-- no index above the commit index could be committed -/
def Prompt (rf : Raft n Cmd) : Prop :=
  ∀ N e, rf.commitIndex < N → rf.log[N]? = some e → e.term = rf.term → rf.countMatch N ≤ n / 2

theorem Books.prompt (hn : 2 ≤ n) (hb : Books rejected rf rf') (hI : rf.state = .leader → IndicesOk rf)
    (hP : rf.state = .leader → Prompt rf) : Prompt rf' := by
  intro N e hlt he ht
  cases hb with
  | kept hl hme hterm hlog hci _ hmi =>
    rw [hci] at hlt
    rw [hlog] at he
    rw [countMatch_congr hme (fun i _ => by rw [hmi])]
    exact hP hl N e hlt he (ht.trans hterm)
  | elected hold =>
    -- the entries of a new leader are all of earlier terms
    have := hold e (List.mem_of_getElem? he)
    omega
  | started command hl =>
    rw [start_countMatch hl]
    rw [start_leader hl] at hlt he ht
    simp only [Raft.persist] at hlt he ht
    rw [List.getElem?_append] at he
    split_ifs at he with hlen
    · exact hP hl N e hlt he ht
    · -- the new entry is counted for the leader alone
      have hidx := (List.getElem?_eq_some_iff.1 he).1
      simp only [List.length_singleton] at hidx
      obtain rfl : N = rf.log.length := by omega
      rw [countMatch_fresh (hI hl).matched (by omega)]
      omega
  | acknowledged peer hl _ hset htry =>
    obtain ⟨M, rfl, hmax⟩ := tryAdvanceCommitLocked_max htry
    exact hmax N e hlt he ht
  | rejected hl => exact hP hl N e hlt he ht

/-- **Commit is never late at the leader** of at least two nodes: no entry of its term above commitIndex is counted for
more than half of the nodes. -/
theorem commit_not_late (hn : 2 ≤ n) (hr : (machine n Cmd).Run Machine.free s h) (p : Fin n)
    (hl : (s.rf p).state = .leader) (N : ℕ) (e : LogEntry Cmd) (hlt : (s.rf p).commitIndex < N)
    (he : (s.rf p).log[N]? = some e) (ht : e.term = (s.rf p).term) : (s.rf p).countMatch N ≤ n / 2 := by
  refine run_leading (P := Prompt) ?_ hr p hl N e hlt he ht
  intro s a p rf' _ hb hI hP
  exact hb.prompt hn hI hP

theorem commit_not_late_firstElection : ∃ s h, (machine 3 ℕ).Run Machine.free s h ∧ (s.rf 0).state = .leader ∧
    (s.rf 0).log[1]? = some ⟨1, some 7⟩ ∧ (s.rf 0).countMatch 1 ≤ 1 := by
  obtain ⟨s, h, hr, ht⟩ := Machine.exists_run_of_exec
    (show ((machine 3 ℕ).exec Machine.free (firstElection ++ [.run 0 (.start (some 7))])).any
      (fun r => decide ((r.1.rf 0).state = .leader ∧ (r.1.rf 0).commitIndex = 0 ∧
        (r.1.rf 0).log[1]? = some ⟨1, some 7⟩ ∧ (r.1.rf 0).term = 1)) = true by decide +kernel)
  obtain ⟨hl, hci, he, hterm⟩ := of_decide_eq_true ht
  exact ⟨s, h, hr, hl, he, commit_not_late (by decide) hr 0 hl 1 _ (hci.trans_lt Nat.one_pos) he hterm.symm⟩

/-- **A single node never commits**: it is a majority by itself, but nobody replies to it -/
theorem commit_late : ∃ s h, (machine 1 ℕ).Run Machine.free s h ∧ (s.rf 0).state = .leader ∧
    (s.rf 0).commitIndex = 0 ∧ (s.rf 0).log[1]? = some ⟨1, some 7⟩ ∧ (s.rf 0).term = 1 ∧
    1 / 2 < (s.rf 0).countMatch 1 := by
  obtain ⟨s, h, hr, ht⟩ := Machine.exists_run_of_exec
    (show ((machine 1 ℕ).exec Machine.free [.run 0 .lifeRead, .run 0 .lifeElection, .run 0 (.start (some 7))]).any
      (fun r => decide ((r.1.rf 0).state = .leader ∧ (r.1.rf 0).commitIndex = 0 ∧
        (r.1.rf 0).log[1]? = some ⟨1, some 7⟩ ∧ (r.1.rf 0).term = 1 ∧ 1 / 2 < (r.1.rf 0).countMatch 1)) = true
      by decide +kernel)
  exact ⟨s, h, hr, of_decide_eq_true ht⟩

/-- `N` passes the tests of the search when the peers have acknowledged `acked`: it lies between commitIndex and the end
of the log, its entry is of the current term, and it is counted for more than half of the nodes -/
def Committable (rf : Raft n Cmd) (acked : Fin n → ℕ) (N : ℕ) : Prop :=
  rf.commitIndex < N ∧ N ≤ rf.lastLogIndexLocked ∧ (∃ e, rf.log[N]? = some e ∧ e.term = rf.term) ∧
    n / 2 < 1 + (Finset.univ.filter fun i => i ≠ rf.me ∧ acked i ≥ N).card

theorem countMatch_ofFn (rf : Raft n Cmd) (acked : Fin n → ℕ) (N : ℕ) :
    { rf with matchIndex := List.ofFn acked }.countMatch N
      = 1 + (Finset.univ.filter fun i => i ≠ rf.me ∧ acked i ≥ N).card := by
  have hget : ∀ i : Fin n, (List.ofFn acked).getD i 0 = acked i := by
    intro i
    simp [List.getD_eq_getElem?_getD]
  simp only [Raft.countMatch, hget]
  rw [← Multiset.coe_countP, Multiset.countP_eq_card_filter]
  rfl

/-- the commit index after the search: the greatest index that passes, or the old one -/
theorem tryAdvanceCommitLocked_exact (rf : Raft n Cmd) (acked : Fin n → ℕ) : ∃ N advanced,
    { rf with matchIndex := List.ofFn acked }.tryAdvanceCommitLocked
      = some ({ rf with matchIndex := List.ofFn acked, commitIndex := N }, advanced) ∧
    (advanced = true ∧ IsGreatest {M | Committable rf acked M} N ∨
      advanced = false ∧ N = rf.commitIndex ∧ ∀ M, ¬Committable rf acked M) := by
  obtain ⟨⟨rf', advanced⟩, htry⟩ :=
    Option.isSome_iff_exists.1 (tryAdvanceCommitLocked_isSome { rf with matchIndex := List.ofFn acked })
  obtain ⟨N, rfl, hmax⟩ := tryAdvanceCommitLocked_max htry
  have hle : ∀ M, Committable rf acked M → M ≤ N := by
    rintro M ⟨-, -, ⟨e, he, hterm⟩, hcount⟩
    by_contra hlt
    have := hmax M e (not_le.1 hlt) he hterm
    rw [countMatch_ofFn] at this
    omega
  refine ⟨N, advanced, htry, ?_⟩
  rcases tryAdvanceCommitLocked_cases htry with ⟨hsame, rfl⟩ | ⟨N', hset, rfl, hsearch⟩
  · have hN : N = rf.commitIndex := congrArg Raft.commitIndex hsame
    refine Or.inr ⟨rfl, hN, ?_⟩
    intro M hM
    have := hle M hM
    have := hM.1
    omega
  · obtain rfl : N = N' := congrArg Raft.commitIndex hset
    obtain ⟨hlt, ⟨e, he, hterm⟩, hcount⟩ := commitSearch_some hsearch
    rw [countMatch_ofFn] at hcount
    have hlast : N ≤ rf.lastLogIndexLocked := by
      have := (List.getElem?_eq_some_iff.1 he).1
      unfold Raft.lastLogIndexLocked
      dsimp only at this
      omega
    exact Or.inl ⟨rfl, ⟨hlt, hlast, ⟨e, he, hterm⟩, hcount⟩, hle⟩

/-- an index that passes still passes when the peers acknowledge more -/
theorem Committable.mono {acked acked' : Fin n → ℕ} (hacked : ∀ i, acked i ≤ acked' i) {N : ℕ}
    (hN : Committable rf acked N) : Committable rf acked' N := by
  obtain ⟨hlt, hlast, he, hcount⟩ := hN
  refine ⟨hlt, hlast, he, hcount.trans_le ?_⟩
  refine Nat.add_le_add_left (Finset.card_le_card ?_) 1
  intro i hi
  simp only [Finset.mem_filter] at hi ⊢
  exact ⟨hi.1, hi.2.1, hi.2.2.trans (hacked i)⟩

/-- who has acknowledged an index has acknowledged the indices before it -/
theorem Committable.counted {acked : Fin n → ℕ} {N k : ℕ} (hN : Committable rf acked N) (hk : k ≤ N) :
    n / 2 < 1 + (Finset.univ.filter fun i => i ≠ rf.me ∧ acked i ≥ k).card := by
  refine hN.2.2.2.trans_le (Nat.add_le_add_left (Finset.card_le_card ?_) 1)
  intro i hi
  simp only [Finset.mem_filter] at hi ⊢
  exact ⟨hi.1, hi.2.1, hk.trans hi.2.2⟩

/-- **The commit search is exact**: with one entry of matchIndex per peer, `tryAdvanceCommitLocked` sets commitIndex to
the greatest index that passes its tests and reports that it advanced, or finds that no index passes and changes
nothing. Every index it commits is counted for more than half of the nodes, and it commits no less when the peers have
acknowledged more. -/
theorem commit_search_exact (rf : Raft n Cmd) (acked : Fin n → ℕ) : ∃ N advanced,
    { rf with matchIndex := List.ofFn acked }.tryAdvanceCommitLocked
      = some ({ rf with matchIndex := List.ofFn acked, commitIndex := N }, advanced) ∧
    (advanced = true ∧ IsGreatest {M | Committable rf acked M} N ∨
      advanced = false ∧ N = rf.commitIndex ∧ ∀ M, ¬Committable rf acked M) ∧
    (∀ k, rf.commitIndex < k → k ≤ N → n / 2 < 1 + (Finset.univ.filter fun i => i ≠ rf.me ∧ acked i ≥ k).card) ∧
    ∀ acked' : Fin n → ℕ, (∀ i, acked i ≤ acked' i) → ∀ rf' advanced',
      { rf with matchIndex := List.ofFn acked' }.tryAdvanceCommitLocked = some (rf', advanced') →
        N ≤ rf'.commitIndex := by
  obtain ⟨N, advanced, htry, hres⟩ := tryAdvanceCommitLocked_exact rf acked
  refine ⟨N, advanced, htry, hres, ?_, ?_⟩
  · intro k hlt hk
    rcases hres with ⟨-, hN, -⟩ | ⟨-, rfl, -⟩
    · exact hN.counted hk
    · omega
  · intro acked' hacked rf' advanced' htry'
    obtain ⟨N', _, hexact, hres'⟩ := tryAdvanceCommitLocked_exact rf acked'
    obtain rfl : rf' = { rf with matchIndex := List.ofFn acked', commitIndex := N' } := by
      rw [hexact] at htry'
      cases htry'
      rfl
    rcases hres with ⟨-, hN, -⟩ | ⟨-, rfl, -⟩
    · rcases hres' with ⟨-, -, hle⟩ | ⟨-, -, hnone⟩
      · exact hle (hN.mono hacked)
      · exact absurd (hN.mono hacked) (hnone N)
    · rcases hres' with ⟨-, hN', -⟩ | ⟨-, hN', -⟩
      · exact hN'.1.le
      · exact hN'.ge

/-! ## nextIndex and matchIndex -/

/-- the next entry for each peer lies behind what it has acknowledged -/
def Ahead (rf : Raft n Cmd) : Prop := ∀ q : Fin n, rf.matchIndex.getD q 0 + 1 ≤ rf.nextIndex.getD q 0

theorem getD_set_self {l : List ℕ} {i : Fin n} (hlen : l.length = n) (x : ℕ) : (l.set i x).getD i 0 = x := by
  rw [List.getD_eq_getElem?_getD, List.getElem?_set_self (by omega)]
  rfl

/-- setting both slices at one peer -/
theorem Ahead.set (hA : Ahead rf) (hI : IndicesOk rf) (peer : Fin n) (k : ℕ) :
    ∀ q : Fin n, (rf.matchIndex.set peer k).getD q 0 + 1 ≤ (rf.nextIndex.set peer (k + 1)).getD q 0 := by
  intro q
  by_cases hq : q = peer
  · subst hq
    rw [getD_set_self hI.matchIndex, getD_set_self hI.nextIndex]
  · rw [getD_set_of_ne _ hq, getD_set_of_ne _ hq]
    exact hA q

theorem Books.ahead (hb : Books rejected rf rf') (hrej : ∀ q, rejected q → rf.matchIndex.getD q 0 = 0)
    (hI : rf.state = .leader → IndicesOk rf) (hA : rf.state = .leader → Ahead rf) : Ahead rf' := by
  cases hb with
  | kept hl _ _ _ _ hni hmi =>
    intro q
    rw [hni, hmi]
    exact hA hl q
  | elected _ hni hmi =>
    intro q
    have hnext : rf'.nextIndex.getD q 0 = rf'.lastLogIndexLocked + 1 := by
      rw [hni, List.getD_eq_getElem?_getD, List.getElem?_replicate_of_lt q.isLt]
      rfl
    rw [hnext, hmi]
    by_cases hq : q = rf'.me
    · rw [hq, getD_set_self List.length_replicate]
    · rw [getD_set_of_ne _ hq, List.getD_eq_getElem?_getD, List.getElem?_replicate_of_lt q.isLt]
      exact Nat.succ_le_succ (Nat.zero_le _)
  | started command hl =>
    rw [start_leader hl]
    exact (hA hl).set (hI hl) rf.me rf.log.length
  | acknowledged peer hl _ hset htry =>
    obtain ⟨M, rfl, -⟩ := tryAdvanceCommitLocked_max htry
    rcases hset with ⟨rfl, rfl⟩ | ⟨rfl, rfl⟩
    · exact hA hl
    · exact (hA hl).set (hI hl) _ _
  | @rejected peer next hl hr hge _ =>
    intro q
    by_cases hq : q = peer
    · subst hq
      simp only [hrej q hr, getD_set_self (hI hl).nextIndex]
      exact hge
    · simp only [getD_set_of_ne _ hq]
      exact hA hl q

/-- **nextIndex stays ahead of matchIndex** at every leader, in every run in which no leader handles a rejection by a
peer whose acknowledgement it has counted. -/
theorem nextIndex_ahead (hr : (machine n Cmd).Run (Avoids Message.rejectsLate) s h) (L p : Fin n)
    (hl : (s.rf L).state = .leader) :
    ∃ next matched, (s.rf L).nextIndex[p.val]? = some next ∧ (s.rf L).matchIndex[p.val]? = some matched ∧
      matched + 1 ≤ next := by
  have hI := run_indicesOk hr L hl
  have hA : Ahead (s.rf L) := by
    refine run_leading (P := Ahead) ?_ hr L hl
    intro s a q rf' ha hb hI hA
    refine hb.ahead ?_ hI hA
    rintro _ ⟨m, hrec, hrej, rfl⟩
    by_contra hne
    exact ha.not hrec ⟨hrej, Nat.pos_of_ne_zero hne⟩
  exact ⟨_, _, getElem?_slice hI.nextIndex p, getElem?_slice hI.matchIndex p, hA p⟩

/-- Node 0 starts 7 in term 1, crashes, and leads again in term 2, where its nextIndex for node 1 is 2. It starts 8. Two
`replicateTo` loops for node 1 have each sent a request before the first is refused; that loop goes back to index 1 and
succeeds, while the other refusal is still on its way. -/
def overlapping : List (Action 3 ℕ) :=
  firstElection ++ [.run 0 (.start (some 7)), .run 0 .restart, .run 0 .lifeRead, .run 0 .lifeElection, .deliver 1,
    .deliver 2, .run 0 (.goroutine 1), .run 0 (.start (some 8)), .run 0 (.goroutine 1), .deliver 2, .deliver 2,
    .deliver 2, .run 0 (.goroutine 2), .deliver 3, .deliver 3]

theorem nextIndex_ahead_overlapping : ∃ s h, (machine 3 ℕ).Run (Avoids Message.rejectsLate) s h ∧
    (s.rf 0).state = .leader ∧ (s.rf 0).matchIndex[1]? = some 2 ∧ ∃ next, (s.rf 0).nextIndex[1]? = some next ∧
    3 ≤ next := by
  obtain ⟨s, h, hr, ht⟩ := Machine.exists_run_of_exec
    (show ((machine 3 ℕ).exec (Avoids Message.rejectsLate) overlapping).any
      (fun r => decide ((r.1.rf 0).state = .leader ∧ (r.1.rf 0).matchIndex[1]? = some 2)) = true by decide +kernel)
  obtain ⟨hl, hm⟩ := of_decide_eq_true ht
  obtain ⟨next, matched, h1, h2, h3⟩ := nextIndex_ahead hr 0 1 hl
  obtain rfl : 2 = matched := Option.some.inj (hm.symm.trans h2)
  exact ⟨s, h, hr, hl, hm, next, h1, h3⟩

/-- **nextIndex falls behind**: the second refusal arrives after the acknowledgement of index 2, and node 0 is back at
index 1 -/
theorem nextIndex_behind : ∃ s h, (machine 3 ℕ).Run Machine.free s h ∧ (s.rf 0).state = .leader ∧
    (s.rf 0).matchIndex[1]? = some 2 ∧ (s.rf 0).nextIndex[1]? = some 1 := by
  obtain ⟨s, h, hr, ht⟩ := Machine.exists_run_of_exec
    (show ((machine 3 ℕ).exec Machine.free (overlapping ++ [.deliver 2])).any
      (fun r => decide ((r.1.rf 0).state = .leader ∧ (r.1.rf 0).matchIndex[1]? = some 2 ∧
        (r.1.rf 0).nextIndex[1]? = some 1)) = true by decide +kernel)
  exact ⟨s, h, hr, of_decide_eq_true ht⟩

end CS240.Raft
