/-
The leader's bookkeeping: how its sections change nextIndex and matchIndex.

A leader fills both slices when it is elected and then changes them with every `Start` and every AppendEntries reply.
Replies may be old, and several `replicateTo` loops for one peer overlap, so what a reply says about the log has to be
remembered from the moment its request was built: `LedIn` is what is left of a leader's log later on, `ReplyOk` what a
reply in flight still says.

`Books rejected rf rf'` is all that a section can do to the slices of a node that leads after it: every invariant of the
slices is five cases.
-/
import CS240.Raft.Votes

namespace CS240.Raft

open Lib

/-! ## A leader's log only grows -/

section Protocol

variable {ι Cmd : Type} {C : ι → Core Cmd} {h evs : List (Event ι Cmd)} {p : ι} {c c' : Core Cmd} {t : ℕ}
  {l : List (LogEntry Cmd)}

/-- what has become of a leader of term `t` with log `l`: it still leads and the log has grown, it is a follower, or the
term is over -/
def LedIn (t : ℕ) (l : List (LogEntry Cmd)) (c : Core Cmd) : Prop :=
  t < c.term ∨ (c.term = t ∧ (c.role = .follower ∨ (c.role = .leader ∧ l <+: c.log)))

theorem LedIn.grown (hl : LedIn t l c) (ht : c.term = t) (hr : c.role = .leader) : l <+: c.log := by
  rcases hl with hlt | ⟨-, hf | ⟨-, hp⟩⟩
  · omega
  · rw [hr] at hf; cases hf
  · exact hp

theorem LedIn.restart (hl : LedIn t l c) : LedIn t l c.restart := by
  rcases hl with hlt | ⟨ht, -⟩
  · exact Or.inl hlt
  · exact Or.inr ⟨ht, Or.inl rfl⟩

variable [Fintype ι]

theorem Move.ledIn (hm : Move p h c c' evs) (hl : LedIn t l c) : LedIn t l c' := by
  rcases hl with hlt | ⟨ht, hrole⟩
  · exact Or.inl (lt_of_lt_of_le hlt hm.grows.1)
  cases hm with
  | adopt u hu =>
    rcases Nat.lt_or_eq_of_le (ht ▸ hu) with hlt | heq
    · exact Or.inl hlt
    · exact Or.inr ⟨heq.symm, Or.inl rfl⟩
  | stand => exact Or.inl (by subst ht; exact Nat.lt_succ_self _)
  | elect hr => rw [hr] at hrole; simp at hrole
  | start command hr =>
    refine Or.inr ⟨ht, ?_⟩
    rcases hrole with hf | ⟨hlead, hp⟩
    · exact Or.inl hf
    · exact Or.inr ⟨hlead, hp.trans (List.prefix_append _ _)⟩
  | accept L full k prev a b hr => exact Or.inr ⟨ht, Or.inl hr⟩
  | note | grant | send | commit => exact Or.inr ⟨ht, hrole⟩

theorem Moves.ledIn (hm : Moves p h c c' evs) (hl : LedIn t l c) : LedIn t l c' := by
  induction hm with
  | refl => exact hl
  | step _ hm ih => exact hm.ledIn ih

theorem Move.sent (hm : Move p h c c' evs) {q : ι} {k : ℕ} (hs : .sent q t l k ∈ evs) : q = p ∧ LedIn t l c' := by
  cases hm with
  | note e he => simp only [List.mem_singleton] at hs; subst hs; cases he
  | send hr =>
    simp only [List.mem_singleton, Event.sent.injEq] at hs
    obtain ⟨rfl, rfl, rfl, -⟩ := hs
    exact ⟨rfl, Or.inr ⟨rfl, Or.inr ⟨hr, List.prefix_refl _⟩⟩⟩
  | _ => simp at hs

/-- what a leader has sent stays a part of its log, as long as it leads in that term -/
theorem Reach.sentLedIn [DecidableEq ι] (hr : Reach C h) :
    ∀ q t l k, .sent q t l k ∈ h → LedIn t l (C q) := by
  induction hr with
  | init => exact fun q t l k hs => by cases hs
  | @move C h p c' evs _ hm ih =>
    intro q t l k hs
    rcases List.mem_append.1 hs with hs | hs
    · have hled : ∀ q, LedIn t l (C q) → LedIn t l (Function.update C p c' q) :=
        (Function.forall_update_iff C fun q c => LedIn t l (C q) → LedIn t l c).2 ⟨hm.ledIn, fun _ _ => id⟩
      exact hled q (ih q t l k hs)
    · obtain ⟨rfl, hled⟩ := hm.sent hs
      rw [Function.update_self]
      exact hled
  | @restart C h p _ ih =>
    intro q t l k hs
    have hled : ∀ q, LedIn t l (C q) → LedIn t l (Function.update C p (C p).restart q) :=
      (Function.forall_update_iff C fun q c => LedIn t l (C q) → LedIn t l c).2 ⟨LedIn.restart, fun _ _ => id⟩
    exact hled q (ih q t l k hs)

end Protocol

variable {n : ℕ} {Cmd : Type} {rf rf' : Raft n Cmd} {p : Fin n} {h h' evs : List (Event (Fin n) Cmd)}
  {s s' : Cluster n Cmd} {a : Action n Cmd} {ok : Cluster n Cmd → Action n Cmd → Prop}

theorem step_ledIn (hI : Refines s.rf s.net h) (hS : ∀ p, (s.rf p).me = p ∧ Saved (s.rf p)) {t : ℕ}
    {l : List (LogEntry Cmd)} (hl : LedIn t l (s.rf p).core) (hs : s.step a = some (s', evs)) :
    LedIn t l (s'.rf p).core := by
  have update : ∀ q rf, (q = p → LedIn t l rf.core) → LedIn t l (Function.update s.rf q rf p).core := by
    intro q rf hrf
    by_cases hq : p = q
    · subst hq; rw [Function.update_self]; exact hrf rfl
    · rw [Function.update_of_ne hq]; exact hl
  refine step_preserves (J := fun R _ _ => LedIn t l (R p).core) (h := h) hs (fun _ => hl) (fun _ _ _ => hl) ?_ ?_ ?_
  · intro net q u _ _
    refine update q _ ?_
    rintro rfl
    have hdown := (stepDownLocked_moves (p := q) (h := h) (s.rf q) u).ledIn hl
    rw [crash_made (hS q).2]
    rcases hdown with hlt | ⟨ht, -⟩
    · exact Or.inl hlt
    · exact Or.inr ⟨ht, Or.inl rfl⟩
  · intro q task rf out evs _ ha
    refine update q rf ?_
    rintro rfl
    rcases hI.acts (hS q).1 ha with hc | ⟨-, rfl, -, -⟩
    · exact hc.moves.ledIn hl
    · rw [(hS q).2.made]
      exact hl.restart
  · intro q m k rf out evs _ hk hq hr
    refine update q rf ?_
    rintro rfl
    exact (hI.receives (hS q).1 (List.mem_of_getElem? hk) hq hr).moves.ledIn hl

theorem path_ledIn (hr : (machine n Cmd).Run ok s h) (hp : (machine n Cmd).Path ok s h s' h') {t : ℕ}
    {l : List (LogEntry Cmd)} (hl : LedIn t l (s.rf p).core) : LedIn t l (s'.rf p).core := by
  induction hp with
  | refl => exact hl
  | step hp _ hs ih =>
    have hr' := hr.trans hp
    exact step_ledIn (run_refines hr') (run_saved hr') ih hs

/-! ## Replies in flight -/

/-- what a reply on its way back says about its request and the hint of a rejection -/
def ReplyOk (h : List (Event (Fin n) Cmd)) (m : Message n Cmd) : Prop :=
  match m.body with
  | .appendEntriesReply args _ reply =>
    args.leaderID = m.client ∧ (∃ full, Describes h args full) ∧
      (reply.success = false → reply.conflictIndex ≤ args.prevLogIndex)
  | _ => True

theorem ReplyOk.mono (hs : h ⊆ h') {m : Message n Cmd} (hm : ReplyOk h m) : ReplyOk h' m := by
  unfold ReplyOk at hm ⊢
  split <;> rename_i hbody
  · simp only [hbody] at hm
    obtain ⟨h1, ⟨full, h2, h3⟩, h4⟩ := hm
    exact ⟨h1, ⟨full, hs h2, h3⟩, h4⟩
  · trivial

theorem Acts.replyOk {sv : Server n Cmd} {task : Server.Task Cmd} {out : List (Message n Cmd)}
    (ha : Acts sv task rf' out evs) : ∀ m ∈ out, ReplyOk h m := by
  intro m hm
  cases ha with
  | election | beat =>
    simp only [Server.broadcast, List.mem_map] at hm
    obtain ⟨q, -, rfl⟩ := hm
    trivial
  | send =>
    simp only [List.mem_singleton] at hm
    subst hm
    trivial
  | _ => cases hm

theorem Receives.replyOk {m : Message n Cmd} {out : List (Message n Cmd)} (hm : MsgOk h m)
    (hr : Receives rf m rf' out evs) : ∀ m' ∈ out, ReplyOk h m' := by
  intro m' hm'
  cases hr with
  | requestVote | heartbeat =>
    simp only [List.mem_singleton] at hm'
    subst hm'
    trivial
  | @appendEntries rf' args rest reply hbody ha =>
    simp only [List.mem_singleton] at hm'
    subst hm'
    simp only [MsgOk, hbody] at hm
    refine ⟨hm.1, hm.2, ?_⟩
    have hconf : (rf.appendEntries args).2.success = false →
        (rf.appendEntries args).2.conflictIndex ≤ args.prevLogIndex := appendEntries_conflict args
    rw [ha] at hconf
    exact hconf
  | _ => cases hm'

theorem run_replyOk (hr : (machine n Cmd).Run ok s h) : ∀ m ∈ s.net, ReplyOk h m := by
  induction hr with
  | init => exact fun m hm => by cases hm
  | @step s h a s' evs hr _ hs ih =>
    have hI := run_refines hr
    have herase : ∀ k, ∀ m ∈ s.net.eraseIdx k, ReplyOk h m := fun k m hm => ih m (List.mem_of_mem_eraseIdx hm)
    refine step_preserves (J := fun _ net h => ∀ m ∈ net, ReplyOk h m) hs herase ?_ (fun _ _ _ hn _ => hn) ?_ ?_
    · intro k m hk m' hm'
      rcases List.mem_append.1 hm' with hm' | hm'
      · exact herase k m' hm'
      · simp only [List.mem_singleton] at hm'
        subst hm'
        exact ih m (List.mem_of_getElem? hk)
    · intro p task rf out evs _ ha m hm
      rcases List.mem_append.1 hm with hm | hm
      · exact (ih m hm).mono (List.subset_append_left _ _)
      · exact ha.replyOk m hm
    · intro p m k rf out evs _ hk _ hr m' hm'
      rcases List.mem_append.1 hm' with hm' | hm'
      · exact (herase k m' hm').mono (List.subset_append_left _ _)
      · exact (hr.replyOk (hI.net m (List.mem_of_getElem? hk)) m' hm').mono (List.subset_append_left _ _)

/-- a leader's log still holds everything a reply of its term speaks of -/
theorem ReplyOk.bound {R : Fin n → Raft n Cmd} {m : Message n Cmd} {args : AppendEntriesArgs n Cmd}
    {rest : List (Fin n)} {reply : AppendEntriesReply} (hr : Reach (fun p => (R p).core) h) (hm : ReplyOk h m)
    (hbody : m.body = .appendEntriesReply args rest reply) (hl : (R m.client).state = .leader)
    (ht : (R m.client).term = args.term) :
    args.prevLogIndex + args.entries.length < (R m.client).log.length ∧
      (reply.success = false → reply.conflictIndex ≤ args.prevLogIndex) := by
  simp only [ReplyOk, hbody] at hm
  obtain ⟨hid, ⟨full, hsent, ⟨e, he, -⟩, hents⟩, hconf⟩ := hm
  rw [hid] at hsent
  have hpre : full <+: (R m.client).log := (hr.sentLedIn _ _ _ _ hsent).grown ht hl
  have hprev := (List.getElem?_eq_some_iff.1 he).1
  have hlen := hpre.length_le
  refine ⟨?_, hconf⟩
  rw [hents, List.length_drop]
  omega

/-! ## What a section does to the slices -/

/-- How a node that leads after a section came by its slices: it has left them alone, it was just elected, it has
started a command, it has counted an acknowledgement up to index `k`, or it has gone back for a peer in `rejected`. -/
inductive Books (rejected : Fin n → Prop) (rf : Raft n Cmd) : Raft n Cmd → Prop
  | kept {rf' : Raft n Cmd} : rf.state = .leader → rf'.me = rf.me → rf'.term = rf.term → rf'.log = rf.log →
      rf'.commitIndex = rf.commitIndex → rf'.nextIndex = rf.nextIndex → rf'.matchIndex = rf.matchIndex →
      Books rejected rf rf'
  | elected {rf' : Raft n Cmd} : (∀ e ∈ rf'.log, e.term < rf'.term) →
      rf'.nextIndex = List.replicate n (rf'.lastLogIndexLocked + 1) →
      rf'.matchIndex = (List.replicate n 0).set rf'.me rf'.lastLogIndexLocked → Books rejected rf rf'
  | started (command : Option Cmd) : rf.state = .leader → Books rejected rf (rf.start command).1
  | acknowledged {rf' : Raft n Cmd} (peer : Fin n) {k : ℕ} {matchIndex nextIndex : List ℕ} {adv : Bool} :
      rf.state = .leader → k < rf.log.length →
      (matchIndex = rf.matchIndex ∧ nextIndex = rf.nextIndex) ∨
        (matchIndex = rf.matchIndex.set peer k ∧ nextIndex = rf.nextIndex.set peer (k + 1)) →
      { rf with matchIndex := matchIndex, nextIndex := nextIndex }.tryAdvanceCommitLocked = some (rf', adv) →
      Books rejected rf rf'
  | rejected {peer : Fin n} {next : ℕ} : rf.state = .leader → rejected peer → 1 ≤ next → next ≤ rf.log.length →
      Books rejected rf { rf with nextIndex := rf.nextIndex.set peer next }

variable {rejected : Fin n → Prop}

theorem Books.refl (hl : rf.state = .leader) : Books rejected rf rf := .kept hl rfl rfl rfl rfl rfl rfl

theorem becomeLeaderLocked_books {rf₁ : Raft n Cmd} (ht : ∀ e ∈ rf₁.log, e.term < rf₁.term) :
    Books rejected rf rf₁.becomeLeaderLocked := .elected ht rfl rfl

/-- a request is built without touching the slices, unless nextIndex was out of range -/
theorem replicateSend_eq {peer : Fin n} {leaderTerm : ℕ} {args : AppendEntriesArgs n Cmd}
    (hs : rf.replicateSend peer leaderTerm = some (rf', some args)) (hnext : ∀ k ∈ rf.nextIndex, 1 ≤ k) : rf' = rf := by
  unfold Raft.replicateSend at hs
  by_cases hc : rf.state ≠ .leader ∨ rf.term ≠ leaderTerm
  · rw [if_pos hc] at hs; cases hs
  rw [if_neg hc] at hs
  simp only [Option.bind_eq_bind, Option.bind_eq_some_iff] at hs
  obtain ⟨next, hget, hs⟩ := hs
  have hpos : ¬ next < 1 := not_lt.2 (hnext next (List.mem_of_getElem? hget))
  simp only [if_neg hpos] at hs
  split_ifs at hs
  cases hs
  rfl

theorem replicateReply_books {peer : Fin n} {args : AppendEntriesArgs n Cmd} {reply : AppendEntriesReply} {next : Next}
    (hr : rf.replicateReply peer args.term args reply = some (rf', next)) (hl : rf'.state = .leader)
    (hlog : rf.log ≠ [])
    (hbound : rf.state = .leader → rf.term = args.term → args.prevLogIndex + args.entries.length < rf.log.length ∧
      (reply.success = false → reply.conflictIndex ≤ args.prevLogIndex))
    (hrej : reply.term ≤ rf.term → rf.term = args.term → rf.state = .leader → reply.success = false →
      rejected peer) : Books rejected rf rf' := by
  have hpos := List.length_pos_iff.2 hlog
  cases replicateReply_cases hr with
  | higher => cases hl
  | ignored => exact .refl hl
  | matched hterm hstate _ hset hadv => exact .acknowledged peer hstate (hbound hstate hterm).1 hset hadv
  | pushed hterm hstate _ hset hadv => exact .acknowledged peer hstate (hbound hstate hterm).1 hset hadv
  | @rejected next hle hterm hstate hfail hnext =>
    obtain ⟨hin, hconf⟩ := hbound hstate hterm
    have hhint := hconf hfail
    -- the new nextIndex is the hint, or the index behind an entry of the leader, and at least 1
    have hlen : next ≤ rf.log.length := by
      rcases hnext with rfl | ⟨last, hlast, rfl⟩
      · omega
      · have hlast := lastIndexOf_le hlast
        unfold Raft.lastLogIndexLocked at hlast
        omega
    refine .rejected hstate (hrej hle hterm hstate hfail) ?_ ?_ <;> split_ifs <;> omega

theorem Acts.books {sv : Server n Cmd} {task : Server.Task Cmd} {out : List (Message n Cmd)} (hs : Saved sv.rf)
    (hterms : ∀ e ∈ sv.rf.log, e.term ≤ sv.rf.term) (hnext : sv.rf.state = .leader → ∀ k ∈ sv.rf.nextIndex, 1 ≤ k)
    (ha : Acts sv task rf' out evs) (hl : rf'.state = .leader) : Books rejected sv.rf rf' := by
  cases ha with
  | idle | beat | applySend => exact .refl hl
  | election _ he =>
    obtain ⟨rfl, -⟩ := startElection_some he
    cases hl
  | win _ he =>
    obtain ⟨rfl, -⟩ := startElection_none he
    exact becomeLeaderLocked_books fun e he => Nat.lt_succ_of_le (hterms e he)
  | send hsend =>
    have hlead := (replicateSend_some hsend).1.leader
    rw [replicateSend_eq hsend (hnext hlead)]
    exact .refl hlead
  | apply =>
    rcases applier_cases sv.rf with he | ⟨e, -, -, he⟩ <;> rw [he] at hl ⊢
    · exact .refl hl
    · exact .kept hl rfl rfl rfl rfl rfl rfl
  | start hlead => exact .started _ hlead
  | restart => rw [hs.made] at hl; cases hl

theorem Receives.books {m : Message n Cmd} {out : List (Message n Cmd)} (hs : Saved rf)
    (hcand : rf.state = .candidate → ∀ e ∈ rf.log, e.term < rf.term)
    (hbound : ∀ args rest reply, m.body = .appendEntriesReply args rest reply → rf.state = .leader →
      rf.term = args.term → args.prevLogIndex + args.entries.length < rf.log.length ∧
        (reply.success = false → reply.conflictIndex ≤ args.prevLogIndex))
    (hrej : m.rejects rf → rejected m.server) (hr : Receives rf m rf' out evs) (hl : rf'.state = .leader) :
    Books rejected rf rf' := by
  have hdown : ∀ t, (rf.stepDownLocked t).state ≠ .leader := fun t h => by cases h
  cases hr with
  | @requestVote _ args _ _ hv =>
    cases requestVote_cases hv with
    | stale => exact .refl hl
    | refused | granted =>
      unfold raised at hl ⊢
      split_ifs at hl ⊢
      · exact absurd hl (hdown args.electionTerm)
      · exact .kept hl rfl rfl rfl rfl rfl rfl
  | requestVoteReply _ hv =>
    cases requestVoteReply_cases hv with
    | higher => exact absurd hl (hdown _)
    | refused => exact .refl hl
    | counted => exact .kept hl rfl rfl rfl rfl rfl rfl
    | won _ _ _ hst => exact becomeLeaderLocked_books (hcand hst)
  | heartbeat _ hb =>
    cases heartbeat_cases hb with
    | stale => exact .refl hl
    | newer | same => cases hl
  | heartbeatReply =>
    unfold Raft.heartbeatReply at hl ⊢
    split_ifs at hl ⊢
    · exact absurd hl (hdown _)
    · exact .refl hl
  | appendEntries _ ha =>
    cases appendEntries_cases hs.log ha with
    | stale => exact .refl hl
    | refused => rw [adopted_state] at hl; cases hl
    | accepted => simp only [Raft.persist, adopted_state] at hl; cases hl
  | @appendEntriesReply _ args rest reply _ hbody hrep =>
    refine replicateReply_books hrep hl hs.log (hbound args rest reply hbody) ?_
    intro h1 h2 h3 h4
    apply hrej
    simp only [Message.rejects, hbody]
    exact ⟨h1, h2, h3, h4⟩

end CS240.Raft
