/-
The code carries out the abstract protocol.

A node's part in the protocol is its state, term, log and commit index (`core`); votes counted, indices of peers and the
Persister are machinery. Every section of the code is a few moves of its node, and the messages in flight say nothing
that the history does not bear out:

- `MsgOk h m`: a vote request comes from a candidacy, a granted vote was granted, an AppendEntries request holds what
  its sender had in its log, and a successful reply was accepted.
- `AckOk h p rf`: a leader's matchIndex never exceeds what the peer accepted in the leader's term.
- `Refines`: both, and the abstract protocol can get to where the nodes are, with the same history.
- `run_refines`: every run of the cluster is a run of the protocol.
-/
import CS240.Raft.Persistence
import CS240.Raft.Protocol

namespace CS240.Raft

open Lib

variable {n : ℕ} {Cmd : Type} {rf rf' : Raft n Cmd} {p : Fin n} {h h' evs : List (Event (Fin n) Cmd)}

/-- the node as the protocol sees it -/
def core (rf : Raft n Cmd) : Core Cmd := ⟨rf.state, rf.term, rf.log, rf.commitIndex⟩

/-! ## Messages and acknowledgements -/

/-- `full` is the log a request was built from: the sender's log when it was sent, known to the receiver by the position
and the term of one entry and by everything behind it -/
def Describes (h : List (Event (Fin n) Cmd)) (args : AppendEntriesArgs n Cmd) (full : List (LogEntry Cmd)) : Prop :=
  .sent args.leaderID args.term full args.leaderCommit ∈ h ∧
    (∃ e, full[args.prevLogIndex]? = some e ∧ args.prevLogTerm = e.term) ∧
    args.entries = full.drop (args.prevLogIndex + 1)

/-- what a message in flight says about the history -/
def MsgOk (h : List (Event (Fin n) Cmd)) (m : Message n Cmd) : Prop :=
  match m.body with
  | .requestVote args =>
    m.client ≠ m.server ∧ args.candidateID = m.client ∧
      ∃ l, .candidacy m.client args.electionTerm l ∈ h ∧ args.lastLogIndex + 1 = l.length ∧
        args.lastLogTerm = lastTerm LogEntry.term l
  | .requestVoteReply term reply =>
    m.client ≠ m.server ∧
      (reply.vote = true → reply.electionTerm = term ∧ ∃ l, .voteGranted m.server term m.client l ∈ h)
  | .heartbeat _ | .heartbeatReply _ _ => True
  | .appendEntries args _ =>
    args.leaderID = m.client ∧ ∃ full, Describes h args full
  | .appendEntriesReply args _ reply =>
    reply.success = true → ∃ cut, .accepted m.server args.term (args.prevLogIndex + args.entries.length) cut ∈ h

theorem MsgOk.mono (hs : h ⊆ h') {m : Message n Cmd} (hm : MsgOk h m) : MsgOk h' m := by
  unfold MsgOk at hm ⊢
  split <;> rename_i hbody <;> simp only [hbody] at hm
  · obtain ⟨h1, h2, l, h3, h4⟩ := hm
    exact ⟨h1, h2, l, hs h3, h4⟩
  · refine ⟨hm.1, fun hv => ?_⟩
    obtain ⟨h1, l, h2⟩ := hm.2 hv
    exact ⟨h1, l, hs h2⟩
  · trivial
  · trivial
  · obtain ⟨h1, full, h2, h3⟩ := hm
    exact ⟨h1, full, hs h2, h3⟩
  · intro hv
    obtain ⟨cut, hcut⟩ := hm hv
    exact ⟨cut, hs hcut⟩

/-- a leader's matchIndex is backed by what its peers accepted -/
def AckOk (h : List (Event (Fin n) Cmd)) (rf : Raft n Cmd) : Prop :=
  rf.state = .leader → ∀ i : Fin n, i ≠ rf.me → 0 < rf.matchIndex.getD i 0 →
    ∃ j cut, .accepted i rf.term j cut ∈ h ∧ rf.matchIndex.getD i 0 ≤ j

theorem AckOk.congr (hs : h ⊆ h') (hk : AckOk h rf) (hst : rf'.state = rf.state) (hme : rf'.me = rf.me)
    (ht : rf'.term = rf.term) (hmi : rf'.matchIndex = rf.matchIndex) : AckOk h' rf' := by
  unfold AckOk
  rw [hst, hme, ht, hmi]
  intro hl i hi hpos
  obtain ⟨j, cut, hj, hle⟩ := hk hl i hi hpos
  exact ⟨j, cut, hs hj, hle⟩

theorem AckOk.of_state (hst : rf.state ≠ .leader) : AckOk h rf := fun hl => absurd hl hst

/-- an entry of a slice indexed by nodes, after another one is set -/
theorem getD_set_of_ne (l : List ℕ) {i j : Fin n} (hne : j ≠ i) (x : ℕ) : (l.set i x).getD j 0 = l.getD j 0 := by
  rw [List.getD_eq_getElem?_getD, List.getElem?_set_ne (fun he => hne (Fin.ext he.symm)), List.getD_eq_getElem?_getD]

/-- a new leader has counted nobody -/
theorem becomeLeaderLocked_ackOk (rf : Raft n Cmd) : AckOk h rf.becomeLeaderLocked := by
  intro _ i hi hpos
  have hzero : ((List.replicate n 0).set rf.me rf.lastLogIndexLocked).getD i 0 = 0 := by
    rw [getD_set_of_ne _ (show i ≠ rf.me from hi)]
    simp [List.getD_eq_getElem?_getD]
  exact absurd hzero hpos.ne'

/-- what the leader may count, once it has raised matchIndex -/
theorem AckOk.acks (hk : AckOk h rf) (hl : rf.state = .leader) {N : ℕ} (hN : 0 < N)
    (hcount : n / 2 < rf.countMatch N) :
    ∃ Q : Finset (Fin n), Majority Q ∧ ∀ v ∈ Q, v = rf.me ∨ ∃ i cut, .accepted v rf.term i cut ∈ h ∧ N ≤ i := by
  refine ⟨insert rf.me (Finset.univ.filter fun i => i ≠ rf.me ∧ rf.matchIndex.getD i 0 ≥ N), ?_, fun v hv => ?_⟩
  · have hcard : (Finset.univ.filter fun i : Fin n => i ≠ rf.me ∧ rf.matchIndex.getD i 0 ≥ N).card =
        (List.finRange n).countP fun i => i ≠ rf.me ∧ rf.matchIndex.getD i 0 ≥ N := by
      rw [List.countP_eq_length_filter]; rfl
    unfold Raft.countMatch at hcount
    unfold Majority
    rw [Finset.card_insert_of_notMem (by simp), hcard, Fintype.card_fin]
    omega
  · rcases Finset.mem_insert.1 hv with rfl | hv
    · exact Or.inl rfl
    · obtain ⟨hne, hge⟩ := (Finset.mem_filter.1 hv).2
      obtain ⟨j, cut, hj, hle⟩ := hk hl v hne (by omega)
      exact Or.inr ⟨j, cut, hj, by omega⟩

/-- an acknowledgement raises matchIndex for its sender -/
theorem AckOk.set (hk : AckOk h rf) {peer : Fin n} {k : ℕ} (hacc : ∃ cut, .accepted peer rf.term k cut ∈ h)
    {matchIndex nextIndex : List ℕ} (hmi : matchIndex = rf.matchIndex ∨ matchIndex = rf.matchIndex.set peer k) :
    AckOk h { rf with matchIndex := matchIndex, nextIndex := nextIndex } := by
  rcases hmi with rfl | rfl
  · exact hk
  intro hl i hi hpos
  obtain ⟨cut, hcut⟩ := hacc
  by_cases hip : i = peer
  · subst hip
    refine ⟨k, cut, hcut, ?_⟩
    simp only [List.getD_eq_getElem?_getD, List.getElem?_set] at hpos ⊢
    split_ifs at hpos ⊢ <;> simp_all
  · simp only [getD_set_of_ne _ hip] at hpos ⊢
    exact hk hl i hi hpos

/-! ## The sections as moves -/

/-- in a log that starts with the sentinel, `termAtLocked` reads the term of an entry -/
theorem termAtLocked_eq (hroot : [sentinel] <+: rf.log) {i : ℕ} {e : LogEntry Cmd} (he : rf.log[i]? = some e) :
    rf.termAtLocked i = e.term := by
  by_cases hi : i = 0
  · subst hi
    have hs := prefix_getElem? hroot (i := 0) rfl
    rw [he] at hs
    rw [Option.some.inj hs]
    rfl
  · rw [Raft.termAtLocked, if_neg hi, he]

theorem stepDownLocked_core (rf : Raft n Cmd) (t : ℕ) :
    (rf.stepDownLocked t).core = { rf.core with role := .follower, term := max rf.term t } := by
  unfold Raft.stepDownLocked Raft.persist core
  dsimp only
  split_ifs with ht
  · rw [max_eq_right ht.le]
  · rw [max_eq_left (not_lt.1 ht)]

theorem stepDownLocked_moves (rf : Raft n Cmd) (t : ℕ) : Moves p h rf.core (rf.stepDownLocked t).core [] := by
  rw [stepDownLocked_core]
  exact (Move.adopt rf.core _ (le_max_left _ _)).moves

theorem raised_moves (rf : Raft n Cmd) (t : ℕ) : Moves p h rf.core (raised rf t).core [] := by
  unfold raised
  split_ifs
  · exact stepDownLocked_moves rf t
  · exact .refl

theorem adopted_moves (rf : Raft n Cmd) (t : ℕ) : Moves p h rf.core (adopted rf t).core [] := by
  unfold adopted
  split_ifs
  · exact stepDownLocked_moves rf t
  · exact (Move.adopt rf.core rf.term le_rfl).moves

/-- a section that does not touch the node's part in the protocol -/
theorem Moves.of_eq (hc : rf'.core = rf.core) : Moves p h rf.core rf'.core [] := hc ▸ .refl

/-- a section in the protocol: the moves it makes, and what it leaves behind -/
structure Carries (p : Fin n) (h : List (Event (Fin n) Cmd)) (rf rf' : Raft n Cmd) (out : List (Message n Cmd))
    (evs : List (Event (Fin n) Cmd)) : Prop where
  moves : Moves p h rf.core rf'.core evs
  acks : AckOk (h ++ evs) rf'
  msgs : ∀ m ∈ out, MsgOk (h ++ evs) m

theorem Acts.carries {sv : Server n Cmd} {task : Server.Task Cmd} {out : List (Message n Cmd)} (hme : sv.rf.me = p)
    (hroot : [sentinel] <+: sv.rf.log) (hk : AckOk h sv.rf) (ha : Acts sv task rf' out evs) :
    Carries p h sv.rf rf' out evs ∨
      (task = .restart ∧ rf' = Raft.make sv.rf.me sv.rf.persister ∧ out = [] ∧ evs = []) := by
  have hsub := List.subset_append_left h evs
  have hk' : AckOk (h ++ evs) sv.rf := hk.congr hsub rfl rfl rfl rfl
  have hlen : 0 < sv.rf.log.length := hroot.length_le
  subst hme
  cases ha with
  | idle => exact Or.inl ⟨.refl, hk', by simp⟩
  | election _ he =>
    obtain ⟨rfl, rfl⟩ := startElection_some he
    refine Or.inl ⟨(Move.stand sv.rf.core).moves, .of_state nofun, fun m hm => ?_⟩
    simp only [Server.broadcast, Server.others, List.mem_map, List.mem_filter, decide_eq_true_eq] at hm
    obtain ⟨q, ⟨-, hq⟩, rfl⟩ := hm
    refine ⟨hq.symm, rfl, sv.rf.log, by simp [stood, Raft.persist], ?_, rfl⟩
    simp only [Raft.lastLogIndexLocked]; omega
  | win _ he =>
    obtain ⟨rfl, -⟩ := startElection_none he
    refine Or.inl ⟨?_, becomeLeaderLocked_ackOk _, by simp⟩
    exact (Move.stand sv.rf.core).moves.step (Move.elect (stood sv.rf).core rfl)
  | beat =>
    refine Or.inl ⟨.refl, hk', fun m hm => ?_⟩
    simp only [Server.broadcast, List.mem_map] at hm
    obtain ⟨q, -, rfl⟩ := hm
    trivial
  | send hs =>
    obtain ⟨hreq, next, rfl⟩ := replicateSend_some hs
    refine Or.inl ⟨(Move.send sv.rf.core hreq.leader).moves, hk'.congr (List.Subset.refl _) rfl rfl rfl rfl, ?_⟩
    intro m hm
    simp only [List.mem_singleton] at hm
    subst hm
    have hprev := List.getElem?_eq_getElem hreq.prevLogIndex
    refine ⟨hreq.leaderID, sv.rf.log, ?_, ⟨_, hprev, ?_⟩, hreq.entries⟩
    · simp [hreq.term, hreq.leaderCommit, hreq.leaderID]
    · rw [hreq.prevLogTerm, termAtLocked_eq hroot hprev]
  | apply =>
    rcases applier_cases sv.rf with he | ⟨e, -, -, he⟩ <;> rw [he]
    · exact Or.inl ⟨.refl, hk', by simp⟩
    · exact Or.inl ⟨.of_eq rfl, hk'.congr (List.Subset.refl _) rfl rfl rfl rfl, by simp⟩
  | applySend => exact Or.inl ⟨(Move.note sv.rf.core (.applied _ _) trivial).moves, hk', by simp⟩
  | start hl =>
    rw [start_leader hl]
    refine Or.inl ⟨(Move.start sv.rf.core _ hl).moves, fun _ i hi hpos => ?_, by simp⟩
    simp only [getD_set_of_ne _ (show i ≠ sv.rf.me from hi)] at hpos ⊢
    exact hk' hl i hi hpos
  | restart ht => exact Or.inr ⟨ht, rfl, rfl, rfl⟩

/-- the up-to-date check of RequestVote compares the two logs -/
theorem upToDate_of_check {args : RequestVoteArgs n} {l : List (LogEntry Cmd)} (hlen : args.lastLogIndex + 1 = l.length)
    (hterm : args.lastLogTerm = lastTerm LogEntry.term l)
    (hup : args.lastLogTerm > rf.lastLogTermLocked ∨
      (args.lastLogTerm = rf.lastLogTermLocked ∧ args.lastLogIndex ≥ rf.lastLogIndexLocked)) :
    UpToDate LogEntry.term l rf.log := by
  unfold Raft.lastLogTermLocked Raft.lastLogIndexLocked at hup
  rw [hterm] at hup
  rcases hup with hlt | ⟨heq, hge⟩
  · exact Or.inl hlt
  · exact Or.inr ⟨heq, by omega⟩

theorem requestVote_carries {m : Message n Cmd} {args : RequestVoteArgs n} {reply : RequestVoteReply}
    (hbody : m.body = .requestVote args) (hv : rf.requestVote args = (rf', reply)) (hp : rf.me = m.server)
    (hm : MsgOk h m) (hk : AckOk h rf) :
    Carries rf.me h rf rf' [{ m with body := .requestVoteReply args.electionTerm reply }]
      (if reply.vote then [.voteGranted rf'.me rf'.term args.candidateID rf'.log] else []) := by
  simp only [MsgOk, hbody] at hm
  obtain ⟨hne, hcand, l, hl, hidx, hterm⟩ := hm
  obtain ⟨hme, hlog, -, -⟩ := raised_rest rf args.electionTerm
  have hkup : AckOk h (raised rf args.electionTerm) := by
    unfold raised
    split_ifs
    · exact .of_state nofun
    · exact hk
  cases requestVote_cases hv with
  | stale =>
    simp only [Bool.false_eq_true, if_false]
    exact ⟨.refl, by simpa using hk, by simp [MsgOk, hne]⟩
  | refused =>
    simp only [Bool.false_eq_true, if_false]
    exact ⟨raised_moves rf _, by simpa using hkup, by simp [MsgOk, hne]⟩
  | granted hle hfree hup =>
    have hgrant := Move.grant (p := rf.me) (h := h ++ []) (raised rf args.electionTerm).core args.candidateID l
      (by simpa [core, raised_term hle, hcand] using hl)
      (by simpa only [core, hlog] using upToDate_of_check hidx hterm hup)
    simp only [if_true, Raft.persist, hme]
    refine ⟨(raised_moves rf _).step hgrant, hkup.congr (List.subset_append_left _ _) rfl hme.symm rfl rfl, ?_⟩
    simp [MsgOk, hne, hp, hcand, raised_term hle]

theorem requestVoteReply_carries {m : Message n Cmd} {term : ℕ} {reply : RequestVoteReply} {won : Bool}
    (hv : rf.requestVoteReply term reply = (rf', won)) (hk : AckOk h rf) :
    Carries rf.me h rf rf' []
      ((if reply.electionTerm ≤ rf.term ∧ reply.vote then [.voteCounted rf'.me term m.server] else []) ++
        if won then [.becameLeader rf'.me rf'.term rf'.log] else []) := by
  have hcount : Moves rf.me h rf.core rf.core [.voteCounted rf.me term m.server] :=
    (Move.note rf.core (.voteCounted _ _ _) trivial).moves
  cases requestVoteReply_cases hv with
  | higher hlt =>
    rw [if_neg (by omega)]
    exact ⟨stepDownLocked_moves rf _, .of_state nofun, by simp⟩
  | refused hle hvote =>
    rw [if_neg (by simp [hvote])]
    exact ⟨.refl, by simpa using hk, by simp⟩
  | counted hle hvote =>
    rw [if_pos ⟨hle, hvote⟩]
    exact ⟨hcount, hk.congr (List.subset_append_left _ _) rfl rfl rfl rfl, by simp⟩
  | won hle hvote hmaj hst hterm =>
    rw [if_pos ⟨hle, hvote⟩]
    exact ⟨hcount.step (Move.elect rf.core hst), becomeLeaderLocked_ackOk _, by simp⟩

theorem heartbeat_carries {m : Message n Cmd} {args : HeartbeatArgs n} {reply : HeartbeatReply}
    (hb : rf.heartbeat args = (rf', reply)) (hk : AckOk h rf) :
    Carries rf.me h rf rf' [{ m with body := .heartbeatReply args.term reply }] [] := by
  cases heartbeat_cases hb with
  | stale => exact ⟨.refl, by simpa using hk, by simp [MsgOk]⟩
  | newer hlt => exact ⟨(Move.adopt rf.core args.term hlt.le).moves, .of_state nofun, by simp [MsgOk]⟩
  | same heq => exact ⟨(Move.adopt rf.core rf.term le_rfl).moves, .of_state nofun, by simp [MsgOk]⟩

theorem heartbeatReply_carries (t : ℕ) (reply : HeartbeatReply) (hk : AckOk h rf) :
    Carries rf.me h rf (rf.heartbeatReply t reply) [] [] := by
  unfold Raft.heartbeatReply
  split_ifs
  · exact ⟨stepDownLocked_moves rf _, .of_state nofun, by simp⟩
  · exact ⟨.refl, by simpa using hk, by simp⟩

theorem appendEntries_carries {m : Message n Cmd} {args : AppendEntriesArgs n Cmd} {rest : List (Fin n)}
    {reply : AppendEntriesReply} (hbody : m.body = .appendEntries args rest)
    (ha : rf.appendEntries args = (rf', reply)) (hp : rf.me = m.server) (hm : MsgOk h m) (hk : AckOk h rf)
    (hroot : [sentinel] <+: rf.log) :
    Carries rf.me h rf rf' [{ m with body := .appendEntriesReply args rest reply }]
      (if reply.success then
        [.accepted rf'.me rf'.term (args.prevLogIndex + args.entries.length)
          (decide (Cuts LogEntry.term rf.log (args.prevLogIndex + 1) args.entries))]
      else []) := by
  simp only [MsgOk, hbody] at hm
  obtain ⟨-, full, hfull, ⟨b, hb, hbt⟩, hents⟩ := hm
  obtain ⟨hme, hlog, hcommit, -⟩ := adopted_rest rf args.term
  have hkup : AckOk h (adopted rf args.term) := .of_state (by rw [adopted_state]; nofun)
  have hne : rf.log ≠ [] := by rintro he; rw [he] at hroot; simp at hroot
  cases appendEntries_cases hne ha with
  | stale _ hf _ =>
    rw [hf]
    exact ⟨.refl, by simpa using hk, by simp [MsgOk, hf]⟩
  | refused _ hf _ =>
    rw [hf]
    exact ⟨adopted_moves rf _, by simpa using hkup, by simp [MsgOk, hf]⟩
  | accepted hle hprev hat hs _ =>
    have ha := List.getElem?_eq_getElem hprev
    have hab : (rf.log[args.prevLogIndex]).term = b.term := by
      rw [termAtLocked_eq hroot ha, hbt] at hat
      exact_mod_cast hat
    have hacc :=
      Move.accept (p := rf.me) (h := h ++ []) (adopted rf args.term).core args.leaderID full args.leaderCommit
      args.prevLogIndex _ b (adopted_state _) (by simpa [core, adopted_term hle] using hfull)
      (by simpa only [core, hlog] using ha) hb hab
    have hlast : args.prevLogIndex + (full.drop (args.prevLogIndex + 1)).length = full.length - 1 := by
      have hlt := (List.getElem?_eq_some_iff.1 hb).1
      rw [List.length_drop]
      omega
    have hup := adopted_moves (p := rf.me) (h := h) rf args.term
    simp only [hs, if_true, hents, hlast, Raft.persist, hme]
    refine ⟨?_, .of_state (by rw [adopted_state]; nofun), ?_⟩
    · simp only [core, hlog, hcommit] at hacc hup ⊢
      exact hup.step hacc
    · intro m' hm'
      simp only [List.mem_singleton] at hm'
      subst hm'
      intro _
      simp only [hents, hlast, hp, adopted_term hle]
      exact ⟨_, List.mem_append_right _ (List.mem_singleton_self _)⟩

theorem appendEntriesReply_carries {m : Message n Cmd} {args : AppendEntriesArgs n Cmd} {rest : List (Fin n)}
    {reply : AppendEntriesReply} {next : Next} (hbody : m.body = .appendEntriesReply args rest reply)
    (hr : rf.replicateReply m.server args.term args reply = some (rf', next)) (hm : MsgOk h m) (hk : AckOk h rf) :
    Carries rf.me h rf rf' []
      (if next = .pushed then [.committed rf'.me rf'.term rf'.commitIndex rf'.log] else []) := by
  simp only [MsgOk, hbody] at hm
  cases replicateReply_cases hr with
  | higher hlt => exact ⟨stepDownLocked_moves rf _, .of_state nofun, by simp⟩
  | ignored => exact ⟨.refl, by simpa using hk, by simp⟩
  | @matched mi ni hterm hst hs hset =>
    have hset : AckOk h { rf with matchIndex := mi, nextIndex := ni } :=
      hk.set (by rw [hterm]; exact hm hs) (hset.imp And.left And.left)
    exact ⟨.of_eq rfl, by simpa using hset, by simp⟩
  | @pushed mi ni N hterm hst hs hset hadv =>
    have hset : AckOk h { rf with matchIndex := mi, nextIndex := ni } :=
      hk.set (by rw [hterm]; exact hm hs) (hset.imp And.left And.left)
    obtain ⟨hlt, ⟨e, hN, het⟩, hcount⟩ := tryAdvanceCommitLocked_pushed hadv
    obtain ⟨Q, hQ, hacks⟩ := hset.acks hst (Nat.zero_lt_of_lt hlt) hcount
    rw [if_pos rfl]
    exact ⟨(Move.commit rf.core N e Q hst hlt hN het hQ hacks).moves,
      hset.congr (List.subset_append_left _ _) rfl rfl rfl rfl, by simp⟩
  | rejected => exact ⟨.of_eq rfl, hk.congr (by simp) rfl rfl rfl rfl, by simp⟩

theorem Receives.carries {m : Message n Cmd} {out : List (Message n Cmd)} (hp : rf.me = m.target) (hm : MsgOk h m)
    (hk : AckOk h rf) (hroot : [sentinel] <+: rf.log)
    (hr : Receives rf m rf' out evs) : Carries rf.me h rf rf' out evs := by
  cases hr with
  | requestVote hbody hv =>
    exact requestVote_carries hbody hv (by simpa [Message.target, Message.isRequest, hbody] using hp) hm hk
  | requestVoteReply hbody hv => exact requestVoteReply_carries hv hk
  | heartbeat hbody hb => exact heartbeat_carries hb hk
  | heartbeatReply hbody => exact heartbeatReply_carries _ _ hk
  | appendEntries hbody ha =>
    have hp' : rf.me = m.server := by simpa [Message.target, Message.isRequest, hbody] using hp
    exact appendEntries_carries hbody ha hp' hm hk hroot
  | appendEntriesReply hbody hrep => exact appendEntriesReply_carries hbody hrep hm hk

/-! ## Runs -/

/-- the nodes, the messages in flight and the history, seen from the protocol -/
structure Refines (R : Fin n → Raft n Cmd) (net : List (Message n Cmd)) (h : List (Event (Fin n) Cmd)) : Prop where
  reach : Reach (fun p => (R p).core) h
  net : ∀ m ∈ net, MsgOk h m
  acks : ∀ p, AckOk h (R p)

variable {R : Fin n → Raft n Cmd} {net net' out : List (Message n Cmd)}

theorem core_update (R : Fin n → Raft n Cmd) (p : Fin n) (rf : Raft n Cmd) :
    (fun q => (Function.update R p rf q).core) = Function.update (fun q => (R q).core) p rf.core := by
  funext q
  by_cases hq : q = p
  · subst hq; simp
  · simp [hq]

theorem Refines.carry (hI : Refines R net h) (hc : Carries p h (R p) rf' out evs)
    (hnet : ∀ m ∈ net', m ∈ net ∨ m ∈ out) : Refines (Function.update R p rf') net' (h ++ evs) := by
  have hsub := List.subset_append_left h evs
  refine ⟨?_, fun m hm => ?_, ?_⟩
  · rw [core_update]
    exact hI.reach.moves hc.moves
  · rcases hnet m hm with hm | hm
    · exact (hI.net m hm).mono hsub
    · exact hc.msgs m hm
  · exact (Function.forall_update_iff R fun _ => AckOk (h ++ evs)).2
      ⟨hc.acks, fun q _ => (hI.acks q).congr hsub rfl rfl rfl rfl⟩

/-- a node that comes back from its Persister -/
theorem Refines.restart (hI : Refines R net h) (hs : Saved (R p)) :
    Refines (Function.update R p (Raft.make (R p).me (R p).persister)) net h := by
  have hcore : (Raft.make (R p).me (R p).persister).core = (R p).core.restart := by rw [hs.made]; rfl
  refine ⟨?_, hI.net, ?_⟩
  · rw [core_update, hcore]
    exact hI.reach.restart p
  · refine (Function.forall_update_iff R fun _ => AckOk h).2 ⟨?_, fun q _ => hI.acks q⟩
    rw [hs.made]
    exact .of_state nofun

variable {s s' : Cluster n Cmd} {a : Action n Cmd} {ok : Cluster n Cmd → Action n Cmd → Prop}

/-- a task of a node is a section of the protocol, or a restart -/
theorem Refines.acts (hI : Refines s.rf s.net h) (hme : (s.rf p).me = p) {task : Server.Task Cmd}
    (ha : Acts (s.node p) task rf' out evs) :
    Carries p h (s.rf p) rf' out evs ∨
      (task = .restart ∧ rf' = Raft.make (s.rf p).me (s.rf p).persister ∧ out = [] ∧ evs = []) :=
  ha.carries hme (hI.reach.basic.nodes p).root (hI.acks p)

/-- the handling of a message is a section of the protocol -/
theorem Refines.receives (hI : Refines s.rf s.net h) (hme : (s.rf p).me = p) {m : Message n Cmd} (hm : m ∈ s.net)
    (hp : p = m.target) (hr : Receives (s.rf p) m rf' out evs) : Carries p h (s.rf p) rf' out evs := by
  have hc := hr.carries (hme.trans hp) (hI.net m hm) (hI.acks p) (hI.reach.basic.nodes p).root
  rwa [hme] at hc

theorem step_refines (hI : Refines s.rf s.net h) (hS : ∀ p, (s.rf p).me = p ∧ Saved (s.rf p))
    (hs : s.step a = some (s', evs)) : Refines s'.rf s'.net (h ++ evs) := by
  have herase : ∀ k, ∀ m ∈ s.net.eraseIdx k, m ∈ s.net := fun k m hm => List.mem_of_mem_eraseIdx hm
  refine step_preserves (J := Refines) hs ?_ ?_ ?_ ?_ ?_
  · exact fun k => ⟨hI.reach, fun m hm => hI.net m (herase k m hm), hI.acks⟩
  · intro k m hk
    refine ⟨hI.reach, fun m' hm' => ?_, hI.acks⟩
    rcases List.mem_append.1 hm' with hm' | hm'
    · exact hI.net m' (herase k m' hm')
    · -- what a message says does not depend on who waits for its reply
      simp only [List.mem_singleton] at hm'
      subst hm'
      exact hI.net m (List.mem_of_getElem? hk)
  · -- the newer term is saved, then the node restarts
    intro net p t hI' ht
    have hdown : Carries p h (s.rf p) ((s.rf p).stepDownLocked t) [] [] :=
      ⟨stepDownLocked_moves _ t, .of_state nofun, by simp⟩
    have hfol := stepDownLocked_follows (hS p).2 t
    have hI'' : Refines (Function.update s.rf p ((s.rf p).stepDownLocked t)) net (h ++ []) :=
      hI'.carry hdown (fun m hm => Or.inl hm)
    have hres := hI''.restart (p := p) (by rw [Function.update_self]; exact hfol.saved)
    rwa [List.append_nil, Function.update_idem, Function.update_self, hfol.me] at hres
  · intro p task rf out evs _ ha
    rcases hI.acts (hS p).1 ha with hc | ⟨-, rfl, rfl, rfl⟩
    · exact hI.carry hc (fun m hm => List.mem_append.1 hm)
    · rw [List.append_nil, List.append_nil]
      exact hI.restart (hS p).2
  · intro p m k rf out evs _ hk hp hr
    refine hI.carry (hI.receives (hS p).1 (List.mem_of_getElem? hk) hp hr) (fun m hm => ?_)
    rcases List.mem_append.1 hm with hm | hm
    · exact Or.inl (herase k m hm)
    · exact Or.inr hm

/-- **The code refines the protocol.** Whatever the cluster gets to, the abstract protocol gets to with the same
history, and the messages in flight and the leaders' counters are borne out by that history. -/
theorem run_refines (hr : (machine n Cmd).Run ok s h) : Refines s.rf s.net h := by
  induction hr with
  | init => exact ⟨.init, by simp [machine, Cluster.init], fun p => .of_state nofun⟩
  | step hr _ hs ih => exact step_refines ih (run_saved hr) hs

end CS240.Raft
