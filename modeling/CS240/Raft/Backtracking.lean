/-
One leader and one follower: the merge of an accepted request, and the rounds of `replicateTo` until a request is
accepted.

- `appendEntries_cut_iff`: an accepted request cuts the log at a conflict only, unless it ends inside the log without
  one.
- `replicateTo`: the loop with all messages delivered, for a given number of rounds.
- `Backtracks`: two logs of one family and a `nextIndex` inside the leader's; kept by refused rounds
  (`Backtracks.refused`).
- `fast_backtracking`: a refused round goes back, and after at most `nextIndex` rounds the follower has the leader's
  log.
-/
import CS240.Raft.Indices

namespace CS240.Raft

open Lib

variable {n : ℕ} {Cmd : Type}

/-! ## The merge -/

/-- an accepted request leaves a log that is cut at the first conflict, and only there, if and only if there is a
conflict, or the request is empty, or it does not end inside the log -/
theorem appendEntries_cut_iff {rf : Raft n Cmd} {args : AppendEntriesArgs n Cmd} (hterm : rf.term ≤ args.term)
    (hprev : args.prevLogIndex < rf.log.length) (hmatch : rf.termAtLocked args.prevLogIndex = args.prevLogTerm) :
    CutAtConflict LogEntry.term rf.log (args.prevLogIndex + 1) args.entries (rf.appendEntries args).1.log ↔
      (∃ j, Conflict LogEntry.term rf.log (args.prevLogIndex + 1) args.entries j) ∨ args.entries = [] ∨
        rf.log.length ≤ args.prevLogIndex + 1 + args.entries.length := by
  have hl : rf.log ≠ [] := List.ne_nil_of_length_pos (by omega)
  rw [appendEntries_eq _ hl hterm, if_neg (not_le.mpr hprev), if_neg (not_not.mpr hmatch)]
  exact merge_cutAtConflict_iff hprev

/-- a follower with two entries of term 1 -/
def twoEntries : Raft 3 ℕ := { Raft.initial 1 [] with term := 1, log := [sentinel, ⟨1, some 7⟩, ⟨1, some 8⟩] }

/-- a delayed request that holds the first of the two -/
def delayed : AppendEntriesArgs 3 ℕ := ⟨1, 0, 0, 0, [⟨1, some 7⟩], 0⟩

/-- no entry of the request conflicts with the log, and the second entry is dropped -/
theorem delayed_cuts : twoEntries.term ≤ delayed.term ∧ delayed.prevLogIndex < twoEntries.log.length ∧
    twoEntries.termAtLocked delayed.prevLogIndex = delayed.prevLogTerm ∧
    (twoEntries.appendEntries delayed).1.log = [sentinel, ⟨1, some 7⟩] ∧
    ¬ CutAtConflict LogEntry.term twoEntries.log (delayed.prevLogIndex + 1) delayed.entries
      (twoEntries.appendEntries delayed).1.log := by
  have hlog : (twoEntries.appendEntries delayed).1.log = [sentinel, ⟨1, some 7⟩] := by decide
  refine ⟨by decide, by decide, by decide, hlog, fun hcut => ?_⟩
  have hnone : ∀ j, ¬ Conflict LogEntry.term twoEntries.log 1 delayed.entries j := by
    rintro (_ | j) ⟨a, b, ha, hb, hab⟩
    · cases ha
      cases hb
      exact hab rfl
    · cases hb
  have hle := (hcut.1 hnone).1.length_le
  rw [hlog] at hle
  exact absurd hle (by decide)

theorem appendEntries_cut_iff_delayed :
    (twoEntries.term ≤ delayed.term ∧ delayed.prevLogIndex < twoEntries.log.length ∧
      twoEntries.termAtLocked delayed.prevLogIndex = delayed.prevLogTerm) ∧
    (CutAtConflict LogEntry.term twoEntries.log (delayed.prevLogIndex + 1) delayed.entries
        (twoEntries.appendEntries delayed).1.log ↔
      (∃ j, Conflict LogEntry.term twoEntries.log (delayed.prevLogIndex + 1) delayed.entries j) ∨ delayed.entries = [] ∨
        twoEntries.log.length ≤ delayed.prevLogIndex + 1 + delayed.entries.length) :=
  ⟨⟨by decide, by decide, by decide⟩, appendEntries_cut_iff (by decide) (by decide) (by decide)⟩

/-! ## The loop -/

/-- a round of `replicateTo`: the leader and the follower after it, the request, the reply, and whether it goes on -/
structure Round (n : ℕ) (Cmd : Type) where
  leader : Raft n Cmd
  follower : Raft n Cmd
  args : AppendEntriesArgs n Cmd
  reply : AppendEntriesReply
  next : Next

/-- the request reaches the follower and the reply the leader; `none` if the leader panics or leads no longer -/
def round (peer : Fin n) (leaderTerm : ℕ) (leader follower : Raft n Cmd) : Option (Round n Cmd) :=
  match leader.replicateSend peer leaderTerm with
  | some (leader, some args) =>
    let (follower, reply) := follower.appendEntries args
    (leader.replicateReply peer leaderTerm args reply).map fun p => ⟨p.1, follower, args, reply, p.2⟩
  | _ => none

/-- the last of at most `fuel` rounds, if the loop has ended by then -/
def replicateTo (peer : Fin n) (leaderTerm : ℕ) : ℕ → Raft n Cmd → Raft n Cmd → Option (Round n Cmd)
  | 0, _, _ => none
  | fuel + 1, leader, follower =>
    (round peer leaderTerm leader follower).bind fun r =>
      if r.next = .retry then replicateTo peer leaderTerm fuel r.leader r.follower else some r

/-- A leader with a `nextIndex` inside its log, and a follower that is not ahead of it. The logs start with an entry of
term 0 and come from one family: a prefix that ends in an entry of term `t` is a prefix of `C t`. -/
structure Backtracks (C : ℕ → List (LogEntry Cmd)) (peer : Fin n) (leader follower : Raft n Cmd) : Prop where
  state : leader.state = .leader
  term : follower.term ≤ leader.term
  nextIndex : leader.nextIndex.length = n
  matchIndex : leader.matchIndex.length = n
  next : 1 ≤ leader.nextIndex.getD peer 0 ∧ leader.nextIndex.getD peer 0 ≤ leader.log.length
  leaderRoot : leader.log[0]?.map LogEntry.term = some 0
  followerRoot : follower.log[0]?.map LogEntry.term = some 0
  leaderLog : Coherent LogEntry.term C leader.log
  followerLog : Coherent LogEntry.term C follower.log

variable {C : ℕ → List (LogEntry Cmd)} {peer : Fin n} {rf leader follower : Raft n Cmd}

theorem termAtLocked_root (hroot : rf.log[0]?.map LogEntry.term = some 0) {i : ℕ} {e : LogEntry Cmd}
    (he : rf.log[i]? = some e) : rf.termAtLocked i = e.term := by
  by_cases hi : i = 0
  · subst hi
    rw [he, Option.map_some] at hroot
    rw [Option.some.inj hroot]
    rfl
  · rw [Raft.termAtLocked, if_neg hi, he]

/-- the leader's scan finds an entry of the term it looks for -/
theorem lastIndexOf_term {ct : ℤ} {i last : ℕ} (hs : rf.lastIndexOf ct i = some (some last)) :
    ∃ e, rf.log[last]? = some e ∧ (e.term : ℤ) = ct := by
  induction i with
  | zero => cases hs
  | succ i ih =>
    simp only [Raft.lastIndexOf, Option.bind_eq_bind, Option.bind_eq_some_iff] at hs
    obtain ⟨e, he, hs⟩ := hs
    split_ifs at hs with hct
    · cases hs
      exact ⟨e, he, hct⟩
    · cases hs
    · exact ih hs

/-- the request that starts at `next` -/
def requestAt (rf : Raft n Cmd) (next : ℕ) : AppendEntriesArgs n Cmd where
  term := rf.term
  leaderID := rf.me
  prevLogIndex := next - 1
  prevLogTerm := rf.termAtLocked (next - 1)
  entries := rf.log.drop next
  leaderCommit := rf.commitIndex

theorem Backtracks.send (H : Backtracks C peer leader follower) : leader.replicateSend peer leader.term =
    some (leader, some (requestAt leader (leader.nextIndex.getD peer 0))) := by
  obtain ⟨hge, hle⟩ := H.next
  rw [Raft.replicateSend, if_neg (by simp [H.state]), getElem?_slice H.nextIndex peer]
  simp only [Option.bind_eq_bind, Option.bind_some, if_neg (not_lt.mpr hge), if_neg (not_lt.mpr hle)]
  rfl

/-- a refused request makes the leader go back to the follower's hint, or behind its own last entry of the term named
there -/
theorem replicateReply_refused (hstate : rf.state = .leader) (hnext : rf.nextIndex.length = n) (peer : Fin n)
    (args : AppendEntriesArgs n Cmd) {reply : AppendEntriesReply} (hterm : reply.term ≤ rf.term)
    (hf : reply.success = false) :
    ∃ next, rf.replicateReply peer rf.term args reply =
        some ({ rf with nextIndex := rf.nextIndex.set peer (max 1 next) }, .retry) ∧
      (next = reply.conflictIndex ∨ ∃ e last, rf.log[last]? = some e ∧ (e.term : ℤ) = reply.conflictTerm ∧
        next = last + 1) := by
  have hmax : ∀ k : ℕ, (if k < 1 then 1 else k) = max 1 k := by
    intro k
    split_ifs <;> omega
  rw [Raft.replicateReply, if_neg (not_lt.mpr hterm), if_neg (by simp [hstate]), hf, if_neg Bool.false_ne_true,
    getElem?_slice hnext peer]
  simp only [Option.bind_eq_bind, Option.bind_some, hmax]
  by_cases hshort : reply.conflictTerm = -1
  · simp only [if_pos hshort]
    exact ⟨_, rfl, .inl rfl⟩
  have hscan : (rf.lastIndexOf reply.conflictTerm rf.lastLogIndexLocked).isSome :=
    lastIndexOf_isSome _ (by unfold Raft.lastLogIndexLocked; omega)
  obtain ⟨found, hfound⟩ := Option.isSome_iff_exists.mp hscan
  simp only [if_neg hshort, hfound, Option.bind_some]
  cases found with
  | none => exact ⟨_, rfl, .inl rfl⟩
  | some last =>
    obtain ⟨e, he, hct⟩ := lastIndexOf_term hfound
    exact ⟨_, rfl, .inr ⟨e, last, he, hct, rfl⟩⟩

/-- an accepted request ends the loop -/
theorem replicateReply_accepted (hstate : rf.state = .leader) (hmatch : rf.matchIndex.length = n) (peer : Fin n)
    (args : AppendEntriesArgs n Cmd) (reply : AppendEntriesReply) (hterm : reply.term ≤ rf.term)
    (hs : reply.success = true) :
    ∃ p, rf.replicateReply peer rf.term args reply = some p ∧ p.2 ≠ .retry := by
  rw [Raft.replicateReply, if_neg (not_lt.mpr hterm), if_neg (by simp [hstate]), if_pos hs]
  simp only [Option.bind_eq_bind, getElem?_slice hmatch peer, Option.bind_some]
  generalize (if args.prevLogIndex + args.entries.length > rf.matchIndex.getD peer 0 then _ else rf) = rf₁
  obtain ⟨⟨rf₂, adv⟩, hadv⟩ := Option.isSome_iff_exists.mp (tryAdvanceCommitLocked_isSome rf₁)
  rw [hadv]
  refine ⟨_, rfl, ?_⟩
  cases adv <;> simp

/-- If the follower has another term at `prev` than the leader, the leader's last entry of the follower's term lies
before `prev`: otherwise the two logs, being of one family, would agree up to `prev`. -/
theorem Backtracks.last_lt (H : Backtracks C peer leader follower) {prev last : ℕ} {e f x : LogEntry Cmd}
    (he : leader.log[prev]? = some e) (hf : follower.log[prev]? = some f) (hef : f.term ≠ e.term)
    (hx : leader.log[last]? = some x) (hxf : x.term = f.term) : last < prev := by
  by_contra hge
  refine hef ?_
  have hxC : leader.log.take (last + 1) <+: C f.term := hxf ▸ H.leaderLog last x hx
  have hfC : follower.log.take (prev + 1) <+: C f.term := H.followerLog prev f hf
  have heq : (C f.term)[prev]? = some e := by
    refine prefix_getElem? hxC ?_
    rw [List.getElem?_take_of_lt (by omega), he]
  have hfq : (C f.term)[prev]? = some f := by
    refine prefix_getElem? hfC ?_
    rw [List.getElem?_take_of_lt (by omega), hf]
  rw [heq] at hfq
  rw [Option.some.inj hfq]

/-- the rounds of the loop, with the request and the answer written out -/
theorem Backtracks.round_eq (H : Backtracks C peer leader follower) {follower' : Raft n Cmd}
    {reply : AppendEntriesReply}
    (ha : follower.appendEntries (requestAt leader (leader.nextIndex.getD peer 0)) = (follower', reply)) :
    round peer leader.term leader follower =
      (leader.replicateReply peer leader.term (requestAt leader (leader.nextIndex.getD peer 0)) reply).map fun p =>
        ⟨p.1, follower', requestAt leader (leader.nextIndex.getD peer 0), reply, p.2⟩ := by
  simp only [round, H.send, ha]

/-- what a refused round leads to -/
structure WentBack (C : ℕ → List (LogEntry Cmd)) (peer : Fin n) (leader : Raft n Cmd) (r : Round n Cmd) : Prop where
  retry : r.next = .retry
  term : r.leader.term = leader.term
  log : r.leader.log = leader.log
  back : 1 ≤ r.leader.nextIndex.getD peer 0 ∧ r.leader.nextIndex.getD peer 0 < leader.nextIndex.getD peer 0
  again : Backtracks C peer r.leader r.follower

theorem Backtracks.wentBack (H : Backtracks C peer leader follower) {follower' : Raft n Cmd}
    {reply : AppendEntriesReply}
    (ha : follower.appendEntries (requestAt leader (leader.nextIndex.getD peer 0)) = (follower', reply))
    (hf : reply.success = false) (hreply : reply.term ≤ leader.term) (hlog : follower'.log = follower.log)
    (hterm : follower'.term ≤ leader.term) (htwo : 1 < leader.nextIndex.getD peer 0)
    (hindex : reply.conflictIndex < leader.nextIndex.getD peer 0)
    (hlast : ∀ last x, leader.log[last]? = some x → (x.term : ℤ) = reply.conflictTerm →
      last + 1 < leader.nextIndex.getD peer 0) :
    ∃ r, round peer leader.term leader follower = some r ∧ r.reply.success = false ∧ WentBack C peer leader r := by
  obtain ⟨next, hr, hnext⟩ := replicateReply_refused H.state H.nextIndex peer
    (requestAt leader (leader.nextIndex.getD peer 0)) hreply hf
  have hback : max 1 next < leader.nextIndex.getD peer 0 := by
    rcases hnext with rfl | ⟨x, last, hx, hct, rfl⟩
    · exact max_lt htwo hindex
    · exact max_lt htwo (hlast last x hx hct)
  have hget : (leader.nextIndex.set peer (max 1 next)).getD peer 0 = max 1 next := getD_set_self H.nextIndex _
  obtain ⟨hge, hle⟩ := H.next
  refine ⟨_, by rw [H.round_eq ha, hr, Option.map_some], hf, rfl, rfl, rfl, ?_, ?_⟩
  · dsimp only
    rw [hget]
    exact ⟨le_max_left _ _, hback⟩
  · refine ⟨H.state, hterm, ?_, H.matchIndex, ?_, H.leaderRoot, hlog ▸ H.followerRoot, H.leaderLog,
      hlog ▸ H.followerLog⟩
    · rw [List.length_set]
      exact H.nextIndex
    · dsimp only
      rw [hget]
      exact ⟨le_max_left _ _, by omega⟩

theorem Backtracks.ne_nil (H : Backtracks C peer leader follower) : follower.log ≠ [] := by
  intro hnil
  have hroot := H.followerRoot
  rw [hnil] at hroot
  cases hroot

/-- the follower's log ends before `prev` -/
theorem Backtracks.short (H : Backtracks C peer leader follower)
    (hshort : follower.log.length ≤ leader.nextIndex.getD peer 0 - 1) :
    ∃ r, round peer leader.term leader follower = some r ∧ r.reply.success = false ∧ WentBack C peer leader r := by
  have ha := appendEntries_eq (requestAt leader (leader.nextIndex.getD peer 0)) H.ne_nil H.term
  obtain ⟨-, hlog, -, -⟩ := adopted_rest follower leader.term
  have hpos : 0 < follower.log.length := List.length_pos_iff.mpr H.ne_nil
  have hterm : (adopted follower leader.term).term ≤ leader.term := (adopted_term H.term).le
  rw [if_pos (by simp only [requestAt]; omega)] at ha
  refine H.wentBack ha rfl H.term hlog hterm (by omega) (by dsimp only; omega) fun last x _ hct => ?_
  dsimp only at hct
  omega

/-- the logs start with the same term, so a leader that finds another one at `prev` can go back -/
theorem Backtracks.one_lt (H : Backtracks C peer leader follower) {e f : LogEntry Cmd}
    (he : leader.log[leader.nextIndex.getD peer 0 - 1]? = some e)
    (hf : follower.log[leader.nextIndex.getD peer 0 - 1]? = some f)
    (hfe : f.term ≠ e.term) : 1 < leader.nextIndex.getD peer 0 := by
  by_contra hone
  have hzero : leader.nextIndex.getD peer 0 - 1 = 0 := by omega
  rw [hzero] at he hf
  have he0 := H.leaderRoot
  have hf0 := H.followerRoot
  rw [he, Option.map_some] at he0
  rw [hf, Option.map_some] at hf0
  exact hfe ((Option.some.inj hf0).trans (Option.some.inj he0).symm)

/-- the follower has an entry of another term at `prev` -/
theorem Backtracks.mismatch (H : Backtracks C peer leader follower) {e f : LogEntry Cmd}
    (he : leader.log[leader.nextIndex.getD peer 0 - 1]? = some e)
    (hf : follower.log[leader.nextIndex.getD peer 0 - 1]? = some f) (hfe : f.term ≠ e.term) :
    ∃ r, round peer leader.term leader follower = some r ∧ r.reply.success = false ∧ WentBack C peer leader r := by
  have ha := appendEntries_eq (requestAt leader (leader.nextIndex.getD peer 0)) H.ne_nil H.term
  obtain ⟨-, hlog, -, -⟩ := adopted_rest follower leader.term
  have hterm : (adopted follower leader.term).term ≤ leader.term := (adopted_term H.term).le
  have hleader : leader.termAtLocked (leader.nextIndex.getD peer 0 - 1) = e.term := termAtLocked_root H.leaderRoot he
  have hfollower : follower.termAtLocked (leader.nextIndex.getD peer 0 - 1) = f.term :=
    termAtLocked_root H.followerRoot hf
  have hlt := (List.getElem?_eq_some_iff.mp hf).1
  have htwo := H.one_lt he hf hfe
  rw [if_neg (by simp only [requestAt]; omega),
    if_pos (by simp only [requestAt, hleader, hfollower, ne_eq, Nat.cast_inj, hfe, not_false_eq_true])] at ha
  have hindex := firstIndexOf_le follower (follower.termAtLocked (leader.nextIndex.getD peer 0 - 1))
    (leader.nextIndex.getD peer 0 - 1)
  have hlast : ∀ last x, leader.log[last]? = some x →
      (x.term : ℤ) = follower.termAtLocked (leader.nextIndex.getD peer 0 - 1) →
        last + 1 < leader.nextIndex.getD peer 0 := by
    intro last x hx hct
    rw [hfollower, Nat.cast_inj] at hct
    have hlt := H.last_lt he hf hfe hx hct
    omega
  exact H.wentBack ha rfl H.term hlog hterm htwo (by simp only [requestAt]; omega) hlast

/-- the terms at `prev` are the same: the logs agree up to there, and the rest comes with the request -/
theorem Backtracks.accepted (H : Backtracks C peer leader follower) {e f : LogEntry Cmd}
    (he : leader.log[leader.nextIndex.getD peer 0 - 1]? = some e)
    (hf : follower.log[leader.nextIndex.getD peer 0 - 1]? = some f) (hfe : f.term = e.term) :
    ∃ r, round peer leader.term leader follower = some r ∧ r.reply.success = true ∧ r.next ≠ .retry ∧
      leader.log <+: r.follower.log ∧ (r.args.entries ≠ [] → r.follower.log = leader.log) := by
  obtain ⟨hge, -⟩ := H.next
  have ha := appendEntries_eq (requestAt leader (leader.nextIndex.getD peer 0)) H.ne_nil H.term
  have hleader : leader.termAtLocked (leader.nextIndex.getD peer 0 - 1) = e.term := termAtLocked_root H.leaderRoot he
  have hfollower : follower.termAtLocked (leader.nextIndex.getD peer 0 - 1) = f.term :=
    termAtLocked_root H.followerRoot hf
  have hlt := (List.getElem?_eq_some_iff.mp hf).1
  rw [if_neg (by simp only [requestAt]; omega),
    if_neg (by simp only [requestAt, hleader, hfollower, hfe, ne_eq, not_true_eq_false, not_false_eq_true])] at ha
  obtain ⟨p, hp, hnext⟩ := replicateReply_accepted H.state H.matchIndex peer
    (requestAt leader (leader.nextIndex.getD peer 0)) ⟨leader.term, true, 0, 0⟩ le_rfl rfl
  have htake := H.followerLog.agree H.leaderLog hf he hfe
  have hprev : leader.nextIndex.getD peer 0 - 1 + 1 = leader.nextIndex.getD peer 0 := by omega
  rw [hprev] at htake
  refine ⟨_, by rw [H.round_eq ha]; exact congrArg (Option.map _) hp, rfl, hnext, ?_, fun hne => ?_⟩
  · simp only [requestAt, hprev, Raft.persist]
    exact prefix_merge H.followerLog H.leaderLog htake
  · have hmore : ¬ leader.log.length ≤ leader.nextIndex.getD peer 0 := fun hle => hne (List.drop_of_length_le hle)
    simp only [requestAt, hprev, Raft.persist]
    rw [merge_coherent H.followerLog H.leaderLog htake, if_neg hmore]

/-- A round is refused and the leader goes back, or it is accepted and the follower's log starts with the leader's. -/
theorem Backtracks.step (H : Backtracks C peer leader follower) : ∃ r, round peer leader.term leader follower = some r ∧
    (r.reply.success = false ∧ WentBack C peer leader r ∨
      r.reply.success = true ∧ r.next ≠ .retry ∧ leader.log <+: r.follower.log ∧
        (r.args.entries ≠ [] → r.follower.log = leader.log)) := by
  obtain ⟨hge, hle⟩ := H.next
  by_cases hshort : follower.log.length ≤ leader.nextIndex.getD peer 0 - 1
  · obtain ⟨r, hr, hback⟩ := H.short hshort
    exact ⟨r, hr, .inl hback⟩
  obtain ⟨e, he⟩ : ∃ e, leader.log[leader.nextIndex.getD peer 0 - 1]? = some e :=
    ⟨_, List.getElem?_eq_getElem (by omega)⟩
  obtain ⟨f, hf⟩ : ∃ f, follower.log[leader.nextIndex.getD peer 0 - 1]? = some f :=
    ⟨_, List.getElem?_eq_getElem (not_le.mp hshort)⟩
  by_cases hfe : f.term = e.term
  · obtain ⟨r, hr, haccepted⟩ := H.accepted he hf hfe
    exact ⟨r, hr, .inr haccepted⟩
  · obtain ⟨r, hr, hback⟩ := H.mismatch he hf hfe
    exact ⟨r, hr, .inl hback⟩

theorem Backtracks.replicateTo (H : Backtracks C peer leader follower) {fuel : ℕ}
    (hfuel : leader.nextIndex.getD peer 0 ≤ fuel) :
    ∃ r, replicateTo peer leader.term fuel leader follower = some r ∧ r.reply.success = true ∧
      leader.log <+: r.follower.log ∧ (r.args.entries ≠ [] → r.follower.log = leader.log) := by
  induction fuel generalizing leader follower with
  | zero => exact absurd H.next.1 (by omega)
  | succ fuel ih =>
    obtain ⟨r, hr, ⟨-, hback⟩ | ⟨hs, hnext, hlog⟩⟩ := H.step
    · obtain ⟨r', hr', hlast⟩ := ih hback.again (by have := hback.back.2; omega)
      rw [hback.log] at hlast
      rw [hback.term] at hr'
      refine ⟨r', ?_, hlast⟩
      simp only [Raft.replicateTo, hr, Option.bind_some, hback.retry, if_true, hr']
    · refine ⟨r, ?_, hs, hlog⟩
      simp only [Raft.replicateTo, hr, Option.bind_some, hnext, if_false]

/-- a refused round of the loop -/
def Refused (peer : Fin n) (leaderTerm : ℕ) (p q : Raft n Cmd × Raft n Cmd) : Prop :=
  ∃ r, round peer leaderTerm p.1 p.2 = some r ∧ r.reply.success = false ∧ q = (r.leader, r.follower)

theorem Backtracks.refused (H : Backtracks C peer leader follower) {p : Raft n Cmd × Raft n Cmd}
    (hp : Relation.ReflTransGen (Refused peer leader.term) (leader, follower) p) :
    Backtracks C peer p.1 p.2 ∧ p.1.term = leader.term := by
  induction hp with
  | refl => exact ⟨H, rfl⟩
  | tail _ hq ih =>
    obtain ⟨hp, hterm⟩ := ih
    obtain ⟨r, hr, hf, rfl⟩ := hq
    obtain ⟨r', hr', ⟨-, hback⟩ | ⟨hs, -⟩⟩ := hp.step
    · rw [hterm, hr] at hr'
      cases hr'
      exact ⟨hback.again, hback.term.trans hterm⟩
    · rw [hterm, hr] at hr'
      cases hr'
      rw [hf] at hs
      cases hs

/-- Every round of the loop goes through, and a refused one makes `nextIndex` smaller, but not smaller than 1. After at
most `nextIndex` rounds a request is accepted; then the leader's log is a prefix of the follower's, and equal to it if
that request carried entries. -/
theorem fast_backtracking {C : ℕ → List (LogEntry Cmd)} {peer : Fin n} {leader follower : Raft n Cmd}
    (H : Backtracks C peer leader follower) :
    (∀ p, Relation.ReflTransGen (Refused peer leader.term) (leader, follower) p →
      ∃ r, round peer leader.term p.1 p.2 = some r ∧ (r.reply.success = false →
        r.next = .retry ∧ 1 ≤ r.leader.nextIndex.getD peer 0 ∧
          r.leader.nextIndex.getD peer 0 < p.1.nextIndex.getD peer 0)) ∧
      ∃ r, replicateTo peer leader.term (leader.nextIndex.getD peer 0) leader follower = some r ∧
        r.reply.success = true ∧
        leader.log <+: r.follower.log ∧ (r.args.entries ≠ [] → r.follower.log = leader.log) := by
  refine ⟨fun p hp => ?_, H.replicateTo le_rfl⟩
  obtain ⟨hp, hterm⟩ := H.refused hp
  obtain ⟨r, hr, ⟨-, hback⟩ | ⟨hs, -⟩⟩ := hp.step
  · exact ⟨r, hterm ▸ hr, fun _ => ⟨hback.retry, hback.back⟩⟩
  · exact ⟨r, hterm ▸ hr, fun hf => absurd (hs.symm.trans hf) (by decide)⟩

/-- the logs of three terms: term 2 went its own way after index 1 -/
def family : ℕ → List (LogEntry ℕ)
  | 1 => [sentinel, ⟨1, some 7⟩, ⟨1, some 8⟩]
  | 2 => [sentinel, ⟨1, some 7⟩, ⟨2, some 5⟩, ⟨2, some 6⟩]
  | 3 => [sentinel, ⟨1, some 7⟩, ⟨1, some 8⟩, ⟨3, some 9⟩]
  | _ => [sentinel]

def leaderOfThree : Raft 3 ℕ :=
  { Raft.initial 0 [] with
    state := .leader, term := 3, log := family 3, nextIndex := [4, 4, 4], matchIndex := [3, 0, 0] }

def followerOfTwo : Raft 3 ℕ := { Raft.initial 1 [] with term := 2, log := family 2 }

theorem family_backtracks : Backtracks family 1 leaderOfThree followerOfTwo where
  state := rfl
  term := by decide
  nextIndex := rfl
  matchIndex := rfl
  next := by decide
  leaderRoot := rfl
  followerRoot := rfl
  leaderLog := by
    rintro (_ | _ | _ | _ | i) e he <;> cases he <;> decide
  followerLog := by
    rintro (_ | _ | _ | _ | i) e he <;> cases he <;> decide

/-- the first round is refused with term 2, of which the leader has no entry; the second is accepted -/
theorem fast_backtracking_family :
    (∀ p, Relation.ReflTransGen (Refused 1 3) (leaderOfThree, followerOfTwo) p →
      ∃ r, round 1 3 p.1 p.2 = some r ∧ (r.reply.success = false →
        r.next = .retry ∧ 1 ≤ r.leader.nextIndex.getD 1 0 ∧ r.leader.nextIndex.getD 1 0 < p.1.nextIndex.getD 1 0)) ∧
      ∃ r, replicateTo 1 3 4 leaderOfThree followerOfTwo = some r ∧ r.reply.success = true ∧
        family 3 <+: r.follower.log ∧ (r.args.entries ≠ [] → r.follower.log = family 3) :=
  fast_backtracking family_backtracks

end CS240.Raft
