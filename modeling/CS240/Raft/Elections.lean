/-
Elections: majorities, and one leader per term.

`Tally` keeps account of the ballots: every vote request stands for one ballot, which travels with the request and its
reply and is spent when the vote is counted, so that no voter is counted twice.

- `elected_by_majority`: a leader has a majority of the votes of its own term, in every run in which no candidate counts
  a vote of an earlier election (`elected_by_stale_vote` is a run in which one does);
- `one_leader`: a term has one leader, in every run in which moreover no vote is forgotten (`two_leaders`).
-/
import CS240.Raft.Votes

namespace CS240.Raft

open Lib

variable {n : ℕ} {Cmd : Type} {rf rf' : Raft n Cmd} {p : Fin n} {h evs : List (Event (Fin n) Cmd)}
  {forgets stale : Prop}
  {s s' : Cluster n Cmd} {a : Action n Cmd} {ok : Cluster n Cmd → Action n Cmd → Prop} {R : Fin n → Raft n Cmd}
  {net net' out : List (Message n Cmd)}

/-! ## Ballots -/

/-- the ballot a vote request or its reply carries: candidate, term and voter -/
def Message.ballot (m : Message n Cmd) : Option (Fin n × ℕ × Fin n) :=
  match m.body with
  | .requestVote args => some (m.client, args.electionTerm, m.server)
  | .requestVoteReply term _ => some (m.client, term, m.server)
  | _ => none

/-- the ballot that is spent when a vote is counted -/
def Event.ballot : Event (Fin n) Cmd → Option (Fin n × ℕ × Fin n)
  | .voteCounted c t v => some (c, t, v)
  | _ => none

def ballots (net : List (Message n Cmd)) : List (Fin n × ℕ × Fin n) := net.filterMap Message.ballot

def spent (h : List (Event (Fin n) Cmd)) : List (Fin n × ℕ × Fin n) := h.filterMap Event.ballot

/-- the voters `c` has counted for term `t` -/
def voters (h : List (Event (Fin n) Cmd)) (c : Fin n) (t : ℕ) : List (Fin n) :=
  ((spent h).filter fun b => b.1 = c ∧ b.2.1 = t).map (·.2.2)

theorem spent_append : spent (h ++ evs) = spent h ++ spent evs := List.filterMap_append

theorem ballots_append : ballots (net ++ out) = ballots net ++ ballots out := List.filterMap_append

theorem voters_append (c : Fin n) (t : ℕ) : voters (h ++ evs) c t = voters h c t ++ voters evs c t := by
  simp [voters, spent_append]

/-- a message leaves the network with its ballot -/
theorem ballots_eraseIdx_perm {k : ℕ} {m : Message n Cmd} (hk : net[k]? = some m) :
    (ballots (net.eraseIdx k) ++ ballots [m]).Perm (ballots net) := by
  obtain ⟨hlt, rfl⟩ := List.getElem?_eq_some_iff.1 hk
  refine List.perm_append_comm.trans ?_
  rw [← ballots_append]
  exact (List.getElem_cons_eraseIdx_perm hlt).filterMap _

theorem mem_voters {c v : Fin n} {t : ℕ} : v ∈ voters h c t ↔ (c, t, v) ∈ spent h := by
  simp only [voters, List.mem_map, List.mem_filter, decide_eq_true_eq]
  constructor
  · rintro ⟨⟨c', t', v'⟩, ⟨hb, rfl, rfl⟩, rfl⟩
    exact hb
  · exact fun hb => ⟨_, ⟨hb, rfl, rfl⟩, rfl⟩

theorem spent_silent (hsil : ∀ e ∈ evs, e.Silent) : spent evs = [] := by
  refine List.filterMap_eq_nil_iff.2 fun e he => ?_
  have := hsil e he
  cases e <;> simp [Event.ballot, Event.Silent] at this ⊢

/-- no vote for `c` in term `t` has been counted -/
theorem voters_eq_nil {c : Fin n} {t : ℕ} (hnone : ∀ v, (c, t, v) ∉ spent h) : voters h c t = [] := by
  rw [List.eq_nil_iff_forall_not_mem]
  intro v hv
  exact hnone v (mem_voters.1 hv)

/-- a section spends only ballots of its own node -/
theorem Polls.spent_own (hp : Polls forgets stale rf rf' evs) {b : Fin n × ℕ × Fin n} (hb : b ∈ spent evs) :
    b.1 = rf.me := by
  have hsilent : (∀ e ∈ evs, e.Silent) → False := by
    intro hsil
    rw [spent_silent hsil] at hb
    cases hb
  cases hp with
  | keep _ _ _ hsil => exact (hsilent hsil).elim
  | newer _ _ hsil => exact (hsilent hsil).elim
  | forget => exact (hsilent (by simp)).elim
  | stand | win | grant => simp [spent, Event.ballot] at hb
  | count | won => simp [spent, Event.ballot] at hb; rw [hb]

/-- the account of the ballots: none is in two places, none is for a future term, the candidates' counters say how many
of their ballots are spent, and behind each of these is a vote -/
structure Tally (R : Fin n → Raft n Cmd) (net : List (Message n Cmd)) (h : List (Event (Fin n) Cmd)) : Prop where
  nodup : (ballots net ++ spent h).Nodup
  bound : ∀ b ∈ ballots net ++ spent h, b.2.1 ≤ (R b.1).term ∧ b.2.2 ≠ b.1
  count : ∀ p, (R p).state = .candidate → (R p).voteCount = 1 + (voters h p (R p).term).length
  voted : ∀ b ∈ spent h, Voted h b.2.2 b.2.1 b.1

/-- the count of the acting node -/
theorem Tally.count_polls (hT : Tally R net h) (hme : (R p).me = p) (hp : Polls forgets stale (R p) rf' evs)
    (hst : ¬ stale) (hc : rf'.state = .candidate) : rf'.voteCount = 1 + (voters (h ++ evs) p rf'.term).length := by
  have hsilent : (∀ e ∈ evs, e.Silent) → voters evs p (R p).term = [] := by
    intro hsil
    refine voters_eq_nil fun v => ?_
    rw [spent_silent hsil]
    exact List.not_mem_nil
  rw [voters_append]
  cases hp with
  | keep ht _ hcand hsil =>
    obtain ⟨hc', hcount⟩ := hcand hc
    rw [ht, hsilent hsil, List.append_nil, hcount]
    exact hT.count p hc'
  | newer _ hf => rw [hf] at hc; cases hc
  | forget _ _ hf => rw [hf] at hc; cases hc
  | stand =>
    -- no ballot of the new term is spent yet
    have hnone : voters h p ((R p).term + 1) = [] := by
      refine voters_eq_nil fun v hv => ?_
      have := (hT.bound _ (List.mem_append_right _ hv)).1
      simp only at this
      omega
    show 1 = 1 + (voters h p ((R p).term + 1) ++ _).length
    rw [hnone]
    simp [voters, spent, Event.ballot]
  | win => cases hc
  | grant _ _ _ hcand =>
    obtain ⟨ht, hc', hcount⟩ := hcand hc
    rw [ht, hcount, hT.count p hc']
    simp [voters, spent, Event.ballot]
  | count hterm =>
    have ht := (hterm hc).resolve_right hst
    have := hT.count p hc
    simp only [List.length_append]
    simp [voters, spent, Event.ballot, hme, ht] at this ⊢
    omega
  | won => cases hc

theorem nodup_of_subperm {α : Type} {l l' : List α} (hsub : l.Subperm l') (hnodup : l'.Nodup) : l.Nodup := by
  obtain ⟨l₁, hperm, hsubl⟩ := hsub
  exact hperm.nodup_iff.1 (hsubl.nodup hnodup)

/-- the account after a section: every ballot left or spent by it was in flight, or is new -/
theorem Tally.step (hT : Tally R net h) (hme : (R p).me = p) (hp : Polls forgets stale (R p) rf' evs) (hst : ¬ stale)
    (hle : (R p).term ≤ rf'.term) {new : List (Fin n × ℕ × Fin n)}
    (hsub : (ballots net' ++ spent evs).Subperm (ballots net ++ new)) (hnodup : new.Nodup)
    (hnew : ∀ b ∈ new, b.1 = p ∧ (R p).term < b.2.1 ∧ b.2.1 ≤ rf'.term ∧ b.2.2 ≠ p)
    (hvoted : ∀ b ∈ spent evs, Voted h b.2.2 b.2.1 b.1) : Tally (Function.update R p rf') net' (h ++ evs) := by
  have hterm : ∀ q, (R q).term ≤ (Function.update R p rf' q).term :=
    (Function.forall_update_iff R fun q rf => (R q).term ≤ rf.term).2 ⟨hle, fun _ _ => le_rfl⟩
  -- what was there before, and the new ballots
  have hall : (ballots net' ++ spent (h ++ evs)).Subperm ((ballots net ++ spent h) ++ new) := by
    rw [spent_append]
    have h1 : (ballots net' ++ (spent h ++ spent evs)).Perm ((ballots net' ++ spent evs) ++ spent h) := by
      rw [List.append_assoc]
      exact List.Perm.append_left _ List.perm_append_comm
    have h2 : ((ballots net ++ new) ++ spent h).Perm ((ballots net ++ spent h) ++ new) := by
      rw [List.append_assoc, List.append_assoc]
      exact List.Perm.append_left _ List.perm_append_comm
    exact h1.subperm.trans (((List.subperm_append_right _).2 hsub).trans h2.subperm)
  have hbound : ∀ b ∈ (ballots net ++ spent h) ++ new,
      b.2.1 ≤ (Function.update R p rf' b.1).term ∧ b.2.2 ≠ b.1 := by
    intro b hb
    rcases List.mem_append.1 hb with hb | hb
    · exact ⟨(hT.bound b hb).1.trans (hterm _), (hT.bound b hb).2⟩
    · obtain ⟨h1, -, h2, h3⟩ := hnew b hb
      rw [h1, Function.update_self]
      exact ⟨h2, h3⟩
  refine ⟨?_, fun b hb => hbound b (hall.subset hb), fun q hq => ?_, fun b hb => ?_⟩
  · have hdisj : (ballots net ++ spent h).Disjoint new := by
      intro b hb hb'
      obtain ⟨h1, h2, -⟩ := hnew b hb'
      have := (hT.bound b hb).1
      rw [h1] at this
      omega
    exact nodup_of_subperm hall (hT.nodup.append hnodup hdisj)
  · by_cases hqp : q = p
    · subst hqp
      rw [Function.update_self] at hq ⊢
      exact hT.count_polls hme hp hst hq
    · rw [Function.update_of_ne hqp] at hq ⊢
      have hnone : voters evs q (R q).term = [] := by
        refine voters_eq_nil fun v hv => ?_
        have := hp.spent_own hv
        rw [hme] at this
        exact hqp this
      rw [voters_append, hnone, List.append_nil]
      exact hT.count q hq
  · rw [spent_append] at hb
    rcases List.mem_append.1 hb with hb | hb
    · exact (hT.voted b hb).mono (List.subset_append_left _ _)
    · exact (hvoted b hb).mono (List.subset_append_left _ _)

/-- what a section a server runs by itself does to the ballots: an election hands out one to each peer -/
theorem Acts.new_ballots {sv : Server n Cmd} {task : Server.Task Cmd} (ha : Acts sv task rf' out evs) :
    spent evs = [] ∧
      (ballots out = [] ∨ (rf'.term = sv.rf.term + 1 ∧
        ballots out = (Server.others sv.rf.me).map fun q => (sv.rf.me, sv.rf.term + 1, q))) := by
  cases ha with
  | election _ he =>
    obtain ⟨rfl, rfl⟩ := startElection_some he
    refine ⟨by simp [spent, Event.ballot], Or.inr ⟨rfl, ?_⟩⟩
    simp only [ballots, Server.broadcast, List.filterMap_map]
    exact congrFun List.filterMap_eq_map _
  | beat =>
    refine ⟨by simp [spent], Or.inl ?_⟩
    simp [ballots, Server.broadcast, Message.ballot]
  | idle | win | send | apply | applySend | start | restart =>
    exact ⟨by simp [spent, Event.ballot], Or.inl (by simp [ballots, Message.ballot])⟩

/-- what the handling of a message does to the ballots: none is new, and the one spent was voted for -/
theorem Receives.move_ballot {m : Message n Cmd} (hr : Receives rf m rf' out evs) (hp : rf.me = m.target)
    (hme : rf'.me = rf.me) (hm : MsgOk h m) :
    (ballots out ++ spent evs).Sublist (ballots [m]) ∧ ∀ b ∈ spent evs, Voted h b.2.2 b.2.1 b.1 := by
  have hnone : ∀ (e : Event (Fin n) Cmd) (c : Prop) [Decidable c], e.ballot = none →
      spent (if c then [e] else []) = [] := by
    intro e c _ he
    split_ifs <;> simp [spent, he]
  cases hr with
  | requestVote hbody hv =>
    rw [hnone _ _ rfl]
    exact ⟨by simp [ballots, Message.ballot, hbody], by simp⟩
  | @requestVoteReply _ term reply won hbody hv =>
    rw [spent_append, hnone (.becameLeader _ _ _) _ rfl, List.append_nil]
    split_ifs with hcounted
    · -- the voter granted this vote to the node that counts it
      simp only [Message.target, Message.isRequest, hbody, Bool.false_eq_true, if_false] at hp
      simp only [MsgOk, hbody] at hm
      obtain ⟨-, l, hl⟩ := hm.2 hcounted.2
      rw [hme, hp]
      refine ⟨by simp [ballots, Message.ballot, spent, Event.ballot, hbody], fun b hb => ?_⟩
      simp only [spent, Event.ballot, List.filterMap_cons, List.filterMap_nil, List.mem_singleton] at hb
      subst hb
      exact Or.inr ⟨l, hl⟩
    · exact ⟨by simp [ballots, spent], by simp [spent]⟩
  | heartbeat hbody => exact ⟨by simp [ballots, Message.ballot, spent, hbody], by simp [spent]⟩
  | heartbeatReply hbody => exact ⟨by simp [ballots, spent], by simp [spent]⟩
  | appendEntries hbody =>
    rw [hnone _ _ rfl]
    exact ⟨by simp [ballots, Message.ballot, hbody], by simp⟩
  | appendEntriesReply hbody =>
    rw [hnone _ _ rfl]
    exact ⟨by simp [ballots], by simp⟩

/-! ## Majorities -/

/-- an event list without elections -/
theorem Backed.append (hB : Backed h) (hevs : ∀ p t l, .becameLeader p t l ∉ evs) : Backed (h ++ evs) := by
  intro h₁ h₂ p t l he
  rcases List.append_eq_append_iff.1 he with ⟨a, rfl, ha⟩ | ⟨a, rfl, ha⟩
  · exact absurd (by rw [ha]; simp) (hevs p t l)
  · cases a with
    | nil => exact absurd (by rw [← List.nil_append evs, ← ha]; simp) (hevs p t l)
    | cons e a =>
      cases ha
      exact hB h₁ a p t l rfl

/-- an election that is backed -/
theorem Backed.snoc (hB : Backed h) {t : ℕ} {l : List (LogEntry Cmd)}
    (hQ : ∃ Q : Finset (Fin n), Majority Q ∧ p ∈ Q ∧ ∀ v ∈ Q, Voted h v t p) :
    Backed (h ++ [.becameLeader p t l]) := by
  intro h₁ h₂ p' t' l' he
  rcases List.append_eq_append_iff.1 he with ⟨a, rfl, ha⟩ | ⟨a, rfl, ha⟩
  · cases a with
    | nil => cases ha; rwa [List.append_nil]
    | cons e a => simp at ha
  · cases a with
    | nil => cases ha; rwa [List.append_nil] at hQ
    | cons e a =>
      cases ha
      exact hB h₁ a _ _ _ rfl

/-- the votes a candidate has counted, and its own -/
theorem Tally.majority (hT : Tally R net h) {t : ℕ} (hown : Voted h p t p) (hmaj : n / 2 < 1 + (voters h p t).length) :
    ∃ Q : Finset (Fin n), Majority Q ∧ p ∈ Q ∧ ∀ v ∈ Q, Voted h v t p := by
  have hnodup : (voters h p t).Nodup := by
    have hspent : ((spent h).filter fun b => b.1 = p ∧ b.2.1 = t).Nodup :=
      ((List.nodup_append.1 hT.nodup).2.1).filter _
    refine hspent.map_on fun x hx y hy hxy => ?_
    simp only [List.mem_filter, decide_eq_true_eq] at hx hy
    exact Prod.ext (hx.2.1.trans hy.2.1.symm) (Prod.ext (hx.2.2.trans hy.2.2.symm) hxy)
  have hp : p ∉ voters h p t := by
    intro hv
    exact (hT.bound _ (List.mem_append_right _ (mem_voters.1 hv))).2 rfl
  refine ⟨insert p (voters h p t).toFinset, ?_, Finset.mem_insert_self _ _, fun v hv => ?_⟩
  · unfold Majority
    rw [Finset.card_insert_of_notMem (by simpa using hp), List.toFinset_card_of_nodup hnodup, Fintype.card_fin]
    omega
  · rcases Finset.mem_insert.1 hv with rfl | hv
    · exact hown
    · exact hT.voted _ (mem_voters.1 (List.mem_toFinset.1 hv))

/-- an election at the end of a section, with the account of the ballots after it -/
theorem Tally.backed {t : ℕ} {l : List (LogEntry Cmd)} (hT : Tally R net (h ++ evs ++ [.becameLeader p t l]))
    (hB : Backed h) (hevs : ∀ p t l, .becameLeader p t l ∉ evs) (hown : Voted (h ++ evs) p t p)
    (hmaj : n / 2 < 1 + (voters (h ++ evs) p t).length) : Backed (h ++ evs ++ [.becameLeader p t l]) := by
  have hback : ∀ v, Voted (h ++ evs ++ [.becameLeader p t l]) v t p → Voted (h ++ evs) v t p := by
    intro v hv
    rcases voted_append.1 hv with hv | hv
    · exact hv
    · simp [Voted] at hv
  have hlast : voters [.becameLeader p t l] p t = [] := by simp [voters, spent, Event.ballot]
  obtain ⟨Q, hQ, hpQ, hall⟩ := hT.majority (hown.mono (List.subset_append_left _ _))
    (by rwa [voters_append, hlast, List.append_nil])
  exact (hB.append hevs).snoc ⟨Q, hQ, hpQ, fun v hv => hback v (hall v hv)⟩

theorem Polls.backed (hp : Polls forgets stale (R p) rf' evs) (hme : (R p).me = p) (hB : Backed h) (hT : Tally R net h)
    (hT' : Tally (Function.update R p rf') net' (h ++ evs))
    (hown : (R p).state = .candidate → .candidacy p (R p).term (R p).log ∈ h) : Backed (h ++ evs) := by
  have hsilent : (∀ e ∈ evs, e.Silent) → Backed (h ++ evs) := fun hsil => hB.append fun p t l hl => hsil _ hl
  cases hp with
  | keep _ _ _ hsil => exact hsilent hsil
  | newer _ _ hsil => exact hsilent hsil
  | forget => exact hsilent (by simp)
  | stand | grant | count => exact hB.append (by simp)
  | win hn =>
    rw [hme] at hT' ⊢
    rw [← List.singleton_append, ← List.append_assoc] at hT' ⊢
    exact hT'.backed hB (by simp) (Or.inl ⟨rfl, (R p).log, by simp⟩) (by omega)
  | @won v hst hmaj =>
    rw [hme] at hT' ⊢
    rw [← List.singleton_append, ← List.append_assoc] at hT' ⊢
    have hcount := hT.count p hst
    have hone : voters ([.voteCounted p (R p).term v] : List (Event (Fin n) Cmd)) p (R p).term = [v] := by
      simp [voters, spent, Event.ballot]
    refine hT'.backed hB (by simp) (Or.inl ⟨rfl, (R p).log, List.mem_append_left _ (hown hst)⟩) ?_
    rw [voters_append, hone, List.length_append, List.length_singleton]
    omega

/-- fewer ballots in flight -/
theorem Tally.subperm (hT : Tally R net h) (hsub : (ballots net').Subperm (ballots net)) : Tally R net' h := by
  have hall : (ballots net' ++ spent h).Subperm (ballots net ++ spent h) := (List.subperm_append_right _).2 hsub
  exact ⟨nodup_of_subperm hall hT.nodup, fun b hb => hT.bound b (hall.subset hb), hT.count, hT.voted⟩

/-- the account after a section a server runs by itself -/
theorem Tally.acts {task : Server.Task Cmd} (hT : Tally s.rf s.net h) (hme : (s.rf p).me = p) (hsv : Saved (s.rf p))
    (ha : Acts (s.node p) task rf' out evs) : Tally (Function.update s.rf p rf') (s.net ++ out) (h ++ evs) := by
  obtain ⟨hspent, hout⟩ := ha.new_ballots
  have hsub : (ballots (s.net ++ out) ++ spent evs).Subperm (ballots s.net ++ ballots out) := by
    rw [ballots_append, hspent, List.append_nil]
  have hme' : (s.node p).rf.me = p := hme
  have hpolls : Polls False False (s.rf p) rf' evs := ha.polls hsv
  refine hT.step hme hpolls not_false (ha.follows hsv).term hsub ?_ ?_ (by simp [hspent])
  · rcases hout with hout | ⟨-, hout⟩ <;> rw [hout]
    · exact List.nodup_nil
    · exact ((List.nodup_finRange n).filter _).map fun x y hxy => by simpa using hxy
  · rcases hout with hout | ⟨hterm, hout⟩ <;> rw [hout]
    · simp
    · intro b hb
      simp only [Server.others, List.mem_map, List.mem_filter, decide_eq_true_eq] at hb
      obtain ⟨q, ⟨-, hq⟩, rfl⟩ := hb
      rw [hme'] at hq ⊢
      exact ⟨rfl, Nat.lt_succ_self _, hterm.ge, hq⟩

/-- the account after a message has been handled -/
theorem Tally.receives {m : Message n Cmd} {k : ℕ} (hT : Tally s.rf s.net h) (hme : (s.rf p).me = p)
    (hsv : Saved (s.rf p)) (hm : MsgOk h m) (hk : s.net[k]? = some m) (hp : p = m.target)
    (hst : ¬ m.countsStale (s.rf p)) (hr : Receives (s.rf p) m rf' out evs) :
    Tally (Function.update s.rf p rf') (s.net.eraseIdx k ++ out) (h ++ evs) := by
  have hf := hr.follows hsv
  obtain ⟨hsub, hvoted⟩ := hr.move_ballot (hme.trans hp) hf.me hm
  have hleft : (ballots (s.net.eraseIdx k ++ out) ++ spent evs).Subperm (ballots s.net ++ []) := by
    rw [ballots_append, List.append_assoc, List.append_nil]
    exact (hsub.append_left _).subperm.trans (ballots_eraseIdx_perm hk).subperm
  exact hT.step hme (hr.polls hsv) hst hf.term hleft List.nodup_nil (by simp) hvoted

/-- the account of the ballots, and the majorities behind the elections so far -/
theorem step_tally (hT : Tally s.rf s.net h) (hB : Backed h) (hI : Refines s.rf s.net h)
    (hS : ∀ p, (s.rf p).me = p ∧ Saved (s.rf p)) (hok : Avoids Message.countsStale s a)
    (hs : s.step a = some (s', evs)) : Tally s'.rf s'.net (h ++ evs) ∧ Backed (h ++ evs) := by
  have hown : ∀ p, (s.rf p).state = .candidate → .candidacy p (s.rf p).term (s.rf p).log ∈ h :=
    fun p => (hI.reach.basic.nodes p).candidate
  refine step_preserves (J := fun R net h => Tally R net h ∧ Backed h) hs ?_ ?_ ?_ ?_ ?_
  · intro k
    exact ⟨hT.subperm ((List.eraseIdx_sublist s.net k).filterMap Message.ballot).subperm, hB⟩
  · intro k m hk
    refine ⟨hT.subperm ?_, hB⟩
    rw [ballots_append]
    exact (ballots_eraseIdx_perm hk).subperm
  · intro net p t hT' ht
    have hcrash : Polls False False (s.rf p) _ [] := crash_polls (hS p).2 ht
    have hup : Tally (Function.update s.rf p _) net (h ++ []) :=
      hT'.1.step (hS p).1 hcrash not_false (crash_follows (hS p).2 t).term
        (by simpa [spent] using List.Subperm.refl _) List.nodup_nil (by simp) (by simp [spent])
    rw [List.append_nil] at hup
    exact ⟨hup, hB⟩
  · intro p task rf out evs _ ha
    have hpolls : Polls False False (s.rf p) rf evs := ha.polls (hS p).2
    have hT' := hT.acts (hS p).1 (hS p).2 ha
    exact ⟨hT', hpolls.backed (hS p).1 hB hT hT' (hown p)⟩
  · intro p m k rf out evs hrec hk hp hr
    have hT' := hT.receives (hS p).1 (hS p).2 (hI.net m (List.mem_of_getElem? hk)) hk hp (hok.not hrec) hr
    exact ⟨hT', (hr.polls (hS p).2).backed (hS p).1 hB hT hT' (hown p)⟩

theorem run_backed (hok : ∀ s a, ok s a → Avoids Message.countsStale s a) (hr : (machine n Cmd).Run ok s h) :
    Backed h := by
  have hT : Tally s.rf s.net h ∧ Backed h := by
    induction hr with
    | init =>
      refine ⟨⟨by simp [ballots, spent, machine, Cluster.init], by simp [ballots, spent, machine, Cluster.init], nofun,
        by simp [spent]⟩, ?_⟩
      intro h₁ h₂ p t l he
      simp at he
    | step hr ha hs ih => exact step_tally ih.1 ih.2 (run_refines hr) (run_saved hr) (hok _ _ ha) hs
  exact hT.2

/-- **A leader was elected by a majority of its own term**: in every run in which no candidate counts a vote of an
earlier election, whenever a node becomes leader more than half of the nodes, itself included, have voted for it in that
term. -/
theorem elected_by_majority (hr : (machine n Cmd).Run (Avoids Message.countsStale) s h)
    (h₁ h₂ : List (Event (Fin n) Cmd)) (c : Fin n) (t : ℕ) (l : List (LogEntry Cmd))
    (he : h = h₁ ++ .becameLeader c t l :: h₂) :
    ∃ Q : Finset (Fin n), n / 2 < Q.card ∧ c ∈ Q ∧ ∀ v ∈ Q, Voted h₁ v t c := by
  obtain ⟨Q, hQ, hc⟩ := run_backed (fun _ _ ha => ha) hr h₁ h₂ c t l he
  rw [Majority, Fintype.card_fin] at hQ
  exact ⟨Q, hQ, hc⟩

theorem elected_by_majority_firstElection : ∃ s h h₁ h₂, (machine 3 ℕ).Run (Avoids Message.countsStale) s h ∧
    h = h₁ ++ .becameLeader 0 1 [sentinel] :: h₂ ∧
    ∃ Q : Finset (Fin 3), 1 < Q.card ∧ 0 ∈ Q ∧ ∀ v ∈ Q, Voted h₁ v 1 0 := by
  obtain ⟨s, h, hr, ht⟩ := Machine.exists_run_of_exec
    (show ((machine 3 ℕ).exec (Avoids Message.countsStale) firstElection).any
      (fun r => decide (.becameLeader 0 1 [sentinel] ∈ r.2)) = true by decide +kernel)
  obtain ⟨h₁, h₂, he⟩ := List.append_of_mem (of_decide_eq_true ht)
  exact ⟨s, h, h₁, h₂, hr, he, elected_by_majority hr h₁ h₂ 0 1 _ he⟩

/-- Node 0 stands in term 1, and again in term 2 before the vote of node 1 for term 1 is back. It counts that vote, and
with the vote of node 2 for term 2 it has three of five. -/
def staleVote : List (Action 5 ℕ) :=
  [.run 0 .lifeRead, .run 0 .lifeElection, .deliver 0, .run 0 .lifeRead, .run 0 .lifeElection, .deliver 3, .deliver 4,
    .deliver 6]

/-- **A leader with two votes of five** in its own term -/
theorem elected_by_stale_vote : ∃ s h h₁, (machine 5 ℕ).Run Machine.free s h ∧
    h = h₁ ++ [.becameLeader 0 2 [sentinel]] ∧
    ∀ Q : Finset (Fin 5), (∀ v ∈ Q, Voted h₁ v 2 0) → Q.card ≤ 2 := by
  obtain ⟨s, h, hr, ht⟩ := Machine.exists_run_of_exec
    (show ((machine 5 ℕ).exec Machine.free staleVote).any
      (fun r => decide (r.2 = [.candidacy 0 1 [sentinel], .voteGranted 1 1 0 [sentinel], .candidacy 0 2 [sentinel],
        .voteCounted 0 1 1, .voteGranted 2 2 0 [sentinel], .voteCounted 0 2 2] ++
          [.becameLeader 0 2 [sentinel]])) = true
      by decide +kernel)
  refine ⟨s, h, _, hr, of_decide_eq_true ht, fun Q hQ => ?_⟩
  have hsub : Q ⊆ {0, 2} := by
    intro v hv
    have := hQ v hv
    simp [Voted] at this
    simpa [eq_comm] using this
  exact Finset.card_le_card hsub

/-! ## One leader per term -/

theorem oneLeader_of_backed (hB : Backed h) (hV : ∀ v t c c', Voted h v t c → Voted h v t c' → c = c') :
    OneLeader h := by
  intro p q t l l' hp hq
  obtain ⟨h₁, h₂, he⟩ := List.append_of_mem hp
  obtain ⟨h₁', h₂', he'⟩ := List.append_of_mem hq
  obtain ⟨Q, hQ, -, hvotes⟩ := hB h₁ h₂ p t l he
  obtain ⟨Q', hQ', -, hvotes'⟩ := hB h₁' h₂' q t l' he'
  obtain ⟨v, hv, hv'⟩ := hQ.inter hQ'
  refine hV v t p q ((hvotes v hv).mono ?_) ((hvotes' v hv').mono ?_)
  · rw [he]; exact List.subset_append_left _ _
  · rw [he']; exact List.subset_append_left _ _

theorem run_oneLeader (hok : ∀ s a, ok s a → Avoids Message.forgetsVote s a ∧ Avoids Message.countsStale s a)
    (hr : (machine n Cmd).Run ok s h) : OneLeader h :=
  oneLeader_of_backed (run_backed (fun s a ha => (hok s a ha).2) hr)
    fun v => (run_voteOk (fun s a ha => (hok s a ha).1) hr v).unique

/-- a leader was elected in its term -/
theorem run_leader (hr : (machine n Cmd).Run ok s h) (hl : (s.rf p).state = .leader) :
    ∃ l, .becameLeader p (s.rf p).term l ∈ h :=
  ((run_refines hr).reach.basic.nodes p).leader hl

/-- neither a forgotten vote nor a stale one -/
def FairElections (s : Cluster n Cmd) (a : Action n Cmd) : Prop :=
  Avoids Message.forgetsVote s a ∧ Avoids Message.countsStale s a

instance : DecidableRel (@FairElections n Cmd) := fun _ _ => inferInstanceAs (Decidable (_ ∧ _))

/-- an evaluated run with fair elections has one leader a term, whatever else its steps meet -/
theorem exists_run_of_fair [DecidableRel ok] {as : List (Action n Cmd)}
    {test : Cluster n Cmd × List (Event (Fin n) Cmd) → Bool}
    (he : ((machine n Cmd).exec (fun s a => FairElections s a ∧ ok s a) as).any test = true) :
    ∃ s h, (machine n Cmd).Run ok s h ∧ OneLeader h ∧ test (s, h) = true := by
  obtain ⟨s, h, hr, ht⟩ := Machine.exists_run_of_exec he
  exact ⟨s, h, hr.mono fun _ _ ha => ha.2, run_oneLeader (fun _ _ ha => ha.1) hr, ht⟩

/-- the same with the step after the run -/
theorem exists_step_of_fair [DecidableRel ok] {as : List (Action n Cmd)}
    {test : Cluster n Cmd × List (Event (Fin n) Cmd) → Cluster n Cmd × List (Event (Fin n) Cmd) → Bool}
    (he : ((machine n Cmd).exec (fun s a => FairElections s a ∧ ok s a) as).any (fun r =>
      decide (FairElections r.1 a ∧ ok r.1 a) && (r.1.step a).any (test r)) = true) :
    ∃ s h s' evs, (machine n Cmd).Run ok s h ∧ ok s a ∧ s.step a = some (s', evs) ∧ OneLeader (h ++ evs) ∧
      test (s, h) (s', evs) = true := by
  obtain ⟨s, h, s', evs, hr, ha, hs, ht⟩ := Machine.exists_step_of_exec (M := machine n Cmd) he
  exact ⟨s, h, s', evs, hr.mono fun _ _ ha => ha.2, ha.2, hs, run_oneLeader (fun _ _ ha => ha.1) (hr.step ha hs), ht⟩

/-- **Election safety**: in every run in which no node forgets a vote of its current term and no candidate counts a vote
of an earlier election, no two nodes are ever leader of the same term. -/
theorem one_leader {h' : List (Event (Fin n) Cmd)} (hr : (machine n Cmd).Run FairElections s h)
    (hp : (machine n Cmd).Path FairElections s h s' h') (p q : Fin n) (t : ℕ)
    (hl : (s.rf p).state = .leader ∧ (s.rf p).term = t) (hl' : (s'.rf q).state = .leader ∧ (s'.rf q).term = t) :
    p = q := by
  obtain ⟨l, hel⟩ := run_leader hr hl.1
  obtain ⟨l', hel'⟩ := run_leader (hr.trans hp) hl'.1
  rw [hl.2] at hel
  rw [hl'.2] at hel'
  exact run_oneLeader (fun _ _ ha => ha) (hr.trans hp) p q t l l' (hp.history.subset hel) hel'

theorem one_leader_firstElection : ∃ s h, (machine 3 ℕ).Run FairElections s h ∧ (s.rf 0).state = .leader ∧
    (s.rf 0).term = 1 ∧ ∀ q, (s.rf q).state = .leader ∧ (s.rf q).term = 1 → 0 = q := by
  obtain ⟨s, h, hr, ht⟩ := Machine.exists_run_of_exec
    (show ((machine 3 ℕ).exec FairElections firstElection).any
      (fun r => decide ((r.1.rf 0).state = .leader ∧ (r.1.rf 0).term = 1)) = true by decide +kernel)
  have hl := of_decide_eq_true ht
  exact ⟨s, h, hr, hl.1, hl.2, fun q hq => one_leader hr .refl 0 q 1 hl hq⟩

/-- **Two leaders of term 2** -/
theorem two_leaders : ∃ s h, (machine 3 ℕ).Run Machine.free s h ∧
    ((s.rf 1).state = .leader ∧ (s.rf 1).term = 2) ∧ (s.rf 2).state = .leader ∧ (s.rf 2).term = 2 := by
  obtain ⟨s, h, hr, ht⟩ := Machine.exists_run_of_exec
    (show ((machine 3 ℕ).exec Machine.free forgottenVote).any
      (fun r => decide (((r.1.rf 1).state = .leader ∧ (r.1.rf 1).term = 2) ∧
        (r.1.rf 2).state = .leader ∧ (r.1.rf 2).term = 2)) = true by decide +kernel)
  exact ⟨s, h, hr, of_decide_eq_true ht⟩

end CS240.Raft
