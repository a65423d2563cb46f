/-
Commitment in the abstract protocol, under the hypotheses of `Completeness`: what is committed stays committed, on every
node and in the log of every later leader.

- `Reach.complete`: leader completeness. What was committed in a term is in the log every leader of a later term
  starts with.
- `Certified h t l k`: the entries of `l` up to index `k` were committed in a term up to `t`. Every node's commit index
  and every commit index on the network is certified (`Reach.commitOk`).
- `Move.keepsCommitted`, `Moves.keepsCommitted`: no move of a running node changes its log up to its commit index, or
  lowers that index.
- `Reach.committed_agree`: two commits agree on every index both cover.
-/
import CS240.Raft.Completeness

namespace CS240.Raft

open Lib

section Commitment

variable {ι Cmd : Type} [Fintype ι] [DecidableEq ι] {C : ι → Core Cmd} {h evs : List (Event ι Cmd)} {p : ι}
  {c' : Core Cmd}

/-! ## Leader completeness -/

/-- a majority acknowledged what was committed -/
theorem Reach.commitsAcked (hr : Reach C h) (ho : OneLeader h) (hn : NoCut h) {q : ι} {t N : ℕ}
    {l : List (LogEntry Cmd)} (hc : .committed q t N l ∈ h) :
    ∃ Q : Finset ι, Majority Q ∧ ∀ v ∈ Q, ∃ full, Acked h v t full ∧ l.take (N + 1) <+: full := by
  induction hr with
  | init => simp at hc
  | restart p _ ih => exact ih ho hn hc
  | @move C h p c' evs hr hm ih =>
    have ho' := ho.of_append
    have hn' := hn.of_append
    have hM := hr.matching ho'
    have hR := hr.retains ho' hn'
    have hlift : ∀ v full, Acked h v t full → Acked (h ++ evs) v t full := fun v full =>
      Acked.mono (List.subset_append_left h evs) (hM.termLog_mono hr.basic hm ho)
    rcases List.mem_append.1 hc with hc' | hc'
    · obtain ⟨Q, hQ, hacks⟩ := ih ho' hn' hc'
      refine ⟨Q, hQ, fun v hv => ?_⟩
      obtain ⟨full, hfull, hpre⟩ := hacks v hv
      exact ⟨full, hlift v full hfull, hpre⟩
    · obtain ⟨rfl, rfl, rfl, hrole, -, Q, hQ, hacks⟩ := hm.of_committed hc'
      refine ⟨Q, hQ, fun v hv => ?_⟩
      rcases hacks v hv with rfl | ⟨i, cut, hi, hNi⟩
      · exact ⟨(C v).log, Or.inr ⟨N, hc⟩, List.take_prefix _ _⟩
      · -- the leader's log is the log of the term, and the follower accepted it up to `i`
        have hlt := hR.accepted v _ i cut hi
        refine ⟨_, hlift v _ (Or.inl ⟨i, cut, hi, hlt, rfl⟩), ?_⟩
        rw [hM.leader q hrole]
        exact List.take_prefix_take_left (by omega)

/-- **Leader completeness** of the protocol. -/
theorem Reach.complete (hr : Reach C h) (ho : OneLeader h) (hn : NoCut h) (hb : Backed h) {q : ι} {t N t' : ℕ}
    {l cl : List (LogEntry Cmd)} (hc : .committed q t N l ∈ h) (ht : t < t') (he : Elected h t' cl) :
    l.take (N + 1) <+: cl := by
  obtain ⟨-, -, e, hN, rfl⟩ := hr.basic.events _ hc
  obtain ⟨Q, hQ, hacks⟩ := hr.commitsAcked ho hn hc
  have hlast : (l.take (N + 1)).getLast? = some e := by
    have hlt := (List.getElem?_eq_some_iff.1 hN).1
    rw [List.getLast?_eq_getElem?, List.length_take, List.getElem?_take_of_lt (by omega)]
    rw [show min (N + 1) l.length - 1 = N by omega]
    exact hN
  exact (hr.elections ho hn hb).complete hlast hQ hacks t' cl ht he

/-- what was committed up to a term is in the log of that term, once it has a leader -/
theorem Reach.committed_prefix_log (hr : Reach C h) (ho : OneLeader h) (hn : NoCut h) (hb : Backed h) {q : ι}
    {t N t' : ℕ} {l cl : List (LogEntry Cmd)} (hc : .committed q t N l ∈ h) (ht : t ≤ t') (he : Elected h t' cl) :
    l.take (N + 1) <+: termLog h t' := by
  rcases Nat.eq_or_lt_of_le ht with rfl | hlt
  · have htake : l.take (N + 1) <+: l := List.take_prefix _ _
    exact htake.trans ((hr.retains ho hn).committed q t N l hc)
  · obtain ⟨p, hp⟩ := he
    exact (hr.complete ho hn hb hc hlt ⟨p, hp⟩).trans ((hr.matching ho).elected p t' cl hp)

/-- **Commits agree** wherever both reach. -/
theorem Reach.committed_agree (hr : Reach C h) (ho : OneLeader h) (hn : NoCut h) (hb : Backed h) {p q : ι}
    {t₁ t₂ N₁ N₂ i : ℕ} {l₁ l₂ : List (LogEntry Cmd)} (h₁ : .committed p t₁ N₁ l₁ ∈ h)
    (h₂ : .committed q t₂ N₂ l₂ ∈ h) (hi₁ : i ≤ N₁) (hi₂ : i ≤ N₂) : l₁[i]? = l₂[i]? := by
  -- both are in the log of the later of the two terms
  obtain ⟨cl, hcl⟩ : ∃ cl, Elected h (max t₁ t₂) cl := by
    rcases max_choice t₁ t₂ with hmax | hmax <;> rw [hmax]
    · obtain ⟨-, ⟨l, hl⟩, -⟩ := hr.basic.events _ h₁; exact ⟨l, p, hl⟩
    · obtain ⟨-, ⟨l, hl⟩, -⟩ := hr.basic.events _ h₂; exact ⟨l, q, hl⟩
  have hp₁ := hr.committed_prefix_log ho hn hb h₁ (le_max_left _ _) hcl
  have hp₂ := hr.committed_prefix_log ho hn hb h₂ (le_max_right _ _) hcl
  obtain ⟨-, -, e₁, he₁, -⟩ := hr.basic.events _ h₁
  obtain ⟨-, -, e₂, he₂, -⟩ := hr.basic.events _ h₂
  have hl₁ := (List.getElem?_eq_some_iff.1 he₁).1
  have hl₂ := (List.getElem?_eq_some_iff.1 he₂).1
  have hx₁ := prefix_getElem? hp₁ (i := i) (e := l₁[i])
    (by rw [List.getElem?_take_of_lt (by omega), List.getElem?_eq_getElem])
  have hx₂ := prefix_getElem? hp₂ (i := i) (e := l₂[i])
    (by rw [List.getElem?_take_of_lt (by omega), List.getElem?_eq_getElem])
  rw [List.getElem?_eq_getElem (show i < l₁.length by omega), List.getElem?_eq_getElem (show i < l₂.length by omega),
    ← hx₁, ← hx₂]

/-! ## Certified commit indices -/

omit [Fintype ι] [DecidableEq ι] in
/-- the entries of `l` up to index `k` were committed in a term up to `t` (index 0 is the sentinel) -/
def Certified (h : List (Event ι Cmd)) (t : ℕ) (l : List (LogEntry Cmd)) (k : ℕ) : Prop :=
  k < l.length ∧ (0 < k → ∃ q t₀ N l₀, .committed q t₀ N l₀ ∈ h ∧ t₀ ≤ t ∧ k ≤ N ∧ l.take (k + 1) <+: l₀)

structure CommitOk (C : ι → Core Cmd) (h : List (Event ι Cmd)) : Prop where
  node : ∀ p, Certified h (C p).term (C p).log (C p).commit
  sent : ∀ p t l k, .sent p t l k ∈ h → Certified h t l k

omit [Fintype ι] [DecidableEq ι] in
theorem Certified.mono {h' : List (Event ι Cmd)} (hs : h ⊆ h') {t t' k : ℕ} (ht : t ≤ t') {l : List (LogEntry Cmd)}
    (hc : Certified h t l k) : Certified h' t' l k := by
  refine ⟨hc.1, fun hk => ?_⟩
  obtain ⟨q, t₀, N, l₀, h1, h2, h3⟩ := hc.2 hk
  exact ⟨q, t₀, N, l₀, hs h1, h2.trans ht, h3⟩

omit [Fintype ι] [DecidableEq ι] in
/-- a log that starts with the certified part is certified as far -/
theorem Certified.extend {t k : ℕ} {l l' : List (LogEntry Cmd)} (hc : Certified h t l k) (hp : l.take (k + 1) <+: l') :
    Certified h t l' k := by
  have hlen : (l.take (k + 1)).length = k + 1 := by rw [List.length_take]; have := hc.1; omega
  refine ⟨by have := hp.length_le; omega, fun hk => ?_⟩
  obtain ⟨q, t₀, N, l₀, h1, h2, h3, h4⟩ := hc.2 hk
  refine ⟨q, t₀, N, l₀, h1, h2, h3, ?_⟩
  rw [prefix_take_eq hp (by omega), List.take_take, min_self]
  exact h4

/-- the certified part of a log is in the log of the term, once that has a leader -/
theorem Certified.in_termLog (hr : Reach C h) (ho : OneLeader h) (hn : NoCut h) (hb : Backed h) {t k : ℕ}
    {l cl : List (LogEntry Cmd)} (hc : Certified h t l k) (he : Elected h t cl) (hl : [sentinel] <+: l)
    (hroot : [sentinel] <+: termLog h t) : l.take (k + 1) <+: termLog h t := by
  rcases Nat.eq_zero_or_pos k with rfl | hk
  · rw [prefix_take_eq hl (by simp)]; exact hroot
  · obtain ⟨q, t₀, N, l₀, h1, h2, h3, h4⟩ := hc.2 hk
    have hN := hr.committed_prefix_log ho hn hb h1 h2 he
    refine List.IsPrefix.trans ?_ hN
    rw [List.prefix_take_iff]
    exact ⟨h4, by rw [List.length_take]; omega⟩

/-- an accepted request leaves the committed part of the follower's log alone -/
theorem CommitOk.merge_committed (hK : CommitOk C h) (hr : Reach C h) (ho : OneLeader h) (hn : NoCut h)
    (hb : Backed h) {L : ι} {full : List (LogEntry Cmd)} {k prev : ℕ} {a b : LogEntry Cmd}
    (hs : .sent L (C p).term full k ∈ h) (ha : (C p).log[prev]? = some a) (hb' : full[prev]? = some b)
    (hab : a.term = b.term) (hcut : ¬ Cuts LogEntry.term (C p).log (prev + 1) (full.drop (prev + 1))) :
    (C p).log.take ((C p).commit + 1) <+: merge LogEntry.term (C p).log (prev + 1) (full.drop (prev + 1)) := by
  have hM := hr.matching ho
  obtain ⟨⟨l₀, hl₀⟩, hroot, -⟩ := hr.basic.events _ hs
  have hfull := hM.sent L _ full k hs
  have hX := (hK.node p).in_termLog hr ho hn hb ⟨L, hl₀⟩ (hr.basic.nodes p).root (hroot.trans hfull)
  have htake : (C p).log.take ((C p).commit + 1) <+: (C p).log := List.take_prefix _ _
  exact merge_keeps (hM.node p) (hM.request hs) (hM.agree_request hs ha hb' hab) hcut hfull hX htake

/-- **A running node keeps what it committed**: no move lowers its commit index or changes its log up to it. -/
theorem Move.keepsCommitted (hK : CommitOk C h) (hr : Reach C h) (hm : Move p h (C p) c' evs) (ho : OneLeader h)
    (hn : NoCut (h ++ evs)) (hb : Backed h) :
    (C p).commit ≤ c'.commit ∧ (C p).log.take ((C p).commit + 1) <+: c'.log := by
  have hpre : (C p).log.take ((C p).commit + 1) <+: (C p).log := List.take_prefix _ _
  have hM := hr.matching ho
  generalize hc : C p = c at hm
  cases hm with
  | start command hl => subst hc; exact ⟨le_rfl, hpre.trans (List.prefix_append _ _)⟩
  | commit N e Q hl hlt => subst hc; exact ⟨hlt.le, hpre⟩
  | accept L full k prev a b hl hs ha hb' hab =>
    subst hc
    have hcut : ¬ Cuts LogEntry.term (C p).log (prev + 1) (full.drop (prev + 1)) := by
      simpa using hn p _ _ _ (List.mem_append_right _ (List.mem_singleton_self _))
    refine ⟨?_, hK.merge_committed hr ho hn.of_append hb hs ha hb' hab hcut⟩
    have hle := (prefix_merge (hM.node p) (hM.request hs) (hM.agree_request hs ha hb' hab)).length_le
    have hk := (hK.sent L _ full k hs).1
    simp only
    split_ifs with hlt
    · omega
    · exact le_rfl
  | _ => subst hc; exact ⟨le_rfl, hpre⟩

theorem CommitOk.move (hK : CommitOk C h) (hr : Reach C h) (hm : Move p h (C p) c' evs) (ho : OneLeader (h ++ evs))
    (hn : NoCut (h ++ evs)) (hb : Backed (h ++ evs)) : CommitOk (Function.update C p c') (h ++ evs) := by
  have hs := List.subset_append_left h evs
  have hkeep := (hm.keepsCommitted hK hr ho.of_append hn hb.of_append).2
  have hM := hr.matching ho.of_append
  -- the old commit index, in the new log and the new term
  have hold : Certified (h ++ evs) c'.term c'.log (C p).commit := ((hK.node p).extend hkeep).mono hs hm.grows.1
  refine ⟨fun q => ?_, fun q t l k hq => ?_⟩
  · by_cases hq : q = p
    · subst hq
      rw [Function.update_self]
      generalize hc : C q = c at hm hold
      cases hm with
      | commit N e Q hl hlt he =>
        refine ⟨(List.getElem?_eq_some_iff.1 he).1, fun _ => ⟨q, c.term, N, c.log, by simp, le_rfl, le_rfl, ?_⟩⟩
        exact List.take_prefix _ _
      | accept L full k prev a b hl hsent ha hb' hab =>
        subst hc
        have hpre := prefix_merge (hM.node q) (hM.request hsent) (hM.agree_request hsent ha hb' hab)
        have hk := hK.sent L _ full k hsent
        have hlen := hpre.length_le
        simp only at hold ⊢
        split_ifs with hlt
        · have htake := List.take_prefix (k + 1) full
          rw [min_eq_left (by have := hk.1; omega)]
          exact (hk.extend (htake.trans hpre)).mono hs le_rfl
        · exact hold
      | _ => exact hold
    · rw [Function.update_of_ne hq]; exact (hK.node q).mono hs le_rfl
  · rcases List.mem_append.1 hq with hq | hq
    · exact (hK.sent q t l k hq).mono hs le_rfl
    · generalize hc : C p = c at hm hold
      cases hm with
      | note e he => simp only [List.mem_singleton] at hq; subst hq; simp [Event.Note] at he
      | send hl =>
        simp only [List.mem_singleton, Event.sent.injEq] at hq
        obtain ⟨rfl, rfl, rfl, rfl⟩ := hq
        exact hold
      | _ => simp at hq

omit [Fintype ι] in
theorem CommitOk.restart (hK : CommitOk C h) (hI : Basic C h) (p : ι) :
    CommitOk (Function.update C p (C p).restart) h := by
  refine ⟨fun q => ?_, hK.sent⟩
  by_cases hq : q = p
  · subst hq
    rw [Function.update_self]
    exact ⟨(hI.nodes q).root.length_le, by simp [Core.restart]⟩
  · rw [Function.update_of_ne hq]; exact hK.node q

theorem Reach.commitOk (hr : Reach C h) (ho : OneLeader h) (hn : NoCut h) (hb : Backed h) : CommitOk C h := by
  induction hr with
  | init => exact ⟨fun p => ⟨by simp, by simp⟩, by simp⟩
  | move hr hm ih => exact (ih ho.of_append hn.of_append hb.of_append).move hr hm ho hn hb
  | restart p hr ih => exact (ih ho hn hb).restart hr.basic p

/-- the same for the moves of a section -/
theorem Moves.keepsCommitted (hr : Reach C h) (hm : Moves p h (C p) c' evs) (ho : OneLeader (h ++ evs))
    (hn : NoCut (h ++ evs)) (hb : Backed (h ++ evs)) :
    (C p).commit ≤ c'.commit ∧ (C p).log.take ((C p).commit + 1) <+: c'.log := by
  induction hm with
  | refl => exact ⟨le_rfl, List.take_prefix _ _⟩
  | @step c₁ c₂ evs evs' hm hmove ih =>
    rw [← List.append_assoc] at ho hn hb
    obtain ⟨hle, hpre⟩ := ih ho.of_append hn.of_append hb.of_append
    have hr₁ := hr.moves hm
    have hmove' : Move p (h ++ evs) (Function.update C p c₁ p) c₂ evs' := by rwa [Function.update_self]
    obtain ⟨hle', hpre'⟩ := hmove'.keepsCommitted (hr₁.commitOk ho.of_append hn.of_append hb.of_append) hr₁
      ho.of_append hn hb.of_append
    rw [Function.update_self] at hle' hpre'
    refine ⟨hle.trans hle', List.IsPrefix.trans ?_ hpre'⟩
    rw [List.prefix_take_iff]
    exact ⟨hpre, by rw [List.length_take]; omega⟩

end Commitment

end CS240.Raft
