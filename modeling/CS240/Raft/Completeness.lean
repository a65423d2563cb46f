/-
Leader completeness for the abstract protocol, in histories with one leader a term (`OneLeader`) in which no accepted
request cut a log without a conflict (`NoCut`) and every leader has a majority of its term behind it (`Backed`).

What a node acknowledged stays in its log unless a leader of a later term had not got it (`Retains`). A voter therefore
still has, when it votes, what it acknowledged before, unless a leader in between lacked it (`Remembers`). This is what
`Lib.Elections` asks for, and `Lib.Elections.complete` gives leader completeness.

- `Reach.retains`: acknowledged prefixes stay.
- `Reach.elections`: the elections of a history are those of `Lib.Elections`.
-/
import CS240.Raft.Matching

namespace CS240.Raft

open Lib

section Completeness

variable {ι Cmd : Type}

/-- a leader of term `t` started with log `l` -/
def Elected (h : List (Event ι Cmd)) (t : ℕ) (l : List (LogEntry Cmd)) : Prop := ∃ p, .becameLeader p t l ∈ h

/-- `v` acknowledged the log `l` in term `t`: as a follower, or as the leader when it counted itself -/
def Acked (h : List (Event ι Cmd)) (v : ι) (t : ℕ) (l : List (LogEntry Cmd)) : Prop :=
  (∃ i cut, .accepted v t i cut ∈ h ∧ i < (termLog h t).length ∧ l = (termLog h t).take (i + 1)) ∨
    ∃ N, .committed v t N l ∈ h

theorem Elected.mono {h h' : List (Event ι Cmd)} (hs : h ⊆ h') (t : ℕ) (l : List (LogEntry Cmd))
    (he : Elected h t l) : Elected h' t l := he.imp fun _ hp => hs hp

theorem Acked.mono {h h' : List (Event ι Cmd)} (hs : h ⊆ h') (hT : ∀ t, termLog h t <+: termLog h' t) {v : ι} {t : ℕ}
    {l : List (LogEntry Cmd)} (ha : Acked h v t l) : Acked h' v t l := by
  rcases ha with ⟨i, cut, h1, h2, rfl⟩ | ⟨N, hN⟩
  · refine Or.inl ⟨i, cut, hs h1, h2.trans_le (hT t).length_le, ?_⟩
    rw [prefix_take_eq (hT t) (by omega)]
  · exact Or.inr ⟨N, hs hN⟩

/-! ## Retention -/

/-- every acknowledgement is of a prefix of the term's log, and is kept or lost by a later leader -/
structure Retains (C : ι → Core Cmd) (h : List (Event ι Cmd)) : Prop where
  accepted : ∀ v t i cut, .accepted v t i cut ∈ h → i < (termLog h t).length
  committed : ∀ p t N l, .committed p t N l ∈ h → l <+: termLog h t
  kept : ∀ v t l X, Acked h v t l → X <+: l → X <+: (C v).log ∨ LostBetween (Elected h) t ((C v).term + 1) X

variable {C : ι → Core Cmd} {h evs : List (Event ι Cmd)} {p : ι} {c' : Core Cmd}

theorem Retains.acked_prefix_log (hR : Retains C h) {v : ι} {t : ℕ} {l : List (LogEntry Cmd)} (ha : Acked h v t l) :
    l <+: termLog h t := by
  rcases ha with ⟨i, cut, -, -, rfl⟩ | ⟨N, hN⟩
  · exact List.take_prefix _ _
  · exact hR.committed v t N l hN

theorem Basic.acked_le (hI : Basic C h) {v : ι} {t : ℕ} {l : List (LogEntry Cmd)} (ha : Acked h v t l) :
    t ≤ (C v).term := by
  rcases ha with ⟨i, cut, h1, -, -⟩ | ⟨N, hN⟩
  · exact hI.events _ h1
  · exact (hI.events _ hN).1

variable [Fintype ι]

/-- what an accepting move did -/
theorem Move.of_accepted {c : Core Cmd} (hm : Move p h c c' evs) {v : ι} {t i : ℕ} {cut : Bool}
    (hv : .accepted v t i cut ∈ evs) :
    v = p ∧ t = c.term ∧ c'.term = c.term ∧ ∃ L full k prev a b, .sent L c.term full k ∈ h ∧ c.log[prev]? = some a ∧
      full[prev]? = some b ∧ a.term = b.term ∧ i = full.length - 1 ∧
      cut = decide (Cuts LogEntry.term c.log (prev + 1) (full.drop (prev + 1))) ∧
      c'.log = merge LogEntry.term c.log (prev + 1) (full.drop (prev + 1)) := by
  cases hm with
  | note e he => simp only [List.mem_singleton] at hv; subst hv; simp [Event.Note] at he
  | accept L full k prev a b hr hs ha hb hab =>
    simp only [List.mem_singleton, Event.accepted.injEq] at hv
    obtain ⟨rfl, rfl, rfl, rfl⟩ := hv
    exact ⟨rfl, rfl, rfl, L, full, k, prev, a, b, hs, ha, hb, hab, rfl, rfl, rfl⟩
  | _ => simp at hv

/-- what a committing move did -/
theorem Move.of_committed {c : Core Cmd} (hm : Move p h c c' evs) {v : ι} {t N : ℕ} {l : List (LogEntry Cmd)}
    (hv : .committed v t N l ∈ evs) :
    v = p ∧ t = c.term ∧ l = c.log ∧ c.role = .leader ∧ c' = { c with commit := N } ∧
      ∃ Q : Finset ι, Majority Q ∧ ∀ v ∈ Q, v = p ∨ ∃ i cut, .accepted v c.term i cut ∈ h ∧ N ≤ i := by
  cases hm with
  | note e he => simp only [List.mem_singleton] at hv; subst hv; simp [Event.Note] at he
  | commit N e Q hr hlt he het hQ hack =>
    simp only [List.mem_singleton, Event.committed.injEq] at hv
    obtain ⟨rfl, rfl, rfl, rfl⟩ := hv
    exact ⟨rfl, rfl, rfl, hr, rfl, Q, hQ, hack⟩
  | _ => simp at hv

/-- a new acknowledgement is of a prefix of the log the node now has, in its current term -/
theorem Move.acked (hM : Matching C h) (hI : Basic C h) (hR : Retains C h) (hm : Move p h (C p) c' evs)
    (ho : OneLeader (h ++ evs)) {v : ι} {t : ℕ} {l : List (LogEntry Cmd)} (ha : Acked (h ++ evs) v t l) :
    Acked h v t l ∨ v = p ∧ t = c'.term ∧ l <+: c'.log := by
  have hT := hM.termLog_mono hI hm ho
  rcases ha with ⟨i, cut, hi, hlt, rfl⟩ | ⟨N, hN⟩
  · rcases List.mem_append.1 hi with hi | hi
    · have hlt' := hR.accepted v t i cut hi
      exact Or.inl (Or.inl ⟨i, cut, hi, hlt', prefix_take_eq (hT t) (by omega)⟩)
    · obtain ⟨rfl, rfl, hterm, L, full, k, prev, a, b, hs, ha, hb, hab, rfl, -, hlog⟩ := hm.of_accepted hi
      have hpos : 0 < full.length := by have := (List.getElem?_eq_some_iff.1 hb).1; omega
      refine Or.inr ⟨rfl, hterm.symm, ?_⟩
      rw [prefix_take_eq ((hM.sent L _ full k hs).trans (hT _)) (by omega), List.take_of_length_le (by omega), hlog]
      exact prefix_merge (hM.node v) (hM.request hs) (hM.agree_request hs ha hb hab)
  · rcases List.mem_append.1 hN with hN | hN
    · exact Or.inl (Or.inr ⟨N, hN⟩)
    · obtain ⟨rfl, rfl, rfl, -, rfl, -⟩ := hm.of_committed hN
      exact Or.inr ⟨rfl, rfl, List.prefix_refl _⟩

/-- a move keeps an acknowledged prefix, unless it takes over the log of a later leader without it -/
theorem Move.keeps (hM : Matching C h) (hI : Basic C h) (hR : Retains C h) (hm : Move p h (C p) c' evs)
    (hn : NoCut (h ++ evs)) {t : ℕ} {l X : List (LogEntry Cmd)} (ha : Acked h p t l) (hX : X <+: l)
    (hXlog : X <+: (C p).log) : X <+: c'.log ∨ LostBetween (Elected h) t (c'.term + 1) X := by
  have hle := hI.acked_le ha
  have hXT := hX.trans (hR.acked_prefix_log ha)
  generalize hc : C p = c at hm
  cases hm with
  | start command hr => subst hc; exact Or.inl (hXlog.trans (List.prefix_append _ _))
  | accept L full k prev a b hr hs ha hb hab =>
    subst hc
    have hcut : ¬ Cuts LogEntry.term (C p).log (prev + 1) (full.drop (prev + 1)) := by
      simpa using hn p _ _ _ (List.mem_append_right _ (List.mem_singleton_self _))
    have hkeep : X <+: termLog h (C p).term →
        X <+: merge LogEntry.term (C p).log (prev + 1) (full.drop (prev + 1)) := fun hXT' =>
      merge_keeps (hM.node p) (hM.request hs) (hM.agree_request hs ha hb hab) hcut (hM.sent L _ full k hs) hXT' hXlog
    rcases Nat.eq_or_lt_of_le hle with heq | hlt
    · exact Or.inl (hkeep (heq ▸ hXT))
    · -- the sender is the leader of a later term
      obtain ⟨l₀, hl₀⟩ := (hI.events _ hs).1
      by_cases hXl : X <+: l₀
      · exact Or.inl (hkeep (hXl.trans (hM.elected L _ l₀ hl₀)))
      · exact Or.inr ⟨(C p).term, l₀, hlt, Nat.lt_succ_self _, ⟨L, hl₀⟩, hXl⟩
  | _ => subst hc; exact Or.inl hXlog

theorem Retains.move [DecidableEq ι] (hR : Retains C h) (hM : Matching C h) (hI : Basic C h)
    (hm : Move p h (C p) c' evs) (ho : OneLeader (h ++ evs)) (hn : NoCut (h ++ evs)) :
    Retains (Function.update C p c') (h ++ evs) := by
  have hT := hM.termLog_mono hI hm ho
  have hs := List.subset_append_left h evs
  refine ⟨fun v t i cut hv => ?_, fun v t N l hv => ?_, fun v t l X ha hX => ?_⟩
  · rcases List.mem_append.1 hv with hv | hv
    · exact (hR.accepted v t i cut hv).trans_le (hT t).length_le
    · obtain ⟨rfl, rfl, -, L, full, k, prev, a, b, hs, -, hb, -, rfl, -⟩ := hm.of_accepted hv
      have hlen := ((hM.sent L _ full k hs).trans (hT _)).length_le
      have := (List.getElem?_eq_some_iff.1 hb).1
      omega
  · rcases List.mem_append.1 hv with hv | hv
    · exact (hR.committed v t N l hv).trans (hT t)
    · obtain ⟨rfl, rfl, rfl, hr, -⟩ := hm.of_committed hv
      rw [hM.leader v hr]; exact hT _
  · rcases hm.acked hM hI hR ho ha with ha | ⟨rfl, rfl, hl⟩
    · -- an old acknowledgement
      have hlost : ∀ {u u' : ℕ}, u ≤ u' → LostBetween (Elected h) t u X → LostBetween (Elected (h ++ evs)) t u' X :=
        fun hu => LostBetween.mono (Elected.mono hs) hu
      have hgrow := (update_grows (C := C) hm.grows v).1
      rcases hR.kept v t l X ha hX with hXv | hXv
      · by_cases hvp : v = p
        · subst hvp
          rw [Function.update_self]
          exact (hm.keeps hM hI hR hn ha hX hXv).imp_right (hlost le_rfl)
        · rw [Function.update_of_ne hvp]; exact Or.inl hXv
      · exact Or.inr (hlost (by omega) hXv)
    · rw [Function.update_self]; exact Or.inl (hX.trans hl)

omit [Fintype ι] in
theorem Retains.restart [DecidableEq ι] (hR : Retains C h) (p : ι) :
    Retains (Function.update C p (C p).restart) h := by
  refine ⟨hR.accepted, hR.committed, ?_⟩
  exact (Function.forall_update_iff C fun v c => ∀ t l X, Acked h v t l → X <+: l →
    X <+: c.log ∨ LostBetween (Elected h) t (c.term + 1) X).2 ⟨hR.kept p, fun v _ => hR.kept v⟩

theorem Reach.retains [DecidableEq ι] (hr : Reach C h) (ho : OneLeader h) (hn : NoCut h) : Retains C h := by
  induction hr with
  | init => exact ⟨by simp, by simp, fun v t l X ha => by simp [Acked] at ha⟩
  | move hr hm ih =>
    exact (ih ho.of_append hn.of_append).move (hr.matching ho.of_append) hr.basic hm ho hn
  | restart p _ ih => exact (ih ho hn).restart p

/-! ## What voters remember -/

/-- `vl` has what `v` acknowledged before term `t`, unless a leader below term `u` lacked it -/
def Remembers (h : List (Event ι Cmd)) (v : ι) (t u : ℕ) (vl : List (LogEntry Cmd)) : Prop :=
  ∀ t₀ l X, t₀ < t → Acked h v t₀ l → X <+: l → X <+: vl ∨ LostBetween (Elected h) t₀ u X

/-- a majority in term `t` or later, whose members voted with logs that `cl` is up to date with -/
def Behind (C : ι → Core Cmd) (h : List (Event ι Cmd)) (t : ℕ) (cl : List (LogEntry Cmd)) : Prop :=
  ∃ Q : Finset ι, Majority Q ∧ ∀ v ∈ Q, t ≤ (C v).term ∧
    ∃ vl, Coherent LogEntry.term (termLog h) vl ∧ UpToDate LogEntry.term cl vl ∧ Remembers h v t t vl

/-- the votes of a history: the log of a voter of term `t` is coherent and has what it acknowledged -/
structure VotersOk (C : ι → Core Cmd) (h : List (Event ι Cmd)) : Prop where
  stood : ∀ v t vl, .candidacy v t vl ∈ h → Coherent LogEntry.term (termLog h) vl ∧ Remembers h v t (t + 1) vl
  granted : ∀ v t c vl, .voteGranted v t c vl ∈ h →
    Coherent LogEntry.term (termLog h) vl ∧ Remembers h v t (t + 1) vl
  backed : ∀ p t cl, .becameLeader p t cl ∈ h → Behind C h t cl

/-- a node in term `t` or later acknowledges nothing more for the terms before `t` -/
theorem Remembers.move (hM : Matching C h) (hI : Basic C h) (hR : Retains C h) (hm : Move p h (C p) c' evs)
    (ho : OneLeader (h ++ evs)) {v : ι} {t u : ℕ} {vl : List (LogEntry Cmd)} (hv : t ≤ (C v).term)
    (hr : Remembers h v t u vl) : Remembers (h ++ evs) v t u vl := by
  intro t₀ l X ht ha hX
  rcases hm.acked hM hI hR ho ha with ha | ⟨rfl, rfl, -⟩
  · exact (hr t₀ l X ht ha hX).imp_right (LostBetween.mono (Elected.mono (List.subset_append_left _ _)) le_rfl)
  · have := hm.grows.1; omega

theorem Behind.move [DecidableEq ι] (hM : Matching C h) (hI : Basic C h) (hR : Retains C h)
    (hm : Move p h (C p) c' evs) (ho : OneLeader (h ++ evs)) {t : ℕ} {cl : List (LogEntry Cmd)}
    (hb : Behind C h t cl) : Behind (Function.update C p c') (h ++ evs) t cl := by
  obtain ⟨Q, hQ, hvotes⟩ := hb
  refine ⟨Q, hQ, fun v hv => ?_⟩
  obtain ⟨hle, vl, hcoh, hup, hrem⟩ := hvotes v hv
  exact ⟨hle.trans (update_grows hm.grows v).1, vl, hcoh.mono (hM.termLog_mono hI hm ho), hup,
    hrem.move hM hI hR hm ho hle⟩

omit [Fintype ι] in
/-- a node that votes in its current term has, by retention, what it acknowledged -/
theorem Retains.remembers (hR : Retains C h) (v : ι) : Remembers h v (C v).term ((C v).term + 1) (C v).log :=
  fun t₀ l X _ ha hX => hR.kept v t₀ l X ha hX

/-- a vote of a move is for the node's new term, with the log it now has -/
theorem Move.of_vote {c : Core Cmd} (hm : Move p h c c' evs) {v : ι} {t : ℕ} {vl : List (LogEntry Cmd)}
    (hv : .candidacy v t vl ∈ evs ∨ ∃ q, .voteGranted v t q vl ∈ evs) : v = p ∧ t = c'.term ∧ vl = c'.log := by
  cases hm with
  | note e he => rcases hv with hv | ⟨q, hv⟩ <;> simp only [List.mem_singleton] at hv <;> subst hv <;>
      simp [Event.Note] at he
  | stand => simpa using hv
  | grant q ql hq hup => simpa using hv
  | _ => simp at hv

/-- a leader's majority, at the moment it is elected -/
theorem VotersOk.elect (hV : VotersOk C h) (hI : Basic C h) (hr : (C p).role = .candidate)
    (ho : OneLeader (h ++ [.becameLeader p (C p).term (C p).log]))
    (hb : Backed (h ++ [.becameLeader p (C p).term (C p).log])) : Behind C h (C p).term (C p).log := by
  have hstood := (hI.nodes p).candidate hr
  -- nobody was elected in this term yet, so a leader that lacks something is of an earlier one
  have hstrict : ∀ v vl, Remembers h v (C p).term ((C p).term + 1) vl → Remembers h v (C p).term (C p).term vl := by
    intro v vl hrem t₀ l X ht ha hX
    refine (hrem t₀ l X ht ha hX).imp_right ?_
    rintro ⟨t', l', h1, h2, ⟨q, hq⟩, h4⟩
    refine ⟨t', l', h1, lt_of_le_of_ne (by omega) fun heq => ?_, ⟨q, hq⟩, h4⟩
    subst heq
    have hqp : q = p := ho q p _ l' (C p).log (List.mem_append_left _ hq) (by simp)
    subst hqp
    exact (hI.events _ hq).2.1 rfl hr
  obtain ⟨Q, hQ, -, hvotes⟩ := hb h [] p (C p).term (C p).log rfl
  refine ⟨Q, hQ, fun v hv => ?_⟩
  rcases hvotes v hv with ⟨rfl, l, hl⟩ | ⟨vl, hvl⟩
  · obtain ⟨hcoh, hrem⟩ := hV.stood v _ _ hstood
    exact ⟨le_rfl, (C v).log, hcoh, UpToDate.refl LogEntry.term _, hstrict v _ hrem⟩
  · obtain ⟨hcoh, hrem⟩ := hV.granted v _ p vl hvl
    obtain ⟨hle, cl, hcl, hup⟩ := hI.events _ hvl
    rw [hI.candidacies p _ cl (C p).log hcl hstood] at hup
    exact ⟨hle, vl, hcoh, hup, hstrict v vl hrem⟩

theorem VotersOk.move [DecidableEq ι] (hV : VotersOk C h) (hR : Retains C h) (hM : Matching C h) (hI : Basic C h)
    (hm : Move p h (C p) c' evs) (ho : OneLeader (h ++ evs)) (hn : NoCut (h ++ evs)) (hb : Backed (h ++ evs)) :
    VotersOk (Function.update C p c') (h ++ evs) := by
  have hT := hM.termLog_mono hI hm ho
  have hnew : ∀ v t vl, v = p ∧ t = c'.term ∧ vl = c'.log →
      Coherent LogEntry.term (termLog (h ++ evs)) vl ∧ Remembers (h ++ evs) v t (t + 1) vl := by
    rintro v t vl ⟨rfl, rfl, rfl⟩
    have hcoh := (hM.move hI hm ho).node v
    have hrem := (hR.move hM hI hm ho hn).remembers v
    rw [Function.update_self] at hcoh hrem
    exact ⟨hcoh, hrem⟩
  refine ⟨fun v t vl hv => ?_, fun v t q vl hv => ?_, fun q t cl hq => ?_⟩
  · rcases List.mem_append.1 hv with hv | hv
    · obtain ⟨hcoh, hrem⟩ := hV.stood v t vl hv
      exact ⟨hcoh.mono hT, hrem.move hM hI hR hm ho (hI.events _ hv).1⟩
    · exact hnew v t vl (hm.of_vote (Or.inl hv))
  · rcases List.mem_append.1 hv with hv | hv
    · obtain ⟨hcoh, hrem⟩ := hV.granted v t q vl hv
      exact ⟨hcoh.mono hT, hrem.move hM hI hR hm ho (hI.events _ hv).1⟩
    · exact hnew v t vl (hm.of_vote (Or.inr ⟨q, hv⟩))
  · suffices hbehind : Behind C h t cl from hbehind.move hM hI hR hm ho
    rcases List.mem_append.1 hq with hq | hq
    · exact hV.backed q t cl hq
    · generalize hc : C p = c at hm
      cases hm with
      | note e he => simp only [List.mem_singleton] at hq; subst hq; simp [Event.Note] at he
      | elect hr =>
        simp only [List.mem_singleton, Event.becameLeader.injEq] at hq
        obtain ⟨rfl, rfl, rfl⟩ := hq
        subst hc
        exact hV.elect hI hr ho hb
      | _ => simp at hq

theorem VotersOk.restart [DecidableEq ι] (hV : VotersOk C h) (p : ι) :
    VotersOk (Function.update C p (C p).restart) h := by
  refine ⟨hV.stood, hV.granted, fun q t cl hq => ?_⟩
  obtain ⟨Q, hQ, hvotes⟩ := hV.backed q t cl hq
  refine ⟨Q, hQ, fun v hv => ?_⟩
  obtain ⟨hle, hrest⟩ := hvotes v hv
  exact ⟨hle.trans (update_grows (restart_grows (C p)) v).1, hrest⟩

theorem Reach.votersOk [DecidableEq ι] (hr : Reach C h) (ho : OneLeader h) (hn : NoCut h) (hb : Backed h) :
    VotersOk C h := by
  induction hr with
  | init => exact ⟨by simp, by simp, by simp⟩
  | move hr hm ih =>
    have ho' := ho.of_append
    have hn' := hn.of_append
    exact (ih ho' hn' hb.of_append).move (hr.retains ho' hn') (hr.matching ho') hr.basic hm ho hn hb
  | restart p _ ih => exact (ih ho hn hb).restart p

/-! ## Leader completeness -/

theorem Reach.elections [DecidableEq ι] (hr : Reach C h) (ho : OneLeader h) (hn : NoCut h) (hb : Backed h) :
    Elections LogEntry.term (termLog h) (Elected h) (Acked h) := by
  have hI := hr.basic
  have hM := hr.matching ho
  refine ⟨?_, ?_, hM.bound, ?_, ?_, ?_⟩
  · rintro t l ⟨p, hp⟩; exact hM.elected p t l hp
  · rintro t l ⟨p, hp⟩; exact (hI.events _ hp).2.2.2
  · intro t e he hpos
    obtain ⟨i, hi, rfl⟩ := List.getElem_of_mem he
    have hpre := hM.family t i _ (List.getElem?_eq_getElem hi)
    have hne : termLog h (termLog h t)[i].term ≠ [] := by
      intro hnil
      rw [hnil, List.prefix_nil, List.take_eq_nil_iff] at hpre
      rcases hpre with h0 | h0
      · omega
      · rw [h0] at hi; simp at hi
    obtain ⟨p, l, hl⟩ := hM.origin _ hpos hne
    exact ⟨l, p, hl⟩
  · rintro t l ⟨p, hp⟩; exact (hM.family t).sub (hM.elected p t l hp)
  · rintro t cl ⟨p, hp⟩
    obtain ⟨Q, hQ, hvotes⟩ := (hr.votersOk ho hn hb).backed p t cl hp
    refine ⟨Q, hQ, fun v hv => ?_⟩
    obtain ⟨-, vl, hcoh, hup, hrem⟩ := hvotes v hv
    exact ⟨vl, hcoh, hup, hrem⟩

end Completeness

end CS240.Raft
