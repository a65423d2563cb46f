/-
Log matching for the abstract protocol. In a history in which no term has two leaders, the log of a term only grows,
and every log in sight (a node's, a request's, a term's own) is coherent with the logs of the terms: a prefix that ends
in an entry of term `t` is a prefix of `termLog h t`.

- `termLog_mono`: the log of a term only grows along a history.
- `Reach.matching`: the invariant `Matching` holds in every history with one leader a term.
-/
import CS240.Raft.Protocol

namespace CS240.Raft

open Lib

section Matching

variable {ι Cmd : Type}

/-! ## The log of a term -/

/-- what an event does to the log of term `t` -/
def Event.extend (t : ℕ) (l : List (LogEntry Cmd)) : Event ι Cmd → List (LogEntry Cmd)
  | .becameLeader _ t' log => if t' = t then log else l
  | .started _ t' _ command => if t' = t then l ++ [⟨t', command⟩] else l
  | _ => l

/-- the log of term `t`: what its leader started with and has appended so far; term 0 is the sentinel's -/
def termLog (h : List (Event ι Cmd)) (t : ℕ) : List (LogEntry Cmd) :=
  h.foldl (Event.extend t) (if t = 0 then [sentinel] else [])

/-- an event that leaves the logs of all terms alone -/
def Event.Quiet (e : Event ι Cmd) : Prop := ∀ t l, e.extend t l = l

theorem Event.Note.quiet {e : Event ι Cmd} (he : e.Note) : e.Quiet := by
  cases e <;> simp [Event.Note] at he <;> exact fun t l => rfl

theorem termLog_quiet {h evs : List (Event ι Cmd)} (hq : ∀ e ∈ evs, e.Quiet) : termLog (h ++ evs) = termLog h := by
  funext t
  unfold termLog
  rw [List.foldl_append]
  generalize List.foldl (Event.extend t) _ h = l
  induction evs with
  | nil => rfl
  | cons e evs ih =>
    rw [List.foldl_cons, hq e List.mem_cons_self]
    exact ih fun e' he' => hq e' (List.mem_cons_of_mem _ he')

theorem termLog_elect (h : List (Event ι Cmd)) (p : ι) (t : ℕ) (l : List (LogEntry Cmd)) (t' : ℕ) :
    termLog (h ++ [.becameLeader p t l]) t' = if t = t' then l else termLog h t' := by
  simp [termLog, List.foldl_append, Event.extend]

theorem termLog_start (h : List (Event ι Cmd)) (p : ι) (t i : ℕ) (command : Option Cmd) (t' : ℕ) :
    termLog (h ++ [.started p t i command]) t' =
      if t = t' then termLog h t' ++ [⟨t, command⟩] else termLog h t' := by
  simp [termLog, List.foldl_append, Event.extend]

/-! ## The invariant -/

structure Matching (C : ι → Core Cmd) (h : List (Event ι Cmd)) : Prop where
  node : ∀ p, Coherent LogEntry.term (termLog h) (C p).log
  leader : ∀ p, (C p).role = .leader → (C p).log = termLog h (C p).term
  family : ∀ t, Coherent LogEntry.term (termLog h) (termLog h t)
  origin : ∀ t, 0 < t → termLog h t ≠ [] → ∃ p l, .becameLeader p t l ∈ h
  bound : ∀ t, ∀ e ∈ termLog h t, e.term ≤ t
  elected : ∀ p t l, .becameLeader p t l ∈ h → l <+: termLog h t
  sent : ∀ p t l k, .sent p t l k ∈ h → l <+: termLog h t

variable {C : ι → Core Cmd} {h evs : List (Event ι Cmd)} {p : ι} {c' : Core Cmd}

/-- a candidate's term has no log yet -/
theorem Matching.fresh (hM : Matching C h) (hI : Basic C h) (hr : (C p).role = .candidate)
    (ho : OneLeader (h ++ [.becameLeader p (C p).term (C p).log])) : termLog h (C p).term = [] := by
  by_contra hne
  have hstood := (hI.nodes p).candidate hr
  have hpos : 0 < (C p).term := (hI.events _ hstood).2 sentinel ((hI.nodes p).root.subset (by simp))
  obtain ⟨q, l, hq⟩ := hM.origin _ hpos hne
  have hqp : q = p := ho q p _ l (C p).log (List.mem_append_left _ hq) (by simp)
  subst hqp
  exact (hI.events _ hq).2.1 rfl hr

theorem Matching.elect_mono (hM : Matching C h) (hI : Basic C h) (hr : (C p).role = .candidate)
    (ho : OneLeader (h ++ [.becameLeader p (C p).term (C p).log])) (t : ℕ) :
    termLog h t <+: termLog (h ++ [.becameLeader p (C p).term (C p).log]) t := by
  rw [termLog_elect]
  split_ifs with ht
  · rw [← ht, hM.fresh hI hr ho]; exact List.nil_prefix
  · exact List.prefix_refl _

theorem start_mono (h : List (Event ι Cmd)) (p : ι) (t i : ℕ) (command : Option Cmd) (t' : ℕ) :
    termLog h t' <+: termLog (h ++ [.started p t i command]) t' := by
  rw [termLog_start]
  split_ifs
  · exact List.prefix_append _ _
  · exact List.prefix_refl _

variable [DecidableEq ι]

/-- The invariant after a move of `p`, from what the move changes: the logs of the terms grow, the log of a term that
did change is the log of an elected leader, and new events speak of the new logs. -/
theorem Matching.step (hM : Matching C h) (hmono : ∀ t, termLog h t <+: termLog (h ++ evs) t)
    (hnode : Coherent LogEntry.term (termLog (h ++ evs)) c'.log)
    (hleader : c'.role = .leader → c'.log = termLog (h ++ evs) c'.term)
    (hothers : ∀ q, q ≠ p → (C q).role = .leader → termLog (h ++ evs) (C q).term = termLog h (C q).term)
    (hfamily : ∀ t, termLog (h ++ evs) t = termLog h t ∨ Coherent LogEntry.term (termLog (h ++ evs))
      (termLog (h ++ evs) t) ∧ (∃ q l, .becameLeader q t l ∈ h ++ evs) ∧ ∀ e ∈ termLog (h ++ evs) t, e.term ≤ t)
    (helected : ∀ q t l, .becameLeader q t l ∈ evs → l <+: termLog (h ++ evs) t)
    (hsent : ∀ q t l k, .sent q t l k ∈ evs → l <+: termLog (h ++ evs) t) :
    Matching (Function.update C p c') (h ++ evs) where
  node := (Function.forall_update_iff C fun _ c => Coherent LogEntry.term (termLog (h ++ evs)) c.log).2
    ⟨hnode, fun q _ => (hM.node q).mono hmono⟩
  leader := by
    refine (Function.forall_update_iff C fun _ c => c.role = .leader → c.log = termLog (h ++ evs) c.term).2
      ⟨hleader, ?_⟩
    intro q hq hr
    rw [hothers q hq hr]
    exact hM.leader q hr
  family t := by
    rcases hfamily t with ht | ⟨ht, _⟩
    · rw [ht]; exact (hM.family t).mono hmono
    · exact ht
  origin t hpos hne := by
    rcases hfamily t with ht | ⟨_, ht, _⟩
    · rw [ht] at hne
      obtain ⟨q, l, hl⟩ := hM.origin t hpos hne
      exact ⟨q, l, List.mem_append_left _ hl⟩
    · exact ht
  bound t e he := by
    rcases hfamily t with ht | ⟨_, _, ht⟩
    · rw [ht] at he; exact hM.bound t e he
    · exact ht e he
  elected q t l hl := by
    rcases List.mem_append.1 hl with hl | hl
    · exact (hM.elected q t l hl).trans (hmono t)
    · exact helected q t l hl
  sent q t l k hl := by
    rcases List.mem_append.1 hl with hl | hl
    · exact (hM.sent q t l k hl).trans (hmono t)
    · exact hsent q t l k hl

theorem Matching.elect (hM : Matching C h) (hI : Basic C h) (hr : (C p).role = .candidate)
    (ho : OneLeader (h ++ [.becameLeader p (C p).term (C p).log])) :
    Matching (Function.update C p { C p with role := .leader }) (h ++ [.becameLeader p (C p).term (C p).log]) := by
  have hown : termLog (h ++ [.becameLeader p (C p).term (C p).log]) (C p).term = (C p).log := by
    rw [termLog_elect, if_pos rfl]
  have hother : ∀ t, (C p).term ≠ t → termLog (h ++ [.becameLeader p (C p).term (C p).log]) t = termLog h t :=
    fun t ht => by rw [termLog_elect, if_neg ht]
  have hmono := hM.elect_mono hI hr ho
  have hnode := (hM.node p).mono hmono
  refine hM.step hmono hnode (fun _ => hown.symm) (fun q hq hrq => hother _ fun heq => ?_) (fun t => ?_) ?_ (by simp)
  · -- another leader of the same term
    obtain ⟨l, hl⟩ := (hI.nodes q).leader hrq
    exact hq (ho q p _ l (C p).log (List.mem_append_left _ (heq ▸ hl)) (by simp))
  · by_cases ht : (C p).term = t
    · subst ht
      rw [hown]
      exact Or.inr ⟨hnode, ⟨p, (C p).log, by simp⟩, (hI.nodes p).terms⟩
    · exact Or.inl (hother t ht)
  · intro q t l hl
    simp only [List.mem_singleton, Event.becameLeader.injEq] at hl
    obtain ⟨rfl, rfl, rfl⟩ := hl
    rw [hown]

theorem Matching.start (hM : Matching C h) (hI : Basic C h) (hr : (C p).role = .leader) (command : Option Cmd)
    (ho : OneLeader h) :
    Matching (Function.update C p { C p with log := (C p).log ++ [⟨(C p).term, command⟩] })
      (h ++ [.started p (C p).term (C p).log.length command]) := by
  have hlog := hM.leader p hr
  have hown : termLog (h ++ [.started p (C p).term (C p).log.length command]) (C p).term =
      (C p).log ++ [⟨(C p).term, command⟩] := by rw [termLog_start, if_pos rfl, ← hlog]
  have hother : ∀ t, (C p).term ≠ t → termLog (h ++ [.started p (C p).term (C p).log.length command]) t = termLog h t :=
    fun t ht => by rw [termLog_start, if_neg ht]
  have hmono := start_mono h p (C p).term (C p).log.length command
  have hnode : Coherent LogEntry.term (termLog (h ++ [.started p (C p).term (C p).log.length command]))
      ((C p).log ++ [⟨(C p).term, command⟩]) := ((hM.node p).mono hmono).snoc (by rw [hown])
  obtain ⟨l₀, hl₀⟩ := (hI.nodes p).leader hr
  refine hM.step hmono hnode (fun _ => hown.symm) (fun q hq hrq => hother _ fun heq => ?_) (fun t => ?_) (by simp)
    (by simp)
  · obtain ⟨l, hl⟩ := (hI.nodes q).leader hrq
    exact hq (ho q p _ l l₀ (heq ▸ hl) hl₀)
  · by_cases ht : (C p).term = t
    · subst ht
      rw [hown]
      refine Or.inr ⟨hnode, ⟨p, l₀, List.mem_append_left _ hl₀⟩, fun e he => ?_⟩
      rcases List.mem_append.1 he with he | he
      · exact (hI.nodes p).terms e he
      · simp only [List.mem_singleton] at he; subst he; exact le_rfl
    · exact Or.inl (hother t ht)

/-- a move that leaves the logs of the terms alone -/
theorem Matching.quiet (hM : Matching C h) (hq : ∀ e ∈ evs, e.Quiet)
    (hnode : Coherent LogEntry.term (termLog h) c'.log)
    (hleader : c'.role = .leader → (C p).role = .leader ∧ c'.term = (C p).term ∧ c'.log = (C p).log)
    (hsent : ∀ q t l k, .sent q t l k ∈ evs → l <+: termLog h t) :
    Matching (Function.update C p c') (h ++ evs) := by
  have hT := termLog_quiet (h := h) hq
  refine hM.step (by simp [hT]) (by rwa [hT]) (fun hr => ?_) (by simp [hT]) (by simp [hT]) (fun q t l hl => ?_)
    (by rwa [hT])
  · obtain ⟨h1, h2, h3⟩ := hleader hr
    rw [hT, h2, h3]; exact hM.leader p h1
  · exact absurd (hq _ hl t (sentinel :: l)) (by simp [Event.extend])

/-! ## The invariant along a history -/

omit [DecidableEq ι] in
theorem Matching.request (hM : Matching C h) {L : ι} {t k : ℕ} {full : List (LogEntry Cmd)}
    (hs : .sent L t full k ∈ h) : Coherent LogEntry.term (termLog h) full := (hM.family t).sub (hM.sent L t full k hs)

omit [DecidableEq ι] in
/-- a request whose previous entry has the right term agrees with the follower's log up to that entry -/
theorem Matching.agree_request (hM : Matching C h) {L : ι} {t k prev : ℕ} {full : List (LogEntry Cmd)}
    {a b : LogEntry Cmd} (hs : .sent L t full k ∈ h) (ha : (C p).log[prev]? = some a) (hb : full[prev]? = some b)
    (hab : a.term = b.term) : (C p).log.take (prev + 1) = full.take (prev + 1) :=
  (hM.node p).agree (hM.request hs) ha hb hab

variable [Fintype ι]

omit [DecidableEq ι] in
/-- the log of a term only grows -/
theorem Matching.termLog_mono (hM : Matching C h) (hI : Basic C h) (hm : Move p h (C p) c' evs)
    (ho : OneLeader (h ++ evs)) (t : ℕ) : termLog h t <+: termLog (h ++ evs) t := by
  have hquiet : (∀ e ∈ evs, e.Quiet) → termLog h t <+: termLog (h ++ evs) t := fun hq => by rw [termLog_quiet hq]
  generalize hc : C p = c at hm
  cases hm with
  | note e he => exact hquiet (by simpa using he.quiet)
  | elect hr => subst hc; exact hM.elect_mono hI hr ho t
  | start command hr => exact start_mono _ _ _ _ _ _
  | _ => exact hquiet (by simp [Event.Quiet, Event.extend])

theorem Matching.move (hM : Matching C h) (hI : Basic C h) (hm : Move p h (C p) c' evs)
    (ho : OneLeader (h ++ evs)) : Matching (Function.update C p c') (h ++ evs) := by
  generalize hc : C p = c at hm
  cases hm with
  | adopt t ht => exact hM.quiet (by simp) (hc ▸ hM.node p) (fun hr => by cases hr) (by simp)
  | note e he =>
    refine hM.quiet (by simpa using he.quiet) (hc ▸ hM.node p) (fun hr => by rw [hc]; exact ⟨hr, rfl, rfl⟩) ?_
    intro q t l k hl
    simp only [List.mem_singleton] at hl; subst hl; simp [Event.Note] at he
  | stand => exact hM.quiet (by simp [Event.Quiet, Event.extend]) (hc ▸ hM.node p) (fun hr => by cases hr) (by simp)
  | grant q ql hq hup =>
    exact hM.quiet (by simp [Event.Quiet, Event.extend]) (hc ▸ hM.node p)
      (fun hr => by rw [hc]; exact ⟨hr, rfl, rfl⟩) (by simp)
  | elect hr => subst hc; exact hM.elect hI hr ho
  | start command hr => subst hc; exact hM.start hI hr command ho.of_append
  | send hr =>
    subst hc
    refine hM.quiet (by simp [Event.Quiet, Event.extend]) (hM.node p) (fun hr => ⟨hr, rfl, rfl⟩) ?_
    intro q t l k hl
    simp only [List.mem_singleton, Event.sent.injEq] at hl
    obtain ⟨rfl, rfl, rfl, rfl⟩ := hl
    rw [hM.leader q hr]
  | accept L full k prev a b hr hs ha hb hab =>
    subst hc
    refine hM.quiet (by simp [Event.Quiet, Event.extend]) ?_ (fun hr' => ?_) (by simp)
    · -- the merged log is the old one or the sender's
      have hmerge := merge_coherent (hM.node p) (hM.request hs) (hM.agree_request hs ha hb hab)
      simp only [hmerge]
      split_ifs
      · exact hM.node p
      · exact hM.request hs
    · rw [show (C p).role = .leader from hr'] at hr; cases hr
  | commit N e Q hr hlt he het hQ hack =>
    exact hM.quiet (by simp [Event.Quiet, Event.extend]) (hc ▸ hM.node p)
      (fun hr => by rw [hc]; exact ⟨hr, rfl, rfl⟩) (by simp)

omit [Fintype ι] in
theorem Matching.restart (hM : Matching C h) (p : ι) : Matching (Function.update C p (C p).restart) h := by
  have hq : Matching (Function.update C p (C p).restart) (h ++ []) :=
    hM.quiet (by simp) (hM.node p) (fun hr => by cases hr) (by simp)
  rwa [List.append_nil] at hq

theorem Reach.matching (hr : Reach C h) (ho : OneLeader h) : Matching C h := by
  induction hr with
  | init =>
    have hT : ∀ t, termLog ([] : List (Event ι Cmd)) t = if t = 0 then [sentinel] else [] := fun t => rfl
    have h0 : Coherent LogEntry.term (termLog ([] : List (Event ι Cmd))) [sentinel] := by
      intro i e hi
      have hi0 : i = 0 := by have := (List.getElem?_eq_some_iff.1 hi).1; simpa using this
      subst hi0
      simp only [List.getElem?_cons_zero, Option.some.injEq] at hi
      subst hi
      simp [hT, sentinel]
    refine ⟨fun p => h0, (fun p hr => by cases hr), fun t => ?_, fun t ht hne => ?_, fun t e he => ?_, by simp, by simp⟩
    · rw [hT]; split_ifs
      · exact h0
      · exact Coherent.nil
    · rw [hT, if_neg (by omega)] at hne; exact absurd rfl hne
    · rw [hT] at he
      split_ifs at he
      · simp only [List.mem_singleton] at he; subst he; exact Nat.zero_le _
      · simp at he
  | move hr hm ih => exact (ih ho.of_append).move hr.basic hm ho
  | restart p _ ih => exact (ih ho).restart p

end Matching

end CS240.Raft
