/-
The protocol the nodes carry out, without its machinery: an abstract model in which a node is a role, a term, a log
and a commit index, and in which the network is the history itself. Whatever was sent may be received at any later
time, any number of times or never.

`Move p h c c' evs` is one protocol step of node `p` in history `h`; a section of the code is a few of them in a row.
The moves put no condition on elections: whether a leader has a majority behind it, and whether a term has only one
leader, are properties of histories (`Backed`, `OneLeader`) that the results ask for one by one. So is whether an
accepted request cut the follower's log without a conflict (`NoCut`).

`termLog h t` is the log of term `t`: the log its leader started with and what was started since.

- `Basic`: what holds in every history: terms of events, candidacies behind elections, elections behind requests, and
  terms of log entries.
-/
import CS240.Raft.Cluster

namespace CS240.Raft

open Lib

/-- a node of the abstract protocol -/
structure Core (Cmd : Type) where
  role : State
  term : ℕ
  log : List (LogEntry Cmd)
  commit : ℕ

section Protocol

variable {ι Cmd : Type}

/-- events that concern a node's bookkeeping only -/
def Event.Note : Event ι Cmd → Prop
  | .voteCounted _ _ _ | .applied _ _ => True
  | _ => False

inductive Move [Fintype ι] (p : ι) (h : List (Event ι Cmd)) : Core Cmd → Core Cmd → List (Event ι Cmd) → Prop
  /-- fall back to follower, in the same term or a newer one -/
  | adopt (c : Core Cmd) (t : ℕ) : c.term ≤ t → Move p h c { c with role := .follower, term := t } []
  | note (c : Core Cmd) (e : Event ι Cmd) : e.Note → Move p h c c [e]
  | stand (c : Core Cmd) :
      Move p h c { c with role := .candidate, term := c.term + 1 } [.candidacy p (c.term + 1) c.log]
  | grant (c : Core Cmd) (q : ι) (ql : List (LogEntry Cmd)) :
      .candidacy q c.term ql ∈ h → UpToDate LogEntry.term ql c.log → Move p h c c [.voteGranted p c.term q c.log]
  | elect (c : Core Cmd) :
      c.role = .candidate → Move p h c { c with role := .leader } [.becameLeader p c.term c.log]
  | start (c : Core Cmd) (command : Option Cmd) :
      c.role = .leader →
      Move p h c { c with log := c.log ++ [⟨c.term, command⟩] } [.started p c.term c.log.length command]
  | send (c : Core Cmd) : c.role = .leader → Move p h c c [.sent p c.term c.log c.commit]
  /-- merge a request built from the log `full` of the sender, from index `prev + 1` on -/
  | accept (c : Core Cmd) (L : ι) (full : List (LogEntry Cmd)) (k prev : ℕ) (a b : LogEntry Cmd) :
      c.role = .follower → .sent L c.term full k ∈ h → c.log[prev]? = some a → full[prev]? = some b →
      a.term = b.term →
      Move p h c
        { c with
          log := merge LogEntry.term c.log (prev + 1) (full.drop (prev + 1))
          commit :=
            if k > c.commit then
              min k ((merge LogEntry.term c.log (prev + 1) (full.drop (prev + 1))).length - 1)
            else c.commit }
        [.accepted p c.term (full.length - 1) (decide (Cuts LogEntry.term c.log (prev + 1) (full.drop (prev + 1))))]
  | commit (c : Core Cmd) (N : ℕ) (e : LogEntry Cmd) (Q : Finset ι) :
      c.role = .leader → c.commit < N → c.log[N]? = some e → e.term = c.term → Majority Q →
      (∀ v ∈ Q, v = p ∨ ∃ i cut, .accepted v c.term i cut ∈ h ∧ N ≤ i) →
      Move p h c { c with commit := N } [.committed p c.term N c.log]

/-- a node that comes back from a crash: it remembers its term and its log -/
def Core.restart (c : Core Cmd) : Core Cmd := { c with role := .follower, commit := 0 }

/-- what the protocol can get to -/
inductive Reach [Fintype ι] [DecidableEq ι] : (ι → Core Cmd) → List (Event ι Cmd) → Prop
  | init : Reach (fun _ => ⟨.follower, 0, [sentinel], 0⟩) []
  | move {C : ι → Core Cmd} {h : List (Event ι Cmd)} {p : ι} {c' : Core Cmd} {evs : List (Event ι Cmd)} :
      Reach C h → Move p h (C p) c' evs → Reach (Function.update C p c') (h ++ evs)
  | restart {C : ι → Core Cmd} {h : List (Event ι Cmd)} (p : ι) :
      Reach C h → Reach (Function.update C p (C p).restart) h

/-- a few moves of one node in a row -/
inductive Moves [Fintype ι] (p : ι) (h : List (Event ι Cmd)) (c : Core Cmd) : Core Cmd → List (Event ι Cmd) → Prop
  | refl : Moves p h c c []
  | step {c₁ c₂ : Core Cmd} {evs evs' : List (Event ι Cmd)} :
      Moves p h c c₁ evs → Move p (h ++ evs) c₁ c₂ evs' → Moves p h c c₂ (evs ++ evs')

theorem Move.moves [Fintype ι] {p : ι} {h evs : List (Event ι Cmd)} {c c' : Core Cmd} (hm : Move p h c c' evs) :
    Moves p h c c' evs :=
  .step .refl (by rwa [List.append_nil])

theorem Reach.moves [Fintype ι] [DecidableEq ι] {C : ι → Core Cmd} {h evs : List (Event ι Cmd)} {p : ι}
    {c' : Core Cmd} (hr : Reach C h) (hm : Moves p h (C p) c' evs) : Reach (Function.update C p c') (h ++ evs) := by
  induction hm with
  | refl => rwa [Function.update_eq_self, List.append_nil]
  | step _ hm ih =>
    have hstep := ih.move (p := p) (by rwa [Function.update_self])
    rwa [Function.update_idem, List.append_assoc] at hstep

/-! ## Histories -/

/-- no term has two leaders -/
def OneLeader (h : List (Event ι Cmd)) : Prop :=
  ∀ p q t l l', .becameLeader p t l ∈ h → .becameLeader q t l' ∈ h → p = q

/-- no accepted request dropped entries that it did not conflict with -/
def NoCut (h : List (Event ι Cmd)) : Prop := ∀ v t i cut, .accepted v t i cut ∈ h → cut = false

/-- `v` voted for `c` in term `t`: by its own candidacy, or by a granted request -/
def Voted (h : List (Event ι Cmd)) (v : ι) (t : ℕ) (c : ι) : Prop :=
  (v = c ∧ ∃ l, .candidacy v t l ∈ h) ∨ ∃ l, .voteGranted v t c l ∈ h

/-- every leader has, at the moment it takes over, a majority of voters of its own term behind it, itself included -/
def Backed [Fintype ι] (h : List (Event ι Cmd)) : Prop :=
  ∀ h₁ h₂ p t l, h = h₁ ++ .becameLeader p t l :: h₂ → ∃ Q : Finset ι, Majority Q ∧ p ∈ Q ∧ ∀ v ∈ Q, Voted h₁ v t p

theorem OneLeader.of_append {h evs : List (Event ι Cmd)} (ho : OneLeader (h ++ evs)) : OneLeader h :=
  fun p q t l l' hp hq => ho p q t l l' (List.mem_append_left _ hp) (List.mem_append_left _ hq)

theorem NoCut.of_append {h evs : List (Event ι Cmd)} (hn : NoCut (h ++ evs)) : NoCut h :=
  fun v t i cut hv => hn v t i cut (List.mem_append_left _ hv)

theorem Backed.of_append [Fintype ι] {h evs : List (Event ι Cmd)} (hb : Backed (h ++ evs)) : Backed h := by
  intro h₁ h₂ p t l he
  exact hb h₁ (h₂ ++ evs) p t l (by rw [he]; simp)

theorem Voted.mono {h h' : List (Event ι Cmd)} (hs : h ⊆ h') {v c : ι} {t : ℕ} (hv : Voted h v t c) :
    Voted h' v t c := by
  rcases hv with ⟨rfl, l, hl⟩ | ⟨l, hl⟩
  · exact Or.inl ⟨rfl, l, hs hl⟩
  · exact Or.inr ⟨l, hs hl⟩

/-! ## What a move does to one node -/

variable {p : ι} {h evs : List (Event ι Cmd)} {c c' : Core Cmd}

/-- terms do not decrease, and a node becomes a candidate only in a new term -/
def Grows (c c' : Core Cmd) : Prop := c.term ≤ c'.term ∧ (c'.term = c.term → c'.role = .candidate → c.role = .candidate)

theorem Grows.refl (c : Core Cmd) : Grows c c := ⟨le_rfl, fun _ h => h⟩

theorem Move.grows [Fintype ι] (hm : Move p h c c' evs) : Grows c c' := by
  cases hm with
  | adopt t ht => exact ⟨ht, fun _ hr => by cases hr⟩
  | stand => exact ⟨Nat.le_succ _, fun ht => absurd ht (Nat.succ_ne_self _)⟩
  | elect _ => exact ⟨le_rfl, fun _ hr => by cases hr⟩
  | note => exact Grows.refl c
  | grant => exact Grows.refl c
  | send => exact Grows.refl c
  | start => exact ⟨le_rfl, fun _ hr => hr⟩
  | accept => exact ⟨le_rfl, fun _ hr => hr⟩
  | commit => exact ⟨le_rfl, fun _ hr => hr⟩

theorem restart_grows (c : Core Cmd) : Grows c c.restart := ⟨le_rfl, nofun⟩

theorem update_grows [DecidableEq ι] {C : ι → Core Cmd} (hg : Grows (C p) c') (q : ι) :
    Grows (C q) (Function.update C p c' q) :=
  (Function.forall_update_iff C fun q c => Grows (C q) c).2 ⟨hg, fun _ _ => Grows.refl _⟩ q

/-! ## The basic invariant -/

/-- what an event says about the nodes and the history after it -/
def EventOk (C : ι → Core Cmd) (h : List (Event ι Cmd)) : Event ι Cmd → Prop
  | .candidacy p t l => t ≤ (C p).term ∧ ∀ e ∈ l, e.term < t
  | .voteGranted v t c vl => t ≤ (C v).term ∧ ∃ cl, .candidacy c t cl ∈ h ∧ UpToDate LogEntry.term cl vl
  | .becameLeader p t l =>
    t ≤ (C p).term ∧ (t = (C p).term → (C p).role ≠ .candidate) ∧ .candidacy p t l ∈ h ∧ ∀ e ∈ l, e.term < t
  | .sent p t l _ => (∃ l₀, .becameLeader p t l₀ ∈ h) ∧ [sentinel] <+: l ∧ ∀ e ∈ l, e.term ≤ t
  | .accepted v t _ _ => t ≤ (C v).term
  | .committed p t N l => t ≤ (C p).term ∧ (∃ l₀, .becameLeader p t l₀ ∈ h) ∧ ∃ e, l[N]? = some e ∧ e.term = t
  | _ => True

/-- what holds of a node -/
structure NodeOk (h : List (Event ι Cmd)) (p : ι) (c : Core Cmd) : Prop where
  candidate : c.role = .candidate → .candidacy p c.term c.log ∈ h
  leader : c.role = .leader → ∃ l, .becameLeader p c.term l ∈ h
  root : [sentinel] <+: c.log
  terms : ∀ e ∈ c.log, e.term ≤ c.term

structure Basic (C : ι → Core Cmd) (h : List (Event ι Cmd)) : Prop where
  events : ∀ e ∈ h, EventOk C h e
  nodes : ∀ p, NodeOk h p (C p)
  /-- a node stands at most once in a term -/
  candidacies : ∀ p t l l', .candidacy p t l ∈ h → .candidacy p t l' ∈ h → l = l'

theorem EventOk.mono {C C' : ι → Core Cmd} {h' : List (Event ι Cmd)} (hg : ∀ q, Grows (C q) (C' q)) (hs : h ⊆ h')
    {e : Event ι Cmd} (he : EventOk C h e) : EventOk C' h' e := by
  cases e with
  | candidacy p t l => exact ⟨he.1.trans (hg p).1, he.2⟩
  | voteGranted v t c vl =>
    obtain ⟨h1, cl, h2, h3⟩ := he
    exact ⟨h1.trans (hg v).1, cl, hs h2, h3⟩
  | becameLeader p t l =>
    obtain ⟨h1, h2, h3, h4⟩ := he
    refine ⟨h1.trans (hg p).1, fun ht hr => ?_, hs h3, h4⟩
    have hle := (hg p).1
    exact h2 (by omega) ((hg p).2 (by omega) hr)
  | sent p t l k =>
    obtain ⟨⟨l₀, h1⟩, h2⟩ := he
    exact ⟨⟨l₀, hs h1⟩, h2⟩
  | accepted v t i cut => exact le_trans he (hg v).1
  | committed p t N l =>
    obtain ⟨h1, ⟨l₀, h2⟩, h3⟩ := he
    exact ⟨h1.trans (hg p).1, ⟨l₀, hs h2⟩, h3⟩
  | voteCounted => trivial
  | started => trivial
  | applied => trivial

theorem NodeOk.mono {h' : List (Event ι Cmd)} (hs : h ⊆ h') (hn : NodeOk h p c) : NodeOk h' p c where
  candidate hr := hs (hn.candidate hr)
  leader hr := by
    obtain ⟨l, hl⟩ := hn.leader hr
    exact ⟨l, hs hl⟩
  root := hn.root
  terms := hn.terms

variable [Fintype ι]

/-- the new events hold where the move leads -/
theorem Move.eventOk [DecidableEq ι] {C : ι → Core Cmd} (hI : Basic C h) (hm : Move p h (C p) c' evs) :
    ∀ e ∈ evs, EventOk (Function.update C p c') (h ++ evs) e := by
  have hn := hI.nodes p
  have hleader : ∀ l, .becameLeader p (C p).term l ∈ h →
      ∃ l₀, .becameLeader p (C p).term l₀ ∈ h ++ evs := fun l hl => ⟨l, List.mem_append_left _ hl⟩
  generalize hc : C p = c at hm hn hleader
  cases hm with
  | adopt t ht => simp
  | note e he =>
    intro e' he'
    simp only [List.mem_singleton] at he'; subst he'
    cases e' <;> simp [Event.Note] at he <;> trivial
  | stand =>
    intro e he
    simp only [List.mem_singleton] at he; subst he
    exact ⟨by simp, fun e he => Nat.lt_succ_of_le (hn.terms e he)⟩
  | grant q ql hq hup =>
    intro e he
    simp only [List.mem_singleton] at he; subst he
    exact ⟨by simp, ql, List.mem_append_left _ hq, hup⟩
  | elect hr =>
    intro e he
    simp only [List.mem_singleton] at he; subst he
    exact ⟨by simp, by simp, List.mem_append_left _ (hn.candidate hr), (hI.events _ (hn.candidate hr)).2⟩
  | start command hr =>
    intro e he
    simp only [List.mem_singleton] at he; subst he
    trivial
  | send hr =>
    intro e he
    simp only [List.mem_singleton] at he; subst he
    obtain ⟨l, hl⟩ := hn.leader hr
    exact ⟨hleader l hl, hn.root, hn.terms⟩
  | accept L full k prev a b hr hs ha hb hab =>
    intro e he
    simp only [List.mem_singleton] at he; subst he
    simp [EventOk]
  | commit N e Q hr hlt he het hQ hack =>
    intro e' he'
    simp only [List.mem_singleton] at he'; subst he'
    obtain ⟨l, hl⟩ := hn.leader hr
    exact ⟨by simp, hleader l hl, e, he, het⟩

theorem Move.nodeOk {C : ι → Core Cmd} (hI : Basic C h) (hm : Move p h (C p) c' evs) : NodeOk (h ++ evs) p c' := by
  have hn := hI.nodes p
  have hmono := hn.mono (List.subset_append_left h evs)
  generalize C p = c at hm hn hmono
  cases hm with
  | adopt t ht =>
    exact { hmono with candidate := nofun, leader := nofun, terms := fun e he => (hn.terms e he).trans ht }
  | note e he => exact hmono
  | stand =>
    refine { hmono with candidate := fun _ => ?_, leader := nofun, terms := fun e he => ?_ }
    · simp
    · exact Nat.le_succ_of_le (hn.terms e he)
  | grant q ql hq hup => exact hmono
  | elect hr => exact { hmono with candidate := nofun, leader := fun _ => ⟨c.log, by simp⟩ }
  | start command hr =>
    refine { hmono with candidate := fun hr' => ?_, root := hn.root.trans (List.prefix_append _ _), terms := ?_ }
    · rw [show c.role = .candidate from hr'] at hr; cases hr
    · intro e he
      rcases List.mem_append.1 he with he | he
      · exact hn.terms e he
      · simp only [List.mem_singleton] at he; subst he; exact le_rfl
  | send hr => exact hmono
  | accept L full k prev a b hr hs ha hb hab =>
    refine { hmono with candidate := fun hr' => ?_, root := ?_, terms := fun e he => ?_ }
    · rw [show c.role = .candidate from hr'] at hr; cases hr
    · -- the merge starts above index 0
      have hlt := (List.getElem?_eq_some_iff.1 ha).1
      have htake : (merge LogEntry.term c.log (prev + 1) (full.drop (prev + 1))).take (prev + 1) =
          c.log.take (prev + 1) := take_merge _ _ (by omega)
      have hroot : [sentinel] <+: c.log.take (prev + 1) := by
        rw [List.prefix_take_iff]; exact ⟨hn.root, by simp⟩
      rw [← htake] at hroot
      exact (List.prefix_take_iff.1 hroot).1
    · rcases mem_merge he with he | he
      · exact hn.terms e he
      · exact (hI.events _ hs).2.2 e (List.mem_of_mem_drop he)
  | commit N e Q hr hlt he het hQ hack => exact { hmono with }

/-- a new candidacy is in a term above all earlier ones of the node -/
theorem Move.candidacy (hm : Move p h c c' evs) {q : ι} {t : ℕ} {l : List (LogEntry Cmd)}
    (hq : .candidacy q t l ∈ evs) : q = p ∧ t = c.term + 1 ∧ l = c.log := by
  cases hm with
  | note e he => simp only [List.mem_singleton] at hq; subst hq; simp [Event.Note] at he
  | stand => simpa using hq
  | _ => simp at hq

theorem Basic.move [DecidableEq ι] {C : ι → Core Cmd} (hI : Basic C h) (hm : Move p h (C p) c' evs) :
    Basic (Function.update C p c') (h ++ evs) := by
  have hs := List.subset_append_left h evs
  refine ⟨fun e he => ?_, ?_, fun q t l l' hl hl' => ?_⟩
  · rcases List.mem_append.1 he with he | he
    · exact (hI.events e he).mono (update_grows hm.grows) hs
    · exact hm.eventOk hI e he
  · exact (Function.forall_update_iff C (NodeOk (h ++ evs))).2 ⟨hm.nodeOk hI, fun q _ => (hI.nodes q).mono hs⟩
  · have hold : ∀ l, .candidacy p ((C p).term + 1) l ∉ h := fun l hl => by
      have := (hI.events _ hl).1; omega
    rcases List.mem_append.1 hl with hl | hl <;> rcases List.mem_append.1 hl' with hl' | hl'
    · exact hI.candidacies q t l l' hl hl'
    · obtain ⟨rfl, rfl, -⟩ := hm.candidacy hl'; exact absurd hl (hold l)
    · obtain ⟨rfl, rfl, -⟩ := hm.candidacy hl; exact absurd hl' (hold l')
    · rw [(hm.candidacy hl).2.2, (hm.candidacy hl').2.2]

omit [Fintype ι] in
theorem Basic.restart [DecidableEq ι] {C : ι → Core Cmd} (hI : Basic C h) (p : ι) :
    Basic (Function.update C p (C p).restart) h := by
  refine ⟨fun e he => (hI.events e he).mono (update_grows (restart_grows _)) (List.Subset.refl h), fun q => ?_,
    hI.candidacies⟩
  by_cases hq : q = p
  · subst hq
    rw [Function.update_self]
    exact { hI.nodes q with candidate := nofun, leader := nofun }
  · rw [Function.update_of_ne hq]; exact hI.nodes q

theorem Reach.basic [DecidableEq ι] {C : ι → Core Cmd} (hr : Reach C h) : Basic C h := by
  induction hr with
  | init => exact ⟨by simp, fun p => ⟨nofun, nofun, List.prefix_refl _, by simp [sentinel]⟩, by simp⟩
  | move _ hm ih => exact ih.move hm
  | restart p _ ih => exact ih.restart p

end Protocol

end CS240.Raft
