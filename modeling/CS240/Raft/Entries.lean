/-
Where the entries of a log come from, and the order of their terms. Both hold in every run, whatever the elections do.

An entry is created by `Start`, at the end of a leader's log, and from then on only copied: into requests by slicing the
leader's log, into a follower's log by merging, into a Persister and back. `LogOk h l` says that the copies in `l` are
in the right place, behind entries of no larger term. It holds of every node's log and of every log a request was built
from, and a merge of two such logs keeps it although nothing else is known about them: the entry in front of the batch
has the same term in both.

- `Reach.entries`: the invariant `Entries`, over the abstract protocol.
- `entries_started`: no log, Persister, request in flight or applied message holds anything that no `Start` returned.
- `log_wellformed`: the sentinel, positive terms behind it, in order, none above the node's own.
-/
import CS240.Raft.Applier
import CS240.Raft.Replication

namespace CS240.Raft

open Lib

section Entries

variable {ι Cmd : Type} {C : ι → Core Cmd} {h h' evs : List (Event ι Cmd)} {p : ι} {c' : Core Cmd}
  {l full : List (LogEntry Cmd)}

/-- the entries of `l` were started at their indices, and their terms do not decrease -/
structure LogOk (h : List (Event ι Cmd)) (l : List (LogEntry Cmd)) : Prop where
  started : ∀ i e, 1 ≤ i → l[i]? = some e → ∃ q, .started q e.term i e.command ∈ h
  ascending : Ascending LogEntry.term l

theorem LogOk.mono (hs : h ⊆ h') (hl : LogOk h l) : LogOk h' l := by
  refine ⟨?_, hl.ascending⟩
  intro i e hi he
  obtain ⟨q, hq⟩ := hl.started i e hi he
  exact ⟨q, hs hq⟩

theorem LogOk.init (h : List (Event ι Cmd)) : LogOk h [sentinel] := by
  have hzero : ∀ i e, [(sentinel : LogEntry Cmd)][i]? = some e → i = 0 ∧ e = sentinel := by
    intro i e he
    have hi := (List.getElem?_eq_some_iff.1 he).1
    have hmem := List.mem_of_getElem? he
    simp only [List.length_singleton, List.mem_singleton] at hi hmem
    exact ⟨by omega, hmem⟩
  refine ⟨?_, ?_⟩
  · intro i e hi he
    have := (hzero i e he).1
    omega
  · intro i j a b _ ha hb
    rw [(hzero i a ha).2, (hzero j b hb).2]

/-- `Start` puts a new entry behind entries of no larger term -/
theorem LogOk.start (hl : LogOk h l) {t : ℕ} (ht : ∀ e ∈ l, e.term ≤ t) (command : Option Cmd) :
    LogOk (h ++ [.started p t l.length command]) (l ++ [⟨t, command⟩]) := by
  refine ⟨?_, hl.ascending.snoc ht⟩
  intro i e hi he
  rw [List.getElem?_append] at he
  split_ifs at he with hlt
  · obtain ⟨q, hq⟩ := hl.started i e hi he
    exact ⟨q, List.mem_append_left _ hq⟩
  · have hidx := (List.getElem?_eq_some_iff.1 he).1
    have hmem := List.mem_of_getElem? he
    simp only [List.length_singleton, List.mem_singleton] at hidx hmem
    obtain rfl : i = l.length := by omega
    subst hmem
    exact ⟨p, by simp⟩

theorem LogOk.merge (hl : LogOk h l) (hf : LogOk h full) {prev : ℕ} {a b : LogEntry Cmd} (ha : l[prev]? = some a)
    (hb : full[prev]? = some b) (hab : a.term = b.term) :
    LogOk h (merge LogEntry.term l (prev + 1) (full.drop (prev + 1))) := by
  refine ⟨?_, hl.ascending.merge hf.ascending ha hb hab⟩
  intro i e hi he
  rcases getElem?_merge ha hb hab he with he | he
  · exact hl.started i e hi he
  · exact hf.started i e hi he

structure Entries (C : ι → Core Cmd) (h : List (Event ι Cmd)) : Prop where
  node : ∀ p, LogOk h (C p).log
  sent : ∀ p t l k, .sent p t l k ∈ h → LogOk h l
  /-- only a follower can be in term 0 -/
  active : ∀ p, (C p).role ≠ .follower → 1 ≤ (C p).term
  started : ∀ p t i command, .started p t i command ∈ h → 1 ≤ t

/-- the invariant after a move of `p`, from what the move leaves and what it sends or starts -/
theorem Entries.step [DecidableEq ι] (hE : Entries C h) (hlog : LogOk (h ++ evs) c'.log)
    (hactive : c'.role ≠ .follower → 1 ≤ c'.term)
    (hsent : ∀ q t l k, .sent q t l k ∈ evs → LogOk (h ++ evs) l)
    (hstarted : ∀ q t i command, .started q t i command ∈ evs → 1 ≤ t) :
    Entries (Function.update C p c') (h ++ evs) := by
  have hmono : ∀ {l}, LogOk h l → LogOk (h ++ evs) l := LogOk.mono (List.subset_append_left _ _)
  refine ⟨?_, ?_, ?_, ?_⟩
  · exact (Function.forall_update_iff C fun _ c => LogOk (h ++ evs) c.log).2 ⟨hlog, fun q _ => hmono (hE.node q)⟩
  · intro q t l k hl
    rcases List.mem_append.1 hl with hl | hl
    · exact hmono (hE.sent q t l k hl)
    · exact hsent q t l k hl
  · exact (Function.forall_update_iff C fun _ c => c.role ≠ .follower → 1 ≤ c.term).2
      ⟨hactive, fun q _ => hE.active q⟩
  · intro q t i command hs
    rcases List.mem_append.1 hs with hs | hs
    · exact hE.started q t i command hs
    · exact hstarted q t i command hs

theorem Entries.move [Fintype ι] [DecidableEq ι] (hE : Entries C h) (hI : Basic C h) (hm : Move p h (C p) c' evs) :
    Entries (Function.update C p c') (h ++ evs) := by
  have hlog : LogOk (h ++ evs) (C p).log := (hE.node p).mono (List.subset_append_left _ _)
  have hact := hE.active p
  have hterms := (hI.nodes p).terms
  have hnode := hE.node p
  generalize C p = c at hm hlog hact hterms hnode
  cases hm with
  | adopt t ht => exact hE.step hlog (fun hr => absurd rfl hr) (by simp) (by simp)
  | note e he =>
    refine hE.step hlog hact ?_ ?_
    · intro q t l k hs
      simp only [List.mem_singleton] at hs
      subst hs
      cases he
    · intro q t i command hs
      simp only [List.mem_singleton] at hs
      subst hs
      cases he
  | stand => exact hE.step hlog (fun _ => Nat.succ_pos _) (by simp) (by simp)
  | grant q ql hq hup => exact hE.step hlog hact (by simp) (by simp)
  | elect hr => exact hE.step hlog (fun _ => hact (by rw [hr]; nofun)) (by simp) (by simp)
  | start command hr =>
    have hpos : 1 ≤ c.term := hact (by rw [hr]; nofun)
    refine hE.step (hnode.start hterms command) hact (by simp) ?_
    intro q t i command' hs
    simp only [List.mem_singleton, Event.started.injEq] at hs
    rw [hs.2.1]
    exact hpos
  | send hr =>
    refine hE.step hlog hact ?_ (by simp)
    intro q t l k hs
    simp only [List.mem_singleton, Event.sent.injEq] at hs
    rw [hs.2.2.1]
    exact hlog
  | accept L full k prev a b hr hs ha hb hab =>
    have hmerged := hnode.merge (hE.sent L _ full k hs) ha hb hab
    exact hE.step (hmerged.mono (List.subset_append_left _ _)) hact (by simp) (by simp)
  | commit N e Q hr hlt he het hQ hack => exact hE.step hlog hact (by simp) (by simp)

/-- **Entries are started, then copied**: in whatever the protocol can get to. -/
theorem Reach.entries [Fintype ι] [DecidableEq ι] (hr : Reach C h) : Entries C h := by
  induction hr with
  | init => exact ⟨fun p => .init [], by simp, fun p hp => absurd rfl hp, by simp⟩
  | move hr hm ih => exact ih.move hr.basic hm
  | @restart C h p hr ih =>
    have hstep : Entries (Function.update C p (C p).restart) (h ++ []) :=
      ih.step (by rw [List.append_nil]; exact ih.node p) (fun hp => absurd rfl hp) (by simp) (by simp)
    rwa [List.append_nil] at hstep

end Entries

/-! ## The cluster -/

variable {n : ℕ} {Cmd : Type} {h evs : List (Event (Fin n) Cmd)} {s s' : Cluster n Cmd} {a : Action n Cmd}
  {ok : Cluster n Cmd → Action n Cmd → Prop}

/-- a message on applyCh repeats a command that `Start` put at its index -/
def Returned (h : List (Event (Fin n) Cmd)) (msg : ApplyMsg Cmd) : Prop :=
  ∃ q t, .started q t msg.index msg.command ∈ h

theorem Returned.mono {h' : List (Event (Fin n) Cmd)} (hs : h ⊆ h') {msg : ApplyMsg Cmd} (hm : Returned h msg) :
    Returned h' msg := by
  obtain ⟨q, t, hq⟩ := hm
  exact ⟨q, t, hs hq⟩

theorem applier_returned {rf : Raft n Cmd} (hl : LogOk h rf.log) {msg : ApplyMsg Cmd} (hm : rf.applier.2 = some msg) :
    Returned h msg := by
  rcases applier_cases rf with he | ⟨e, -, he, heq⟩
  · rw [he] at hm; cases hm
  · rw [heq] at hm
    cases hm
    obtain ⟨q, hq⟩ := hl.started _ e (Nat.succ_pos _) he
    exact ⟨q, e.term, hq⟩

theorem run_returned (hr : (machine n Cmd).Run ok s h) :
    (∀ p msg, (s.node p).pending = some msg → Returned h msg) ∧ ∀ p msg, .applied p msg ∈ h → Returned h msg := by
  induction hr with
  | init => exact ⟨nofun, nofun⟩
  | step hr _ hs ih =>
    have hE := (run_refines hr).reach.entries
    exact step_sends (fun _ _ _ hs hm => hm.mono hs) ih.1 ih.2 (fun p msg hm => applier_returned (hE.node p) hm) hs

/-- **No invented or misplaced commands**: in every run, an entry with term `t` and command `c` at an index `i ≥ 1` of a
node's log, of a log in a Persister or of the entries of a request in flight was created by a `Start(c)` that returned
`(i, t, true)`; and every message sent on applyCh carries a command that a `Start` returned its index for. -/
theorem entries_started (hr : (machine n Cmd).Run Machine.free s h) (i t : ℕ) (c : Option Cmd) (hi : 1 ≤ i) :
    (∀ p, (s.rf p).log[i]? = some ⟨t, c⟩ → ∃ q, .started q t i c ∈ h) ∧
    (∀ p log, .entries log ∈ (s.rf p).persister → log[i]? = some ⟨t, c⟩ → ∃ q, .started q t i c ∈ h) ∧
    (∀ m ∈ s.net, ∀ args rest j, m.body = .appendEntries args rest → args.prevLogIndex + 1 + j = i →
      args.entries[j]? = some ⟨t, c⟩ → ∃ q, .started q t i c ∈ h) ∧
    ∀ p msg, .applied p msg ∈ h → ∃ q t', .started q t' msg.index msg.command ∈ h := by
  have hI := run_refines hr
  have hE := hI.reach.entries
  refine ⟨?_, ?_, ?_, (run_returned hr).2⟩
  · intro p he
    exact (hE.node p).started i ⟨t, c⟩ hi he
  · intro p log hlog he
    rw [run_savedLog hr p log hlog] at he
    exact (hE.node p).started i ⟨t, c⟩ hi he
  · intro m hm args rest j hbody hj he
    -- the request's entries are the sender's log from `prevLogIndex + 1` on
    have hok := hI.net m hm
    simp only [MsgOk, hbody] at hok
    obtain ⟨-, full, hsent, -, hents⟩ := hok
    rw [hents, List.getElem?_drop, hj] at he
    exact (hE.sent _ _ full _ hsent).started i ⟨t, c⟩ hi he

/-- the 8 that node 1 has at index 2 after `overtaken` -/
theorem entries_started_overtaken : ∃ s h, (machine 3 ℕ).Run Machine.free s h ∧
    (s.rf 1).log[2]? = some ⟨1, some 8⟩ ∧ ∃ q, .started q 1 2 (some 8) ∈ h := by
  obtain ⟨s, h, hr, ht⟩ := Machine.exists_run_of_exec
    (show ((machine 3 ℕ).exec Machine.free overtaken).any
      (fun r => decide ((r.1.rf 1).log[2]? = some ⟨1, some 8⟩)) = true by decide +kernel)
  have he := of_decide_eq_true ht
  exact ⟨s, h, hr, he, (entries_started hr 2 1 (some 8) (by decide)).1 1 he⟩

/-- **Logs are well formed**: in every state of every run, a log is not empty and starts with the sentinel, every other
entry has a term of at least 1, terms do not decrease along the log, and none is above the node's term. -/
theorem log_wellformed (hr : (machine n Cmd).Run Machine.free s h) (p : Fin n) :
    (s.rf p).log ≠ [] ∧ (s.rf p).log[0]? = some sentinel ∧
    (∀ (i : ℕ) (e : LogEntry Cmd), 1 ≤ i → (s.rf p).log[i]? = some e → 1 ≤ e.term) ∧
    (∀ (i j : ℕ) (a b : LogEntry Cmd), i ≤ j → (s.rf p).log[i]? = some a → (s.rf p).log[j]? = some b →
      a.term ≤ b.term) ∧
    ∀ e ∈ (s.rf p).log, e.term ≤ (s.rf p).term := by
  have hI := run_refines hr
  have hE := hI.reach.entries
  have hN := hI.reach.basic.nodes p
  refine ⟨(run_saved hr p).2.log, prefix_getElem? hN.root rfl, ?_, (hE.node p).ascending, hN.terms⟩
  intro i e hi he
  obtain ⟨q, hq⟩ := (hE.node p).started i e hi he
  exact hE.started q _ i _ hq

theorem log_wellformed_overtaken : ∃ s h, (machine 3 ℕ).Run Machine.free s h ∧ (s.rf 1).log.length = 3 ∧
    (s.rf 1).log[0]? = some sentinel := by
  obtain ⟨s, h, hr, ht⟩ := Machine.exists_run_of_exec
    (show ((machine 3 ℕ).exec Machine.free overtaken).any
      (fun r => decide ((r.1.rf 1).log.length = 3)) = true by decide +kernel)
  exact ⟨s, h, hr, of_decide_eq_true ht, (log_wellformed hr 1).2.1⟩

end CS240.Raft
