/-
How a test agrees on a command: `one` and `wait` (`src/raft/config.go`).

`one` asks the servers in turn until one of them takes the command, and then looks again and again at the logs that the
harness keeps. When two seconds have passed without agreement it asks again, beginning with the server after the last
one it asked. `wait` waits for a given index, and gives up when a server has moved on to a later term.

What both see in the logs are reports (`Polled`), of which further ones arrive while the logs are read.

- `askAll_none`: a round in which nobody takes the command has asked everybody.
- `one_exact`: what `one` returns has been applied, and it returns when it sees agreement.
- `wait_exact`: the same of `wait`.
-/
import CS240.Raft.Reports

namespace CS240.Raft

open Lib

variable {n : ℕ}

/-! ## one -/

/-- a round of `one` -/
structure Submission (n : ℕ) where
  /-- the index that `Start` returns; none if the server is not connected, not the leader or not asked any more -/
  ask : Fin n → Option ℕ
  /-- nobody is asked after the server that takes the command -/
  once : ∀ i j, (ask i).isSome → (ask j).isSome → i = j
  /-- what is read in the log of each server, each time until the two seconds are over -/
  polls : List (Fin n → ℕ → Option ℤ)

/-- how a test fails -/
inductive TestFailure where
  /-- by `nCommitted`: committed values do not match -/
  | mismatch (index : ℕ)
  /-- by `one`: failed to reach agreement -/
  | noAgreement (cmd : ℤ)
  /-- by `wait`: only `nd` decided, wanted `n` -/
  | tooFew (nd index n : ℕ)
  /-- not by `Fatalf`: `wait` calls `GetState` on the nil pointer of a crashed server -/
  | noInstance
deriving DecidableEq, Repr

section One

variable [NeZero n]

/-- the loop over the servers, with `k` of them left; `starts` is the last one asked -/
def askAll (ask : Fin n → Option ℕ) : ℕ → Fin n → Fin n × Option ℕ
  | 0, starts => (starts, none)
  | k + 1, starts =>
    let starts := Fin.ofNat n (starts + 1)
    match ask starts with
    | some index => (starts, some index)
    | none => askAll ask k starts

/-- the loop of two seconds; whether it has seen agreement -/
def pollAll (cmd : ℤ) (expectedServers index : ℕ) : List (Fin n → ℕ → Option ℤ) → Except TestFailure Bool
  | [] => .ok false
  | reads :: rest =>
    match nCommitted index reads with
    | none => .error (.mismatch index)
    | some (nd, cmd1) =>
      if nd > 0 ∧ nd ≥ expectedServers ∧ cmd1 = cmd then .ok true else pollAll cmd expectedServers index rest

/-- the rounds of `one`, until its ten seconds are over -/
def one (cmd : ℤ) (expectedServers : ℕ) : Fin n → List (Submission n) → Except TestFailure ℕ
  | _, [] => .error (.noAgreement cmd)
  | starts, r :: rest =>
    match askAll r.ask n starts with
    | (starts, none) => one cmd expectedServers starts rest
    | (starts, some index) =>
      match pollAll cmd expectedServers index r.polls with
      | .error failure => .error failure
      | .ok true => .ok index
      | .ok false => one cmd expectedServers starts rest

end One

/-! ## wait -/

/-- an iteration of `wait`: what is read in the logs, and the terms of all servers after the pause; none for a server
that has no instance -/
structure Iteration (n : ℕ) where
  reads : Fin n → ℕ → Option ℤ
  terms : Fin n → Option ℕ

/-- the end of `wait` -/
def decided (index wanted : ℕ) (reads : Fin n → ℕ → Option ℤ) : Except TestFailure ℤ :=
  match nCommitted index reads with
  | none => .error (.mismatch index)
  | some (nd, cmd) => if nd < wanted then .error (.tooFew nd index wanted) else .ok cmd

/-- the loop over `cfg.rafts`: whether someone has moved on -/
def movedOn (startTerm : ℤ) : List (Option ℕ) → Except TestFailure Bool
  | [] => .ok false
  | none :: _ => .error .noInstance
  | some t :: rest => if t > startTerm then .ok true else movedOn startTerm rest

/-- `wait` with up to 30 iterations; `last` is what is read at the end -/
def wait (index wanted : ℕ) (startTerm : ℤ) (last : Fin n → ℕ → Option ℤ) : List (Iteration n) → Except TestFailure ℤ
  | [] => decided index wanted last
  | it :: rest =>
    match nCommitted index it.reads with
    | none => .error (.mismatch index)
    | some (nd, _) =>
      if nd ≥ wanted then decided index wanted last
      else if startTerm > -1 then
        match movedOn startTerm ((List.finRange n).map it.terms) with
        | .error failure => .error failure
        | .ok true => .ok (-1)
        | .ok false => wait index wanted startTerm last rest
      else wait index wanted startTerm last rest

/-! ## What is read in the logs -/

section Polls

variable {rs : List (Report n)} {reads : Fin n → ℕ → Option ℤ} {index : ℕ}

/-- the log of server `i` was read after the first `cut i` reports had been accepted -/
def PolledAt (rs : List (Report n)) (cut : Fin n → ℕ) (reads : Fin n → ℕ → Option ℤ) : Prop :=
  ∃ logs : Fin n → Logs n, (∀ i, checkAll noLogs (rs.take (cut i)) = .ok (logs i)) ∧ reads = fun i => logs i i

def Polled (rs : List (Report n)) (reads : Fin n → ℕ → Option ℤ) : Prop := ∃ cut, PolledAt rs cut reads

/-- the servers that have reported `cmd` at `index`, as far as is read -/
def agreeing (index : ℕ) (cmd : ℤ) (reads : Fin n → ℕ → Option ℤ) : Finset (Fin n) :=
  Finset.univ.filter fun i => reads i index = some cmd

theorem PolledAt.iff_mem {cut : Fin n → ℕ} (hp : PolledAt rs cut reads) {i : Fin n} {v : ℤ} :
    reads i index = some v ↔ (i, ⟨index, some v⟩) ∈ rs.take (cut i) := by
  obtain ⟨logs, hlogs, rfl⟩ := hp
  exact (accepted_orderly (hlogs i)).1 i index v

theorem Polled.mem (hp : Polled rs reads) {i : Fin n} {v : ℤ} (hv : reads i index = some v) :
    (i, ⟨index, some v⟩) ∈ rs := by
  obtain ⟨cut, hp⟩ := hp
  exact List.mem_of_mem_take (hp.iff_mem.1 hv)

theorem Polled.unique (hp : Polled rs reads) (ho : Orderly rs) {i j : Fin n} {v w : ℤ} (hv : reads i index = some v)
    (hw : reads j index = some w) : v = w :=
  Option.some.inj (ho.agree _ (hp.mem hv) _ (hp.mem hw) rfl)

theorem mem_agreeing {cmd : ℤ} {i : Fin n} : i ∈ agreeing index cmd reads ↔ reads i index = some cmd := by
  rw [agreeing, Finset.mem_filter, and_iff_right (Finset.mem_univ i)]

/-- `nCommitted` does not fail, and what it returns is about one command -/
theorem Polled.nCommitted (hp : Polled rs reads) (ho : Orderly rs) (index : ℕ) : ∃ nd cmd,
    nCommitted index reads = some (nd, cmd) ∧ nd = (agreeing index cmd reads).card ∧
      ∀ i v, reads i index = some v → v = cmd := by
  -- the command, if there is one
  obtain ⟨w, hw⟩ : ∃ w, ∀ i v, reads i index = some v → v = w := by
    by_cases hsome : ∃ i w, reads i index = some w
    · obtain ⟨i, w, hi⟩ := hsome
      exact ⟨w, fun j v hv => hp.unique ho hv hi⟩
    · exact ⟨-1, fun i v hv => absurd ⟨i, v, hv⟩ hsome⟩
  obtain ⟨cmd, hcount, hcmd⟩ := nCommitted_counts reads index hw
  have hall : ∀ i v, reads i index = some v → v = cmd := by
    intro i v hv
    rw [hcmd ⟨i, by rw [hv]; rfl⟩]
    exact hw i v hv
  refine ⟨_, cmd, hcount, ?_, hall⟩
  have hsame : (fun i => (reads i index).isSome) = fun i => decide (reads i index = some cmd) := by
    funext i
    rw [Bool.eq_iff_iff, Option.isSome_iff_exists, decide_eq_true_eq]
    exact ⟨fun ⟨v, hv⟩ => hall i v hv ▸ hv, fun h => ⟨cmd, h⟩⟩
  calc (List.finRange n).countP (fun i => (reads i index).isSome)
      = ((List.finRange n).filter fun i => decide (reads i index = some cmd)).length := by
        rw [hsame, List.countP_eq_length_filter]
    _ = ((List.finRange n).filter fun i => decide (reads i index = some cmd)).toFinset.card :=
        (List.toFinset_card_of_nodup ((List.nodup_finRange n).filter _)).symm
    _ = (agreeing index cmd reads).card := by
        congr 1
        ext i
        simp [agreeing]

/-- what `one` waits for -/
def Agreed (cmd : ℤ) (expectedServers index : ℕ) (reads : Fin n → ℕ → Option ℤ) : Prop :=
  (agreeing index cmd reads).Nonempty ∧ expectedServers ≤ (agreeing index cmd reads).card

theorem Polled.pollAll (cmd : ℤ) (expectedServers index : ℕ) (ho : Orderly rs) {polls : List (Fin n → ℕ → Option ℤ)}
    (hpolls : ∀ reads ∈ polls, Polled rs reads) : ∃ b, pollAll cmd expectedServers index polls = .ok b ∧
      (b = true ↔ ∃ reads ∈ polls, Agreed cmd expectedServers index reads) := by
  induction polls with
  | nil => exact ⟨false, rfl, by simp⟩
  | cons reads rest ih =>
    rw [List.forall_mem_cons] at hpolls
    obtain ⟨b, hb, hiff⟩ := ih hpolls.2
    obtain ⟨nd, cmd', hn, hnd, hall⟩ := hpolls.1.nCommitted ho index
    have hseen : (nd > 0 ∧ nd ≥ expectedServers ∧ cmd' = cmd) ↔ Agreed cmd expectedServers index reads := by
      constructor
      · rintro ⟨hpos, hge, rfl⟩
        rw [hnd] at hpos hge
        exact ⟨Finset.card_pos.1 hpos, hge⟩
      · rintro ⟨⟨i, hi⟩, hge⟩
        obtain rfl := hall i cmd (mem_agreeing.1 hi)
        rw [hnd]
        exact ⟨Finset.card_pos.2 ⟨i, hi⟩, hge, rfl⟩
    rw [Raft.pollAll, hn]
    dsimp only
    split_ifs with h
    · exact ⟨true, rfl, by simp [hseen.1 h]⟩
    · exact ⟨b, hb, by simp [hiff, mt hseen.2 h]⟩

end Polls

/-! ## The servers in turn -/

section One

variable [NeZero n] {ask : Fin n → Option ℕ} {starts : Fin n}

theorem askAll_some {k index : ℕ} (hs : (askAll ask k starts).2 = some index) : ∃ i, ask i = some index := by
  induction k generalizing starts with
  | zero => cases hs
  | succ k ih =>
    rw [askAll] at hs
    split at hs
    · rename_i index' hask
      exact ⟨_, hask.trans hs⟩
    · exact ih hs

theorem askAll_none_of_le {k : ℕ} (hs : (askAll ask k starts).2 = none) {m : ℕ} (hm : m < k) :
    ask (Fin.ofNat n (starts + 1 + m)) = none := by
  induction k generalizing starts m with
  | zero => cases hm
  | succ k ih =>
    rw [askAll] at hs
    split at hs
    · cases hs
    · rename_i hask
      cases m with
      | zero => exact hask
      | succ m =>
        have hnext := ih hs (Nat.lt_of_succ_lt_succ hm)
        have heq : Fin.ofNat n ((Fin.ofNat n (starts + 1)).val + 1 + m) = Fin.ofNat n (starts + 1 + (m + 1)) := by
          apply Fin.ext
          simp only [Fin.val_ofNat]
          rw [Nat.add_assoc, Nat.mod_add_mod, Nat.add_comm 1 m]
        rwa [heq] at hnext

/-- a round asks everybody, if nobody takes the command -/
theorem askAll_none (hs : (askAll ask n starts).2 = none) (i : Fin n) : ask i = none := by
  -- how far `i` is from the first one that is asked
  obtain ⟨m, hm, hi⟩ : ∃ m < n, (starts + 1 + m) % n = i := by
    have hlt : (starts + 1) % n < n := Nat.mod_lt _ (NeZero.pos n)
    have hin := i.isLt
    by_cases hle : (starts + 1) % n ≤ i
    · refine ⟨i - (starts + 1) % n, by omega, ?_⟩
      rw [← Nat.mod_add_mod, Nat.add_sub_cancel' hle, Nat.mod_eq_of_lt hin]
    · refine ⟨i + n - (starts + 1) % n, by omega, ?_⟩
      rw [← Nat.mod_add_mod, Nat.add_sub_cancel' (by omega), Nat.add_mod_right, Nat.mod_eq_of_lt hin]
  have hask := askAll_none_of_le hs hm
  have heq : Fin.ofNat n (starts + 1 + m) = i := Fin.ext hi
  rwa [heq] at hask

/-- the answer of the server that takes the command -/
theorem Submission.askAll (r : Submission n) {i : Fin n} {index : ℕ} (hi : r.ask i = some index) (starts : Fin n) :
    (askAll r.ask n starts).2 = some index := by
  cases hs : (Raft.askAll r.ask n starts).2 with
  | none => exact absurd (hi.symm.trans (askAll_none hs i)) nofun
  | some index' =>
    obtain ⟨j, hj⟩ := askAll_some hs
    obtain rfl := r.once j i (by rw [hj]; rfl) (by rw [hi]; rfl)
    rw [← hi, ← hj]

/-- one round: either it sees agreement at the index it was given, or the next one begins -/
theorem one_cons {rs : List (Report n)} (ho : Orderly rs) {r : Submission n}
    (hpolls : ∀ reads ∈ r.polls, Polled rs reads) (cmd : ℤ) (expectedServers : ℕ) (starts : Fin n)
    (rounds : List (Submission n)) :
    (∃ index, (∃ i, r.ask i = some index) ∧ (∃ reads ∈ r.polls, Agreed cmd expectedServers index reads) ∧
      one cmd expectedServers starts (r :: rounds) = .ok index) ∨
    ∃ starts', one cmd expectedServers starts (r :: rounds) = one cmd expectedServers starts' rounds ∧
      ∀ i index, r.ask i = some index → ¬∃ reads ∈ r.polls, Agreed cmd expectedServers index reads := by
  obtain ⟨starts', answer, hask⟩ : ∃ starts' answer, askAll r.ask n starts = (starts', answer) := ⟨_, _, rfl⟩
  have hsnd : (askAll r.ask n starts).2 = answer := by rw [hask]
  cases answer with
  | none =>
    refine .inr ⟨starts', by simp [one, hask], fun i index hi => ?_⟩
    cases hsnd.symm.trans (r.askAll hi starts)
  | some index =>
    obtain ⟨b, hb, hiff⟩ := Polled.pollAll cmd expectedServers index ho hpolls
    cases b with
    | true => exact .inl ⟨index, askAll_some hsnd, hiff.1 rfl, by simp [one, hask, hb]⟩
    | false =>
      refine .inr ⟨starts', by simp [one, hask, hb], fun i index' hi => ?_⟩
      cases hsnd.symm.trans (r.askAll hi starts)
      exact mt hiff.2 Bool.false_ne_true

/-- `one`, over reports that the checker accepts -/
theorem one_spec {rs : List (Report n)} (ho : Orderly rs) {rounds : List (Submission n)}
    (hpolls : ∀ r ∈ rounds, ∀ reads ∈ r.polls, Polled rs reads) (cmd : ℤ) (expectedServers : ℕ) (starts : Fin n) :
    (∃ r ∈ rounds, ∃ index, (∃ i, r.ask i = some index) ∧ (∃ reads ∈ r.polls, Agreed cmd expectedServers index reads) ∧
      one cmd expectedServers starts rounds = .ok index) ∨
    (one cmd expectedServers starts rounds = .error (.noAgreement cmd) ∧
      ∀ r ∈ rounds, ∀ i index, r.ask i = some index → ¬∃ reads ∈ r.polls, Agreed cmd expectedServers index reads) := by
  induction rounds generalizing starts with
  | nil => exact .inr ⟨rfl, nofun⟩
  | cons r rounds ih =>
    rw [List.forall_mem_cons] at hpolls
    rcases one_cons ho hpolls.1 cmd expectedServers starts rounds with ⟨index, hi, hseen, hok⟩ | ⟨starts', hnext, hnot⟩
    · exact .inl ⟨r, List.mem_cons_self, index, hi, hseen, hok⟩
    · rw [hnext]
      rcases ih hpolls.2 starts' with ⟨r', hr', h⟩ | ⟨hfail, hnone⟩
      · exact .inl ⟨r', List.mem_cons_of_mem _ hr', h⟩
      · exact .inr ⟨hfail, List.forall_mem_cons.2 ⟨hnot, hnone⟩⟩

end One

/-! ## Waiting for an index -/

section Wait

variable {rs : List (Report n)} {index wanted : ℕ} {startTerm : ℤ} {last : Fin n → ℕ → Option ℤ}
  {its : List (Iteration n)}

/-- the end of `wait`: what was wanted, or too few -/
theorem Polled.decided (hp : Polled rs last) (ho : Orderly rs) (index wanted : ℕ) :
    (∃ cmd, decided index wanted last = .ok cmd ∧ wanted ≤ (agreeing index cmd last).card) ∨
    ∃ nd < wanted, decided index wanted last = .error (.tooFew nd index wanted) ∧
      ∀ cmd, (agreeing index cmd last).card < wanted := by
  obtain ⟨nd, cmd, hn, hnd, hall⟩ := hp.nCommitted ho index
  by_cases hlt : nd < wanted
  · refine .inr ⟨nd, hlt, by simp [Raft.decided, hn, hlt], fun cmd' => ?_⟩
    have hsub : agreeing index cmd' last ⊆ agreeing index cmd last := by
      intro i hi
      obtain rfl := hall i cmd' (mem_agreeing.1 hi)
      exact hi
    exact lt_of_le_of_lt (Finset.card_le_card hsub) (hnd ▸ hlt)
  · exact .inl ⟨cmd, by simp [Raft.decided, hn, hlt], by rw [← hnd]; exact not_lt.1 hlt⟩

/-- what is in a log stays there -/
theorem PolledAt.grows {cut cut' : Fin n → ℕ} {reads reads' : Fin n → ℕ → Option ℤ} (hp : PolledAt rs cut reads)
    (hp' : PolledAt rs cut' reads') (hle : ∀ i, cut i ≤ cut' i) (cmd : ℤ) :
    agreeing index cmd reads ⊆ agreeing index cmd reads' := by
  intro i hi
  rw [mem_agreeing, hp.iff_mem] at hi
  rw [mem_agreeing, hp'.iff_mem]
  exact (List.take_subset_take_left rs (hle i)) hi

theorem movedOn_cases (startTerm : ℤ) (terms : List (Option ℕ)) :
    movedOn startTerm terms = .ok false ∨ (movedOn startTerm terms = .ok true ∧ ∃ t, some t ∈ terms ∧ startTerm < t) ∨
      (movedOn startTerm terms = .error .noInstance ∧ none ∈ terms) := by
  induction terms with
  | nil => exact .inl rfl
  | cons term rest ih =>
    cases term with
    | none => exact .inr (.inr ⟨rfl, List.mem_cons_self⟩)
    | some t =>
      rw [movedOn]
      split_ifs with ht
      · exact .inr (.inl ⟨rfl, t, List.mem_cons_self, ht⟩)
      · rcases ih with h | ⟨h, t', ht', hlt⟩ | ⟨h, hnone⟩
        · exact .inl h
        · exact .inr (.inl ⟨h, t', List.mem_cons_of_mem _ ht', hlt⟩)
        · exact .inr (.inr ⟨h, List.mem_cons_of_mem _ hnone⟩)

/-- what `wait` can see in the terms of the servers -/
inductive Interrupted (startTerm : ℤ) (its : List (Iteration n)) : Except TestFailure ℤ → Prop
  | movedOn {it : Iteration n} {i : Fin n} {t : ℕ} : it ∈ its → it.terms i = some t → startTerm < t →
      Interrupted startTerm its (.ok (-1))
  | crashed {it : Iteration n} {i : Fin n} : it ∈ its → it.terms i = none →
      Interrupted startTerm its (.error .noInstance)

theorem Interrupted.cons (it : Iteration n) {r : Except TestFailure ℤ} (h : Interrupted startTerm its r) :
    Interrupted startTerm (it :: its) r := by
  cases h with
  | movedOn hit hi ht => exact .movedOn (List.mem_cons_of_mem _ hit) hi ht
  | crashed hit hi => exact .crashed (List.mem_cons_of_mem _ hit) hi

theorem wait_spec (index wanted : ℕ) (startTerm : ℤ) (ho : Orderly rs) {cut : Fin n → ℕ} (hlast : PolledAt rs cut last)
    (hits : ∀ it ∈ its, ∃ cut₁, PolledAt rs cut₁ it.reads ∧ ∀ i, cut₁ i ≤ cut i) :
    (∃ cmd, wait index wanted startTerm last its = .ok cmd ∧ wanted ≤ (agreeing index cmd last).card) ∨
    (0 ≤ startTerm ∧ Interrupted startTerm its (wait index wanted startTerm last its)) ∨
    ∃ nd < wanted, wait index wanted startTerm last its = .error (.tooFew nd index wanted) ∧
      ∀ cmd, (agreeing index cmd last).card < wanted := by
  have hend := Polled.decided ⟨cut, hlast⟩ ho index wanted
  induction its with
  | nil => exact hend.imp_right .inr
  | cons it its ih =>
    rw [List.forall_mem_cons] at hits
    obtain ⟨⟨cut₁, hit, -⟩, hits⟩ := hits
    obtain ⟨nd, cmd, hn, -, -⟩ := Polled.nCommitted ⟨cut₁, hit⟩ ho index
    have hrest := (ih hits).imp_right (Or.imp_left (And.imp_right (Interrupted.cons it)))
    rw [wait, hn]
    dsimp only
    split_ifs with hge hterm
    · exact hend.imp_right .inr
    · have hmem : ∀ {term : Option ℕ}, term ∈ (List.finRange n).map it.terms → ∃ i, it.terms i = term := by
        intro term hterm
        obtain ⟨i, -, hi⟩ := List.mem_map.1 hterm
        exact ⟨i, hi⟩
      rcases movedOn_cases startTerm ((List.finRange n).map it.terms) with h | ⟨h, t, ht, hlt⟩ | ⟨h, hnone⟩
      · rw [h]
        exact hrest
      · obtain ⟨i, hi⟩ := hmem ht
        rw [h]
        exact .inr (.inl ⟨by omega, .movedOn List.mem_cons_self hi hlt⟩)
      · obtain ⟨i, hi⟩ := hmem hnone
        rw [h]
        exact .inr (.inl ⟨by omega, .crashed List.mem_cons_self hi⟩)
    · exact hrest

end Wait

/-! ## In a run of the tested system -/

namespace Config

variable {E : Type} [DecidableEq E] {c : Config n ℤ E} {h : List (Event n ℤ)} {rs : List (Report n)}

/-- what is reported has been applied -/
theorem applied_of_agreeing (hseen : Seen (liveEvents h) rs) {reads : Fin n → ℕ → Option ℤ} (hp : Polled rs reads)
    {index : ℕ} {cmd : ℤ} {i : Fin n} (hi : i ∈ agreeing index cmd reads) :
    .applied i ⟨index, some cmd⟩ ∈ liveEvents h :=
  hseen.mem (hp.mem (mem_agreeing.1 hi))

/-- **What `one` returns is agreed.** In every run of the tested system in which no live instance forgets a vote, counts
a stale one or cuts its log without a conflict, and tests start only ints: if `one` returns an index, a server took the
command there by `Start`, as many servers as expected have applied it, and no live server ever applies another at this
index. `one` never finds two values at an index. It fails only if it sees agreement in no round in which a server took
the command. -/
theorem one_exact [NeZero n] (hr : (machine n ℤ E).Run (Tame faulty) c h)
    (hint : ∀ p t i command, .raft true (.started p t i command) ∈ h → command.isSome)
    (rs : List (Report n)) (hseen : Seen (liveEvents h) rs) (cmd : ℤ) (rounds : List (Submission n))
    (hasked : ∀ r ∈ rounds, ∀ i index, r.ask i = some index → ∃ t, .started i t index (some cmd) ∈ liveEvents h)
    (hpolls : ∀ r ∈ rounds, ∀ reads ∈ r.polls, Polled rs reads) (expectedServers : ℕ) (starts : Fin n) :
    (∃ index, one cmd expectedServers starts rounds = .ok index ∧
      (∃ i t, .started i t index (some cmd) ∈ liveEvents h) ∧
      (∃ who : Finset (Fin n), who.Nonempty ∧ expectedServers ≤ who.card ∧
        ∀ i ∈ who, .applied i ⟨index, some cmd⟩ ∈ liveEvents h) ∧
      ∀ i msg, .applied i msg ∈ liveEvents h → msg.index = index → msg.command = some cmd) ∨
    (one cmd expectedServers starts rounds = .error (.noAgreement cmd) ∧
      ∀ r ∈ rounds, ∀ i index, r.ask i = some index → ¬∃ reads ∈ r.polls, Agreed cmd expectedServers index reads) := by
  obtain ⟨s, hrun, -⟩ := run_simulated faulty_insensitive hr
  refine (one_spec (live_orderly hr hint hseen) hpolls cmd expectedServers starts).imp_left ?_
  rintro ⟨r, hmem, index, ⟨j, hask⟩, ⟨reads, hreads, ⟨⟨i₀, hi₀⟩, hcard⟩⟩, hok⟩
  have happlied : ∀ i ∈ agreeing index cmd reads, .applied i ⟨index, some cmd⟩ ∈ liveEvents h :=
    fun i hi => applied_of_agreeing hseen (hpolls r hmem reads hreads) hi
  refine ⟨index, hok, ⟨j, hasked r hmem j index hask⟩, ⟨agreeing index cmd reads, ⟨i₀, hi₀⟩, hcard, happlied⟩, ?_⟩
  intro i msg hmsg hidx
  exact run_applied_command (fun _ _ ha => faultless_of_avoids ha) hrun hmsg (happlied i₀ hi₀) hidx

/-- server 0 takes 7 at index 1; the logs are read before and after both servers have reported -/
def oneRound (logs : Logs 2) : Submission 2 where
  ask i := if i = 0 then some 1 else none
  once := by decide
  polls := [noLogs, logs]

theorem oneRound_polled {logs : Logs 2} (hlogs : checkAll noLogs twoReports = .ok logs) :
    ∀ r ∈ [oneRound logs], ∀ reads ∈ r.polls, Polled twoReports reads := by
  simp only [forall_eq, oneRound, List.mem_cons, List.not_mem_nil, or_false]
  rintro reads (rfl | rfl)
  · exact ⟨fun _ => 0, fun _ => noLogs, fun _ => rfl, rfl⟩
  · exact ⟨fun _ => 2, fun _ => reads, fun _ => hlogs, rfl⟩

/-- both servers have reported 7 -/
theorem agreeing_twoReports {logs : Logs 2} (hlogs : checkAll noLogs twoReports = .ok logs) :
    agreeing 1 7 logs = Finset.univ := by
  have hrec := (accepted_orderly hlogs).1
  refine Finset.eq_univ_iff_forall.2 fun i => mem_agreeing.2 ((hrec i 1 7).2 ?_)
  fin_cases i <;> simp [twoReports]

theorem one_exact_oneCommit : ∃ (c : Config 2 ℤ ℕ) (h : List (Event 2 ℤ)) (logs : Logs 2),
    (machine 2 ℤ ℕ).Run (Tame faulty) c h ∧ one 7 2 0 [oneRound logs] = .ok 1 ∧
    ∃ who : Finset (Fin 2), 2 ≤ who.card ∧ ∀ i ∈ who, .applied i ⟨1, some 7⟩ ∈ liveEvents h := by
  obtain ⟨c, h, hr, hint, hseen, hstarted, -⟩ := exists_oneCommit
  obtain ⟨logs, hlogs⟩ := (live_orderly hr hint hseen).accepted
  have hask : ∀ i index, (oneRound logs).ask i = some index → i = 0 ∧ index = 1 := by
    intro i index hi
    by_cases h0 : i = 0
    · exact ⟨h0, by simpa [oneRound, h0, eq_comm] using hi⟩
    · simp [oneRound, h0] at hi
  have hasked : ∀ r ∈ [oneRound logs], ∀ i index, r.ask i = some index →
      ∃ t, .started i t index (some 7) ∈ liveEvents h := by
    intro r hmem i index hi
    obtain rfl := List.mem_singleton.1 hmem
    obtain ⟨rfl, rfl⟩ := hask i index hi
    exact ⟨1, hstarted⟩
  rcases one_exact hr hint twoReports hseen 7 [oneRound logs] hasked (oneRound_polled hlogs) 2 0 with
    ⟨index, hok, -, ⟨who, -, hcard, hwho⟩, hall⟩ | ⟨-, hnot⟩
  · obtain rfl : 1 = index := by
      rcases one_spec (live_orderly hr hint hseen) (oneRound_polled hlogs) 7 2 0 with
        ⟨r, hmem, j, ⟨i, hi⟩, -, hj⟩ | ⟨hj, -⟩
      · obtain rfl := List.mem_singleton.1 hmem
        obtain ⟨-, rfl⟩ := hask i j hi
        exact Except.ok.inj (hj.symm.trans hok)
      · cases hj.symm.trans hok
    exact ⟨c, h, logs, hr, hok, who, hcard, hwho⟩
  · refine absurd ⟨logs, by simp [oneRound], ?_⟩ (hnot (oneRound logs) (by simp) 0 1 rfl)
    rw [Agreed, agreeing_twoReports hlogs]
    decide

/-- `GetState` returned the term `t` for server `i` at some time of the run, or found no instance of it -/
def TermRead (c : Config n ℤ E) (h : List (Event n ℤ)) (i : Fin n) (t : Option ℕ) : Prop :=
  ∃ c₁ h₁, (machine n ℤ E).Run (Tame faulty) c₁ h₁ ∧ (machine n ℤ E).Path (Tame faulty) c₁ h₁ c h ∧ c₁.termOf i = t

/-- **What `wait` returns is agreed.** In the same runs `wait` ends in one of four ways. It returns a command that as
many servers as wanted have applied at the index, and then no live server ever applies another there; it returns -1, and
some server was in a later term; it panics, and some server had no instance; or it fails, and fewer servers than wanted
had reported the index each time it looked. -/
theorem wait_exact (hr : (machine n ℤ E).Run (Tame faulty) c h)
    (hint : ∀ p t i command, .raft true (.started p t i command) ∈ h → command.isSome)
    (rs : List (Report n)) (hseen : Seen (liveEvents h) rs) (index wanted : ℕ) (startTerm : ℤ)
    (its : List (Iteration n)) (hterms : ∀ it ∈ its, ∀ i, TermRead c h i (it.terms i))
    {last : Fin n → ℕ → Option ℤ} {cut : Fin n → ℕ} (hlast : PolledAt rs cut last)
    (hits : ∀ it ∈ its, ∃ cut₁, PolledAt rs cut₁ it.reads ∧ ∀ i, cut₁ i ≤ cut i) :
    (∃ cmd, wait index wanted startTerm last its = .ok cmd ∧ ∃ who : Finset (Fin n), wanted ≤ who.card ∧
      (∀ i ∈ who, .applied i ⟨index, some cmd⟩ ∈ liveEvents h) ∧
      ∀ i msg, 0 < wanted → .applied i msg ∈ liveEvents h → msg.index = index → msg.command = some cmd) ∨
    (wait index wanted startTerm last its = .ok (-1) ∧ 0 ≤ startTerm ∧
      ∃ i t, TermRead c h i (some t) ∧ startTerm < t) ∨
    (wait index wanted startTerm last its = .error .noInstance ∧ 0 ≤ startTerm ∧ ∃ i, TermRead c h i none) ∨
    ∃ nd < wanted, wait index wanted startTerm last its = .error (.tooFew nd index wanted) ∧
      ∀ cmd, (agreeing index cmd last).card < wanted ∧ ∀ it ∈ its, (agreeing index cmd it.reads).card < wanted := by
  obtain ⟨s, hrun, -⟩ := run_simulated faulty_insensitive hr
  rcases wait_spec index wanted startTerm (live_orderly hr hint hseen) hlast hits with
    ⟨cmd, hok, hcard⟩ | ⟨hstart, hseen'⟩ | ⟨nd, hnd, hfail, hfew⟩
  · have happlied : ∀ i ∈ agreeing index cmd last, .applied i ⟨index, some cmd⟩ ∈ liveEvents h :=
      fun i hi => applied_of_agreeing hseen ⟨cut, hlast⟩ hi
    refine .inl ⟨cmd, hok, agreeing index cmd last, hcard, happlied, fun i msg hpos hmsg hidx => ?_⟩
    obtain ⟨i₀, hi₀⟩ := Finset.card_pos.1 (hpos.trans_le hcard)
    exact run_applied_command (fun _ _ ha => faultless_of_avoids ha) hrun hmsg (happlied i₀ hi₀) hidx
  · generalize wait index wanted startTerm last its = r at hseen' ⊢
    cases hseen' with
    | @movedOn it i t hit hi hlt => exact .inr (.inl ⟨rfl, hstart, i, t, hi ▸ hterms it hit i, hlt⟩)
    | @crashed it i hit hi => exact .inr (.inr (.inl ⟨rfl, hstart, i, hi ▸ hterms it hit i⟩))
  · refine .inr (.inr (.inr ⟨nd, hnd, hfail, fun cmd => ⟨hfew cmd, fun it hit => ?_⟩⟩))
    obtain ⟨cut₁, hreads, hle⟩ := hits it hit
    exact lt_of_le_of_lt (Finset.card_le_card (hreads.grows hlast hle cmd)) (hfew cmd)

/-- an iteration in which nothing has been reported, and one after both reports -/
def twoIterations (logs : Logs 2) : List (Iteration 2) := [⟨noLogs, fun _ => some 1⟩, ⟨logs, fun _ => some 1⟩]

theorem wait_exact_oneCommit : ∃ (c : Config 2 ℤ ℕ) (h : List (Event 2 ℤ)) (logs : Logs 2),
    (machine 2 ℤ ℕ).Run (Tame faulty) c h ∧ wait 1 2 1 logs (twoIterations logs) = .ok 7 ∧
    ∃ who : Finset (Fin 2), 2 ≤ who.card ∧ ∀ i ∈ who, .applied i ⟨1, some 7⟩ ∈ liveEvents h := by
  obtain ⟨c, h, hr, hint, hseen, -, hterm⟩ := exists_oneCommit
  obtain ⟨logs, hlogs⟩ := (live_orderly hr hint hseen).accepted
  have hlast : PolledAt twoReports (fun _ => 2) logs := ⟨fun _ => logs, fun _ => hlogs, rfl⟩
  have hits : ∀ it ∈ twoIterations logs, ∃ cut₁, PolledAt twoReports cut₁ it.reads ∧ ∀ i, cut₁ i ≤ 2 := by
    simp only [twoIterations, List.forall_mem_cons]
    exact ⟨⟨fun _ => 0, ⟨fun _ => noLogs, fun _ => rfl, rfl⟩, fun _ => Nat.zero_le 2⟩,
      ⟨fun _ => 2, hlast, fun _ => le_rfl⟩, nofun⟩
  have hread : ∀ i, TermRead c h i (some 1) := fun i => ⟨c, h, hr, .refl, hterm i⟩
  have hterms : ∀ it ∈ twoIterations logs, ∀ i, TermRead c h i (it.terms i) := by
    simp only [twoIterations, List.forall_mem_cons]
    exact ⟨hread, hread, nofun⟩
  -- nobody moves on, and nobody is crashed
  have hquiet : ∀ r, ¬Interrupted 1 (twoIterations logs) r := by
    intro r hr
    cases hr with
    | movedOn hit hi hlt | crashed hit hi =>
      simp only [twoIterations, List.mem_cons, List.not_mem_nil, or_false] at hit
      rcases hit with rfl | rfl <;> cases hi
      all_goals simp at hlt
  have hseven : wait 1 2 1 logs (twoIterations logs) = .ok 7 := by
    rcases wait_spec 1 2 1 (live_orderly hr hint hseen) hlast hits with ⟨cmd, hok, hcard⟩ | ⟨-, hr⟩ | ⟨nd, -, -, hfew⟩
    · obtain ⟨i, hi⟩ := Finset.card_pos.1 (Nat.lt_of_lt_of_le Nat.two_pos hcard)
      have hi' : i ∈ agreeing 1 7 logs := by rw [agreeing_twoReports hlogs]; exact Finset.mem_univ i
      rw [mem_agreeing] at hi hi'
      rw [hok, Option.some.inj (hi.symm.trans hi')]
    · exact absurd hr (hquiet _)
    · exact absurd (hfew 7) (by rw [agreeing_twoReports hlogs]; decide)
  rcases wait_exact hr hint twoReports hseen 1 2 1 (twoIterations logs) hterms hlast hits with
    ⟨cmd, hok, who, hcard, hwho, -⟩ | ⟨hok, -⟩ | ⟨hok, -⟩ | ⟨nd, -, hok, -⟩
  · obtain rfl := Except.ok.inj (hseven.symm.trans hok)
    exact ⟨c, h, logs, hr, hok, who, hcard, hwho⟩
  · cases hseven.symm.trans hok
  · cases hseven.symm.trans hok
  · cases hseven.symm.trans hok

end Config

end CS240.Raft
