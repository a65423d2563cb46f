/-
What the test harness concludes from what the servers report (`src/raft/config.go`).

Each instance has a goroutine that reads its applyCh. Under `cfg.mu` it compares a message with what every server has
reported at the same index, records it in `cfg.logs[i]`, and ends the process at the first error. The logs stay when a
server is crashed and started again. Messages of different servers reach the checker in any order.

- `checkAll_exact`: the checker is exact. It stops at no error exactly when all commands are ints, no two reports of one
  index differ, and no server skips an index.
- `nCommitted_exact`: `nCommitted`, which reads the logs one server at a time while the goroutines go on, counts the
  servers that have reported an index and finds no two values there.
- `checkOneLeader_unique`: what a round of `checkOneLeader` returns when no term has two leaders.
-/
import CS240.Raft.Node

namespace CS240.Raft

/-! ## The goroutine that reads applyCh -/

/-- `err_msg` -/
inductive ApplyError (n : ℕ) where
  | mismatch (index : ℕ) (server : Fin n) (command : ℤ) (other : Fin n) (old : ℤ)
  | outOfOrder (server : Fin n) (index : ℕ)
  | notInt
deriving DecidableEq, Repr

def ApplyError.text {n : ℕ} : ApplyError n → String
  | .mismatch index server command other old =>
    s!"apply error: commit index={index} server={server} {command} != server={other} {old}"
  | .outOfOrder server index => s!"apply error: server {server} apply out of order {index}"
  | .notInt => "apply error: committed command <nil> is not an int"

variable {n : ℕ}

/-- `cfg.logs` -/
abbrev Logs (n : ℕ) := Fin n → ℕ → Option ℤ

abbrev Report (n : ℕ) := Fin n × ApplyMsg ℤ

/-- the loop over `cfg.logs`: the last server with another value -/
def conflict (logs : Logs n) (i : Fin n) (index : ℕ) (v : ℤ) : Option (ApplyError n) :=
  (List.finRange n).foldl (fun err j =>
    match logs j index with
    | some old => if old ≠ v then some (.mismatch index i v j old) else err
    | none => err) none

/-- the body of the loop over applyCh of server `i` -/
def check (logs : Logs n) (i : Fin n) (m : ApplyMsg ℤ) : Logs n × Option (ApplyError n) :=
  match m.command with
  | none => (logs, some .notInt)
  | some v =>
    let err := conflict logs i m.index v
    let prevok := (logs i (m.index - 1)).isSome
    let logs := Function.update logs i (Function.update (logs i) m.index (some v))
    (logs, if m.index > 1 ∧ prevok = false then some (.outOfOrder i m.index) else err)

/-- the goroutines of all instances, in the order in which they get `cfg.mu`; `log.Fatalf` ends the process -/
def checkAll (logs : Logs n) : List (Report n) → Except (ApplyError n) (Logs n)
  | [] => .ok logs
  | (i, m) :: rest =>
    match check logs i m with
    | (logs, none) => checkAll logs rest
    | (_, some err) => .error err

/-- `cfg.logs` before the first report -/
def noLogs : Logs n := fun _ _ => none

section Checker

variable {logs logs' : Logs n} {pre rs : List (Report n)} {i : Fin n} {m : ApplyMsg ℤ} {index : ℕ} {v : ℤ}

theorem conflict_eq_none : conflict logs i index v = none ↔ ∀ j old, logs j index = some old → old = v := by
  have hfold : ∀ (js : List (Fin n)) (err : Option (ApplyError n)),
      js.foldl (fun err j =>
        match logs j index with
        | some old => if old ≠ v then some (.mismatch index i v j old) else err
        | none => err) err = none ↔ err = none ∧ ∀ j ∈ js, ∀ old, logs j index = some old → old = v := by
    intro js
    induction js with
    | nil => simp
    | cons j js ih =>
      intro err
      rw [List.foldl_cons, ih, List.forall_mem_cons]
      cases hj : logs j index with
      | none => simp
      | some old =>
        by_cases hv : old = v
        · simp [hv]
        · simp [hv]
  rw [conflict, hfold]
  simp

/-- the logs hold what was reported -/
def Recorded (logs : Logs n) (pre : List (Report n)) : Prop := ∀ i k v, logs i k = some v ↔ (i, ⟨k, some v⟩) ∈ pre

/-- a report that is no error after those of `pre` -/
structure Expected (pre : List (Report n)) (i : Fin n) (m : ApplyMsg ℤ) : Prop where
  int : m.command.isSome
  agrees : ∀ j m', (j, m') ∈ pre → m'.index = m.index → m'.command.isSome → m'.command = m.command
  next : 1 < m.index → ∃ m', (i, m') ∈ pre ∧ m'.index + 1 = m.index ∧ m'.command.isSome

theorem Recorded.isSome (hrec : Recorded logs pre) {k : ℕ} :
    (logs i k).isSome ↔ ∃ m', (i, m') ∈ pre ∧ m'.index = k ∧ m'.command.isSome := by
  rw [Option.isSome_iff_exists]
  constructor
  · rintro ⟨v, hv⟩
    exact ⟨⟨k, some v⟩, (hrec i k v).1 hv, rfl, rfl⟩
  · rintro ⟨⟨k', c⟩, hm, rfl, hc⟩
    obtain ⟨v, rfl⟩ := Option.isSome_iff_exists.1 hc
    exact ⟨v, (hrec i k' v).2 hm⟩

/-- the checker's verdict on one report -/
theorem check_expected (hrec : Recorded logs pre) : (check logs i m).2 = none ↔ Expected pre i m := by
  obtain ⟨index, command⟩ := m
  cases command with
  | none => exact ⟨nofun, fun h => by cases h.int⟩
  | some v =>
    have hprev : (logs i (index - 1)).isSome = true ↔ ∃ m', (i, m') ∈ pre ∧ m'.index = index - 1 ∧ m'.command.isSome :=
      hrec.isSome
    have hconf : conflict logs i index v = none ↔
        ∀ j m', (j, m') ∈ pre → m'.index = index → m'.command.isSome → m'.command = some v := by
      rw [conflict_eq_none]
      constructor
      · rintro h j ⟨k, c⟩ hm rfl hc
        obtain ⟨old, rfl⟩ := Option.isSome_iff_exists.1 hc
        rw [h j old ((hrec j k old).2 hm)]
      · intro h j old hold
        exact Option.some.inj (h j ⟨index, some old⟩ ((hrec j index old).1 hold) rfl rfl)
    simp only [check]
    split_ifs with hout
    · refine ⟨nofun, fun h => ?_⟩
      obtain ⟨m', hm', hidx, hc⟩ := h.next hout.1
      have := hprev.2 ⟨m', hm', by dsimp only at hidx; omega, hc⟩
      rw [hout.2] at this
      cases this
    · rw [hconf]
      refine ⟨fun h => ⟨rfl, h, fun hlt => ?_⟩, Expected.agrees⟩
      have hprevok : (logs i (index - 1)).isSome = true := by
        by_contra hno
        exact hout ⟨hlt, Bool.eq_false_of_not_eq_true hno⟩
      obtain ⟨m', hm', hidx, hc⟩ := hprev.1 hprevok
      exact ⟨m', hm', by dsimp only at hlt ⊢; omega, hc⟩

theorem check_recorded (hrec : Recorded logs pre) (he : Expected pre i m) :
    Recorded (check logs i m).1 (pre ++ [(i, m)]) := by
  obtain ⟨index, command⟩ := m
  obtain ⟨v, rfl⟩ := Option.isSome_iff_exists.1 he.int
  intro j k w
  simp only [check, List.mem_append, List.mem_singleton, Prod.mk.injEq, ApplyMsg.mk.injEq, Option.some.injEq]
  rw [Function.update_apply]
  split_ifs with hj
  · subst hj
    rw [Function.update_apply]
    split_ifs with hk
    · subst hk
      refine ⟨fun h => .inr ⟨rfl, rfl, (Option.some.inj h).symm⟩, fun h => ?_⟩
      rcases h with h | h
      · exact (he.agrees j _ h rfl rfl).symm
      · rw [h.2.2]
    · rw [hrec]
      exact ⟨.inl, fun h => h.resolve_right fun h => hk h.2.1⟩
  · rw [hrec]
    exact ⟨.inl, fun h => h.resolve_right fun h => hj h.1⟩

theorem checkAll_cons (r : Report n) (rest : List (Report n)) (herr : (check logs r.1 r.2).2 = none) :
    checkAll logs (r :: rest) = checkAll (check logs r.1 r.2).1 rest := by
  obtain ⟨i, m⟩ := r
  rcases hcheck : check logs i m with ⟨logs₁, err⟩
  rw [hcheck] at herr
  cases herr
  simp only [checkAll, hcheck]

/-- the first report that is not expected ends the process -/
theorem checkAll_error {r : Report n} {rest : List (Report n)} (herr : (check logs r.1 r.2).2 ≠ none) :
    checkAll logs (r :: rest) ≠ .ok logs' := by
  obtain ⟨i, m⟩ := r
  rcases hcheck : check logs i m with ⟨logs₁, _ | err⟩
  · rw [hcheck] at herr
    exact absurd rfl herr
  · simp only [checkAll, hcheck]
    nofun

theorem checkAll_ok (hrec : Recorded logs pre)
    (hexp : ∀ rs₁ i m rs₂, rs = rs₁ ++ (i, m) :: rs₂ → Expected (pre ++ rs₁) i m) :
    ∃ logs', checkAll logs rs = .ok logs' := by
  induction rs generalizing logs pre with
  | nil => exact ⟨logs, rfl⟩
  | cons r rest ih =>
    have hr : Expected pre r.1 r.2 := by
      have := hexp [] r.1 r.2 rest rfl
      rwa [List.append_nil] at this
    rw [checkAll_cons r rest ((check_expected hrec).2 hr)]
    refine ih (check_recorded hrec hr) fun rs₁ i m rs₂ heq => ?_
    rw [List.append_assoc]
    exact hexp (r :: rs₁) i m rs₂ (by rw [heq]; rfl)

theorem checkAll_recorded (hrec : Recorded logs pre) (hok : checkAll logs rs = .ok logs') :
    Recorded logs' (pre ++ rs) ∧ ∀ rs₁ i m rs₂, rs = rs₁ ++ (i, m) :: rs₂ → Expected (pre ++ rs₁) i m := by
  induction rs generalizing logs pre with
  | nil =>
    cases hok
    refine ⟨by rwa [List.append_nil], fun rs₁ i m rs₂ heq => ?_⟩
    cases rs₁ <;> cases heq
  | cons r rest ih =>
    have herr : (check logs r.1 r.2).2 = none := by
      by_contra herr
      exact checkAll_error herr hok
    have hr := (check_expected hrec).1 herr
    rw [checkAll_cons r rest herr] at hok
    obtain ⟨hrec', hrest⟩ := ih (check_recorded hrec hr) hok
    rw [List.append_assoc] at hrec'
    refine ⟨hrec', fun rs₁ i m rs₂ heq => ?_⟩
    cases rs₁ with
    | nil =>
      cases heq
      rwa [List.append_nil]
    | cons r₁ rs₁ =>
      cases heq
      have := hrest rs₁ i m rs₂ rfl
      rwa [List.append_assoc] at this

theorem noLogs_recorded : Recorded (noLogs : Logs n) [] := fun _ _ _ => ⟨nofun, nofun⟩

/-- the reports a checker accepts: ints, one value per index, no gaps -/
structure Orderly (rs : List (Report n)) : Prop where
  ints : ∀ r ∈ rs, r.2.command.isSome
  agree : ∀ r ∈ rs, ∀ r' ∈ rs, r.2.index = r'.2.index → r.2.command = r'.2.command
  next : ∀ rs₁ i m rs₂, rs = rs₁ ++ (i, m) :: rs₂ → 1 < m.index → ∃ m', (i, m') ∈ rs₁ ∧ m'.index + 1 = m.index

theorem Orderly.expected (ho : Orderly rs) {rs₁ rs₂ : List (Report n)} (heq : rs = rs₁ ++ (i, m) :: rs₂) :
    Expected rs₁ i m := by
  have hbefore : ∀ r ∈ rs₁, r ∈ rs := fun r hr => heq ▸ List.mem_append_left _ hr
  have hself : (i, m) ∈ rs := heq ▸ List.mem_append_right _ List.mem_cons_self
  refine ⟨ho.ints _ hself, fun j m' hm' hidx _ => ho.agree _ (hbefore _ hm') _ hself hidx, fun hlt => ?_⟩
  obtain ⟨m', hm', hidx⟩ := ho.next rs₁ i m rs₂ heq hlt
  exact ⟨m', hm', hidx, ho.ints _ (hbefore _ hm')⟩

theorem orderly_of_expected (hexp : ∀ rs₁ i m rs₂, rs = rs₁ ++ (i, m) :: rs₂ → Expected rs₁ i m) : Orderly rs := by
  have hint : ∀ r ∈ rs, r.2.command.isSome := by
    intro r hr
    obtain ⟨rs₁, rs₂, heq⟩ := List.append_of_mem hr
    exact (hexp rs₁ r.1 r.2 rs₂ heq).int
  -- of two reports, the later one was compared with the earlier one
  have hlater : ∀ rs₁ r rs₂ r', rs = rs₁ ++ r :: rs₂ → r' ∈ rs₁ → r'.2.index = r.2.index →
      r'.2.command = r.2.command := by
    intro rs₁ r rs₂ r' heq hr' hidx
    have hmem : r' ∈ rs := heq ▸ List.mem_append_left _ hr'
    exact (hexp rs₁ r.1 r.2 rs₂ heq).agrees r'.1 r'.2 hr' hidx (hint r' hmem)
  refine ⟨hint, fun r hr r' hr' hidx => ?_, fun rs₁ i m rs₂ heq hlt => ?_⟩
  · obtain ⟨rs₁, rs₂, heq⟩ := List.append_of_mem hr
    rw [heq, List.mem_append, List.mem_cons] at hr'
    rcases hr' with hr' | rfl | hr'
    · exact (hlater rs₁ r rs₂ r' heq hr' hidx.symm).symm
    · rfl
    · obtain ⟨a, b, rfl⟩ := List.append_of_mem hr'
      refine hlater (rs₁ ++ r :: a) r' b r (by rw [heq]; simp) ?_ hidx
      exact List.mem_append_right _ List.mem_cons_self
  · obtain ⟨m', hm', hidx, -⟩ := (hexp rs₁ i m rs₂ heq).next hlt
    exact ⟨m', hm', hidx⟩

/-- **The checker is exact**: the process goes on as long as all commands are ints, no two reports of one index differ,
whichever servers they are from, and every server reports an index only after the one before it; and it ends as soon as
one of these fails. -/
theorem checkAll_exact (rs : List (Report n)) : (∃ logs, checkAll noLogs rs = .ok logs) ↔
    (∀ r ∈ rs, r.2.command.isSome) ∧
    (∀ r ∈ rs, ∀ r' ∈ rs, r.2.index = r'.2.index → r.2.command = r'.2.command) ∧
    ∀ rs₁ i m rs₂, rs = rs₁ ++ (i, m) :: rs₂ → 1 < m.index → ∃ m', (i, m') ∈ rs₁ ∧ m'.index + 1 = m.index := by
  constructor
  · rintro ⟨logs, hok⟩
    have ho := orderly_of_expected (checkAll_recorded noLogs_recorded hok).2
    exact ⟨ho.ints, ho.agree, ho.next⟩
  · rintro ⟨h1, h2, h3⟩
    have ho : Orderly rs := ⟨h1, h2, h3⟩
    exact checkAll_ok noLogs_recorded fun rs₁ i m rs₂ heq => ho.expected heq

theorem Orderly.accepted (ho : Orderly rs) : ∃ logs, checkAll noLogs rs = .ok logs :=
  checkAll_ok noLogs_recorded fun _ _ _ _ heq => ho.expected heq

theorem accepted_orderly (hok : checkAll noLogs rs = .ok logs) : Recorded logs rs ∧ Orderly rs :=
  ⟨(checkAll_recorded noLogs_recorded hok).1, orderly_of_expected (checkAll_recorded noLogs_recorded hok).2⟩

/-! ## nCommitted -/

/-- the loop of `nCommitted`, over what it reads in the log of each server; none is `Fatalf`. `applyErr` is not looked
at: it is set after `log.Fatalf`. -/
def nCommitted (index : ℕ) (reads : Fin n → ℕ → Option ℤ) : Option (ℕ × ℤ) :=
  (List.finRange n).foldlM (fun (count, cmd) i =>
    match reads i index with
    | none => some (count, cmd)
    | some cmd1 => if count > 0 ∧ cmd ≠ cmd1 then none else some (count + 1, cmd1)) (0, -1)

theorem nCommitted_counts (reads : Fin n → ℕ → Option ℤ) (index : ℕ) {w : ℤ}
    (hw : ∀ i v, reads i index = some v → v = w) :
    ∃ cmd, nCommitted index reads = some ((List.finRange n).countP fun i => (reads i index).isSome, cmd) ∧
      ((∃ i, (reads i index).isSome) → cmd = w) := by
  have hloop : ∀ (js : List (Fin n)) (count : ℕ) (cmd : ℤ), (0 < count → cmd = w) →
      ∃ cmd', js.foldlM (fun (count, cmd) i =>
        match reads i index with
        | none => some (count, cmd)
        | some cmd1 => if count > 0 ∧ cmd ≠ cmd1 then none else some (count + 1, cmd1)) (count, cmd) =
          some (count + js.countP (fun i => (reads i index).isSome), cmd') ∧
        (0 < count ∨ (∃ i ∈ js, (reads i index).isSome) → cmd' = w) := by
    intro js
    induction js with
    | nil => exact fun count cmd h => ⟨cmd, rfl, by simpa using h⟩
    | cons i js ih =>
      intro count cmd hcmd
      rw [List.foldlM_cons]
      cases hi : reads i index with
      | none =>
        obtain ⟨cmd', hfold, hcmd'⟩ := ih count cmd hcmd
        exact ⟨cmd', by simpa [hi] using hfold, by simpa [hi] using hcmd'⟩
      | some v =>
        obtain rfl := hw i v hi
        have hsame : ¬(count > 0 ∧ cmd ≠ v) := fun h => h.2 (hcmd h.1)
        obtain ⟨cmd', hfold, hcmd'⟩ := ih (count + 1) v fun _ => rfl
        refine ⟨cmd', ?_, fun _ => hcmd' (.inl (Nat.succ_pos _))⟩
        simp only [if_neg hsame, Option.bind_eq_bind, Option.bind_some, hfold, List.countP_cons, hi, Option.isSome_some,
          if_true]
        congr 2
        omega
  obtain ⟨cmd, hfold, hcmd⟩ := hloop (List.finRange n) 0 (-1) nofun
  refine ⟨cmd, by simpa [nCommitted] using hfold, fun ⟨i, hi⟩ => hcmd (.inr ⟨i, List.mem_finRange i, hi⟩)⟩

/-- **nCommitted counts reports**: it reads the log of one server after the other, with any number of further reports
accepted in between, and returns how many servers had reported the index when it looked at them, with the one command
that any server ever reports there. -/
theorem nCommitted_exact (hok : ∃ logs, checkAll noLogs rs = .ok logs) (cut : Fin n → ℕ) (logs : Fin n → Logs n)
    (hlogs : ∀ i, checkAll noLogs (rs.take (cut i)) = .ok (logs i)) (index : ℕ) :
    ∃ cmd, nCommitted index (fun i => logs i i) =
        some ((List.finRange n).countP fun i => (rs.take (cut i)).any fun r => r.1 = i ∧ r.2.index = index, cmd) ∧
      ((∃ i, ∃ r ∈ rs.take (cut i), r.1 = i ∧ r.2.index = index) →
        ∀ r ∈ rs, r.2.index = index → r.2.command = some cmd) := by
  obtain ⟨_, hok⟩ := hok
  have ho := (accepted_orderly hok).2
  have hread : ∀ i, (logs i i index).isSome = true ↔ ∃ r ∈ rs.take (cut i), r.1 = i ∧ r.2.index = index := by
    intro i
    rw [(accepted_orderly (hlogs i)).1.isSome]
    constructor
    · rintro ⟨m, hm, hidx, -⟩
      exact ⟨(i, m), hm, rfl, hidx⟩
    · rintro ⟨⟨j, m⟩, hm, rfl, hidx⟩
      exact ⟨m, hm, hidx, ho.ints _ (List.mem_of_mem_take hm)⟩
  have hval : ∀ i v, logs i i index = some v → ∀ r ∈ rs, r.2.index = index → r.2.command = some v := by
    intro i v hv r hr hidx
    have hm := ((accepted_orderly (hlogs i)).1 i index v).1 hv
    exact ho.agree r hr _ (List.mem_of_mem_take hm) hidx
  have hcount : (fun i => (logs i i index).isSome) =
      fun i => (rs.take (cut i)).any fun r => r.1 = i ∧ r.2.index = index := by
    funext i
    rw [Bool.eq_iff_iff, hread]
    simp
  rw [← hcount]
  -- the value of the index, when some server has one
  by_cases hsome : ∃ i, (logs i i index).isSome
  · obtain ⟨i, hi⟩ := hsome
    obtain ⟨w, hw⟩ := Option.isSome_iff_exists.1 hi
    have hmem := List.mem_of_mem_take (((accepted_orderly (hlogs i)).1 i index w).1 hw)
    obtain ⟨cmd, hn, hcmd⟩ := nCommitted_counts (fun i => logs i i) index (w := w) fun j v hv =>
      Option.some.inj ((hval j v hv _ hmem rfl).symm)
    refine ⟨cmd, hn, fun _ r hr hidx => ?_⟩
    rw [hcmd ⟨i, hi⟩]
    exact hval i w hw r hr hidx
  · obtain ⟨cmd, hn, -⟩ := nCommitted_counts (fun i => logs i i) index (w := -1) fun j v hv =>
      absurd ⟨j, by rw [hv]; rfl⟩ hsome
    exact ⟨cmd, hn, fun ⟨i, hi⟩ => absurd ⟨i, (hread i).2 hi⟩ hsome⟩

/-- both servers report 7 at index 1, and the second report comes while the first server's log has been read -/
theorem nCommitted_exact_twoReports : ∃ (logs : Fin 2 → Logs 2) (cmd : ℤ),
    checkAll noLogs [(0, ⟨1, some 7⟩)] = .ok (logs 0) ∧
    checkAll noLogs [(0, ⟨1, some 7⟩), (1, ⟨1, some 7⟩)] = .ok (logs 1) ∧
    nCommitted 1 (fun i => logs i i) = some (2, cmd) ∧ some 7 = some cmd := by
  have ho : Orderly ([(0, ⟨1, some 7⟩), (1, ⟨1, some 7⟩)] : List (Report 2)) := by
    refine ⟨by decide, by decide, fun rs₁ i m rs₂ heq hlt => ?_⟩
    have hm : (i, m) ∈ ([(0, ⟨1, some 7⟩), (1, ⟨1, some 7⟩)] : List (Report 2)) :=
      heq ▸ List.mem_append_right _ List.mem_cons_self
    simp only [List.mem_cons, Prod.mk.injEq, List.not_mem_nil, or_false] at hm
    rcases hm with ⟨-, rfl⟩ | ⟨-, rfl⟩ <;> simp at hlt
  obtain ⟨logs₁, h1⟩ := ho.accepted
  let logs : Fin 2 → Logs 2 := fun i => if i = 0 then (check noLogs 0 ⟨1, some 7⟩).1 else logs₁
  have hlogs : ∀ i : Fin 2, checkAll noLogs (List.take (i + 1) [(0, ⟨1, some 7⟩), (1, ⟨1, some 7⟩)]) =
      .ok (logs i) := by
    intro i
    fin_cases i
    · rfl
    · exact h1
  obtain ⟨cmd, hn, hcmd⟩ := nCommitted_exact ⟨_, h1⟩ (fun i => i + 1) logs hlogs 1
  have hall := hcmd ⟨0, (0, ⟨1, some 7⟩), by simp, rfl, rfl⟩ (0, ⟨1, some 7⟩) (by simp) rfl
  exact ⟨logs, cmd, rfl, h1, hn, hall⟩

end Checker

/-! ## checkOneLeader -/

def getState {Cmd : Type} (rf : Raft n Cmd) : ℕ × Bool := (rf.term, rf.state = .leader)

section Leaders

variable {Cmd : Type} {reads : Fin n → Option (Raft n Cmd)}

/-- the leaders a round of `checkOneLeader` finds, with their terms; a server that is not connected is not asked -/
def leaders (reads : Fin n → Option (Raft n Cmd)) : List (ℕ × Fin n) :=
  (List.finRange n).filterMap fun i => (reads i).bind fun rf =>
    match getState rf with
    | (t, true) => some (t, i)
    | (_, false) => none

/-- a round of `checkOneLeader`: none is `Fatalf` because a term has two leaders; without a leader there is another
round -/
def checkOneLeader (reads : Fin n → Option (Raft n Cmd)) : Option (Option (Fin n)) :=
  let leaders := leaders reads
  if leaders.any fun l => (leaders.filter fun l' => l'.1 = l.1).length > 1 then none
  else
    some <| (leaders.map Prod.fst).max?.bind fun lastTermWithLeader =>
      (leaders.find? fun l => l.1 = lastTermWithLeader).map Prod.snd

theorem mem_leaders {t : ℕ} {i : Fin n} :
    (t, i) ∈ leaders reads ↔ ∃ rf, reads i = some rf ∧ rf.state = .leader ∧ rf.term = t := by
  simp only [leaders, List.mem_filterMap, List.mem_finRange, true_and, Option.bind_eq_some_iff]
  constructor
  · rintro ⟨j, rf, hj, heq⟩
    split at heq
    · rename_i t' hst
      cases heq
      simp only [getState, Prod.mk.injEq, decide_eq_true_eq] at hst
      exact ⟨rf, hj, hst.2, hst.1⟩
    · cases heq
  · rintro ⟨rf, hi, hst, rfl⟩
    exact ⟨i, rf, hi, by simp [getState, hst]⟩

theorem leaders_nodup : (leaders reads).Nodup := by
  refine (List.nodup_finRange n).filterMap fun i j l hi hj => ?_
  simp only [Option.mem_def, Option.bind_eq_some_iff] at hi hj
  obtain ⟨rf, -, hi⟩ := hi
  obtain ⟨rf', -, hj⟩ := hj
  split at hi <;> cases hi
  split at hj <;> cases hj
  rfl

/-- when no two servers lead in one term, a round does not fail, and its leader is the one of the greatest term -/
theorem checkOneLeader_unique
    (hone : ∀ i j rf rf', reads i = some rf → reads j = some rf' → rf.state = .leader → rf'.state = .leader →
      rf.term = rf'.term → i = j) :
    ∃ r, checkOneLeader reads = some r ∧ ∀ i, r = some i → ∃ rf, reads i = some rf ∧ rf.state = .leader ∧
      ∀ j rf', reads j = some rf' → rf'.state = .leader → j ≠ i → rf'.term < rf.term := by
  have hsame : ∀ t i j, (t, i) ∈ leaders reads → (t, j) ∈ leaders reads → i = j := by
    intro t i j hi hj
    obtain ⟨rf, hrf, hst, rfl⟩ := mem_leaders.1 hi
    obtain ⟨rf', hrf', hst', heq⟩ := mem_leaders.1 hj
    exact hone i j rf rf' hrf hrf' hst hst' heq.symm
  have hno : ((leaders reads).any fun l => ((leaders reads).filter fun l' => l'.1 = l.1).length > 1) = false := by
    rw [List.any_eq_false]
    rintro ⟨t, i⟩ hi
    rw [decide_eq_true_eq, not_lt, ← List.toFinset_card_of_nodup (leaders_nodup.filter _), Finset.card_le_one]
    rintro ⟨t₁, a⟩ ha ⟨t₂, b⟩ hb
    simp only [List.mem_toFinset, List.mem_filter, decide_eq_true_eq] at ha hb
    obtain ⟨ha, rfl⟩ := ha
    obtain ⟨hb, rfl⟩ := hb
    rw [hsame _ _ _ ha hb]
  unfold checkOneLeader
  dsimp only
  rw [if_neg (by simp [hno])]
  refine ⟨_, rfl, fun i hi => ?_⟩
  obtain ⟨last, hlast, hfind⟩ := Option.bind_eq_some_iff.1 hi
  obtain ⟨⟨t, j⟩, hl, rfl⟩ := Option.map_eq_some_iff.1 hfind
  have hmem := List.mem_of_find?_eq_some hl
  have hterm : t = last := by simpa using List.find?_some hl
  subst hterm
  obtain ⟨rf, hrf, hst, rfl⟩ := mem_leaders.1 hmem
  refine ⟨rf, hrf, hst, fun k rf' hrf' hst' hne => ?_⟩
  have hk : (rf'.term, k) ∈ leaders reads := mem_leaders.2 ⟨rf', hrf', hst', rfl⟩
  have hle : rf'.term ≤ rf.term := (List.max?_eq_some_iff.1 hlast).2 _ (List.mem_map.2 ⟨_, hk, rfl⟩)
  refine lt_of_le_of_ne hle fun heq => hne ?_
  exact hone k j rf' rf hrf' hrf hst' hst heq

end Leaders

end CS240.Raft
