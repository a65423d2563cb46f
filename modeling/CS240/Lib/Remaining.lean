/-
How much a batch of file tasks has left to do.

`Batch.remaining ts d₀ b` counts the steps that are left when no attempt fails any more: the start of an attempt, its
reads, the decision what to write, the writes and the end. Each of these steps takes exactly one away
(`remaining_start`, `Sound.remaining_work`, `remaining_finish`), and an attempt under way can always take its next one
(`Sound.can_go`).
-/
import CS240.Lib.Attempts

namespace CS240.Lib.Batch

variable {N B ω : Type} {ts : List (FileTask N B)} {t : FileTask N B} {d₀ : Disk N B} {b b' : Batch N B ω} {i : ℕ}
  {who : ω}

/-- the steps that an attempt has left -/
def left (t : FileTask N B) (d₀ : Disk N B) : Attempt N B ω → ℕ
  | .waiting => t.reads.length + ((t.plan d₀).getD []).length + 3
  | .reading _ answers => t.reads.length - answers.length + ((t.plan d₀).getD []).length + 2
  | .writing _ rest => rest.length + 1
  | .done => 0

def remaining (ts : List (FileTask N B)) (d₀ : Disk N B) (b : Batch N B ω) : ℕ :=
  ∑ i ∈ Finset.range ts.length, (ts[i]?).elim 0 fun t => left t d₀ (b.attempt i)

theorem remaining_set (d₀ : Disk N B) (b : Batch N B ω) (hi : ts[i]? = some t) (a : Attempt N B ω) :
    (b.set i a).remaining ts d₀ + left t d₀ (b.attempt i) = b.remaining ts d₀ + left t d₀ a := by
  have hlt : i < ts.length := (List.getElem?_eq_some_iff.1 hi).1
  have hsum := b.sum_set hlt a fun j a => (ts[j]?).elim 0 fun t => left t d₀ a
  simpa only [remaining, hi, Option.elim_some] using hsum

theorem remaining_done (hdone : ∀ i < ts.length, b.attempt i = .done) : b.remaining ts d₀ = 0 := by
  refine Finset.sum_eq_zero fun i hi => ?_
  rw [hdone i (Finset.mem_range.1 hi)]
  cases ts[i]? <;> rfl

theorem remaining_start (hs : b.start ts i who = some b') : b'.remaining ts d₀ + 1 = b.remaining ts d₀ := by
  obtain ⟨hlt, hwaiting, rfl⟩ := start_some hs
  have hset := remaining_set d₀ b (List.getElem?_eq_getElem hlt) (.reading who [])
  rw [hwaiting] at hset
  simp only [left, List.length_nil, Nat.sub_zero] at hset
  omega

theorem remaining_finish (hi : ts[i]? = some t) (hf : b.finish i = some (b', who)) :
    b'.remaining ts d₀ + 1 = b.remaining ts d₀ := by
  obtain ⟨hwriting, rfl⟩ := finish_some hf
  have hset := remaining_set d₀ b hi .done
  rw [hwriting] at hset
  simpa [left] using hset

variable [DecidableEq N]

theorem Sound.remaining_work (hb : Sound ts d₀ b) (hw : b.work ts i = some b') :
    b'.remaining ts d₀ + 1 = b.remaining ts d₀ := by
  unfold Batch.work at hw
  split at hw
  · rename_i t who answers ht hi
    split at hw
    · rename_i n hn
      cases hw
      have hlt := (List.getElem?_eq_some_iff.1 hn).1
      have hset := remaining_set d₀ b ht (.reading who (answers ++ [b.disk n]))
      rw [hi] at hset
      simp only [left, List.length_append, List.length_singleton] at hset
      omega
    · rename_i hn
      obtain ⟨ws, hws, rfl⟩ := Option.map_eq_some_iff.1 hw
      have hplan : t.plan d₀ = some ws := by
        rw [FileTask.plan, ← hb.answers_eq ht hi hn]
        exact hws
      have hlen : t.reads.length ≤ answers.length := List.getElem?_eq_none_iff.1 hn
      have hset := remaining_set d₀ b ht (.writing who ws)
      rw [hi] at hset
      simp only [left, hplan, Option.getD_some] at hset
      omega
  · rename_i t who w ws ht hi
    cases hw
    have hset := remaining_set d₀ b ht (.writing who ws)
    rw [hi] at hset
    simp only [left, List.length_cons] at hset
    show (b.set i (.writing who ws)).remaining ts d₀ + 1 = _
    omega
  · cases hw

/-- an attempt under way can take its next step -/
theorem Sound.can_go (hb : Sound ts d₀ b) (ht : ts[i]? = some t) (hplan : (t.plan d₀).isSome)
    (hwho : (b.attempt i).who = some who) : (b.work ts i).isSome ∨ (b.finish i).isSome := by
  cases hi : b.attempt i with
  | waiting | done => rw [hi] at hwho; cases hwho
  | reading w answers =>
    left
    cases hn : t.reads[answers.length]? with
    | some n => simp [Batch.work, ht, hi, hn]
    | none =>
      have hwrites : t.writes answers = t.plan d₀ := by rw [FileTask.plan, ← hb.answers_eq ht hi hn]
      simpa [Batch.work, ht, hi, hn, hwrites] using hplan
  | writing w rest =>
    cases rest with
    | nil => exact .inr (by simp [Batch.finish, hi])
    | cons x rest => exact .inl (by simp [Batch.work, ht, hi])

end CS240.Lib.Batch
