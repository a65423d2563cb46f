/-
Maximal runs in a list: stretches of elements that satisfy `p`, as long as they can be.

`spans p xs` finds them in one pass, with the position where the open run began. It lists all of them, each once, from
left to right (`mem_spans`, `spansFrom_pairwise`), so that they can be counted in the list or by their positions
(`countP_spans`).
-/
import Mathlib.Tactic
import Mathlib.Data.Set.Card

namespace CS240.Lib

variable {α : Type} {p : α → Bool} {xs : List α} {i j : ℕ}

def holdsAt (p : α → Bool) (xs : List α) (k : ℕ) : Bool := xs[k]?.any p

/-- a maximal run from position `i` up to, not including, position `j` -/
structure IsRun (p : α → Bool) (xs : List α) (i j : ℕ) : Prop where
  nonempty : i < j
  inside : ∀ k, i ≤ k → k < j → holdsAt p xs k
  left : ∀ k, k + 1 = i → ¬holdsAt p xs k
  right : ¬holdsAt p xs j

theorem lt_length_of_holdsAt {k : ℕ} (hk : holdsAt p xs k) : k < xs.length := by
  by_contra hlt
  rw [holdsAt, List.getElem?_eq_none (not_lt.1 hlt)] at hk
  cases hk

theorem IsRun.le_length (hr : IsRun p xs i j) : j ≤ xs.length := by
  have hlast := lt_length_of_holdsAt (hr.inside (j - 1) (by have := hr.nonempty; omega) (by have := hr.nonempty; omega))
  omega

/-- where a run ends determines where it begins -/
theorem IsRun.start_unique {i' : ℕ} (hr : IsRun p xs i j) (hr' : IsRun p xs i' j) : i = i' := by
  have hle : ∀ {a b : ℕ}, IsRun p xs a j → IsRun p xs b j → ¬a < b := by
    intro a b ha hb hab
    have := hb.nonempty
    exact hb.left (b - 1) (by omega) (ha.inside (b - 1) (by omega) (by omega))
  have := hle hr hr'
  have := hle hr' hr
  omega

/-- the pass from position `i` on; `start` is where the open run began -/
def spansFrom (p : α → Bool) : Option ℕ → ℕ → List α → List (ℕ × ℕ)
  | some a, i, [] => [(a, i)]
  | none, _, [] => []
  | start, i, x :: xs =>
    if p x then spansFrom p (start.or (some i)) (i + 1) xs
    else
      match start with
      | some a => (a, i) :: spansFrom p none (i + 1) xs
      | none => spansFrom p none (i + 1) xs

def spans (p : α → Bool) (xs : List α) : List (ℕ × ℕ) := spansFrom p none 0 xs

section Step

variable {x : α} {a : ℕ}

theorem spansFrom_of_holds (hx : p x) (start : Option ℕ) :
    spansFrom p start i (x :: xs) = spansFrom p (start.or (some i)) (i + 1) xs := by
  cases start <;> simp [spansFrom, hx]

theorem spansFrom_closes (hx : ¬p x) : spansFrom p (some a) i (x :: xs) = (a, i) :: spansFrom p none (i + 1) xs := by
  simp [spansFrom, hx]

theorem spansFrom_skips (hx : ¬p x) : spansFrom p none i (x :: xs) = spansFrom p none (i + 1) xs := by
  simp [spansFrom, hx]

end Step

/-- what is known at position `i`: an open run began at `a`, or none is open -/
def Open (p : α → Bool) (xs : List α) (i : ℕ) : Option ℕ → Prop
  | some a => a < i ∧ (∀ k, a ≤ k → k < i → holdsAt p xs k) ∧ ∀ k, k + 1 = a → ¬holdsAt p xs k
  | none => ∀ k, k + 1 = i → ¬holdsAt p xs k

theorem Open.isRun {a : ℕ} (ho : Open p xs i (some a)) (hi : ¬holdsAt p xs i) : IsRun p xs a i :=
  ⟨ho.1, ho.2.1, ho.2.2, hi⟩

/-- no run ends where none is open -/
theorem Open.ne_end {b e : ℕ} (ho : Open p xs i none) (hr : IsRun p xs b e) : i ≠ e := by
  rintro rfl
  have := hr.nonempty
  exact ho (i - 1) (by omega) (hr.inside (i - 1) (by omega) (by omega))

theorem Open.succ {start : Option ℕ} (ho : Open p xs i start) (hi : holdsAt p xs i) :
    Open p xs (i + 1) (start.or (some i)) := by
  have hlast : ∀ {a : ℕ}, (∀ k, a ≤ k → k < i → holdsAt p xs k) → ∀ k, a ≤ k → k < i + 1 → holdsAt p xs k := by
    intro a ha k hak hk
    rcases Nat.lt_or_eq_of_le (Nat.le_of_lt_succ hk) with hlt | rfl
    · exact ha k hak hlt
    · exact hi
  cases start with
  | some a => exact ⟨Nat.lt_succ_of_lt ho.1, hlast ho.2.1, ho.2.2⟩
  | none => exact ⟨Nat.lt_succ_self i, hlast fun k hk hlt => absurd hlt (not_lt.2 hk), ho⟩

section Later

variable {b e : ℕ}

/-- a run that ends at `i` is the only one -/
theorem IsRun.end_or_later {a : ℕ} (hr : IsRun p xs a i) :
    (IsRun p xs b e ∧ i ≤ e) ↔ (b = a ∧ e = i) ∨ (IsRun p xs b e ∧ i + 1 ≤ e) := by
  constructor
  · rintro ⟨hq, hle⟩
    rcases Nat.lt_or_eq_of_le hle with hlt | rfl
    · exact .inr ⟨hq, hlt⟩
    · exact .inl ⟨hq.start_unique hr, rfl⟩
  · rintro (⟨rfl, rfl⟩ | ⟨hq, hle⟩)
    · exact ⟨hr, le_rfl⟩
    · exact ⟨hq, Nat.le_of_succ_le hle⟩

/-- nothing changes where no run ends -/
theorem later_iff (hne : IsRun p xs b e → i ≠ e) : (IsRun p xs b e ∧ i ≤ e) ↔ (IsRun p xs b e ∧ i + 1 ≤ e) :=
  and_congr_right fun hq => ⟨fun hle => lt_of_le_of_ne hle (hne hq), Nat.le_of_succ_le⟩

theorem not_later (hlen : xs.length ≤ i) : ¬(IsRun p xs b e ∧ i + 1 ≤ e) :=
  fun ⟨hq, hle⟩ => absurd (hq.le_length.trans hlen) (not_le.2 hle)

/-- the pass from position `i` on finds the runs that end there or later -/
theorem mem_spansFrom {start : Option ℕ} {rest : List α} (hrest : xs.drop i = rest) (ho : Open p xs i start) :
    (b, e) ∈ spansFrom p start i rest ↔ IsRun p xs b e ∧ i ≤ e := by
  induction rest generalizing i start with
  | nil =>
    have hlen : xs.length ≤ i := List.drop_eq_nil_iff.1 hrest
    have hi : ¬holdsAt p xs i := fun h => absurd (lt_length_of_holdsAt h) (not_lt.2 hlen)
    cases start with
    | some a =>
      rw [(ho.isRun hi).end_or_later, or_iff_left (not_later hlen), spansFrom, List.mem_singleton, Prod.mk.injEq]
    | none =>
      rw [later_iff ho.ne_end]
      exact iff_of_false List.not_mem_nil (not_later hlen)
  | cons x rest ih =>
    have hx : xs[i]? = some x := by rw [← List.head?_drop, hrest]; rfl
    have hrest' : xs.drop (i + 1) = rest := by rw [← List.tail_drop, hrest]; rfl
    by_cases hpx : p x
    · have hi : holdsAt p xs i := by rw [holdsAt, hx]; exact hpx
      rw [spansFrom_of_holds hpx, ih hrest' (ho.succ hi)]
      refine (later_iff ?_).symm
      rintro hq rfl
      exact hq.right hi
    · have hi : ¬holdsAt p xs i := by rw [holdsAt, hx]; exact hpx
      have hnone : Open p xs (i + 1) none := by
        intro k hk
        obtain rfl : k = i := by omega
        exact hi
      cases start with
      | some a => rw [spansFrom_closes hpx, List.mem_cons, ih hrest' hnone, Prod.mk.injEq, (ho.isRun hi).end_or_later]
      | none => rw [spansFrom_skips hpx, ih hrest' hnone, later_iff ho.ne_end]

end Later

theorem mem_spans : (i, j) ∈ spans p xs ↔ IsRun p xs i j := by
  have hopen : Open p xs 0 none := fun k hk => absurd hk (by omega)
  rw [spans, mem_spansFrom List.drop_zero hopen]
  exact and_iff_left (Nat.zero_le _)

theorem le_of_mem_spansFrom {start : Option ℕ} {q : ℕ × ℕ} (hq : q ∈ spansFrom p start i xs) : i ≤ q.2 := by
  induction xs generalizing i start with
  | nil =>
    cases start with
    | some a =>
      obtain rfl := List.mem_singleton.1 hq
      exact le_rfl
    | none => cases hq
  | cons x xs ih =>
    by_cases hx : p x
    · rw [spansFrom_of_holds hx] at hq
      exact Nat.le_of_succ_le (ih hq)
    · cases start with
      | some a =>
        rw [spansFrom_closes hx] at hq
        rcases List.mem_cons.1 hq with rfl | hq
        · exact le_rfl
        · exact Nat.le_of_succ_le (ih hq)
      | none =>
        rw [spansFrom_skips hx] at hq
        exact Nat.le_of_succ_le (ih hq)

theorem spansFrom_pairwise (start : Option ℕ) (i : ℕ) : (spansFrom p start i xs).Pairwise fun q r => q.2 < r.2 := by
  induction xs generalizing i start with
  | nil => cases start <;> simp [spansFrom]
  | cons x xs ih =>
    by_cases hx : p x
    · rw [spansFrom_of_holds hx]
      exact ih _ _
    · cases start with
      | some a =>
        rw [spansFrom_closes hx, List.pairwise_cons]
        exact ⟨fun q hq => le_of_mem_spansFrom hq, ih _ _⟩
      | none =>
        rw [spansFrom_skips hx]
        exact ih _ _

theorem spans_nodup : (spans p xs).Nodup := (spansFrom_pairwise none 0).imp fun h heq => absurd (heq ▸ h) (lt_irrefl _)

/-- counting the runs with a property -/
theorem countP_spans (P : ℕ × ℕ → Bool) : (spans p xs).countP P = {q : ℕ × ℕ | IsRun p xs q.1 q.2 ∧ P q}.ncard := by
  have hset : {q : ℕ × ℕ | IsRun p xs q.1 q.2 ∧ P q} = ((spans p xs).filter P).toFinset := by
    ext ⟨i, j⟩
    simp [mem_spans]
  rw [hset, Set.ncard_coe_finset, List.toFinset_card_of_nodup (spans_nodup.filter _), List.countP_eq_length_filter]

end CS240.Lib
