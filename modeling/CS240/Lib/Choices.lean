/-
Choosing one index below each of a list of bounds, as nested loops do.

`choices ns` lists these choices. It has each of them once (`mem_choices`), in lexicographic order (`choices_pairwise`),
and there are as many as the product of the bounds (`length_choices`).
-/
import Mathlib.Tactic

namespace CS240.Lib

def choices : List ℕ → List (List ℕ)
  | [] => [[]]
  | n :: ns => (List.range n).flatMap fun i => (choices ns).map (i :: ·)

theorem mem_choices {ns c : List ℕ} : c ∈ choices ns ↔ List.Forall₂ (· < ·) c ns := by
  induction ns generalizing c with
  | nil => simp [choices]
  | cons n ns ih =>
    simp only [choices, List.mem_flatMap, List.mem_range, List.mem_map, ih, List.forall₂_cons_right_iff]
    constructor
    · rintro ⟨i, hi, c', hc', rfl⟩
      exact ⟨i, c', hi, hc', rfl⟩
    · rintro ⟨i, c', hi, hc', rfl⟩
      exact ⟨i, hi, c', hc', rfl⟩

theorem choices_pairwise (ns : List ℕ) : (choices ns).Pairwise (· < ·) := by
  induction ns with
  | nil => exact List.pairwise_singleton _ _
  | cons n ns ih =>
    rw [choices, List.pairwise_flatMap]
    constructor
    · intro i _
      rw [List.pairwise_map]
      exact ih.imp fun h => List.cons_lt_cons_iff.2 (.inr ⟨rfl, h⟩)
    · refine List.pairwise_lt_range.imp fun {i j} hij c hc c' hc' => ?_
      obtain ⟨l, -, rfl⟩ := List.mem_map.1 hc
      obtain ⟨l', -, rfl⟩ := List.mem_map.1 hc'
      exact List.cons_lt_cons_iff.2 (.inl hij)

theorem length_choices (ns : List ℕ) : (choices ns).length = ns.prod := by
  induction ns with
  | nil => rfl
  | cons n ns ih => simp [choices, List.length_flatMap, ih]

end CS240.Lib
