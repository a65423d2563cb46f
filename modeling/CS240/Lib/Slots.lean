/-
Slots whose contents are among the elements of a list.

`Within slots xs`: the slots that are filled hold different elements of `xs` (equal ones as often as they occur there),
in any order; `xs` may hold more. The slots are places that stay where they are, `xs` is a bag that is read by position
and loses and gains elements at its ends, as the messages in flight do. What each slot is for is said by `Forall₂`, and
`forall₂_getElem?` and `forall₂_set` read and change one position of the two lists.
-/
import Mathlib.Data.List.ReduceOption
import Mathlib.Tactic

namespace CS240.Lib

open List

variable {α : Type} {slots : List (Option α)} {xs ys : List α} {k : ℕ} {x y : α}

def Within (slots : List (Option α)) (xs : List α) : Prop := slots.reduceOption <+~ xs

theorem within_nil (xs : List α) : Within [] xs := nil_subperm

theorem Within.mono (hw : Within slots xs) (ys : List α) : Within slots (xs ++ ys) :=
  hw.trans (sublist_append_left xs ys).subperm

theorem Within.append (hw : Within slots xs) (ys : List α) : Within (slots ++ ys.map some) (xs ++ ys) := by
  have happ : (slots ++ ys.map some).reduceOption = slots.reduceOption ++ ys := by simp [reduceOption]
  unfold Within
  rw [happ]
  exact (subperm_append_right ys).2 hw

theorem Within.append_none (hw : Within slots xs) (m : ℕ) : Within (slots ++ replicate m none) xs := by
  unfold Within at *
  simpa [reduceOption] using hw

theorem reduceOption_set (hk : k < slots.length) (y : α) :
    (slots.set k (some y)).reduceOption ~ y :: (slots.set k none).reduceOption := by
  have hsome := (set_perm_cons_eraseIdx hk (some y)).filterMap id
  have hnone := (set_perm_cons_eraseIdx hk none).filterMap id
  exact hsome.trans (hnone.symm.cons y)

theorem Within.fill (hw : Within (slots.set k none) xs) (hk : k < slots.length) (y : α) :
    Within (slots.set k (some y)) (xs ++ [y]) :=
  (reduceOption_set hk y).subperm.trans (((subperm_cons y).2 hw).trans (perm_append_singleton y xs).symm.subperm)

/-- what is in a slot is found in the list, and can be taken out of both -/
theorem Within.take (hw : Within slots xs) (hk : slots[k]? = some (some x)) :
    ∃ j, xs[j]? = some x ∧ Within (slots.set k none) (xs.eraseIdx j) := by
  obtain ⟨hlt, heq⟩ := List.getElem?_eq_some_iff.1 hk
  have hself : slots.set k (some x) = slots := by rw [← heq]; exact set_getElem_self hlt
  have hcons : x :: (slots.set k none).reduceOption <+~ xs := by
    refine (reduceOption_set hlt x).symm.subperm.trans ?_
    rw [hself]
    exact hw
  obtain ⟨j, hj⟩ := getElem?_of_mem (hcons.subset mem_cons_self)
  obtain ⟨hjlt, hjeq⟩ := List.getElem?_eq_some_iff.1 hj
  refine ⟨j, hj, (subperm_cons x).1 (hcons.trans ?_)⟩
  rw [← hjeq]
  exact (getElem_cons_eraseIdx_perm hjlt).symm.subperm

/-! ## Two lists side by side -/

section Pairs

variable {β : Type} {R : α → β → Prop} {z : β} {zs : List β}

theorem forall₂_getElem? (hR : Forall₂ R xs zs) (hk : xs[k]? = some x) : ∃ z, zs[k]? = some z ∧ R x z := by
  induction hR generalizing k with
  | nil => simp at hk
  | @cons a b _ _ hab _ ih =>
    cases k with
    | zero =>
      obtain rfl : a = x := by simpa using hk
      exact ⟨b, rfl, hab⟩
    | succ k => exact ih hk

theorem forall₂_set (hR : Forall₂ R xs zs) (hxz : R x z) (k : ℕ) : Forall₂ R (xs.set k x) (zs.set k z) := by
  induction hR generalizing k with
  | nil => exact .nil
  | cons hab htail ih =>
    cases k with
    | zero => exact .cons hxz htail
    | succ k => exact .cons hab (ih k)

end Pairs

end CS240.Lib
