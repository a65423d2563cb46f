/-
Maps that keep the first value offered for a key, with a queue of the keys that are new.

An offer for a key that is known changes nothing; otherwise the value is stored and the key joins the queue. Draining
empties the queue. `s.Conserves offers taken` says what the state is after the offers `offers`, when the keys `taken`
have been drained: it holds of the empty state and is kept by both operations.

- `Conserves.offer`, `Conserves.drain`: the invariant rules.
- `offerAll_of_known`: offers for known keys only are absorbed, whatever their values.
-/
import Mathlib.Data.List.AList
import Mathlib.Tactic

namespace CS240.Lib

structure Intake (κ ν : Type) where
  known : AList fun _ : κ => ν
  /-- the keys that are not drained yet, oldest first -/
  fresh : List κ

/-- the keys of a map are those with a value -/
theorem mem_iff_lookup {κ ν : Type} [DecidableEq κ] {m : AList fun _ : κ => ν} {k : κ} :
    k ∈ m ↔ ∃ v, m.lookup k = some v := by
  rw [← AList.lookup_isSome, Option.isSome_iff_exists]

namespace Intake

variable {κ ν : Type} [DecidableEq κ]

def empty : Intake κ ν := ⟨∅, []⟩

def offer (s : Intake κ ν) (o : κ × ν) : Intake κ ν :=
  if o.1 ∈ s.known then s else ⟨s.known.insert o.1 o.2, s.fresh ++ [o.1]⟩

def offerAll (s : Intake κ ν) (os : List (κ × ν)) : Intake κ ν := os.foldl offer s

def drain (s : Intake κ ν) : Intake κ ν := ⟨s.known, []⟩

variable {s : Intake κ ν} {o : κ × ν} {os : List (κ × ν)} {k : κ} {v : ν}

theorem offer_of_mem (ho : o.1 ∈ s.known) : s.offer o = s := if_pos ho

theorem offer_of_notMem (ho : o.1 ∉ s.known) : s.offer o = ⟨s.known.insert o.1 o.2, s.fresh ++ [o.1]⟩ := if_neg ho

theorem mem_offer : k ∈ (s.offer o).known ↔ k = o.1 ∨ k ∈ s.known := by
  by_cases ho : o.1 ∈ s.known
  · rw [offer_of_mem ho]
    exact ⟨.inr, fun hk => hk.elim (fun h => h ▸ ho) id⟩
  · rw [offer_of_notMem ho]
    exact AList.mem_insert _

/-- what an offer may have brought in: nothing, or the value offered for its key -/
theorem lookup_offer (hv : (s.offer o).known.lookup k = some v) :
    s.known.lookup k = some v ∨ o.1 ∉ s.known ∧ o = (k, v) := by
  by_cases ho : o.1 ∈ s.known
  · rw [offer_of_mem ho] at hv
    exact .inl hv
  · rw [offer_of_notMem ho] at hv
    by_cases hk : k = o.1
    · subst hk
      rw [AList.lookup_insert] at hv
      exact .inr ⟨ho, Prod.ext rfl (Option.some.inj hv)⟩
    · rw [AList.lookup_insert_ne hk] at hv
      exact .inl hv

theorem lookup_offer_of_lookup (hv : s.known.lookup k = some v) : (s.offer o).known.lookup k = some v := by
  by_cases ho : o.1 ∈ s.known
  · rwa [offer_of_mem ho]
  · have hk : k ≠ o.1 := by
      rintro rfl
      exact ho (mem_iff_lookup.mpr ⟨v, hv⟩)
    rw [offer_of_notMem ho, AList.lookup_insert_ne hk, hv]

theorem mem_offerAll : k ∈ (s.offerAll os).known ↔ (∃ o ∈ os, k = o.1) ∨ k ∈ s.known := by
  induction os generalizing s with
  | nil => simp [offerAll]
  | cons o os ih =>
    have hih := ih (s := s.offer o)
    rw [mem_offer] at hih
    simp only [offerAll, List.foldl_cons] at hih ⊢
    rw [hih, List.exists_mem_cons_iff, or_assoc, or_left_comm]

theorem offerAll_of_known (hos : ∀ o ∈ os, o.1 ∈ s.known) : s.offerAll os = s := by
  induction os with
  | nil => rfl
  | cons o os ih =>
    rw [List.forall_mem_cons] at hos
    calc s.offerAll (o :: os) = (s.offer o).offerAll os := rfl
      _ = s.offerAll os := by rw [offer_of_mem hos.1]
      _ = s := ih hos.2

theorem offerAll_fresh_known (hs : ∀ k ∈ s.fresh, k ∈ s.known) :
    ∀ k ∈ (s.offerAll os).fresh, k ∈ (s.offerAll os).known := by
  induction os generalizing s with
  | nil => exact hs
  | cons o os ih =>
    refine ih (s := s.offer o) fun k hk => ?_
    by_cases ho : o.1 ∈ s.known
    · rw [offer_of_mem ho] at hk ⊢
      exact hs k hk
    · rw [mem_offer]
      rw [offer_of_notMem ho, List.mem_append, List.mem_singleton] at hk
      exact hk.symm.imp id (hs k)

/-- the offers of a list that are taken, one after the other -/
def accepts (s : Intake κ ν) : List (κ × ν) → List (κ × ν)
  | [] => []
  | o :: os => if o.1 ∈ s.known then s.accepts os else o :: (s.offer o).accepts os

theorem mem_accepts (ho : o ∈ s.accepts os) : o ∈ os ∧ o.1 ∉ s.known := by
  induction os generalizing s with
  | nil => simp [accepts] at ho
  | cons p os ih =>
    unfold accepts at ho
    split_ifs at ho with hp
    · exact ⟨List.mem_cons_of_mem _ (ih ho).1, (ih ho).2⟩
    · rcases List.mem_cons.mp ho with rfl | ho
      · exact ⟨List.mem_cons_self, hp⟩
      · obtain ⟨hos, hn⟩ := ih ho
        rw [mem_offer, not_or] at hn
        exact ⟨List.mem_cons_of_mem _ hos, hn.2⟩

theorem lookup_offerAll (hv : (s.offerAll os).known.lookup k = some v) :
    s.known.lookup k = some v ∨ (k, v) ∈ s.accepts os := by
  induction os generalizing s with
  | nil => exact .inl hv
  | cons o os ih =>
    unfold accepts
    split_ifs with ho
    · refine ih (s := s) ?_
      rwa [offerAll, List.foldl_cons, offer_of_mem ho] at hv
    · rcases ih (s := s.offer o) hv with hv | hv
      · rcases lookup_offer hv with hv | ⟨-, rfl⟩
        · exact .inl hv
        · exact .inr List.mem_cons_self
      · exact .inr (List.mem_cons_of_mem _ hv)

/-- the queue grows by the offers that are taken -/
theorem offerAll_fresh : (s.offerAll os).fresh = s.fresh ++ (s.accepts os).map Prod.fst := by
  induction os generalizing s with
  | nil => simp [offerAll, accepts]
  | cons o os ih =>
    unfold accepts
    by_cases ho : o.1 ∈ s.known
    · calc (s.offerAll (o :: os)).fresh = (s.offerAll os).fresh := by
            rw [offerAll, List.foldl_cons, offer_of_mem ho, offerAll]
        _ = s.fresh ++ (s.accepts os).map Prod.fst := ih
        _ = _ := by rw [if_pos ho]
    · calc (s.offerAll (o :: os)).fresh = (s.offer o).fresh ++ ((s.offer o).accepts os).map Prod.fst := ih
        _ = s.fresh ++ o.1 :: ((s.offer o).accepts os).map Prod.fst := by simp [offer_of_notMem ho]
        _ = _ := by rw [if_neg ho, List.map_cons]

/-- what is known is not queued again -/
theorem mem_fresh_offerAll (hk : k ∈ (s.offerAll os).fresh) : k ∈ s.fresh ∨ k ∉ s.known := by
  rw [offerAll_fresh, List.mem_append, List.mem_map] at hk
  rcases hk with hk | ⟨o, ho, rfl⟩
  · exact .inl hk
  · exact .inr (mem_accepts ho).2

/-- a value that is known and not queued after some offers was so before -/
theorem lookup_of_offerAll (hv : (s.offerAll os).known.lookup k = some v) (hk : k ∉ (s.offerAll os).fresh) :
    s.known.lookup k = some v ∧ k ∉ s.fresh := by
  rw [offerAll_fresh, List.mem_append, not_or] at hk
  rcases lookup_offerAll hv with hv | hv
  · exact ⟨hv, hk.1⟩
  · exact absurd (List.mem_map.mpr ⟨_, hv, rfl⟩) hk.2

theorem lookup_offerAll_of_lookup (hv : s.known.lookup k = some v) : (s.offerAll os).known.lookup k = some v := by
  induction os generalizing s with
  | nil => exact hv
  | cons o os ih => exact ih (lookup_offer_of_lookup hv)

/-! ## The offers so far and the keys taken out -/

/-- the value of the first offer for `k` -/
def first (offers : List (κ × ν)) (k : κ) : Option ν := (offers.find? fun o => o.1 = k).map Prod.snd

structure Conserves [BEq κ] (s : Intake κ ν) (offers : List (κ × ν)) (taken : List κ) : Prop where
  keys : taken ++ s.fresh = (offers.map Prod.fst).eraseDups
  values : ∀ k, s.known.lookup k = first offers k
  nodup : (taken ++ s.fresh).Nodup

namespace Conserves

variable [BEq κ] {offers : List (κ × ν)} {taken : List κ}

theorem empty : (Intake.empty : Intake κ ν).Conserves [] [] where
  keys := rfl
  values _ := AList.lookup_empty _
  nodup := List.nodup_nil

theorem first_append (hs : s.Conserves offers taken) :
    first (offers ++ [o]) k = if k ∈ s.known ∨ k ≠ o.1 then first offers k else some o.2 := by
  have hk : k ∈ s.known ↔ (first offers k).isSome := by rw [← hs.values, AList.lookup_isSome]
  simp only [first, List.find?_append, List.find?_singleton, Option.isSome_map] at hk ⊢
  cases hf : offers.find? fun o => o.1 = k with
  | none =>
    simp only [hf, Option.isSome_none, Bool.false_eq_true, iff_false] at hk
    by_cases ho : o.1 = k
    · simp [ho, hk]
    · simp [ho, Ne.symm ho]
  | some p =>
    simp only [hf, Option.isSome_some, iff_true] at hk
    simp [hk]

theorem drain (hs : s.Conserves offers taken) : s.drain.Conserves offers (taken ++ s.fresh) where
  keys := by rw [Intake.drain, List.append_nil, hs.keys]
  values := hs.values
  nodup := by rw [Intake.drain, List.append_nil]; exact hs.nodup

variable [LawfulBEq κ]

theorem mem_known (hs : s.Conserves offers taken) : k ∈ s.known ↔ k ∈ taken ++ s.fresh := by
  rw [hs.keys, List.mem_eraseDups, ← AList.lookup_isSome, hs.values, first]
  simp

theorem offer (hs : s.Conserves offers taken) (o : κ × ν) : (s.offer o).Conserves (offers ++ [o]) taken := by
  have hkeys : ((offers ++ [o]).map Prod.fst).eraseDups = taken ++ s.fresh ++ if o.1 ∈ s.known then [] else [o.1] := by
    rw [List.map_append, List.eraseDups_append, ← hs.keys]
    congr 1
    have hm := hs.mem_known (k := o.1)
    rw [hs.keys, List.mem_eraseDups] at hm
    by_cases ho : o.1 ∈ s.known
    · simp [List.removeAll, ho, hm.mp ho]
    · simp [List.removeAll, ho, (not_congr hm).mp ho, List.eraseDups_cons]
  by_cases ho : o.1 ∈ s.known
  · rw [if_pos ho, List.append_nil] at hkeys
    rw [offer_of_mem ho]
    refine ⟨hkeys.symm, fun k => ?_, hs.nodup⟩
    rw [hs.first_append, hs.values]
    refine (if_pos ?_).symm
    by_cases hk : k = o.1
    · exact .inl (hk ▸ ho)
    · exact .inr hk
  · rw [if_neg ho] at hkeys
    rw [offer_of_notMem ho]
    refine ⟨by rw [hkeys, List.append_assoc], fun k => ?_, ?_⟩
    · rw [hs.first_append]
      by_cases hk : k = o.1
      · subst hk
        simp [ho, AList.lookup_insert]
      · simp only [ne_eq, hk, not_false_eq_true, or_true, if_true, AList.lookup_insert_ne hk, hs.values]
    · rw [← List.append_assoc]
      refine hs.nodup.append (List.nodup_singleton _) ?_
      rw [List.disjoint_singleton]
      exact fun hm => ho (hs.mem_known.mpr hm)

end Conserves

end Intake

end CS240.Lib
