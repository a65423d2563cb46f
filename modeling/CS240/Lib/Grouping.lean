/-
Grouping records by key with a map from keys to lists of values, over arbitrary keys in a linear order.

Records are of any type `α` with a key and a value. `buckets` appends each value to the list of its key, `latest` keeps
the last value of each key. Maps have no order of their own: they are read through `sortedKeys`.

- `sortedKeys_buckets`, `read_buckets`: keys in increasing order; a key's values in the order of the records.
- `read_latest_reduced`: divide the records by a function of the key, reduce each part separately and put the results
  into one map: that map holds what reducing all records at once gives.
-/
import Mathlib.Data.List.AList
import Mathlib.Data.List.Sort
import Mathlib.Tactic

namespace CS240.Lib

section Grouping

variable {α κ ν ω : Type} [LinearOrder κ]

/-- the values that the records hold for key `k`, in order -/
def valuesOf (key : α → κ) (val : α → ν) (k : κ) (xs : List α) : List ν := (xs.filter fun x => key x = k).map val

/-- the entry of a key, or the default value for a key without one -/
def read [Inhabited ν] (m : AList fun _ : κ => ν) (k : κ) : ν := (m.lookup k).getD default

/-- append each value to the list of its key -/
def buckets (key : α → κ) (val : α → ν) (xs : List α) : AList fun _ : κ => List ν :=
  xs.foldl (fun m x => m.insert (key x) (read m (key x) ++ [val x])) ∅

/-- keep the last value of each key -/
def latest (key : α → κ) (val : α → ν) (xs : List α) : AList fun _ : κ => ν :=
  xs.foldl (fun m x => m.insert (key x) (val x)) ∅

def sortedKeys {β : κ → Type} (m : AList β) : List κ := m.keys.insertionSort (· ≤ ·)

variable {key : α → κ} {val : α → ν}

@[simp]
theorem valuesOf_nil (k : κ) : valuesOf key val k [] = [] := rfl

theorem valuesOf_cons (k : κ) (x : α) (xs : List α) : valuesOf key val k (x :: xs) =
    if key x = k then val x :: valuesOf key val k xs else valuesOf key val k xs := by
  by_cases hx : key x = k <;> simp [valuesOf, hx]

theorem valuesOf_append (k : κ) (xs ys : List α) :
    valuesOf key val k (xs ++ ys) = valuesOf key val k xs ++ valuesOf key val k ys := by
  simp [valuesOf]

/-- a key has a value -/
theorem mem_keys_iff (val : α → ν) {k : κ} {xs : List α} : k ∈ xs.map key ↔ valuesOf key val k xs ≠ [] := by
  simp [valuesOf, List.filter_eq_nil_iff]

theorem sortedKeys_pairwise {β : κ → Type} (m : AList β) : (sortedKeys m).Pairwise (· < ·) := by
  have hle : (sortedKeys m).Pairwise (· ≤ ·) := List.pairwise_insertionSort (· ≤ ·) m.keys
  have hne : (sortedKeys m).Pairwise (· ≠ ·) := (List.perm_insertionSort (· ≤ ·) m.keys).nodup_iff.2 m.keys_nodup
  exact hle.imp₂ (fun _ _ hle hne => lt_of_le_of_ne hle hne) hne

theorem mem_sortedKeys {β : κ → Type} {m : AList β} {k : κ} : k ∈ sortedKeys m ↔ k ∈ m :=
  List.mem_insertionSort (· ≤ ·)

theorem read_insert [Inhabited ν] (m : AList fun _ : κ => ν) (k : κ) (v : ν) : read (m.insert k v) k = v := by
  simp [read]

theorem read_insert_ne [Inhabited ν] {m : AList fun _ : κ => ν} {k l : κ} (hl : l ≠ k) (v : ν) :
    read (m.insert k v) l = read m l := by
  simp [read, AList.lookup_insert_ne hl]

@[simp]
theorem buckets_snoc (xs : List α) (x : α) : buckets key val (xs ++ [x]) =
    (buckets key val xs).insert (key x) (read (buckets key val xs) (key x) ++ [val x]) := by
  simp [buckets, List.foldl_append]

@[simp]
theorem latest_snoc (xs : List α) (x : α) :
    latest key val (xs ++ [x]) = (latest key val xs).insert (key x) (val x) := by
  simp [latest, List.foldl_append]

theorem mem_buckets {xs : List α} {k : κ} : k ∈ buckets key val xs ↔ k ∈ xs.map key := by
  induction xs using List.reverseRecOn with
  | nil => simp [buckets]
  | append_singleton xs x ih => rw [buckets_snoc, AList.mem_insert, ih]; simp [or_comm]

theorem mem_latest {xs : List α} {k : κ} : k ∈ latest key val xs ↔ k ∈ xs.map key := by
  induction xs using List.reverseRecOn with
  | nil => simp [latest]
  | append_singleton xs x ih => rw [latest_snoc, AList.mem_insert, ih]; simp [or_comm]

/-- each bucket holds the values of its key, in the order of the records -/
theorem read_buckets (xs : List α) (k : κ) : read (buckets key val xs) k = valuesOf key val k xs := by
  induction xs using List.reverseRecOn generalizing k with
  | nil => rfl
  | append_singleton xs x ih =>
    rw [buckets_snoc, valuesOf_append, valuesOf_cons, valuesOf_nil]
    by_cases hk : k = key x
    · subst hk
      rw [read_insert, ih, if_pos rfl]
    · rw [read_insert_ne hk, ih, if_neg (Ne.symm hk), List.append_nil]

/-- where the records agree on the value of a key, that is the value kept -/
theorem read_latest [Inhabited ν] {xs : List α} {x : α} (hx : x ∈ xs)
    (hval : ∀ y ∈ xs, key y = key x → val y = val x) : read (latest key val xs) (key x) = val x := by
  induction xs using List.reverseRecOn with
  | nil => cases hx
  | append_singleton xs y ih =>
    rw [latest_snoc]
    by_cases hk : key x = key y
    · rw [hk, read_insert, hval y (by simp) hk.symm]
    · rw [read_insert_ne hk]
      have hmem : x ∈ xs := by
        rcases List.mem_append.1 hx with hx | hx
        · exact hx
        · exact absurd (congrArg key (List.mem_singleton.1 hx)) hk
      exact ih hmem fun z hz => hval z (List.mem_append_left _ hz)

theorem sortedKeys_buckets {xs : List α} {k : κ} : k ∈ sortedKeys (buckets key val xs) ↔ k ∈ xs.map key :=
  mem_sortedKeys.trans mem_buckets

/-! ## Grouping in parts -/

/-- one result for each key, in increasing order of the keys -/
def reduced (key : α → κ) (val : α → ν) (f : κ → List ν → ω) (xs : List α) : List ω :=
  (sortedKeys (buckets key val xs)).map fun k => f k (read (buckets key val xs) k)

theorem mem_reduced {f : κ → List ν → ω} {xs : List α} {y : ω} :
    y ∈ reduced key val f xs ↔ ∃ k ∈ xs.map key, f k (valuesOf key val k xs) = y := by
  simp only [reduced, List.mem_map, sortedKeys_buckets, read_buckets]

/-- the part of a key holds all its values -/
theorem valuesOf_part (p : κ → ℕ) (xs : List α) (k : κ) :
    valuesOf key val k (xs.filter fun x => p (key x) = p k) = valuesOf key val k xs := by
  simp only [valuesOf, List.filter_filter]
  congr 1
  refine List.filter_congr ?_
  intro x _
  by_cases hk : key x = k <;> simp [hk]

variable {rkey : ω → κ} {rval : ω → ν} {f : κ → List ν → ω} {p : κ → ℕ} {n : ℕ}

/-- the results of all parts -/
def reducedParts (key : α → κ) (val : α → ν) (f : κ → List ν → ω) (p : κ → ℕ) (n : ℕ) (xs : List α) : List ω :=
  (List.range n).flatMap fun r => reduced key val f (xs.filter fun x => p (key x) = r)

/-- the results of the parts are those of all records: none is missing, and none is made twice differently -/
theorem mem_reducedParts (hp : ∀ k, p k < n) {xs : List α} {y : ω} :
    y ∈ reducedParts key val f p n xs ↔ ∃ k ∈ xs.map key, f k (valuesOf key val k xs) = y := by
  simp only [reducedParts, List.mem_flatMap, List.mem_range, mem_reduced, List.mem_map, List.mem_filter,
    decide_eq_true_eq]
  constructor
  · rintro ⟨r, -, k, ⟨x, ⟨hx, rfl⟩, rfl⟩, rfl⟩
    exact ⟨key x, ⟨x, hx, rfl⟩, by rw [valuesOf_part]⟩
  · rintro ⟨k, ⟨x, hx, rfl⟩, rfl⟩
    exact ⟨p (key x), hp _, key x, ⟨x, ⟨hx, rfl⟩, rfl⟩, by rw [valuesOf_part]⟩

theorem mem_latest_reduced (hf : ∀ k vs, rkey (f k vs) = k) (hp : ∀ k, p k < n) {xs : List α} {k : κ} :
    k ∈ latest rkey rval (reducedParts key val f p n xs) ↔ k ∈ xs.map key := by
  rw [mem_latest, List.mem_map]
  constructor
  · rintro ⟨y, hy, rfl⟩
    obtain ⟨k, hk, rfl⟩ := (mem_reducedParts hp).1 hy
    rwa [hf]
  · intro hk
    exact ⟨f k (valuesOf key val k xs), (mem_reducedParts hp).2 ⟨k, hk, rfl⟩, hf k _⟩

theorem read_latest_reduced [Inhabited ν] (hf : ∀ k vs, rkey (f k vs) = k) (hp : ∀ k, p k < n) {xs : List α} {k : κ}
    (hk : k ∈ xs.map key) :
    read (latest rkey rval (reducedParts key val f p n xs)) k = rval (f k (valuesOf key val k xs)) := by
  have hmem : f k (valuesOf key val k xs) ∈ reducedParts key val f p n xs := (mem_reducedParts hp).2 ⟨k, hk, rfl⟩
  have hval : ∀ y ∈ reducedParts key val f p n xs, rkey y = rkey (f k (valuesOf key val k xs)) →
      rval y = rval (f k (valuesOf key val k xs)) := by
    intro y hy hkey
    obtain ⟨l, -, rfl⟩ := (mem_reducedParts hp).1 hy
    rw [hf, hf] at hkey
    rw [hkey]
  have hread := read_latest hmem hval
  rwa [hf] at hread

end Grouping

end CS240.Lib
