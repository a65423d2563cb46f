/-
The experiments of a run block (project/run_suite.py).

`buildParamGrid` merges the defaults into a run block and tries all combinations of the values of its list-valued keys.
`expand` goes through them recursively on one dictionary, which it changes in place and from which it removes the key
that it has been through; a copy is kept of each combination. The dictionary is passed on explicitly here.

Dictionaries are `AList`s. The order of the entries of the run block is that of its items; what order the entries of a
result have is not modelled, results are read by key.

- `expand_spec`: a copy has the value chosen for each key that is still to go, and for the others what the dictionary
  had when `expand` was called; the dictionary is changed at the keys to go only.
- `buildParamGrid_exact`: one experiment for each combination, in lexicographic order.
-/
import CS240.Lib.Choices
import Mathlib.Data.List.AList

namespace CS240.Suite

open Lib

variable {α : Type}

/-- a value of the configuration, with lists over values of type `α` -/
inductive Value (α : Type) where
  | scalar (a : α)
  | list (vs : List (Value α))

/-- `isinstance(v, list)`, with the items -/
def Value.asList : Value α → Option (List (Value α))
  | .scalar _ => none
  | .list vs => some vs

abbrev Params (α : Type) := AList fun _ : String => Value α

/-- the defaults, with `bandwidth` under the name `bw` as well -/
def mergedDefaults [OfNat α 10] (defaults : Params α) : Params α :=
  let merged :=
    match defaults.lookup "bandwidth" with
    | some v => defaults.insert "bw" v
    | none => defaults
  if "bw" ∉ merged ∧ "bandwidth" ∉ merged then merged.insert "bw" (.scalar 10) else merged

/-- the items of `sweep_lists` -/
def sweepLists (runCfg : Params α) : List (String × List (Value α)) :=
  runCfg.entries.filterMap fun e => e.2.asList.map fun vs => (e.1, vs)

/-- the loop over the items of the run block that are not lists -/
def override (params : Params α) (items : List (Sigma fun _ : String => Value α)) : Params α :=
  items.foldl (fun base e => if e.2.asList.isSome then base else base.insert e.1 e.2) params

/-- `st` is the dictionary `current` and the grid; `none` is a key that is not swept -/
def expand (sweeps : List (String × List (Value α))) :
    List String → Params α × List (Params α) → Option (Params α × List (Params α))
  | [], (current, grid) => some (current, grid ++ [current])
  | k :: keys, st => do
    let vs ← sweeps.lookup k
    let st ← vs.foldlM (fun st v => expand sweeps keys (st.1.insert k v, st.2)) st
    some (st.1.erase k, st.2)

def buildParamGrid [OfNat α 10] (defaults runCfg : Params α) : Option (List (Params α)) :=
  let sweeps := sweepLists runCfg
  let base := override (mergedDefaults defaults) runCfg.entries
  if sweeps ≠ [] then (expand sweeps (sweeps.map Prod.fst) (base, [])).map Prod.snd else some [base]

/-! ## The recursion -/

/-- `params` has the chosen value for each swept key, and is as `rest` says for all others -/
structure Leaf (sweeps : List (String × List (Value α))) (rest : String → Option (Value α)) (choice : List ℕ)
    (params : Params α) : Prop where
  swept : List.Forall₂ (fun i s => params.lookup s.1 = s.2[i]?) choice sweeps
  other : ∀ key, key ∉ sweeps.map Prod.fst → params.lookup key = rest key

variable {sweeps todo : List (String × List (Value α))} {k : String} {vs : List (Value α)}

/-- A value for one more key was set when the choice of the others began. What else the dictionary had at that moment
under the keys still to go does not matter. -/
theorem Leaf.cons {current : Params α} {rest : String → Option (Value α)} {choice : List ℕ} {params : Params α} {i : ℕ}
    {v : Value α} (hleaf : Leaf todo (fun key => (current.insert k v).lookup key) choice params)
    (hk : k ∉ todo.map Prod.fst) (hv : vs[i]? = some v)
    (hrest : ∀ key, key ∉ k :: todo.map Prod.fst → current.lookup key = rest key) :
    Leaf ((k, vs) :: todo) rest (i :: choice) params where
  swept := by
    refine .cons ?_ hleaf.swept
    rw [hleaf.other k hk, AList.lookup_insert, hv]
  other := by
    intro key hkey
    obtain ⟨hne, htodo⟩ := List.ne_and_not_mem_of_not_mem_cons hkey
    rw [hleaf.other key htodo, AList.lookup_insert_ne hne, hrest key hkey]

/-- the choices for the first indices of one key -/
theorem forall₂_range_succ {γ : Type} {R : List ℕ → γ → Prop} {n : ℕ} {cs : List (List ℕ)} {xs ys : List γ}
    (hxs : List.Forall₂ R ((List.range n).flatMap fun i => cs.map (i :: ·)) xs)
    (hys : List.Forall₂ (fun c y => R (n :: c) y) cs ys) :
    List.Forall₂ R ((List.range (n + 1)).flatMap fun i => cs.map (i :: ·)) (xs ++ ys) := by
  rw [List.range_succ, List.flatMap_append, List.flatMap_singleton]
  exact List.rel_append hxs (List.forall₂_map_left_iff.2 hys)

/-- What `expand` does with the keys of `todo`: whatever the dictionary has under them does not matter, and nothing is
changed under other keys. -/
def Expands (sweeps todo : List (String × List (Value α))) : Prop :=
  ∀ (current : Params α) (grid : List (Params α)), ∃ current' leaves,
    expand sweeps (todo.map Prod.fst) (current, grid) = some (current', grid ++ leaves) ∧
    (∀ key, key ∉ todo.map Prod.fst → current'.lookup key = current.lookup key) ∧
    List.Forall₂ (Leaf todo fun key => current.lookup key) (choices (todo.map fun s => s.2.length)) leaves

/-- the loop over the values of one key, up to some point -/
theorem expand_loop (htodo : Expands sweeps todo) (hk : k ∉ todo.map Prod.fst) {us : List (Value α)} (hus : us <+: vs)
    (current : Params α) (grid : List (Params α)) : ∃ current' leaves,
      us.foldlM (fun st v => expand sweeps (todo.map Prod.fst) (st.1.insert k v, st.2)) (current, grid) =
        some (current', grid ++ leaves) ∧
      (∀ key, key ∉ k :: todo.map Prod.fst → current'.lookup key = current.lookup key) ∧
      List.Forall₂ (Leaf ((k, vs) :: todo) fun key => current.lookup key)
        ((List.range us.length).flatMap fun i => (choices (todo.map fun s => s.2.length)).map (i :: ·)) leaves := by
  induction us using List.reverseRecOn with
  | nil => exact ⟨current, [], by simp, fun _ _ => rfl, by simp⟩
  | append_singleton us v ih =>
    obtain ⟨current₁, leaves₁, hrun₁, hkeep₁, hleaves₁⟩ := ih ((List.prefix_append us [v]).trans hus)
    obtain ⟨current₂, leaves₂, hrun₂, hkeep₂, hleaves₂⟩ := htodo (current₁.insert k v) (grid ++ leaves₁)
    have hv : vs[us.length]? = some v := by
      obtain ⟨ws, rfl⟩ := hus
      simp
    refine ⟨current₂, leaves₁ ++ leaves₂, ?_, ?_, ?_⟩
    · simp [List.foldlM_append, hrun₁, hrun₂]
    · intro key hkey
      obtain ⟨hne, htodo⟩ := List.ne_and_not_mem_of_not_mem_cons hkey
      rw [hkeep₂ key htodo, AList.lookup_insert_ne hne, hkeep₁ key hkey]
    · rw [List.length_append, List.length_singleton]
      exact forall₂_range_succ hleaves₁ (hleaves₂.imp fun _ _ hleaf => hleaf.cons hk hv hkeep₁)

theorem expand_spec (hnodup : (todo.map Prod.fst).Nodup) (hlookup : ∀ s ∈ todo, sweeps.lookup s.1 = some s.2) :
    Expands sweeps todo := by
  induction todo with
  | nil =>
    intro current grid
    exact ⟨current, [current], rfl, fun _ _ => rfl, .cons ⟨.nil, fun _ _ => rfl⟩ .nil⟩
  | cons s todo ih =>
    obtain ⟨k, vs⟩ := s
    rw [List.map_cons, List.nodup_cons] at hnodup
    rw [List.forall_mem_cons] at hlookup
    intro current grid
    obtain ⟨current', leaves, hrun, hkeep, hleaves⟩ :=
      expand_loop (ih hnodup.2 hlookup.2) hnodup.1 (List.prefix_refl vs) current grid
    refine ⟨current'.erase k, leaves, ?_, ?_, hleaves⟩
    · simp [expand, hlookup.1, hrun]
    · intro key hkey
      rw [AList.lookup_erase_ne (List.ne_of_not_mem_cons hkey), hkeep key hkey]

/-! ## The dictionary before the expansion -/

/-- the default of a key: `bw` is the `bandwidth` of the defaults, or else their `bw`, or else 10 -/
def defaultOf [OfNat α 10] (defaults : Params α) (key : String) : Option (Value α) :=
  if key = "bw" then (defaults.lookup "bandwidth").or ((defaults.lookup "bw").or (some (.scalar 10)))
  else defaults.lookup key

theorem lookup_mergedDefaults [OfNat α 10] (defaults : Params α) (key : String) :
    (mergedDefaults defaults).lookup key = defaultOf defaults key := by
  unfold mergedDefaults defaultOf
  cases hband : defaults.lookup "bandwidth" with
  | some v =>
    by_cases hkey : key = "bw"
    · subst hkey
      simp
    · simp [hkey, AList.lookup_insert_ne hkey]
  | none =>
    have hmem : "bandwidth" ∉ defaults := AList.lookup_eq_none.1 hband
    by_cases hbw : "bw" ∈ defaults
    · obtain ⟨v, hv⟩ := Option.isSome_iff_exists.1 (AList.lookup_isSome.2 hbw)
      by_cases hkey : key = "bw"
      · subst hkey
        simp [hbw, hv]
      · simp [hkey, hbw]
    · by_cases hkey : key = "bw"
      · subst hkey
        simp [hbw, hmem, AList.lookup_eq_none.2 hbw]
      · simp [hkey, hbw, hmem, AList.lookup_insert_ne hkey]

theorem lookup_override (params : Params α) {items : List (Sigma fun _ : String => Value α)} (hitems : items.NodupKeys)
    (key : String) (hkey : ∀ vs, items.dlookup key ≠ some (.list vs)) :
    (override params items).lookup key = (items.dlookup key).or (params.lookup key) := by
  induction items generalizing params with
  | nil => rfl
  | cons e items ih =>
    obtain ⟨k, v⟩ := e
    rw [List.nodupKeys_cons] at hitems
    by_cases hk : key = k
    · subst hk
      have hnone : items.dlookup key = none := List.dlookup_eq_none.2 hitems.1
      cases v with
      | scalar a =>
        have hstep : override params (⟨key, .scalar a⟩ :: items) = override (params.insert key (.scalar a)) items := rfl
        rw [hstep, ih _ hitems.2 (by simp [hnone]), hnone]
        simp
      | list vs => exact absurd (by simp) (hkey vs)
    · rw [List.dlookup_cons_ne _ _ hk] at hkey ⊢
      cases v with
      | scalar a =>
        have hstep : override params (⟨k, .scalar a⟩ :: items) = override (params.insert k (.scalar a)) items := rfl
        rw [hstep, ih _ hitems.2 hkey, AList.lookup_insert_ne hk]
      | list vs => exact ih _ hitems.2 hkey

/-! ## The swept keys -/

theorem mem_sweepLists {runCfg : Params α} : (k, vs) ∈ sweepLists runCfg ↔ runCfg.lookup k = some (.list vs) := by
  rw [sweepLists, List.mem_filterMap]
  constructor
  · rintro ⟨⟨k', v⟩, he, hv⟩
    cases v with
    | scalar a => cases hv
    | list ws =>
      cases hv
      exact AList.mem_lookup_iff.2 he
  · intro h
    exact ⟨⟨k, .list vs⟩, AList.mem_lookup_iff.1 h, rfl⟩

theorem nodup_sweepLists (runCfg : Params α) : ((sweepLists runCfg).map Prod.fst).Nodup := by
  refine List.Nodup.sublist ?_ runCfg.keys_nodup
  unfold sweepLists AList.keys List.keys
  generalize runCfg.entries = items
  induction items with
  | nil => exact .slnil
  | cons e items ih =>
    obtain ⟨k, v⟩ := e
    cases v with
    | scalar a => exact ih.cons _
    | list vs => exact ih.cons_cons _

theorem lookup_of_mem {β : Type} {items : List (String × β)} (hnodup : (items.map Prod.fst).Nodup) {s : String × β}
    (hs : s ∈ items) : items.lookup s.1 = some s.2 := by
  induction items with
  | nil => cases hs
  | cons e items ih =>
    rw [List.map_cons, List.nodup_cons] at hnodup
    rcases List.mem_cons.1 hs with rfl | hs
    · rw [List.lookup_cons, beq_self_eq_true]
    · have hne : s.1 ≠ e.1 := fun h => hnodup.1 (h ▸ List.mem_map_of_mem hs)
      rw [List.lookup_cons, beq_eq_false_iff_ne.2 hne]
      exact ih hnodup.2 hs

/-! ## The grid -/

/-- the grid, with one leaf of the recursion for each choice -/
theorem buildParamGrid_leaves [OfNat α 10] (defaults runCfg : Params α) : ∃ leaves,
    buildParamGrid defaults runCfg = some leaves ∧
    List.Forall₂ (Leaf (sweepLists runCfg) fun key => (runCfg.lookup key).or (defaultOf defaults key))
      (choices ((sweepLists runCfg).map fun s => s.2.length)) leaves := by
  let base := override (mergedDefaults defaults) runCfg.entries
  obtain ⟨current', leaves, hrun, -, hleaves⟩ :=
    expand_spec (nodup_sweepLists runCfg) (fun s hs => lookup_of_mem (nodup_sweepLists runCfg) hs) base []
  have hgrid : buildParamGrid defaults runCfg = some leaves := by
    unfold buildParamGrid
    dsimp only
    split_ifs with hsweeps
    · rw [hrun]
      rfl
    · -- without a swept key `expand` would return the same
      rw [not_not.1 hsweeps] at hrun
      cases hrun
      rfl
  have hbase : ∀ key, key ∉ (sweepLists runCfg).map Prod.fst →
      base.lookup key = (runCfg.lookup key).or (defaultOf defaults key) := by
    intro key hkey
    rw [← lookup_mergedDefaults]
    refine lookup_override _ runCfg.nodupKeys key fun vs hvs => hkey ?_
    exact List.mem_map.2 ⟨(key, vs), mem_sweepLists.2 hvs, rfl⟩
  refine ⟨leaves, hgrid, hleaves.imp fun _ _ hleaf => ⟨hleaf.swept, fun key hkey => ?_⟩⟩
  exact (hleaf.other key hkey).trans (hbase key hkey)

/-- **A parameter sweep is the Cartesian product of its lists.** With one index for each list-valued key of the run
block, the grid has one dictionary for each choice, in lexicographic order of the choices; its swept keys have the
chosen values, every other key the value of the run block or else the default. -/
theorem buildParamGrid_exact [OfNat α 10] (defaults runCfg : Params α) :
    ∃ (grid : List (Params α)) (cs : List (List ℕ)),
    buildParamGrid defaults runCfg = some grid ∧
    (∀ k vs, (k, vs) ∈ sweepLists runCfg ↔ runCfg.lookup k = some (.list vs)) ∧
    cs.Pairwise (· < ·) ∧
    (∀ choice, choice ∈ cs ↔ List.Forall₂ (fun i s => i < s.2.length) choice (sweepLists runCfg)) ∧
    List.Forall₂ (Leaf (sweepLists runCfg) fun key => (runCfg.lookup key).or (defaultOf defaults key)) cs grid ∧
    grid.length = ((sweepLists runCfg).map fun s => s.2.length).prod := by
  obtain ⟨leaves, hgrid, hleaves⟩ := buildParamGrid_leaves defaults runCfg
  refine ⟨leaves, choices ((sweepLists runCfg).map fun s => s.2.length), hgrid, fun k vs => mem_sweepLists,
    choices_pairwise _, fun choice => ?_, hleaves, ?_⟩
  · rw [mem_choices, List.forall₂_map_right_iff]
  · rw [← length_choices]
    exact hleaves.length_eq.symm

end CS240.Suite
