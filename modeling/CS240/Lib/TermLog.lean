/-
Logs whose entries carry a term, and the theory of leader-based replication over them. Nothing here is about a
particular program: entries are an arbitrary type `E` with a term `τ : E → ℕ`, nodes an arbitrary finite type.

- `Majority`: more than half of the nodes; two majorities meet (`Majority.inter`).
- `Coherent τ C l`: every prefix of `l` ends inside the log `C t` of the term `t` of its last entry. Two coherent
  logs that have entries of one term at one index agree up to it (`Coherent.agree`): this is log matching.
- `matchLen`, `merge`, `Cuts`: merging a batch of entries into a log by comparing terms only, and the case in which
  a merge drops a suffix although nothing conflicts. For coherent logs a merge leaves either the old log or exactly
  the log the batch was taken from (`merge_coherent`). `CutAtConflict` is the merge that cuts at a conflict only, and
  `merge_cutAtConflict_iff` says when `merge` is one.
- `Ascending`: the terms of a log do not decrease. Merging at an entry that has the same term in both logs keeps them in
  order (`Ascending.merge`) and every entry at its index (`getElem?_merge`), whatever else the two logs hold.
- `UpToDate`: the order in which logs are compared at elections.
- `Elections`: what a history of elections has to satisfy for leader completeness, and `Elections.complete`: an entry
  held by a majority in the term of its own leader is in the log of every later leader.
-/
import Mathlib.Tactic

namespace CS240.Lib

/-! ## Majorities -/

/-- more than half of the nodes, as integer division counts it -/
def Majority {ι : Type} [Fintype ι] (Q : Finset ι) : Prop := Fintype.card ι / 2 < Q.card

instance {ι : Type} [Fintype ι] (Q : Finset ι) : Decidable (Majority Q) := by unfold Majority; infer_instance

theorem Majority.inter {ι : Type} [Fintype ι] [DecidableEq ι] {Q R : Finset ι} (hQ : Majority Q) (hR : Majority R) :
    ∃ v, v ∈ Q ∧ v ∈ R := by
  by_contra hne
  have hd : Disjoint Q R := by
    rw [Finset.disjoint_left]
    intro v hv hv'
    exact hne ⟨v, hv, hv'⟩
  have hle : (Q ∪ R).card ≤ Fintype.card ι := Finset.card_le_univ _
  rw [Finset.card_union_of_disjoint hd] at hle
  unfold Majority at hQ hR
  omega

/-! ## Prefixes -/

section Prefixes

variable {E : Type}

/-- two prefixes of one list are comparable -/
theorem prefix_total {l₁ l₂ l : List E} (h₁ : l₁ <+: l) (h₂ : l₂ <+: l) : l₁ <+: l₂ ∨ l₂ <+: l₁ := by
  rcases Nat.le_total l₁.length l₂.length with h | h
  · exact Or.inl (List.prefix_of_prefix_length_le h₁ h₂ h)
  · exact Or.inr (List.prefix_of_prefix_length_le h₂ h₁ h)

theorem prefix_getElem? {l₁ l₂ : List E} (h : l₁ <+: l₂) {i : ℕ} {e : E} (hi : l₁[i]? = some e) :
    l₂[i]? = some e := by
  obtain ⟨l, rfl⟩ := h
  rw [List.getElem?_append_left (List.getElem?_eq_some_iff.1 hi).1]
  exact hi

theorem prefix_take_eq {l₁ l₂ : List E} (h : l₁ <+: l₂) {k : ℕ} (hk : k ≤ l₁.length) : l₂.take k = l₁.take k := by
  obtain ⟨l, rfl⟩ := h
  exact List.take_append_of_le_length hk

/-- equal up to `k` means equal at every index below `k` -/
theorem getElem?_eq_of_take {l₁ l₂ : List E} {k : ℕ} (h : l₁.take k = l₂.take k) {i : ℕ} (hi : i < k) :
    l₁[i]? = l₂[i]? := by
  rw [← List.getElem?_take_of_lt hi, h, List.getElem?_take_of_lt hi]

end Prefixes

/-! ## Coherent logs -/

section Coherent

variable {E : Type} (τ : E → ℕ)

/-- every prefix of `l` that ends in an entry of term `t` is a prefix of `C t` -/
def Coherent (C : ℕ → List E) (l : List E) : Prop := ∀ i e, l[i]? = some e → l.take (i + 1) <+: C (τ e)

variable {τ} {C C' : ℕ → List E} {l l₁ l₂ : List E}

theorem Coherent.mono (hC : ∀ t, C t <+: C' t) (h : Coherent τ C l) : Coherent τ C' l :=
  fun i e hi => (h i e hi).trans (hC _)

theorem Coherent.sub (h : Coherent τ C l₂) (hp : l₁ <+: l₂) : Coherent τ C l₁ := by
  intro i e hi
  have hlt := (List.getElem?_eq_some_iff.1 hi).1
  rw [← prefix_take_eq hp (by omega)]
  exact h i e (prefix_getElem? hp hi)

theorem Coherent.nil : Coherent τ C [] := by simp [Coherent]

/-- a coherent log that ends in term `t` is a prefix of `C t` -/
theorem Coherent.last (h : Coherent τ C l) {e : E} (he : l.getLast? = some e) : l <+: C (τ e) := by
  have hne : l ≠ [] := by rintro rfl; simp at he
  have hpos : 0 < l.length := List.length_pos_iff.2 hne
  rw [List.getLast?_eq_getElem?] at he
  have hp := h _ e he
  rwa [Nat.sub_add_cancel hpos, List.take_length] at hp

/-- extending a coherent log by an entry of the term whose log it becomes -/
theorem Coherent.snoc (h : Coherent τ C l) {e : E} (he : l ++ [e] <+: C (τ e)) : Coherent τ C (l ++ [e]) := by
  intro i e' hi
  by_cases hlt : i < l.length
  · rw [List.getElem?_append_left hlt] at hi
    rw [List.take_append_of_le_length (by omega)]
    exact h i e' hi
  · have hi' : i < (l ++ [e]).length := (List.getElem?_eq_some_iff.1 hi).1
    have hil : i = l.length := by simp at hi'; omega
    subst hil
    simp only [List.getElem?_concat_length, Option.some.injEq] at hi
    subst hi
    rw [List.take_of_length_le (by simp)]
    exact he

/-- **Log matching.** Coherent logs with entries of one term at one index agree up to that index. -/
theorem Coherent.agree (h₁ : Coherent τ C l₁) (h₂ : Coherent τ C l₂) {i : ℕ} {e₁ e₂ : E} (he₁ : l₁[i]? = some e₁)
    (he₂ : l₂[i]? = some e₂) (ht : τ e₁ = τ e₂) : l₁.take (i + 1) = l₂.take (i + 1) := by
  have hp₁ := h₁ i e₁ he₁
  have hp₂ := h₂ i e₂ he₂
  rw [← ht] at hp₂
  have hl₁ := (List.getElem?_eq_some_iff.1 he₁).1
  have hl₂ := (List.getElem?_eq_some_iff.1 he₂).1
  have hlen : (l₁.take (i + 1)).length = (l₂.take (i + 1)).length := by simp only [List.length_take]; omega
  rcases prefix_total hp₁ hp₂ with h | h
  · exact h.eq_of_length hlen
  · exact (h.eq_of_length hlen.symm).symm

end Coherent

/-! ## Merging a batch of entries -/

section Merge

variable {E : Type} (τ : E → ℕ)

/-- how far two lists run along with equal terms -/
def matchLen : List E → List E → ℕ
  | a :: as, b :: bs => if τ a = τ b then matchLen as bs + 1 else 0
  | _, _ => 0

/-- merge `es` into `l` from index `k` on: skip what has the same terms, cut the log there, append the rest. An empty
batch changes nothing. -/
def merge (l : List E) (k : ℕ) (es : List E) : List E :=
  if es = [] then l else l.take (k + matchLen τ (l.drop k) es) ++ es.drop (matchLen τ (l.drop k) es)

/-- the merge drops a suffix of the log although no entry of the batch conflicts with it -/
def Cuts (l : List E) (k : ℕ) (es : List E) : Prop :=
  es ≠ [] ∧ matchLen τ (l.drop k) es = es.length ∧ k + es.length < l.length

instance (l : List E) (k : ℕ) (es : List E) : Decidable (Cuts τ l k es) := by
  unfold Cuts; infer_instance

/-- entry `j` of the batch and the entry of the log at its place have different terms -/
def Conflict (l : List E) (k : ℕ) (es : List E) (j : ℕ) : Prop :=
  ∃ a b, l[k + j]? = some a ∧ es[j]? = some b ∧ τ a ≠ τ b

/-- `l'` is what `l` becomes when it is cut at the first conflict only -/
def CutAtConflict (l : List E) (k : ℕ) (es l' : List E) : Prop :=
  ((∀ j, ¬ Conflict τ l k es j) → l <+: l' ∧ l'.length = max l.length (k + es.length)) ∧
    ∀ j, Conflict τ l k es j → (∀ i < j, ¬ Conflict τ l k es i) → l' = l.take (k + j) ++ es.drop j

variable {τ}

/-- below `matchLen` the terms are equal -/
theorem matchLen_terms {l es : List E} {i : ℕ} (hi : i < matchLen τ l es) :
    ∃ a b, l[i]? = some a ∧ es[i]? = some b ∧ τ a = τ b := by
  induction l generalizing es i with
  | nil => simp [matchLen] at hi
  | cons a l ih =>
    cases es with
    | nil => simp [matchLen] at hi
    | cons b es =>
      simp only [matchLen] at hi
      split_ifs at hi with hab
      · cases i with
        | zero => exact ⟨a, b, rfl, rfl, hab⟩
        | succ i => exact ih (by omega)
      · omega

/-- the run of equal terms ends at the end of a list or at different terms -/
theorem matchLen_stops {l es : List E} {a b : E} (ha : l[matchLen τ l es]? = some a)
    (hb : es[matchLen τ l es]? = some b) : τ a ≠ τ b := by
  induction l generalizing es with
  | nil => cases ha
  | cons x l ih =>
    cases es with
    | nil => cases hb
    | cons y es =>
      simp only [matchLen] at ha hb
      split_ifs at ha hb with hxy
      · exact ih ha hb
      · obtain rfl : x = a := Option.some.inj ha
        obtain rfl : y = b := Option.some.inj hb
        exact hxy

theorem matchLen_le (τ : E → ℕ) (l es : List E) : matchLen τ l es ≤ l.length ∧ matchLen τ l es ≤ es.length := by
  by_contra hgt
  generalize hm : matchLen τ l es = m at hgt
  cases m with
  | zero => omega
  | succ m =>
    obtain ⟨a, b, ha, hb, -⟩ := matchLen_terms (hm ▸ Nat.lt_succ_self m : m < matchLen τ l es)
    have hl := (List.getElem?_eq_some_iff.mp ha).1
    have hes := (List.getElem?_eq_some_iff.mp hb).1
    omega

theorem matchLen_of_conflict {l es : List E} {k j : ℕ} (hj : Conflict τ l k es j)
    (hfirst : ∀ i < j, ¬ Conflict τ l k es i) : matchLen τ (l.drop k) es = j := by
  obtain ⟨a, b, ha, hb, hab⟩ := hj
  rcases Nat.lt_trichotomy (matchLen τ (l.drop k) es) j with hlt | heq | hgt
  · -- the run ends before `j`, where both lists still have entries
    have hl := (List.getElem?_eq_some_iff.mp ha).1
    have hes := (List.getElem?_eq_some_iff.mp hb).1
    obtain ⟨x, hx⟩ : ∃ x, (l.drop k)[matchLen τ (l.drop k) es]? = some x := by
      rw [List.getElem?_drop]
      exact ⟨_, List.getElem?_eq_getElem (by omega)⟩
    obtain ⟨y, hy⟩ : ∃ y, es[matchLen τ (l.drop k) es]? = some y := ⟨_, List.getElem?_eq_getElem (by omega)⟩
    have hxy := matchLen_stops hx hy
    rw [List.getElem?_drop] at hx
    exact absurd ⟨x, y, hx, hy, hxy⟩ (hfirst _ hlt)
  · exact heq
  · obtain ⟨x, y, hx, hy, hxy⟩ := matchLen_terms hgt
    rw [List.getElem?_drop, ha] at hx
    rw [hb] at hy
    cases hx
    cases hy
    exact absurd hxy hab

theorem matchLen_of_noConflict {l es : List E} {k : ℕ} (hnone : ∀ j, ¬ Conflict τ l k es j) :
    matchLen τ (l.drop k) es = min (l.length - k) es.length := by
  obtain ⟨hl, hes⟩ := matchLen_le τ (l.drop k) es
  rw [List.length_drop] at hl
  by_contra hne
  obtain ⟨x, hx⟩ : ∃ x, (l.drop k)[matchLen τ (l.drop k) es]? = some x :=
    ⟨_, List.getElem?_eq_getElem (by rw [List.length_drop]; omega)⟩
  obtain ⟨y, hy⟩ : ∃ y, es[matchLen τ (l.drop k) es]? = some y := ⟨_, List.getElem?_eq_getElem (by omega)⟩
  have hxy := matchLen_stops hx hy
  rw [List.getElem?_drop] at hx
  exact hnone _ ⟨x, y, hx, hy, hxy⟩

/-- a merge cuts at conflicts only, unless the batch ends inside the log without one -/
theorem merge_cutAtConflict_iff {l es : List E} {k : ℕ} (hk : k ≤ l.length) :
    CutAtConflict τ l k es (merge τ l k es) ↔ (∃ j, Conflict τ l k es j) ∨ es = [] ∨ l.length ≤ k + es.length := by
  by_cases hex : ∃ j, Conflict τ l k es j
  · obtain ⟨j₀, hj₀⟩ := hex
    refine iff_of_true ⟨fun hnone => absurd hj₀ (hnone j₀), fun j hj hfirst => ?_⟩ (.inl ⟨j₀, hj₀⟩)
    have hes : es ≠ [] := by
      rintro rfl
      obtain ⟨a, b, -, hb, -⟩ := hj
      cases hb
    rw [merge, if_neg hes, matchLen_of_conflict hj hfirst]
  have hnone := not_exists.mp hex
  have hiff : CutAtConflict τ l k es (merge τ l k es) ↔
      l <+: merge τ l k es ∧ (merge τ l k es).length = max l.length (k + es.length) :=
    ⟨fun h => h.1 hnone, fun h => ⟨fun _ => h, fun j hj => absurd hj (hnone j)⟩⟩
  rw [hiff]
  by_cases hes : es = []
  · subst hes
    refine iff_of_true ?_ (.inr (.inl rfl))
    rw [merge, if_pos rfl, List.length_nil, Nat.add_zero, max_eq_left hk]
    exact ⟨List.prefix_refl _, rfl⟩
  rw [merge, if_neg hes, matchLen_of_noConflict hnone]
  by_cases hlen : l.length ≤ k + es.length
  · refine iff_of_true ?_ (.inr (.inr hlen))
    rw [min_eq_left (by omega), Nat.add_sub_cancel' hk, List.take_length, List.length_append, List.length_drop]
    exact ⟨List.prefix_append _ _, by omega⟩
  · refine iff_of_false (fun h => ?_) (by simp [hex, hes, hlen])
    have hle := h.1.length_le
    rw [min_eq_right (by omega), List.drop_length, List.append_nil, List.length_take] at hle
    omega

theorem merge_ne_nil {l es : List E} {k : ℕ} (hl : l ≠ []) : merge τ l (k + 1) es ≠ [] := by
  unfold merge
  split_ifs
  · exact hl
  · simp [List.take_eq_nil_iff, hl]

theorem mem_merge {l es : List E} {k : ℕ} {e : E} (he : e ∈ merge τ l k es) : e ∈ l ∨ e ∈ es := by
  unfold merge at he
  split_ifs at he
  · exact Or.inl he
  · rcases List.mem_append.1 he with h | h
    · exact Or.inl (List.mem_of_mem_take h)
    · exact Or.inr (List.mem_of_mem_drop h)

/-- a merge from index `k` on keeps what is below `k` -/
theorem take_merge (l es : List E) {k : ℕ} (hk : k ≤ l.length) : (merge τ l k es).take k = l.take k := by
  unfold merge
  split_ifs
  · rfl
  · rw [List.take_append_of_le_length (by simp; omega), List.take_take, min_eq_left (by omega)]

theorem matchLen_of_prefix_left {l es : List E} (h : es <+: l) : matchLen τ l es = es.length := by
  obtain ⟨r, rfl⟩ := h
  induction es with
  | nil => cases r <;> simp [matchLen]
  | cons e es ih => simp [matchLen, ih]

variable {C : ℕ → List E} {l full : List E} {k : ℕ}

/-- coherent logs that match at `k - 1` agree up to the end of the matching run after `k` -/
theorem take_matchLen (hl : Coherent τ C l) (hf : Coherent τ C full) (hk : l.take k = full.take k) :
    l.take (k + matchLen τ (l.drop k) (full.drop k)) = full.take (k + matchLen τ (l.drop k) (full.drop k)) := by
  generalize hm : matchLen τ (l.drop k) (full.drop k) = m
  cases m with
  | zero => simpa using hk
  | succ m =>
    obtain ⟨a, b, ha, hb, hab⟩ := matchLen_terms (show m < matchLen τ (l.drop k) (full.drop k) by omega)
    rw [List.getElem?_drop] at ha hb
    exact hl.agree hf ha hb hab

/-- **A merge of coherent logs.** If `l` and `full` agree below `k`, merging what `full` has from `k` on leaves `l`
when the batch is empty and exactly `full` when it is not. -/
theorem merge_coherent (hl : Coherent τ C l) (hf : Coherent τ C full) (hk : l.take k = full.take k) :
    merge τ l k (full.drop k) = if full.length ≤ k then l else full := by
  unfold merge
  simp only [List.drop_eq_nil_iff]
  split_ifs with h
  · rfl
  · rw [take_matchLen hl hf hk, List.drop_drop, List.take_append_drop]

/-- after the merge the log starts with the log the batch was taken from -/
theorem prefix_merge (hl : Coherent τ C l) (hf : Coherent τ C full) (hk : l.take k = full.take k) :
    full <+: merge τ l k (full.drop k) := by
  rw [merge_coherent hl hf hk]
  split_ifs with h
  · rw [← List.take_of_length_le h, ← hk]; exact List.take_prefix _ _
  · exact List.prefix_refl _

/-- when `full` is a proper prefix of `l`, a non-empty batch of it cuts -/
theorem cuts_of_prefix_left (hp : full <+: l) (hlt : full.length < l.length) (hk : k < full.length) :
    Cuts τ l k (full.drop k) := by
  refine ⟨?_, matchLen_of_prefix_left (hp.drop k), ?_⟩
  · rw [ne_eq, List.drop_eq_nil_iff]; omega
  · rw [List.length_drop]; omega

/-- a merge that does not cut keeps every prefix of `l` that lies in the log `full` was taken from -/
theorem merge_keeps (hl : Coherent τ C l) (hf : Coherent τ C full) (hk : l.take k = full.take k)
    (hcut : ¬ Cuts τ l k (full.drop k)) {L X : List E} (hfL : full <+: L) (hXL : X <+: L) (hX : X <+: l) :
    X <+: merge τ l k (full.drop k) := by
  rw [merge_coherent hl hf hk]
  split_ifs with h
  · exact hX
  · rcases prefix_total hXL hfL with hXf | hfX
    · exact hXf
    · have hfl : full <+: l := hfX.trans hX
      rcases Nat.lt_or_ge full.length l.length with hlt | hge
      · exact absurd (cuts_of_prefix_left hfl hlt (by omega)) hcut
      · rw [hfl.eq_of_length_le hge]; exact hX

end Merge

/-! ## Merging logs that meet in one entry -/

section Splice

variable {E : Type} {τ : E → ℕ}

/-- below the splice a spliced list is the first list, from the splice on the second -/
theorem getElem?_splice {l full : List E} {m : ℕ} (hm : m ≤ l.length) (i : ℕ) :
    (l.take m ++ full.drop m)[i]? = if i < m then l[i]? else full[i]? := by
  have hlen : (l.take m).length = m := by rw [List.length_take, min_eq_left hm]
  split_ifs with hi
  · rw [List.getElem?_append_left (by omega), List.getElem?_take_of_lt hi]
  · rw [List.getElem?_append_right (by omega), hlen, List.getElem?_drop]
    congr 1
    omega

/-- a merge at an entry of the same term in both logs splices them at a later such entry, or changes nothing -/
theorem merge_splice {l full : List E} {prev : ℕ} {a b : E} (ha : l[prev]? = some a) (hb : full[prev]? = some b)
    (hab : τ a = τ b) :
    merge τ l (prev + 1) (full.drop (prev + 1)) = l ∨
      ∃ m x y, l[m]? = some x ∧ full[m]? = some y ∧ τ x = τ y ∧
        merge τ l (prev + 1) (full.drop (prev + 1)) = l.take (m + 1) ++ full.drop (m + 1) := by
  unfold merge
  split_ifs with hnil
  · exact Or.inl rfl
  right
  rw [List.drop_drop]
  generalize hj : matchLen τ (l.drop (prev + 1)) (full.drop (prev + 1)) = j
  cases j with
  | zero => exact ⟨prev, a, b, ha, hb, hab, rfl⟩
  | succ j =>
    obtain ⟨x, y, hx, hy, hxy⟩ :=
      matchLen_terms (show j < matchLen τ (l.drop (prev + 1)) (full.drop (prev + 1)) by omega)
    rw [List.getElem?_drop] at hx hy
    exact ⟨prev + 1 + j, x, y, hx, hy, hxy, rfl⟩

/-- the terms of a log never decrease along it -/
def Ascending (τ : E → ℕ) (l : List E) : Prop :=
  ∀ (i j : ℕ) (a b : E), i ≤ j → l[i]? = some a → l[j]? = some b → τ a ≤ τ b

theorem Ascending.snoc {l : List E} (h : Ascending τ l) {e : E} (he : ∀ a ∈ l, τ a ≤ τ e) : Ascending τ (l ++ [e]) := by
  intro i j a b hij hi hj
  rw [List.getElem?_append] at hi hj
  split_ifs at hi hj with h1 h2
  · exact h i j a b hij hi hj
  · obtain ⟨rfl⟩ : e = b := by
      have := List.mem_of_getElem? hj
      simpa [eq_comm] using this
    exact he a (List.mem_of_getElem? hi)
  · omega
  · have h3 := List.mem_of_getElem? hi
    have h4 := List.mem_of_getElem? hj
    simp only [List.mem_singleton] at h3 h4
    rw [h3, h4]

/-- a merge keeps the terms in order -/
theorem Ascending.merge {l full : List E} (hl : Ascending τ l) (hf : Ascending τ full) {prev : ℕ} {a b : E}
    (ha : l[prev]? = some a) (hb : full[prev]? = some b) (hab : τ a = τ b) :
    Ascending τ (merge τ l (prev + 1) (full.drop (prev + 1))) := by
  rcases merge_splice ha hb hab with heq | ⟨m, x, y, hx, hy, hxy, heq⟩ <;> rw [heq]
  · exact hl
  · have hm := (List.getElem?_eq_some_iff.1 hx).1
    intro i j u v hij hi hj
    rw [getElem?_splice (by omega)] at hi hj
    split_ifs at hi hj with h1 h2
    · exact hl i j u v hij hi hj
    · -- across the splice, by way of the entry in front of it
      calc τ u ≤ τ x := hl i m u x (by omega) hi hx
        _ = τ y := hxy
        _ ≤ τ v := hf m j y v (by omega) hy hj
    · omega
    · exact hf i j u v hij hi hj

/-- a merge leaves every entry at an index where the log or the batch's log has it -/
theorem getElem?_merge {l full : List E} {prev : ℕ} {a b : E} (ha : l[prev]? = some a) (hb : full[prev]? = some b)
    (hab : τ a = τ b) {i : ℕ} {e : E} (he : (merge τ l (prev + 1) (full.drop (prev + 1)))[i]? = some e) :
    l[i]? = some e ∨ full[i]? = some e := by
  rcases merge_splice ha hb hab with heq | ⟨m, x, y, hx, -, -, heq⟩ <;> rw [heq] at he
  · exact Or.inl he
  · have hm := (List.getElem?_eq_some_iff.1 hx).1
    rw [getElem?_splice (by omega)] at he
    split_ifs at he with hi
    · exact Or.inl he
    · exact Or.inr he

end Splice

/-! ## Elections and leader completeness -/

section Elections

variable {ι E : Type} [Fintype ι] (τ : E → ℕ)

/-- the term of the last entry -/
def lastTerm (l : List E) : ℕ :=
  match l.getLast? with
  | some e => τ e
  | none => 0

/-- `cl` is at least as up to date as `vl`: a later last term, or the same one and no shorter -/
def UpToDate (cl vl : List E) : Prop :=
  lastTerm τ vl < lastTerm τ cl ∨ (lastTerm τ cl = lastTerm τ vl ∧ vl.length ≤ cl.length)

theorem UpToDate.refl (l : List E) : UpToDate τ l l := Or.inr ⟨rfl, le_rfl⟩

/-- some leader elected between the terms `t₀` and `t` (both excluded) lacks `X` -/
def LostBetween (elected : ℕ → List E → Prop) (t₀ t : ℕ) (X : List E) : Prop :=
  ∃ t' l, t₀ < t' ∧ t' < t ∧ elected t' l ∧ ¬ X <+: l

theorem LostBetween.mono {elected elected' : ℕ → List E → Prop} {t₀ t t' : ℕ} {X : List E}
    (he : ∀ u l, elected u l → elected' u l) (ht : t ≤ t') (hl : LostBetween elected t₀ t X) :
    LostBetween elected' t₀ t' X := by
  obtain ⟨u, l, h1, h2, h3, h4⟩ := hl
  exact ⟨u, l, h1, by omega, he u l h3, h4⟩

/-- A history of elections. `C t` is the log of term `t`, `elected t l` says that a leader of term `t` started with
log `l`, and `acked v t l` that node `v` acknowledged the log `l` in term `t`. -/
structure Elections (C : ℕ → List E) (elected : ℕ → List E → Prop) (acked : ι → ℕ → List E → Prop) : Prop where
  base : ∀ t l, elected t l → l <+: C t
  below : ∀ t l, elected t l → ∀ e ∈ l, τ e < t
  bound : ∀ t, ∀ e ∈ C t, τ e ≤ t
  origin : ∀ t e, e ∈ C t → 0 < τ e → ∃ l, elected (τ e) l
  coherent : ∀ t l, elected t l → Coherent τ C l
  /-- a majority found the leader's log up to date, each at a moment when it still had what it acknowledged earlier,
  unless a leader in between had not -/
  backed : ∀ t cl, elected t cl → ∃ Q : Finset ι, Majority Q ∧ ∀ v ∈ Q, ∃ vl, Coherent τ C vl ∧ UpToDate τ cl vl ∧
    ∀ t₀ full X, t₀ < t → acked v t₀ full → X <+: full → X <+: vl ∨ LostBetween elected t₀ t X

variable {τ} {C : ℕ → List E} {elected : ℕ → List E → Prop} {acked : ι → ℕ → List E → Prop}

theorem lastTerm_of_getLast? {l : List E} {e : E} (h : l.getLast? = some e) : lastTerm τ l = τ e := by
  simp [lastTerm, h]

theorem exists_getLast? {l : List E} (h : l ≠ []) : ∃ e, l.getLast? = some e :=
  ⟨l.getLast h, List.getLast?_eq_some_getLast h⟩

/-- the last term of a coherent log bounds the terms of all its entries -/
theorem Elections.le_lastTerm (H : Elections τ C elected acked) {l : List E} (hl : Coherent τ C l) {e : E}
    (he : e ∈ l) : τ e ≤ lastTerm τ l := by
  obtain ⟨x, hx⟩ := exists_getLast? (List.ne_nil_of_mem he)
  rw [lastTerm_of_getLast? hx]
  exact H.bound _ e ((hl.last hx).subset he)

/-- an up-to-date log takes over a prefix `X` of the voter's log, when every leader in between has `X` -/
theorem Elections.carry (H : Elections τ C elected acked) {X vl cl : List E} {e : E} {t : ℕ}
    (hX : X.getLast? = some e) (hXv : X <+: vl) (hvl : Coherent τ C vl) (hcl : elected t cl)
    (hup : UpToDate τ cl vl) (hbetween : ¬ LostBetween elected (τ e) t X) : X <+: cl := by
  have heX : e ∈ X := List.mem_of_getLast? hX
  have hev : τ e ≤ lastTerm τ vl := H.le_lastTerm hvl (hXv.subset heX)
  have hclC := H.coherent t cl hcl
  obtain ⟨v, hv⟩ := exists_getLast? (List.ne_nil_of_mem (hXv.subset heX))
  have hvC := hvl.last hv
  unfold UpToDate at hup
  rw [lastTerm_of_getLast? hv] at hev hup
  rcases hup with hlt | ⟨heq, hlen⟩
  · -- the candidate's last entry belongs to a leader elected in between, which has `X`
    have hne : cl ≠ [] := by rintro rfl; simp [lastTerm] at hlt
    obtain ⟨c, hc⟩ := exists_getLast? hne
    rw [lastTerm_of_getLast? hc] at hlt
    have hcmem : c ∈ cl := List.mem_of_getLast? hc
    have hcC := hclC.last hc
    obtain ⟨l, hl⟩ := H.origin (τ c) c (hcC.subset hcmem) (by omega)
    have hXl : X <+: l := by
      by_contra hn
      exact hbetween ⟨τ c, l, by omega, H.below t cl hcl c hcmem, hl, hn⟩
    rcases prefix_total (H.base _ l hl) hcC with h | h
    · exact hXl.trans h
    · exact absurd (H.below _ l hl c (h.subset hcmem)) (lt_irrefl _)
  · -- both logs end in the same term: the longer one contains the shorter
    have hvpos : 0 < vl.length := List.length_pos_iff.2 (List.ne_nil_of_mem (hXv.subset heX))
    have hne : cl ≠ [] := by rintro rfl; simp only [List.length_nil] at hlen; omega
    obtain ⟨c, hc⟩ := exists_getLast? hne
    rw [lastTerm_of_getLast? hc] at heq
    have hcC := hclC.last hc
    rw [heq] at hcC
    exact hXv.trans (List.prefix_of_prefix_length_le hvC hcC hlen)

/-- **Leader completeness.** If a majority acknowledged `X` in the term of its last entry, every leader of a later
term starts with `X`. -/
theorem Elections.complete [DecidableEq ι] (H : Elections τ C elected acked) {X : List E} {e : E}
    (hX : X.getLast? = some e) {Q : Finset ι} (hQ : Majority Q)
    (hack : ∀ v ∈ Q, ∃ full, acked v (τ e) full ∧ X <+: full) :
    ∀ t cl, τ e < t → elected t cl → X <+: cl := by
  intro t
  -- strong induction on the later term: the leaders in between already have `X`
  induction t using Nat.strong_induction_on with
  | _ t ih =>
    intro cl ht hcl
    have hbetween : ¬ LostBetween elected (τ e) t X := by
      rintro ⟨t', l, h1, h2, h3, h4⟩
      exact h4 (ih t' h2 l h1 h3)
    obtain ⟨R, hR, hvotes⟩ := H.backed t cl hcl
    obtain ⟨v, hvQ, hvR⟩ := hQ.inter hR
    obtain ⟨vl, hvl, hup, hkeep⟩ := hvotes v hvR
    obtain ⟨full, hfull, hXf⟩ := hack v hvQ
    rcases hkeep (τ e) full X ht hfull hXf with hXv | hlost
    · exact H.carry hX hXv hvl hcl hup hbetween
    · exact absurd hlost hbetween

end Elections

end CS240.Lib
