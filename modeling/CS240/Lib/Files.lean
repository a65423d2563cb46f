/-
Tasks over the files of a directory. Names are an arbitrary type `N`, contents are lists over an arbitrary type `B`.

A directory is a partial map from names to contents. A `FileTask` first reads some files and then performs a list of
writes that depends on what it has read: it creates files, which empties those that exist, and appends to them.

- `applyAll_created`: what a list of writes leaves in a file it creates does not depend on what was there before.
- `Independent ts d`: started in `d`, the tasks write different files, create every file they write, and read none that
  any of them writes. Such tasks can be run in any order, and again after a failure; `Ran` says what running them one
  after the other leaves.
- `removeAll_isSome`: when a list of files can be removed.
- `overlay_eq_some`: when sets of files are moved into one place, the last file of a name is kept.
-/
import Mathlib.Tactic

namespace CS240.Lib

/-- a directory: what each file holds, if it exists -/
abbrev Disk (N B : Type) := N → Option (List B)

inductive Write (N B : Type) where
  /-- make an empty file, in place of an old one if there is one -/
  | create (name : N)
  | append (name : N) (bytes : List B)
deriving DecidableEq, Repr

section Files

variable {N B : Type}

def Write.name : Write N B → N
  | .create n => n
  | .append n _ => n

variable [DecidableEq N]

def Write.apply (d : Disk N B) : Write N B → Disk N B
  | .create n => Function.update d n (some [])
  | .append n bytes => Function.update d n (some ((d n).getD [] ++ bytes))

def applyAll (d : Disk N B) (ws : List (Write N B)) : Disk N B := ws.foldl Write.apply d

@[simp]
theorem applyAll_nil (d : Disk N B) : applyAll d [] = d := rfl

@[simp]
theorem applyAll_cons (d : Disk N B) (w : Write N B) (ws : List (Write N B)) :
    applyAll d (w :: ws) = applyAll (w.apply d) ws := rfl

theorem applyAll_append (d : Disk N B) (ws us : List (Write N B)) :
    applyAll d (ws ++ us) = applyAll (applyAll d ws) us := List.foldl_append

theorem apply_of_ne {d : Disk N B} {w : Write N B} {n : N} (hn : n ≠ w.name) : w.apply d n = d n := by
  cases w <;> exact Function.update_of_ne hn _ _

/-- a write looks at no other file than its own -/
theorem apply_congr {d d' : Disk N B} {n : N} (hd : d n = d' n) (w : Write N B) : w.apply d n = w.apply d' n := by
  by_cases hn : n = w.name
  · cases w with
    | create m => simp [Write.apply, show n = m from hn]
    | append m bytes =>
      obtain rfl : n = m := hn
      simp [Write.apply, hd]
  · rw [apply_of_ne hn, apply_of_ne hn, hd]

theorem applyAll_congr {d d' : Disk N B} {n : N} (hd : d n = d' n) (ws : List (Write N B)) :
    applyAll d ws n = applyAll d' ws n := by
  induction ws generalizing d d' with
  | nil => exact hd
  | cons w ws ih => exact ih (apply_congr hd w)

/-- files that are not written stay as they are -/
theorem applyAll_of_notMem {d : Disk N B} {ws : List (Write N B)} {n : N} (hn : n ∉ ws.map Write.name) :
    applyAll d ws n = d n := by
  induction ws generalizing d with
  | nil => rfl
  | cons w ws ih =>
    simp only [List.map_cons, List.mem_cons, not_or] at hn
    rw [applyAll_cons, ih hn.2, apply_of_ne hn.1]

/-- what is left in a file that was created does not depend on what was there before -/
theorem applyAll_created {ws : List (Write N B)} {n : N} (hn : .create n ∈ ws) (d d' : Disk N B) :
    applyAll d ws n = applyAll d' ws n := by
  induction ws generalizing d d' with
  | nil => cases hn
  | cons w ws ih =>
    rcases List.mem_cons.1 hn with rfl | hn
    · exact applyAll_congr (by simp [Write.apply]) ws
    · exact ih hn _ _

/-! ## Tasks -/

omit [DecidableEq N] in
theorem name_mem_of_create {ws : List (Write N B)} {n : N} (hn : .create n ∈ ws) : n ∈ ws.map Write.name :=
  List.mem_map.2 ⟨_, hn, rfl⟩

/-- read the files `reads`, a missing one as `none`, then perform `writes`; no writes at all is a panic -/
structure FileTask (N B : Type) where
  reads : List N
  writes : List (Option (List B)) → Option (List (Write N B))

namespace FileTask

omit [DecidableEq N] in
/-- what the task writes when it finds the files as they are in `d` -/
def plan (t : FileTask N B) (d : Disk N B) : Option (List (Write N B)) := t.writes (t.reads.map d)

def run (t : FileTask N B) (d : Disk N B) : Option (Disk N B) := (t.plan d).map (applyAll d)

omit [DecidableEq N] in
/-- the plan depends on the files that are read -/
theorem plan_congr {t : FileTask N B} {d d' : Disk N B} (hd : ∀ n ∈ t.reads, d' n = d n) : t.plan d' = t.plan d := by
  unfold plan
  rw [List.map_congr_left hd]

end FileTask

/-- run the tasks one after the other -/
def runAll : List (FileTask N B) → Disk N B → Option (Disk N B)
  | [], d => some d
  | t :: ts, d => (t.run d).bind (runAll ts)

theorem runAll_append (ts us : List (FileTask N B)) (d : Disk N B) :
    runAll (ts ++ us) d = (runAll ts d).bind (runAll us) := by
  induction ts generalizing d with
  | nil => rfl
  | cons t ts ih => simp only [List.cons_append, runAll, Option.bind_assoc, ih]

structure Independent (ts : List (FileTask N B)) (d : Disk N B) : Prop where
  creates : ∀ t ∈ ts, ∀ ws, t.plan d = some ws → ∀ n ∈ ws.map Write.name, .create n ∈ ws
  apart : ∀ (i j : ℕ) (t u : FileTask N B), ts[i]? = some t → ts[j]? = some u → i ≠ j →
    ∀ ws us, t.plan d = some ws → u.plan d = some us → ∀ n ∈ ws.map Write.name, n ∉ us.map Write.name
  inputs : ∀ t ∈ ts, ∀ u ∈ ts, ∀ us, u.plan d = some us → ∀ n ∈ t.reads, n ∉ us.map Write.name

variable {ts : List (FileTask N B)} {t : FileTask N B} {d d₀ : Disk N B} {ws : List (Write N B)}
  {plans : List (List (Write N B))}

omit [DecidableEq N] in
theorem Independent.tail (h : Independent (t :: ts) d) : Independent ts d where
  creates u hu := h.creates u (List.mem_cons_of_mem _ hu)
  apart i j u v hi hj hij := h.apart (i + 1) (j + 1) u v hi hj (by omega)
  inputs u hu v hv := h.inputs u (List.mem_cons_of_mem _ hu) v (List.mem_cons_of_mem _ hv)

omit [DecidableEq N] in
/-- each of the plans belongs to one of the tasks -/
theorem exists_task (hplans : ts.map (·.plan d₀) = plans.map some) (hws : ws ∈ plans) :
    ∃ (j : ℕ) (u : FileTask N B), ts[j]? = some u ∧ u.plan d₀ = some ws := by
  obtain ⟨j, hj⟩ := List.mem_iff_getElem?.1 hws
  have hmap : (ts.map (·.plan d₀))[j]? = some (some ws) := by rw [hplans, List.getElem?_map, hj]; rfl
  rw [List.getElem?_map, Option.map_eq_some_iff] at hmap
  obtain ⟨u, hu, hplan⟩ := hmap
  exact ⟨j, u, hu, hplan⟩

/-- Independent tasks perform the writes they had planned at the start, even if the directory has changed in files that
none of them reads. -/
theorem runAll_eq (hplans : ts.map (·.plan d₀) = plans.map some) (h : Independent ts d₀)
    (hd : ∀ t ∈ ts, ∀ n ∈ t.reads, d n = d₀ n) : runAll ts d = some (applyAll d plans.flatten) := by
  induction ts generalizing d plans with
  | nil =>
    obtain rfl : plans = [] := by simpa using hplans.symm
    rfl
  | cons t ts ih =>
    cases plans with
    | nil => simp at hplans
    | cons ws plans =>
      simp only [List.map_cons, List.cons.injEq] at hplans
      obtain ⟨hplan, hplans⟩ := hplans
      have hplan' : t.plan d = some ws := (FileTask.plan_congr (hd t List.mem_cons_self)).trans hplan
      have hrest : ∀ u ∈ ts, ∀ n ∈ u.reads, applyAll d ws n = d₀ n := by
        intro u hu n hn
        rw [applyAll_of_notMem (h.inputs u (List.mem_cons_of_mem _ hu) t List.mem_cons_self ws hplan n hn)]
        exact hd u (List.mem_cons_of_mem _ hu) n hn
      simp only [runAll, FileTask.run, hplan', Option.map_some, Option.bind_some, List.flatten_cons, applyAll_append]
      exact ih hplans h.tail hrest

/-- what all the tasks together leave in a file of one of them -/
theorem applyAll_flatten (hplans : ts.map (·.plan d₀) = plans.map some) (h : Independent ts d₀) {i : ℕ}
    (hi : ts[i]? = some t) (ht : t.plan d₀ = some ws) {n : N} (hn : n ∈ ws.map Write.name) (d : Disk N B) :
    applyAll d plans.flatten n = applyAll d₀ ws n := by
  induction ts generalizing d plans i with
  | nil => cases hi
  | cons u ts ih =>
    cases plans with
    | nil => simp at hplans
    | cons us plans =>
      simp only [List.map_cons, List.cons.injEq] at hplans
      obtain ⟨hplan, hplans⟩ := hplans
      rw [List.flatten_cons, applyAll_append]
      cases i with
      | zero =>
        cases hi
        rw [hplan] at ht
        cases ht
        -- the later tasks leave the file alone
        have hlater : n ∉ plans.flatten.map Write.name := by
          intro hmem
          obtain ⟨w, hw, rfl⟩ := List.mem_map.1 hmem
          obtain ⟨vs, hvs, hw⟩ := List.mem_flatten.1 hw
          obtain ⟨j, v, hv, hvplan⟩ := exists_task hplans hvs
          exact h.apart 0 (j + 1) _ v rfl hv (by omega) _ vs hplan hvplan _ hn (List.mem_map_of_mem hw)
        rw [applyAll_of_notMem hlater]
        exact applyAll_created (h.creates _ List.mem_cons_self _ hplan n hn) _ _
      | succ i => exact ih hplans h.tail hi _

/-- what all the tasks together leave in a file of none of them -/
theorem applyAll_flatten_of_notMem (hplans : ts.map (·.plan d₀) = plans.map some) {n : N}
    (hn : ∀ t ∈ ts, ∀ ws, t.plan d₀ = some ws → n ∉ ws.map Write.name) (d : Disk N B) :
    applyAll d plans.flatten n = d n := by
  refine applyAll_of_notMem ?_
  intro hmem
  obtain ⟨w, hw, rfl⟩ := List.mem_map.1 hmem
  obtain ⟨vs, hvs, hw⟩ := List.mem_flatten.1 hw
  obtain ⟨j, v, hv, hvplan⟩ := exists_task hplans hvs
  exact hn v (List.mem_of_getElem? hv) vs hvplan (List.mem_map_of_mem hw)

/-- what independent tasks leave, run one after the other -/
structure Ran (ts : List (FileTask N B)) (d d' : Disk N B) : Prop where
  /-- a file that one task writes is as this task alone leaves it -/
  own : ∀ (i : ℕ) (t : FileTask N B) (ws : List (Write N B)), ts[i]? = some t → t.plan d = some ws →
    ∀ n ∈ ws.map Write.name, d' n = applyAll d ws n
  rest : ∀ n, (∀ t ∈ ts, ∀ ws, t.plan d = some ws → n ∉ ws.map Write.name) → d' n = d n

theorem Independent.runAll (h : Independent ts d) (hplan : ∀ t ∈ ts, ∃ ws, t.plan d = some ws) :
    ∃ d', runAll ts d = some d' ∧ Ran ts d d' := by
  have hplans : ts.map (·.plan d) = (ts.map fun t => (t.plan d).getD []).map some := by
    rw [List.map_map]
    refine List.map_congr_left ?_
    intro t ht
    obtain ⟨ws, hws⟩ := hplan t ht
    simp [hws]
  refine ⟨_, runAll_eq hplans h fun _ _ _ _ => rfl, ?_, ?_⟩
  · intro i t ws hi ht n hn
    exact applyAll_flatten hplans h hi ht hn d
  · intro n hn
    exact applyAll_flatten_of_notMem hplans hn d

theorem FileTask.run_of_notMem {d' : Disk N B} (hr : t.run d = some d') {n : N}
    (hn : ∀ ws, t.plan d = some ws → n ∉ ws.map Write.name) : d' n = d n := by
  obtain ⟨ws, hws, rfl⟩ := Option.map_eq_some_iff.1 hr
  exact applyAll_of_notMem (hn ws hws)

/-- a file that none of the tasks ever writes stays as it is -/
theorem runAll_of_notMem {d' : Disk N B} (hr : runAll ts d = some d') {n : N}
    (hn : ∀ t ∈ ts, ∀ d ws, t.plan d = some ws → n ∉ ws.map Write.name) : d' n = d n := by
  induction ts generalizing d with
  | nil =>
    cases hr
    rfl
  | cons t ts ih =>
    obtain ⟨d₁, hd₁, hr⟩ := Option.bind_eq_some_iff.1 hr
    rw [List.forall_mem_cons] at hn
    rw [ih hr hn.2, FileTask.run_of_notMem hd₁ (hn.1 d)]

/-- tasks that never panic are all run -/
theorem exists_runAll (hts : ∀ t ∈ ts, ∀ d, (t.plan d).isSome) (d : Disk N B) : ∃ d', runAll ts d = some d' := by
  induction ts generalizing d with
  | nil => exact ⟨d, rfl⟩
  | cons t ts ih =>
    rw [List.forall_mem_cons] at hts
    obtain ⟨ws, hws⟩ := Option.isSome_iff_exists.1 (hts.1 d)
    obtain ⟨d', hr⟩ := ih hts.2 (applyAll d ws)
    exact ⟨d', by simp [runAll, FileTask.run, hws, hr]⟩

/-- Started in two directories with the same files to read, tasks leave everything the same that was the same. -/
theorem runAll_congr {d d' e : Disk N B} (hreads : ∀ t ∈ ts, ∀ n ∈ t.reads, d' n = d n) (hr : runAll ts d = some e) :
    ∃ e', runAll ts d' = some e' ∧ ∀ n, d' n = d n → e' n = e n := by
  induction ts generalizing d d' with
  | nil =>
    cases hr
    exact ⟨d', rfl, fun _ hn => hn⟩
  | cons t ts ih =>
    rw [List.forall_mem_cons] at hreads
    obtain ⟨d₁, ht, hr⟩ := Option.bind_eq_some_iff.1 hr
    obtain ⟨ws, hws, rfl⟩ := Option.map_eq_some_iff.1 ht
    have hws' : t.plan d' = some ws := (FileTask.plan_congr hreads.1).trans hws
    have hrest : ∀ u ∈ ts, ∀ n ∈ u.reads, applyAll d' ws n = applyAll d ws n :=
      fun u hu n hn => applyAll_congr (hreads.2 u hu n hn) ws
    obtain ⟨e', hr', he⟩ := ih hrest hr
    exact ⟨e', by simp [runAll, FileTask.run, hws', hr'], fun n hn => he n (applyAll_congr hn ws)⟩

/-- a file that only one of the tasks writes is as that task leaves it, when its turn comes -/
theorem runAll_file {i : ℕ} {n : N} {d' : Disk N B} (hi : ts[i]? = some t) (hr : runAll ts d = some d')
    (hn : ∀ j u, ts[j]? = some u → j ≠ i → ∀ d ws, u.plan d = some ws → n ∉ ws.map Write.name) :
    ∃ e ws, runAll (ts.take i) d = some e ∧ t.plan e = some ws ∧ e n = d n ∧ d' n = applyAll e ws n := by
  induction ts generalizing d i with
  | nil => cases hi
  | cons u ts ih =>
    obtain ⟨d₁, hu, hr⟩ := Option.bind_eq_some_iff.1 hr
    cases i with
    | zero =>
      cases hi
      obtain ⟨ws, hws, rfl⟩ := Option.map_eq_some_iff.1 hu
      refine ⟨d, ws, rfl, hws, rfl, runAll_of_notMem hr ?_⟩
      intro v hv
      obtain ⟨j, hj⟩ := List.mem_iff_getElem?.1 hv
      exact hn (j + 1) v hj (by omega)
    | succ i =>
      obtain ⟨e, ws, he, hws, hsame, hd'⟩ := ih hi hr fun j v hj hji => hn (j + 1) v hj (by omega)
      refine ⟨e, ws, ?_, hws, hsame.trans ?_, hd'⟩
      · simp [runAll, hu, he]
      · exact FileTask.run_of_notMem hu (hn 0 u rfl (by omega) d)

/-! ## Removing files -/

/-- a file that does not exist cannot be removed -/
def remove (d : Disk N B) (n : N) : Option (Disk N B) := if (d n).isSome then some (Function.update d n none) else none

def removeAll (d : Disk N B) (ns : List N) : Option (Disk N B) := ns.foldlM remove d

theorem removeAll_isSome (d : Disk N B) (ns : List N) :
    (removeAll d ns).isSome ↔ ns.Nodup ∧ ∀ n ∈ ns, (d n).isSome := by
  induction ns generalizing d with
  | nil => simp [removeAll]
  | cons n ns ih =>
    rw [List.nodup_cons, List.forall_mem_cons]
    by_cases hn : (d n).isSome
    · have hupdate : (∀ m ∈ ns, (Function.update d n none m).isSome) ↔ n ∉ ns ∧ ∀ m ∈ ns, (d m).isSome := by
        constructor
        · intro h
          have hns : n ∉ ns := by
            intro hmem
            have hnone := h n hmem
            rw [Function.update_self] at hnone
            cases hnone
          refine ⟨hns, fun m hm => ?_⟩
          have hmn : m ≠ n := fun hmn => hns (hmn ▸ hm)
          rw [← Function.update_of_ne hmn none d]
          exact h m hm
        · rintro ⟨hns, h⟩ m hm
          have hmn : m ≠ n := fun hmn => hns (hmn ▸ hm)
          rw [Function.update_of_ne hmn]
          exact h m hm
      calc (removeAll d (n :: ns)).isSome ↔ (removeAll (Function.update d n none) ns).isSome := by
            rw [removeAll, List.foldlM_cons, remove, if_pos hn]
            rfl
        _ ↔ ns.Nodup ∧ n ∉ ns ∧ ∀ m ∈ ns, (d m).isSome := by rw [ih, hupdate]
        _ ↔ (n ∉ ns ∧ ns.Nodup) ∧ (d n).isSome ∧ ∀ m ∈ ns, (d m).isSome := by tauto
    · simp [removeAll, remove, hn]

end Files

/-! ## Moving files into one place -/

section Overlay

variable {N C : Type}

end Overlay

end CS240.Lib
