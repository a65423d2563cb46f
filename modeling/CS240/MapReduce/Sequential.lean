/-
What the sequential run writes.

`Job.intermediate json d m r` is what reduce task `r` decodes from the file that map task `m` has for it, in a run
started in directory `d`. The map phase leaves exactly that (`maps_run`), and everything after it is a function of it
(`sequential_output`). In a directory without `mrtmp` files it is the share of `r` in the pairs of `m`, and the output
is the grouping of all pairs by key, for every number of reduce tasks (`sequential_groupedByKey`).
-/
import CS240.MapReduce.Job

namespace CS240.MapReduce

open Lib

variable {json : Json} {jobName : Bytes} {d d' : Disk Bytes Byte}

/-- the pairs that go to reduce task `r` -/
def share (nReduce r : ℕ) (kvs : List KeyValue) : List KeyValue := kvs.filter fun kv => partition nReduce kv.key = r

/-! ## One map task -/

section EncodePairs

variable {m n r : ℕ} {opened : List ℕ} {kvs : List KeyValue} {x : Bytes}

/-- every file that is written is one of the task's own, and it is created unless it was open from the start -/
theorem encodePairs_name (hx : x ∈ (encodePairs json jobName m n opened kvs).map Write.name) :
    ∃ r, x = reduceName jobName m r ∧ (.create x ∈ encodePairs json jobName m n opened kvs ∨ r ∈ opened) := by
  induction kvs generalizing opened with
  | nil => cases hx
  | cons kv kvs ih =>
    simp only [encodePairs] at hx ⊢
    by_cases hr : partition n kv.key ∈ opened
    · rw [if_pos hr] at hx ⊢
      rcases List.mem_cons.1 hx with rfl | hx
      · exact ⟨_, rfl, .inr hr⟩
      · obtain ⟨s, rfl, hs⟩ := ih hx
        exact ⟨s, rfl, hs.imp_left (List.mem_cons_of_mem _)⟩
    · rw [if_neg hr] at hx ⊢
      rcases List.mem_cons.1 hx with rfl | hx
      · exact ⟨_, rfl, .inl List.mem_cons_self⟩
      rcases List.mem_cons.1 hx with rfl | hx
      · exact ⟨_, rfl, .inl List.mem_cons_self⟩
      obtain ⟨s, rfl, hs | hs⟩ := ih hx
      · exact ⟨s, rfl, .inl (List.mem_cons_of_mem _ (List.mem_cons_of_mem _ hs))⟩
      · rcases List.mem_cons.1 hs with rfl | hs
        · exact ⟨_, rfl, .inl List.mem_cons_self⟩
        · exact ⟨s, rfl, .inr hs⟩

/-- what the loop leaves in the file for reduce task `r`: if it has no pair for it, what was there before -/
theorem applyAll_encodePairs : applyAll d (encodePairs json jobName m n opened kvs) (reduceName jobName m r) =
    if share n r kvs = [] then d (reduceName jobName m r)
    else some ((if r ∈ opened then (d (reduceName jobName m r)).getD [] else []) ++
      (share n r kvs).flatMap json.encode) := by
  induction kvs generalizing opened d with
  | nil => rfl
  | cons kv kvs ih =>
    simp only [encodePairs]
    by_cases hr : partition n kv.key = r
    · subst hr
      have hshare : share n (partition n kv.key) (kv :: kvs) = kv :: share n (partition n kv.key) kvs := by
        simp [share]
      rw [hshare, if_neg (List.cons_ne_nil _ _), List.flatMap_cons]
      by_cases ho : partition n kv.key ∈ opened
      · rw [if_pos ho, if_pos ho, applyAll_cons, ih, if_pos ho]
        simp only [Write.apply, Function.update_self, Option.getD_some, List.append_assoc]
        split_ifs with hs <;> simp [hs]
      · rw [if_neg ho, if_neg ho, applyAll_cons, applyAll_cons, ih, if_pos List.mem_cons_self]
        simp only [Write.apply, Function.update_self, Option.getD_some, List.nil_append]
        split_ifs with hs <;> simp [hs]
    · have hshare : share n r (kv :: kvs) = share n r kvs := by simp [share, hr]
      have hname : reduceName jobName m r ≠ reduceName jobName m (partition n kv.key) := by
        intro h
        exact hr (reduceName_inj h).2.symm
      rw [hshare]
      by_cases ho : partition n kv.key ∈ opened
      · rw [if_pos ho, applyAll_cons, ih]
        simp only [Write.apply, Function.update_of_ne hname]
      · rw [if_neg ho, applyAll_cons, applyAll_cons, ih]
        simp only [Write.apply, Function.update_of_ne hname, List.mem_cons, Ne.symm hr, false_or]

end EncodePairs

namespace Job

variable {job : Job}

/-- the pairs of map task `m`, for the inputs as they are in `d` -/
def pairs (job : Job) (d : Disk Bytes Byte) (m : ℕ) : List KeyValue :=
  match job.files[m]? with
  | some f => job.mapF f ((d f).getD [])
  | none => []

def intermediate (job : Job) (json : Json) (d : Disk Bytes Byte) (m r : ℕ) : List KeyValue :=
  let kvs := share job.nReduce r (job.pairs d m)
  if kvs = [] then json.records (d (reduceName job.jobName m r)) else json.decode (kvs.flatMap json.encode)

/-- no input is called like an intermediate file of the job -/
def InputsApart (job : Job) : Prop := ∀ f ∈ job.files, ∀ m r, f ≠ reduceName job.jobName m r

/-! ## The map phase -/

theorem getElem?_maps {i : ℕ} {t : FileTask Bytes Byte} : (job.maps json)[i]? = some t ↔
    ∃ f, job.files[i]? = some f ∧ doMap json job.jobName i f job.nReduce job.mapF = t := by
  rw [maps, List.getElem?_mapIdx, Option.map_eq_some_iff]

theorem doMap_plan {i : ℕ} {f : Bytes} (hf : job.files[i]? = some f) :
    (doMap json job.jobName i f job.nReduce job.mapF).plan d =
      if job.nReduce = 0 ∧ job.pairs d i ≠ [] then none
      else some (encodePairs json job.jobName i job.nReduce [] (job.pairs d i)) := by
  simp only [pairs, hf, FileTask.plan, doMap, List.map_cons, List.map_nil]
  cases d f <;> rfl

theorem maps_plan {i : ℕ} {t : FileTask Bytes Byte} (ht : (job.maps json)[i]? = some t) {ws : List (Write Bytes Byte)}
    (hws : t.plan d = some ws) : ws = encodePairs json job.jobName i job.nReduce [] (job.pairs d i) := by
  obtain ⟨f, hf, rfl⟩ := getElem?_maps.1 ht
  rw [doMap_plan hf] at hws
  split_ifs at hws
  exact (Option.some.inj hws).symm

theorem maps_independent (hin : job.InputsApart) : Independent (job.maps json) d where
  creates := by
    intro t ht ws hws n hn
    obtain ⟨i, hi⟩ := List.mem_iff_getElem?.1 ht
    obtain rfl := maps_plan hi hws
    obtain ⟨r, -, hc | hr⟩ := encodePairs_name hn
    · exact hc
    · cases hr
  apart := by
    intro i j t u hi hj hij ws us hws hus n hn hn'
    obtain rfl := maps_plan hi hws
    obtain rfl := maps_plan hj hus
    obtain ⟨r, rfl, -⟩ := encodePairs_name hn
    obtain ⟨r', hr', -⟩ := encodePairs_name hn'
    exact hij (reduceName_inj hr').1
  inputs := by
    intro t ht u hu us hus n hn hn'
    obtain ⟨i, hi⟩ := List.mem_iff_getElem?.1 ht
    obtain ⟨j, hj⟩ := List.mem_iff_getElem?.1 hu
    obtain ⟨f, hf, rfl⟩ := getElem?_maps.1 hi
    obtain rfl := maps_plan hj hus
    obtain rfl : n = f := List.mem_singleton.1 hn
    obtain ⟨r, hr, -⟩ := encodePairs_name hn'
    exact hin n (List.mem_of_getElem? hf) j r hr

/-- the directory in which the sequential run starts map task `m` -/
def atTurn (job : Job) (json : Json) (d : Disk Bytes Byte) (m : ℕ) : Disk Bytes Byte :=
  (runAll ((job.maps json).take m) d).getD d

theorem maps_isSome (hn : 1 ≤ job.nReduce) : ∀ t ∈ job.maps json, ∀ d, (t.plan d).isSome := by
  intro t ht d
  obtain ⟨i, hi⟩ := List.mem_iff_getElem?.1 ht
  obtain ⟨f, hf, rfl⟩ := getElem?_maps.1 hi
  rw [doMap_plan hf, if_neg (by omega)]
  rfl

theorem runAll_take_maps (json : Json) (d : Disk Bytes Byte) (hn : 1 ≤ job.nReduce) (m : ℕ) :
    runAll ((job.maps json).take m) d = some (job.atTurn json d m) := by
  obtain ⟨e, he⟩ := exists_runAll (fun t ht => maps_isSome hn t (List.mem_of_mem_take ht)) d
  rw [atTurn, he, Option.getD_some]

/-- the file of a map task for a reduce task: written if there is a pair for it, otherwise as it was before -/
theorem maps_files_atTurn (json : Json) (d : Disk Bytes Byte) (hn : 1 ≤ job.nReduce) :
    ∃ d', runAll (job.maps json) d = some d' ∧ ∀ m < job.files.length, ∀ r, d' (reduceName job.jobName m r) =
      if share job.nReduce r (job.pairs (job.atTurn json d m) m) = [] then d (reduceName job.jobName m r)
      else some ((share job.nReduce r (job.pairs (job.atTurn json d m) m)).flatMap json.encode) := by
  have hplan : ∀ t ∈ job.maps json, ∀ d, (t.plan d).isSome := maps_isSome hn
  obtain ⟨d', hrun⟩ := exists_runAll hplan d
  refine ⟨d', hrun, ?_⟩
  intro m hm r
  have hf : (job.maps json)[m]? = some _ := getElem?_maps.2 ⟨_, List.getElem?_eq_getElem hm, rfl⟩
  have hothers : ∀ j u, (job.maps json)[j]? = some u → j ≠ m → ∀ d us, u.plan d = some us →
      reduceName job.jobName m r ∉ us.map Write.name := by
    intro j u hj hjm d us hus hmem
    obtain rfl := maps_plan hj hus
    obtain ⟨s, hs, -⟩ := encodePairs_name hmem
    exact hjm (reduceName_inj hs).1.symm
  obtain ⟨e, ws, he, hws, hsame, hfile⟩ := runAll_file hf hrun hothers
  obtain rfl := maps_plan hf hws
  rw [runAll_take_maps json d hn] at he
  obtain rfl := Option.some.inj he
  rw [hfile, applyAll_encodePairs, if_neg List.not_mem_nil, List.nil_append, hsame]

/-- the inputs are still there when their turn comes -/
theorem pairs_atTurn (d : Disk Bytes Byte) (hin : job.InputsApart) (hn : 1 ≤ job.nReduce) (m : ℕ) :
    job.pairs (job.atTurn json d m) m = job.pairs d m := by
  unfold pairs
  split
  · rename_i f hf
    have hrun := runAll_take_maps json d hn m
    rw [runAll_of_notMem hrun]
    intro t ht d ws hws hmem
    obtain ⟨i, hi⟩ := List.mem_iff_getElem?.1 (List.mem_of_mem_take ht)
    obtain rfl := maps_plan hi hws
    obtain ⟨r, hr, -⟩ := encodePairs_name hmem
    exact hin f (List.mem_of_getElem? hf) i r hr
  · rfl

theorem maps_files (json : Json) (d : Disk Bytes Byte) (hin : job.InputsApart) (hn : 1 ≤ job.nReduce) :
    ∃ d', runAll (job.maps json) d = some d' ∧ ∀ m < job.files.length, ∀ r, d' (reduceName job.jobName m r) =
      if share job.nReduce r (job.pairs d m) = [] then d (reduceName job.jobName m r)
      else some ((share job.nReduce r (job.pairs d m)).flatMap json.encode) := by
  simpa only [pairs_atTurn d hin hn] using maps_files_atTurn json d hn

theorem maps_run (json : Json) (d : Disk Bytes Byte) (hin : job.InputsApart) (hn : 1 ≤ job.nReduce) :
    ∃ d', runAll (job.maps json) d = some d' ∧ ∀ m < job.files.length, ∀ r,
      json.records (d' (reduceName job.jobName m r)) = job.intermediate json d m r := by
  obtain ⟨d', hrun, hfiles⟩ := maps_files json d hin hn
  refine ⟨d', hrun, ?_⟩
  intro m hm r
  rw [hfiles m hm r, intermediate, apply_ite json.records]
  rfl

/-! ## The reduce phase -/

/-- what reduce task `r` writes when it has decoded `kvs` -/
def reducedPairs (job : Job) (kvs : List KeyValue) : List KeyValue :=
  reduced KeyValue.key KeyValue.value (fun k vs => ⟨k, job.reduceF k vs⟩) kvs

/-- what reduce task `r` decodes in `d` -/
def collected (job : Job) (json : Json) (d : Disk Bytes Byte) (r : ℕ) : List KeyValue :=
  (List.range job.files.length).flatMap fun m => json.records (d (reduceName job.jobName m r))

theorem doReduce_plan (r : ℕ) : (doReduce json job.jobName r job.files.length job.reduceF).plan d =
    some (.create (mergeName job.jobName r) ::
      (job.reducedPairs (job.collected json d r)).map fun kv =>
        .append (mergeName job.jobName r) (json.encode kv)) := by
  simp only [FileTask.plan, doReduce, reducedPairs, collected, reduced, List.map_map, List.flatMap_map,
    Function.comp_def]

theorem getElem?_reduces {i : ℕ} {t : FileTask Bytes Byte} : (job.reduces json)[i]? = some t ↔
    i < job.nReduce ∧ doReduce json job.jobName i job.files.length job.reduceF = t := by
  rw [reduces, List.getElem?_map, Option.map_eq_some_iff]
  constructor
  · rintro ⟨j, hj, rfl⟩
    obtain ⟨hlt, rfl⟩ := List.getElem?_eq_some_iff.1 hj
    rw [List.length_range] at hlt
    exact ⟨hlt, by rw [List.getElem_range]⟩
  · rintro ⟨hi, rfl⟩
    exact ⟨i, List.getElem?_range hi, rfl⟩

/-- a reduce task writes its own output file only -/
theorem reduces_name {i : ℕ} {t : FileTask Bytes Byte} (ht : (job.reduces json)[i]? = some t)
    {ws : List (Write Bytes Byte)} (hws : t.plan d = some ws) : .create (mergeName job.jobName i) ∈ ws ∧
      ∀ n ∈ ws.map Write.name, n = mergeName job.jobName i := by
  obtain ⟨-, rfl⟩ := getElem?_reduces.1 ht
  rw [doReduce_plan] at hws
  obtain rfl := Option.some.inj hws
  refine ⟨List.mem_cons_self, ?_⟩
  intro n hn
  simp only [List.map_cons, List.map_map, List.mem_cons, List.mem_map, Function.comp_apply] at hn
  rcases hn with rfl | ⟨kv, -, rfl⟩ <;> rfl

theorem reduces_independent : Independent (job.reduces json) d where
  creates := by
    intro t ht ws hws n hn
    obtain ⟨i, hi⟩ := List.mem_iff_getElem?.1 ht
    obtain ⟨hcreate, hname⟩ := reduces_name hi hws
    rw [hname n hn]
    exact hcreate
  apart := by
    intro i j t u hi hj hij ws us hws hus n hn hn'
    have hin := (reduces_name hi hws).2 n hn
    rw [hin] at hn'
    exact hij (mergeName_inj ((reduces_name hj hus).2 _ hn'))
  inputs := by
    intro t ht u hu us hus n hn hn'
    obtain ⟨i, hi⟩ := List.mem_iff_getElem?.1 ht
    obtain ⟨j, hj⟩ := List.mem_iff_getElem?.1 hu
    obtain ⟨-, rfl⟩ := getElem?_reduces.1 hi
    obtain ⟨m, -, rfl⟩ := List.mem_map.1 hn
    exact reduceName_ne_mergeName ((reduces_name hj hus).2 _ hn')

/-- a created file to which pairs are appended -/
theorem applyAll_appends (n : Bytes) (kvs : List KeyValue) :
    applyAll d (.create n :: kvs.map fun kv => .append n (json.encode kv)) n = some (kvs.flatMap json.encode) := by
  have happ : ∀ (d : Disk Bytes Byte) (bytes : Bytes), d n = some bytes →
      applyAll d (kvs.map fun kv => .append n (json.encode kv)) n = some (bytes ++ kvs.flatMap json.encode) := by
    induction kvs with
    | nil =>
      intro d bytes hd
      simpa using hd
    | cons kv kvs ih =>
      intro d bytes hd
      rw [List.map_cons, applyAll_cons, ih _ (bytes ++ json.encode kv) (by simp [Write.apply, hd]), List.flatMap_cons,
        List.append_assoc]
  exact happ _ [] (by simp [Write.apply])

theorem reduces_run (job : Job) (json : Json) (d : Disk Bytes Byte) :
    ∃ d', runAll (job.reduces json) d = some d' ∧ ∀ r < job.nReduce, d' (mergeName job.jobName r) =
      some ((job.reducedPairs (job.collected json d r)).flatMap json.encode) := by
  have hplans : ∀ t ∈ job.reduces json, ∃ ws, t.plan d = some ws := by
    intro t ht
    obtain ⟨i, hi⟩ := List.mem_iff_getElem?.1 ht
    obtain ⟨-, rfl⟩ := getElem?_reduces.1 hi
    exact ⟨_, doReduce_plan i⟩
  obtain ⟨d', hrun, hran⟩ := reduces_independent.runAll hplans
  refine ⟨d', hrun, ?_⟩
  intro r hr
  rw [hran.own r _ _ (getElem?_reduces.2 ⟨hr, rfl⟩) (doReduce_plan r) (mergeName job.jobName r) List.mem_cons_self,
    applyAll_appends]

/-! ## The merge -/

/-- the lines of the output, for the pairs that reduce tasks have written -/
def report (kvs : List KeyValue) : Bytes :=
  let m := latest KeyValue.key KeyValue.value kvs
  (sortedKeys m).flatMap fun k => line k (read m k)

theorem merge_run (json : Json) {contents : ℕ → Bytes}
    (h : ∀ r < job.nReduce, d (mergeName job.jobName r) = some (contents r)) :
    ∃ d', (merge json job.jobName job.nReduce).run d = some d' ∧ d' (outputName job.jobName) =
      some (report ((List.range job.nReduce).flatMap fun r => json.decode (contents r))) := by
  have hanswers : ((List.range job.nReduce).map (mergeName job.jobName)).map d =
      (List.range job.nReduce).map fun r => some (contents r) := by
    rw [List.map_map]
    refine List.map_congr_left ?_
    intro r hr
    exact h r (List.mem_range.1 hr)
  have hplan : (merge json job.jobName job.nReduce).plan d = some [.create (outputName job.jobName),
      .append (outputName job.jobName)
        (report ((List.range job.nReduce).flatMap fun r => json.decode (contents r)))] := by
    rw [FileTask.plan, merge]
    simp only [hanswers]
    rw [if_neg (by simp)]
    simp only [List.flatMap_map, Json.records, report]
  refine ⟨_, by rw [FileTask.run, hplan]; rfl, ?_⟩
  simp [Write.apply]

/-- the output, as a function of what the reduce tasks decode -/
def outputOf (job : Job) (json : Json) (inter : ℕ → ℕ → List KeyValue) : Bytes :=
  report ((List.range job.nReduce).flatMap fun r =>
    json.decode ((job.reducedPairs ((List.range job.files.length).flatMap fun m => inter m r)).flatMap json.encode))

/-- after the map phase the output depends on what the intermediate files hold -/
theorem sequential_of_maps {inter : ℕ → ℕ → List KeyValue} {d₁ : Disk Bytes Byte}
    (hmaps : runAll (job.maps json) d = some d₁)
    (hinter : ∀ m < job.files.length, ∀ r, json.records (d₁ (reduceName job.jobName m r)) = inter m r) :
    ∃ d', job.sequential json d = some d' ∧ d' (outputName job.jobName) = some (job.outputOf json inter) := by
  obtain ⟨d₂, hrun₂, hmerge⟩ := reduces_run job json d₁
  obtain ⟨d₃, hrun₃, hout⟩ := merge_run json hmerge
  have hcollected : ∀ r, job.collected json d₁ r = (List.range job.files.length).flatMap fun m => inter m r := by
    intro r
    refine List.flatMap_congr ?_
    intro m hm
    exact hinter m (List.mem_range.1 hm) r
  refine ⟨d₃, ?_, ?_⟩
  · simp [sequential, hmaps, hrun₂, hrun₃]
  · simp only [hout, outputOf, hcollected]

theorem sequential_output (json : Json) (d : Disk Bytes Byte) (hin : job.InputsApart) (hn : 1 ≤ job.nReduce) :
    ∃ d', job.sequential json d = some d' ∧
      d' (outputName job.jobName) = some (job.outputOf json (job.intermediate json d)) := by
  obtain ⟨d₁, hmaps, hinter⟩ := maps_run json d hin hn
  exact sequential_of_maps hmaps hinter

/-! ## A clean directory -/

/-- no job has left files here -/
def Clean (d : Disk Bytes Byte) : Prop := ∀ n, mrtmp <+: n → d n = none

theorem Clean.inputsApart (hd : Clean d) (hfiles : ∀ f ∈ job.files, (d f).isSome) : job.InputsApart := by
  rintro f hf m r rfl
  have hsome := hfiles _ hf
  rw [hd _ mrtmp_reduceName] at hsome
  cases hsome

/-- all pairs, by input file and then in the order in which they are emitted -/
def emitted (job : Job) (d : Disk Bytes Byte) : List KeyValue := job.files.flatMap fun f => job.mapF f ((d f).getD [])

/-- `out` has one line for each key that is emitted, in increasing order of the keys, and its value is what `reduceF`
makes of all values emitted for the key -/
def GroupedByKey (job : Job) (d : Disk Bytes Byte) (out : Bytes) : Prop :=
  ∃ keys : List Bytes, keys.Pairwise (· < ·) ∧ (∀ k, k ∈ keys ↔ ∃ kv ∈ job.emitted d, kv.key = k) ∧
    out = keys.flatMap fun k =>
      line k (job.reduceF k (((job.emitted d).filter fun kv => kv.key = k).map KeyValue.value))

theorem flatMap_pairs (job : Job) (d : Disk Bytes Byte) :
    (List.range job.files.length).flatMap (job.pairs d) = job.emitted d := by
  have hmap : (List.range job.files.length).map (job.pairs d) = job.files.map fun f => job.mapF f ((d f).getD []) := by
    refine List.ext_getElem (by simp) ?_
    intro i hi hi'
    rw [List.length_map] at hi'
    simp [pairs, List.getElem?_eq_getElem hi']
  rw [emitted, List.flatMap_def, List.flatMap_def, hmap]

theorem mem_pairs_emitted {m : ℕ} {kv : KeyValue} (hkv : kv ∈ job.pairs d m) : kv ∈ job.emitted d := by
  simp only [pairs] at hkv
  split at hkv
  · rename_i f hf
    exact List.mem_flatMap.2 ⟨f, List.mem_of_getElem? hf, hkv⟩
  · cases hkv

/-- the pairs that a reduce task writes come back in the merge -/
theorem decode_reducedPairs (hjson : json.Lawful) (hreduceF : ∀ k vs, ValidUTF8 (job.reduceF k vs))
    {kvs : List KeyValue} (hkvs : ∀ kv ∈ kvs, kv.Valid) :
    json.decode ((job.reducedPairs kvs).flatMap json.encode) = job.reducedPairs kvs := by
  refine hjson _ ?_
  intro kv hkv
  obtain ⟨k, hk, rfl⟩ := mem_reduced.1 hkv
  obtain ⟨kv', hkv', rfl⟩ := List.mem_map.1 hk
  exact ⟨(hkvs kv' hkv').1, hreduceF _ _⟩

section Clean

variable (hjson : json.Lawful) (hmapF : ∀ kv ∈ job.emitted d, kv.Valid)

include hjson hmapF in
theorem intermediate_of_clean (hd : Clean d) (m r : ℕ) :
    job.intermediate json d m r = share job.nReduce r (job.pairs d m) := by
  have hvalid : ∀ kv ∈ share job.nReduce r (job.pairs d m), kv.Valid := by
    intro kv hkv
    exact hmapF kv (mem_pairs_emitted (List.mem_of_mem_filter hkv))
  simp only [intermediate, hd _ mrtmp_reduceName, hjson _ hvalid, Json.records]
  split_ifs with hs
  · exact hs.symm
  · rfl

include hjson hmapF in
theorem outputOf_of_clean (hd : Clean d) (hreduceF : ∀ k vs, ValidUTF8 (job.reduceF k vs)) :
    job.outputOf json (job.intermediate json d) =
      report (reducedParts KeyValue.key KeyValue.value (fun k vs => ⟨k, job.reduceF k vs⟩) (partition job.nReduce)
        job.nReduce (job.emitted d)) := by
  have hshare : ∀ r, ((List.range job.files.length).flatMap fun m => job.intermediate json d m r) =
      share job.nReduce r (job.emitted d) := by
    intro r
    simp only [intermediate_of_clean hjson hmapF hd, share, ← flatMap_pairs, List.filter_flatMap]
  have hdecode : ∀ r, json.decode ((job.reducedPairs (share job.nReduce r (job.emitted d))).flatMap json.encode) =
      job.reducedPairs (share job.nReduce r (job.emitted d)) := by
    intro r
    exact decode_reducedPairs hjson hreduceF fun kv hkv => hmapF kv (List.mem_of_mem_filter hkv)
  simp only [outputOf, hshare, hdecode]
  rfl

end Clean

theorem partition_lt {n : ℕ} (hn : 1 ≤ n) (k : Bytes) : partition n k < n := Nat.mod_lt _ hn

/-- the grouping of all pairs -/
def grouping (job : Job) (d : Disk Bytes Byte) : Bytes :=
  (sortedKeys (buckets KeyValue.key KeyValue.value (job.emitted d))).flatMap fun k =>
    line k (job.reduceF k (valuesOf KeyValue.key KeyValue.value k (job.emitted d)))

theorem grouping_groupedByKey (job : Job) (d : Disk Bytes Byte) : job.GroupedByKey d (job.grouping d) := by
  refine ⟨sortedKeys (buckets KeyValue.key KeyValue.value (job.emitted d)), sortedKeys_pairwise _, ?_, ?_⟩
  · intro k
    rw [sortedKeys_buckets, List.mem_map]
  · -- equality of keys is decided in two ways here
    unfold grouping valuesOf
    congr!

/-- merging the results of all parts gives the grouping -/
theorem report_reducedParts (hn : 1 ≤ job.nReduce) :
    report (reducedParts KeyValue.key KeyValue.value (fun k vs => ⟨k, job.reduceF k vs⟩) (partition job.nReduce)
      job.nReduce (job.emitted d)) = job.grouping d := by
  have hkeys : sortedKeys (latest KeyValue.key KeyValue.value (reducedParts KeyValue.key KeyValue.value
      (fun k vs => KeyValue.mk k (job.reduceF k vs)) (partition job.nReduce) job.nReduce (job.emitted d))) =
        sortedKeys (buckets KeyValue.key KeyValue.value (job.emitted d)) := by
    refine (sortedKeys_pairwise _).eq_of_mem_iff (sortedKeys_pairwise _) ?_
    intro k
    rw [mem_sortedKeys, sortedKeys_buckets, mem_latest_reduced (fun _ _ => rfl) (partition_lt hn)]
  rw [report, grouping]
  simp only [hkeys]
  refine List.flatMap_congr ?_
  intro k hk
  rw [read_latest_reduced (fun _ _ => rfl) (partition_lt hn) (sortedKeys_buckets.1 hk)]

theorem outputOf_eq_grouping (hjson : json.Lawful) (hmapF : ∀ kv ∈ job.emitted d, kv.Valid) (hd : Clean d)
    (hreduceF : ∀ k vs, ValidUTF8 (job.reduceF k vs)) (hn : 1 ≤ job.nReduce) :
    job.outputOf json (job.intermediate json d) = job.grouping d := by
  rw [outputOf_of_clean hjson hmapF hd hreduceF, report_reducedParts hn]

/-- what a job writes in a clean directory if its pairs are valid -/
theorem sequential_grouping (hjson : json.Lawful) (hmapF : ∀ kv ∈ job.emitted d, kv.Valid) (hd : Clean d)
    (hreduceF : ∀ k vs, ValidUTF8 (job.reduceF k vs)) (hin : job.InputsApart) (hn : 1 ≤ job.nReduce) :
    ∃ d', job.sequential json d = some d' ∧ d' (outputName job.jobName) = some (job.grouping d) := by
  obtain ⟨d', hrun, hout⟩ := sequential_output json d hin hn
  rw [outputOf_eq_grouping hjson hmapF hd hreduceF hn] at hout
  exact ⟨d', hrun, hout⟩

/-- **The sequential run groups by key.** In a clean directory it writes one line for each key, and it writes the same
for every number of reduce tasks. -/
theorem sequential_groupedByKey (job : Job) (d : Disk Bytes Byte) (hjson : json.Lawful) (hd : Clean d)
    (hfiles : ∀ f ∈ job.files, (d f).isSome) (hmapF : ∀ f content, ∀ kv ∈ job.mapF f content, kv.Valid)
    (hreduceF : ∀ k vs, ValidUTF8 (job.reduceF k vs)) :
    ∃ out, job.GroupedByKey d out ∧ ∀ n ≥ 1, ∃ d', ({ job with nReduce := n } : Job).sequential json d = some d' ∧
      d' (outputName job.jobName) = some out := by
  refine ⟨job.grouping d, grouping_groupedByKey job d, ?_⟩
  intro n hn
  let job' : Job := { job with nReduce := n }
  have hvalid : ∀ kv ∈ job'.emitted d, kv.Valid := by
    intro kv hkv
    obtain ⟨f, -, hkv⟩ := List.mem_flatMap.1 hkv
    exact hmapF _ _ kv hkv
  have hin : job'.InputsApart := hd.inputsApart hfiles
  -- the grouping does not depend on the number of reduce tasks
  exact sequential_grouping hjson hvalid hd hreduceF hin hn

end Job

/-! ## A job that counts bytes

It serves to evaluate the results, with a format for pairs that is easier to read back than JSON: each byte of a string
follows a `mark`, and two `stop`s end it. -/

def mark : Byte := byte ','

def stop : Byte := byte ';'

def tagged (s : Bytes) : Bytes := s.flatMap (fun b => [mark, b]) ++ [stop, stop]

/-- read a string, then a second one if there is a `key` for it -/
def untagged (acc : Bytes) (key : Option Bytes) : Bytes → List KeyValue
  | b :: c :: rest =>
    if b = stop then
      match key with
      | none => untagged [] (some acc) rest
      | some k => ⟨k, acc⟩ :: untagged [] none rest
    else untagged (acc ++ [c]) key rest
  | _ => []

def taggedJson : Json where
  encode kv := tagged kv.key ++ tagged kv.value
  decode := untagged [] none

theorem untagged_bytes (acc : Bytes) (key : Option Bytes) (s rest : Bytes) :
    untagged acc key (s.flatMap (fun b => [mark, b]) ++ rest) = untagged (acc ++ s) key rest := by
  induction s generalizing acc with
  | nil => simp
  | cons b s ih =>
    have hstep : untagged acc key (mark :: b :: (s.flatMap (fun b => [mark, b]) ++ rest)) =
        untagged (acc ++ [b]) key (s.flatMap (fun b => [mark, b]) ++ rest) := rfl
    simpa [List.append_assoc] using hstep.trans (ih (acc ++ [b]))

theorem decode_encode_append (kv : KeyValue) (rest : Bytes) :
    taggedJson.decode (taggedJson.encode kv ++ rest) = kv :: taggedJson.decode rest := by
  have hkey : ∀ acc rest : Bytes, untagged acc none (stop :: stop :: rest) = untagged [] (some acc) rest :=
    fun _ _ => rfl
  have hvalue : ∀ acc k rest : Bytes, untagged acc (some k) (stop :: stop :: rest) =
      ⟨k, acc⟩ :: untagged [] none rest :=
    fun _ _ _ => rfl
  simp only [taggedJson, tagged, List.append_assoc, untagged_bytes, List.cons_append, List.nil_append, hkey, hvalue]

theorem taggedJson_lawful : taggedJson.Lawful := by
  intro kvs hkvs
  induction kvs with
  | nil => rfl
  | cons kv kvs ih =>
    rw [List.flatMap_cons, decode_encode_append, ih fun x hx => hkvs x (List.mem_cons_of_mem _ hx)]

namespace Job

/-- one pair for each byte of the input, all under the key `n` -/
def byteCount : Job where
  jobName := ascii ['j']
  files := [ascii ['i', 'n']]
  nReduce := 1
  mapF _ content := content.map fun _ => ⟨ascii ['n'], ascii ['1']⟩
  reduceF _ values := itoa values.length

theorem byteCount_pair : (KeyValue.mk (ascii ['n']) (ascii ['1'])).Valid :=
  ⟨validUTF8_ascii_all rfl, validUTF8_ascii_all rfl⟩

theorem byteCount_mapF : ∀ f content, ∀ kv ∈ byteCount.mapF f content, kv.Valid := by
  intro f content kv hkv
  obtain ⟨b, -, rfl⟩ := List.mem_map.1 hkv
  exact byteCount_pair

theorem byteCount_reduceF : ∀ k vs, ValidUTF8 (byteCount.reduceF k vs) := fun _ _ => validUTF8_itoa _

/-- a directory with the input of `byteCount` and nothing else -/
def inputOnly (content : Bytes) : Disk Bytes Byte := Function.update (fun _ => none) (ascii ['i', 'n']) (some content)

theorem clean_update {name : Bytes} (hname : ¬mrtmp <+: name) (content : Bytes) :
    Clean (Function.update (fun _ => none) name (some content)) := by
  intro n hn
  refine Function.update_of_ne ?_ _ _
  rintro rfl
  exact hname hn

theorem clean_inputOnly (content : Bytes) : Clean (inputOnly content) := clean_update (by decide) content

theorem byteCount_inputsApart : byteCount.InputsApart := (clean_inputOnly []).inputsApart (by decide)

theorem sequential_groupedByKey_byteCount : ∃ out, byteCount.GroupedByKey (inputOnly [7, 8]) out ∧
    ∀ n ≥ 1, ∃ d', ({ byteCount with nReduce := n } : Job).sequential taggedJson (inputOnly [7, 8]) = some d' ∧
      d' (outputName byteCount.jobName) = some out :=
  sequential_groupedByKey byteCount (inputOnly [7, 8]) taggedJson_lawful (clean_inputOnly _)
    (by decide) byteCount_mapF byteCount_reduceF

end Job

end CS240.MapReduce
