/-
The files of a job, and `CleanupFiles`, which removes those of a finished job.

It removes the file of every map task for every reduce task, those that the reduce tasks wrote, and the output.
`removeFile` ends the program when a file does not exist. A map task creates a file only when it has a pair for it.

- `steps_apart`: no two steps of a job write the same file.
- `sequential_files`: the files that a finished job leaves.
- `complete_iff`: all of them are there, and the cleanup goes through, if and only if every map task has a pair for
  every reduce task.
-/
import CS240.MapReduce.Sequential

namespace CS240.MapReduce

open Lib

section Names

variable {jobName : Bytes} {m r : ℕ}

/-- the name of the output is shorter than the other names -/
theorem reduceName_ne_outputName : reduceName jobName m r ≠ outputName jobName := by
  intro h
  have hlen := congrArg List.length h
  simp [reduceName, outputName, ascii] at hlen

theorem mergeName_ne_outputName : mergeName jobName r ≠ outputName jobName := by
  intro h
  have hlen := congrArg List.length h
  simp [mergeName, outputName, ascii] at hlen

end Names

/-- the files of a job -/
inductive JobFile where
  /-- from a map task for a reduce task -/
  | intermediate (mapTask reduceTask : ℕ)
  | reduced (reduceTask : ℕ)
  | output
deriving DecidableEq, Repr

def JobFile.name (jobName : Bytes) : JobFile → Bytes
  | .intermediate m r => reduceName jobName m r
  | .reduced r => mergeName jobName r
  | .output => outputName jobName

theorem JobFile.name_injective (jobName : Bytes) : Function.Injective (JobFile.name jobName) := by
  intro f g h
  cases f with
  | intermediate m r =>
    cases g with
    | intermediate m' r' =>
      obtain ⟨rfl, rfl⟩ := reduceName_inj h
      rfl
    | reduced r' => exact absurd h reduceName_ne_mergeName
    | output => exact absurd h reduceName_ne_outputName
  | reduced r =>
    cases g with
    | intermediate m' r' => exact absurd h.symm reduceName_ne_mergeName
    | reduced r' => rw [mergeName_inj h]
    | output => exact absurd h mergeName_ne_outputName
  | output =>
    cases g with
    | intermediate m' r' => exact absurd h.symm reduceName_ne_outputName
    | reduced r' => exact absurd h.symm mergeName_ne_outputName
    | output => rfl

/-- `none` is the `log.Fatal` -/
def removeFile (d : Disk Bytes Byte) (n : Bytes) : Option (Disk Bytes Byte) := remove d n

namespace Job

/-- the files that `CleanupFiles` removes, in its order -/
def cleanupNames (job : Job) : List Bytes :=
  (List.range job.files.length).flatMap (fun i => (List.range job.nReduce).map fun j => reduceName job.jobName i j) ++
    (List.range job.nReduce).map (mergeName job.jobName) ++ [outputName job.jobName]

def cleanupFiles (job : Job) (d : Disk Bytes Byte) : Option (Disk Bytes Byte) := job.cleanupNames.foldlM removeFile d

variable {job : Job} {json : Json} {d : Disk Bytes Byte}

theorem mem_cleanupNames {x : Bytes} : x ∈ job.cleanupNames ↔
    (∃ m < job.files.length, ∃ r < job.nReduce, reduceName job.jobName m r = x) ∨
      (∃ r < job.nReduce, mergeName job.jobName r = x) ∨ x = outputName job.jobName := by
  simp only [cleanupNames, List.mem_append, List.mem_flatMap, List.mem_map, List.mem_range,
    List.mem_singleton, or_assoc]

theorem nodup_cleanupNames : job.cleanupNames.Nodup := by
  -- they are the names of different files
  let intermediates :=
    (List.range job.files.length).flatMap fun i => (List.range job.nReduce).map (JobFile.intermediate i)
  have hnames : job.cleanupNames =
      (intermediates ++ (List.range job.nReduce).map JobFile.reduced ++ [JobFile.output]).map
        (JobFile.name job.jobName) := by
    simp only [cleanupNames, intermediates, List.map_append, List.map_flatMap, List.map_map]
    rfl
  have hintermediates : intermediates.Nodup := by
    rw [List.nodup_flatMap]
    refine ⟨fun i _ => List.nodup_range.map fun j j' h => (JobFile.intermediate.inj h).2, ?_⟩
    refine List.nodup_range.imp fun {i i'} hne f hf hf' => ?_
    obtain ⟨j, -, rfl⟩ := List.mem_map.1 hf
    obtain ⟨j', -, h⟩ := List.mem_map.1 hf'
    exact hne (JobFile.intermediate.inj h).1.symm
  have hreduced : ((List.range job.nReduce).map JobFile.reduced).Nodup :=
    List.nodup_range.map fun r r' h => JobFile.reduced.inj h
  rw [hnames]
  refine List.Nodup.map (JobFile.name_injective job.jobName) ?_
  refine (hintermediates.append hreduced ?_).append (List.nodup_singleton _) ?_
  · rw [List.disjoint_right]
    simp [intermediates]
  · simp [intermediates]

theorem cleanupFiles_isSome : (job.cleanupFiles d).isSome ↔ ∀ x ∈ job.cleanupNames, (d x).isSome := by
  have h := removeAll_isSome d job.cleanupNames
  rw [and_iff_right nodup_cleanupNames] at h
  exact h

/-- the merge writes the output only -/
theorem merge_name {ws : List (Write Bytes Byte)} (hws : (merge json job.jobName job.nReduce).plan d = some ws)
    {x : Bytes} (hx : x ∈ ws.map Write.name) : x = outputName job.jobName := by
  unfold FileTask.plan merge at hws
  dsimp only at hws
  split_ifs at hws
  obtain rfl := Option.some.inj hws
  simpa [Write.name] using hx

/-! ## Who writes which file -/

/-- the map tasks, the reduce tasks and the merge -/
def steps (job : Job) (json : Json) : List (FileTask Bytes Byte) :=
  job.maps json ++ job.reduces json ++ [merge json job.jobName job.nReduce]

theorem sequential_eq_runAll (job : Job) (json : Json) (d : Disk Bytes Byte) :
    job.sequential json d = runAll (job.steps json) d := by
  rw [steps, runAll_append, runAll_append, Option.bind_assoc]
  simp only [sequential, runAll, Option.bind_eq_bind, Option.bind_fun_some]

/-- the position of the step that writes a file -/
def writer (job : Job) : JobFile → ℕ
  | .intermediate m _ => m
  | .reduced r => job.files.length + r
  | .output => job.files.length + job.nReduce

theorem getElem?_steps {i : ℕ} {t : FileTask Bytes Byte} (ht : (job.steps json)[i]? = some t) :
    (job.maps json)[i]? = some t ∨
      (∃ r, i = job.files.length + r ∧ (job.reduces json)[r]? = some t) ∨
      (i = job.files.length + job.nReduce ∧ t = merge json job.jobName job.nReduce) := by
  have hmaps : (job.maps json).length = job.files.length := by simp [maps]
  have hreduces : (job.reduces json).length = job.nReduce := by simp [reduces]
  rw [steps, List.append_assoc, List.getElem?_append] at ht
  split_ifs at ht with hi
  · exact .inl ht
  rw [List.getElem?_append] at ht
  split_ifs at ht with hr
  · exact .inr (.inl ⟨i - (job.maps json).length, by omega, ht⟩)
  · obtain ⟨hlast, rfl⟩ := List.getElem?_eq_some_iff.1 ht
    rw [List.length_singleton] at hlast
    exact .inr (.inr ⟨by omega, List.getElem_singleton _⟩)

/-- every file that a step writes, whatever it reads, is one of its own -/
theorem steps_writer {i : ℕ} {t : FileTask Bytes Byte} (ht : (job.steps json)[i]? = some t)
    {ws : List (Write Bytes Byte)} (hws : t.plan d = some ws) {x : Bytes} (hx : x ∈ ws.map Write.name) :
    ∃ f : JobFile, x = f.name job.jobName ∧ job.writer f = i := by
  rcases getElem?_steps ht with hmap | ⟨r, rfl, hreduce⟩ | ⟨rfl, rfl⟩
  · obtain rfl := maps_plan hmap hws
    obtain ⟨r, rfl, -⟩ := encodePairs_name hx
    exact ⟨.intermediate i r, rfl, rfl⟩
  · exact ⟨.reduced r, (reduces_name hreduce hws).2 x hx, rfl⟩
  · exact ⟨.output, merge_name hws hx, rfl⟩

/-- **The files of a job never collide**: they have different names, whatever the job is called, and no two of the steps
that the job runs, map tasks, reduce tasks and the merge, write the same file, whatever either of them reads. -/
theorem steps_apart (job : Job) (json : Json) : Function.Injective (JobFile.name job.jobName) ∧
    (∀ d, job.sequential json d = runAll (job.steps json) d) ∧
    ∀ (i j : ℕ) (t u : FileTask Bytes Byte), (job.steps json)[i]? = some t → (job.steps json)[j]? = some u → i ≠ j →
      ∀ (d d' : Disk Bytes Byte) (ws us : List (Write Bytes Byte)), t.plan d = some ws → u.plan d' = some us →
        ∀ x ∈ ws.map Write.name, x ∉ us.map Write.name := by
  refine ⟨JobFile.name_injective job.jobName, sequential_eq_runAll job json, ?_⟩
  intro i j t u hi hj hij d d' ws us hws hus x hx hx'
  obtain ⟨f, rfl, hf⟩ := steps_writer hi hws hx
  obtain ⟨g, hfg, hg⟩ := steps_writer hj hus hx'
  obtain rfl := JobFile.name_injective job.jobName hfg
  exact hij (hf.symm.trans hg)

/-! ## What a finished job leaves -/

theorem share_ne_nil {n r : ℕ} {kvs : List KeyValue} : share n r kvs ≠ [] ↔ ∃ kv ∈ kvs, partition n kv.key = r := by
  simp [share, List.filter_eq_nil_iff]

/-- What a job leaves that started in a clean directory: a file of a map task for a reduce task if there is a pair for
it, the files of the reduce tasks, and the output. -/
theorem sequential_files (json : Json) (hd : Clean d) (hin : job.InputsApart) (hn : 1 ≤ job.nReduce) :
    ∃ d', job.sequential json d = some d' ∧
      (∀ m < job.files.length, ∀ r, (d' (reduceName job.jobName m r)).isSome ↔
        ∃ kv ∈ job.pairs d m, partition job.nReduce kv.key = r) ∧
      (∀ r < job.nReduce, (d' (mergeName job.jobName r)).isSome) ∧ (d' (outputName job.jobName)).isSome := by
  obtain ⟨d₁, hrun₁, hmap⟩ := maps_files json d hin hn
  obtain ⟨d₂, hrun₂, hreduce⟩ := reduces_run job json d₁
  obtain ⟨d₃, hrun₃, hout⟩ := merge_run json hreduce
  have hkeep₂ : ∀ x, (∀ r, x ≠ mergeName job.jobName r) → d₂ x = d₁ x := by
    intro x hx
    refine runAll_of_notMem hrun₂ fun t ht d ws hws hmem => ?_
    obtain ⟨i, hi⟩ := List.mem_iff_getElem?.1 ht
    exact hx i ((reduces_name hi hws).2 x hmem)
  have hkeep₃ : ∀ x, x ≠ outputName job.jobName → d₃ x = d₂ x := by
    intro x hx
    exact FileTask.run_of_notMem hrun₃ fun ws hws hmem => hx (merge_name hws hmem)
  refine ⟨d₃, by simp [sequential, hrun₁, hrun₂, hrun₃], fun m hm r => ?_, fun r hr => ?_, by rw [hout]; rfl⟩
  · rw [hkeep₃ _ reduceName_ne_outputName, hkeep₂ _ fun _ => reduceName_ne_mergeName, hmap m hm r,
      hd _ mrtmp_reduceName, ← share_ne_nil]
    split_ifs with hshare <;> simp [hshare]
  · rw [hkeep₃ _ mergeName_ne_outputName, hreduce r hr]
    rfl

/-- what `CleanupFiles` relies on: every map task has left exactly one file for each reduce task, every reduce task its
file and the merge the output -/
structure Complete (job : Job) (d : Disk Bytes Byte) : Prop where
  intermediate : ∀ m < job.files.length, ∀ r, (d (reduceName job.jobName m r)).isSome ↔ r < job.nReduce
  reduced : ∀ r < job.nReduce, (d (mergeName job.jobName r)).isSome
  output : (d (outputName job.jobName)).isSome
  cleanup : (job.cleanupFiles d).isSome

/-- A job that starts in a clean directory leaves all files that `CleanupFiles` removes if and only if each of its map
tasks emits a key of each partition. -/
theorem complete_iff (job : Job) (json : Json) {d : Disk Bytes Byte} (hd : Clean d) (hin : job.InputsApart)
    (hn : 1 ≤ job.nReduce) :
    ∃ d', job.sequential json d = some d' ∧ (job.Complete d' ↔
      ∀ m < job.files.length, ∀ r < job.nReduce, ∃ kv ∈ job.pairs d m, partition job.nReduce kv.key = r) := by
  obtain ⟨d', hrun, hinter, hreduced, hout⟩ := sequential_files json hd hin hn
  refine ⟨d', hrun, fun hc m hm r hr => ?_, fun hall => ?_⟩
  · exact (hinter m hm r).1 ((hc.intermediate m hm r).2 hr)
  · have hfiles : ∀ m < job.files.length, ∀ r, (d' (reduceName job.jobName m r)).isSome ↔ r < job.nReduce := by
      intro m hm r
      refine ⟨fun hs => ?_, fun hr => (hinter m hm r).2 (hall m hm r hr)⟩
      obtain ⟨kv, -, rfl⟩ := (hinter m hm r).1 hs
      exact Nat.mod_lt _ hn
    refine ⟨hfiles, hreduced, hout, cleanupFiles_isSome.2 fun x hx => ?_⟩
    rcases mem_cleanupNames.1 hx with ⟨m, hm, r, hr, rfl⟩ | ⟨r, hr, rfl⟩ | rfl
    · exact (hfiles m hm r).2 hr
    · exact hreduced r hr
    · exact hout

/-- On an empty input `byteCount` writes no file for its reduce task, and the cleanup ends the program. No pair is
written, so it does not matter how pairs are written. -/
theorem cleanupFiles_byteCount (json : Json) : ∃ d', byteCount.sequential json (inputOnly []) = some d' ∧
    d' (reduceName byteCount.jobName 0 0) = none ∧ byteCount.cleanupFiles d' = none := by
  obtain ⟨d', hrun, hinter, -, -⟩ := sequential_files json (clean_inputOnly []) byteCount_inputsApart le_rfl
  have hnone : d' (reduceName byteCount.jobName 0 0) = none := by
    rw [← Option.not_isSome_iff_eq_none, hinter 0 (by decide) 0]
    rintro ⟨kv, hkv, -⟩
    cases hkv
  refine ⟨d', hrun, hnone, ?_⟩
  rw [← Option.not_isSome_iff_eq_none, cleanupFiles_isSome]
  intro hall
  have hsome := hall _ (mem_cleanupNames.2 (.inl ⟨0, by decide, 0, by decide, rfl⟩))
  rw [hnone] at hsome
  cases hsome

theorem cleanup_fatal : Clean (inputOnly []) ∧ ∃ d', byteCount.sequential taggedJson (inputOnly []) = some d' ∧
    d' (reduceName byteCount.jobName 0 0) = none ∧ byteCount.cleanupFiles d' = none :=
  ⟨clean_inputOnly [], cleanupFiles_byteCount taggedJson⟩

/-- with an input that is not empty, all files are there -/
theorem complete_iff_byteCount :
    ∃ d', byteCount.sequential taggedJson (inputOnly [7]) = some d' ∧
      (byteCount.Complete d' ↔
    ∀ m < byteCount.files.length, ∀ r < byteCount.nReduce, ∃ kv ∈ byteCount.pairs (inputOnly [7]) m,
      partition byteCount.nReduce kv.key = r) ∧ byteCount.Complete d' := by
  obtain ⟨d', hrun, hiff⟩ := complete_iff byteCount taggedJson (clean_inputOnly [7]) byteCount_inputsApart le_rfl
  refine ⟨d', hrun, hiff, hiff.2 fun m hm r hr => ?_⟩
  obtain rfl : m = 0 := Nat.lt_one_iff.1 hm
  obtain rfl : r = 0 := Nat.lt_one_iff.1 hr
  exact ⟨⟨ascii ['n'], ascii ['1']⟩, List.mem_cons_self, rfl⟩

end Job

end CS240.MapReduce
