/-
Files that an earlier run of a job has left.

A map task creates the file for a reduce task only when it has a pair for it. Where it has none, the reduce task decodes
what an earlier run left under that name.

- `output_determined`: the inputs and these leftovers determine the output.
- `inputsDetermine_iff`: when the inputs alone do.
- `leftover_reported`: on an empty input, the output reports what the earlier run counted.
-/
import CS240.MapReduce.Text

namespace CS240.MapReduce.Job

open Lib

variable {job : Job} {json : Json} {d d' : Disk Bytes Byte}

theorem pairs_congr (hfiles : ∀ f ∈ job.files, d' f = d f) (m : ℕ) : job.pairs d' m = job.pairs d m := by
  unfold pairs
  split
  · rename_i f hf
    rw [hfiles f (List.mem_of_getElem? hf)]
  · rfl

/-- map tasks emit the same in directories with the same inputs -/
theorem pairs_atTurn_congr (hn : 1 ≤ job.nReduce) (hfiles : ∀ f ∈ job.files, d' f = d f) (m : ℕ) :
    job.pairs (job.atTurn json d' m) m = job.pairs (job.atTurn json d m) m := by
  have hreads : ∀ t ∈ (job.maps json).take m, ∀ n ∈ t.reads, d' n = d n := by
    intro t ht n hn
    obtain ⟨i, hi⟩ := List.mem_iff_getElem?.1 (List.mem_of_mem_take ht)
    obtain ⟨f, hf, rfl⟩ := getElem?_maps.1 hi
    rw [List.mem_singleton.1 hn]
    exact hfiles f (List.mem_of_getElem? hf)
  obtain ⟨e', hrun, hsame⟩ := runAll_congr hreads (runAll_take_maps json d hn m)
  rw [runAll_take_maps json d' hn] at hrun
  obtain rfl := Option.some.inj hrun
  exact pairs_congr (fun f hf => hsame f (hfiles f hf)) m

/-- what reduce task `r` decodes from the file of map task `m`, in a run started in `d` with the inputs as they are in
`d₀` -/
def decoded (job : Job) (json : Json) (d₀ d : Disk Bytes Byte) (m r : ℕ) : List KeyValue :=
  let kvs := share job.nReduce r (job.pairs (job.atTurn json d₀ m) m)
  if kvs = [] then json.records (d (reduceName job.jobName m r)) else json.decode (kvs.flatMap json.encode)

theorem sequential_decoded (json : Json) (hn : 1 ≤ job.nReduce) (hfiles : ∀ f ∈ job.files, d' f = d f) :
    ∃ e, job.sequential json d' = some e ∧
      e (outputName job.jobName) = some (job.outputOf json (job.decoded json d d')) := by
  obtain ⟨d₁, hmaps, hinter⟩ := maps_files_atTurn json d' hn
  refine sequential_of_maps hmaps ?_
  intro m hm r
  rw [hinter m hm r, pairs_atTurn_congr hn hfiles m, decoded, apply_ite json.records]
  rfl

theorem outputOf_congr {inter inter' : ℕ → ℕ → List KeyValue}
    (h : ∀ m < job.files.length, ∀ r < job.nReduce, inter m r = inter' m r) :
    job.outputOf json inter = job.outputOf json inter' := by
  unfold outputOf
  congr 1
  refine List.flatMap_congr ?_
  intro r hr
  congr 3
  refine List.flatMap_congr ?_
  intro m hm
  exact h m (List.mem_range.1 hm) r (List.mem_range.1 hr)

/-- The output depends on the inputs and on leftovers: two runs on the same inputs write the same if, for each map task,
they decode the same from the leftovers for the reduce tasks it has no pairs for. -/
theorem output_determined (json : Json) (hn : 1 ≤ job.nReduce) {d d₁ d₂ : Disk Bytes Byte}
    (h₁ : ∀ f ∈ job.files, d₁ f = d f) (h₂ : ∀ f ∈ job.files, d₂ f = d f)
    (hleft : ∀ m < job.files.length, ∀ r < job.nReduce, share job.nReduce r (job.pairs (job.atTurn json d m) m) = [] →
      json.records (d₁ (reduceName job.jobName m r)) = json.records (d₂ (reduceName job.jobName m r))) :
    ∃ e₁ e₂, job.sequential json d₁ = some e₁ ∧ job.sequential json d₂ = some e₂ ∧
      e₁ (outputName job.jobName) = e₂ (outputName job.jobName) := by
  have hout : job.outputOf json (job.decoded json d d₁) = job.outputOf json (job.decoded json d d₂) := by
    refine outputOf_congr ?_
    intro m hm r hr
    simp only [decoded]
    split_ifs with hs
    · exact hleft m hm r hr hs
    · rfl
  obtain ⟨e₁, hrun₁, he₁⟩ := sequential_decoded json hn h₁
  obtain ⟨e₂, hrun₂, he₂⟩ := sequential_decoded json hn h₂
  exact ⟨e₁, e₂, hrun₁, hrun₂, by rw [he₁, he₂, hout]⟩

/-! ## Leftovers that are reported -/

theorem share_eq_nil {n r : ℕ} {kvs : List KeyValue} : share n r kvs = [] ↔ ¬∃ kv ∈ kvs, partition n kv.key = r := by
  simp [share, List.filter_eq_nil_iff]

/-- every key has a line of its own -/
theorem length_lt_report {kvs : List KeyValue} {k v : Bytes} (hkv : ⟨k, v⟩ ∈ kvs) : k.length < (report kvs).length := by
  have hkey : k ∈ sortedKeys (latest KeyValue.key KeyValue.value kvs) :=
    mem_sortedKeys.2 (mem_latest.2 (List.mem_map_of_mem hkv))
  obtain ⟨ks, ks', hks⟩ := List.append_of_mem hkey
  simp only [report, hks, List.flatMap_append, List.flatMap_cons, line, List.length_append, ascii, List.length_map,
    List.length_cons]
  omega

/-- a valid key that a reduce task decodes is in the output -/
theorem length_lt_outputOf (hjson : json.Coercing) {inter : ℕ → ℕ → List KeyValue} {m r : ℕ} (hm : m < job.files.length)
    (hr : r < job.nReduce) {k v : Bytes} (hkv : ⟨k, v⟩ ∈ inter m r) (hvalid : ValidUTF8 k) :
    k.length < (job.outputOf json inter).length := by
  let kvs := (List.range job.files.length).flatMap fun m => inter m r
  have hkvs : ⟨k, v⟩ ∈ kvs := List.mem_flatMap.2 ⟨m, List.mem_range.2 hm, hkv⟩
  have hreduced : ⟨k, job.reduceF k (valuesOf KeyValue.key KeyValue.value k kvs)⟩ ∈ job.reducedPairs kvs :=
    mem_reduced.2 ⟨k, List.mem_map_of_mem hkvs, rfl⟩
  have hdecoded : ⟨k, Lib.coerced (job.reduceF k (valuesOf KeyValue.key KeyValue.value k kvs))⟩ ∈
      json.decode ((job.reducedPairs kvs).flatMap json.encode) := by
    rw [hjson]
    refine List.mem_map.2 ⟨_, hreduced, ?_⟩
    rw [KeyValue.coerced, coerced_of_valid hvalid]
  exact length_lt_report (List.mem_flatMap.2 ⟨r, List.mem_range.2 hr, hdecoded⟩)

/-- all directories with the inputs of `d` give one output -/
def InputsDetermine (job : Job) (json : Json) (d : Disk Bytes Byte) : Prop :=
  ∀ d₁ d₂ : Disk Bytes Byte, (∀ f ∈ job.files, d₁ f = d f) → (∀ f ∈ job.files, d₂ f = d f) →
    ∃ e₁ e₂, job.sequential json d₁ = some e₁ ∧ job.sequential json d₂ = some e₂ ∧
      e₁ (outputName job.jobName) = e₂ (outputName job.jobName)

/-- A file that no map task writes and that is no input: some content of it is reported. -/
theorem not_inputsDetermine (hjson : json.Coercing) (hn : 1 ≤ job.nReduce) {m r : ℕ} (hm : m < job.files.length)
    (hr : r < job.nReduce) (hnone : share job.nReduce r (job.pairs (job.atTurn json d m) m) = [])
    (hfile : reduceName job.jobName m r ∉ job.files) : ¬job.InputsDetermine json d := by
  intro hdet
  have hagree : ∀ content, ∀ f ∈ job.files, Function.update d (reduceName job.jobName m r) content f = d f := by
    intro content f hf
    refine Function.update_of_ne ?_ _ _
    rintro rfl
    exact hfile hf
  obtain ⟨e, hrun, hout⟩ := sequential_decoded json hn (hagree none)
  -- a key that is longer than the whole output without the file
  let k := ascii (List.replicate (job.outputOf json (job.decoded json d
    (Function.update d (reduceName job.jobName m r) none))).length 'a')
  have hk : ValidUTF8 k := validUTF8_ascii fun c hc => by rw [List.eq_of_mem_replicate hc]; decide
  let content := some ([KeyValue.mk k []].flatMap json.encode)
  obtain ⟨e', hrun', hout'⟩ := sequential_decoded json hn (hagree content)
  have hdecoded : ⟨k, []⟩ ∈ job.decoded json d (Function.update d (reduceName job.jobName m r) content) m r := by
    simp only [decoded, hnone, if_true, Function.update_self, content, Json.records]
    rw [hjson, List.map_singleton, KeyValue.coerced_of_valid ⟨hk, ⟨[], rfl⟩⟩]
    exact List.mem_singleton_self _
  have hlonger := length_lt_outputOf hjson hm hr hdecoded hk
  obtain ⟨e₁, e₂, hrun₁, hrun₂, hsame⟩ := hdet _ _ (hagree none) (hagree content)
  rw [hrun] at hrun₁
  rw [hrun'] at hrun₂
  obtain rfl := Option.some.inj hrun₁
  obtain rfl := Option.some.inj hrun₂
  rw [hout, hout'] at hsame
  have hlen : k.length = (job.outputOf json (job.decoded json d
      (Function.update d (reduceName job.jobName m r) none))).length := by simp [k, ascii]
  rw [Option.some.inj hsame] at hlen
  omega

/-- **When the inputs determine the output.** They do if and only if each map task has a pair for each reduce task, but
for files that are inputs themselves. -/
theorem inputsDetermine_iff (job : Job) {json : Json} (hjson : json.Coercing) (hn : 1 ≤ job.nReduce)
    (d : Disk Bytes Byte) : job.InputsDetermine json d ↔ ∀ m < job.files.length, ∀ r < job.nReduce,
      (∃ kv ∈ job.pairs (job.atTurn json d m) m, partition job.nReduce kv.key = r) ∨
        reduceName job.jobName m r ∈ job.files := by
  constructor
  · intro hdet m hm r hr
    by_contra hnot
    obtain ⟨hnone, hfile⟩ := not_or.1 hnot
    exact not_inputsDetermine hjson hn hm hr (share_eq_nil.2 hnone) hfile hdet
  · intro hcond d₁ d₂ h₁ h₂
    refine output_determined json hn h₁ h₂ ?_
    intro m hm r hr hnone
    rcases hcond m hm r hr with hsome | hfile
    · exact absurd hsome (share_eq_nil.1 hnone)
    · rw [h₁ _ hfile, h₂ _ hfile]

/-- the directory of an input, with the intermediate file of an earlier run on an input of one byte -/
def withLeftover (json : Json) (content : Bytes) : Disk Bytes Byte :=
  Function.update (inputOnly content) (reduceName byteCount.jobName 0 0)
    (some (json.encode ⟨ascii ['n'], ascii ['1']⟩))

theorem withLeftover_input (json : Json) (content : Bytes) :
    ∀ f ∈ byteCount.files, inputOnly content f = withLeftover json content f := by
  intro f hf
  rw [List.mem_singleton.1 hf]
  exact (Function.update_of_ne (by decide) _ _).symm

theorem inputsDetermine_iff_byteCount :
    byteCount.InputsDetermine coercingJson (inputOnly [7, 8]) ∧
      ¬byteCount.InputsDetermine coercingJson (inputOnly []) := by
  constructor
  · refine (inputsDetermine_iff byteCount coercingJson_coercing le_rfl _).2 ?_
    intro m hm r hr
    obtain rfl : m = 0 := Nat.lt_one_iff.1 hm
    obtain rfl : r = 0 := Nat.lt_one_iff.1 hr
    exact .inl ⟨⟨ascii ['n'], ascii ['1']⟩, List.mem_cons_self, by decide⟩
  · intro hdet
    have hcond := (inputsDetermine_iff byteCount coercingJson_coercing le_rfl _).1 hdet 0 Nat.one_pos 0 Nat.one_pos
    revert hcond
    decide +kernel

theorem outputOf_byteCount (hjson : json.Lawful) {inter : ℕ → ℕ → List KeyValue} (hinter : ∀ kv ∈ inter 0 0, kv.Valid) :
    byteCount.outputOf json inter = report (byteCount.reducedPairs (inter 0 0)) := by
  have hrange : List.range 1 = [0] := rfl
  have hdecode := decode_reducedPairs hjson byteCount_reduceF hinter
  simpa [outputOf, byteCount, hrange] using congrArg report hdecode

/-- Whatever the pairs are written in: with an empty input `byteCount` emits nothing, and after an earlier run it still
reports that run's byte. -/
theorem sequential_withLeftover (hjson : json.Lawful) :
    ∃ e e', byteCount.sequential json (inputOnly []) = some e ∧
      byteCount.sequential json (withLeftover json []) = some e' ∧
        e (outputName byteCount.jobName) = some [] ∧
          e' (outputName byteCount.jobName) = some (line (ascii ['n']) (ascii ['1'])) := by
  obtain ⟨e, hrun, he⟩ := sequential_output json (inputOnly []) byteCount_inputsApart le_rfl
  obtain ⟨e', hrun', he'⟩ := sequential_output json (withLeftover json []) byteCount_inputsApart le_rfl
  have hclean : byteCount.intermediate json (inputOnly []) 0 0 = [] := by
    have hnone : inputOnly [] (reduceName byteCount.jobName 0 0) = none := by decide
    exact congrArg json.records hnone
  have hpair : ∀ kv ∈ [KeyValue.mk (ascii ['n']) (ascii ['1'])], kv.Valid := List.forall_mem_singleton.2 byteCount_pair
  have hstale : byteCount.intermediate json (withLeftover json []) 0 0 = [⟨ascii ['n'], ascii ['1']⟩] := by
    have hfile : withLeftover json [] (reduceName byteCount.jobName 0 0) =
        some ([KeyValue.mk (ascii ['n']) (ascii ['1'])].flatMap json.encode) := by
      simp [withLeftover]
    exact (congrArg json.records hfile).trans (hjson _ hpair)
  refine ⟨e, e', hrun, hrun', ?_, ?_⟩
  · rw [he, outputOf_byteCount hjson (by rw [hclean]; simp), hclean]
    rfl
  · rw [he', outputOf_byteCount hjson (by rw [hstale]; exact hpair), hstale]
    decide +kernel

/-- two directories with the same inputs and different outputs -/
theorem leftover_reported : (∀ f ∈ byteCount.files, inputOnly [] f = withLeftover taggedJson [] f) ∧
    ∃ e e', byteCount.sequential taggedJson (inputOnly []) = some e ∧
      byteCount.sequential taggedJson (withLeftover taggedJson []) = some e' ∧
        e (outputName byteCount.jobName) = some [] ∧
          e' (outputName byteCount.jobName) = some (line (ascii ['n']) (ascii ['1'])) :=
  ⟨withLeftover_input taggedJson [], sequential_withLeftover taggedJson_lawful⟩

end CS240.MapReduce.Job
