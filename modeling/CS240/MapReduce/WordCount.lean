/-
The word count (main/wc.go).

Its map function emits a `1` for each word, its reduce function reads them back as numbers and adds them up, in a 64-bit
integer. `wordCount_exact`: the output has the number of occurrences of every word.
-/
import CS240.MapReduce.Text

namespace CS240.MapReduce.WordCount

open Lib

/-! ## The job -/

def mapF (L : Letters) (_document value : Bytes) : List KeyValue := (words L value).map fun word => ⟨word, ascii ['1']⟩

/-- the sum is a 64-bit integer, so it wraps around -/
def reduceF (_key : Bytes) (values : List Bytes) : Bytes :=
  itoaInt (values.foldl (fun count val => Int.bmod (count + atoi val) (2 ^ 64)) 0)

/-- `main` runs it with three reduce tasks -/
def wc (L : Letters) (files : List Bytes) (nReduce : ℕ) : Job where
  jobName := ascii ['w', 'c', 's', 'e', 'q']
  files := files
  nReduce := nReduce
  mapF := mapF L
  reduceF := reduceF

/-! ## What is counted -/

variable {L : Letters} {files : List Bytes} {d : Disk Bytes Byte} {w : Bytes}

/-- the occurrences of a word in all documents -/
noncomputable def total (L : Letters) (files : List Bytes) (d : Disk Bytes Byte) (w : Bytes) : ℕ :=
  (files.map fun f => occurrences L w ((d f).getD [])).sum

/-- the words of all documents, in order -/
def allWords (L : Letters) (files : List Bytes) (d : Disk Bytes Byte) : List Bytes :=
  files.flatMap fun f => words L ((d f).getD [])

theorem count_allWords : (allWords L files d).count w = total L files d w := by
  simp only [allWords, total, List.count_flatMap, Function.comp_def, count_words]

theorem length_allWords : (allWords L files d).length = (files.map fun f => wordTotal L ((d f).getD [])).sum := by
  simp only [allWords, List.length_flatMap, length_words]

theorem emitted_wc (nReduce : ℕ) :
    (wc L files nReduce).emitted d = (allWords L files d).map fun word => ⟨word, ascii ['1']⟩ := by
  simp only [Job.emitted, wc, mapF, allWords, List.map_flatMap]

/-- one `1` for each occurrence -/
theorem valuesOf_ones (ws : List Bytes) (w : Bytes) :
    valuesOf KeyValue.key KeyValue.value w (ws.map fun word => ⟨word, ascii ['1']⟩) =
      List.replicate (ws.count w) (ascii ['1']) := by
  induction ws with
  | nil => rfl
  | cons x ws ih =>
    rw [List.map_cons, valuesOf_cons, ih]
    by_cases hx : x = w
    · simp [hx, List.replicate_succ]
    · simp [hx]

/-- adding up ones -/
theorem foldl_ones {n : ℕ} {c : ℕ} (hlt : c + n < 2 ^ 63) :
    (List.replicate n (ascii ['1'])).foldl (fun count val => Int.bmod (count + atoi val) (2 ^ 64)) (c : ℤ) =
      (c + n : ℕ) := by
  induction n generalizing c with
  | zero => rfl
  | succ n ih =>
    have hone : atoi (ascii ['1']) = 1 := by decide +kernel
    have hstep : Int.bmod ((c : ℤ) + 1) (2 ^ 64) = ((c + 1 : ℕ) : ℤ) := by
      rw [Int.bmod_eq_of_le] <;> push_cast <;> omega
    rw [List.replicate_succ, List.foldl_cons, hone, hstep, ih (by omega), Nat.add_assoc, Nat.add_comm 1 n]

theorem reduceF_ones (k : Bytes) {n : ℕ} (hlt : n < 2 ^ 63) : reduceF k (List.replicate n (ascii ['1'])) = itoa n := by
  have hsum := foldl_ones (n := n) (c := 0) (by omega)
  rw [Nat.cast_zero, Nat.zero_add] at hsum
  rw [reduceF, hsum, itoaInt, if_neg (by omega), Int.natAbs_natCast]

theorem wc_valid (nReduce : ℕ) : ∀ kv ∈ (wc L files nReduce).emitted d, kv.Valid := by
  intro kv hkv
  rw [emitted_wc] at hkv
  obtain ⟨w, hw, rfl⟩ := List.mem_map.1 hkv
  obtain ⟨f, -, hw⟩ := List.mem_flatMap.1 hw
  exact ⟨validUTF8_of_mem_words hw, validUTF8_ascii_all rfl⟩

/-- the words, each once, and their numbers add up to all of them -/
theorem sum_total {ws : List Bytes} (hws : ws.Nodup) (hmem : ∀ w, w ∈ ws ↔ w ∈ allWords L files d) :
    (ws.map (total L files d)).sum = (allWords L files d).length := by
  have hperm : ws.Perm (allWords L files d).dedup := by
    refine (List.perm_ext_iff_of_nodup hws (List.nodup_dedup _)).2 fun w => ?_
    rw [hmem, List.mem_dedup]
  calc (ws.map (total L files d)).sum = ((allWords L files d).dedup.map (total L files d)).sum := (hperm.map _).sum_eq
    _ = ((allWords L files d).dedup.map fun w => (allWords L files d).count w).sum := by simp only [count_allWords]
    _ = (allWords L files d).length := by
      rw [← List.sum_map_count_dedup_eq_length (allWords L files d)]
      -- equality of words is decided in two ways here
      congr!

/-- one line for each word, with its number -/
theorem grouping_wc (nReduce : ℕ) (hlt : (allWords L files d).length < 2 ^ 63) : (wc L files nReduce).grouping d =
    (sortedKeys (buckets KeyValue.key KeyValue.value ((wc L files nReduce).emitted d))).flatMap fun w =>
      line w (itoa (total L files d w)) := by
  refine List.flatMap_congr fun w _ => ?_
  have hcount : total L files d w < 2 ^ 63 := by
    rw [← count_allWords]
    exact List.count_le_length.trans_lt hlt
  rw [emitted_wc, valuesOf_ones, count_allWords]
  exact congrArg (line w) (reduceF_ones w hcount)

/-- **The word count is exact.** In a clean directory the output has one line for each word that occurs in a document,
in increasing order of the words, with the number of its occurrences in all documents; these numbers add up to the
number of words. -/
theorem wordCount_exact (L : Letters) {json : Json} (hjson : json.Lawful) (files : List Bytes) (nReduce : ℕ)
    (d : Disk Bytes Byte) (hd : Job.Clean d) (hin : (wc L files nReduce).InputsApart) (hn : 1 ≤ nReduce)
    (hlt : (files.map fun f => wordTotal L ((d f).getD [])).sum < 2 ^ 63) :
    ∃ (d' : Disk Bytes Byte) (ws : List Bytes), (wc L files nReduce).sequential json d = some d' ∧
      d' (outputName (wc L files nReduce).jobName) = some (ws.flatMap fun w => line w (itoa (total L files d w))) ∧
      ws.Pairwise (· < ·) ∧ (∀ w, w ∈ ws ↔ ∃ f ∈ files, Occurs L w ((d f).getD [])) ∧
      (ws.map (total L files d)).sum = (files.map fun f => wordTotal L ((d f).getD [])).sum := by
  obtain ⟨d', hrun, hout⟩ :=
    Job.sequential_grouping hjson (wc_valid nReduce) hd (fun k vs => validUTF8_itoaInt _) hin hn
  have hmem : ∀ w, w ∈ sortedKeys (buckets KeyValue.key KeyValue.value ((wc L files nReduce).emitted d)) ↔
      w ∈ allWords L files d := by
    intro w
    rw [sortedKeys_buckets, emitted_wc, List.map_map]
    simp [Function.comp_def]
  rw [← length_allWords] at hlt ⊢
  rw [grouping_wc nReduce hlt] at hout
  refine ⟨d', _, hrun, hout, sortedKeys_pairwise _, fun w => ?_, sum_total ((sortedKeys_pairwise _).imp ne_of_lt) hmem⟩
  rw [hmem, allWords, List.mem_flatMap]
  simp only [mem_words]

theorem wordCount_exact_inputOnly : ∃ (d' : Disk Bytes Byte) (ws : List Bytes),
    (wc asciiLetters [ascii ['i', 'n']] 2).sequential taggedJson
      (Job.inputOnly (ascii ['a', ' ', 'b', '1', 'a'])) = some d' ∧
      d' (outputName (wc asciiLetters [ascii ['i', 'n']] 2).jobName) = some (ws.flatMap fun w =>
        line w (itoa (total asciiLetters [ascii ['i', 'n']] (Job.inputOnly (ascii ['a', ' ', 'b', '1', 'a'])) w))) ∧
      ws.Pairwise (· < ·) ∧
      (∀ w, w ∈ ws ↔ ∃ f ∈ [ascii ['i', 'n']], Occurs asciiLetters w
        ((Job.inputOnly (ascii ['a', ' ', 'b', '1', 'a']) f).getD [])) ∧
      (ws.map (total asciiLetters [ascii ['i', 'n']] (Job.inputOnly (ascii ['a', ' ', 'b', '1', 'a'])))).sum =
        ([ascii ['i', 'n']].map fun f => wordTotal asciiLetters
          ((Job.inputOnly (ascii ['a', ' ', 'b', '1', 'a']) f).getD [])).sum := by
  refine wordCount_exact asciiLetters taggedJson_lawful _ 2 _ (Job.clean_inputOnly _)
    ((Job.clean_inputOnly (ascii ['a', ' ', 'b', '1', 'a'])).inputsApart (by decide)) (by decide) ?_
  rw [← length_allWords]
  decide +kernel

/-- the same input by evaluation -/
example : (wc asciiLetters [ascii ['i', 'n']] 2).grouping (Job.inputOnly (ascii ['a', ' ', 'b', '1', 'a'])) =
    ascii ['a', ':', ' ', '2', '\n', 'b', ':', ' ', '1', '\n'] := by decide +kernel

end CS240.MapReduce.WordCount
