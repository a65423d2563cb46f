/-
MapReduce jobs (src/mapreduce): the names of their files, map tasks, reduce tasks, the merge and the sequential run.

Tasks are `FileTask`s over byte strings. Go strings and file contents are sequences of bytes, compared byte by byte. A
file can always be created; a missing one reads as it does in the source, which prints the error and goes on, except in
`merge`, which gives up.

How `encoding/json` writes a pair and what a decoding loop makes of a file are parameters (`Json`); `Json.Lawful` is
what is assumed of them where anything is: pairs of valid UTF-8 strings, written one after the other, are read back.
-/
import CS240.Lib.Files
import CS240.Lib.Grouping
import CS240.Lib.Text

namespace CS240.MapReduce

open Lib

structure KeyValue where
  key : Bytes
  value : Bytes
deriving DecidableEq, Repr

def KeyValue.Valid (kv : KeyValue) : Prop := ValidUTF8 kv.key ∧ ValidUTF8 kv.value

/-- `encode` is what an encoder writes for one pair, `decode` the pairs a decoder returns before the end of the file or
its first error -/
structure Json where
  encode : KeyValue → Bytes
  decode : Bytes → List KeyValue

def Json.Lawful (json : Json) : Prop :=
  ∀ kvs : List KeyValue, (∀ kv ∈ kvs, kv.Valid) → json.decode (kvs.flatMap json.encode) = kvs

/-- what is decoded from a file that may be missing -/
def Json.records (json : Json) : Option Bytes → List KeyValue
  | none => []
  | some bytes => json.decode bytes

/-! ## Names of files -/

def mrtmp : Bytes := ascii ['m', 'r', 't', 'm', 'p', '.']

def reduceName (jobName : Bytes) (mapTask reduceTask : ℕ) : Bytes :=
  mrtmp ++ jobName ++ ascii ['-'] ++ itoa mapTask ++ ascii ['-'] ++ itoa reduceTask

def mergeName (jobName : Bytes) (reduceTask : ℕ) : Bytes :=
  mrtmp ++ jobName ++ ascii ['-', 'r', 'e', 's', '-'] ++ itoa reduceTask

/-- the file that `merge` writes -/
def outputName (jobName : Bytes) : Bytes := mrtmp ++ jobName

/-! ## Tasks -/

/-- 32-bit FNV-1a -/
def ihash (s : Bytes) : UInt32 := s.foldl (fun h b => (h ^^^ UInt32.ofNat b.val) * 16777619) 2166136261

/-- the reduce task that a key goes to -/
def partition (nReduce : ℕ) (key : Bytes) : ℕ := (ihash key).toNat % nReduce

section Tasks

variable (json : Json) (jobName : Bytes)

/-- The loop of `doMap` over the pairs. A file is created when the first pair for it comes up; `opened` are those that
have been. -/
def encodePairs (mapTaskNumber nReduce : ℕ) : List ℕ → List KeyValue → List (Write Bytes Byte)
  | _, [] => []
  | opened, kv :: kvs =>
    let r := partition nReduce kv.key
    let rname := reduceName jobName mapTaskNumber r
    if r ∈ opened then .append rname (json.encode kv) :: encodePairs mapTaskNumber nReduce opened kvs
    else .create rname :: .append rname (json.encode kv) :: encodePairs mapTaskNumber nReduce (r :: opened) kvs

def doMap (mapTaskNumber : ℕ) (inFile : Bytes) (nReduce : ℕ) (mapF : Bytes → Bytes → List KeyValue) :
    FileTask Bytes Byte where
  reads := [inFile]
  writes answers :=
    let content :=
      match answers with
      | [some bytes] => bytes
      | _ => []
    let kvs := mapF inFile content
    -- the remainder of a division by zero panics, if there is a pair to divide for
    if nReduce = 0 ∧ kvs ≠ [] then none
    else some (encodePairs json jobName mapTaskNumber nReduce [] kvs)

def doReduce (reduceTaskNumber nMap : ℕ) (reduceF : Bytes → List Bytes → Bytes) : FileTask Bytes Byte where
  reads := (List.range nMap).map fun m => reduceName jobName m reduceTaskNumber
  writes answers :=
    let buckets := buckets KeyValue.key KeyValue.value (answers.flatMap json.records)
    let outname := mergeName jobName reduceTaskNumber
    some (.create outname :: (sortedKeys buckets).map fun k =>
      .append outname (json.encode ⟨k, reduceF k (read buckets k)⟩))

def line (k v : Bytes) : Bytes := k ++ ascii [':', ' '] ++ v ++ ascii ['\n']

def merge (nReduce : ℕ) : FileTask Bytes Byte where
  reads := (List.range nReduce).map (mergeName jobName)
  writes answers :=
    if none ∈ answers then none
    else
      let kvs := latest KeyValue.key KeyValue.value (answers.flatMap json.records)
      some [.create (outputName jobName),
        .append (outputName jobName) ((sortedKeys kvs).flatMap fun k => line k (read kvs k))]

end Tasks

structure Job where
  jobName : Bytes
  files : List Bytes
  nReduce : ℕ
  mapF : Bytes → Bytes → List KeyValue
  reduceF : Bytes → List Bytes → Bytes

namespace Job

variable (job : Job) (json : Json)

def maps : List (FileTask Bytes Byte) :=
  job.files.mapIdx fun i f => doMap json job.jobName i f job.nReduce job.mapF

def reduces : List (FileTask Bytes Byte) :=
  (List.range job.nReduce).map fun i => doReduce json job.jobName i job.files.length job.reduceF

/-- `Sequential`: the map tasks one after the other, then the reduce tasks, then the merge -/
def sequential (d : Disk Bytes Byte) : Option (Disk Bytes Byte) := do
  let d ← runAll (job.maps json) d
  let d ← runAll (job.reduces json) d
  (merge json job.jobName job.nReduce).run d

end Job

/-! ## Different files have different names -/

section Names

variable {jobName : Bytes} {m r m' r' : ℕ}

theorem reduceName_eq : reduceName jobName m r =
    (mrtmp ++ jobName ++ ascii ['-']) ++ (itoa m ++ byte '-' :: itoa r) := by
  simp [reduceName, ascii]

theorem mergeName_eq : mergeName jobName r =
    (mrtmp ++ jobName ++ ascii ['-']) ++ (ascii ['r', 'e', 's'] ++ byte '-' :: itoa r) := by
  simp [mergeName, ascii]

theorem reduceName_inj (h : reduceName jobName m r = reduceName jobName m' r') : m = m' ∧ r = r' := by
  rw [reduceName_eq, reduceName_eq, List.append_cancel_left_eq] at h
  obtain ⟨hm, -, hr⟩ := (List.append_cons_inj_of_notMem (dash_notMem_itoa m) (dash_notMem_itoa r)).1 h
  exact ⟨itoa_injective hm, itoa_injective hr⟩

theorem mergeName_inj (h : mergeName jobName r = mergeName jobName r') : r = r' :=
  itoa_injective (List.append_cancel_left h)

/-- a number is not the word `res` -/
theorem reduceName_ne_mergeName : reduceName jobName m r ≠ mergeName jobName r' := by
  intro h
  rw [reduceName_eq, mergeName_eq, List.append_cancel_left_eq] at h
  have hm := ((List.append_cons_inj_of_notMem (dash_notMem_itoa m) (dash_notMem_itoa r)).1 h).1
  have hmem : byte 'r' ∈ itoa m := by rw [hm]; decide
  exact absurd (itoa_digit hmem).2 (by decide)

theorem mrtmp_reduceName : mrtmp <+: reduceName jobName m r := by
  simp [reduceName, List.append_assoc]

end Names

end CS240.MapReduce
