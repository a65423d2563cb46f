/-
Text in byte strings: the words of a string, and what a job makes of strings that are not valid UTF-8.

`encoding/json` writes a byte that is not part of valid UTF-8 as U+FFFD, so that pairs come back `coerced`.

- `mem_words`, `count_words`: `words` are the maximal runs of letters.
- `Job.sequential_coerced`: what a job writes with such a codec, for any strings.
-/
import CS240.Lib.Runs
import CS240.MapReduce.Sequential

namespace CS240.MapReduce

open Lib

/-! ## Coerced pairs -/

def KeyValue.coerced (kv : KeyValue) : KeyValue := ⟨Lib.coerced kv.key, Lib.coerced kv.value⟩

theorem KeyValue.coerced_valid (kv : KeyValue) : kv.coerced.Valid := ⟨validUTF8_coerced _, validUTF8_coerced _⟩

theorem KeyValue.coerced_of_valid {kv : KeyValue} (hkv : kv.Valid) : kv.coerced = kv := by
  rw [KeyValue.coerced, Lib.coerced_of_valid hkv.1, Lib.coerced_of_valid hkv.2]

/-- pairs written one after the other are read back coerced -/
def Json.Coercing (json : Json) : Prop :=
  ∀ kvs : List KeyValue, json.decode (kvs.flatMap json.encode) = kvs.map KeyValue.coerced

theorem Json.Coercing.lawful {json : Json} (hjson : json.Coercing) : json.Lawful := by
  intro kvs hkvs
  rw [hjson kvs]
  exact (List.map_congr_left fun kv hkv => KeyValue.coerced_of_valid (hkvs kv hkv)).trans (List.map_id _)

namespace Job

variable {job : Job} {json : Json} {d : Disk Bytes Byte}

/-- the job whose functions coerce their results themselves -/
def coerced (job : Job) : Job :=
  { job with
    mapF := fun f content => (job.mapF f content).map KeyValue.coerced
    reduceF := fun k vs => Lib.coerced (job.reduceF k vs) }

theorem pairs_coerced (job : Job) (d : Disk Bytes Byte) (m : ℕ) :
    job.coerced.pairs d m = (job.pairs d m).map KeyValue.coerced := by
  simp only [pairs, coerced]
  split <;> rfl

theorem emitted_coerced (job : Job) (d : Disk Bytes Byte) :
    job.coerced.emitted d = (job.emitted d).map KeyValue.coerced := by
  rw [emitted, emitted, List.map_flatMap]
  rfl

/-- coerced pairs go to the same reduce tasks if their keys were valid -/
theorem share_coerced {n r : ℕ} {kvs : List KeyValue} (hkeys : ∀ kv ∈ kvs, ValidUTF8 kv.key) :
    share n r (kvs.map KeyValue.coerced) = (share n r kvs).map KeyValue.coerced := by
  rw [share, share, List.filter_map]
  congr 1
  refine List.filter_congr fun kv hkv => ?_
  simp only [Function.comp_apply, KeyValue.coerced, Lib.coerced_of_valid (hkeys kv hkv)]

theorem valuesOf_coerced {kvs : List KeyValue} (hkeys : ∀ kv ∈ kvs, ValidUTF8 kv.key) (k : Bytes) :
    valuesOf KeyValue.key KeyValue.value k (kvs.map KeyValue.coerced) =
      (valuesOf KeyValue.key KeyValue.value k kvs).map Lib.coerced := by
  induction kvs with
  | nil => rfl
  | cons kv kvs ih =>
    rw [List.forall_mem_cons] at hkeys
    have hkey : kv.coerced.key = kv.key := Lib.coerced_of_valid hkeys.1
    rw [List.map_cons, valuesOf_cons, valuesOf_cons, hkey, ih hkeys.2]
    split_ifs <;> rfl

section Coercing

variable (hjson : json.Coercing)

include hjson in
theorem intermediate_coerced (hd : Clean d) (hkeys : ∀ kv ∈ job.emitted d, ValidUTF8 kv.key) (m r : ℕ) :
    job.intermediate json d m r = job.coerced.intermediate json d m r := by
  have hshare : share job.nReduce r (job.coerced.pairs d m) =
      (share job.nReduce r (job.pairs d m)).map KeyValue.coerced := by
    rw [pairs_coerced]
    exact share_coerced fun kv hkv => hkeys kv (mem_pairs_emitted hkv)
  have htwice : ∀ kvs : List KeyValue, (kvs.map KeyValue.coerced).map KeyValue.coerced = kvs.map KeyValue.coerced := by
    intro kvs
    rw [List.map_map]
    exact List.map_congr_left fun kv _ => KeyValue.coerced_of_valid kv.coerced_valid
  have hname : job.coerced.jobName = job.jobName := rfl
  have hnReduce : job.coerced.nReduce = job.nReduce := rfl
  simp only [intermediate, hname, hnReduce, hshare, hd _ mrtmp_reduceName, List.map_eq_nil_iff, hjson _, htwice]

include hjson in
/-- it makes no difference that the results of `reduceF` are coerced once more -/
theorem outputOf_coerced (inter : ℕ → ℕ → List KeyValue) :
    job.outputOf json inter = job.coerced.outputOf json inter := by
  have hreduced : ∀ kvs, (job.reducedPairs kvs).map KeyValue.coerced =
      (job.coerced.reducedPairs kvs).map KeyValue.coerced := by
    intro kvs
    simp only [reducedPairs, reduced, List.map_map]
    refine List.map_congr_left fun k _ => ?_
    simp only [Function.comp_apply, KeyValue.coerced, coerced, Lib.coerced_of_valid (validUTF8_coerced _)]
  have hfiles : job.coerced.files = job.files := rfl
  have hnReduce : job.coerced.nReduce = job.nReduce := rfl
  simp only [outputOf, hjson _, hreduced, hfiles, hnReduce]

include hjson in
/-- What a job writes in a clean directory if its keys are valid: the grouping of the coerced pairs. -/
theorem sequential_coerced (hd : Clean d) (hin : job.InputsApart) (hn : 1 ≤ job.nReduce)
    (hkeys : ∀ kv ∈ job.emitted d, ValidUTF8 kv.key) :
    ∃ d', job.sequential json d = some d' ∧ d' (outputName job.jobName) = some (job.coerced.grouping d) := by
  obtain ⟨d', hrun, hout⟩ := sequential_output json d hin hn
  refine ⟨d', hrun, ?_⟩
  have hinter : job.intermediate json d = job.coerced.intermediate json d := by
    funext m r
    exact intermediate_coerced hjson hd hkeys m r
  have hvalid : ∀ kv ∈ job.coerced.emitted d, kv.Valid := by
    intro kv hkv
    rw [emitted_coerced] at hkv
    obtain ⟨kv', -, rfl⟩ := List.mem_map.1 hkv
    exact kv'.coerced_valid
  have hreduceF : ∀ k vs, ValidUTF8 (job.coerced.reduceF k vs) := fun k vs => validUTF8_coerced _
  have hn' : 1 ≤ job.coerced.nReduce := hn
  calc d' (outputName job.jobName) = some (job.outputOf json (job.intermediate json d)) := hout
    _ = some (job.coerced.outputOf json (job.coerced.intermediate json d)) := by rw [outputOf_coerced hjson, hinter]
    _ = some (job.coerced.grouping d) := by rw [outputOf_eq_grouping hjson.lawful hvalid hd hreduceF hn']

end Coercing

end Job

/-! ## Words -/

/-- `unicode.IsLetter`, with what is used of it -/
structure Letters where
  isLetter : Char → Bool
  error : isLetter runeError = false
  ascii : ∀ c : Char, c.toNat < 128 → isLetter c = c.isAlpha

def Letters.letter (L : Letters) (r : Rune) : Bool := L.isLetter r.value

/-- the bytes of the runes from `i` up to `j` -/
def slice (rs : List Rune) (i j : ℕ) : Bytes := ((rs.drop i).take (j - i)).flatMap Rune.bytes

/-- `strings.FieldsFunc`: the stretches between the runes that satisfy `f` -/
def fieldsFunc (s : Bytes) (f : Char → Bool) : List Bytes :=
  (spans (fun r => !f r.value) (runes s)).map fun q => slice (runes s) q.1 q.2

/-- the words that the map functions of `wc` and `ii` find -/
def words (L : Letters) (value : Bytes) : List Bytes := fieldsFunc value fun r => !L.isLetter r

/-- `w` is a maximal run of letters in a text -/
def Occurs (L : Letters) (w value : Bytes) : Prop :=
  ∃ i j, IsRun L.letter (runes value) i j ∧ slice (runes value) i j = w

/-- how often it is -/
noncomputable def occurrences (L : Letters) (w value : Bytes) : ℕ :=
  {q : ℕ × ℕ | IsRun L.letter (runes value) q.1 q.2 ∧ slice (runes value) q.1 q.2 = w}.ncard

/-- the number of words of a text -/
noncomputable def wordTotal (L : Letters) (value : Bytes) : ℕ :=
  {q : ℕ × ℕ | IsRun L.letter (runes value) q.1 q.2}.ncard

section Words

variable {L : Letters} {w value : Bytes}

theorem words_eq (L : Letters) (value : Bytes) :
    words L value = (spans L.letter (runes value)).map fun q => slice (runes value) q.1 q.2 := by
  simp only [words, fieldsFunc, Bool.not_not]
  rfl

theorem mem_words : w ∈ words L value ↔ Occurs L w value := by
  rw [words_eq, List.mem_map]
  constructor
  · rintro ⟨⟨i, j⟩, hq, rfl⟩
    exact ⟨i, j, mem_spans.1 hq, rfl⟩
  · rintro ⟨i, j, hrun, rfl⟩
    exact ⟨(i, j), mem_spans.2 hrun, rfl⟩

theorem count_words : (words L value).count w = occurrences L w value := by
  rw [words_eq, List.count_eq_countP, List.countP_map, countP_spans, occurrences]
  simp

theorem length_words : (words L value).length = wordTotal L value := by
  rw [words_eq, List.length_map, ← List.countP_true, countP_spans, wordTotal]
  simp

/-- a rune that is a letter is a character -/
theorem eq_char_of_letter {r : Rune} (hr : L.letter r) : r = .char r.value := by
  cases r with
  | char c => rfl
  | bad b => rw [Letters.letter, Rune.value, L.error] at hr; cases hr

/-- a word is made of letters -/
theorem exists_letters_of_mem (hw : w ∈ words L value) :
    ∃ cs : List Char, w = cs.flatMap encodeRune ∧ ∀ c ∈ cs, L.isLetter c := by
  obtain ⟨i, j, hrun, rfl⟩ := mem_words.1 hw
  have hletters : ∀ r ∈ ((runes value).drop i).take (j - i), L.letter r := by
    intro r hr
    obtain ⟨k, hk⟩ := List.mem_iff_getElem?.1 hr
    rw [List.getElem?_take] at hk
    split_ifs at hk with hlt
    rw [List.getElem?_drop] at hk
    have hat := hrun.inside (i + k) (by omega) (by omega)
    rwa [holdsAt, hk] at hat
  refine ⟨(((runes value).drop i).take (j - i)).map Rune.value, ?_, ?_⟩
  · rw [slice, List.flatMap_map]
    refine List.flatMap_congr fun r hr => ?_
    rw [eq_char_of_letter (hletters r hr)]
    rfl
  · intro c hc
    obtain ⟨r, hr, rfl⟩ := List.mem_map.1 hc
    exact hletters r hr

theorem validUTF8_of_mem_words (hw : w ∈ words L value) : ValidUTF8 w := by
  obtain ⟨cs, rfl, -⟩ := exists_letters_of_mem hw
  exact validUTF8_iff.2 ⟨cs, rfl⟩

/-- the ASCII bytes of a word are letters -/
theorem isAlpha_of_mem_word (hw : w ∈ words L value) {b : Byte} (hmem : b ∈ w) (hb : b.val < 128) :
    (Char.ofNat b.val).isAlpha := by
  obtain ⟨cs, rfl, hletters⟩ := exists_letters_of_mem hw
  obtain ⟨c, hc, hbc⟩ := List.mem_flatMap.1 hmem
  have hsame : c = Char.ofNat b.val :=
    encodeRune_injective ((encodeRune_of_ascii_mem hbc hb).trans (encodeRune_ascii hb).symm)
  have hascii : ∀ b : Byte, b.val < 128 → (Char.ofNat b.val).toNat < 128 := by decide +kernel
  rw [← L.ascii _ (hascii b hb), ← hsame]
  exact hletters c hc

end Words

/-! ## To evaluate the results -/

/-- no letters but the ASCII ones -/
def asciiLetters : Letters := ⟨Char.isAlpha, by decide, fun _ _ => rfl⟩

def coercingJson : Json where
  encode kv := taggedJson.encode kv.coerced
  decode := taggedJson.decode

theorem coercingJson_coercing : coercingJson.Coercing := by
  intro kvs
  have h := taggedJson_lawful (kvs.map KeyValue.coerced) (by simp [KeyValue.coerced_valid])
  rwa [List.flatMap_map] at h

end CS240.MapReduce
