/-
The inverted index (main/ii.go).

Its map function emits each word of a document once, with the name of the document; its reduce function sorts the names
and puts their number in front. A document that is listed twice is mapped twice, and its name then comes up twice; a
name that is not valid UTF-8 comes back changed from the intermediate file.

- `ii_output`: what the job writes.
- `isIndex_iff`: this is the index of the documents if and only if every document with a word in it is listed once and
  has a name that is valid UTF-8.
-/
import CS240.MapReduce.Text

namespace CS240.MapReduce.InvertedIndex

open Lib

/-! ## The job -/

/-- the loop of the map function over the words; `alreadyread` are those that have come up -/
def emitNew (document : Bytes) : List Bytes → List Bytes → List KeyValue
  | _, [] => []
  | alreadyread, word :: rest =>
    if word ∈ alreadyread then emitNew document alreadyread rest
    else ⟨word, document⟩ :: emitNew document (word :: alreadyread) rest

def mapF (L : Letters) (document value : Bytes) : List KeyValue := emitNew document [] (words L value)

/-- `fmt.Sprintf("%d %s", len(docs), strings.Join(docs, ","))` -/
def entry (docs : List Bytes) : Bytes := itoa docs.length ++ ascii [' '] ++ List.intercalate (ascii [',']) docs

def reduceF (_key : Bytes) (values : List Bytes) : Bytes := entry (values.insertionSort (· ≤ ·))

/-- `main` runs it with three reduce tasks -/
def ii (L : Letters) (files : List Bytes) (nReduce : ℕ) : Job where
  jobName := ascii ['i', 'i', 's', 'e', 'q']
  files := files
  nReduce := nReduce
  mapF := mapF L
  reduceF := reduceF

variable {L : Letters} {files : List Bytes} {d : Disk Bytes Byte} {w : Bytes}

/-! ## What the job emits -/

/-- a document comes up once for each of its words -/
theorem valuesOf_emitNew (document : Bytes) (alreadyread ws : List Bytes) (w : Bytes) :
    valuesOf KeyValue.key KeyValue.value w (emitNew document alreadyread ws) =
      if w ∈ ws ∧ w ∉ alreadyread then [document] else [] := by
  induction ws generalizing alreadyread with
  | nil => simp [emitNew]
  | cons x ws ih =>
    by_cases hx : x ∈ alreadyread
    · rw [emitNew, if_pos hx, ih]
      by_cases hw : w = x
      · simp [hw, hx]
      · simp [hw]
    · rw [emitNew, if_neg hx, valuesOf_cons, ih]
      by_cases hw : x = w
      · subst hw
        simp [hx]
      · simp [hw, Ne.symm hw]

/-- the documents in which `w` occurs, as often as they are listed -/
def listing (L : Letters) (files : List Bytes) (d : Disk Bytes Byte) (w : Bytes) : List Bytes :=
  files.filter fun f => w ∈ words L ((d f).getD [])

theorem mem_listing {f : Bytes} : f ∈ listing L files d w ↔ f ∈ files ∧ Occurs L w ((d f).getD []) := by
  simp [listing, mem_words]

theorem valuesOf_ii (nReduce : ℕ) :
    valuesOf KeyValue.key KeyValue.value w ((ii L files nReduce).emitted d) = listing L files d w := by
  have hflat : ∀ fs : List Bytes,
      valuesOf KeyValue.key KeyValue.value w (fs.flatMap fun f => mapF L f ((d f).getD [])) =
        listing L fs d w := by
    intro fs
    induction fs with
    | nil => rfl
    | cons f fs ih =>
      rw [List.flatMap_cons, valuesOf_append, ih, mapF, valuesOf_emitNew, listing, listing, List.filter_cons]
      split_ifs <;> simp_all
  exact hflat files

/-- the keys are the words -/
theorem key_emitted_ii {nReduce : ℕ} : w ∈ ((ii L files nReduce).emitted d).map KeyValue.key ↔
    ∃ f ∈ files, Occurs L w ((d f).getD []) := by
  rw [mem_keys_iff KeyValue.value, valuesOf_ii]
  constructor
  · intro hne
    obtain ⟨f, hf⟩ := List.exists_mem_of_ne_nil _ hne
    exact ⟨f, mem_listing.1 hf⟩
  · rintro ⟨f, hf⟩
    exact List.ne_nil_of_mem (mem_listing.2 hf)

theorem validUTF8_key (nReduce : ℕ) : ∀ kv ∈ (ii L files nReduce).emitted d, ValidUTF8 kv.key := by
  intro kv hkv
  obtain ⟨f, -, hw⟩ := key_emitted_ii.1 (List.mem_map_of_mem hkv)
  exact validUTF8_of_mem_words (mem_words.2 hw)

/-! ## Entries of the index -/

theorem validUTF8_entry {docs : List Bytes} (hdocs : ∀ f ∈ docs, ValidUTF8 f) : ValidUTF8 (entry docs) := by
  have hjoin : ValidUTF8 (List.intercalate (ascii [',']) docs) := by
    induction docs with
    | nil => exact ⟨[], rfl⟩
    | cons f docs ih =>
      rw [List.forall_mem_cons] at hdocs
      cases docs with
      | nil =>
        rw [List.intercalate_singleton]
        exact hdocs.1
      | cons g docs =>
        rw [List.intercalate_cons_cons]
        exact (hdocs.1.append (validUTF8_ascii_all rfl)).append (ih hdocs.2)
  exact ((validUTF8_itoa _).append (validUTF8_ascii_all rfl)).append hjoin

/-- the output, word by word -/
def index (ws : List Bytes) (docs : Bytes → List Bytes) : Bytes := ws.flatMap fun w => line w (entry (docs w))

/-- the names under a word as they come out of the job -/
def namesOf (L : Letters) (files : List Bytes) (d : Disk Bytes Byte) (w : Bytes) : List Bytes :=
  ((listing L files d w).map coerced).insertionSort (· ≤ ·)

theorem validUTF8_namesOf {f : Bytes} (hf : f ∈ namesOf L files d w) : ValidUTF8 f := by
  rw [namesOf, List.mem_insertionSort] at hf
  obtain ⟨f', -, rfl⟩ := List.mem_map.1 hf
  exact validUTF8_coerced f'

theorem validUTF8_index {ws : List Bytes} {docs : Bytes → List Bytes} (hws : ∀ w ∈ ws, ValidUTF8 w)
    (hdocs : ∀ w ∈ ws, ∀ f ∈ docs w, ValidUTF8 f) : ValidUTF8 (index ws docs) := by
  refine validUTF8_flatMap fun w hw => ?_
  exact (((hws w hw).append (validUTF8_ascii_all rfl)).append (validUTF8_entry (hdocs w hw))).append
    (validUTF8_ascii_all rfl)

/-- What the job writes in a clean directory: under each word the names of the documents that have it, as often as they
are listed, and as they come back from the intermediate files. -/
theorem ii_output {json : Json} (hjson : json.Coercing) {nReduce : ℕ} (hd : Job.Clean d)
    (hin : (ii L files nReduce).InputsApart) (hn : 1 ≤ nReduce) :
    ∃ (d' : Disk Bytes Byte) (ws : List Bytes), (ii L files nReduce).sequential json d = some d' ∧
      d' (outputName (ii L files nReduce).jobName) = some (index ws (namesOf L files d)) ∧
      ws.Pairwise (· < ·) ∧ ∀ w, w ∈ ws ↔ ∃ f ∈ files, Occurs L w ((d f).getD []) := by
  obtain ⟨d', hrun, hout⟩ := Job.sequential_coerced hjson hd hin hn (validUTF8_key nReduce)
  refine ⟨d', _, hrun, ?_,
    sortedKeys_pairwise (buckets KeyValue.key KeyValue.value ((ii L files nReduce).coerced.emitted d)), ?_⟩
  · rw [hout, Job.grouping, index]
    congr 1
    refine List.flatMap_congr fun w _ => ?_
    rw [Job.emitted_coerced, Job.valuesOf_coerced (validUTF8_key nReduce), valuesOf_ii]
    exact congrArg (line w) (coerced_of_valid (validUTF8_entry fun f hf => validUTF8_namesOf hf))
  · intro w
    have hkeys : ((ii L files nReduce).coerced.emitted d).map KeyValue.key =
        ((ii L files nReduce).emitted d).map KeyValue.key := by
      rw [Job.emitted_coerced, List.map_map]
      exact List.map_congr_left fun kv hkv => coerced_of_valid (validUTF8_key nReduce kv hkv)
    rw [sortedKeys_buckets, hkeys, key_emitted_ii]

/-! ## The index that is asked for -/

/-- `out` has one line for each word that occurs in a document, with the number of the documents in which it does and
their names in increasing order -/
def IsIndex (L : Letters) (files : List Bytes) (d : Disk Bytes Byte) (out : Bytes) : Prop :=
  ∃ (ws : List Bytes) (docs : Bytes → List Bytes), ws.Nodup ∧
    (∀ w, w ∈ ws ↔ ∃ f ∈ files, Occurs L w ((d f).getD [])) ∧
    (∀ w ∈ ws, (docs w).Pairwise (· < ·) ∧ ∀ f, f ∈ docs w ↔ f ∈ files ∧ Occurs L w ((d f).getD [])) ∧
    out = index ws docs

/-- every document with a word in it is listed once, and its name is valid UTF-8 -/
def ListedOnce (L : Letters) (files : List Bytes) (d : Disk Bytes Byte) : Prop :=
  ∀ f ∈ files, (∃ w, Occurs L w ((d f).getD [])) → files.count f = 1 ∧ ValidUTF8 f

/-- valid names come back as they are -/
theorem namesOf_of_valid (hvalid : ∀ f ∈ files, (∃ w, Occurs L w ((d f).getD [])) → ValidUTF8 f) (w : Bytes) :
    namesOf L files d w = (listing L files d w).insertionSort (· ≤ ·) := by
  have hsame : (listing L files d w).map coerced = listing L files d w := by
    refine (List.map_congr_left fun f hf => ?_).trans (List.map_id _)
    obtain ⟨hf, hw⟩ := mem_listing.1 hf
    exact coerced_of_valid (hvalid f hf ⟨w, hw⟩)
  rw [namesOf, hsame]

section ListedOnce

variable (honce : ListedOnce L files d)

include honce in
theorem nodup_listing (w : Bytes) : (listing L files d w).Nodup := by
  rw [List.nodup_iff_count_le_one]
  intro f
  by_cases hf : f ∈ listing L files d w
  · obtain ⟨hmem, hw⟩ := mem_listing.1 hf
    exact (List.Sublist.count_le f List.filter_sublist).trans (honce f hmem ⟨w, hw⟩).1.le
  · rw [List.count_eq_zero_of_not_mem hf]
    exact Nat.zero_le _

include honce in
/-- with every document listed once, the job writes the index -/
theorem isIndex_of_listedOnce {ws : List Bytes} (hws : ws.Pairwise (· < ·))
    (hmem : ∀ w, w ∈ ws ↔ ∃ f ∈ files, Occurs L w ((d f).getD [])) :
    IsIndex L files d (index ws (namesOf L files d)) := by
  refine ⟨ws, namesOf L files d, hws.imp ne_of_lt, hmem, fun w _ => ?_, rfl⟩
  rw [namesOf_of_valid fun f hf hw => (honce f hf hw).2]
  constructor
  · have hle := List.pairwise_insertionSort (· ≤ ·) (listing L files d w)
    have hne := (List.perm_insertionSort (· ≤ ·) (listing L files d w)).nodup_iff.2 (nodup_listing honce w)
    exact hle.imp₂ (fun _ _ hle hne => lt_of_le_of_ne hle hne) hne
  · intro f
    rw [List.mem_insertionSort, mem_listing]

end ListedOnce

/-! ## Reading the index back -/

/-- a name in an entry stands between two ASCII bytes -/
theorem exists_around {f : Bytes} {docs : List Bytes} (hf : f ∈ docs) (rest : Bytes) (b₀ : Byte) (hb₀ : b₀.val < 128) :
    ∃ (before after : Bytes) (b b' : Byte), b.val < 128 ∧ b'.val < 128 ∧
      b₀ :: (List.intercalate (ascii [',']) docs ++ byte '\n' :: rest) = before ++ b :: (f ++ b' :: after) := by
  induction docs generalizing b₀ with
  | nil => cases hf
  | cons g docs ih =>
    cases docs with
    | nil =>
      obtain rfl := List.mem_singleton.1 hf
      exact ⟨[], rest, b₀, byte '\n', hb₀, by decide, by rw [List.intercalate_singleton]; rfl⟩
    | cons g' docs =>
      have hjoin : List.intercalate (ascii [',']) (g :: g' :: docs) =
          g ++ byte ',' :: List.intercalate (ascii [',']) (g' :: docs) := by
        rw [List.intercalate_cons_cons, List.append_assoc]
        rfl
      rw [hjoin, List.append_assoc]
      rcases List.mem_cons.1 hf with rfl | hf
      · exact ⟨[], _, b₀, byte ',', hb₀, by decide, rfl⟩
      · obtain ⟨before, after, b, b', hb, hb', heq⟩ := ih hf (byte ',') (by decide)
        refine ⟨b₀ :: (g ++ before), after, b, b', hb, hb', ?_⟩
        rw [List.cons_append, heq, List.cons_append, List.append_assoc]

/-- the names in an index that is valid UTF-8 are valid UTF-8 -/
theorem validUTF8_of_index {ws : List Bytes} {docs : Bytes → List Bytes} (hvalid : ValidUTF8 (index ws docs))
    {f : Bytes} (hw : w ∈ ws) (hf : f ∈ docs w) : ValidUTF8 f := by
  obtain ⟨ws₁, ws₂, rfl⟩ := List.append_of_mem hw
  obtain ⟨before, after, b, b', hb, hb', heq⟩ := exists_around hf (index ws₂ docs) (byte ' ') (by decide)
  have hsplit : index (ws₁ ++ w :: ws₂) docs =
      (index ws₁ docs ++ w ++ ascii [':', ' '] ++ itoa (docs w).length ++ before) ++ b :: (f ++ b' :: after) := by
    rw [List.append_assoc _ before, ← heq]
    simp [index, line, entry, ascii]
  rw [hsplit] at hvalid
  exact ((hvalid.cut hb).2.cut hb').1

theorem space_notMem_itoa (n : ℕ) : byte ' ' ∉ itoa n := by
  intro h
  exact absurd (itoa_digit h).1 (by decide)

theorem colon_notMem_word {value : Bytes} (hw : Occurs L w value) : byte ':' ∉ w := by
  intro h
  exact absurd (isAlpha_of_mem_word (mem_words.2 hw) h (by decide)) (by decide)

/-- two indexes that are equal have the same numbers of names, if the names are the same wherever their numbers are -/
theorem length_of_index_eq {ws ws' : List Bytes} {docs docs' : Bytes → List Bytes} (hws : ∀ w ∈ ws, byte ':' ∉ w)
    (hws' : ∀ w ∈ ws', byte ':' ∉ w) (hsame : ∀ w ∈ ws, (docs w).length = (docs' w).length → docs w = docs' w)
    (h : index ws docs = index ws' docs') : ∀ w ∈ ws, (docs w).length = (docs' w).length := by
  induction ws generalizing ws' with
  | nil => intro w hw; cases hw
  | cons w ws ih =>
    rw [List.forall_mem_cons] at hws hsame
    cases ws' with
    | nil => simp [index, line, ascii] at h
    | cons w' ws' =>
      rw [List.forall_mem_cons] at hws'
      have hline : w ++ byte ':' :: (byte ' ' :: (entry (docs w) ++ byte '\n' :: index ws docs)) =
          w' ++ byte ':' :: (byte ' ' :: (entry (docs' w') ++ byte '\n' :: index ws' docs')) := by
        simpa [index, line, ascii] using h
      obtain ⟨rfl, hentry⟩ := append_cons_inj_of_notMem_left hws.1 hws'.1 hline
      have hnumber : itoa (docs w).length ++
          byte ' ' :: (List.intercalate (ascii [',']) (docs w) ++ byte '\n' :: index ws docs) =
          itoa (docs' w).length ++ byte ' ' ::
            (List.intercalate (ascii [',']) (docs' w) ++ byte '\n' :: index ws' docs') := by
        simpa [entry, ascii] using hentry
      have hlen := itoa_injective (append_cons_inj_of_notMem_left (space_notMem_itoa _) (space_notMem_itoa _) hnumber).1
      rw [hsame.1 hlen] at hentry
      rw [List.forall_mem_cons]
      exact ⟨hlen, ih hws.2 hws'.2 hsame.2 (List.cons.inj (List.append_cancel_left (List.cons.inj hentry).2)).2⟩

/-- names in increasing order, as many as there are listed: then they are the listed ones, each once -/
theorem perm_of_length {docs listed : List Bytes} (hdocs : docs.Pairwise (· < ·)) (hmem : ∀ f, f ∈ docs ↔ f ∈ listed)
    (hlen : listed.length = docs.length) : docs.Perm listed := by
  have hnodup : docs.Nodup := hdocs.imp ne_of_lt
  have hsub : docs.Subperm listed := hnodup.subperm fun f hf => (hmem f).1 hf
  exact hsub.perm_of_length_le hlen.le

section ReadBack

variable {ws ws' : List Bytes} {docs : Bytes → List Bytes}
  (hmem : ∀ w, w ∈ ws ↔ ∃ f ∈ files, Occurs L w ((d f).getD []))
  (hmem' : ∀ w, w ∈ ws' ↔ ∃ f ∈ files, Occurs L w ((d f).getD []))
  (hdocs : ∀ w ∈ ws', (docs w).Pairwise (· < ·) ∧ ∀ f, f ∈ docs w ↔ f ∈ files ∧ Occurs L w ((d f).getD []))
  (heq : index ws (namesOf L files d) = index ws' docs)

include hmem hmem' hdocs heq in
/-- what the job writes is valid, so the names in the index are -/
theorem validUTF8_of_isIndex : ∀ f ∈ files, (∃ w, Occurs L w ((d f).getD [])) → ValidUTF8 f := by
  have hvalid : ValidUTF8 (index ws (namesOf L files d)) := by
    refine validUTF8_index (fun w hw => ?_) fun w _ f hf => validUTF8_namesOf hf
    obtain ⟨f, -, hoccurs⟩ := (hmem w).1 hw
    exact validUTF8_of_mem_words (mem_words.2 hoccurs)
  rintro f hf ⟨w, hw⟩
  have hw' : w ∈ ws' := (hmem' w).2 ⟨f, hf, hw⟩
  exact validUTF8_of_index (heq ▸ hvalid) hw' (((hdocs w hw').2 f).2 ⟨hf, hw⟩)

include hmem hmem' hdocs heq in
/-- the numbers in the index are those of the names listed, so no name is listed twice -/
theorem nodup_listing_of_isIndex {w : Bytes} (hw : w ∈ ws) : (listing L files d w).Nodup := by
  have hword : ∀ {w}, w ∈ ws → w ∈ ws' := fun {w} hw => (hmem' w).2 ((hmem w).1 hw)
  have hcolon : ∀ {w}, (∃ f ∈ files, Occurs L w ((d f).getD [])) → byte ':' ∉ w :=
    fun ⟨_, _, hw⟩ => colon_notMem_word hw
  have hsorted : ∀ w, (namesOf L files d w).Perm (listing L files d w) := by
    intro w
    rw [namesOf_of_valid (validUTF8_of_isIndex hmem hmem' hdocs heq)]
    exact List.perm_insertionSort _ _
  have hperm : ∀ w ∈ ws, (namesOf L files d w).length = (docs w).length → (docs w).Perm (listing L files d w) := by
    intro w hw hlen
    refine perm_of_length (hdocs w (hword hw)).1 (fun f => ?_) ((hsorted w).length_eq.symm.trans hlen)
    rw [(hdocs w (hword hw)).2 f, mem_listing]
  have hlength : ∀ w ∈ ws, (namesOf L files d w).length = (docs w).length := by
    refine length_of_index_eq (fun w hw => hcolon ((hmem w).1 hw)) (fun w hw => hcolon ((hmem' w).1 hw)) ?_ heq
    intro w hw hlen
    -- both are sorted
    exact ((hsorted w).trans (hperm w hw hlen).symm).eq_of_pairwise' (List.pairwise_insertionSort (· ≤ ·) _)
      ((hdocs w (hword hw)).1.imp le_of_lt)
  exact (hperm w hw (hlength w hw)).nodup_iff.1 ((hdocs w (hword hw)).1.imp ne_of_lt)

end ReadBack

/-- if the job writes the index, every document with a word in it is listed once and has a valid name -/
theorem listedOnce_of_isIndex {ws : List Bytes} (hmem : ∀ w, w ∈ ws ↔ ∃ f ∈ files, Occurs L w ((d f).getD []))
    (hindex : IsIndex L files d (index ws (namesOf L files d))) : ListedOnce L files d := by
  obtain ⟨ws', docs, -, hmem', hdocs, heq⟩ := hindex
  rintro f hf ⟨w, hw⟩
  refine ⟨?_, validUTF8_of_isIndex hmem hmem' hdocs heq f hf ⟨w, hw⟩⟩
  have hnodup := nodup_listing_of_isIndex hmem hmem' hdocs heq ((hmem w).2 ⟨f, hf, hw⟩)
  calc files.count f = (listing L files d w).count f := (List.count_filter (by simpa [mem_words] using hw)).symm
    _ = 1 := List.count_eq_one_of_mem hnodup (mem_listing.2 ⟨hf, hw⟩)

/-- **The inverted index lists documents**: in a clean directory the job writes the index of its documents if and only
if every document with a word in it is listed once and has a name that is valid UTF-8. -/
theorem isIndex_iff (L : Letters) {json : Json} (hjson : json.Coercing) (files : List Bytes) (nReduce : ℕ)
    (d : Disk Bytes Byte) (hd : Job.Clean d) (hin : (ii L files nReduce).InputsApart) (hn : 1 ≤ nReduce) :
    ∃ (d' : Disk Bytes Byte) (out : Bytes), (ii L files nReduce).sequential json d = some d' ∧
      d' (outputName (ii L files nReduce).jobName) = some out ∧
      (IsIndex L files d out ↔ ∀ f ∈ files, (∃ w, Occurs L w ((d f).getD [])) → files.count f = 1 ∧ ValidUTF8 f) := by
  obtain ⟨d', ws, hrun, hout, hws, hmem⟩ := ii_output hjson hd hin hn
  exact ⟨d', _, hrun, hout, listedOnce_of_isIndex hmem, fun honce => isIndex_of_listedOnce honce hws hmem⟩

/-! ## A document with one word -/

/-- a directory with the document `a`, which has the word `x` in it -/
def oneDocument : Disk Bytes Byte := Function.update (fun _ => none) (ascii ['a']) (some (ascii ['x']))

theorem clean_oneDocument : Job.Clean oneDocument := Job.clean_update (by decide) _

/-- **Listed twice, the document is counted twice.** -/
theorem listed_twice : Job.Clean oneDocument ∧ ∃ d',
    (ii asciiLetters [ascii ['a'], ascii ['a']] 3).sequential coercingJson oneDocument = some d' ∧
    d' (outputName (ii asciiLetters [ascii ['a'], ascii ['a']] 3).jobName) =
      some (ascii ['x', ':', ' ', '2', ' ', 'a', ',', 'a', '\n']) ∧
    ¬IsIndex asciiLetters [ascii ['a'], ascii ['a']] oneDocument
      (ascii ['x', ':', ' ', '2', ' ', 'a', ',', 'a', '\n']) := by
  have hin : (ii asciiLetters [ascii ['a'], ascii ['a']] 3).InputsApart := clean_oneDocument.inputsApart (by decide)
  obtain ⟨d', ws, hrun, hout, hws, hmem⟩ := ii_output coercingJson_coercing clean_oneDocument hin (by decide)
  have hwords : words asciiLetters ((oneDocument (ascii ['a'])).getD []) = [ascii ['x']] := by decide +kernel
  obtain rfl : ws = [ascii ['x']] := by
    refine hws.eq_of_mem_iff (List.pairwise_singleton _ _) fun w => ?_
    simp [hmem, ← mem_words, hwords]
  have hindex : index [ascii ['x']] (namesOf asciiLetters [ascii ['a'], ascii ['a']] oneDocument) =
      ascii ['x', ':', ' ', '2', ' ', 'a', ',', 'a', '\n'] := by decide +kernel
  refine ⟨clean_oneDocument, d', hrun, hindex ▸ hout, fun h => ?_⟩
  have honce := (listedOnce_of_isIndex hmem (hindex ▸ h) (ascii ['a']) List.mem_cons_self
    ⟨ascii ['x'], mem_words.1 (by rw [hwords]; exact List.mem_cons_self)⟩).1
  exact absurd honce (by decide)

/-- listed once, it is indexed -/
theorem isIndex_iff_oneDocument : ∃ (d' : Disk Bytes Byte) (out : Bytes),
    (ii asciiLetters [ascii ['a']] 3).sequential coercingJson oneDocument = some d' ∧
      d' (outputName (ii asciiLetters [ascii ['a']] 3).jobName) = some out ∧
      (IsIndex asciiLetters [ascii ['a']] oneDocument out ↔ ∀ f ∈ [ascii ['a']],
        (∃ w, Occurs asciiLetters w ((oneDocument f).getD [])) → [ascii ['a']].count f = 1 ∧ ValidUTF8 f) ∧
      IsIndex asciiLetters [ascii ['a']] oneDocument out := by
  obtain ⟨d', out, hrun, hout, hiff⟩ := isIndex_iff asciiLetters coercingJson_coercing [ascii ['a']] 3 oneDocument
    clean_oneDocument (clean_oneDocument.inputsApart (by decide)) (by decide)
  refine ⟨d', out, hrun, hout, hiff, hiff.2 ?_⟩
  rw [List.forall_mem_singleton]
  exact fun _ => ⟨by decide, validUTF8_ascii_all rfl⟩

end CS240.MapReduce.InvertedIndex
