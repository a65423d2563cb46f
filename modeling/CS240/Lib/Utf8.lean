/-
Strings of bytes and their text in UTF-8.

`range` over a string decodes one character after another; a byte with which no encoding begins is taken alone, as
U+FFFD. An encoder that writes text replaces such a byte by the encoding of U+FFFD, so that a string comes back
`coerced`.

- `runes_flatMap_encodeRune`: valid strings have their characters as runes.
- `ValidUTF8.cut`: a valid string can be cut at an ASCII byte.
- `coerced_of_valid`, `validUTF8_coerced`: coercion leaves valid strings as they are, and its results are valid.
- `utf8_text`, `text_utf8`: the text of a string, and the string of a text.
-/
import Mathlib.Tactic

namespace CS240.Lib

abbrev Byte := Fin 256

abbrev Bytes := List Byte

/-- bytes are written as numerals, and all modules mean the same term by one -/
instance instNeZeroByte : NeZero 256 := inferInstance

/-- all modules mean the same test by `s ∈ ss` -/
instance instLawfulBEqBytes : LawfulBEq Bytes := inferInstance

/-- the byte of an ASCII character -/
def byte (c : Char) : Byte := Fin.ofNat 256 c.toNat

def ascii (cs : List Char) : Bytes := cs.map byte

def ValidUTF8 (s : Bytes) : Prop := ∃ cs : List Char, s = (cs.flatMap String.utf8EncodeChar).map UInt8.toFin

/-! ## Runes -/

/-- the UTF-8 encoding of a character -/
def encodeRune (c : Char) : Bytes := (String.utf8EncodeChar c).map UInt8.toFin

/-- U+FFFD -/
def runeError : Char := Char.ofNat 0xFFFD

/-- a character of a string, or a byte with which no encoding begins -/
inductive Rune where
  | char (c : Char)
  | bad (b : Byte)
deriving DecidableEq, Repr

namespace Rune

/-- what `range` gives for it -/
def value : Rune → Char
  | .char c => c
  | .bad _ => runeError

def bytes : Rune → Bytes
  | .char c => encodeRune c
  | .bad b => [b]

end Rune

/-- `utf8.DecodeRuneInString` at the beginning of `b :: s` -/
def decodeRune (b : Byte) (s : Bytes) : Rune :=
  match (((b :: s).map UInt8.ofFin).toByteArray).utf8DecodeChar? 0 with
  | some c => .char c
  | none => .bad b

/-- the runes of a string after its first `skip` bytes -/
def runesFrom : ℕ → Bytes → List Rune
  | _, [] => []
  | skip + 1, _ :: s => runesFrom skip s
  | 0, b :: s => decodeRune b s :: runesFrom ((decodeRune b s).bytes.length - 1) s

/-- `range` over a string -/
def runes (s : Bytes) : List Rune := runesFrom 0 s

theorem map_ofFin_encodeRune (c : Char) : (encodeRune c).map UInt8.ofFin = String.utf8EncodeChar c := by
  simp [encodeRune, Function.comp_def]

theorem encodeRune_ne_nil (c : Char) : encodeRune c ≠ [] := by
  simp [encodeRune]

theorem bytes_ne_nil (r : Rune) : r.bytes ≠ [] := by
  cases r with
  | char c => exact encodeRune_ne_nil c
  | bad b => exact List.cons_ne_nil _ _

theorem exists_length_bytes (r : Rune) : ∃ n, r.bytes.length = n + 1 :=
  Nat.exists_eq_add_one.2 (List.length_pos_of_ne_nil (bytes_ne_nil r))

theorem decodeRune_encodeRune {c : Char} {b : Byte} {s rest : Bytes} (h : b :: s = encodeRune c ++ rest) :
    decodeRune b s = .char c := by
  have hdecode : (((b :: s).map UInt8.ofFin).toByteArray).utf8DecodeChar? 0 = some c := by
    rw [h, List.map_append, map_ofFin_encodeRune, List.toByteArray_append]
    exact ByteArray.utf8DecodeChar?_utf8EncodeChar_append
  rw [decodeRune, hdecode]

theorem runesFrom_eq (skip : ℕ) (s : Bytes) : runesFrom skip s = runes (s.drop skip) := by
  induction s generalizing skip with
  | nil => cases skip <;> rfl
  | cons b s ih =>
    cases skip with
    | zero => rfl
    | succ skip => exact ih skip

theorem runes_cons (b : Byte) (s : Bytes) :
    runes (b :: s) = decodeRune b s :: runes ((b :: s).drop (decodeRune b s).bytes.length) := by
  obtain ⟨n, hn⟩ := exists_length_bytes (decodeRune b s)
  rw [hn, List.drop_succ_cons, ← runesFrom_eq]
  simp only [runes, runesFrom, hn, Nat.add_sub_cancel]

theorem runes_encodeRune_append (c : Char) (s : Bytes) : runes (encodeRune c ++ s) = .char c :: runes s := by
  obtain ⟨b, t, ht⟩ := List.exists_cons_of_ne_nil (encodeRune_ne_nil c)
  have hdecode : decodeRune b (t ++ s) = .char c := decodeRune_encodeRune (by rw [ht]; rfl)
  rw [ht, List.cons_append, runes_cons, hdecode]
  simp only [Rune.bytes, ht]
  rw [← List.cons_append, List.drop_left]

theorem encodeRune_injective : Function.Injective encodeRune := by
  intro c c' h
  have hc := runes_encodeRune_append c []
  rw [h, runes_encodeRune_append] at hc
  exact (Rune.char.inj (List.cons.inj hc).1).symm

theorem runes_flatMap_encodeRune (cs : List Char) : runes (cs.flatMap encodeRune) = cs.map .char := by
  induction cs with
  | nil => rfl
  | cons c cs ih => rw [List.flatMap_cons, runes_encodeRune_append, ih, List.map_cons]

/-! ## Valid strings -/

theorem validUTF8_iff {s : Bytes} : ValidUTF8 s ↔ ∃ cs : List Char, s = cs.flatMap encodeRune := by
  simp only [ValidUTF8, List.map_flatMap]
  rfl

theorem ValidUTF8.append {s t : Bytes} (hs : ValidUTF8 s) (ht : ValidUTF8 t) : ValidUTF8 (s ++ t) := by
  obtain ⟨cs, rfl⟩ := validUTF8_iff.1 hs
  obtain ⟨ds, rfl⟩ := validUTF8_iff.1 ht
  exact validUTF8_iff.2 ⟨cs ++ ds, List.flatMap_append.symm⟩

theorem validUTF8_flatMap {β : Type} {l : List β} {f : β → Bytes} (hf : ∀ x ∈ l, ValidUTF8 (f x)) :
    ValidUTF8 (l.flatMap f) := by
  induction l with
  | nil => exact ⟨[], rfl⟩
  | cons x l ih =>
    rw [List.flatMap_cons]
    exact (hf x List.mem_cons_self).append (ih fun y hy => hf y (List.mem_cons_of_mem _ hy))

theorem validUTF8_encodeRune (c : Char) : ValidUTF8 (encodeRune c) :=
  validUTF8_iff.2 ⟨[c], (List.flatMap_singleton _ _).symm⟩

theorem encodeRune_ascii {b : Byte} (hb : b.val < 128) : encodeRune (Char.ofNat b.val) = [b] := by
  have hall : ∀ b : Byte, b.val < 128 → encodeRune (Char.ofNat b.val) = [b] := by decide +kernel
  exact hall b hb

/-- an ASCII byte is an encoding of its own, not part of a longer one -/
theorem encodeRune_of_ascii_mem {c : Char} {b : Byte} (hmem : b ∈ encodeRune c) (hb : b.val < 128) :
    encodeRune c = [b] := by
  have hfirst : ∀ b : Byte, b.val < 128 → (UInt8.ofFin b).IsUTF8FirstByte := by decide +kernel
  obtain ⟨i, hi, hget⟩ := List.getElem_of_mem hmem
  have hi' : i < (String.utf8EncodeChar c).length := by simpa [encodeRune] using hi
  have hbyte : (String.utf8EncodeChar c)[i] = UInt8.ofFin b := by
    rw [← hget]
    simp [encodeRune]
  -- so it is the first byte
  obtain rfl : i = 0 := UInt8.isUTF8FirstByte_getElem_utf8EncodeChar.1 (hbyte ▸ hfirst b hb)
  obtain ⟨rest, hrest⟩ : ∃ rest, encodeRune c = b :: rest := by
    obtain ⟨x, rest, hcons⟩ := List.exists_cons_of_ne_nil (encodeRune_ne_nil c)
    simp only [hcons, List.getElem_cons_zero] at hget
    exact ⟨rest, hget ▸ hcons⟩
  -- and the rune there is the one with this byte alone
  have hrune : Rune.char c = Rune.char (Char.ofNat b.val) := by
    have hself := runes_encodeRune_append c []
    have hascii := runes_encodeRune_append (Char.ofNat b.val) rest
    rw [List.append_nil, hrest] at hself
    rw [encodeRune_ascii hb, List.singleton_append, hself] at hascii
    exact (List.cons.inj hascii).1
  rw [Rune.char.inj hrune, encodeRune_ascii hb]

/-- a valid string can be cut at an ASCII byte -/
theorem ValidUTF8.cut {s t : Bytes} {b : Byte} (hb : b.val < 128) (h : ValidUTF8 (s ++ b :: t)) :
    ValidUTF8 s ∧ ValidUTF8 t := by
  obtain ⟨cs, hcs⟩ := validUTF8_iff.1 h
  clear h
  induction cs generalizing s with
  | nil => simp at hcs
  | cons c cs ih =>
    rw [List.flatMap_cons] at hcs
    rcases List.append_eq_append_iff.1 hcs with ⟨u, hc, hu⟩ | ⟨u, hs, hu⟩
    · cases u with
      | nil =>
        -- the first character is all of `s`
        have hs : s = encodeRune c := by rw [hc, List.append_nil]
        obtain ⟨-, ht⟩ := ih (s := []) hu
        exact ⟨hs ▸ validUTF8_encodeRune c, ht⟩
      | cons x u =>
        obtain ⟨rfl, ht⟩ := List.cons.inj hu
        have hsingle := encodeRune_of_ascii_mem (c := c) (b := b) (by rw [hc]; simp) hb
        rw [hsingle] at hc
        obtain ⟨rfl, rfl⟩ : s = [] ∧ u = [] := by
          have hlen := congrArg List.length hc
          simp only [List.length_append, List.length_cons, List.length_nil] at hlen
          exact ⟨List.length_eq_zero_iff.1 (by omega), List.length_eq_zero_iff.1 (by omega)⟩
        exact ⟨⟨[], rfl⟩, validUTF8_iff.2 ⟨cs, ht⟩⟩
    · obtain ⟨hs', ht⟩ := ih hu.symm
      exact ⟨hs ▸ (validUTF8_encodeRune c).append hs', ht⟩

theorem ascii_eq_flatMap {cs : List Char} (hcs : ∀ c ∈ cs, c.toNat < 128) : ascii cs = cs.flatMap encodeRune := by
  have hone : ∀ c ∈ cs, encodeRune c = [byte c] := by
    intro c hc
    have hbyte : (byte c).val = c.toNat := Nat.mod_eq_of_lt ((hcs c hc).trans (by decide))
    have hrune := encodeRune_ascii (b := byte c) (by rw [hbyte]; exact hcs c hc)
    rwa [hbyte, Char.ofNat_toNat] at hrune
  rw [List.flatMap_congr hone, ascii, List.map_eq_flatMap]

theorem validUTF8_ascii {cs : List Char} (hcs : ∀ c ∈ cs, c.toNat < 128) : ValidUTF8 (ascii cs) :=
  validUTF8_iff.2 ⟨cs, ascii_eq_flatMap hcs⟩

/-- the same for a list that is given -/
theorem validUTF8_ascii_all {cs : List Char} (hcs : cs.all fun c => c.toNat < 128) : ValidUTF8 (ascii cs) :=
  validUTF8_ascii fun c hc => of_decide_eq_true (List.all_eq_true.1 hcs c hc)

/-! ## Coercion -/

/-- what comes back of a string that was written as JSON -/
def coerced (s : Bytes) : Bytes := (runes s).flatMap fun r => encodeRune r.value

theorem validUTF8_coerced (s : Bytes) : ValidUTF8 (coerced s) := validUTF8_flatMap fun _ _ => validUTF8_encodeRune _

theorem coerced_of_valid {s : Bytes} (hs : ValidUTF8 s) : coerced s = s := by
  obtain ⟨cs, rfl⟩ := validUTF8_iff.1 hs
  rw [coerced, runes_flatMap_encodeRune, List.flatMap_map]
  rfl

/-! ## Texts -/

/-- the bytes of a text -/
def utf8 (t : String) : Bytes := t.toList.flatMap encodeRune

/-- the text of a string, with U+FFFD for what is none -/
def text (s : Bytes) : String := String.ofList ((runes s).map Rune.value)

theorem utf8_text (s : Bytes) : utf8 (text s) = coerced s := by
  rw [utf8, text, String.toList_ofList, List.flatMap_map, coerced]

theorem text_utf8 (t : String) : text (utf8 t) = t := by
  rw [utf8, text, runes_flatMap_encodeRune, List.map_map]
  exact (congrArg String.ofList (List.map_id _)).trans String.ofList_toList

theorem text_ascii {cs : List Char} (hcs : ∀ c ∈ cs, c.toNat < 128) : text (ascii cs) = String.ofList cs := by
  have hutf8 : ascii cs = utf8 (String.ofList cs) := by rw [utf8, String.toList_ofList, ascii_eq_flatMap hcs]
  rw [hutf8, text_utf8]

/-- valid strings with the same text are the same -/
theorem text_inj {s t : Bytes} (hs : ValidUTF8 s) (ht : ValidUTF8 t) (h : text s = text t) : s = t := by
  rw [← coerced_of_valid hs, ← utf8_text, h, utf8_text, coerced_of_valid ht]

end CS240.Lib
