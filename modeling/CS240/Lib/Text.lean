/-
Texts that are put together from parts, and how the parts are read back.

- `append_cons_inj_of_notMem_left`, `append_cons_inj_of_notMem_right`: a text is cut at the first or the last separator,
  if the part before it or after it has none.
- `itoa_injective`, `toString_injective`, `itoa_digit`, `isDigit_of_mem_toString`: decimal numbers as parts, in bytes
  and in characters.
- `atoi`: what is read as a number, also where it is none.
-/
import CS240.Lib.Utf8

namespace CS240.Lib

/-! ## Parts -/

section Parts

variable {α : Type} {u v d e : List α} {c : α}

/-- neither of the first parts has the separator `c` in it -/
theorem append_cons_inj_of_notMem_left (hu : c ∉ u) (hv : c ∉ v) (h : u ++ c :: d = v ++ c :: e) : u = v ∧ d = e := by
  rcases List.append_eq_append_iff.1 h with ⟨w, rfl, hw⟩ | ⟨w, rfl, hw⟩
  · cases w with
    | nil => exact ⟨(List.append_nil _).symm, (List.cons.inj hw).2⟩
    | cons x w =>
      obtain rfl := (List.cons.inj hw).1
      exact absurd (by simp) hv
  · cases w with
    | nil => exact ⟨List.append_nil _, (List.cons.inj hw).2.symm⟩
    | cons x w =>
      obtain rfl := (List.cons.inj hw).1
      exact absurd (by simp) hu

/-- neither of the last parts has it -/
theorem append_cons_inj_of_notMem_right (hd : c ∉ d) (he : c ∉ e) (h : u ++ c :: d = v ++ c :: e) : u = v ∧ d = e := by
  have hreverse : d.reverse ++ c :: u.reverse = e.reverse ++ c :: v.reverse := by
    simpa using congrArg List.reverse h
  obtain ⟨hde, huv⟩ := append_cons_inj_of_notMem_left (by simpa using hd) (by simpa using he) hreverse
  exact ⟨List.reverse_injective huv, List.reverse_injective hde⟩

end Parts

/-! ## Numbers -/

theorem toDigits_injective : Function.Injective (Nat.toDigits 10) := by
  intro m n hmn
  calc m = Nat.ofDigitChars 10 (Nat.toDigits 10 m) 0 := Nat.ofDigitChars_ten_toDigits.symm
    _ = Nat.ofDigitChars 10 (Nat.toDigits 10 n) 0 := by rw [hmn]
    _ = n := Nat.ofDigitChars_ten_toDigits

theorem toList_toString (n : ℕ) : (toString n).toList = Nat.toDigits 10 n := Nat.toList_repr

theorem toString_injective : Function.Injective (toString : ℕ → String) := by
  intro m n hmn
  refine toDigits_injective ?_
  rw [← toList_toString, hmn, toList_toString]

/-- `strconv.Itoa` -/
def itoa (n : ℕ) : Bytes := ascii (Nat.toDigits 10 n)

theorem toNat_digit {n : ℕ} {c : Char} (hc : c ∈ Nat.toDigits 10 n) : 48 ≤ c.toNat ∧ c.toNat ≤ 57 := by
  have hdigit := Nat.isDigit_of_mem_toDigits (by decide) (by decide) hc
  simp only [Char.isDigit, Bool.and_eq_true, decide_eq_true_eq, ge_iff_le, UInt32.le_iff_toNat_le] at hdigit
  exact hdigit

theorem byte_digit {n : ℕ} {c : Char} (hc : c ∈ Nat.toDigits 10 n) : (byte c).val = c.toNat := by
  have hdigit := toNat_digit hc
  exact Nat.mod_eq_of_lt (by omega)

theorem itoa_digit {n : ℕ} {b : Byte} (hb : b ∈ itoa n) : 48 ≤ b.val ∧ b.val ≤ 57 := by
  obtain ⟨c, hc, rfl⟩ := List.mem_map.1 hb
  rw [byte_digit hc]
  exact toNat_digit hc

theorem itoa_injective : Function.Injective itoa := by
  intro m n h
  -- digits can be read back from their bytes
  have hback : ∀ k, (itoa k).map (fun b => Char.ofNat b.val) = Nat.toDigits 10 k := by
    intro k
    have hid : ∀ c ∈ Nat.toDigits 10 k, Char.ofNat (byte c).val = c := by
      intro c hc
      rw [byte_digit hc, Char.ofNat_toNat]
    rw [itoa, ascii, List.map_map]
    exact (List.map_congr_left hid).trans (List.map_id' _)
  exact toDigits_injective (by rw [← hback m, h, hback n])

/-- no dash in a number -/
theorem dash_notMem_itoa (n : ℕ) : byte '-' ∉ itoa n := by
  intro h
  exact absurd (itoa_digit h).1 (by decide)

theorem toNat_lt_of_digit {n : ℕ} : ∀ c ∈ Nat.toDigits 10 n, c.toNat < 128 :=
  fun _ hc => (toNat_digit hc).2.trans_lt (by decide)

theorem validUTF8_itoa (n : ℕ) : ValidUTF8 (itoa n) := validUTF8_ascii toNat_lt_of_digit

theorem text_itoa (n : ℕ) : text (itoa n) = toString n := by
  rw [itoa, text_ascii toNat_lt_of_digit, ← toList_toString, String.ofList_toList]

/-- `strconv.Itoa` of any integer -/
def itoaInt (z : ℤ) : Bytes := if z < 0 then byte '-' :: itoa z.natAbs else itoa z.natAbs

theorem validUTF8_itoaInt (z : ℤ) : ValidUTF8 (itoaInt z) := by
  have hminus : ValidUTF8 (ascii ['-']) := validUTF8_ascii_all rfl
  unfold itoaInt
  split_ifs
  · exact hminus.append (validUTF8_itoa _)
  · exact validUTF8_itoa _

/-- the loop of `strconv.ParseUint`: `none` is a syntax error, the largest number stands for all that are out of range
-/
def parseUint : ℕ → Bytes → Option ℕ
  | n, [] => some n
  | n, b :: s =>
    if 48 ≤ b.val ∧ b.val ≤ 57 then
      if 10 * n + (b.val - 48) < 2 ^ 64 then parseUint (10 * n + (b.val - 48)) s else some (2 ^ 64 - 1)
    else none

/-- the number that `strconv.Atoi` returns, also along with an error -/
def atoi (s : Bytes) : ℤ :=
  let digits := if s.head? = some (byte '-') ∨ s.head? = some (byte '+') then s.tail else s
  match if digits = [] then none else parseUint 0 digits with
  | none => 0
  | some n =>
    if s.head? = some (byte '-') then if n > 2 ^ 63 then -2 ^ 63 else -n
    else if n ≥ 2 ^ 63 then 2 ^ 63 - 1 else n

end CS240.Lib
