import Mathlib.Data.Nat.Digits.Lemmas

/-!
# Numerals in two bases

A numeral is a list of digits, most significant first. Its value forgets how many zeros it starts
with, and `numeral b n` is the numeral of `n` without any. A numeral is therefore known from its
leading zeros and its value (`replicate_append_numeral`), which is what makes a change of base that
carries the leading zeros over undo itself (`convert_convert`).

Where a digit may be negative (`signedValue`), only zero has one numeral, up to its length
(`signedValue_eq_zero_iff`): every other number can be written with a negative digit in front
(`exists_signedValue_eq_neg`).
-/

namespace Radix

variable {b c n : ℕ} {ds : List ℕ}

/-- The value of a numeral. -/
def value (b : ℕ) (ds : List ℕ) : ℕ :=
  ds.foldl (fun n d ↦ b * n + d) 0

/-- The numeral of a number, without leading zeros; that of zero is empty. -/
def numeral (b n : ℕ) : List ℕ :=
  (Nat.digits b n).reverse

/-- How many zeros a numeral starts with. -/
def zeros (ds : List ℕ) : ℕ :=
  (ds.takeWhile (· == 0)).length

/-- Change the base, keeping as many leading zeros. -/
def convert (b c : ℕ) (ds : List ℕ) : List ℕ :=
  List.replicate (zeros ds) 0 ++ numeral c (value b ds)

theorem value_eq_ofDigits (b : ℕ) (ds : List ℕ) : value b ds = Nat.ofDigits b ds.reverse := by
  rw [value, ← List.foldr_reverse]
  induction ds.reverse with
  | nil => rfl
  | cons d ds ih => rw [List.foldr_cons, ih, Nat.ofDigits_cons, Nat.add_comm]

@[simp] theorem value_numeral (b n : ℕ) : value b (numeral b n) = n := by
  rw [value_eq_ofDigits, numeral, List.reverse_reverse, Nat.ofDigits_digits]

theorem value_replicate_append (b k : ℕ) (ds : List ℕ) :
    value b (List.replicate k 0 ++ ds) = value b ds := by
  induction k with
  | zero => rfl
  | succ k ih =>
    rw [List.replicate_succ, List.cons_append, value, List.foldl_cons]
    exact ih

/-- A numeral that is not empty starts with a digit other than zero. -/
theorem head?_numeral_ne (b n : ℕ) : (numeral b n).head? ≠ some 0 := by
  rcases eq_or_ne n 0 with rfl | hn
  · simp [numeral]
  · have hne : Nat.digits b n ≠ [] := Nat.digits_ne_nil_iff_ne_zero.2 hn
    rw [numeral, List.head?_reverse, List.getLast?_eq_some_getLast hne]
    intro hzero
    exact Nat.getLast_digit_ne_zero b hn (Option.some.inj hzero)

theorem zeros_eq_zero_of_head? (h : ds.head? ≠ some 0) : zeros ds = 0 := by
  rcases ds with _ | ⟨d, ds⟩
  · rfl
  · have hd : d ≠ 0 := fun hd ↦ h (by rw [hd, List.head?_cons])
    rw [zeros, List.takeWhile_cons_of_neg (by simpa using hd), List.length_nil]

theorem zeros_replicate_append {k : ℕ} (h : ds.head? ≠ some 0) :
    zeros (List.replicate k 0 ++ ds) = k := by
  induction k with
  | zero => exact zeros_eq_zero_of_head? h
  | succ k ih =>
    rw [List.replicate_succ, List.cons_append, zeros, List.takeWhile_cons_of_pos (by simp),
      List.length_cons]
    exact congrArg (· + 1) ih

theorem exists_eq_replicate_append (ds : List ℕ) :
    ∃ (k : ℕ) (rest : List ℕ), ds = List.replicate k 0 ++ rest ∧ rest.head? ≠ some 0 := by
  induction ds with
  | nil => exact ⟨0, [], rfl, by simp⟩
  | cons d ds ih =>
    rcases eq_or_ne d 0 with rfl | hd
    · obtain ⟨k, rest, rfl, hhead⟩ := ih
      exact ⟨k + 1, rest, rfl, hhead⟩
    · exact ⟨0, d :: ds, rfl, by simpa using hd⟩

/-- The digits of a numeral without leading zeros are those of its value. -/
theorem numeral_value (hb : 1 < b) (hds : ∀ d ∈ ds, d < b) (hhead : ds.head? ≠ some 0) :
    numeral b (value b ds) = ds := by
  rw [value_eq_ofDigits, numeral, Nat.digits_ofDigits b hb, List.reverse_reverse]
  · intro d hd
    exact hds d (List.mem_reverse.1 hd)
  · intro hne hzero
    refine hhead ?_
    rw [← List.getLast?_reverse, List.getLast?_eq_some_getLast hne, hzero]

/-- **A numeral is known from its leading zeros and its value.** -/
theorem replicate_append_numeral (hb : 1 < b) (hds : ∀ d ∈ ds, d < b) :
    List.replicate (zeros ds) 0 ++ numeral b (value b ds) = ds := by
  obtain ⟨k, rest, rfl, hhead⟩ := exists_eq_replicate_append ds
  have hlt : ∀ d ∈ rest, d < b := fun d hd ↦ hds d (List.mem_append_right _ hd)
  rw [zeros_replicate_append hhead, value_replicate_append, numeral_value hb hlt hhead]

theorem numeral_lt (hb : 1 < b) {d : ℕ} (hd : d ∈ numeral b n) : d < b :=
  Nat.digits_lt_base hb (List.mem_reverse.1 hd)

theorem convert_lt (hc : 1 < c) {d : ℕ} (hd : d ∈ convert b c ds) : d < c := by
  rcases List.mem_append.1 hd with hd | hd
  · rw [List.eq_of_mem_replicate hd]
    exact Nat.zero_lt_of_lt hc
  · exact numeral_lt hc hd

/-- **Changing the base and back gives the numeral back.** -/
theorem convert_convert (hb : 1 < b) (hds : ∀ d ∈ ds, d < b) :
    convert c b (convert b c ds) = ds := by
  have hzeros : zeros (convert b c ds) = zeros ds :=
    zeros_replicate_append (head?_numeral_ne c _)
  have hvalue : value c (convert b c ds) = value b ds := by
    rw [convert, value_replicate_append, value_numeral]
  rw [convert, hzeros, hvalue, replicate_append_numeral hb hds]

/-! ### Digits that may be negative -/

/-- The value of a numeral whose digits may be negative. -/
def signedValue (b : ℕ) (ds : List ℤ) : ℤ :=
  ds.foldl (fun n d ↦ n * b + d) 0

theorem signedValue_append_singleton (b : ℕ) (ds : List ℤ) (d : ℤ) :
    signedValue b (ds ++ [d]) = signedValue b ds * b + d := by
  rw [signedValue, List.foldl_append]
  rfl

theorem signedValue_cons (b : ℕ) (d : ℤ) (ds : List ℤ) :
    signedValue b (d :: ds) = d * b ^ ds.length + signedValue b ds := by
  induction ds using List.reverseRecOn with
  | nil => simp [signedValue]
  | append_singleton ds d' ih =>
    rw [← List.cons_append, signedValue_append_singleton, signedValue_append_singleton, ih,
      List.length_append, List.length_singleton, pow_succ]
    ring

theorem signedValue_replicate_append (b k : ℕ) (ds : List ℤ) :
    signedValue b (List.replicate k 0 ++ ds) = signedValue b ds := by
  induction k with
  | zero => rfl
  | succ k ih =>
    rw [List.replicate_succ, List.cons_append, signedValue_cons, zero_mul, zero_add, ih]

/-- Digits that are not negative have the value of a numeral. -/
theorem signedValue_natCast (b : ℕ) (ds : List ℕ) :
    signedValue b (ds.map fun d : ℕ ↦ (d : ℤ)) = value b ds := by
  induction ds using List.reverseRecOn with
  | nil => rfl
  | append_singleton ds d ih =>
    have hvalue : value b (ds ++ [d]) = b * value b ds + d := by
      rw [value, List.foldl_append]
      rfl
    rw [List.map_append, List.map_singleton, signedValue_append_singleton, ih, hvalue]
    push_cast
    ring

/-- **Zero is written with zeros only.** -/
theorem signedValue_eq_zero_iff {ds : List ℤ} (hds : ∀ d ∈ ds, d.natAbs < b) :
    signedValue b ds = 0 ↔ ∀ d ∈ ds, d = 0 := by
  induction ds using List.reverseRecOn with
  | nil => simp [signedValue]
  | append_singleton ds d ih =>
    have hd : d.natAbs < (b : ℤ).natAbs := hds d (by simp)
    have hrest := ih fun d' hd' ↦ hds d' (List.mem_append_left _ hd')
    rw [signedValue_append_singleton]
    constructor
    · intro hzero
      -- the last digit is a multiple of the base, and smaller
      have hdvd : (b : ℤ) ∣ d := ⟨-signedValue b ds, by linarith⟩
      obtain rfl : d = 0 := Int.eq_zero_of_dvd_of_natAbs_lt_natAbs hdvd hd
      have hb : (b : ℤ) ≠ 0 := by
        intro hb
        simp [hb] at hd
      have hvalue : signedValue b ds = 0 := by
        rw [add_zero] at hzero
        exact (mul_eq_zero.1 hzero).resolve_right hb
      intro d hd
      rcases List.mem_append.1 hd with hd | hd
      · exact hrest.1 hvalue d hd
      · exact List.mem_singleton.1 hd
    · intro hall
      rw [hrest.2 fun d' hd' ↦ hall d' (List.mem_append_left _ hd'), hall d (by simp),
        zero_mul, add_zero]

/-- A number that is small enough has a numeral of a given length. -/
theorem exists_value_eq (hb : 1 < b) {k : ℕ} (hn : n < b ^ k) :
    ∃ ds : List ℕ, ds.length = k ∧ (∀ d ∈ ds, d < b) ∧ value b ds = n := by
  have hlen : (numeral b n).length ≤ k := by
    rw [numeral, List.length_reverse]
    exact (Nat.digits_length_le_iff hb n).2 hn
  refine ⟨List.replicate (k - (numeral b n).length) 0 ++ numeral b n, ?_, fun d hd ↦ ?_, ?_⟩
  · rw [List.length_append, List.length_replicate]
    omega
  · rcases List.mem_append.1 hd with hd | hd
    · rw [List.eq_of_mem_replicate hd]
      exact Nat.zero_lt_of_lt hb
    · exact numeral_lt hb hd
  · rw [value_replicate_append, value_numeral]

/-- **Every number but zero has a numeral with a negative digit**: its complement to a power of the
base, after a digit of minus one. -/
theorem exists_signedValue_eq_neg (hb : 1 < b) (hn : 0 < n) :
    ∃ ds : List ℕ, (∀ d ∈ ds, d < b) ∧ signedValue b (-1 :: ds.map fun d : ℕ ↦ (d : ℤ)) = -n := by
  have hlt : n < b ^ n := Nat.lt_pow_self hb
  obtain ⟨ds, hlen, hds, hvalue⟩ := @exists_value_eq b (b ^ n - n) hb n (by omega)
  refine ⟨ds, hds, ?_⟩
  rw [signedValue_cons, signedValue_natCast, hvalue, List.length_map, hlen, Nat.cast_sub hlt.le]
  push_cast
  ring

end Radix
