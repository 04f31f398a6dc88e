import Mathlib.Algebra.BigOperators.Group.List.Basic
import Mathlib.Tactic.Linarith

/-!
# Sums of signed 64-bit integers

Adding up 64-bit integers wraps modulo `2 ^ 64`. `wrapSum` is the accumulator a loop ends with
and `exactSum` the sum over the unbounded integers; `toInt_wrapSum` relates them. How far apart
they are is counted by `wraps`, the number of times (with sign) the accumulator went round: an
inequality between two wrapped sums says the same of the exact sums precisely when the smaller
side did not wrap more often than the larger one (`le_iff_wraps_le`).
-/

namespace WrapSum

/-- The accumulator after adding the values up from zero. -/
def wrapSum (xs : List Int64) : Int64 :=
  xs.foldl (· + ·) 0

/-- The sum over the unbounded integers. -/
def exactSum (xs : List Int64) : ℤ :=
  (xs.map Int64.toInt).sum

/-- How often, counted with sign, a 64-bit accumulator holding `n` has gone round. -/
def wraps (n : ℤ) : ℤ :=
  (n + 2 ^ 63) / 2 ^ 64

@[simp] theorem exactSum_nil : exactSum [] = 0 := rfl

@[simp] theorem exactSum_cons (x : Int64) (xs : List Int64) :
    exactSum (x :: xs) = x.toInt + exactSum xs := by
  simp [exactSum]

@[simp] theorem exactSum_append (xs ys : List Int64) :
    exactSum (xs ++ ys) = exactSum xs + exactSum ys := by
  simp [exactSum]

/-- A loop that starts from `a` ends with `a` plus the exact sum, reduced to 64 bits. -/
theorem toInt_foldl_add (xs : List Int64) (a : Int64) :
    (xs.foldl (· + ·) a).toInt = (a.toInt + exactSum xs).bmod (2 ^ 64) := by
  induction xs generalizing a with
  | nil => simp
  | cons x xs ih =>
    rw [List.foldl_cons, ih, Int64.toInt_add, exactSum_cons, Int.bmod_add_bmod, add_assoc]

theorem toInt_wrapSum (xs : List Int64) : (wrapSum xs).toInt = (exactSum xs).bmod (2 ^ 64) := by
  rw [wrapSum, toInt_foldl_add]
  simp

/-- A loop that starts from `a` adds the sum to it. -/
theorem foldl_add_eq (xs : List Int64) (a : Int64) : xs.foldl (· + ·) a = a + wrapSum xs := by
  rw [← Int64.toInt_inj, toInt_foldl_add, Int64.toInt_add, toInt_wrapSum, Int.add_bmod_bmod]

theorem wrapSum_cons (x : Int64) (xs : List Int64) : wrapSum (x :: xs) = x + wrapSum xs := by
  rw [wrapSum, List.foldl_cons, foldl_add_eq, Int64.zero_add]

theorem wrapSum_append (xs ys : List Int64) : wrapSum (xs ++ ys) = wrapSum xs + wrapSum ys := by
  rw [wrapSum, List.foldl_append, foldl_add_eq, ← wrapSum]

/-- A sum can be taken in two parts. -/
theorem wrapSum_filter_add_filter_not {α : Type*} (f : α → Int64) (p : α → Bool) (xs : List α) :
    wrapSum ((xs.filter p).map f) + wrapSum ((xs.filter fun x ↦ !p x).map f) =
      wrapSum (xs.map f) := by
  induction xs with
  | nil => rfl
  | cons x xs ih =>
    rw [List.map_cons, wrapSum_cons, ← ih]
    cases hp : p x with
    | true => simp [hp, wrapSum_cons, Int64.add_assoc]
    | false =>
      simp only [List.filter_cons, hp, Bool.not_false, Bool.false_eq_true, if_false, if_true,
        List.map_cons, wrapSum_cons]
      rw [← Int64.add_assoc, Int64.add_comm _ (f x), Int64.add_assoc]

/-- A number in the 64-bit range is its own reduction. -/
theorem bmod_eq_self {n : ℤ} (hlo : -(2 ^ 63) ≤ n) (hhi : n < 2 ^ 63) : n.bmod (2 ^ 64) = n :=
  Int.bmod_eq_of_le (by norm_num at *; omega) (by norm_num at *; omega)

/-- A sum in the 64-bit range is exact. -/
theorem toInt_wrapSum_of_bounds {xs : List Int64} (hlo : -(2 ^ 63) ≤ exactSum xs)
    (hhi : exactSum xs < 2 ^ 63) : (wrapSum xs).toInt = exactSum xs := by
  rw [toInt_wrapSum, bmod_eq_self hlo hhi]

/-- An addition in the 64-bit range is exact. -/
theorem toInt_add_of_bounds {x y : Int64} (hlo : -(2 ^ 63) ≤ x.toInt + y.toInt)
    (hhi : x.toInt + y.toInt < 2 ^ 63) : (x + y).toInt = x.toInt + y.toInt := by
  rw [Int64.toInt_add, bmod_eq_self hlo hhi]

/-- Taking away less than there is is exact. -/
theorem toInt_sub_of_le {x y : Int64} (hy : 0 ≤ y.toInt) (hle : y.toInt ≤ x.toInt) :
    (x - y).toInt = x.toInt - y.toInt := by
  have hhi := x.toInt_lt
  rw [Int64.toInt_sub, bmod_eq_self (by omega) (by omega)]

/-- Adding one goes up, except at the largest value. -/
theorem lt_add_one {x : Int64} (hne : x ≠ Int64.maxValue) : x < x + 1 := by
  have hx : x.toInt ≠ 2 ^ 63 - 1 := fun h ↦ hne (Int64.toInt_inj.1 h)
  have hlo := x.le_toInt
  have hhi := x.toInt_lt
  have hone : (1 : Int64).toInt = 1 := rfl
  rw [Int64.lt_iff_toInt_lt, toInt_add_of_bounds (by omega) (by omega)]
  omega

/-- A number is its reduction plus one modulus for each time round. -/
theorem eq_bmod_add_wraps (n : ℤ) : n = n.bmod (2 ^ 64) + 2 ^ 64 * wraps n := by
  simp only [wraps, Int.bmod]
  norm_num
  split <;> omega

/-- **When a comparison of wrapped sums is a comparison of exact sums.** -/
theorem le_iff_wraps_le {m n : ℤ} (h : m.bmod (2 ^ 64) ≤ n.bmod (2 ^ 64)) :
    m ≤ n ↔ wraps m ≤ wraps n := by
  have hm := eq_bmod_add_wraps m
  have hn := eq_bmod_add_wraps n
  have hm₁ : -(2 ^ 63) ≤ m.bmod (2 ^ 64) := by
    have := Int.le_bmod (x := m) (m := 2 ^ 64) (by norm_num)
    norm_num at this ⊢
    exact this
  have hn₂ : n.bmod (2 ^ 64) < 2 ^ 63 := by
    have := Int.bmod_lt (x := n) (m := 2 ^ 64) (by norm_num)
    norm_num at this ⊢
    exact this
  norm_num at hm hn hm₁ hn₂ h
  constructor
  · intro hmn
    by_contra hlt
    omega
  · intro hle
    omega

theorem wraps_nonpos {n : ℤ} (hhi : n < 2 ^ 63) : wraps n ≤ 0 := by
  simp only [wraps]
  norm_num at *
  omega

theorem wraps_nonneg {n : ℤ} (hlo : -(2 ^ 63) ≤ n) : 0 ≤ wraps n := by
  simp only [wraps]
  norm_num at *
  omega

end WrapSum
