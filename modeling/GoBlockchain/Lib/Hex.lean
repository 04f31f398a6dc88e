import Mathlib.Tactic.Common

/-!
# Hexadecimal text of a byte string

Byte strings are lists of bytes, and text is a byte string as well. `encode` writes two
lower-case digits a byte; `decode` also reads upper-case digits and refuses an odd number of
digits or a byte that is no digit. `decode_encode` is the round trip, and with it `encode` is
injective, which is what makes the text usable as a key.
-/

namespace Hex

/-- The lower-case digit of a number below sixteen. -/
def digit (n : ℕ) : UInt8 :=
  if n < 10 then UInt8.ofNat (48 + n) else UInt8.ofNat (87 + n)

/-- The number a digit stands for, in either case. -/
def digitValue (c : UInt8) : Option ℕ :=
  if 48 ≤ c ∧ c ≤ 57 then some (c.toNat - 48)
  else if 97 ≤ c ∧ c ≤ 102 then some (c.toNat - 87)
  else if 65 ≤ c ∧ c ≤ 70 then some (c.toNat - 55)
  else none

/-- Two digits a byte, high half first. -/
def encode : List UInt8 → List UInt8
  | [] => []
  | b :: bs => digit (b.toNat / 16) :: digit (b.toNat % 16) :: encode bs

/-- Read pairs of digits; `none` on an odd length or a byte that is no digit. -/
def decode : List UInt8 → Option (List UInt8)
  | [] => some []
  | [_] => none
  | hi :: lo :: rest =>
    match digitValue hi, digitValue lo, decode rest with
    | some h, some l, some bs => some (UInt8.ofNat (16 * h + l) :: bs)
    | _, _, _ => none

theorem digitValue_digit {n : ℕ} (hn : n < 16) : digitValue (digit n) = some n := by
  have h : ∀ m < 16, digitValue (digit m) = some m := by decide
  exact h n hn

/-- **Round trip**: decoding the text of a byte string returns it. -/
@[simp] theorem decode_encode (bs : List UInt8) : decode (encode bs) = some bs := by
  induction bs with
  | nil => rfl
  | cons b bs ih =>
    have hb := b.toNat_lt
    have hhi : digitValue (digit (b.toNat / 16)) = some (b.toNat / 16) :=
      digitValue_digit (by omega)
    have hlo : digitValue (digit (b.toNat % 16)) = some (b.toNat % 16) :=
      digitValue_digit (by omega)
    have hval : 16 * (b.toNat / 16) + b.toNat % 16 = b.toNat := by omega
    rw [encode, decode, hhi, hlo, ih]
    simp only [hval, UInt8.ofNat_toNat]

theorem encode_injective : Function.Injective encode := by
  intro a b hab
  have h := congrArg decode hab
  simpa using h

@[simp] theorem encode_inj {a b : List UInt8} : encode a = encode b ↔ a = b :=
  encode_injective.eq_iff

end Hex
