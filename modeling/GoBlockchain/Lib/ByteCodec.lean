import Mathlib.Algebra.Group.Nat.Defs
import Mathlib.Tactic.Common

/-!
# Self-delimiting byte codecs

A `Codec α` writes values of `α` as byte strings that can be read back off the front of any
longer string. Self-delimitation is the field `dec_enc`, so codecs compose by concatenation and
the round trip of a record follows from the round trips of its fields: `pair`, `option`, `list`
build codecs from codecs and `retract` carries one along an encoding of one type in another.
-/

/-- An encoder together with a decoder that reads an encoding off the front of its input. -/
structure Codec (α : Type*) where
  /-- The encoding of a value. -/
  enc : α → List UInt8
  /-- Read a value off the front, returning what follows it. -/
  dec : List UInt8 → Option (α × List UInt8)
  /-- Reading undoes writing, whatever follows. -/
  dec_enc : ∀ a rest, dec (enc a ++ rest) = some (a, rest)

namespace Codec

variable {α β : Type*}

/-- Decode a whole string, refusing trailing bytes. -/
def decodeAll (A : Codec α) (bs : List UInt8) : Option α :=
  match A.dec bs with
  | some (a, []) => some a
  | _ => none

@[simp] theorem decodeAll_enc (A : Codec α) (a : α) : A.decodeAll (A.enc a) = some a := by
  have h := A.dec_enc a []
  rw [List.append_nil] at h
  rw [decodeAll, h]

theorem enc_injective (A : Codec α) : Function.Injective A.enc := by
  intro a b hab
  have h := congrArg A.decodeAll hab
  simpa using h

/-! ### Base codecs -/

/-- One byte, as itself. -/
def byte : Codec UInt8 where
  enc b := [b]
  dec
    | [] => none
    | b :: rest => some (b, rest)
  dec_enc _ _ := rfl

/-- A truth value as a byte. -/
def bool : Codec Bool where
  enc b := [if b then 1 else 0]
  dec
    | [] => none
    | b :: rest => some (b == 1, rest)
  dec_enc b rest := by cases b <;> rfl

/-- The big-endian bytes of a number below `2 ^ 64`. -/
def be64 (n : ℕ) : List UInt8 :=
  [UInt8.ofNat (n / 2 ^ 56), UInt8.ofNat (n / 2 ^ 48), UInt8.ofNat (n / 2 ^ 40),
    UInt8.ofNat (n / 2 ^ 32), UInt8.ofNat (n / 2 ^ 24), UInt8.ofNat (n / 2 ^ 16),
    UInt8.ofNat (n / 2 ^ 8), UInt8.ofNat n]

/-- A signed 64-bit integer as eight big-endian bytes. -/
def int64 : Codec Int64 where
  enc x := be64 x.toBitVec.toNat
  dec
    | b₇ :: b₆ :: b₅ :: b₄ :: b₃ :: b₂ :: b₁ :: b₀ :: rest =>
      some (.ofBitVec (.ofNat 64 (b₇.toNat * 2 ^ 56 + b₆.toNat * 2 ^ 48 + b₅.toNat * 2 ^ 40 +
        b₄.toNat * 2 ^ 32 + b₃.toNat * 2 ^ 24 + b₂.toNat * 2 ^ 16 + b₁.toNat * 2 ^ 8 +
        b₀.toNat)), rest)
    | _ => none
  dec_enc x rest := by
    have hx := x.toBitVec.isLt
    simp only [be64, List.cons_append, List.nil_append, Option.some.injEq, Prod.mk.injEq, and_true,
      UInt8.toNat_ofNat']
    rw [← Int64.toBitVec_inj, Int64.toBitVec_ofBitVec]
    apply BitVec.eq_of_toNat_eq
    rw [BitVec.toNat_ofNat]
    omega

/-! ### Combinators -/

/-- One value after the other. -/
def pair (A : Codec α) (B : Codec β) : Codec (α × β) where
  enc p := A.enc p.1 ++ B.enc p.2
  dec bs :=
    match A.dec bs with
    | none => none
    | some (a, rest) =>
      match B.dec rest with
      | none => none
      | some (b, rest') => some ((a, b), rest')
  dec_enc p rest := by
    rw [List.append_assoc, A.dec_enc]
    simp only [B.dec_enc]

/-- Carry a codec along an encoding `f` of `β` in `α` that `g` undoes. -/
def retract (A : Codec α) (f : β → α) (g : α → β) (hgf : ∀ b, g (f b) = b) : Codec β where
  enc b := A.enc (f b)
  dec bs := (A.dec bs).map fun p ↦ (g p.1, p.2)
  dec_enc b rest := by rw [A.dec_enc, Option.map_some, hgf]

/-- A flag, then the value if there is one. -/
def option (A : Codec α) : Codec (Option α) where
  enc
    | none => [0]
    | some a => 1 :: A.enc a
  dec
    | [] => none
    | b :: rest => if b = 1 then (A.dec rest).map fun p ↦ (some p.1, p.2) else some (none, rest)
  dec_enc o rest := by
    cases o with
    | none => rfl
    | some a => simp [A.dec_enc]

/-- The elements of a list, each announced by a `1`, ended by a `0`. -/
def encList (A : Codec α) : List α → List UInt8
  | [] => [0]
  | a :: as => 1 :: (A.enc a ++ encList A as)

/-- Read a list, with fuel for its length. -/
def decList (A : Codec α) : ℕ → List UInt8 → Option (List α × List UInt8)
  | 0, _ => none
  | _ + 1, [] => none
  | n + 1, b :: rest =>
    if b = 1 then
      match A.dec rest with
      | none => none
      | some (a, rest') =>
        match decList A n rest' with
        | none => none
        | some (as, rest'') => some (a :: as, rest'')
    else some ([], rest)

theorem decList_encList (A : Codec α) (as : List α) (rest : List UInt8) {n : ℕ}
    (hn : as.length < n) : decList A n (encList A as ++ rest) = some (as, rest) := by
  induction as generalizing n with
  | nil =>
    obtain ⟨n, rfl⟩ : ∃ m, n = m + 1 := ⟨n - 1, by omega⟩
    simp [encList, decList]
  | cons a as ih =>
    obtain ⟨n, rfl⟩ : ∃ m, n = m + 1 := ⟨n - 1, by omega⟩
    have hrec := ih (n := n) (by simpa using hn)
    simp [encList, decList, List.append_assoc, A.dec_enc, hrec]

theorem length_lt_length_encList (A : Codec α) (as : List α) :
    as.length < (encList A as).length := by
  induction as with
  | nil => simp [encList]
  | cons a as ih =>
    simp only [encList, List.length_cons, List.length_append]
    omega

/-- A list of values; the input itself bounds how many there can be. -/
def list (A : Codec α) : Codec (List α) where
  enc := encList A
  dec bs := decList A (bs.length + 1) bs
  dec_enc as rest := by
    refine decList_encList A as rest ?_
    have := length_lt_length_encList A as
    rw [List.length_append]
    omega

/-! ### Encodings cut short -/

/-- The decoder refuses an encoding that is cut short. -/
def RefusesCut (A : Codec α) : Prop :=
  ∀ a k, k < (A.enc a).length → A.dec ((A.enc a).take k) = none

variable {A : Codec α} {B : Codec β}

theorem RefusesCut.decodeAll_take (hA : A.RefusesCut) {a : α} {k : ℕ}
    (hk : k < (A.enc a).length) : A.decodeAll ((A.enc a).take k) = none := by
  rw [decodeAll, hA a k hk]

theorem refusesCut_byte : byte.RefusesCut := by
  intro b k hk
  obtain rfl : k = 0 := Nat.lt_one_iff.1 hk
  rfl

theorem RefusesCut.pair (hA : A.RefusesCut) (hB : B.RefusesCut) : (A.pair B).RefusesCut := by
  rintro ⟨a, b⟩ k hk
  have hk : k < (A.enc a ++ B.enc b).length := hk
  rw [List.length_append] at hk
  show (A.pair B).dec ((A.enc a ++ B.enc b).take k) = none
  rw [Codec.pair]
  rcases Nat.lt_or_ge k (A.enc a).length with hlt | hge
  · simp only [List.take_append_of_le_length (Nat.le_of_lt hlt), hA a k hlt]
  · simp only [List.take_append, List.take_of_length_le hge, A.dec_enc,
      hB b _ (Nat.sub_lt_left_of_lt_add hge hk)]

theorem RefusesCut.retract (hA : A.RefusesCut) (f : β → α) (g : α → β) (hgf : ∀ b, g (f b) = b) :
    (A.retract f g hgf).RefusesCut := by
  intro b k hk
  show (A.dec ((A.enc (f b)).take k)).map _ = none
  rw [hA _ _ hk]
  rfl

theorem RefusesCut.decList_take (hA : A.RefusesCut) {as : List α} {k : ℕ}
    (hk : k < (encList A as).length) (n : ℕ) : decList A n ((encList A as).take k) = none := by
  induction as generalizing k n with
  | nil =>
    obtain rfl : k = 0 := Nat.lt_one_iff.1 hk
    cases n <;> rfl
  | cons a as ih =>
    rcases n with _ | n
    · rfl
    rcases k with _ | k
    · rfl
    rw [encList, List.length_cons, List.length_append] at hk
    rw [encList, List.take_succ_cons, decList, if_pos rfl]
    rcases Nat.lt_or_ge k (A.enc a).length with hlt | hge
    · simp only [List.take_append_of_le_length (Nat.le_of_lt hlt), hA a k hlt]
    · have hrest : k - (A.enc a).length < (encList A as).length := by omega
      simp only [List.take_append, List.take_of_length_le hge, A.dec_enc, ih hrest]

theorem RefusesCut.list (hA : A.RefusesCut) : (list A).RefusesCut :=
  fun _ _ hk ↦ hA.decList_take hk _

end Codec
