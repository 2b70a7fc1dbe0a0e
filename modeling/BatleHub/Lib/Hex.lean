import Mathlib.Data.List.Basic
import Mathlib.Data.Nat.Notation

/-!
Bytes as hexadecimal digits, two for each byte. Small letters are written, both cases
are read, and what is written is read back.
-/
namespace BatleHub.Lib.Hex

def digitOf (n : ℕ) : Char := if n < 10 then Char.ofNat (48 + n) else Char.ofNat (87 + n)

def valueOf (c : Char) : Option ℕ :=
  if 48 ≤ c.toNat ∧ c.toNat ≤ 57 then some (c.toNat - 48)
  else if 97 ≤ c.toNat ∧ c.toNat ≤ 102 then some (c.toNat - 87)
  else if 65 ≤ c.toNat ∧ c.toNat ≤ 70 then some (c.toNat - 55)
  else none

def encode : List UInt8 → List Char
  | [] => []
  | b :: rest => digitOf (b.toNat / 16) :: digitOf (b.toNat % 16) :: encode rest

def decode : List Char → Option (List UInt8)
  | [] => some []
  | [_] => none
  | c :: d :: rest => do
    let u ← valueOf c
    let v ← valueOf d
    let bytes ← decode rest
    some (UInt8.ofNat (u * 16 + v) :: bytes)

theorem valueOf_digitOf {n : ℕ} (h : n < 16) : valueOf (digitOf n) = some n := by
  have hall : ∀ m : Fin 16, valueOf (digitOf m) = some m.val := by decide
  exact hall ⟨n, h⟩

theorem decode_encode (bytes : List UInt8) : decode (encode bytes) = some bytes := by
  induction bytes with
  | nil => rfl
  | cons b rest ih =>
    have hb := b.toNat_lt
    have hhigh : valueOf (digitOf (b.toNat / 16)) = some (b.toNat / 16) :=
      valueOf_digitOf (by omega)
    have hlow : valueOf (digitOf (b.toNat % 16)) = some (b.toNat % 16) :=
      valueOf_digitOf (by omega)
    have hbyte : b.toNat / 16 * 16 + b.toNat % 16 = b.toNat := by omega
    rw [encode, decode, hhigh, hlow, ih]
    show some (UInt8.ofNat (b.toNat / 16 * 16 + b.toNat % 16) :: rest) = some (b :: rest)
    rw [hbyte, UInt8.ofNat_toNat]

theorem length_encode (bytes : List UInt8) : (encode bytes).length = 2 * bytes.length := by
  induction bytes with
  | nil => rfl
  | cons b rest ih =>
    rw [encode, List.length_cons, List.length_cons, List.length_cons, ih]
    omega

/-- What is true of the sixteen digits is true of all that is written. -/
theorem forall_mem_encode {p : Char → Prop} (h : ∀ m : Fin 16, p (digitOf m))
    (bytes : List UInt8) : ∀ c ∈ encode bytes, p c := by
  induction bytes with
  | nil => simp [encode]
  | cons b rest ih =>
    have hb := b.toNat_lt
    intro c hc
    rw [encode, List.mem_cons, List.mem_cons] at hc
    rcases hc with rfl | rfl | hrest
    · exact h ⟨b.toNat / 16, by omega⟩
    · exact h ⟨b.toNat % 16, by omega⟩
    · exact ih c hrest

end BatleHub.Lib.Hex
