import Mathlib.Data.List.Basic
import Mathlib.Data.Nat.Notation

/-!
Base64 with the URL alphabet and no padding. Three bytes are written as four
characters; a group of one or two bytes at the end is written as two or three, whose
unused low bits must be zero to be read. What is written is read back.
-/
namespace BatleHub.Lib.Base64

/-- `A-Z`, `a-z`, `0-9`, `-` and `_`, in this order. -/
def charOf (n : ℕ) : Char :=
  if n < 26 then Char.ofNat (65 + n)
  else if n < 52 then Char.ofNat (71 + n)
  else if n < 62 then Char.ofNat (n - 4)
  else if n = 62 then '-'
  else '_'

def valueOf (c : Char) : Option ℕ :=
  if 65 ≤ c.toNat ∧ c.toNat ≤ 90 then some (c.toNat - 65)
  else if 97 ≤ c.toNat ∧ c.toNat ≤ 122 then some (c.toNat - 71)
  else if 48 ≤ c.toNat ∧ c.toNat ≤ 57 then some (c.toNat + 4)
  else if c = '-' then some 62
  else if c = '_' then some 63
  else none

def encode : List UInt8 → List Char
  | [] => []
  | [a] => [charOf (a.toNat / 4), charOf (a.toNat % 4 * 16)]
  | [a, b] =>
    [charOf (a.toNat / 4), charOf (a.toNat % 4 * 16 + b.toNat / 16), charOf (b.toNat % 16 * 4)]
  | a :: b :: c :: rest =>
    charOf (a.toNat / 4) :: charOf (a.toNat % 4 * 16 + b.toNat / 16) ::
      charOf (b.toNat % 16 * 4 + c.toNat / 64) :: charOf (c.toNat % 64) :: encode rest

def decode : List Char → Option (List UInt8)
  | [] => some []
  | [_] => none
  | [w, x] => do
    let v ← valueOf w
    let u ← valueOf x
    if u % 16 = 0 then some [UInt8.ofNat (v * 4 + u / 16)] else none
  | [w, x, y] => do
    let v ← valueOf w
    let u ← valueOf x
    let t ← valueOf y
    if t % 4 = 0 then some [UInt8.ofNat (v * 4 + u / 16), UInt8.ofNat (u % 16 * 16 + t / 4)]
    else none
  | w :: x :: y :: z :: rest => do
    let v ← valueOf w
    let u ← valueOf x
    let t ← valueOf y
    let s ← valueOf z
    let bytes ← decode rest
    some (UInt8.ofNat (v * 4 + u / 16) :: UInt8.ofNat (u % 16 * 16 + t / 4) ::
      UInt8.ofNat (t % 4 * 64 + s) :: bytes)

theorem valueOf_charOf {n : ℕ} (h : n < 64) : valueOf (charOf n) = some n := by
  have hall : ∀ m : Fin 64, valueOf (charOf m) = some m.val := by decide
  exact hall ⟨n, h⟩

theorem ofNat_eq {a : UInt8} {n : ℕ} (h : n = a.toNat) : UInt8.ofNat n = a := by
  rw [h, UInt8.ofNat_toNat]

theorem decode_encode (bytes : List UInt8) : decode (encode bytes) = some bytes := by
  induction bytes using encode.induct with
  | case1 => rfl
  | case2 a =>
    have ha := a.toNat_lt
    simp only [encode, decode, valueOf_charOf (show a.toNat / 4 < 64 by omega),
      valueOf_charOf (show a.toNat % 4 * 16 < 64 by omega), Option.bind_eq_bind, Option.bind_some]
    rw [if_pos (by omega), ofNat_eq (a := a) (by omega)]
  | case3 a b =>
    have ha := a.toNat_lt
    have hb := b.toNat_lt
    simp only [encode, decode, valueOf_charOf (show a.toNat / 4 < 64 by omega),
      valueOf_charOf (show a.toNat % 4 * 16 + b.toNat / 16 < 64 by omega),
      valueOf_charOf (show b.toNat % 16 * 4 < 64 by omega), Option.bind_eq_bind, Option.bind_some]
    rw [if_pos (by omega), ofNat_eq (a := a) (by omega), ofNat_eq (a := b) (by omega)]
  | case4 a b c rest ih =>
    have ha := a.toNat_lt
    have hb := b.toNat_lt
    have hc := c.toNat_lt
    simp only [encode, decode, valueOf_charOf (show a.toNat / 4 < 64 by omega),
      valueOf_charOf (show a.toNat % 4 * 16 + b.toNat / 16 < 64 by omega),
      valueOf_charOf (show b.toNat % 16 * 4 + c.toNat / 64 < 64 by omega),
      valueOf_charOf (show c.toNat % 64 < 64 by omega), ih, Option.bind_eq_bind, Option.bind_some]
    rw [ofNat_eq (a := a) (by omega), ofNat_eq (a := b) (by omega), ofNat_eq (a := c) (by omega)]

theorem charOf_ne_dot (n : ℕ) : charOf n ≠ '.' := by
  by_cases hn : n < 63
  · have hall : ∀ m : Fin 63, charOf m ≠ '.' := by decide
    exact hall ⟨n, hn⟩
  · have hlast : charOf n = '_' := by
      unfold charOf
      rw [if_neg (by omega), if_neg (by omega), if_neg (by omega), if_neg (by omega)]
    rw [hlast]
    decide

/-- The alphabet has no dot. -/
theorem dot_notMem_encode (bytes : List UInt8) : '.' ∉ encode bytes := by
  induction bytes using encode.induct with
  | case1 => simp [encode]
  | case2 a => simp [encode, (charOf_ne_dot _).symm]
  | case3 a b => simp [encode, (charOf_ne_dot _).symm]
  | case4 a b c rest ih => simp [encode, (charOf_ne_dot _).symm, ih]

end BatleHub.Lib.Base64
