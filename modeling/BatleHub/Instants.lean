import BatleHub.LocalPackages
import Mathlib.Algebra.Order.Ring.Nat
import Mathlib.Data.Int.Notation

/-!
The range of chrono's instants. Adding or subtracting a span panics where no instant is left,
which is `none` here.
-/
namespace BatleHub.Instants

open LocalPackages (DateTime)

/-- The first and the last instant chrono can hold, the years -262143 and 262142. -/
def minUtc : DateTime := -8334601228800 * 10 ^ 9

def maxUtc : DateTime := 8210266876799 * 10 ^ 9 + 999999999

def Representable (t : DateTime) : Prop := minUtc ≤ t ∧ t ≤ maxUtc

instance (t : DateTime) : Decidable (Representable t) :=
  inferInstanceAs (Decidable (minUtc ≤ t ∧ t ≤ maxUtc))

def checkedSubSigned (t : DateTime) (d : ℤ) : Option DateTime :=
  if Representable (t - d) then some (t - d) else none

def checkedAddSigned (t : DateTime) (d : ℤ) : Option DateTime :=
  if Representable (t + d) then some (t + d) else none

theorem checkedAddSigned_eq_some_iff {t : DateTime} {d : ℤ} {sum : DateTime} :
    checkedAddSigned t d = some sum ↔ Representable (t + d) ∧ sum = t + d := by
  unfold checkedAddSigned
  split
  · simp_all [eq_comm]
  · simp_all

end BatleHub.Instants
