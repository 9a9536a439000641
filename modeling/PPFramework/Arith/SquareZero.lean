import Mathlib.Algebra.Group.Hom.Basic
import Mathlib.Algebra.Group.TypeTags.Hom
import Mathlib.Algebra.Ring.Int.Units
import Mathlib.Tactic.LinearCombination
import Mathlib.Tactic.Ring

/-!
Principal units of a commutative ring along a square-zero element. The binomial
theorem stops after its linear term there, so `a ↦ 1 + aν` turns addition into
multiplication and every power, negative ones included, has a closed form.
-/

namespace SquareZero

variable {R : Type*} [CommRing R] {ν : R}

def principalUnit (hν : ν * ν = 0) (a : R) : Rˣ where
  val := 1 + a * ν
  inv := 1 - a * ν
  val_inv := by linear_combination (-a * a) * hν
  inv_val := by linear_combination (-a * a) * hν

@[simp] theorem principalUnit_val (hν : ν * ν = 0) (a : R) :
    (principalUnit hν a : R) = 1 + a * ν := rfl

theorem principalUnit_add (hν : ν * ν = 0) (a b : R) :
    principalUnit hν (a + b) = principalUnit hν a * principalUnit hν b := by
  apply Units.ext
  simp only [principalUnit_val, Units.val_mul]
  linear_combination (-a * b) * hν

def principalHom (hν : ν * ν = 0) : Multiplicative R →* Rˣ :=
  MonoidHom.mk' (fun a => principalUnit hν a.toAdd) fun a b => principalUnit_add hν a.toAdd b.toAdd

theorem principalUnit_zpow (hν : ν * ν = 0) (a : R) (k : ℤ) :
    principalUnit hν a ^ k = principalUnit hν (k * a) := by
  have h := map_zpow (principalHom hν) (Multiplicative.ofAdd a) k
  rw [← ofAdd_zsmul, zsmul_eq_mul] at h
  exact h.symm

theorem principalUnit_one_zpow_val (hν : ν * ν = 0) (k : ℤ) :
    ((principalUnit hν 1 ^ k : Rˣ) : R) = 1 + k * ν := by
  rw [principalUnit_zpow, principalUnit_val, mul_one]

end SquareZero
