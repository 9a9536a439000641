import Mathlib.Data.ZMod.Units
import Mathlib.Data.Int.Bitwise
import Mathlib.Data.Int.GCD
import Mathlib.Tactic.LinearCombination

/-!
The GMP integer functions on unbounded integers. GMP answers a division by zero,
and the power of a base that has no inverse to a negative exponent, by aborting
the process; both are `none` here.

The specification lemmas read results in `ZMod M`: one statement about units
covers positive and negative exponents alike.
-/

namespace Gmp

/-- `mpz_mod`: the divisor's sign is ignored and the result is never negative. -/
def mpzMod (a d : ℤ) : Option ℤ :=
  if d = 0 then none else some (a % d)

/-- `mpz_div`, the older name of `mpz_fdiv_q`: the quotient rounded down. -/
def mpzDiv (a d : ℤ) : Option ℤ :=
  if d = 0 then none else some (a.fdiv d)

/-- `mpz_invert`; its zero return value, no inverse, is `none`. -/
def mpzInvert (a m : ℤ) : Option ℤ :=
  if m ≠ 0 ∧ Int.gcd a m = 1 then some (Int.gcdA a m % m) else none

def mpzPowm (b e m : ℤ) : Option ℤ :=
  if m = 0 then none
  else match e with
    | .ofNat k => some (b ^ k % m)
    | .negSucc k => (mpzInvert b m).map fun b' => b' ^ (k + 1) % m

def mpzCmp (a b : ℤ) : ℤ :=
  if a < b then -1 else if a = b then 0 else 1

/-- `mpz_get_si` for a `long` of 64 bits: the sign is kept and only the low bits of the
magnitude are; below zero they are those of the magnitude minus one. -/
def mpzGetSi (a : ℤ) : ℤ :=
  if 0 ≤ a then a % 2 ^ 63 else -1 - (-a - 1) % 2 ^ 63

/-- `mpz_sizeinbase(a, 2)`: the sign is ignored and zero counts one digit. -/
def mpzSizeinbase2 (a : ℤ) : ℕ :=
  Nat.log2 a.natAbs + 1

def mpzTstbit (a : ℤ) (bit : ℕ) : Bool :=
  a.testBit bit

def mpzTdivQ2exp (a : ℤ) (bits : ℕ) : ℤ :=
  a.tdiv (2 ^ bits)

/-- The largest bit count for which GMP can allocate an integer: its limb count is an `int`. -/
def mpzMaxBits : ℕ := 64 * (2 ^ 31 - 1)

/-- `mpz_urandomb`, reading `x` from the random source: any value below `2 ^ nbits`
can come out, and nothing beyond the allocation limit. -/
def mpzUrandomb (nbits x : ℕ) : Option ℕ :=
  if nbits ≤ mpzMaxBits then some (x % 2 ^ nbits) else none

/-- The integer `c` is the least non-negative representative of `x`. -/
def IsResidue (M : ℕ) (x : ZMod M) (c : ℤ) : Prop :=
  0 ≤ c ∧ c < M ∧ (c : ZMod M) = x

theorem isResidue_unique {M : ℕ} {x : ZMod M} {c c' : ℤ}
    (h : IsResidue M x c) (h' : IsResidue M x c') : c = c' := by
  obtain ⟨h0, hlt, hx⟩ := h
  obtain ⟨h0', hlt', hx'⟩ := h'
  have hmod : c % M = c' % M := (ZMod.intCast_eq_intCast_iff' c c' M).mp (hx.trans hx'.symm)
  rwa [Int.emod_eq_of_lt h0 hlt, Int.emod_eq_of_lt h0' hlt'] at hmod

theorem coprime_of_unit {M : ℕ} {a : ℤ} {u : (ZMod M)ˣ} (ha : (a : ZMod M) = u) :
    Int.gcd a M = 1 := by
  have h : IsUnit (a : ZMod M) := ha ▸ u.isUnit
  rw [ZMod.coe_int_isUnit_iff_isCoprime, isCoprime_comm] at h
  exact Int.isCoprime_iff_gcd_eq_one.mp h

section Residues

variable {M : ℕ} [NeZero M]

theorem modulus_pos : (0 : ℤ) < M :=
  Int.natCast_pos.mpr (NeZero.pos M)

theorem isResidue_emod (a : ℤ) : IsResidue M (a : ZMod M) (a % M) :=
  ⟨Int.emod_nonneg _ modulus_pos.ne', Int.emod_lt_of_pos _ modulus_pos, ZMod.intCast_mod a M⟩

theorem isResidue_val (x : ZMod M) : IsResidue M x x.val :=
  ⟨Int.natCast_nonneg _, Int.ofNat_lt.mpr x.val_lt, by
    rw [Int.cast_natCast, ZMod.natCast_zmod_val]⟩

theorem mpzMod_residue (a : ℤ) :
    ∃ c, mpzMod a M = some c ∧ IsResidue M (a : ZMod M) c :=
  ⟨a % M, if_neg modulus_pos.ne', isResidue_emod a⟩

theorem mpzMod_range {a c : ℤ} (h : mpzMod a M = some c) : 0 ≤ c ∧ c < M := by
  obtain ⟨c', hc', h0, hlt, _⟩ := mpzMod_residue (M := M) a
  obtain rfl : c' = c := Option.some.inj (hc'.symm.trans h)
  exact ⟨h0, hlt⟩

theorem mpzPowm_range {b e c : ℤ} (h : mpzPowm b e M = some c) : 0 ≤ c ∧ c < M := by
  obtain ⟨a, rfl⟩ : ∃ a : ℤ, a % M = c := by
    cases e with
    | ofNat k =>
        simp only [mpzPowm, if_neg modulus_pos.ne', Option.some.injEq] at h
        exact ⟨_, h⟩
    | negSucc k =>
        simp only [mpzPowm, if_neg modulus_pos.ne', Option.map_eq_some_iff] at h
        obtain ⟨b', _, hc⟩ := h
        exact ⟨_, hc⟩
  exact ⟨(isResidue_emod a).1, (isResidue_emod a).2.1⟩

theorem mpzInvert_unit {a : ℤ} {u : (ZMod M)ˣ} (ha : (a : ZMod M) = u) :
    ∃ c, mpzInvert a M = some c ∧ IsResidue M ((u⁻¹ : (ZMod M)ˣ) : ZMod M) c := by
  have hgcd := coprime_of_unit ha
  refine ⟨Int.gcdA a M % M, if_pos ⟨modulus_pos.ne', hgcd⟩, ?_⟩
  have hbezout : (a : ZMod M) * (Int.gcdA a M : ZMod M) = 1 := by
    have h := congrArg (Int.cast : ℤ → ZMod M) (Int.gcd_eq_gcd_ab a M)
    rw [hgcd] at h
    simpa using h.symm
  have hinv : (Int.gcdA a M : ZMod M) = ((u⁻¹ : (ZMod M)ˣ) : ZMod M) := by
    rw [ha] at hbezout
    exact (Units.inv_eq_of_mul_eq_one_right hbezout).symm
  rw [← hinv]
  exact isResidue_emod _

/-- On a unit every exponent is allowed, and the result is the power in the unit group. -/
theorem mpzPowm_unit {b : ℤ} {u : (ZMod M)ˣ} (hb : (b : ZMod M) = u) (e : ℤ) :
    ∃ c, mpzPowm b e M = some c ∧ IsResidue M ((u ^ e : (ZMod M)ˣ) : ZMod M) c := by
  cases e with
  | ofNat k =>
      refine ⟨b ^ k % M, if_neg modulus_pos.ne', ?_⟩
      have h := isResidue_emod (M := M) (b ^ k)
      simpa only [Int.cast_pow, hb, Int.ofNat_eq_natCast, zpow_natCast,
        Units.val_pow_eq_pow_val] using h
  | negSucc k =>
      obtain ⟨b', hb', _, _, hcast⟩ := mpzInvert_unit hb
      refine ⟨b' ^ (k + 1) % M, ?_, ?_⟩
      · simp only [mpzPowm, if_neg modulus_pos.ne', hb', Option.map_some]
      · have h := isResidue_emod (M := M) (b' ^ (k + 1))
        simpa only [Int.cast_pow, hcast, zpow_negSucc, ← inv_pow,
          Units.val_pow_eq_pow_val] using h

theorem mpzPowm_natCast (b : ℤ) (k : ℕ) :
    ∃ c, mpzPowm b k M = some c ∧ IsResidue M ((b : ZMod M) ^ k) c := by
  refine ⟨b ^ k % M, if_neg modulus_pos.ne', ?_⟩
  simpa only [Int.cast_pow] using isResidue_emod (M := M) (b ^ k)

end Residues

theorem lt_mpzSizeinbase2_iff {a : ℤ} (ha : 0 ≤ a) {k : ℕ} (hk : 0 < k) :
    k < mpzSizeinbase2 a ↔ 2 ^ k ≤ a := by
  lift a to ℕ using ha
  rw [mpzSizeinbase2, Int.natAbs_natCast, Nat.lt_succ_iff]
  by_cases h : a = 0
  · subst h
    have h2 : (0 : ℤ) < 2 ^ k := pow_pos (by decide) k
    simp only [Nat.log2_zero, Nat.cast_zero]
    omega
  · rw [Nat.le_log2 h]
    norm_cast

theorem mpzGetSi_eq_iff (a b : ℤ) :
    mpzGetSi a = mpzGetSi b ↔ (0 ≤ a ↔ 0 ≤ b) ∧ a ≡ b [ZMOD 2 ^ 63] := by
  simp only [mpzGetSi, Int.ModEq]
  by_cases ha : 0 ≤ a
  · by_cases hb : 0 ≤ b
    · rw [if_pos ha, if_pos hb]
      simp only [ha, hb, true_and]
    · rw [if_pos ha, if_neg hb]
      omega
  · by_cases hb : 0 ≤ b
    · rw [if_neg ha, if_pos hb]
      omega
    · rw [if_neg ha, if_neg hb]
      omega

theorem mpzPowm_neg_one_eq_none {b m : ℤ} (hm : m ≠ 0) :
    mpzPowm b (-1) m = none ↔ Int.gcd b m ≠ 1 := by
  change (if m = 0 then none else (mpzInvert b m).map _) = none ↔ _
  rw [if_neg hm, Option.map_eq_none_iff, mpzInvert]
  simp only [ne_eq, hm, not_false_eq_true, true_and, ite_eq_right_iff, reduceCtorEq, imp_false]

theorem mpzDiv_of_dvd {a d : ℤ} (hd : d ≠ 0) (k : ℤ) (ha : a = d * k) : mpzDiv a d = some k := by
  rw [mpzDiv, if_neg hd, ha, Int.mul_fdiv_cancel_left _ hd]

end Gmp
