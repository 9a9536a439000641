import PPFramework.Arith.BlindedPower
import PPFramework.Arith.SquareZero
import PPFramework.Paillier.Library

/-!
Encryptions as elements of the unit group modulo `n²`. `ValidEnc` is the relation
of the scheme on raw integers; it is the graph `Blinded` of the library on their
residue classes, so each operation of `paillier.c` keeps it by one group law.

Everything here needs a positive modulus and nothing else: no primes, no private
key. That a plaintext can be read back is a matter of the key.
-/

namespace PPFramework
open Gmp SquareZero BlindedPower

/-- `c = (1 + n) ^ m * r ^ n mod n²` for an invertible `r`; a negative `m` stands
for its residue modulo `n`. -/
def ValidEnc (n : ℕ) (m c : ℤ) : Prop :=
  ∃ r : ℕ, r.Coprime n ∧ c = (1 + n : ℤ) ^ (m % n).toNat * (r : ℤ) ^ n % ((n * n : ℕ) : ℤ)

theorem modulus_sq_zero (n : ℕ) : (n : ZMod (n * n)) * n = 0 := by
  rw [← Nat.cast_mul, ZMod.natCast_self]

def encBase (n : ℕ) : (ZMod (n * n))ˣ :=
  principalUnit (modulus_sq_zero n) 1

theorem encBase_val (n : ℕ) : (encBase n : ZMod (n * n)) = 1 + n := by
  rw [encBase, principalUnit_val, one_mul]

theorem encBase_zpow_val (n : ℕ) (m : ℤ) :
    ((encBase n ^ m : (ZMod (n * n))ˣ) : ZMod (n * n)) = 1 + m * n :=
  principalUnit_one_zpow_val (modulus_sq_zero n) m

theorem encBase_zpow_congr {n : ℕ} {m m' : ℤ} (h : m ≡ m' [ZMOD n]) :
    encBase n ^ m = encBase n ^ m' := by
  obtain ⟨k, hk⟩ := h.dvd
  apply Units.ext
  have hm' : m' = m + n * k := by omega
  simp only [encBase_zpow_val, hm', Int.cast_add, Int.cast_mul, Int.cast_natCast]
  linear_combination (-k : ZMod (n * n)) * modulus_sq_zero n

theorem exists_unit_of_coprime {n r : ℕ} (hr : r.Coprime n) :
    ∃ u : (ZMod (n * n))ˣ, (u : ZMod (n * n)) = r :=
  ⟨ZMod.unitOfCoprime r (Nat.Coprime.mul_right hr hr), ZMod.coe_unitOfCoprime _ _⟩

theorem coprime_of_eq_unit {n r : ℕ} {u : (ZMod (n * n))ˣ} (h : (r : ZMod (n * n)) = u) :
    r.Coprime n :=
  Nat.Coprime.coprime_mul_right_right ((ZMod.isUnit_iff_coprime r (n * n)).mp (h ▸ u.isUnit))

theorem validEnc_congr {n : ℕ} {m m' c : ℤ} (h : ValidEnc n m c) (hm : m ≡ m' [ZMOD n]) :
    ValidEnc n m' c := by
  obtain ⟨r, hr, hc⟩ := h
  exact ⟨r, hr, by rw [hc, hm]⟩

section Modulus

variable {n : ℕ} [NeZero n]

instance modulusSqNeZero : NeZero (n * n) := ⟨Nat.mul_ne_zero (NeZero.ne n) (NeZero.ne n)⟩

/-- The relation on raw integers is the library's graph on residue classes. -/
theorem validEnc_iff (m c : ℤ) :
    ValidEnc n m c ↔
      ∃ u : (ZMod (n * n))ˣ, IsResidue (n * n) u c ∧ Blinded (encBase n) n m u := by
  have hred : encBase n ^ ((m % n).toNat : ℤ) = encBase n ^ m := by
    rw [Int.toNat_of_nonneg (Int.emod_nonneg m (Int.natCast_ne_zero.mpr (NeZero.ne n)))]
    exact encBase_zpow_congr (Int.mod_modEq m n)
  have hval (r : ℕ) (s : (ZMod (n * n))ˣ) (hs : (s : ZMod (n * n)) = r) :
      (((1 + n : ℤ) ^ (m % n).toNat * (r : ℤ) ^ n : ℤ) : ZMod (n * n)) =
        ((encBase n ^ m * s ^ n : (ZMod (n * n))ˣ) : ZMod (n * n)) := by
    rw [← hred, zpow_natCast]
    push_cast [encBase_val, hs]
    rfl
  constructor
  · rintro ⟨r, hr, rfl⟩
    obtain ⟨s, hs⟩ := exists_unit_of_coprime hr
    refine ⟨encBase n ^ m * s ^ n, ?_, blinded_intro _ _ _ _⟩
    rw [← hval r s hs]
    exact isResidue_emod _
  · rintro ⟨u, hu, s, rfl⟩
    have hs : (s : ZMod (n * n)) = (s : ZMod (n * n)).val := (ZMod.natCast_zmod_val _).symm
    refine ⟨(s : ZMod (n * n)).val, coprime_of_eq_unit hs.symm, isResidue_unique hu ?_⟩
    rw [← hval _ s hs]
    exact isResidue_emod _

theorem validEnc_range {m c : ℤ} (h : ValidEnc n m c) : 0 ≤ c ∧ c < (n * n : ℕ) := by
  obtain ⟨u, hu, _⟩ := (validEnc_iff m c).mp h
  exact ⟨hu.1, hu.2.1⟩

theorem validEnc_mul {m m' c c' : ℤ} (h : ValidEnc n m c) (h' : ValidEnc n m' c') :
    ∃ e, mpzMod (c * c') (n * n : ℕ) = some e ∧ ValidEnc n (m + m') e := by
  obtain ⟨u, hu, hblind⟩ := (validEnc_iff m c).mp h
  obtain ⟨u', hu', hblind'⟩ := (validEnc_iff m' c').mp h'
  obtain ⟨e, he, hres⟩ := mpzMod_residue (M := n * n) (c * c')
  refine ⟨e, he, (validEnc_iff _ e).mpr ⟨u * u', ?_, blinded_mul hblind hblind'⟩⟩
  simpa only [Int.cast_mul, hu.2.2, hu'.2.2, Units.val_mul] using hres

theorem validEnc_powm {m c : ℤ} (h : ValidEnc n m c) (k : ℤ) :
    ∃ e, mpzPowm c k (n * n : ℕ) = some e ∧ ValidEnc n (m * k) e := by
  obtain ⟨u, hu, hblind⟩ := (validEnc_iff m c).mp h
  obtain ⟨e, he, hres⟩ := mpzPowm_unit hu.2.2 k
  exact ⟨e, he, (validEnc_iff _ e).mpr ⟨u ^ k, hres, blinded_zpow hblind k⟩⟩

end Modulus

structure PaillierPubkey.HasModulus (pub : PaillierPubkey) (n : ℕ) : Prop where
  n_eq : pub.n = n
  n_pos : 0 < n

section Functions

variable {pub : PaillierPubkey} {n : ℕ}

theorem PaillierPubkey.HasModulus.nSquared_cast (h : pub.HasModulus n) :
    pub.nSquared = (n * n : ℕ) := by
  rw [pub.nSquared_eq, h.n_eq, Nat.cast_mul]

theorem PaillierPubkey.HasModulus.nPlusone_cast (h : pub.HasModulus n) :
    (pub.nPlusone : ZMod (n * n)) = encBase n := by
  rw [pub.nPlusone_eq, h.n_eq, encBase_val]
  push_cast
  ring

theorem PaillierPubkey.HasModulus.neZero (h : pub.HasModulus n) : NeZero n :=
  ⟨h.n_pos.ne'⟩

theorem paillierMul_valid (hn : pub.HasModulus n) {m m' c c' : ℤ} (h : ValidEnc n m c)
    (h' : ValidEnc n m' c') : ∃ e, paillierMul pub c c' = some e ∧ ValidEnc n (m + m') e := by
  have := hn.neZero
  rw [paillierMul, hn.nSquared_cast]
  exact validEnc_mul h h'

theorem paillierExp_valid (hn : pub.HasModulus n) {m c : ℤ} (h : ValidEnc n m c) (k : ℤ) :
    ∃ e, paillierExp pub c k = some e ∧ ValidEnc n (m * k) e := by
  have := hn.neZero
  rw [paillierExp, hn.nSquared_cast]
  exact validEnc_powm h k

/-- The base `1 + n` is a unit, so any integer is encrypted, a negative one as its
residue; and any factor is accepted, invertible or not. -/
theorem paillierEncWith_residue (hn : pub.HasModulus n) (m : ℤ) (r : ℕ) :
    ∃ c, paillierEncWith pub m r = some c ∧
      IsResidue (n * n) ((encBase n ^ m : (ZMod (n * n))ˣ) * (r : ZMod (n * n)) ^ n) c := by
  have := hn.neZero
  obtain ⟨c, hc, _, _, hcast⟩ := mpzPowm_unit hn.nPlusone_cast m
  obtain ⟨x, hx, _, _, hxcast⟩ := mpzPowm_natCast (M := n * n) r n
  obtain ⟨f, hf, hres⟩ := mpzMod_residue (M := n * n) (c * x)
  refine ⟨f, ?_, ?_⟩
  · simp only [paillierEncWith, hn.nSquared_cast, hn.n_eq, hc, hx, hf, Option.bind_eq_bind,
      Option.bind_some]
  · simpa only [Int.cast_mul, hcast, hxcast, Int.cast_natCast] using hres

theorem paillierEncWith_valid (hn : pub.HasModulus n) (m : ℤ) {r : ℕ} (hr : r.Coprime n) :
    ∃ c, paillierEncWith pub m r = some c ∧ ValidEnc n m c := by
  have := hn.neZero
  obtain ⟨c, hc, hres⟩ := paillierEncWith_residue hn m r
  obtain ⟨s, hs⟩ := exists_unit_of_coprime hr
  refine ⟨c, hc, (validEnc_iff m c).mpr ⟨encBase n ^ m * s ^ n, ?_, blinded_intro _ _ _ _⟩⟩
  rwa [Units.val_mul, Units.val_pow_eq_pow_val, hs]

end Functions

end PPFramework
