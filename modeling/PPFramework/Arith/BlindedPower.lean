import Mathlib.GroupTheory.OrderOfElement
import Mathlib.Tactic.Group

/-!
Powers of a base hidden by `N`-th powers in a commutative group. The relation
`Blinded g N m c` is a graph of homomorphic encodings: it is closed under the
group operations, with the encoded integers added, negated and multiplied.
Nothing here says the encoded integer is unique; an exponent that kills the
blinding factors is what makes it readable, and one that is prime to `N` as well
tells encodings from other elements.
-/

namespace BlindedPower

variable {G : Type*} [CommGroup G] {g : G} {N : ℕ}

def Blinded (g : G) (N : ℕ) (m : ℤ) (c : G) : Prop :=
  ∃ r : G, c = g ^ m * r ^ N

theorem blinded_intro (g : G) (N : ℕ) (m : ℤ) (r : G) : Blinded g N m (g ^ m * r ^ N) :=
  ⟨r, rfl⟩

theorem blinded_mul {m m' : ℤ} {c c' : G} (h : Blinded g N m c) (h' : Blinded g N m' c') :
    Blinded g N (m + m') (c * c') := by
  obtain ⟨r, rfl⟩ := h
  obtain ⟨s, rfl⟩ := h'
  refine ⟨r * s, ?_⟩
  rw [zpow_add, mul_pow, mul_mul_mul_comm]

theorem blinded_zpow {m : ℤ} {c : G} (h : Blinded g N m c) (k : ℤ) :
    Blinded g N (m * k) (c ^ k) := by
  obtain ⟨r, rfl⟩ := h
  refine ⟨r ^ k, ?_⟩
  rw [mul_zpow, zpow_mul, ← zpow_natCast, ← zpow_natCast, zpow_comm r]

/-- An exponent annihilating every `N`-th power strips the blinding factor. -/
theorem blinded_pow_exponent {m : ℤ} {c : G} {e : ℕ} (h : Blinded g N m c)
    (he : ∀ r : G, r ^ (N * e) = 1) : c ^ e = g ^ (m * e) := by
  obtain ⟨r, rfl⟩ := h
  rw [mul_pow, ← pow_mul, he r, mul_one, zpow_mul, zpow_natCast]

/-- An element killed by an exponent prime to `N` is an `N`-th power. -/
theorem exists_root_of_pow_eq_one {c : G} {e : ℕ} (hcop : N.Coprime e) (hc : c ^ e = 1) :
    ∃ r : G, c = r ^ N := by
  have horder : N.Coprime (orderOf c) := hcop.coprime_dvd_right (orderOf_dvd_of_pow_eq_one hc)
  obtain ⟨k, hk⟩ := exists_pow_eq_self_of_coprime horder
  refine ⟨c ^ k, ?_⟩
  rw [← pow_mul, mul_comm, pow_mul, hk]

/-- When the blinding factors are killed by an exponent prime to `N`, raising to that
exponent recognises what a group element encodes. -/
theorem blinded_iff_pow {m : ℤ} {c : G} {e : ℕ} (hcop : N.Coprime e)
    (he : ∀ r : G, r ^ (N * e) = 1) : Blinded g N m c ↔ c ^ e = g ^ (m * e) := by
  constructor
  · intro h
    exact blinded_pow_exponent h he
  · intro h
    have hkill : (g ^ (-m) * c) ^ e = 1 := by
      rw [mul_pow, h, ← zpow_natCast, ← zpow_mul, ← zpow_add, neg_mul, neg_add_cancel, zpow_zero]
    obtain ⟨r, hr⟩ := exists_root_of_pow_eq_one hcop hkill
    refine ⟨r, ?_⟩
    rw [← hr, ← mul_assoc, ← zpow_add, add_neg_cancel, zpow_zero, one_mul]

/-- Where such an exponent kills every element, an `N`-th power determines its root. -/
theorem root_unique {e : ℕ} (hcop : N.Coprime e) (he : ∀ r : G, r ^ e = 1) {r s : G}
    (h : r ^ N = s ^ N) : r = s := by
  have hN : (r / s) ^ N = 1 := by rw [div_pow, h, div_self']
  have hgcd := pow_gcd_eq_one.mpr ⟨hN, he (r / s)⟩
  rw [hcop, pow_one] at hgcd
  exact div_eq_one.mp hgcd

end BlindedPower
