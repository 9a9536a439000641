import Mathlib.FieldTheory.Finite.Basic
import Mathlib.RingTheory.ZMod.UnitsCyclic

/-!
The unit group modulo the square of a product of two primes. For distinct
primes `n · lcm (p-1) (q-1)` is an exponent of it; for equal primes it is not,
and `1 + p` is a unit that shows it.
-/

namespace TwoPrime

variable {p q : ℕ}

theorem modEq_one_of_totient_dvd {r m e : ℕ} (hr : r.Coprime m) (he : m.totient ∣ e) :
    r ^ e ≡ 1 [MOD m] := by
  obtain ⟨t, rfl⟩ := he
  rw [pow_mul]
  simpa only [one_pow] using (Nat.ModEq.pow_totient hr).pow t

theorem totient_sq_dvd_exponent (hp : p.Prime) (q : ℕ) :
    (p ^ 2).totient ∣ p * q * Nat.lcm (p - 1) (q - 1) := by
  rw [Nat.totient_prime_pow_succ hp 1, pow_one, mul_assoc]
  exact mul_dvd_mul_left p (Dvd.dvd.mul_left (Nat.dvd_lcm_left _ _) q)

theorem pow_exponent_modEq_one (hp : p.Prime) (hq : q.Prime) (hpq : p ≠ q) {r : ℕ}
    (hr : r.Coprime (p * q)) :
    r ^ (p * q * Nat.lcm (p - 1) (q - 1)) ≡ 1 [MOD p * q * (p * q)] := by
  have hsq : p * q * (p * q) = p ^ 2 * q ^ 2 := by ring
  have hcop : (p ^ 2).Coprime (q ^ 2) :=
    Nat.Coprime.pow 2 2 ((Nat.coprime_primes hp hq).mpr hpq)
  have hleft : r ^ (p * q * Nat.lcm (p - 1) (q - 1)) ≡ 1 [MOD p ^ 2] :=
    modEq_one_of_totient_dvd ((Nat.Coprime.coprime_mul_right_right hr).pow_right 2)
      (totient_sq_dvd_exponent hp q)
  have hright : r ^ (p * q * Nat.lcm (p - 1) (q - 1)) ≡ 1 [MOD q ^ 2] := by
    apply modEq_one_of_totient_dvd ((Nat.Coprime.coprime_mul_left_right hr).pow_right 2)
    rw [mul_comm p q, Nat.lcm_comm]
    exact totient_sq_dvd_exponent hq p
  rw [hsq]
  exact (Nat.modEq_and_modEq_iff_modEq_mul hcop).mp ⟨hleft, hright⟩

theorem unit_pow_exponent (hp : p.Prime) (hq : q.Prime) (hpq : p ≠ q)
    (u : (ZMod (p * q * (p * q)))ˣ) : u ^ (p * q * Nat.lcm (p - 1) (q - 1)) = 1 := by
  have hpos : p * q * (p * q) ≠ 0 := by
    simp only [ne_eq, mul_eq_zero, hp.ne_zero, hq.ne_zero, or_self, not_false_eq_true]
  have : NeZero (p * q * (p * q)) := ⟨hpos⟩
  have hcop : (u : ZMod (p * q * (p * q))).val.Coprime (p * q) :=
    Nat.Coprime.coprime_mul_right_right (ZMod.val_coe_unit_coprime u)
  have h := (ZMod.natCast_eq_natCast_iff _ _ _).mpr (pow_exponent_modEq_one hp hq hpq hcop)
  apply Units.ext
  simpa only [Nat.cast_pow, ZMod.natCast_zmod_val, Nat.cast_one, Units.val_pow_eq_pow_val,
    Units.val_one] using h

/-- The exponent is prime to the modulus as soon as neither prime divides the
other one's predecessor; equal primes satisfy this as well. -/
theorem lcm_coprime (hp : p.Prime) (hq : q.Prime) (hpq : ¬ p ∣ q - 1) (hqp : ¬ q ∣ p - 1) :
    (Nat.lcm (p - 1) (q - 1)).Coprime (p * q) := by
  have self_not_dvd {s : ℕ} (hs : s.Prime) : ¬ s ∣ s - 1 := fun h =>
    absurd (Nat.le_of_dvd (Nat.sub_pos_of_lt hs.one_lt) h) (by have := hs.pos; omega)
  have cop {s : ℕ} (hs : s.Prime) (hl : ¬ s ∣ p - 1) (hr : ¬ s ∣ q - 1) :
      ((p - 1) * (q - 1)).Coprime s :=
    Nat.Coprime.mul_left (Nat.coprime_comm.mp (hs.coprime_iff_not_dvd.mpr hl))
      (Nat.coprime_comm.mp (hs.coprime_iff_not_dvd.mpr hr))
  apply Nat.Coprime.coprime_dvd_left (Nat.lcm_dvd_mul _ _)
  exact Nat.Coprime.mul_right (cop hp (self_not_dvd hp) hpq) (cop hq hqp (self_not_dvd hq))

theorem pow_exponent_modEq_one_modulus (hp : p.Prime) (hq : q.Prime) {r : ℕ}
    (hr : r.Coprime (p * q)) : r ^ (p * q * Nat.lcm (p - 1) (q - 1)) ≡ 1 [MOD p * q] := by
  by_cases hpq : p = q
  · subst hpq
    have hdvd := totient_sq_dvd_exponent hp p
    rw [← pow_two] at hr hdvd ⊢
    exact modEq_one_of_totient_dvd hr hdvd
  · exact (pow_exponent_modEq_one hp hq hpq hr).of_mul_left (p * q)

/-- Modulo the product itself, the least common multiple is an exponent. -/
theorem pow_lcm_modEq_one (hp : p.Prime) (hq : q.Prime) (hpq : p ≠ q) {r : ℕ}
    (hr : r.Coprime (p * q)) : r ^ Nat.lcm (p - 1) (q - 1) ≡ 1 [MOD p * q] := by
  have hleft : r ^ Nat.lcm (p - 1) (q - 1) ≡ 1 [MOD p] := by
    apply modEq_one_of_totient_dvd (Nat.Coprime.coprime_mul_right_right hr)
    rw [Nat.totient_prime hp]
    exact Nat.dvd_lcm_left _ _
  have hright : r ^ Nat.lcm (p - 1) (q - 1) ≡ 1 [MOD q] := by
    apply modEq_one_of_totient_dvd (Nat.Coprime.coprime_mul_left_right hr)
    rw [Nat.totient_prime hq]
    exact Nat.dvd_lcm_right _ _
  exact (Nat.modEq_and_modEq_iff_modEq_mul ((Nat.coprime_primes hp hq).mpr hpq)).mp
    ⟨hleft, hright⟩

theorem unit_pow_lcm (hp : p.Prime) (hq : q.Prime) (hpq : p ≠ q) (u : (ZMod (p * q))ˣ) :
    u ^ Nat.lcm (p - 1) (q - 1) = 1 := by
  have : NeZero (p * q) := ⟨Nat.mul_ne_zero hp.ne_zero hq.ne_zero⟩
  have hcop : (u : ZMod (p * q)).val.Coprime (p * q) := ZMod.val_coe_unit_coprime u
  have h := (ZMod.natCast_eq_natCast_iff _ _ _).mpr (pow_lcm_modEq_one hp hq hpq hcop)
  apply Units.ext
  simpa only [Nat.cast_pow, ZMod.natCast_zmod_val, Nat.cast_one, Units.val_pow_eq_pow_val,
    Units.val_one] using h

/-- An exponent that kills every unit modulo a multiple of a prime kills a generator of
the units modulo the prime. -/
theorem pred_dvd_of_zpow {N : ℕ} [NeZero N] (hp : p.Prime) (hpN : p ∣ N) {e : ℤ}
    (h : ∀ s : (ZMod N)ˣ, s ^ e = 1) : ((p - 1 : ℕ) : ℤ) ∣ e := by
  have : Fact p.Prime := ⟨hp⟩
  obtain ⟨g, hg⟩ : ∃ g : (ZMod p)ˣ, ∀ x, x ∈ Subgroup.zpowers g := IsCyclic.exists_generator
  obtain ⟨s, rfl⟩ := ZMod.unitsMap_surjective hpN g
  have horder := orderOf_eq_card_of_forall_mem_zpowers hg
  rw [Nat.card_eq_fintype_card, ZMod.card_units_eq_totient, Nat.totient_prime hp] at horder
  rw [← horder, orderOf_dvd_iff_zpow_eq_one, ← map_zpow, h s, map_one]

/-- A unit modulo `n²` all of whose powers stay below `n` is one, since the powers of a
greater number grow. -/
theorem eq_one_of_powers_le {n : ℕ} (hn : 1 < n) {t : (ZMod (n * n))ˣ}
    (h : ∀ j : ℕ, ((t ^ j : (ZMod (n * n))ˣ) : ZMod (n * n)).val ≤ n) : t = 1 := by
  have : Fact (1 < n * n) := ⟨hn.trans (lt_mul_of_one_lt_left (by omega) hn)⟩
  have hlt (j : ℕ) : ((t ^ j : (ZMod (n * n))ˣ) : ZMod (n * n)).val < n := by
    refine lt_of_le_of_ne (h j) ?_
    intro heq
    have hcop := ZMod.val_coe_unit_coprime (t ^ j)
    rw [heq, Nat.coprime_mul_iff_right, Nat.coprime_self] at hcop
    omega
  have hpow (j : ℕ) : ((t ^ j : (ZMod (n * n))ˣ) : ZMod (n * n)).val =
      (t : ZMod (n * n)).val ^ j := by
    induction j with
    | zero => rw [pow_zero, pow_zero, Units.val_one, ZMod.val_one]
    | succ j ih =>
        have hself := hlt 1
        rw [pow_one] at hself
        rw [pow_succ, Units.val_mul, ZMod.val_mul_of_lt, ih, pow_succ]
        exact Nat.mul_lt_mul'' (hlt j) hself
  have hgrow := hlt n
  rw [hpow] at hgrow
  have hne : (t : ZMod (n * n)).val ≠ 0 := fun h0 => t.ne_zero ((ZMod.val_eq_zero _).mp h0)
  have hsmall : ¬ 2 ≤ (t : ZMod (n * n)).val := by
    intro h2
    have hbig := (Nat.lt_two_pow_self (n := n)).trans_le (Nat.pow_le_pow_left h2 n)
    omega
  apply Units.ext
  apply ZMod.val_injective
  rw [Units.val_one, ZMod.val_one]
  omega

/-- With `q = p` odd, `1 + p` raised to `n · λ` is `1 - p³`, not one. -/
theorem one_add_prime_pow_ne_one (hp : p.Prime) (hp2 : p ≠ 2) :
    (1 + p : ZMod (p * p * (p * p))) ^ (p * p * (p - 1)) ≠ 1 := by
  have hmod : p * p * (p * p) = p ^ (3 + 1) := by ring
  rw [hmod]
  intro h
  have hdvd := orderOf_dvd_of_pow_eq_one h
  rw [ZMod.orderOf_one_add_prime hp hp2 3] at hdvd
  have hdvd' : p * p * p ∣ p * p * (p - 1) := by
    simpa only [pow_succ, pow_zero, one_mul] using hdvd
  have hpp : 0 < p * p := Nat.mul_pos hp.pos hp.pos
  have hself : p ∣ p - 1 := Nat.dvd_of_mul_dvd_mul_left hpp hdvd'
  have := Nat.le_of_dvd (Nat.sub_pos_of_lt hp.one_lt) hself
  have := hp.pos
  omega

section Size

variable {h : ℕ}

/-- Primes below `2 ^ h` whose product reaches `2 ^ (2h-1)` are too close in size
for one to divide the other's predecessor. -/
theorem not_dvd_pred_of_size (hp : p.Prime) (hq : q.Prime) (hph : p < 2 ^ h) (hqh : q < 2 ^ h)
    (hsize : 2 ^ (2 * h) ≤ 2 * (p * q)) : ¬ q ∣ p - 1 := by
  intro ⟨t, ht⟩
  have hp2 := hp.two_le
  have hq2 := hq.two_le
  have hpow : (2 : ℕ) ^ (2 * h) = 2 ^ h * 2 ^ h := by rw [two_mul, pow_add]
  match t with
  | 0 => omega
  -- `p = q + 1`: one of two consecutive primes is 2, and then the product is too small
  | 1 =>
      have hsucc : p = q + 1 := by omega
      rcases hq.eq_two_or_odd with rfl | hqodd
      · subst hsucc
        have h4 : 2 ^ 2 ≤ 2 ^ h := by
          apply Nat.pow_le_pow_right two_pos
          by_contra hlt
          have := Nat.pow_le_pow_right two_pos (show h ≤ 1 by omega)
          omega
        have := Nat.mul_le_mul h4 h4
        omega
      · rcases hp.eq_two_or_odd with hp2' | hpodd <;> omega
  -- `q` is less than half of `p`, so the product misses the top bit
  | t + 2 =>
      have h2q : 2 * q ≤ q * (t + 2) := by rw [mul_comm 2 q]; exact Nat.mul_le_mul_left q (by omega)
      have hlt : p * (2 * q) < 2 ^ h * 2 ^ h := Nat.mul_lt_mul'' hph (by omega)
      have hassoc : p * (2 * q) = 2 * (p * q) := by ring
      omega

theorem ne_two_of_size (hp : p.Prime) (hqh : q < 2 ^ h) (hph : p < 2 ^ h)
    (hsize : 2 ^ (2 * h) ≤ 2 * (p * q)) : p ≠ 2 := by
  rintro rfl
  have hpow : (2 : ℕ) ^ (2 * h) = 2 ^ h * 2 ^ h := by rw [two_mul, pow_add]
  have h4 : 4 ≤ 2 ^ h := by
    match h with
    | 0 | 1 => omega
    | h + 2 => have := Nat.one_le_two_pow (n := h); rw [pow_add]; omega
  have := Nat.mul_le_mul_right (2 ^ h) h4
  omega

end Size

end TwoPrime
