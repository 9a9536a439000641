import Mathlib.Algebra.BigOperators.Group.List.Basic
import PPFramework.Paillier.FastRecrypt

/-!
Operations built from others. The subtraction of a plaintext exists twice: the interface
encrypts the plaintext and divides by the result, Paillier's override multiplies by an
encryption of `n - p`. The two produce the same ciphertexts, from blinding factors that
are inverse to each other.

A weighted sum starts from `paillier_create_enc_zero`, the unblinded encryption of zero,
and multiplies powers into it. The terms may come in any order.
-/

namespace PPFramework
open Gmp

section Subtraction

variable {cs : PaillierCryptosystemBase} {n : ℕ}

theorem inverse_factor_pow {r r' : ℕ} (h : r * r' ≡ 1 [MOD n]) :
    (r : ZMod (n * n)) ^ n * (r' : ZMod (n * n)) ^ n = 1 := by
  rw [← mul_pow, ← Nat.cast_mul, ← mod_pow_modulus n (r * r'), h, mod_pow_modulus, Nat.cast_one,
    one_pow]

/-- Inverting an encryption of `p` gives an encryption of `n - p` under the inverse factor. -/
theorem encryption_inverse (hn : cs.pub.HasModulus n) {r r' : ℕ} (h : r * r' ≡ 1 [MOD n])
    (p : ℤ) : ∃ d e, paillierEncWith cs.pub p r = some d ∧
      paillierExp cs.pub d (-1) = some e ∧
      paillierEncWith cs.pub (cs.pub.n - p) r' = some e := by
  have := hn.neZero
  obtain ⟨s, hs⟩ := exists_unit_of_coprime (Nat.coprime_of_mul_modEq_one r' h)
  obtain ⟨d, hd, hdres⟩ := paillierEncWith_residue hn p r
  obtain ⟨e, he, heres⟩ := paillierEncWith_residue hn (cs.pub.n - p) r'
  rw [← hs, ← Units.val_pow_eq_pow_val, ← Units.val_mul] at hdres
  obtain ⟨f, hf, hfres⟩ := mpzPowm_unit hdres.2.2 (-1)
  have hinv : (r' : ZMod (n * n)) ^ n = ((s ^ n)⁻¹ : (ZMod (n * n))ˣ) := by
    apply Units.eq_inv_of_mul_eq_one_right
    rw [Units.val_pow_eq_pow_val, hs]
    exact inverse_factor_pow (by rwa [Nat.mul_comm])
  have hplain : encBase n ^ (cs.pub.n - p) = encBase n ^ (-p) := by
    apply encBase_zpow_congr
    rw [hn.n_eq, sub_eq_neg_add]
    exact Int.add_modEq_right
  rw [hinv, hplain, ← Units.val_mul, zpow_neg, ← mul_inv, ← zpow_neg_one] at heres
  obtain rfl : f = e := isResidue_unique hfres heres
  rw [← hn.nSquared_cast] at hf
  exact ⟨d, f, hd, hf, he⟩

theorem subFromPlainDefault_eq (hn : cs.pub.HasModulus n) {r r' : ℕ} (h : r * r' ≡ 1 [MOD n])
    (c p : ℤ) : cs.additive.subFromPlainDefault c p r = cs.subFromPlain c p r' := by
  obtain ⟨d, e, hd, hinv, he⟩ := encryption_inverse hn h p
  have henc : cs.additive.enc p r = some d := hd
  have hneg : cs.additive.plainMultiplyTo d (-1) = some e := hinv
  simp only [AdditiveInterface.subFromPlainDefault, AdditiveInterface.subFrom, henc, hneg,
    PaillierCryptosystemBase.subFromPlain, he, Option.bind_eq_bind, Option.bind_some]
  rfl

theorem exists_inverse_factor (hn : cs.pub.HasModulus n) {r : ℕ} (hr : r.Coprime n) :
    ∃ r' < n, r'.Coprime n ∧ r * r' ≡ 1 [MOD n] := by
  have := hn.neZero
  refine ⟨((ZMod.unitOfCoprime r hr)⁻¹ : (ZMod n)ˣ).val.val, ZMod.val_lt _,
    ZMod.val_coe_unit_coprime _, ?_⟩
  apply (ZMod.natCast_eq_natCast_iff _ _ _).mp
  rw [Nat.cast_mul, ZMod.natCast_zmod_val, Nat.cast_one, ← ZMod.coe_unitOfCoprime r hr,
    Units.mul_inv]

end Subtraction

/-- The inherited subtraction and the override reach the same ciphertexts: what either
makes with one factor, the other makes with another. -/
theorem subFromPlain_default_agrees (cs : PaillierCryptosystemBase) (n : ℕ)
    (hn : cs.pub.HasModulus n) (r : ℕ) (hr : r.Coprime n) :
    (∃ r' < n, r'.Coprime n ∧ ∀ c p : ℤ,
      cs.additive.subFromPlainDefault c p r = cs.subFromPlain c p r') ∧
    ∃ r' < n, r'.Coprime n ∧ ∀ c p : ℤ,
      cs.additive.subFromPlainDefault c p r' = cs.subFromPlain c p r := by
  obtain ⟨r', hlt, hcop, hinv⟩ := exists_inverse_factor hn hr
  refine ⟨⟨r', hlt, hcop, subFromPlainDefault_eq hn hinv⟩, ⟨r', hlt, hcop, ?_⟩⟩
  exact subFromPlainDefault_eq hn (by rwa [Nat.mul_comm])

theorem subFromPlain_default_agrees_sample :
    ∃ r' < 35, ∀ c p : ℤ,
      sampleKey.cryptosystem.additive.subFromPlainDefault c p 2 =
        sampleKey.cryptosystem.subFromPlain c p r' := by
  obtain ⟨⟨r', hlt, _, h⟩, _⟩ := subFromPlain_default_agrees
    sampleKey.cryptosystem.toPaillierCryptosystemBase sampleKey.modulus sampleKey.pub_hasModulus 2
    (by decide)
  exact ⟨r', hlt, h⟩

section WeightedSum

def paillierCreateEncZero : ℤ :=
  1

/-- A valid cipher with its plaintext and the number it is multiplied by. -/
structure WeightedTerm (n : ℕ) where
  plain : ℤ
  raw : ℤ
  weight : ℤ
  valid : ValidEnc n plain raw

namespace WeightedTerm

variable {n : ℕ}

/-- The loop `paillier_exp(pub, t, c, k); paillier_mul(pub, acc, acc, t);`. -/
def multiplyInto (pub : PaillierPubkey) (acc : ℤ) (t : WeightedTerm n) : Option ℤ := do
  let e ← paillierExp pub t.raw t.weight
  paillierMul pub acc e

def sum (pub : PaillierPubkey) (terms : List (WeightedTerm n)) : Option ℤ :=
  terms.foldlM (multiplyInto pub) paillierCreateEncZero

def total (terms : List (WeightedTerm n)) : ℤ :=
  (terms.map fun t => t.plain * t.weight).sum

/-- The factor a term contributes. -/
def power (pub : PaillierPubkey) (t : WeightedTerm n) : ZMod (n * n) :=
  (((paillierExp pub t.raw t.weight).getD 0 : ℤ) : ZMod (n * n))

end WeightedTerm

variable {pub : PaillierPubkey} {n : ℕ}

theorem paillierMul_cast (hn : pub.HasModulus n) {c d e : ℤ} (h : paillierMul pub c d = some e) :
    (e : ZMod (n * n)) = c * d := by
  have := hn.neZero
  obtain ⟨e', he, hres⟩ := mpzMod_residue (M := n * n) (c * d)
  rw [paillierMul, hn.nSquared_cast] at h
  obtain rfl : e' = e := Option.some.inj (he.symm.trans h)
  rw [hres.2.2, Int.cast_mul]

theorem multiplyInto_spec (hn : pub.HasModulus n) {m acc : ℤ} (h : ValidEnc n m acc)
    (t : WeightedTerm n) :
    ∃ e, t.multiplyInto pub acc = some e ∧ ValidEnc n (m + t.plain * t.weight) e ∧
      (e : ZMod (n * n)) = acc * t.power pub := by
  obtain ⟨f, hf, hpow⟩ := paillierExp_valid hn t.valid t.weight
  obtain ⟨e, he, hmul⟩ := paillierMul_valid hn h hpow
  refine ⟨e, ?_, hmul, ?_⟩
  · simp only [WeightedTerm.multiplyInto, hf, he, Option.bind_eq_bind, Option.bind_some]
  · rw [paillierMul_cast hn he, WeightedTerm.power, hf, Option.getD_some]

theorem foldlM_multiplyInto (hn : pub.HasModulus n) (terms : List (WeightedTerm n)) {m acc : ℤ}
    (h : ValidEnc n m acc) :
    ∃ e, terms.foldlM (WeightedTerm.multiplyInto pub) acc = some e ∧
      ValidEnc n (m + WeightedTerm.total terms) e ∧
      (e : ZMod (n * n)) = acc * (terms.map (WeightedTerm.power pub)).prod := by
  induction terms generalizing m acc with
  | nil => exact ⟨acc, rfl, by simpa [WeightedTerm.total] using h, by simp⟩
  | cons t terms ih =>
      obtain ⟨e₁, hstep, henc, hcast⟩ := multiplyInto_spec hn h t
      obtain ⟨e, hrest, hvalid, hprod⟩ := ih henc
      refine ⟨e, ?_, ?_, ?_⟩
      · rw [List.foldlM_cons, hstep, Option.bind_eq_bind, Option.bind_some, hrest]
      · simpa [WeightedTerm.total, add_assoc] using hvalid
      · rw [hprod, hcast, List.map_cons, List.prod_cons, mul_assoc]

theorem createEncZero_valid (key : PaillierKey) :
    ValidEnc key.modulus 0 paillierCreateEncZero := by
  have hp := key.accepted.p_prime.one_lt
  have hq := key.accepted.q_prime.one_lt
  have hn : 1 < key.modulus := Nat.one_lt_mul_iff.mpr ⟨by omega, by omega, Or.inl hp⟩
  refine ⟨1, Nat.coprime_one_left _, ?_⟩
  have hsq : (1 : ℤ) < (key.modulus * key.modulus : ℕ) := by
    exact_mod_cast Nat.one_lt_mul_iff.mpr ⟨by omega, by omega, Or.inl hn⟩
  rw [Int.zero_emod, Int.toNat_zero, pow_zero, Nat.cast_one, one_pow, mul_one,
    Int.emod_eq_of_lt (by decide) hsq]
  rfl

end WeightedSum

end PPFramework
