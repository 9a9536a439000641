import PPFramework.Paillier.Cryptosystem

/-!
Which generated key pairs decrypt. The two primes are drawn independently and the
loops compare neither with the other, so they may coincide. The private exponent
is invertible in every case; the blinding factors are removed only when the primes
differ, because `lcm (p-1) (q-1)` is the Carmichael function of `n` only then.
-/

namespace PPFramework
open Gmp

/-- What a key pair must satisfy to be of use to its owner. -/
structure Decryptable (cs : PaillierCryptosystemPrivateKey) : Prop where
  coprime : Int.gcd cs.prv.lambda cs.pub.n = 1
  inverseExists : ∃ u k, mpzPowm cs.pub.nPlusone cs.prv.lambda cs.pub.nSquared = some u ∧
    mpzDiv (u - 1) cs.pub.n = some k ∧ mpzInvert k cs.pub.n = some cs.prv.x
  inverse : cs.prv.x * cs.prv.lambda ≡ 1 [ZMOD cs.pub.n]
  decrypts : ∀ (m : ℤ) (r : ℕ), 0 ≤ m → m < cs.pub.n → r.Coprime cs.pub.n.toNat →
    cs.dec ((1 + cs.pub.n) ^ m.toNat * (r : ℤ) ^ cs.pub.n.toNat % (cs.pub.n * cs.pub.n)) false =
      some m

namespace KeygenDraw

variable (d : KeygenDraw)

theorem lambda_gcd : Int.gcd d.prv.lambda d.pub.n = 1 := by
  rw [d.prv_lambda, d.pub_hasModulus.n_eq]
  exact d.lambda_coprime

theorem prv_inverse_exists : ∃ u k, mpzPowm d.pub.nPlusone d.prv.lambda d.pub.nSquared = some u ∧
    mpzDiv (u - 1) d.pub.n = some k ∧ mpzInvert k d.pub.n = some d.prv.x := by
  obtain ⟨u, k, x, hu, hk, hx, hprv, _⟩ := d.completePrvkey_spec
  have hx' : d.prv.x = x :=
    congrArg PaillierPrvkey.x (Option.some.inj (d.completePrvkey_eq.symm.trans hprv))
  rw [d.prv_lambda, hx']
  exact ⟨u, k, hu, hk, hx⟩

theorem prv_inverse : d.prv.x * d.prv.lambda ≡ 1 [ZMOD d.pub.n] := by
  rw [d.prv_lambda, d.pub_hasModulus.n_eq]
  apply (ZMod.intCast_eq_intCast_iff _ _ _).mp
  push_cast
  exact d.prv_x_mul_lambda

theorem validEnc_formula {m : ℤ} {r : ℕ} (h0 : 0 ≤ m) (hm : m < d.pub.n)
    (hr : r.Coprime d.pub.n.toNat) :
    ValidEnc d.modulus m
      ((1 + d.pub.n) ^ m.toNat * (r : ℤ) ^ d.pub.n.toNat % (d.pub.n * d.pub.n)) := by
  rw [d.pub_hasModulus.n_eq] at hm hr ⊢
  rw [Int.toNat_natCast] at hr ⊢
  refine ⟨r, hr, ?_⟩
  rw [Int.emod_eq_of_lt h0 hm, Nat.cast_mul]

theorem decrypts_of_distinct (hpq : d.p ≠ d.q) (m : ℤ) (r : ℕ) (h0 : 0 ≤ m) (hm : m < d.pub.n)
    (hr : r.Coprime d.pub.n.toNat) :
    d.cryptosystem.dec
      ((1 + d.pub.n) ^ m.toNat * (r : ℤ) ^ d.pub.n.toNat % (d.pub.n * d.pub.n)) false =
      some m := by
  rw [dec_unsigned]
  have h : paillierDec d.pub d.prv _ = some (m % d.modulus) :=
    PaillierKey.paillierDec_valid ⟨d, hpq⟩ (d.validEnc_formula h0 hm hr)
  have hm' : m < d.modulus := hm
  rwa [Int.emod_eq_of_lt h0 hm'] at h

theorem enc_zero (r : ℕ) : paillierEncWith d.pub 0 r =
    some ((r : ℤ) ^ d.pub.n.toNat % (d.pub.n * d.pub.n)) := by
  obtain ⟨c, hc, hres⟩ := paillierEncWith_residue d.pub_hasModulus 0 r
  have hres' := isResidue_emod (M := d.modulus * d.modulus) ((r : ℤ) ^ d.modulus)
  rw [zpow_zero, Units.val_one, one_mul] at hres
  rw [Int.cast_pow, Int.cast_natCast] at hres'
  rw [hc, isResidue_unique hres hres', Nat.cast_mul]
  rfl

theorem not_unblinds_of_equal (hpq : d.p = d.q) : ¬ d.Unblinds (1 + d.p) := by
  have hn : d.modulus = d.p * d.p := by rw [modulus, ← hpq]
  have hl : d.lambda = d.p - 1 := by rw [lambda, ← hpq, Nat.lcm_self]
  rw [d.unblinds_iff, hn, hl, Nat.cast_add, Nat.cast_one]
  exact TwoPrime.one_add_prime_pow_ne_one d.accepted.p_prime d.p_ne_two

/-- With equal primes the blinding factor `1 + p` turns an encryption of zero into
one that decrypts to something else. -/
theorem not_decrypts_of_equal (hpq : d.p = d.q) :
    ∃ r : ℕ, r.Coprime d.pub.n.toNat ∧ r < d.modulus ∧
      paillierDec d.pub d.prv ((r : ℤ) ^ d.pub.n.toNat % (d.pub.n * d.pub.n)) ≠ some 0 := by
  have hn : d.modulus = d.p * d.p := by rw [modulus, ← hpq]
  have hcop : (1 + d.p).Coprime d.modulus := by
    rw [hn]
    exact Nat.Coprime.mul_right (by simp) (by simp)
  have hlt : 1 + d.p < d.modulus := by
    have h2 := d.accepted.p_prime.two_le
    have h3 := d.p_ne_two
    have := Nat.mul_le_mul_right d.p (show 3 ≤ d.p by omega)
    omega
  refine ⟨1 + d.p, hcop, hlt, ?_⟩
  intro hdec
  apply d.not_unblinds_of_equal hpq
  exact (d.paillierDec_enc_iff hcop (d.enc_zero (1 + d.p))).mp (by rw [hdec, Int.zero_emod])

end KeygenDraw

/-- A generated key pair is decryptable exactly when its primes differ; and every
accepted pair of primes is generated on some tape. -/
theorem keygen_decryptable_iff_distinct (d : KeygenDraw) :
    (∃ tape, PaillierCryptosystemPrivateKey.new d.modulusbits tape = some d.cryptosystem) ∧
      (Decryptable d.cryptosystem ↔ d.p ≠ d.q) := by
  refine ⟨(keyOfTape_iff _ _).mpr ⟨d, rfl, rfl⟩, ?_, ?_⟩
  · intro h hpq
    obtain ⟨r, hr, _, hdec⟩ := d.not_decrypts_of_equal hpq
    have h0 := h.decrypts 0 r (le_refl 0) (Int.natCast_pos.mpr d.modulus_pos) hr
    rw [Int.toNat_zero, pow_zero, one_mul, dec_unsigned] at h0
    exact hdec h0
  · intro hpq
    exact ⟨d.lambda_gcd, d.prv_inverse_exists, d.prv_inverse, d.decrypts_of_distinct hpq⟩

def equalDraw : KeygenDraw where
  modulusbits := 6
  p := 7
  q := 7
  accepted := ⟨by decide, by decide, by decide, by decide, by decide, by decide⟩

/-- The encryption of 0 under the blinding factor 8 decrypts to 7. -/
theorem equal_primes_misdecrypt :
    (∃ tape, PaillierCryptosystemPrivateKey.new 6 tape = some equalDraw.cryptosystem) ∧
      Nat.Coprime 8 49 ∧
      equalDraw.cryptosystem.dec ((1 + 49) ^ 0 * 8 ^ 49 % (49 * 49)) false = some 7 := by
  refine ⟨(keyOfTape_iff 6 _).mpr ⟨equalDraw, rfl, rfl⟩, by decide, ?_⟩
  decide +kernel

end PPFramework
