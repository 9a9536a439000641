import PPFramework.Arith.TwoPrime
import PPFramework.Paillier.Encryption

/-!
Key pairs. A `KeygenDraw` is a key length with primes its loops accept; the two
primes may coincide, because they are drawn independently. A `PaillierKey` is a
draw with distinct primes, for which decryption inverts encryption.

Decryption is studied through logarithms: `c ^ λ = 1 + t·n` modulo `n²`. Valid
encryptions have one under every draw, which makes decryption additive; distinct
primes fix its value.
-/

namespace PPFramework
open Gmp BlindedPower

structure KeygenDraw where
  modulusbits : Int32
  p : ℕ
  q : ℕ
  accepted : KeygenAccepts modulusbits.toInt p q

structure PaillierKey extends KeygenDraw where
  distinct : p ≠ q

theorem bitcnt_of_nonneg {i : ℤ} (h0 : 0 ≤ i) (h : i < 2 ^ 31) : (bitcnt i : ℤ) = i := by
  simp only [bitcnt]
  omega

theorem int32_bounds (k : Int32) : -2 ^ 31 ≤ k.toInt ∧ k.toInt < 2 ^ 31 :=
  ⟨k.le_toInt, k.toInt_lt⟩

theorem nonneg_of_bitcnt_le {i : ℤ} (hi : -2 ^ 31 ≤ i) (h : bitcnt i ≤ mpzMaxBits) : 0 ≤ i := by
  simp only [bitcnt, mpzMaxBits] at h
  omega

namespace KeygenDraw

variable (d : KeygenDraw)

/-- The acceptance test admits even lengths only and primes of half the length. -/
theorem exists_half : ∃ h : ℕ, d.modulusbits.toInt = 2 * h ∧ d.p < 2 ^ h ∧ d.q < 2 ^ h ∧
    2 ^ (2 * h) ≤ 2 * (d.p * d.q) := by
  obtain ⟨hlow, hhigh⟩ := int32_bounds d.modulusbits
  obtain ⟨hw, hp, hq, hpp, _, hbit⟩ := d.accepted
  generalize d.modulusbits.toInt = k at *
  have htdiv : 2 * k.tdiv 2 = k ∨ 2 * k.tdiv 2 = k - 1 ∨ (2 * k.tdiv 2 = k + 1 ∧ k < 0) := by
    have := Int.mul_tdiv_add_tmod k 2
    have : 0 ≤ k → 0 ≤ k.tmod 2 := fun h => Int.tmod_nonneg 2 h
    have := Int.tmod_lt_of_pos k (show (0 : ℤ) < 2 by decide)
    have := Int.lt_tmod_of_pos k (show (0 : ℤ) < 2 by decide)
    omega
  -- a negative count exceeds what can be allocated, so no draw would have returned
  have hnonneg : 0 ≤ k.tdiv 2 := nonneg_of_bitcnt_le (by omega) hw
  have hcast : (bitcnt (k.tdiv 2) : ℤ) = k.tdiv 2 := bitcnt_of_nonneg hnonneg (by omega)
  generalize bitcnt (k.tdiv 2) = h at *
  have hh : h ≠ 0 := by
    rintro rfl
    have := hpp.two_le
    omega
  have htop : (bitcnt (k - 1) : ℤ) = k - 1 := bitcnt_of_nonneg (by omega) (by omega)
  generalize bitcnt (k - 1) = t at *
  have hge : 2 ^ t ≤ d.p * d.q := Nat.ge_two_pow_of_testBit hbit
  have hlt : d.p * d.q < 2 ^ (2 * h) := by
    rw [two_mul, pow_add]
    exact Nat.mul_lt_mul'' hp hq
  -- the product of two `h`-bit numbers has no bit above `2h - 1`, so an odd length fails
  have ht : t < 2 * h := (Nat.pow_lt_pow_iff_right (by decide)).mp (lt_of_le_of_lt hge hlt)
  have ht' : 2 * h = t + 1 := by omega
  refine ⟨h, by omega, hp, hq, ?_⟩
  rw [ht', pow_succ']
  exact Nat.mul_le_mul_left 2 hge

theorem p_ne_two : d.p ≠ 2 := by
  obtain ⟨h, _, hp, hq, hsize⟩ := d.exists_half
  exact TwoPrime.ne_two_of_size d.accepted.p_prime hq hp hsize

theorem q_ne_two : d.q ≠ 2 := by
  obtain ⟨h, _, hp, hq, hsize⟩ := d.exists_half
  exact TwoPrime.ne_two_of_size d.accepted.q_prime hp hq (by rwa [mul_comm d.q])

def modulus : ℕ := d.p * d.q

def lambda : ℕ := Nat.lcm (d.p - 1) (d.q - 1)

def pub : PaillierPubkey := completePubkey d.modulusbits (d.modulus : ℤ)

/-- The private key `complete_prvkey` computes; `completePrvkey_eq` says that it does. -/
def prv : PaillierPrvkey := (completePrvkey d.lambda d.pub).getD ⟨0, 0⟩

theorem modulus_pos : 0 < d.modulus :=
  Nat.mul_pos d.accepted.p_prime.pos d.accepted.q_prime.pos

instance : NeZero d.modulus := ⟨d.modulus_pos.ne'⟩

theorem pub_hasModulus : d.pub.HasModulus d.modulus := ⟨rfl, d.modulus_pos⟩

theorem sizeinbase_modulus : (mpzSizeinbase2 d.modulus : ℤ) = d.modulusbits.toInt := by
  obtain ⟨h, hk, hp, hq, hsize⟩ := d.exists_half
  have hlt : d.modulus < 2 ^ (2 * h) := by
    rw [modulus, two_mul, pow_add]
    exact Nat.mul_lt_mul'' hp hq
  obtain ⟨t, ht⟩ : ∃ t, 2 * h = t + 1 := by
    cases h with
    | zero =>
        have := d.accepted.p_prime.two_le
        omega
    | succ h => exact ⟨2 * h + 1, rfl⟩
  have hge : 2 ^ t ≤ d.modulus := by
    rw [ht, pow_succ'] at hsize
    exact Nat.le_of_mul_le_mul_left hsize (by decide)
  rw [ht] at hlt
  have hlog : Nat.log2 d.modulus = t := (Nat.log2_eq_iff d.modulus_pos.ne').mpr ⟨hge, hlt⟩
  rw [mpzSizeinbase2, Int.natAbs_natCast, hlog, hk]
  omega

theorem bitcnt_modulusbits : bitcnt d.modulusbits.toInt = mpzSizeinbase2 d.modulus := by
  obtain ⟨_, hhigh⟩ := int32_bounds d.modulusbits
  have h := d.sizeinbase_modulus
  simp only [bitcnt]
  omega

theorem blindingAccepts_iff (r : ℕ) : BlindingAccepts d.pub r ↔ r < d.modulus := by
  have hbits : bitcnt d.pub.bits.toInt = mpzSizeinbase2 d.modulus := d.bitcnt_modulusbits
  constructor
  · intro h
    exact Int.ofNat_lt.mp h.lt_n
  · intro h
    refine ⟨?_, ?_, Int.ofNat_lt.mpr h⟩
    · obtain ⟨_, hhigh⟩ := int32_bounds d.modulusbits
      have := d.sizeinbase_modulus
      rw [hbits]
      simp only [mpzMaxBits]
      omega
    · rw [hbits, mpzSizeinbase2, Int.natAbs_natCast]
      exact h.trans Nat.lt_log2_self

theorem lambda_coprime : d.lambda.Coprime d.modulus := by
  obtain ⟨h, _, hp, hq, hsize⟩ := d.exists_half
  exact TwoPrime.lcm_coprime d.accepted.p_prime d.accepted.q_prime
    (TwoPrime.not_dvd_pred_of_size d.accepted.q_prime d.accepted.p_prime hq hp
      (by rwa [mul_comm d.q]))
    (TwoPrime.not_dvd_pred_of_size d.accepted.p_prime d.accepted.q_prime hp hq hsize)

end KeygenDraw

theorem exists_mpzDiv_of_log {n : ℕ} (hn : 0 < n) {u t : ℤ}
    (h : (u : ZMod (n * n)) = 1 + t * n) :
    ∃ k, mpzDiv (u - 1) n = some k ∧ (k : ZMod n) = t := by
  have hzero : ((u - 1 - t * n : ℤ) : ZMod (n * n)) = 0 := by
    push_cast
    rw [h]
    ring
  obtain ⟨s, hs⟩ := (ZMod.intCast_zmod_eq_zero_iff_dvd _ _).mp hzero
  refine ⟨t + n * s, mpzDiv_of_dvd (by omega) _ ?_, ?_⟩
  · push_cast at hs
    linear_combination hs
  · push_cast
    rw [ZMod.natCast_self, zero_mul, add_zero]

namespace KeygenDraw

variable (d : KeygenDraw)

/-- The inverse whose existence `complete_prvkey` does not check exists for every draw. -/
theorem completePrvkey_spec : ∃ u k x : ℤ,
    mpzPowm d.pub.nPlusone d.lambda d.pub.nSquared = some u ∧
    mpzDiv (u - 1) d.pub.n = some k ∧ mpzInvert k d.pub.n = some x ∧
    completePrvkey d.lambda d.pub = some ⟨d.lambda, x⟩ ∧
    (x : ZMod d.modulus) * d.lambda = 1 := by
  obtain ⟨u, hu, _, _, hres⟩ := mpzPowm_unit d.pub_hasModulus.nPlusone_cast (d.lambda : ℤ)
  rw [encBase_zpow_val] at hres
  rw [← d.pub_hasModulus.nSquared_cast] at hu
  obtain ⟨k, hk, hkcast⟩ := exists_mpzDiv_of_log d.modulus_pos hres
  obtain ⟨l, hl⟩ : ∃ l : (ZMod d.modulus)ˣ, (l : ZMod d.modulus) = d.lambda :=
    ⟨ZMod.unitOfCoprime _ d.lambda_coprime, ZMod.coe_unitOfCoprime _ _⟩
  obtain ⟨x, hx, _, _, hxcast⟩ := mpzInvert_unit (a := k) (u := l)
    (by rw [hkcast, hl, Int.cast_natCast])
  rw [← d.pub_hasModulus.n_eq] at hk hx
  refine ⟨u, k, x, hu, hk, hx, ?_, by rw [hxcast, ← hl, Units.inv_mul]⟩
  simp only [completePrvkey, hu, hk, hx, Option.bind_eq_bind, Option.bind_some, Option.getD_some]

theorem completePrvkey_eq : completePrvkey d.lambda d.pub = some d.prv := by
  obtain ⟨_, _, x, _, _, _, h, _⟩ := d.completePrvkey_spec
  rw [prv, h, Option.getD_some]

theorem prv_lambda : d.prv.lambda = d.lambda := by
  obtain ⟨_, _, x, _, _, _, h, _⟩ := d.completePrvkey_spec
  rw [prv, h, Option.getD_some]

theorem prv_x_mul_lambda : (d.prv.x : ZMod d.modulus) * d.lambda = 1 := by
  obtain ⟨_, _, x, _, _, _, h, hx⟩ := d.completePrvkey_spec
  rw [prv, h, Option.getD_some]
  exact hx

theorem keyFromPrimes_eq : keyFromPrimes d.modulusbits d.p d.q = some (d.pub, d.prv) := by
  have h := d.completePrvkey_eq
  simp only [lambda, pub, modulus] at h
  simp only [keyFromPrimes, h, Option.bind_eq_bind, Option.bind_some]
  rfl

/-- Decryption multiplies the logarithm of the ciphertext by `x`. -/
theorem paillierDec_of_log {c t : ℤ}
    (h : (c : ZMod (d.modulus * d.modulus)) ^ d.lambda = 1 + t * d.modulus) :
    paillierDec d.pub d.prv c = some (t * d.prv.x % d.modulus) := by
  obtain ⟨u, hu, _, _, hres⟩ := mpzPowm_natCast (M := d.modulus * d.modulus) c d.lambda
  obtain ⟨k, hk, hkcast⟩ := exists_mpzDiv_of_log d.modulus_pos (hres.trans h)
  have hmod : k * d.prv.x % d.modulus = t * d.prv.x % d.modulus := by
    apply (ZMod.intCast_eq_intCast_iff' _ _ _).mp
    push_cast
    rw [hkcast]
  have hn : (d.pub).n = d.modulus := rfl
  rw [← d.pub_hasModulus.nSquared_cast, ← d.prv_lambda] at hu
  simp only [paillierDec, hu, hn, hk, mpzMod, hmod, Option.bind_eq_bind, Option.bind_some,
    if_neg (Int.natCast_ne_zero.mpr d.modulus_pos.ne')]

/-- The logarithm of a plaintext is its multiple by `λ`, which `x` cancels. -/
theorem paillierDec_of_plain_log {m c : ℤ}
    (h : (c : ZMod (d.modulus * d.modulus)) ^ d.lambda = 1 + (m * d.lambda : ℤ) * d.modulus) :
    paillierDec d.pub d.prv c = some (m % d.modulus) := by
  rw [d.paillierDec_of_log h]
  congr 1
  apply (ZMod.intCast_eq_intCast_iff' _ _ _).mp
  push_cast
  linear_combination (m : ZMod d.modulus) * d.prv_x_mul_lambda

/-- Every valid encryption has a logarithm, whether or not the primes are distinct. -/
theorem exists_log {m c : ℤ} (h : ValidEnc d.modulus m c) :
    ∃ t : ℤ, (c : ZMod (d.modulus * d.modulus)) ^ d.lambda = 1 + t * d.modulus := by
  obtain ⟨u, hu, s, rfl⟩ := (validEnc_iff m c).mp h
  have hcop : (s : ZMod (d.modulus * d.modulus)).val.Coprime d.modulus :=
    Nat.Coprime.coprime_mul_right_right (ZMod.val_coe_unit_coprime s)
  have hone : (s : ZMod (d.modulus * d.modulus)).val ^ (d.modulus * d.lambda) ≡ 1
      [MOD d.modulus] :=
    TwoPrime.pow_exponent_modEq_one_modulus d.accepted.p_prime d.accepted.q_prime hcop
  obtain ⟨k, hk⟩ := (Nat.modEq_iff_dvd.mp hone.symm)
  have hpow : (s : ZMod (d.modulus * d.modulus)) ^ (d.modulus * d.lambda) = 1 + k * d.modulus := by
    have hcast := congrArg (Int.cast : ℤ → ZMod (d.modulus * d.modulus)) hk
    push_cast [ZMod.natCast_zmod_val] at hcast
    linear_combination hcast
  refine ⟨m * d.lambda + k, ?_⟩
  rw [hu.2.2, ← Units.val_pow_eq_pow_val, mul_pow, ← zpow_natCast, ← zpow_mul, ← pow_mul,
    Units.val_mul, encBase_zpow_val, Units.val_pow_eq_pow_val, hpow]
  push_cast
  linear_combination (m * d.lambda * k : ZMod (d.modulus * d.modulus)) *
    modulus_sq_zero d.modulus

/-- The exponent of decryption leaves nothing of this blinding factor. -/
def Unblinds (r : ℕ) : Prop :=
  r ^ (d.modulus * d.lambda) ≡ 1 [MOD d.modulus * d.modulus]

theorem unblinds_iff (r : ℕ) :
    d.Unblinds r ↔ (r : ZMod (d.modulus * d.modulus)) ^ (d.modulus * d.lambda) = 1 := by
  rw [Unblinds, ← ZMod.natCast_eq_natCast_iff, Nat.cast_pow, Nat.cast_one]

theorem unblinds_of_distinct (hpq : d.p ≠ d.q) {r : ℕ} (hr : r.Coprime d.modulus) :
    d.Unblinds r :=
  TwoPrime.pow_exponent_modEq_one d.accepted.p_prime d.accepted.q_prime hpq hr

theorem enc_log {m : ℤ} {r : ℕ} {c : ℤ} (hc : paillierEncWith d.pub m r = some c) :
    (c : ZMod (d.modulus * d.modulus)) ^ d.lambda =
      ((encBase d.modulus ^ (m * d.lambda) : (ZMod _)ˣ) : ZMod _) *
        (r : ZMod (d.modulus * d.modulus)) ^ (d.modulus * d.lambda) := by
  obtain ⟨c', hc', _, _, hcast⟩ := paillierEncWith_residue d.pub_hasModulus m r
  obtain rfl : c' = c := Option.some.inj (hc'.symm.trans hc)
  rw [hcast, mul_pow, ← pow_mul, ← Units.val_pow_eq_pow_val, ← zpow_natCast, ← zpow_mul]

theorem exists_paillierDec {m : ℤ} {r : ℕ} (hr : r.Coprime d.modulus) {c : ℤ}
    (hc : paillierEncWith d.pub m r = some c) :
    ∃ v : ℤ, 0 ≤ v ∧ v < d.modulus ∧ paillierDec d.pub d.prv c = some v := by
  obtain ⟨c', hc', henc⟩ := paillierEncWith_valid d.pub_hasModulus m hr
  obtain rfl : c' = c := Option.some.inj (hc'.symm.trans hc)
  obtain ⟨t, ht⟩ := d.exists_log henc
  obtain ⟨h0, hlt, _⟩ := isResidue_emod (M := d.modulus) (t * d.prv.x)
  exact ⟨_, h0, hlt, d.paillierDec_of_log ht⟩

/-- A plaintext comes back exactly when its blinding factor is removed. -/
theorem paillierDec_enc_iff {m : ℤ} {r : ℕ} (hr : r.Coprime d.modulus) {c : ℤ}
    (hc : paillierEncWith d.pub m r = some c) :
    paillierDec d.pub d.prv c = some (m % d.modulus) ↔ d.Unblinds r := by
  have hlog := d.enc_log hc
  rw [d.unblinds_iff]
  constructor
  · intro hdec
    obtain ⟨c', hc', henc⟩ := paillierEncWith_valid d.pub_hasModulus m hr
    obtain rfl : c' = c := Option.some.inj (hc'.symm.trans hc)
    obtain ⟨t, ht⟩ := d.exists_log henc
    rw [d.paillierDec_of_log ht, Option.some.injEq] at hdec
    have hx : (t * d.prv.x : ZMod d.modulus) = m := by
      have h := (ZMod.intCast_eq_intCast_iff' _ _ d.modulus).mpr hdec
      push_cast at h
      exact h
    have htm : t ≡ m * d.lambda [ZMOD d.modulus] := by
      apply (ZMod.intCast_eq_intCast_iff _ _ _).mp
      push_cast
      linear_combination (d.lambda : ZMod d.modulus) * hx - t * d.prv_x_mul_lambda
    -- the two logarithms agree modulo `n`, so the unit in front cancels
    rw [ht, ← encBase_zpow_val, encBase_zpow_congr htm] at hlog
    exact (Units.mul_right_inj _).mp (hlog.symm.trans (mul_one _).symm)
  · intro hone
    rw [hone, mul_one, encBase_zpow_val] at hlog
    exact d.paillierDec_of_plain_log hlog

theorem paillierDec_mul {m m' c c' e : ℤ} (h : ValidEnc d.modulus m c)
    (h' : ValidEnc d.modulus m' c') (he : paillierMul d.pub c c' = some e) :
    ∃ v v', paillierDec d.pub d.prv c = some v ∧ paillierDec d.pub d.prv c' = some v' ∧
      paillierDec d.pub d.prv e = some ((v + v') % d.modulus) := by
  obtain ⟨t, ht⟩ := d.exists_log h
  obtain ⟨t', ht'⟩ := d.exists_log h'
  refine ⟨_, _, d.paillierDec_of_log ht, d.paillierDec_of_log ht', ?_⟩
  rw [paillierMul, d.pub_hasModulus.nSquared_cast] at he
  obtain ⟨e', he', hres⟩ := mpzMod_residue (M := d.modulus * d.modulus) (c * c')
  obtain rfl : e' = e := Option.some.inj (he'.symm.trans he)
  have hlog : (e' : ZMod (d.modulus * d.modulus)) ^ d.lambda = 1 + (t + t' : ℤ) * d.modulus := by
    rw [hres.2.2, Int.cast_mul, mul_pow, ht, ht']
    push_cast
    linear_combination (t * t' : ZMod (d.modulus * d.modulus)) * modulus_sq_zero d.modulus
  rw [d.paillierDec_of_log hlog, add_mul, ← Int.add_emod]

end KeygenDraw

namespace PaillierKey

variable (key : PaillierKey)

theorem paillierDec_valid {m c : ℤ} (h : ValidEnc key.modulus m c) :
    paillierDec key.pub key.prv c = some (m % key.modulus) := by
  obtain ⟨u, hu, hblind⟩ := (validEnc_iff m c).mp h
  have hexp (r : (ZMod (key.modulus * key.modulus))ˣ) : r ^ (key.modulus * key.lambda) = 1 :=
    TwoPrime.unit_pow_exponent key.accepted.p_prime key.accepted.q_prime key.distinct r
  have hlog : (c : ZMod (key.modulus * key.modulus)) ^ key.lambda =
      1 + (m * key.lambda : ℤ) * key.modulus := by
    rw [hu.2.2, ← Units.val_pow_eq_pow_val, blinded_pow_exponent hblind hexp, encBase_zpow_val]
  exact key.paillierDec_of_plain_log hlog

end PaillierKey

end PPFramework
