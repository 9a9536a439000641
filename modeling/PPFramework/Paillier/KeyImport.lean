import PPFramework.Paillier.SignedDec

/-!
Key pairs as hexadecimal strings. An exported pair is imported as it was. The import of
a private key reads `λ` from the string and computes the rest from the public key, so
any number can be imported; the pair decrypts exactly for the multiples of `λ` that are
prime to the modulus.

That nothing else works rests on the rounding in decryption: an `n`-th power that is
taken for an encryption of zero lies in `[1, n]` after exponentiation, and so do its
powers, which is possible for one only.
-/

namespace PPFramework
open Gmp BlindedPower

def paillierPrvkeyToHex (prv : PaillierPrvkey) : List UInt8 :=
  mpzGetStr16 prv.lambda

/-- The number that `mpz_init_set_str` leaves, zero when the string is none. -/
def importedLambda (str : List UInt8) : ℤ :=
  (mpzSetStr16 str).getD 0

def paillierPrvkeyFromHex (str : List UInt8) (pub : PaillierPubkey) : Option PaillierPrvkey :=
  completePrvkey (importedLambda str) pub

theorem pubkey_hex_round_trip (d : KeygenDraw) :
    paillierPubkeyFromHex (paillierPubkeyToHex d.pub) = d.pub := by
  have hbits : Int32.ofInt (mpzSizeinbase2 d.modulus) = d.modulusbits := by
    rw [d.sizeinbase_modulus, Int32.ofInt_toInt]
  change paillierPubkeyFromHex (mpzGetStr16 d.modulus) = d.pub
  rw [paillierPubkeyFromHex, mpzSetStr16_getStr16, Option.getD_some, hbits]
  rfl

theorem keypair_hex_round_trip (d : KeygenDraw) :
    paillierPubkeyFromHex (paillierPubkeyToHex d.pub) = d.pub ∧
      paillierPrvkeyFromHex (paillierPrvkeyToHex d.prv)
        (paillierPubkeyFromHex (paillierPubkeyToHex d.pub)) = some d.prv := by
  have hpub := pubkey_hex_round_trip d
  refine ⟨hpub, ?_⟩
  rw [hpub, paillierPrvkeyFromHex, importedLambda, paillierPrvkeyToHex, mpzSetStr16_getStr16,
    Option.getD_some, d.prv_lambda, d.completePrvkey_eq]

namespace KeygenDraw

variable (d : KeygenDraw)

/-- Any number is imported; one that is prime to the modulus gets its inverse. -/
theorem exists_completePrvkey (L : ℤ) : ∃ x : ℤ, completePrvkey L d.pub = some ⟨L, x⟩ ∧
    (Int.gcd L d.modulus = 1 → (x : ZMod d.modulus) * L = 1) := by
  obtain ⟨u, hu, _, _, hres⟩ := mpzPowm_unit d.pub_hasModulus.nPlusone_cast L
  rw [encBase_zpow_val] at hres
  rw [← d.pub_hasModulus.nSquared_cast] at hu
  obtain ⟨k, hk, hkcast⟩ := exists_mpzDiv_of_log d.modulus_pos hres
  rw [← d.pub_hasModulus.n_eq] at hk
  refine ⟨(mpzInvert k d.pub.n).getD k, ?_, ?_⟩
  · simp only [completePrvkey, hu, hk, Option.bind_eq_bind, Option.bind_some]
  · intro hgcd
    have hunit : IsUnit (L : ZMod d.modulus) := by
      rw [ZMod.coe_int_isUnit_iff_isCoprime, isCoprime_comm]
      exact Int.isCoprime_iff_gcd_eq_one.mpr hgcd
    obtain ⟨l, hl⟩ := hunit
    obtain ⟨x, hx, _, _, hxcast⟩ := mpzInvert_unit (a := k) (u := l) (by rw [hkcast, hl])
    rw [d.pub_hasModulus.n_eq, hx, Option.getD_some, hxcast, ← hl, Units.inv_mul]

/-- Decryption with an arbitrary exponent, on a unit. -/
theorem exists_paillierDec_zpow {c : ℤ} {u : (ZMod (d.modulus * d.modulus))ˣ}
    (hu : (c : ZMod (d.modulus * d.modulus)) = u) (L x : ℤ) :
    ∃ w k : ℤ, IsResidue (d.modulus * d.modulus)
        ((u ^ L : (ZMod (d.modulus * d.modulus))ˣ) : ZMod _) w ∧
      mpzDiv (w - 1) d.modulus = some k ∧
      paillierDec d.pub ⟨L, x⟩ c = some (k * x % d.modulus) := by
  have hpos : (d.modulus : ℤ) ≠ 0 := Int.natCast_ne_zero.mpr d.modulus_pos.ne'
  obtain ⟨w, hw, hres⟩ := mpzPowm_unit hu L
  refine ⟨w, (w - 1).fdiv d.modulus, hres, if_neg hpos, ?_⟩
  rw [← d.pub_hasModulus.nSquared_cast] at hw
  have hn : d.pub.n = d.modulus := rfl
  simp only [paillierDec, hw, hn, mpzDiv, mpzMod, if_neg hpos, Option.bind_eq_bind,
    Option.bind_some]

end KeygenDraw

namespace PaillierKey

variable (key : PaillierKey)

/-- A private key read from a string decrypts. -/
def Decrypts (prv : PaillierPrvkey) : Prop :=
  ∀ m c : ℤ, ValidEnc key.modulus m c →
    paillierDec key.pub prv c = some (m % key.modulus)

theorem decrypts_of_dvd {L x : ℤ} (hL : (key.lambda : ℤ) ∣ L)
    (hx : (x : ZMod key.modulus) * L = 1) : key.Decrypts ⟨L, x⟩ := by
  intro m c hc
  obtain ⟨u, hu, s, rfl⟩ := (validEnc_iff m c).mp hc
  obtain ⟨w, k, hw, hk, hdec⟩ := key.exists_paillierDec_zpow hu.2.2 L x
  obtain ⟨t, rfl⟩ := hL
  have hexp : s ^ (key.modulus * key.lambda) = 1 :=
    TwoPrime.unit_pow_exponent key.accepted.p_prime key.accepted.q_prime key.distinct s
  have hkill : (s ^ key.modulus) ^ (key.lambda * t : ℤ) = 1 := by
    rw [← zpow_natCast s key.modulus, ← zpow_mul, ← mul_assoc, ← Nat.cast_mul, zpow_mul,
      zpow_natCast, hexp, one_zpow]
  have hlog : (w : ZMod (key.modulus * key.modulus)) =
      1 + (m * (key.lambda * t) : ℤ) * key.modulus := by
    rw [hw.2.2, mul_zpow, hkill, mul_one, ← zpow_mul, encBase_zpow_val]
  obtain ⟨k', hk', hcast⟩ := exists_mpzDiv_of_log key.modulus_pos hlog
  obtain rfl : k = k' := Option.some.inj (hk.symm.trans hk')
  rw [hdec]
  congr 1
  apply (ZMod.intCast_eq_intCast_iff' _ _ _).mp
  push_cast at hx hcast ⊢
  rw [hcast]
  linear_combination (m : ZMod key.modulus) * hx

/-- The encryption `1 + n` of one shows that the imported number is invertible. -/
theorem gcd_of_decrypts {L x : ℤ} (h : key.Decrypts ⟨L, x⟩) : Int.gcd L key.modulus = 1 := by
  obtain ⟨c, hc, henc⟩ := paillierEncWith_valid key.pub_hasModulus 1
    (Nat.coprime_one_left key.modulus)
  obtain ⟨c', hc', hres⟩ := paillierEncWith_residue key.pub_hasModulus 1 1
  obtain rfl : c = c' := Option.some.inj (hc.symm.trans hc')
  rw [Nat.cast_one, one_pow, mul_one] at hres
  obtain ⟨w, k, hw, hk, hdec⟩ := key.exists_paillierDec_zpow hres.2.2 L x
  have hlog : (w : ZMod (key.modulus * key.modulus)) = 1 + (1 * L : ℤ) * key.modulus := by
    rw [hw.2.2, ← zpow_mul, encBase_zpow_val]
  obtain ⟨k', hk', hcast⟩ := exists_mpzDiv_of_log key.modulus_pos hlog
  obtain rfl : k = k' := Option.some.inj (hk.symm.trans hk')
  have hone := (ZMod.intCast_eq_intCast_iff' _ _ _).mpr
    (Option.some.inj (hdec.symm.trans (h 1 c henc)))
  rw [Int.cast_mul, hcast, one_mul, Int.cast_one] at hone
  exact coprime_of_unit (u := Units.mkOfMulEqOne _ _ hone) rfl

/-- An `n`-th power is an encryption of zero, and decrypts to it only if exponentiation
leaves at most `n`. -/
theorem val_le_of_decrypts {L x : ℤ} (h : key.Decrypts ⟨L, x⟩)
    (hx : (x : ZMod key.modulus) * L = 1) (s : (ZMod (key.modulus * key.modulus))ˣ) :
    (((s ^ key.modulus) ^ L : (ZMod (key.modulus * key.modulus))ˣ) :
      ZMod (key.modulus * key.modulus)).val ≤ key.modulus := by
  have hpos : (0 : ℤ) < key.modulus := Int.natCast_pos.mpr key.modulus_pos
  have hc := isResidue_val ((s ^ key.modulus : (ZMod (key.modulus * key.modulus))ˣ) :
    ZMod (key.modulus * key.modulus))
  have henc : ValidEnc key.modulus 0 _ :=
    (validEnc_iff 0 _).mpr ⟨_, hc, s, by rw [zpow_zero, one_mul]⟩
  obtain ⟨w, k, hw, hk, hdec⟩ := key.exists_paillierDec_zpow hc.2.2 L x
  have hzero : ((k * x : ℤ) : ZMod key.modulus) = (0 : ℤ) :=
    (ZMod.intCast_eq_intCast_iff' _ _ _).mpr (Option.some.inj (hdec.symm.trans (h 0 _ henc)))
  have hk0 : (k : ZMod key.modulus) = 0 := by
    push_cast at hzero
    linear_combination (L : ZMod key.modulus) * hzero - k * hx
  rw [mpzDiv, if_neg hpos.ne', Int.fdiv_eq_ediv_of_nonneg _ hpos.le, Option.some.injEq] at hk
  have hval := isResidue_unique (isResidue_val _) hw
  rw [← Int.ofNat_le, hval]
  have hlt := hw.2.1
  rw [Nat.cast_mul] at hlt
  by_cases hw0 : w ≤ 0
  · exact hw0.trans hpos.le
  · have hk_nonneg : 0 ≤ k := hk ▸ Int.ediv_nonneg (by omega) hpos.le
    have hk_lt : k < key.modulus := hk ▸ Int.ediv_lt_of_lt_mul hpos (by omega)
    have hk_zero := Int.eq_zero_of_dvd_of_nonneg_of_lt hk_nonneg hk_lt
      ((ZMod.intCast_zmod_eq_zero_iff_dvd _ _).mp hk0)
    have hfloor := Int.lt_mul_ediv_self_add (x := w - 1) hpos
    rw [hk, hk_zero, mul_zero, zero_add] at hfloor
    omega

theorem unit_zpow_of_decrypts {L x : ℤ} (h : key.Decrypts ⟨L, x⟩)
    (hx : (x : ZMod key.modulus) * L = 1) (s : (ZMod (key.modulus * key.modulus))ˣ) :
    s ^ (key.modulus * L : ℤ) = 1 := by
  apply TwoPrime.eq_one_of_powers_le (lt_of_lt_of_le (by decide) key.nine_le_modulus)
  intro j
  have hswap : (s ^ (key.modulus * L : ℤ)) ^ j = ((s ^ j) ^ key.modulus) ^ L := by
    rw [← zpow_natCast, ← zpow_mul, ← zpow_natCast (s ^ j), ← zpow_natCast s j, ← zpow_mul,
      ← zpow_mul]
    congr 1
    ring
  rw [hswap]
  exact key.val_le_of_decrypts h hx (s ^ j)

theorem lambda_dvd_of_decrypts {L x : ℤ} (h : key.Decrypts ⟨L, x⟩)
    (hx : (x : ZMod key.modulus) * L = 1) : (key.lambda : ℤ) ∣ L := by
  have hkill := key.unit_zpow_of_decrypts h hx
  -- the factor `n` of the exponent is prime to `λ`
  have hpred {a : ℕ} (ha : a.Prime) (hdvd : a ∣ key.modulus) (hlcm : a - 1 ∣ key.lambda) :
      ((a - 1 : ℕ) : ℤ) ∣ L := by
    have hmul := TwoPrime.pred_dvd_of_zpow ha (hdvd.mul_right key.modulus) hkill
    have hcop : (a - 1).Coprime key.modulus := key.lambda_coprime.coprime_dvd_left hlcm
    exact (Nat.isCoprime_iff_coprime.mpr hcop).dvd_of_dvd_mul_left hmul
  have hp := hpred key.accepted.p_prime (Nat.dvd_mul_right _ _) (Nat.dvd_lcm_left _ _)
  have hq := hpred key.accepted.q_prime (Nat.dvd_mul_left _ _) (Nat.dvd_lcm_right _ _)
  rw [Int.natCast_dvd] at hp hq ⊢
  exact Nat.lcm_dvd hp hq

end PaillierKey

/-- A string gives a private key that decrypts every encryption exactly when its number
is a multiple of `λ` that is prime to the modulus. -/
theorem imported_key_decrypts_iff (key : PaillierKey) (str : List UInt8) :
    ∃ prv, paillierPrvkeyFromHex str key.pub = some prv ∧
      (key.Decrypts prv ↔ (key.lambda : ℤ) ∣ importedLambda str ∧
        Int.gcd (importedLambda str) key.modulus = 1) := by
  obtain ⟨x, hprv, hinv⟩ := key.exists_completePrvkey (importedLambda str)
  refine ⟨_, hprv, ?_⟩
  constructor
  · intro h
    have hgcd := key.gcd_of_decrypts h
    exact ⟨key.lambda_dvd_of_decrypts h (hinv hgcd), hgcd⟩
  · intro ⟨hdvd, hgcd⟩
    exact key.decrypts_of_dvd hdvd (hinv hgcd)

end PPFramework
