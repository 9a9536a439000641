import Mathlib.Data.Set.Card
import PPFramework.Paillier.Blinding
import PPFramework.Paillier.FastRecrypt

/-!
Encryption as a bijection. Under a key with distinct primes every residue modulo
`n²` that is prime to `n` encrypts exactly one plaintext with exactly one factor
below `n`, and decryption says which plaintext. Two ciphers of one plaintext are
therefore linked by exactly one factor; which of these links the pool of `recrypt`
can realise depends on the products of its draws.

Everything rests on `λ` being prime to `n`: an element that `λ` kills is an `n`-th
power, and an `n`-th power modulo `n²` determines its root modulo `n`.
-/

namespace PPFramework
open Gmp BlindedPower PartialRun

namespace PaillierKey

variable (key : PaillierKey)

theorem modulus_coprime_lambda : key.modulus.Coprime key.lambda :=
  key.lambda_coprime.symm

theorem unit_pow_exponent (u : (ZMod (key.modulus * key.modulus))ˣ) :
    u ^ (key.modulus * key.lambda) = 1 :=
  TwoPrime.unit_pow_exponent key.accepted.p_prime key.accepted.q_prime key.distinct u

theorem exists_unit_of_gcd {c : ℤ} (hc : Int.gcd c key.modulus = 1) :
    ∃ u : (ZMod (key.modulus * key.modulus))ˣ, (c : ZMod (key.modulus * key.modulus)) = u := by
  have hcop : IsCoprime c key.modulus := Int.isCoprime_iff_gcd_eq_one.mpr hc
  have hsq : IsCoprime ((key.modulus * key.modulus : ℕ) : ℤ) c := by
    rw [Nat.cast_mul]
    exact (hcop.mul_right hcop).symm
  exact ⟨((ZMod.coe_int_isUnit_iff_isCoprime c _).mpr hsq).unit, rfl⟩

/-- Residues prime to the modulus have logarithms, encryptions or not. -/
theorem exists_log_of_unit (u : (ZMod (key.modulus * key.modulus))ˣ) :
    ∃ t : ℤ, (u : ZMod (key.modulus * key.modulus)) ^ key.lambda = 1 + t * key.modulus := by
  have hcop : (u : ZMod (key.modulus * key.modulus)).val.Coprime key.modulus :=
    Nat.Coprime.coprime_mul_right_right (ZMod.val_coe_unit_coprime u)
  have hone : (u : ZMod (key.modulus * key.modulus)).val ^ key.lambda ≡ 1 [MOD key.modulus] :=
    TwoPrime.pow_lcm_modEq_one key.accepted.p_prime key.accepted.q_prime key.distinct hcop
  obtain ⟨t, ht⟩ := Nat.modEq_iff_dvd.mp hone.symm
  refine ⟨t, ?_⟩
  have hcast := congrArg (Int.cast : ℤ → ZMod (key.modulus * key.modulus)) ht
  push_cast [ZMod.natCast_zmod_val] at hcast
  linear_combination hcast

theorem validEnc_of_dec {m c : ℤ} (h0 : 0 ≤ c) (hlt : c < (key.modulus * key.modulus : ℕ))
    (hgcd : Int.gcd c key.modulus = 1)
    (hdec : paillierDec key.pub key.prv c = some (m % key.modulus)) :
    ValidEnc key.modulus m c := by
  obtain ⟨u, hu⟩ := key.exists_unit_of_gcd hgcd
  obtain ⟨t, ht⟩ := key.exists_log_of_unit u
  have hlog : (c : ZMod (key.modulus * key.modulus)) ^ key.lambda = 1 + t * key.modulus := by
    rw [hu, ht]
  have hm : t * key.prv.x % key.modulus = m % key.modulus :=
    Option.some.inj ((key.paillierDec_of_log hlog).symm.trans hdec)
  have htm : t ≡ m * key.lambda [ZMOD key.modulus] := by
    have hx := (ZMod.intCast_eq_intCast_iff' _ _ key.modulus).mpr hm
    apply (ZMod.intCast_eq_intCast_iff _ _ _).mp
    push_cast at hx ⊢
    linear_combination (key.lambda : ZMod key.modulus) * hx - t * key.prv_x_mul_lambda
  refine (validEnc_iff m c).mpr ⟨u, ⟨h0, hlt, hu⟩, ?_⟩
  rw [blinded_iff_pow key.modulus_coprime_lambda key.unit_pow_exponent]
  apply Units.ext
  rw [Units.val_pow_eq_pow_val, ht, ← encBase_zpow_val, encBase_zpow_congr htm]

/-- Decryption decides the encryption relation: the encryptions of `m` are the residues
prime to the modulus that decrypt to it. -/
theorem validEnc_iff_dec (m c : ℤ) :
    ValidEnc key.modulus m c ↔
      0 ≤ c ∧ c < (key.modulus * key.modulus : ℕ) ∧ Int.gcd c key.modulus = 1 ∧
        key.cryptosystem.dec c false = some (m % key.modulus) := by
  constructor
  · intro h
    obtain ⟨h0, hlt⟩ := validEnc_range h
    obtain ⟨u, hu, _⟩ := (validEnc_iff m c).mp h
    have hsq := coprime_of_unit hu.2.2
    rw [Nat.cast_mul] at hsq
    exact ⟨h0, hlt, Int.gcd_eq_one_of_gcd_mul_right_eq_one_left hsq, dec_valid h⟩
  · intro ⟨h0, hlt, hgcd, hdec⟩
    exact key.validEnc_of_dec h0 hlt hgcd ((dec_unsigned _ _).symm.trans hdec)

theorem factor_unique {r r' : ℕ} (hr : r.Coprime key.modulus) (hr' : r'.Coprime key.modulus)
    (h : (r : ZMod (key.modulus * key.modulus)) ^ key.modulus =
      (r' : ZMod (key.modulus * key.modulus)) ^ key.modulus) : r ≡ r' [MOD key.modulus] := by
  have hsq : r ^ key.modulus ≡ r' ^ key.modulus [MOD key.modulus * key.modulus] := by
    rw [← ZMod.natCast_eq_natCast_iff]
    push_cast
    exact h
  have hkill : ∀ u : (ZMod key.modulus)ˣ, u ^ key.lambda = 1 :=
    TwoPrime.unit_pow_lcm key.accepted.p_prime key.accepted.q_prime key.distinct
  have hroot : ZMod.unitOfCoprime r hr = ZMod.unitOfCoprime r' hr' := by
    apply root_unique key.modulus_coprime_lambda hkill
    apply Units.ext
    have hmod := (ZMod.natCast_eq_natCast_iff _ _ _).mpr (hsq.of_mul_left key.modulus)
    simpa only [Nat.cast_pow, Units.val_pow_eq_pow_val, ZMod.coe_unitOfCoprime] using hmod
  apply (ZMod.natCast_eq_natCast_iff _ _ _).mp
  simpa only [ZMod.coe_unitOfCoprime] using congrArg Units.val hroot

/-- The blinding factor may be reduced modulo `n`. -/
theorem paillierEncWith_mod (m : ℤ) (r : ℕ) :
    paillierEncWith key.pub m (r % key.modulus) = paillierEncWith key.pub m r := by
  obtain ⟨c, hc, hres⟩ := paillierEncWith_residue key.pub_hasModulus m (r % key.modulus)
  obtain ⟨c', hc', hres'⟩ := paillierEncWith_residue key.pub_hasModulus m r
  rw [mod_pow_modulus] at hres
  rw [hc, hc', isResidue_unique hres hres']

theorem exists_factor {m c : ℤ} (h : ValidEnc key.modulus m c) :
    ∃ r < key.modulus, r.Coprime key.modulus ∧ paillierEncWith key.pub m r = some c := by
  obtain ⟨u, hu, s, rfl⟩ := (validEnc_iff m c).mp h
  have hs : ((s : ZMod (key.modulus * key.modulus)).val : ZMod (key.modulus * key.modulus)) = s :=
    ZMod.natCast_zmod_val _
  have hcop := coprime_of_eq_unit hs
  obtain ⟨c', hc', hres⟩ := paillierEncWith_residue key.pub_hasModulus m
    (s : ZMod (key.modulus * key.modulus)).val
  rw [hs, ← Units.val_pow_eq_pow_val, ← Units.val_mul] at hres
  refine ⟨_, Nat.mod_lt _ key.modulus_pos, (Nat.mod_modEq _ _).gcd_eq.trans hcop, ?_⟩
  rw [key.paillierEncWith_mod, hc', isResidue_unique hres hu]

end PaillierKey

section Links

variable {key : PaillierKey} {cs : PaillierCryptosystemBase}

/-- The interface's default re-encryption is the slow version. -/
theorem recrypt_eq_recryptSlow {n : ℕ} (hn : cs.pub.HasModulus n) (c : ℤ) (r : ℕ) :
    cs.additive.recrypt c r = cs.recryptSlow c r := by
  have := hn.neZero
  obtain ⟨z, hz, hres⟩ := paillierEncWith_residue hn 0 r
  obtain ⟨v, hv, hres'⟩ := poolValue_residue hn r
  rw [zpow_zero, Units.val_one, one_mul] at hres
  obtain rfl : z = v := isResidue_unique hres hres'
  have henc : cs.additive.enc 0 r = some z := hz
  rw [AdditiveInterface.recrypt, PaillierCryptosystemBase.recryptSlow, henc, hv]
  rfl

/-- A factor that takes the first cipher to the second. -/
structure Links (key : PaillierKey) (cs : PaillierCryptosystemBase) (c e : ℤ) (r : ℕ) : Prop where
  lt : r < key.modulus
  coprime : r.Coprime key.modulus
  recrypt : cs.recryptSlow c r = some e

theorem links_unique (hcs : cs.pub = key.pub) {m c e : ℤ} (hc : ValidEnc key.modulus m c)
    {r r' : ℕ} (h : Links key cs c e r) (h' : Links key cs c e r') : r' = r := by
  have hn : cs.pub.HasModulus key.modulus := hcs ▸ key.pub_hasModulus
  obtain ⟨u, hu, _⟩ := (validEnc_iff m c).mp hc
  obtain ⟨f, hf, hres⟩ := recryptSlow_residue hn c r
  obtain ⟨f', hf', hres'⟩ := recryptSlow_residue hn c r'
  obtain rfl : f = e := Option.some.inj (hf.symm.trans h.recrypt)
  obtain rfl : f' = f := Option.some.inj (hf'.symm.trans h'.recrypt)
  have hpow := hres'.2.2.symm.trans hres.2.2
  rw [hu.2.2] at hpow
  exact (key.factor_unique h'.coprime h.coprime ((Units.mul_right_inj u).mp hpow)).eq_of_lt_of_lt
    h'.lt h.lt

theorem exists_links (hcs : cs.pub = key.pub) {m c e : ℤ} (hc : ValidEnc key.modulus m c)
    (he : ValidEnc key.modulus m e) : ∃ r, Links key cs c e r := by
  have hn : cs.pub.HasModulus key.modulus := hcs ▸ key.pub_hasModulus
  obtain ⟨u, hu, s, rfl⟩ := (validEnc_iff m c).mp hc
  obtain ⟨u', hu', s', rfl⟩ := (validEnc_iff m e).mp he
  obtain ⟨r, hr⟩ : ∃ r : ℕ, (r : ZMod (key.modulus * key.modulus)) = (s' / s : (ZMod _)ˣ) :=
    ⟨_, ZMod.natCast_zmod_val _⟩
  obtain ⟨f, hf, hres⟩ := recryptSlow_residue hn c (r % key.modulus)
  have hquot : encBase key.modulus ^ m * s ^ key.modulus * (s' / s) ^ key.modulus =
      encBase key.modulus ^ m * s' ^ key.modulus := by
    rw [mul_assoc, ← mul_pow, mul_div_cancel]
  rw [mod_pow_modulus, hr, hu.2.2, ← Units.val_pow_eq_pow_val, ← Units.val_mul, hquot] at hres
  refine ⟨r % key.modulus, Nat.mod_lt _ key.modulus_pos, ?_, ?_⟩
  · exact (Nat.mod_modEq _ _).gcd_eq.trans (coprime_of_eq_unit hr)
  · rw [hf, isResidue_unique hres hu']

end Links

def samplePool : PaillierCryptosystemBase :=
  { sampleKey.cryptosystem.toPaillierCryptosystemBase with
    randomVals := poolOf sampleKey.modulus fun _ => 2 }

/-- How many numbers below the modulus a prime of the key divides. -/
theorem card_commonFactor (key : PaillierKey) :
    ((Finset.range key.modulus).filter fun r => ¬ NoCommonFactor key r).card =
      key.p + key.q - 1 := by
  have hcop : ((Finset.range key.modulus).filter fun r => NoCommonFactor key r).card =
      (key.p - 1) * (key.q - 1) := by
    rw [← Nat.totient_prime key.accepted.p_prime, ← Nat.totient_prime key.accepted.q_prime,
      ← Nat.totient_mul ((Nat.coprime_primes key.accepted.p_prime key.accepted.q_prime).mpr
        key.distinct), Nat.totient_eq_card_coprime]
    congr 1
    apply Finset.filter_congr
    intro r _
    rw [← coprime_iff_noCommonFactor, Nat.coprime_comm]
    rfl
  have hsplit := Finset.card_filter_add_card_filter_not (s := Finset.range key.modulus)
    fun r => NoCommonFactor key r
  rw [hcop, Finset.card_range] at hsplit
  generalize (Finset.filter (fun r => ¬ NoCommonFactor key r) _).card = k at hsplit ⊢
  have hn : key.modulus = key.p * key.q := rfl
  obtain ⟨a, ha⟩ := Nat.exists_eq_succ_of_ne_zero key.accepted.p_prime.ne_zero
  obtain ⟨b, hb⟩ := Nat.exists_eq_succ_of_ne_zero key.accepted.q_prime.ne_zero
  have hexpand : (a + 1) * (b + 1) = a * b + (a + b + 1) := by ring
  rw [hn, ha, hb, Nat.succ_sub_one, Nat.succ_sub_one, hexpand] at hsplit
  have hk := Nat.add_left_cancel hsplit
  omega

end PPFramework
