import Mathlib.NumberTheory.LucasPrimality
import Mathlib.Tactic.NormNum.Prime
import Mathlib.Tactic.ReduceModChar
import PPFramework.Paillier.SignedDec

/-!
Comparison of private-key ciphers. The class has no `operator==`, so the operands are
converted to `long`: signed decryption, cut to the low 63 bits. What is lost on the
way is a multiple of `2 ^ 63`, and the sign test of `dec` adds the side it took.
-/

namespace PPFramework
open Gmp

namespace PaillierCryptosystemPrivateKey

variable (cs : PaillierCryptosystemPrivateKey)

/-- `operator long`. -/
def toLong (c : ℤ) : Option ℤ := do
  let p ← cs.dec c true
  some (mpzGetSi p)

/-- `c == d`, the built-in comparison after both conversions. -/
def cipherEq (c d : ℤ) : Option Bool := do
  let a ← cs.toLong c
  let b ← cs.toLong d
  some (a == b)

def cipherNe (c d : ℤ) : Option Bool := do
  let a ← cs.toLong c
  let b ← cs.toLong d
  some (a != b)

end PaillierCryptosystemPrivateKey

/-- The plaintexts that come out negative. -/
def Wrapped (n m : ℤ) : Prop :=
  SignLost n m ∨ n / 2 < m

instance (n m : ℤ) : Decidable (Wrapped n m) :=
  inferInstanceAs (Decidable (_ ∨ _))

/-- The plaintexts that no comparison of ciphers tells apart. -/
def Alike (n m m' : ℤ) : Prop :=
  (Wrapped n m ↔ Wrapped n m') ∧ m ≡ m' [ZMOD 2 ^ 63]

instance (n m m' : ℤ) : Decidable (Alike n m m') :=
  inferInstanceAs (Decidable (_ ∧ _))

theorem getSi_wrapped_eq_iff {n m m' : ℤ} (h0 : 0 ≤ m) (hm : m < n) (h0' : 0 ≤ m')
    (hm' : m' < n) :
    mpzGetSi (if Wrapped n m then m - n else m) =
      mpzGetSi (if Wrapped n m' then m' - n else m') ↔ Alike n m m' := by
  rw [mpzGetSi_eq_iff, Alike]
  by_cases hw : Wrapped n m
  · by_cases hw' : Wrapped n m'
    · rw [if_pos hw, if_pos hw']
      simp only [hw, hw', true_and, Int.ModEq]
      omega
    · rw [if_pos hw, if_neg hw']
      simp only [hw, hw', iff_false, not_true_eq_false, false_and, not_and]
      omega
  · by_cases hw' : Wrapped n m'
    · rw [if_neg hw, if_pos hw']
      simp only [hw, hw', false_iff, not_true_eq_false, false_and, iff_false, not_and]
      omega
    · rw [if_neg hw, if_neg hw']
      simp only [hw, hw', h0, h0', true_and]

namespace KeygenDraw

variable (d : KeygenDraw)

theorem toLong_eq {c m : ℤ} (h0 : 0 ≤ m) (h : paillierDec d.pub d.prv c = some m) :
    d.cryptosystem.toLong c =
      some (mpzGetSi (if Wrapped d.modulus m then m - d.modulus else m)) := by
  have hdec : d.cryptosystem.dec c true =
      some (if Wrapped d.modulus m then m - d.modulus else m) := d.dec_signed h0 h
  rw [PaillierCryptosystemPrivateKey.toLong, hdec, Option.bind_eq_bind, Option.bind_some]

/-- Both operators in terms of the plaintexts. -/
theorem cipherEq_spec {c e m m' : ℤ} (h0 : 0 ≤ m) (hm : m < d.modulus) (h0' : 0 ≤ m')
    (hm' : m' < d.modulus) (hc : paillierDec d.pub d.prv c = some m)
    (he : paillierDec d.pub d.prv e = some m') :
    ∃ b : Bool, d.cryptosystem.cipherEq c e = some b ∧ d.cryptosystem.cipherNe c e = some !b ∧
      (b = true ↔ Alike d.modulus m m') := by
  have hlong := d.toLong_eq h0 hc
  have hlong' := d.toLong_eq h0' he
  have hiff := getSi_wrapped_eq_iff h0 hm h0' hm'
  generalize mpzGetSi (if Wrapped d.modulus m then m - d.modulus else m) = a at hlong hiff
  generalize mpzGetSi (if Wrapped d.modulus m' then m' - d.modulus else m') = b at hlong' hiff
  refine ⟨a == b, ?_, ?_, beq_iff_eq.trans hiff⟩
  · simp only [PaillierCryptosystemPrivateKey.cipherEq, hlong, hlong', Option.bind_eq_bind,
      Option.bind_some]
  · simp only [PaillierCryptosystemPrivateKey.cipherNe, hlong, hlong', Option.bind_eq_bind,
      Option.bind_some]
    rfl

theorem exists_plaintext {v c : ℤ} (h : ValidEnc d.modulus v c) :
    ∃ m : ℤ, 0 ≤ m ∧ m < d.modulus ∧ paillierDec d.pub d.prv c = some m ∧
      (d.p ≠ d.q → m = v % d.modulus) := by
  obtain ⟨t, ht⟩ := d.exists_log h
  have hdec := d.paillierDec_of_log ht
  obtain ⟨h0, hlt, _⟩ := isResidue_emod (M := d.modulus) (t * d.prv.x)
  refine ⟨_, h0, hlt, hdec, ?_⟩
  intro hpq
  exact Option.some.inj (hdec.symm.trans (PaillierKey.paillierDec_valid ⟨d, hpq⟩ h))

end KeygenDraw

/-- Equality of ciphers decides equality of plaintexts exactly on the pairs that are
equal or not alike. -/
theorem cipher_eq_correct_iff (d : KeygenDraw) (v w c e : ℤ) (hc : ValidEnc d.modulus v c)
    (he : ValidEnc d.modulus w e) :
    ∃ m m' : ℤ, (0 ≤ m ∧ m < d.modulus ∧ d.cryptosystem.dec c false = some m) ∧
      (0 ≤ m' ∧ m' < d.modulus ∧ d.cryptosystem.dec e false = some m') ∧
      (d.p ≠ d.q → m = v % d.modulus ∧ m' = w % d.modulus) ∧
      ∃ b : Bool, d.cryptosystem.cipherEq c e = some b ∧ d.cryptosystem.cipherNe c e = some !b ∧
        ((b = true ↔ m = m') ↔ m = m' ∨ ¬ Alike d.modulus m m') := by
  obtain ⟨m, h0, hm, hdec, hv⟩ := d.exists_plaintext hc
  obtain ⟨m', h0', hm', hdec', hw⟩ := d.exists_plaintext he
  obtain ⟨b, heq, hne, hb⟩ := d.cipherEq_spec h0 hm h0' hm' hdec hdec'
  refine ⟨m, m', ⟨h0, hm, (dec_unsigned _ _).trans hdec⟩,
    ⟨h0', hm', (dec_unsigned _ _).trans hdec'⟩, fun hpq => ⟨hv hpq, hw hpq⟩, b, heq, hne, ?_⟩
  rw [hb]
  by_cases hsame : m = m'
  · subst hsame
    simp only [Alike, Int.ModEq.refl, and_self, true_or]
  · simp only [hsame, iff_false, false_or]

theorem cipher_eq_correct_iff_sample :
    ∃ b : Bool, sampleKey.cryptosystem.cipherEq 36 71 = some b ∧ b = false := by
  have hone : ValidEnc sampleKey.modulus 1 36 := ⟨1, by decide, by decide⟩
  have htwo : ValidEnc sampleKey.modulus 2 71 := ⟨1, by decide, by decide⟩
  obtain ⟨m, m', _, _, hplain, b, heq, _, hb⟩ :=
    cipher_eq_correct_iff sampleKey.toKeygenDraw 1 2 36 71 hone htwo
  obtain ⟨rfl, rfl⟩ := hplain sampleKey.distinct
  refine ⟨b, heq, ?_⟩
  have hdiffer := hb.mpr (Or.inr (by decide))
  exact Bool.eq_false_iff.mpr fun htrue => absurd (hdiffer.mp htrue) (by decide)

/-- Lucas's test for a number whose predecessor has two prime factors. -/
theorem prime_of_lucas {p q i j : ℕ} (a : ZMod p) (hpred : p - 1 = 2 ^ i * q ^ j) (hq : q.Prime)
    (hone : a ^ (p - 1) = 1) (htwo : a ^ ((p - 1) / 2) ≠ 1) (hodd : a ^ ((p - 1) / q) ≠ 1) :
    p.Prime := by
  refine lucas_primality p a hone ?_
  intro s hs hdvd
  rw [hpred] at hdvd
  cases hs.dvd_mul.mp hdvd with
  | inl h =>
      rw [(Nat.prime_dvd_prime_iff_eq hs Nat.prime_two).mp (hs.dvd_of_dvd_pow h)]
      exact htwo
  | inr h =>
      rw [(Nat.prime_dvd_prime_iff_eq hs hq).mp (hs.dvd_of_dvd_pow h)]
      exact hodd

theorem prime_3221225473 : Nat.Prime 3221225473 := by
  apply prime_of_lucas (i := 30) (j := 1) 5 (by norm_num) Nat.prime_three
  · norm_num
    reduce_mod_char
  · norm_num
    reduce_mod_char
    decide
  · norm_num
    reduce_mod_char
    decide

theorem prime_4194304001 : Nat.Prime 4194304001 := by
  apply prime_of_lucas (i := 25) (j := 3) 3 (by norm_num) Nat.prime_five
  · norm_num
    reduce_mod_char
  · norm_num
    reduce_mod_char
    decide
  · norm_num
    reduce_mod_char
    decide

/-- A key of 64 bits whose modulus exceeds `2 ^ 63 + 2 ^ 61`. -/
def wordKey : PaillierKey where
  modulusbits := 64
  p := 3221225473
  q := 4194304001
  accepted := ⟨by decide, by decide, by decide, prime_3221225473, prime_4194304001,
    by decide +kernel⟩
  distinct := by decide

/-- With the blinding factor one, the cipher is linear in the plaintext. -/
theorem validEnc_linear {n : ℕ} (hn : 1 < n) {m : ℤ} (h0 : 0 ≤ m) (hm : m < n) :
    ValidEnc n m (1 + m * n) := by
  have : NeZero n := ⟨by omega⟩
  have hlt : (1 + m * n : ℤ) < (n * n : ℕ) := by
    push_cast
    have := Int.mul_le_mul_of_nonneg_right (show m ≤ n - 1 by omega) (Int.natCast_nonneg n)
    linarith [show (1 : ℤ) < n by exact_mod_cast hn]
  refine (validEnc_iff m _).mpr
    ⟨encBase n ^ m, ⟨by positivity, hlt, ?_⟩, 1, by rw [one_pow, mul_one]⟩
  rw [encBase_zpow_val]
  push_cast
  rfl

def lowCipher : ℤ := 1 + 2 ^ 61 * wordKey.modulus

def highCipher : ℤ := 1 + (2 ^ 61 + 2 ^ 63) * wordKey.modulus

/-- Two plaintexts that differ by `2 ^ 63` and are both turned negative: the ciphers
compare equal, and not unequal. -/
theorem cipher_eq_of_distinct_plaintexts :
    ValidEnc wordKey.modulus (2 ^ 61) lowCipher ∧
      ValidEnc wordKey.modulus (2 ^ 61 + 2 ^ 63) highCipher ∧
      wordKey.cryptosystem.dec lowCipher false = some (2 ^ 61) ∧
      wordKey.cryptosystem.dec highCipher false = some (2 ^ 61 + 2 ^ 63) ∧
      wordKey.cryptosystem.cipherEq lowCipher highCipher = some true ∧
      wordKey.cryptosystem.cipherNe lowCipher highCipher = some false := by
  have hn : wordKey.modulus = 3221225473 * 4194304001 := rfl
  have hone : 1 < wordKey.modulus := by rw [hn]; decide
  have hlow : (2 ^ 61 : ℤ) < wordKey.modulus := by rw [hn]; decide
  have hhigh : (2 ^ 61 + 2 ^ 63 : ℤ) < wordKey.modulus := by rw [hn]; decide
  have hc : ValidEnc wordKey.modulus (2 ^ 61) lowCipher := validEnc_linear hone (by decide) hlow
  have he : ValidEnc wordKey.modulus (2 ^ 61 + 2 ^ 63) highCipher :=
    validEnc_linear hone (by decide) hhigh
  have hdec := wordKey.paillierDec_valid hc
  have hdec' := wordKey.paillierDec_valid he
  rw [Int.emod_eq_of_lt (by decide) hlow] at hdec
  rw [Int.emod_eq_of_lt (by decide) hhigh] at hdec'
  obtain ⟨b, heq, hne, hb⟩ :=
    wordKey.cipherEq_spec (by decide) hlow (by decide) hhigh hdec hdec'
  obtain rfl : b = true := hb.mpr (by rw [hn]; decide +kernel)
  exact ⟨hc, he, (dec_unsigned _ _).trans hdec, (dec_unsigned _ _).trans hdec', heq, hne⟩

end PPFramework
