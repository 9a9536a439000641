import PPFramework.Paillier.Comparison

/-!
Conversions of private-key ciphers to strings and machine integers. Both start from
the signed plaintext; the string keeps all of it and the `long` its low bits, so
strings tell any two plaintexts apart and comparisons of ciphers do not.
-/

namespace PPFramework
open Gmp

/-- `s << '{' << p << '}'`. -/
def braced (p : ℤ) : List UInt8 :=
  123 :: (mpzGetStr10 p ++ [125])

theorem braced_inj {p p' : ℤ} : braced p = braced p' ↔ p = p' := by
  constructor
  · intro h
    rw [braced, braced, List.cons.injEq, List.append_cancel_right_eq] at h
    exact mpzGetStr10_injective h.2
  · rintro rfl
    rfl

/-- `operator std::string`, which also prints the cipher. -/
def PaillierCryptosystemPrivateKey.toString (cs : PaillierCryptosystemPrivateKey) (c : ℤ) :
    Option (List UInt8) := do
  let p ← cs.dec c true
  some (braced p)

/-- What signed decryption makes of a plaintext. -/
def signedValue (n m : ℤ) : ℤ :=
  if Wrapped n m then m - n else m

theorem signedValue_inj {n m m' : ℤ} (h0 : 0 ≤ m) (hm : m < n) (h0' : 0 ≤ m') (hm' : m' < n) :
    signedValue n m = signedValue n m' ↔ m = m' := by
  constructor
  · intro h
    simp only [signedValue] at h
    split at h <;> split at h <;> omega
  · rintro rfl
    rfl

theorem signedValue_eq_iff {n v : ℤ} (hlow : -((n - 1) / 2) ≤ v) (hhigh : v ≤ (n - 1) / 2)
    (hn : 0 < n) : signedValue n (v % n) = v ↔ ¬ SignLost n v := by
  rw [← signLost_emod hlow hhigh hn]
  have hcentred := emod_of_centred hlow hhigh hn
  rw [centred] at hcentred
  by_cases hlost : SignLost n (v % n)
  · have hlt := hlost.2
    rw [if_pos hlt.le] at hcentred
    rw [signedValue, if_pos (show Wrapped n (v % n) from Or.inl hlost)]
    simp only [hlost, not_true_eq_false, iff_false]
    omega
  · have hiff : Wrapped n (v % n) ↔ ¬ v % n ≤ n / 2 := by
      rw [not_le]
      exact or_iff_right hlost
    simp only [hlost, not_false_eq_true, iff_true, signedValue, hiff, ite_not]
    exact hcentred

theorem mpzGetSi_eq_self_iff (a : ℤ) : mpzGetSi a = a ↔ -2 ^ 63 ≤ a ∧ a < 2 ^ 63 := by
  simp only [mpzGetSi]
  split <;> omega

section Key

variable {key : PaillierKey}

theorem dec_signedValue {v c : ℤ} (h : ValidEnc key.modulus v c) :
    key.cryptosystem.dec c true = some (signedValue key.modulus (v % key.modulus)) := by
  have hpos : (key.modulus : ℤ) ≠ 0 := Int.natCast_ne_zero.mpr key.modulus_pos.ne'
  exact key.dec_signed (Int.emod_nonneg v hpos) (key.paillierDec_valid h)

end Key

theorem mpzGetSi_signed_iff {v s : ℤ} (hs : s = v ∨ s < 0 ∧ 0 ≤ v) :
    mpzGetSi s = v ↔ s = v ∧ -2 ^ 63 ≤ v ∧ v < 2 ^ 63 := by
  constructor
  · intro h
    have hsame : s = v := by
      cases hs with
      | inl hs => exact hs
      | inr hs =>
          rw [mpzGetSi, if_neg (not_le.mpr hs.1)] at h
          omega
    exact ⟨hsame, (mpzGetSi_eq_self_iff v).mp (hsame ▸ h)⟩
  · rintro ⟨rfl, hword⟩
    exact (mpzGetSi_eq_self_iff s).mpr hword

/-- When the sign is lost, a non-negative number has become a negative one. -/
theorem signedValue_or {n v : ℤ} (hlow : -((n - 1) / 2) ≤ v) (hhigh : v ≤ (n - 1) / 2)
    (hn : 0 < n) : signedValue n (v % n) = v ∨ signedValue n (v % n) < 0 ∧ 0 ≤ v := by
  by_cases hlost : SignLost n v
  · have hpow : (0 : ℤ) < 2 ^ (mpzSizeinbase2 (n / 2) - 2) := by positivity
    have h0 : 0 ≤ v := hpow.le.trans hlost.1
    have hlt : v < n := by omega
    right
    rw [signedValue, Int.emod_eq_of_lt h0 hlt, if_pos (show Wrapped n v from Or.inl hlost)]
    omega
  · exact Or.inl ((signedValue_eq_iff hlow hhigh hn).mpr hlost)

/-- The bytes of `{-3}`. -/
example : braced (-3) = [123, 45, 51, 125] := by decide

end PPFramework
