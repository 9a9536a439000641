import PPFramework.Paillier.Operators

/-!
Signed decryption. Its comment asks for negative values above `n / 2`; the code
tests the bit length of the plaintext and then uses the result of a three-way
comparison as a truth value, so plaintexts below `n / 2` that are long enough pass
both tests and come out negative.
-/

namespace PPFramework
open Gmp

def centred (n m : ℤ) : ℤ :=
  if m ≤ n / 2 then m else m - n

/-- The plaintexts below `n / 2` that the bit-length test lets through. -/
def SignLost (n m : ℤ) : Prop :=
  2 ^ (mpzSizeinbase2 (n / 2) - 2) ≤ m ∧ m < n / 2

instance (n m : ℤ) : Decidable (SignLost n m) :=
  inferInstanceAs (Decidable (_ ∧ _))

theorem emod_of_centred {n v : ℤ} (hlow : -((n - 1) / 2) ≤ v) (hhigh : v ≤ (n - 1) / 2)
    (hn : 0 < n) : centred n (v % n) = v := by
  simp only [centred]
  by_cases hv : 0 ≤ v
  · rw [Int.emod_eq_of_lt hv (by omega), if_pos (by omega)]
  · have hmod : v % n = v + n := by
      rw [← Int.add_emod_right, Int.emod_eq_of_lt (by omega) (by omega)]
    rw [hmod, if_neg (by omega), add_sub_cancel_right]

theorem signLost_emod {n v : ℤ} (hlow : -((n - 1) / 2) ≤ v) (hhigh : v ≤ (n - 1) / 2)
    (hn : 0 < n) : SignLost n (v % n) ↔ SignLost n v := by
  by_cases hv : 0 ≤ v
  · rw [Int.emod_eq_of_lt hv (by omega)]
  · have hmod : v % n = v + n := by
      rw [← Int.add_emod_right, Int.emod_eq_of_lt (by omega) (by omega)]
    have hpow : (0 : ℤ) < 2 ^ (mpzSizeinbase2 (n / 2) - 2) := by positivity
    simp only [SignLost, hmod]
    omega

/-- The two tests of `dec`, for a modulus that is not tiny. -/
theorem sign_verdict_iff {n m : ℤ} (hn : 9 ≤ n) (h0 : 0 ≤ m) :
    (mpzSizeinbase2 m ≥ mpzSizeinbase2 (n / 2) - 1 ∧ mpzCmp m (n / 2) ≠ 0) ↔
      SignLost n m ∨ n / 2 < m := by
  have hlen : 2 < mpzSizeinbase2 (n / 2) :=
    (lt_mpzSizeinbase2_iff (by omega) (by decide)).mpr (by omega)
  obtain ⟨k, hk⟩ : ∃ k, mpzSizeinbase2 (n / 2) = k + 3 := ⟨_, (Nat.sub_add_cancel hlen).symm⟩
  -- the length test is a comparison with a power of two below `n / 2`
  have hprefilter : mpzSizeinbase2 m ≥ mpzSizeinbase2 (n / 2) - 1 ↔ 2 ^ (k + 1) ≤ m := by
    rw [hk]
    exact lt_mpzSizeinbase2_iff h0 (Nat.succ_pos k)
  have hhalf : 2 ^ (k + 1) ≤ n / 2 := by
    have h : (2 : ℤ) ^ (k + 2) ≤ n / 2 :=
      (lt_mpzSizeinbase2_iff (by omega) (Nat.succ_pos _)).mp (by omega)
    have hpos : (0 : ℤ) < 2 ^ (k + 1) := by positivity
    rw [pow_succ] at h
    omega
  have hcmp : mpzCmp m (n / 2) ≠ 0 ↔ m ≠ n / 2 := by
    simp only [mpzCmp]
    split <;> [skip; split] <;> omega
  rw [hprefilter, hcmp, SignLost, hk]
  change _ ∧ _ ↔ (2 ^ (k + 1) ≤ m ∧ m < n / 2) ∨ n / 2 < m
  omega

namespace KeygenDraw

variable (d : KeygenDraw)

theorem halfN_eq : d.cryptosystem.halfN = d.modulus / 2 := by
  change (d.modulus : ℤ).tdiv (2 ^ 1) = d.modulus / 2
  rw [Int.tdiv_eq_ediv_of_nonneg (Int.natCast_nonneg _), pow_one]

theorem nine_le_modulus : 9 ≤ d.modulus := by
  have hp := d.accepted.p_prime.two_le
  have hq := d.accepted.q_prime.two_le
  have hp' := d.p_ne_two
  have hq' := d.q_ne_two
  exact Nat.mul_le_mul (show 3 ≤ d.p by omega) (show 3 ≤ d.q by omega)

theorem dec_signed {c m : ℤ} (hm : 0 ≤ m) (h : paillierDec d.pub d.prv c = some m) :
    d.cryptosystem.dec c true =
      some (if SignLost d.modulus m ∨ d.modulus / 2 < m then m - d.modulus else m) := by
  have hverdict := sign_verdict_iff (n := d.modulus) (by exact_mod_cast d.nine_le_modulus) hm
  change (paillierDec d.pub d.prv c).bind _ = _
  rw [h, Option.bind_some]
  simp only [Bool.true_and, bne_iff_ne, decide_eq_true_eq, Bool.and_eq_true, halfN_eq, hverdict]
  exact (apply_ite some _ _ _).symm

theorem dec_signed_centred_iff {c m : ℤ} (h0 : 0 ≤ m)
    (h : paillierDec d.pub d.prv c = some m) :
    d.cryptosystem.dec c true = some (centred d.modulus m) ↔ ¬ SignLost d.modulus m := by
  have hpos := d.modulus_pos
  rw [d.dec_signed h0 h, Option.some.injEq, centred]
  by_cases hlost : SignLost d.modulus m
  · have hlt := hlost.2
    rw [if_pos (Or.inl hlost), if_pos hlt.le]
    simp only [hlost, not_true_eq_false, iff_false]
    omega
  · simp only [hlost, false_or, not_false_eq_true, iff_true]
    by_cases hlt : m ≤ d.modulus / 2
    · rw [if_pos hlt, if_neg (not_lt.mpr hlt)]
    · rw [if_neg hlt, if_pos (not_le.mp hlt)]

theorem emod_of_dec_signed {c m v : ℤ} (h0 : 0 ≤ m) (hm : m < d.modulus)
    (h : paillierDec d.pub d.prv c = some m) (hv : d.cryptosystem.dec c true = some v) :
    m = v % d.modulus := by
  rw [d.dec_signed h0 h, Option.some.injEq] at hv
  rw [← hv]
  split
  · rw [Int.sub_emod, Int.emod_self, sub_zero, Int.emod_emod, Int.emod_eq_of_lt h0 hm]
  · rw [Int.emod_eq_of_lt h0 hm]

theorem dec_signed_enc_iff {v : ℤ} (hlow : -(((d.modulus : ℤ) - 1) / 2) ≤ v)
    (hhigh : v ≤ ((d.modulus : ℤ) - 1) / 2) {r : ℕ} (hr : r.Coprime d.modulus) {c : ℤ}
    (hc : paillierEncWith d.pub v r = some c) :
    d.cryptosystem.dec c true = some v ↔ d.Unblinds r ∧ ¬ SignLost d.modulus v := by
  have hpos : (0 : ℤ) < d.modulus := Int.natCast_pos.mpr d.modulus_pos
  have hcentred (h : paillierDec d.pub d.prv c = some (v % d.modulus)) :
      d.cryptosystem.dec c true = some v ↔ ¬ SignLost d.modulus v := by
    have h' := d.dec_signed_centred_iff (Int.emod_nonneg v hpos.ne') h
    rwa [emod_of_centred hlow hhigh hpos, signLost_emod hlow hhigh hpos] at h'
  rw [← d.paillierDec_enc_iff hr hc]
  constructor
  · intro hv
    obtain ⟨m, h0, hm, hdec⟩ := d.exists_paillierDec hr hc
    obtain rfl := d.emod_of_dec_signed h0 hm hdec hv
    exact ⟨hdec, (hcentred hdec).mp hv⟩
  · intro ⟨hdec, hlost⟩
    exact (hcentred hdec).mpr hlost

end KeygenDraw

/-- Both forms of the requirement, each with the inputs on which it holds. -/
theorem signed_dec_centred_iff (d : KeygenDraw) :
    (∀ (v : ℤ) (r : ℕ), -(((d.modulus : ℤ) - 1) / 2) ≤ v → v ≤ ((d.modulus : ℤ) - 1) / 2 →
      r.Coprime d.modulus → ∃ c, d.cryptosystem.enc v r = some c ∧
        (d.cryptosystem.dec c true = some v ↔ d.Unblinds r ∧ ¬ SignLost d.modulus v)) ∧
    (d.p ≠ d.q → (∀ r : ℕ, r.Coprime d.modulus → d.Unblinds r) ∧
      ∀ m c : ℤ, 0 ≤ m → m < d.modulus → ValidEnc d.modulus m c →
        d.cryptosystem.dec c false = some m) ∧
    ∀ m c : ℤ, 0 ≤ m → m < d.modulus → d.cryptosystem.dec c false = some m →
      (d.cryptosystem.dec c true = some (centred d.modulus m) ↔ ¬ SignLost d.modulus m) := by
  refine ⟨?_, fun hpq => ⟨fun r hr => d.unblinds_of_distinct hpq hr, ?_⟩, ?_⟩
  · intro v r hlow hhigh hr
    obtain ⟨c, hc, _⟩ := paillierEncWith_valid d.pub_hasModulus v hr
    exact ⟨c, hc, d.dec_signed_enc_iff hlow hhigh hr hc⟩
  · intro m c h0 hm henc
    have hdec := PaillierKey.paillierDec_valid ⟨d, hpq⟩ henc
    rw [Int.emod_eq_of_lt h0 hm] at hdec
    exact (dec_unsigned _ _).trans hdec
  · intro m c h0 _ hdec
    exact d.dec_signed_centred_iff h0 ((dec_unsigned _ _).symm.trans hdec)

theorem signed_dec_centred_iff_sample :
    ∃ c, sampleKey.cryptosystem.enc (-3) 2 = some c ∧
      sampleKey.cryptosystem.dec c true = some (-3) := by
  obtain ⟨henc, hkey, _⟩ := signed_dec_centred_iff sampleKey.toKeygenDraw
  obtain ⟨c, hc, hdec⟩ := henc (-3) 2 (by decide) (by decide) (by decide)
  exact ⟨c, hc, hdec.mpr ⟨(hkey sampleKey.distinct).1 2 (by decide), by decide⟩⟩

/-- Encrypting 8 and decrypting it signed gives `8 - 35`. -/
theorem signed_dec_of_eight : ∃ c, sampleKey.cryptosystem.enc 8 1 = some c ∧
    sampleKey.cryptosystem.dec c true = some (-27) ∧ 8 ≤ ((sampleKey.modulus : ℤ) - 1) / 2 :=
  ⟨36 ^ 8 % 1225, by decide +kernel⟩

end PPFramework
