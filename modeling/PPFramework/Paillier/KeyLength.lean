import PPFramework.Arith.PrimeGap
import PPFramework.Paillier.Cryptosystem

/-!
The key lengths for which key generation can finish. The inner loops draw values of
half the length, rounded down, and the outer loop asks for a product of the full
length: an odd length is out of reach, and every even one from four on is reached by
a prime in the last quarter of the range, taken twice.
-/

namespace PPFramework
open Gmp

theorem testBit_of_range {a i : ℕ} (hlow : 2 ^ i ≤ a) (hhigh : a < 2 ^ (i + 1)) :
    a.testBit i = true := by
  obtain ⟨r, rfl⟩ := Nat.exists_eq_add_of_le hlow
  have hr : r < 2 ^ i := by
    rw [pow_succ] at hhigh
    omega
  rw [Nat.testBit_two_pow_add_eq, Nat.testBit_lt_two_pow hr, Bool.not_false]

/-- One prime in the last quarter serves as both factors. -/
theorem keygenAccepts_of_last_quarter {h p : ℕ} (h1 : 1 ≤ h) (h30 : h ≤ 2 ^ 30) (hp : p.Prime)
    (hlow : 3 * 2 ^ h ≤ 4 * p) (hhigh : p < 2 ^ h) : KeygenAccepts (2 * h) p p := by
  have hhalf : bitcnt ((2 * h : ℤ).tdiv 2) = h := by
    rw [Int.mul_tdiv_cancel_left _ (by decide), bitcnt]
    omega
  have htop : bitcnt (2 * h - 1) = 2 * h - 1 := by
    simp only [bitcnt]
    omega
  have hsquare : 2 ^ (2 * h) ≤ 2 * (p * p) := by
    have hmul := Nat.mul_le_mul hlow hlow
    rw [two_mul, pow_add]
    nlinarith
  have hlt : p * p < 2 ^ (2 * h) := by
    rw [two_mul, pow_add]
    exact Nat.mul_lt_mul'' hhigh hhigh
  obtain ⟨t, ht⟩ : ∃ t, 2 * h = t + 1 := ⟨2 * h - 1, by omega⟩
  refine ⟨?_, by rwa [hhalf], by rwa [hhalf], hp, hp, ?_⟩
  · rw [hhalf, mpzMaxBits]
    omega
  · rw [htop, ht, Nat.add_sub_cancel]
    rw [ht] at hsquare hlt
    exact testBit_of_range (by rw [pow_succ'] at hsquare; omega) hlt

theorem four_le_modulusbits (d : KeygenDraw) : 4 ≤ d.modulusbits.toInt := by
  obtain ⟨h, hk, hp, hq, hsize⟩ := d.exists_half
  have hp2 := d.accepted.p_prime.two_le
  have h2 : 2 ≤ h := by
    by_contra hlt
    have hpow : 2 ^ h ≤ 2 ^ 1 := Nat.pow_le_pow_right (by decide) (by omega)
    omega
  omega

theorem exists_draw_iff (keyLength : Int32) :
    (∃ d : KeygenDraw, d.modulusbits = keyLength) ↔
      4 ≤ keyLength.toInt ∧ 2 ∣ keyLength.toInt := by
  constructor
  · rintro ⟨d, rfl⟩
    obtain ⟨h, hk, _⟩ := d.exists_half
    exact ⟨four_le_modulusbits d, ⟨h, hk⟩⟩
  · intro ⟨h4, hdvd⟩
    obtain ⟨k, hk⟩ := hdvd
    have hbound := (int32_bounds keyLength).2
    lift k to ℕ using (by omega)
    obtain ⟨p, hp, hlow, hhigh⟩ := PrimeGap.exists_prime_last_quarter (show 2 ≤ k by omega)
    have hacc := keygenAccepts_of_last_quarter (by omega) (by omega) hp hlow hhigh
    rw [← hk] at hacc
    exact ⟨⟨keyLength, p, p, hacc⟩, rfl⟩

/-- Some primes end the loops, and some tape ends the constructor, exactly for the even
lengths from four on. -/
theorem keygen_can_finish_iff (keyLength : Int32) :
    ((∃ p q, KeygenAccepts keyLength.toInt p q) ↔
      4 ≤ keyLength.toInt ∧ 2 ∣ keyLength.toInt) ∧
    ((∃ tape cs, PaillierCryptosystemPrivateKey.new keyLength tape = some cs) ↔
      4 ≤ keyLength.toInt ∧ 2 ∣ keyLength.toInt) := by
  rw [← exists_draw_iff]
  constructor
  · constructor
    · intro ⟨p, q, hacc⟩
      exact ⟨⟨keyLength, p, q, hacc⟩, rfl⟩
    · rintro ⟨d, rfl⟩
      exact ⟨d.p, d.q, d.accepted⟩
  · constructor
    · intro ⟨tape, cs, hnew⟩
      obtain ⟨d, hd, _⟩ := (keyOfTape_iff keyLength cs).mp ⟨tape, hnew⟩
      exact ⟨d, hd⟩
    · rintro ⟨d, rfl⟩
      obtain ⟨tape, hnew⟩ := (keyOfTape_iff d.modulusbits d.cryptosystem).mpr ⟨d, rfl, rfl⟩
      exact ⟨tape, _, hnew⟩

/-- Two factors of three bits have no product of seven. -/
theorem length_seven_never_ends :
    (¬ ∃ p q, KeygenAccepts (7 : Int32).toInt p q) ∧
      ∀ tape, PaillierCryptosystemPrivateKey.new 7 tape = none := by
  have hdraw : ¬ ∃ d : KeygenDraw, d.modulusbits = 7 := by
    rw [exists_draw_iff]
    decide
  refine ⟨fun ⟨p, q, hacc⟩ => hdraw ⟨⟨7, p, q, hacc⟩, rfl⟩, ?_⟩
  intro tape
  rw [Option.eq_none_iff_forall_not_mem]
  intro cs hnew
  obtain ⟨d, hd, _⟩ := (keyOfTape_iff 7 cs).mp ⟨tape, hnew⟩
  exact hdraw ⟨d, hd⟩

end PPFramework
