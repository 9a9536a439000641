import Mathlib.Algebra.Order.BigOperators.Group.Finset
import Mathlib.Analysis.Complex.ExponentialBounds
import Mathlib.NumberTheory.Chebyshev
import Mathlib.Tactic.NormNum.Prime

/-!
Primes near the upper end of an interval, by Chebyshev's method: the quotient
`(30n)! n! / ((15n)! (10n)! (6n)!)` bounds `ψ` from both sides, closely enough to put
a prime between `3N/4` and `N` for every large `N`.
-/

namespace PrimeGap
open Finset Real Chebyshev
open ArithmeticFunction hiding log
open scoped Nat

/-- How often a divisor `d` with `N / d = k` counts in the quotient. -/
def weight (k : ℕ) : ℤ :=
  k - (k / 2 : ℕ) - (k / 3 : ℕ) - (k / 5 : ℕ) + (k / 30 : ℕ)

theorem weight_nonneg (k : ℕ) : 0 ≤ weight k := by
  simp only [weight]
  omega

theorem weight_le_one (k : ℕ) : weight k ≤ 1 := by
  simp only [weight]
  omega

theorem weight_eq_one {k : ℕ} (hk : 0 < k) (hk' : k < 6) : weight k = 1 := by
  simp only [weight]
  omega

theorem log_factorial_eq_sum_log (N : ℕ) : log (N ! : ℝ) = ∑ d ∈ Ioc 0 N, log (d : ℝ) := by
  induction N with
  | zero => simp
  | succ N ih =>
      rw [Finset.sum_Ioc_succ_top (Nat.zero_le N), ← ih, Nat.factorial_succ, Nat.cast_mul,
        log_mul (Nat.cast_ne_zero.mpr N.succ_ne_zero) (Nat.cast_ne_zero.mpr N.factorial_ne_zero),
        add_comm]

theorem log_factorial_eq_sum (N : ℕ) :
    log (N ! : ℝ) = ∑ d ∈ Ioc 0 N, Λ d * ((N / d : ℕ) : ℝ) := by
  rw [← sum_Ioc_mul_zeta_eq_sum, vonMangoldt_mul_zeta, log_factorial_eq_sum_log]
  rfl

theorem log_factorial_div (N a : ℕ) :
    log ((N / a)! : ℝ) = ∑ d ∈ Ioc 0 N, Λ d * ((N / d / a : ℕ) : ℝ) := by
  rw [log_factorial_eq_sum]
  have hsub : Ioc 0 (N / a) ⊆ Ioc 0 N := Ioc_subset_Ioc_right (Nat.div_le_self N a)
  rw [← sum_subset hsub]
  · apply sum_congr rfl
    intro d _
    rw [Nat.div_div_eq_div_mul, Nat.div_div_eq_div_mul, mul_comm a d]
  · intro d hd hd'
    have hzero : N / d / a = 0 := by
      rw [Nat.div_div_eq_div_mul, mul_comm d a, ← Nat.div_div_eq_div_mul]
      apply Nat.div_eq_of_lt
      simp only [mem_Ioc, not_and, not_le] at hd hd'
      exact hd' hd.1
    rw [hzero, Nat.cast_zero, mul_zero]

/-- The logarithm of the quotient of factorials. -/
noncomputable def logQuotient (N : ℕ) : ℝ :=
  log (N ! : ℝ) - log ((N / 2)! : ℝ) - log ((N / 3)! : ℝ) - log ((N / 5)! : ℝ) +
    log ((N / 30)! : ℝ)

theorem logQuotient_eq_sum (N : ℕ) :
    logQuotient N = ∑ d ∈ Ioc 0 N, Λ d * (weight (N / d) : ℝ) := by
  rw [logQuotient, log_factorial_eq_sum N, log_factorial_div N 2, log_factorial_div N 3,
    log_factorial_div N 5, log_factorial_div N 30, ← sum_sub_distrib, ← sum_sub_distrib,
    ← sum_sub_distrib, ← sum_add_distrib]
  apply sum_congr rfl
  intro d _
  simp only [weight, Int.cast_add, Int.cast_sub, Int.cast_natCast]
  ring

theorem psi_natCast (N : ℕ) : ψ N = ∑ d ∈ Ioc 0 N, Λ d := by
  rw [psi, Nat.floor_natCast]

theorem logQuotient_le_psi (N : ℕ) : logQuotient N ≤ ψ N := by
  rw [logQuotient_eq_sum, psi_natCast]
  apply sum_le_sum
  intro d _
  have hw : (weight (N / d) : ℝ) ≤ 1 := by exact_mod_cast weight_le_one (N / d)
  simpa using mul_le_mul_of_nonneg_left hw vonMangoldt_nonneg

theorem psi_sub_le_logQuotient (N : ℕ) : ψ N - ψ (N / 6 : ℕ) ≤ logQuotient N := by
  rw [logQuotient_eq_sum, psi_natCast, psi_natCast, sub_le_iff_le_add]
  have hsub : Ioc 0 (N / 6) ⊆ Ioc 0 N := Ioc_subset_Ioc_right (Nat.div_le_self N 6)
  rw [← sum_sdiff hsub]
  gcongr ?_ + _
  -- on the divisors above `N / 6` every weight is one
  calc ∑ d ∈ Ioc 0 N \ Ioc 0 (N / 6), Λ d
      = ∑ d ∈ Ioc 0 N \ Ioc 0 (N / 6), Λ d * (weight (N / d) : ℝ) := by
        apply sum_congr rfl
        intro d hd
        simp only [mem_sdiff, mem_Ioc, not_and, not_le] at hd
        obtain ⟨⟨hpos, hle⟩, hgt⟩ := hd
        have hone := weight_eq_one (Nat.div_pos hle hpos)
          ((Nat.div_lt_iff_lt_mul hpos).mpr (by have := hgt hpos; omega))
        rw [hone, Int.cast_one, mul_one]
    _ ≤ ∑ d ∈ Ioc 0 N, Λ d * (weight (N / d) : ℝ) := by
        apply sum_le_sum_of_subset_of_nonneg sdiff_subset
        intro d _ _
        exact mul_nonneg vonMangoldt_nonneg (by exact_mod_cast weight_nonneg (N / d))

section Stirling

variable {n : ℕ}

theorem log_succ_sub_log_le (hn : 0 < n) : n * (log (n + 1 : ℝ) - log n) ≤ 1 := by
  have hpos : (0 : ℝ) < n := Nat.cast_pos.mpr hn
  have h := log_le_sub_one_of_pos (show (0 : ℝ) < (n + 1) / n by positivity)
  rw [log_div (by positivity) hpos.ne'] at h
  calc n * (log (n + 1 : ℝ) - log n) ≤ n * ((n + 1) / n - 1) :=
        mul_le_mul_of_nonneg_left h hpos.le
    _ = 1 := by field_simp; ring

theorem le_log_succ_sub_log (hn : 0 < n) : 1 ≤ (n + 1) * (log (n + 1 : ℝ) - log n) := by
  have hpos : (0 : ℝ) < n := Nat.cast_pos.mpr hn
  have h := log_le_sub_one_of_pos (show (0 : ℝ) < n / (n + 1) by positivity)
  rw [log_div hpos.ne' (by positivity)] at h
  calc (1 : ℝ) = (n + 1) * (1 - n / (n + 1)) := by field_simp; ring
    _ ≤ (n + 1) * (log (n + 1 : ℝ) - log n) :=
        mul_le_mul_of_nonneg_left (by linarith) (by positivity)

theorem le_log_factorial (hn : 0 < n) : n * log n - n ≤ log (n ! : ℝ) := by
  induction n, hn using Nat.le_induction with
  | base => norm_num
  | succ n hn ih =>
      have hstep := log_succ_sub_log_le hn
      rw [Nat.factorial_succ, Nat.cast_mul, log_mul (by positivity) (by positivity)]
      push_cast
      linarith

theorem log_factorial_le (hn : 0 < n) : log (n ! : ℝ) ≤ n * log n - n + log n + 1 := by
  induction n, hn using Nat.le_induction with
  | base => norm_num
  | succ n hn ih =>
      have hstep := le_log_succ_sub_log hn
      rw [Nat.factorial_succ, Nat.cast_mul, log_mul (by positivity) (by positivity)]
      push_cast
      linarith

end Stirling

/-- What the quotient gains for each step of thirty. -/
noncomputable def slope : ℝ :=
  14 * log 2 + 9 * log 3 + 5 * log 5

theorem logQuotient_thirty (n : ℕ) :
    logQuotient (30 * n) = log ((30 * n)! : ℝ) - log ((15 * n)! : ℝ) - log ((10 * n)! : ℝ) -
      log ((6 * n)! : ℝ) + log (n ! : ℝ) := by
  rw [logQuotient, show 30 * n / 2 = 15 * n by omega, show 30 * n / 3 = 10 * n by omega,
    show 30 * n / 5 = 6 * n by omega, show 30 * n / 30 = n by omega]

section Slope

variable {n : ℕ}

theorem log_multiples (hn : 0 < n) :
    log ((30 * n : ℕ) : ℝ) = log 2 + log 3 + log 5 + log n ∧
      log ((15 * n : ℕ) : ℝ) = log 3 + log 5 + log n ∧
      log ((10 * n : ℕ) : ℝ) = log 2 + log 5 + log n ∧
      log ((6 * n : ℕ) : ℝ) = log 2 + log 3 + log n := by
  have hne : (n : ℝ) ≠ 0 := Nat.cast_ne_zero.mpr hn.ne'
  refine ⟨?_, ?_, ?_, ?_⟩
  · rw [← log_mul, ← log_mul, ← log_mul] <;> norm_num [hne]
  · rw [← log_mul, ← log_mul] <;> norm_num [hne]
  · rw [← log_mul, ← log_mul] <;> norm_num [hne]
  · rw [← log_mul, ← log_mul] <;> norm_num [hne]

theorem logQuotient_le (hn : 0 < n) :
    logQuotient (30 * n) ≤ n * slope + 2 * log ((30 * n : ℕ) : ℝ) + 2 := by
  have h30 := log_factorial_le (n := 30 * n) (by omega)
  have h15 := le_log_factorial (n := 15 * n) (by omega)
  have h10 := le_log_factorial (n := 10 * n) (by omega)
  have h6 := le_log_factorial (n := 6 * n) (by omega)
  have h1 := log_factorial_le hn
  have hlog := log_pos (show (1 : ℝ) < 2 by norm_num)
  have hlog' := log_pos (show (1 : ℝ) < 3 by norm_num)
  have hlog'' := log_pos (show (1 : ℝ) < 5 by norm_num)
  obtain ⟨e30, e15, e10, e6⟩ := log_multiples hn
  rw [logQuotient_thirty, slope]
  rw [e30] at h30 ⊢
  rw [e15] at h15
  rw [e10] at h10
  rw [e6] at h6
  push_cast at *
  linarith

theorem le_logQuotient (hn : 0 < n) :
    n * slope - 3 * log ((30 * n : ℕ) : ℝ) - 3 ≤ logQuotient (30 * n) := by
  have h30 := le_log_factorial (n := 30 * n) (by omega)
  have h15 := log_factorial_le (n := 15 * n) (by omega)
  have h10 := log_factorial_le (n := 10 * n) (by omega)
  have h6 := log_factorial_le (n := 6 * n) (by omega)
  have h1 := le_log_factorial hn
  have hlog := log_pos (show (1 : ℝ) < 2 by norm_num)
  have hlog' := log_pos (show (1 : ℝ) < 3 by norm_num)
  have hlog'' := log_pos (show (1 : ℝ) < 5 by norm_num)
  obtain ⟨e30, e15, e10, e6⟩ := log_multiples hn
  rw [logQuotient_thirty, slope]
  rw [e30] at h30 ⊢
  rw [e15] at h15
  rw [e10] at h10
  rw [e6] at h6
  push_cast at *
  linarith

end Slope

/-- `2 ^ 3 < 3 ^ 2`, `3 ^ 5 < 2 ^ 8`, `2 ^ 2 < 5` and `5 ^ 3 < 2 ^ 7`. -/
theorem slope_bounds : 25.9 ≤ slope ∧ slope ≤ 27.9 := by
  have hlow := log_two_gt_d9
  have hhigh := log_two_lt_d9
  have h3 : 3 * log 2 ≤ 2 * log 3 := by
    have h := log_le_log (by norm_num) (show (2 ^ 3 : ℝ) ≤ 3 ^ 2 by norm_num)
    rwa [log_pow, log_pow] at h
  have h3' : 5 * log 3 ≤ 8 * log 2 := by
    have h := log_le_log (by norm_num) (show (3 ^ 5 : ℝ) ≤ 2 ^ 8 by norm_num)
    rwa [log_pow, log_pow] at h
  have h5 : 2 * log 2 ≤ log 5 := by
    have h := log_le_log (by norm_num) (show (2 ^ 2 : ℝ) ≤ 5 by norm_num)
    rwa [log_pow] at h
  have h5' : 3 * log 5 ≤ 7 * log 2 := by
    have h := log_le_log (by norm_num) (show (5 ^ 3 : ℝ) ≤ 2 ^ 7 by norm_num)
    rwa [log_pow, log_pow] at h
  rw [slope]
  constructor <;> linarith

theorem log_le_scaled {t : ℝ} (ht : 0 < t) (k : ℕ) : log t ≤ t / 2 ^ k + k * log 2 - 1 := by
  have h := log_le_sub_one_of_pos (show 0 < t / 2 ^ k by positivity)
  rw [log_div ht.ne' (by positivity), log_pow] at h
  linarith

theorem psi_thirty_le {n : ℕ} (hn : 0 < n) :
    ψ (30 * n : ℕ) ≤ ψ (5 * n : ℕ) + n * slope + 2 * log ((30 * n : ℕ) : ℝ) + 2 := by
  have hsub := psi_sub_le_logQuotient (30 * n)
  rw [show 30 * n / 6 = 5 * n by omega] at hsub
  have hquot := logQuotient_le hn
  linarith

/-- Descending from `N` to `N / 6`, the gains form a geometric series. -/
theorem psi_le_linear (N : ℕ) : ψ N ≤ slope / 24 * N + 18000 := by
  obtain ⟨hlow, hhigh⟩ := slope_bounds
  have htwo := log_two_lt_d9
  induction N using Nat.strong_induction_on with
  | h N ih =>
      by_cases hN : N < 3000
      · have hpsi := psi_le_const_mul_self (Nat.cast_nonneg N : (0 : ℝ) ≤ N)
        have hfour : log 4 = 2 * log 2 := by
          rw [show (4 : ℝ) = 2 ^ 2 by norm_num, log_pow]
          norm_num
        have hN' : (N : ℝ) ≤ 3000 := by exact_mod_cast hN.le
        have hpos : (0 : ℝ) ≤ slope / 24 * N := by positivity
        have hmul : (log 4 + 4) * N ≤ (log 4 + 4) * 3000 :=
          mul_le_mul_of_nonneg_left hN' (by positivity)
        linarith
      · obtain ⟨n, hn⟩ : ∃ n, n = N / 30 + 1 := ⟨_, rfl⟩
        have hmono : ψ N ≤ ψ (30 * n : ℕ) := psi_mono (by exact_mod_cast (by omega : N ≤ 30 * n))
        have hstep := psi_thirty_le (show 0 < n by omega)
        have hih := ih (5 * n) (by omega)
        have hlog := log_le_scaled (Nat.cast_pos.mpr (by omega : 0 < 30 * n)) 8
        have hle : (30 * n : ℝ) ≤ N + 30 := by exact_mod_cast (by omega : 30 * n ≤ N + 30)
        have hlarge : (3000 : ℝ) ≤ N := by exact_mod_cast not_lt.mp hN
        -- one thirtieth of the gain is left to pay for the logarithm
        have hgain : slope * n ≤ slope * ((N + 30) / 30) :=
          mul_le_mul_of_nonneg_left (by linarith) (by linarith)
        have hrest : 25.9 * (N / 720 - 29 / 24 : ℝ) ≤ slope * (N / 720 - 29 / 24) :=
          mul_le_mul_of_nonneg_right hlow (by linarith)
        push_cast at *
        linarith

theorem le_psi {N : ℕ} (hN : 30 ≤ N) :
    slope * ((N - 30) / 30) - 3 * log N - 3 ≤ ψ N := by
  obtain ⟨hlow, _⟩ := slope_bounds
  obtain ⟨n, hn⟩ : ∃ n, n = N / 30 := ⟨_, rfl⟩
  have hmono : ψ (30 * n : ℕ) ≤ ψ N := psi_mono (by exact_mod_cast (by omega : 30 * n ≤ N))
  have hquot := (le_logQuotient (show 0 < n by omega)).trans (logQuotient_le_psi (30 * n))
  have hlog : log ((30 * n : ℕ) : ℝ) ≤ log N :=
    log_le_log (by exact_mod_cast (by omega : 0 < 30 * n))
      (by exact_mod_cast (by omega : 30 * n ≤ N))
  have hle : (N : ℝ) - 30 ≤ 30 * n := by
    rw [sub_le_iff_le_add]
    exact_mod_cast (by omega : N ≤ 30 * n + 30)
  have hgain : slope * ((N - 30) / 30) ≤ slope * n :=
    mul_le_mul_of_nonneg_left (by linarith) (by linarith)
  linarith

theorem theta_three_quarters_lt {N : ℕ} (hN : 2 ^ 22 ≤ N) : θ (3 * N / 4 : ℕ) < θ N := by
  obtain ⟨hlow, hhigh⟩ := slope_bounds
  have htwo := log_two_lt_d9
  have hpos : (0 : ℝ) < N := Nat.cast_pos.mpr (by omega)
  have hupper := (theta_le_psi (3 * N / 4 : ℕ)).trans (psi_le_linear (3 * N / 4))
  have hlower := le_psi (show 30 ≤ N by omega)
  have hgap := psi_sub_theta_le (show (1 : ℝ) ≤ N by exact_mod_cast (by omega : 1 ≤ N))
  have hquarter : ((3 * N / 4 : ℕ) : ℝ) ≤ 3 * N / 4 := by
    have h := Nat.cast_div_le (α := ℝ) (m := 3 * N) (n := 4)
    push_cast at h
    exact h
  obtain ⟨s, hs⟩ : ∃ s, s = √(N : ℝ) := ⟨_, rfl⟩
  have hsq : s ^ 2 = N := by rw [hs, sq_sqrt hpos.le]
  have hs0 : 2048 ≤ s := by
    rw [hs]
    apply le_sqrt_of_sq_le
    exact_mod_cast (by omega : 2048 ^ 2 ≤ N)
  have hsN : s * 2048 ≤ N := by
    rw [← hsq, pow_two]
    exact mul_le_mul_of_nonneg_left hs0 (by linarith)
  have hlogN : log N = 2 * log s := by
    rw [← hsq, log_pow]
    norm_num
  have hlog := log_le_scaled (show 0 < s by linarith) 11
  have hlog' : log s ≤ s / 2048 + 6.7 := by
    norm_num at hlog ⊢
    linarith
  -- the error terms are small multiples of `N`, and the two slopes differ by more
  have herror : s * log s ≤ 7.7 * (N / 2048) := by
    calc s * log s ≤ s * (s / 2048 + 6.7) := mul_le_mul_of_nonneg_left hlog' (by linarith)
      _ = s ^ 2 / 2048 + 6.7 * s := by ring
      _ ≤ 7.7 * (N / 2048) := by rw [hsq]; linarith
  have hpart : slope / 24 * (3 * N / 4 : ℕ) ≤ slope / 24 * (3 * N / 4) :=
    mul_le_mul_of_nonneg_left hquarter (by linarith)
  have hmain : 25.9 * (N / 480 - 1 : ℝ) ≤ slope * (N / 480 - 1) :=
    mul_le_mul_of_nonneg_right hlow (by linarith)
  rw [hlogN, ← hs] at hgap
  rw [hlogN] at hlower
  linarith

theorem exists_prime_of_large {N : ℕ} (hN : 2 ^ 22 ≤ N) : ∃ p, p.Prime ∧ 3 * N < 4 * p ∧ p ≤ N := by
  by_contra hnone
  have hle (p : ℕ) (hp : p.Prime) (hpN : p ≤ N) : p ≤ 3 * N / 4 := by
    by_contra hgt
    exact hnone ⟨p, hp, by omega, hpN⟩
  apply (theta_three_quarters_lt hN).ne
  rw [theta, theta, Nat.floor_natCast, Nat.floor_natCast]
  congr 1
  ext p
  simp only [mem_filter, mem_Ioc]
  constructor
  · intro ⟨⟨hpos, hp3⟩, hp⟩
    exact ⟨⟨hpos, by omega⟩, hp⟩
  · intro ⟨⟨hpos, hpN⟩, hp⟩
    exact ⟨⟨hpos, hle p hp hpN⟩, hp⟩

theorem exists_prime_of_small {h : ℕ} (h2 : 2 ≤ h) (h22 : h < 22) :
    ∃ p, p.Prime ∧ 3 * 2 ^ h ≤ 4 * p ∧ p ≤ 2 ^ h := by
  interval_cases h
  · exact ⟨3, by norm_num⟩
  · exact ⟨7, by norm_num⟩
  · exact ⟨13, by norm_num⟩
  · exact ⟨31, by norm_num⟩
  · exact ⟨61, by norm_num⟩
  · exact ⟨127, by norm_num⟩
  · exact ⟨251, by norm_num⟩
  · exact ⟨509, by norm_num⟩
  · exact ⟨1021, by norm_num⟩
  · exact ⟨2039, by norm_num⟩
  · exact ⟨4093, by norm_num⟩
  · exact ⟨8191, by norm_num⟩
  · exact ⟨16381, by norm_num⟩
  · exact ⟨32749, by norm_num⟩
  · exact ⟨65521, by norm_num⟩
  · exact ⟨131071, by norm_num⟩
  · exact ⟨262139, by norm_num⟩
  · exact ⟨524287, by norm_num⟩
  · exact ⟨1048573, by norm_num⟩
  · exact ⟨2097143, by norm_num⟩

/-- From four on, the last quarter of a power of two ends with a prime. -/
theorem exists_prime_last_quarter {h : ℕ} (h2 : 2 ≤ h) :
    ∃ p, p.Prime ∧ 3 * 2 ^ h ≤ 4 * p ∧ p < 2 ^ h := by
  have hle : ∃ p, p.Prime ∧ 3 * 2 ^ h ≤ 4 * p ∧ p ≤ 2 ^ h := by
    by_cases h22 : h < 22
    · exact exists_prime_of_small h2 h22
    · have hlarge : 2 ^ 22 ≤ 2 ^ h := Nat.pow_le_pow_right (by decide) (not_lt.mp h22)
      obtain ⟨p, hp, hlow, hhigh⟩ := exists_prime_of_large hlarge
      exact ⟨p, hp, hlow.le, hhigh⟩
  obtain ⟨p, hp, hlow, hhigh⟩ := hle
  refine ⟨p, hp, hlow, lt_of_le_of_ne hhigh ?_⟩
  rintro rfl
  exact Nat.Prime.not_prime_pow h2 hp

end PrimeGap
