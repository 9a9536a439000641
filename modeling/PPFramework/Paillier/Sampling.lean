import PPFramework.Machine.Rejection
import PPFramework.Paillier.Keygen

/-!
The sampling loops of `paillier.c` in terms of what they read. Key generation nests
two rejection loops in a third, which starts both afresh when the product is too
short; its result is the first accepted pair of consecutive primes on the tape.
-/

namespace PPFramework
open Gmp Rejection

/-- What `mpz_urandomb` makes of a tape; beyond the allocation limit, nothing. -/
def urandombs (nbits : ℕ) (tape : List ℕ) : List ℕ :=
  tape.filterMap (mpzUrandomb nbits)

theorem urandombs_of_le {nbits : ℕ} (hw : nbits ≤ mpzMaxBits) (tape : List ℕ) :
    urandombs nbits tape = tape.map (· % 2 ^ nbits) := by
  rw [urandombs, ← List.filterMap_eq_map]
  congr 1
  funext x
  rw [mpzUrandomb, if_pos hw]
  rfl

theorem urandombs_of_lt {nbits : ℕ} (hw : mpzMaxBits < nbits) (tape : List ℕ) :
    urandombs nbits tape = [] := by
  rw [urandombs, List.filterMap_eq_nil_iff]
  intro x _
  rw [mpzUrandomb, if_neg (not_le.mpr hw)]

section Loops

variable {nbits : ℕ}

theorem drawPrime_eq (hw : nbits ≤ mpzMaxBits) (tape : List ℕ) :
    drawPrime nbits tape =
      (drawUntil (fun x => mpzProbabPrime (x % 2 ^ nbits)) tape).map
        fun r => (r.1 % 2 ^ nbits, r.2) := by
  induction tape with
  | nil => rfl
  | cons x tape ih =>
      cases hx : mpzProbabPrime (x % 2 ^ nbits) with
      | true => simp [drawPrime, drawUntil, mpzUrandomb, hw, hx]
      | false => simpa [drawPrime, drawUntil, mpzUrandomb, hw, hx] using ih

theorem drawPrime_wide (hw : mpzMaxBits < nbits) (tape : List ℕ) : drawPrime nbits tape = none := by
  cases h : drawPrime nbits tape with
  | none => rfl
  | some r => exact absurd (drawPrime_eq_some h).1 (not_le.mpr hw)

theorem drawPrimes_eq {modulusbits : ℤ} (hw : bitcnt (modulusbits.tdiv 2) = nbits)
    (hle : nbits ≤ mpzMaxBits) (fuel : ℕ) (tape : List ℕ) :
    drawPrimes modulusbits fuel tape =
      (drawPairUntil (fun x => mpzProbabPrime (x % 2 ^ nbits))
        (fun x y => mpzTstbit (((x % 2 ^ nbits) * (y % 2 ^ nbits) : ℕ) : ℤ)
          (bitcnt (modulusbits - 1))) fuel tape).map
        fun r => (r.1 % 2 ^ nbits, r.2 % 2 ^ nbits) := by
  induction fuel generalizing tape with
  | zero => rfl
  | succ fuel ih =>
      simp only [drawPrimes, drawPairUntil, hw, drawPrime_eq hle, Option.bind_eq_bind]
      cases drawUntil (fun x => mpzProbabPrime (x % 2 ^ nbits)) tape with
      | none => rfl
      | some first =>
          simp only [Option.map_some, Option.bind_some]
          cases drawUntil (fun x => mpzProbabPrime (x % 2 ^ nbits)) first.2 with
          | none => rfl
          | some second =>
              simp only [Option.map_some, Option.bind_some]
              split
              · rfl
              · exact ih second.2

end Loops

/-- The pairs of consecutive primes that the inner loops of key generation leave. -/
def primePairs (modulusbits : ℤ) (tape : List ℕ) : List (ℕ × ℕ) :=
  pairUp ((urandombs (bitcnt (modulusbits.tdiv 2)) tape).filter mpzProbabPrime)

def topBitSet (modulusbits : ℤ) (pq : ℕ × ℕ) : Bool :=
  mpzTstbit ((pq.1 * pq.2 : ℕ) : ℤ) (bitcnt (modulusbits - 1))

theorem drawPrimes_find? (modulusbits : ℤ) (tape : List ℕ) :
    drawPrimes modulusbits (tape.length + 1) tape =
      (primePairs modulusbits tape).find? (topBitSet modulusbits) := by
  obtain ⟨nbits, hw⟩ : ∃ nbits, bitcnt (modulusbits.tdiv 2) = nbits := ⟨_, rfl⟩
  rw [primePairs, hw]
  cases Nat.lt_or_ge mpzMaxBits nbits with
  | inl hlt =>
      rw [urandombs_of_lt hlt]
      simp only [drawPrimes, hw, drawPrime_wide hlt]
      rfl
  | inr hle =>
      rw [drawPrimes_eq hw hle, drawPairUntil_find? (Nat.lt_succ_self _), urandombs_of_le hle,
        List.filter_map, pairUp_map, List.find?_map]
      rfl

theorem blindingLoop_find? (pub : PaillierPubkey) (tape : List ℕ) :
    (blindingLoop pub tape).map Prod.fst =
      (urandombs (bitcnt pub.bits.toInt) tape).find? fun r : ℕ => decide ((r : ℤ) < pub.n) := by
  induction tape with
  | nil => rfl
  | cons x tape ih =>
      cases hx : mpzUrandomb (bitcnt pub.bits.toInt) x with
      | none =>
          have hw : mpzMaxBits < bitcnt pub.bits.toInt := by
            simp only [mpzUrandomb] at hx
            split at hx
            · cases hx
            · next hw => exact not_le.mp hw
          simp only [blindingLoop, hx, urandombs_of_lt hw, Option.bind_eq_bind, Option.bind_none]
          rfl
      | some r =>
          simp only [urandombs, List.filterMap_cons, hx, List.find?_cons, blindingLoop,
            Option.bind_eq_bind, Option.bind_some]
          by_cases hr : (r : ℤ) < pub.n
          · have hcmp : ¬ mpzCmp r pub.n ≥ 0 := by simp only [mpzCmp, if_pos hr]; decide
            rw [if_neg hcmp, decide_eq_true hr]
            rfl
          · have hcmp : mpzCmp r pub.n ≥ 0 := by
              simp only [mpzCmp, if_neg hr]
              split <;> decide
            rw [if_pos hcmp, decide_eq_false hr]
            exact ih

/-- Encryption blinds with the first value below the modulus. -/
theorem paillierEnc_find? (pub : PaillierPubkey) (m : ℤ) (tape : List ℕ) :
    (paillierEnc pub m tape).map Prod.fst =
      ((urandombs (bitcnt pub.bits.toInt) tape).find? fun r : ℕ => decide ((r : ℤ) < pub.n)).bind
        (paillierEncWith pub m) := by
  rw [← blindingLoop_find?]
  simp only [paillierEnc, Option.bind_eq_bind]
  cases blindingLoop pub tape with
  | none => rfl
  | some r =>
      simp only [Option.bind_some, Option.map_some]
      cases paillierEncWith pub m r.1 with
      | none => rfl
      | some c => rfl

theorem primePairs_accepts {modulusbits : ℤ} {tape : List ℕ} {pq : ℕ × ℕ}
    (h : (primePairs modulusbits tape).find? (topBitSet modulusbits) = some pq) :
    KeygenAccepts modulusbits pq.1 pq.2 :=
  drawPrimes_accepts ((drawPrimes_find? modulusbits tape).trans h)

/-- Key generation makes its key from the first accepted pair of consecutive primes on the
tape, returns exactly when there is one, and never looks beyond it. -/
theorem keygen_first_accepted (modulusbits : Int32) (tape : List ℕ) :
    paillierKeygen modulusbits tape =
        ((primePairs modulusbits.toInt tape).find? (topBitSet modulusbits.toInt)).bind
          (fun pq => keyFromPrimes modulusbits pq.1 pq.2) ∧
      ((paillierKeygen modulusbits tape).isSome ↔
        ∃ pq ∈ primePairs modulusbits.toInt tape, topBitSet modulusbits.toInt pq) ∧
      ∀ more key, paillierKeygen modulusbits tape = some key →
        paillierKeygen modulusbits (tape ++ more) = some key := by
  have hspec (tape : List ℕ) : paillierKeygen modulusbits tape =
      ((primePairs modulusbits.toInt tape).find? (topBitSet modulusbits.toInt)).bind
        fun pq => keyFromPrimes modulusbits pq.1 pq.2 := by
    rw [← drawPrimes_find?]
    rfl
  refine ⟨hspec tape, ?_, ?_⟩
  · rw [hspec tape]
    constructor
    · intro h
      cases hfind : (primePairs modulusbits.toInt tape).find? (topBitSet modulusbits.toInt) with
      | none =>
          rw [hfind] at h
          cases h
      | some pq => exact ⟨pq, List.mem_of_find?_eq_some hfind, List.find?_some hfind⟩
    · intro ⟨pq, hmem, hbit⟩
      obtain ⟨first, hfirst⟩ := Option.isSome_iff_exists.mp
        (List.find?_isSome.mpr ⟨pq, hmem, hbit⟩)
      -- every accepted pair is a draw of a key, whose private part can be computed
      let d : KeygenDraw := ⟨modulusbits, first.1, first.2, primePairs_accepts hfirst⟩
      have hkey : keyFromPrimes modulusbits first.1 first.2 = some (d.pub, d.prv) :=
        d.keyFromPrimes_eq
      rw [hfirst, Option.bind_some, hkey]
      rfl
  · intro more key h
    rw [hspec tape] at h
    obtain ⟨pq, hfind, hkey⟩ := Option.bind_eq_some_iff.mp h
    have hmore : (primePairs modulusbits.toInt (tape ++ more)).find?
        (topBitSet modulusbits.toInt) = some pq := by
      rw [primePairs, urandombs, List.filterMap_append, List.filter_append]
      exact pairUp_append_find? _ hfind
    rw [hspec (tape ++ more), hmore, Option.bind_some, hkey]

end PPFramework
