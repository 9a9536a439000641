import Mathlib.Data.Nat.Prime.Basic
import PPFramework.Gmp.Integer
import PPFramework.Gmp.Text

/-!
LibPaillier: the functions of `paillier.c` that the framework calls.

The random source is a tape of natural numbers. `mpz_urandomb` consumes one entry
and reduces it to the requested width, so every tape is a possible run and every
value below `2 ^ nbits` is a possible draw. A loop that rejects draws runs until
the tape is used up, where the model has no result. Seeding is not modelled.

`none` is otherwise an abort inside GMP. The primality test is assumed to accept
the primes and nothing else.
-/

namespace PPFramework
open Gmp

/-- `paillier_pubkey_t`. The two cached fields are filled in by `complete_pubkey`
wherever a key is built; the proofs record what it puts there. -/
structure PaillierPubkey where
  bits : Int32
  n : ℤ
  nSquared : ℤ
  nPlusone : ℤ
  nSquared_eq : nSquared = n * n
  nPlusone_eq : nPlusone = n + 1

structure PaillierPrvkey where
  lambda : ℤ
  x : ℤ
deriving DecidableEq

def completePubkey (bits : Int32) (n : ℤ) : PaillierPubkey where
  bits := bits
  n := n
  nSquared := n * n
  nPlusone := n + 1
  nSquared_eq := rfl
  nPlusone_eq := rfl

def completePrvkey (lambda : ℤ) (pub : PaillierPubkey) : Option PaillierPrvkey := do
  let x ← mpzPowm pub.nPlusone lambda pub.nSquared
  let x ← mpzDiv (x - 1) pub.n
  -- the return value of `mpz_invert` is ignored; without an inverse `x` stays as it was
  some ⟨lambda, (mpzInvert x pub.n).getD x⟩

/-- The conversion of an `int` argument to `mp_bitcnt_t`, an unsigned 64-bit type. -/
def bitcnt (i : ℤ) : ℕ :=
  (i % 2 ^ 64).toNat

def mpzProbabPrime (p : ℕ) : Bool :=
  p.Prime

/-- One of the two inner loops of `paillier_keygen`. -/
def drawPrime (nbits : ℕ) : List ℕ → Option (ℕ × List ℕ)
  | [] => none
  | x :: tape => do
      let p ← mpzUrandomb nbits x
      if mpzProbabPrime p then some (p, tape) else drawPrime nbits tape

/-- The outer loop, with the number of rounds bounded by `fuel`. -/
def drawPrimes (modulusbits : ℤ) : ℕ → List ℕ → Option (ℕ × ℕ)
  | 0, _ => none
  | fuel + 1, tape => do
      let (p, tape) ← drawPrime (bitcnt (modulusbits.tdiv 2)) tape
      let (q, tape) ← drawPrime (bitcnt (modulusbits.tdiv 2)) tape
      if mpzTstbit ((p * q : ℕ) : ℤ) (bitcnt (modulusbits - 1)) then some (p, q)
      else drawPrimes modulusbits fuel tape

/-- What `paillier_keygen` does once the loops have left `p` and `q`. -/
def keyFromPrimes (modulusbits : Int32) (p q : ℕ) : Option (PaillierPubkey × PaillierPrvkey) := do
  let pub := completePubkey modulusbits ((p * q : ℕ) : ℤ)
  let prv ← completePrvkey ((Nat.lcm (p - 1) (q - 1) : ℕ) : ℤ) pub
  some (pub, prv)

def paillierKeygen (modulusbits : Int32) (tape : List ℕ) :
    Option (PaillierPubkey × PaillierPrvkey) := do
  -- a round consumes at least two draws, so the tape's length bounds the number of rounds
  let (p, q) ← drawPrimes modulusbits.toInt (tape.length + 1) tape
  keyFromPrimes modulusbits p q

/-- The rejection loop `do mpz_urandomb(r, rand, bits); while (r >= n)`. -/
def blindingLoop (pub : PaillierPubkey) : List ℕ → Option (ℕ × List ℕ)
  | [] => none
  | x :: tape => do
      let r ← mpzUrandomb (bitcnt pub.bits.toInt) x
      if mpzCmp r pub.n ≥ 0 then blindingLoop pub tape else some (r, tape)

/-- `paillier_enc` after its loop has left `r`. -/
def paillierEncWith (pub : PaillierPubkey) (m : ℤ) (r : ℕ) : Option ℤ := do
  let c ← mpzPowm pub.nPlusone m pub.nSquared
  let x ← mpzPowm r pub.n pub.nSquared
  mpzMod (c * x) pub.nSquared

def paillierEnc (pub : PaillierPubkey) (m : ℤ) (tape : List ℕ) : Option (ℤ × List ℕ) := do
  let (r, tape) ← blindingLoop pub tape
  let c ← paillierEncWith pub m r
  some (c, tape)

def paillierDec (pub : PaillierPubkey) (prv : PaillierPrvkey) (c : ℤ) : Option ℤ := do
  let m ← mpzPowm c prv.lambda pub.nSquared
  let m ← mpzDiv (m - 1) pub.n
  mpzMod (m * prv.x) pub.n

def paillierMul (pub : PaillierPubkey) (ct0 ct1 : ℤ) : Option ℤ :=
  mpzMod (ct0 * ct1) pub.nSquared

def paillierExp (pub : PaillierPubkey) (ct pt : ℤ) : Option ℤ :=
  mpzPowm ct pt pub.nSquared

def paillierPubkeyToHex (pub : PaillierPubkey) : List UInt8 :=
  mpzGetStr16 pub.n

def paillierPubkeyFromHex (str : List UInt8) : PaillierPubkey :=
  -- a string that is no number leaves zero behind, and the return value is ignored
  let n := (mpzSetStr16 str).getD 0
  completePubkey (Int32.ofInt (mpzSizeinbase2 n)) n

/-- The values `p` and `q` with which the loops of `paillier_keygen` can end. -/
structure KeygenAccepts (modulusbits : ℤ) (p q : ℕ) : Prop where
  width : bitcnt (modulusbits.tdiv 2) ≤ mpzMaxBits
  p_lt : p < 2 ^ bitcnt (modulusbits.tdiv 2)
  q_lt : q < 2 ^ bitcnt (modulusbits.tdiv 2)
  p_prime : p.Prime
  q_prime : q.Prime
  topBit : mpzTstbit ((p * q : ℕ) : ℤ) (bitcnt (modulusbits - 1)) = true

/-- The values `r` with which the rejection loop can end. -/
structure BlindingAccepts (pub : PaillierPubkey) (r : ℕ) : Prop where
  width : bitcnt pub.bits.toInt ≤ mpzMaxBits
  lt_width : r < 2 ^ bitcnt pub.bits.toInt
  lt_n : (r : ℤ) < pub.n

theorem mpzUrandomb_eq_some {nbits x r : ℕ} (h : mpzUrandomb nbits x = some r) :
    nbits ≤ mpzMaxBits ∧ r < 2 ^ nbits := by
  simp only [mpzUrandomb] at h
  split at h
  · next hw =>
      cases h
      exact ⟨hw, Nat.mod_lt _ (Nat.two_pow_pos nbits)⟩
  · cases h

theorem mpzUrandomb_of_lt {nbits r : ℕ} (hw : nbits ≤ mpzMaxBits) (hr : r < 2 ^ nbits) :
    mpzUrandomb nbits r = some r := by
  rw [mpzUrandomb, if_pos hw, Nat.mod_eq_of_lt hr]

theorem drawPrime_eq_some {nbits : ℕ} {tape rest : List ℕ} {p : ℕ}
    (h : drawPrime nbits tape = some (p, rest)) :
    nbits ≤ mpzMaxBits ∧ p < 2 ^ nbits ∧ p.Prime := by
  induction tape with
  | nil => cases h
  | cons x tape ih =>
      simp only [drawPrime, Option.bind_eq_bind, Option.bind_eq_some_iff] at h
      obtain ⟨r, hr, h⟩ := h
      split at h
      · next hprime =>
          cases h
          obtain ⟨hw, hlt⟩ := mpzUrandomb_eq_some hr
          exact ⟨hw, hlt, of_decide_eq_true hprime⟩
      · exact ih h

theorem drawPrime_of_prime {nbits p : ℕ} (rest : List ℕ) (hw : nbits ≤ mpzMaxBits)
    (hlt : p < 2 ^ nbits) (hp : p.Prime) : drawPrime nbits (p :: rest) = some (p, rest) := by
  simp [drawPrime, mpzUrandomb_of_lt hw hlt, mpzProbabPrime, hp]

theorem drawPrimes_accepts {modulusbits : ℤ} {fuel : ℕ} {tape : List ℕ} {p q : ℕ}
    (h : drawPrimes modulusbits fuel tape = some (p, q)) : KeygenAccepts modulusbits p q := by
  induction fuel generalizing tape with
  | zero => cases h
  | succ fuel ih =>
      simp only [drawPrimes, Option.bind_eq_bind, Option.bind_eq_some_iff, Prod.exists] at h
      obtain ⟨p', tape', hp, q', tape'', hq, h⟩ := h
      split at h
      · next hbit =>
          cases h
          obtain ⟨hw, hplt, hpp⟩ := drawPrime_eq_some hp
          obtain ⟨_, hqlt, hqp⟩ := drawPrime_eq_some hq
          exact ⟨hw, hplt, hqlt, hpp, hqp, hbit⟩
      · exact ih h

theorem drawPrimes_of_accepts {modulusbits : ℤ} {p q : ℕ} (h : KeygenAccepts modulusbits p q)
    (fuel : ℕ) : drawPrimes modulusbits (fuel + 1) [p, q] = some (p, q) := by
  simp only [drawPrimes, drawPrime_of_prime _ h.width h.p_lt h.p_prime,
    drawPrime_of_prime _ h.width h.q_lt h.q_prime, Option.bind_eq_bind, Option.bind_some,
    h.topBit, ite_true]

theorem paillierKeygen_iff (modulusbits : Int32) (key : PaillierPubkey × PaillierPrvkey) :
    (∃ tape, paillierKeygen modulusbits tape = some key) ↔
      ∃ p q, KeygenAccepts modulusbits.toInt p q ∧ keyFromPrimes modulusbits p q = some key := by
  constructor
  · intro ⟨tape, h⟩
    simp only [paillierKeygen, Option.bind_eq_bind, Option.bind_eq_some_iff, Prod.exists] at h
    obtain ⟨p, q, hdraw, hkey⟩ := h
    exact ⟨p, q, drawPrimes_accepts hdraw, hkey⟩
  · intro ⟨p, q, hacc, hkey⟩
    refine ⟨[p, q], ?_⟩
    simpa only [paillierKeygen, drawPrimes_of_accepts hacc, Option.bind_eq_bind,
      Option.bind_some] using hkey

theorem blindingLoop_iff (pub : PaillierPubkey) (r : ℕ) :
    (∃ tape rest, blindingLoop pub tape = some (r, rest)) ↔ BlindingAccepts pub r := by
  have hcmp (s : ℕ) : mpzCmp s pub.n ≥ 0 ↔ ¬ (s : ℤ) < pub.n := by
    simp only [mpzCmp]
    split <;> [skip; split] <;> omega
  constructor
  · intro ⟨tape, rest, h⟩
    induction tape with
    | nil => cases h
    | cons x tape ih =>
        simp only [blindingLoop, Option.bind_eq_bind, Option.bind_eq_some_iff] at h
        obtain ⟨s, hs, h⟩ := h
        split at h
        · exact ih h
        · next hlt =>
            cases h
            obtain ⟨hw, hs'⟩ := mpzUrandomb_eq_some hs
            exact ⟨hw, hs', not_not.mp fun hn => hlt ((hcmp r).mpr hn)⟩
  · intro h
    refine ⟨[r], [], ?_⟩
    have hn : ¬ mpzCmp r pub.n ≥ 0 := fun hge => (hcmp r).mp hge h.lt_n
    simp only [blindingLoop, mpzUrandomb_of_lt h.width h.lt_width, Option.bind_eq_bind,
      Option.bind_some, if_neg hn]

end PPFramework
