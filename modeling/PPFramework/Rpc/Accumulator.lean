import Mathlib.Algebra.BigOperators.Group.List.Basic
import PPFramework.Paillier.SignedDec
import PPFramework.Rpc.Client

/-!
A freshly constructed cipher as an accumulator. The constructors bind references and
leave the raw value of a default `mpz_class`, zero, which is no encryption. The
product of the homomorphic `+=` stays zero whatever is added; the private-key `+=`
decrypts the zero first and carries on from what comes out, `-x` modulo `n`.
-/

namespace PPFramework
open Gmp PartialRun

namespace Cipher

variable {T : CipherClass}

/-- `Cipher(Cryptosystem&)`. -/
def new (cs : CryptosystemType T) : Cipher T where
  cs := cs
  raw := 0

/-- `AdditiveInterface::Cipher::operator+=(const Cipher&)`. -/
def addTo (c d : Cipher T) : Option (Cipher T) :=
  (c.cs.base.additive.addTo c.raw d.raw).map fun raw => { c with raw := raw }

/-- `PrivateKeyInterface::Cipher::operator+=(const CipherBase&)`, which
`PrivateKeyOverrides` prefers. -/
def addCipher (c d : Cipher .privateKey) (r : ℕ) : Option (Cipher .privateKey) :=
  (c.cs.privateKey.addCipher c.raw d.raw r).map fun raw => { c with raw := raw }

/-- The server's `+=` is this one, on ciphers of the public class. -/
theorem addAssign_eq_addTo (c d : Cipher .publicKey) : c.addAssign d = c.addTo d := by
  simp only [addAssign, addTo, Option.map_eq_bind]
  rfl

end Cipher

namespace RPCClient

variable {T : CipherClass} (client : RPCClient T)

def newLocalCipher : Option (Cipher T) :=
  client.localCS.map Cipher.new

def newRemoteCipher : Option (Cipher T.publicKeyCSType) :=
  client.remoteCS.map Cipher.new

end RPCClient

inductive Fresh : {T : CipherClass} → Cipher T → Prop
  | constructor {T : CipherClass} (cs : CryptosystemType T) : Fresh (Cipher.new cs)
  | newLocalCipher {T : CipherClass} {client : RPCClient T} {c : Cipher T}
      (h : client.newLocalCipher = some c) : Fresh c
  | newRemoteCipher {T : CipherClass} {client : RPCClient T} {c : Cipher T.publicKeyCSType}
      (h : client.newRemoteCipher = some c) : Fresh c

theorem Fresh.raw_eq {T : CipherClass} {c : Cipher T} (h : Fresh c) : c.raw = 0 := by
  cases h with
  | constructor cs => rfl
  | newLocalCipher h | newRemoteCipher h =>
      obtain ⟨cs, _, rfl⟩ := Option.map_eq_some_iff.mp h
      rfl

/-- A valid cipher with its plaintext and the factor its addition may draw. -/
structure Summand (n : ℕ) where
  plain : ℤ
  raw : ℤ
  draw : ℕ
  valid : ValidEnc n plain raw
  invertible : draw.Coprime n

namespace Summand

variable {n : ℕ}

def total (terms : List (Summand n)) : ℤ :=
  (terms.map plain).sum

/-- The loop of homomorphic `+=`; every element is a cipher on the accumulator's object. -/
def addAll {T : CipherClass} (acc : Cipher T) (terms : List (Summand n)) : Option (Cipher T) :=
  exec (fun c t => c.addTo ⟨c.cs, t.raw⟩) acc terms

def addAllPrivate (acc : Cipher .privateKey) (terms : List (Summand n)) :
    Option (Cipher .privateKey) :=
  exec (fun c t => c.addCipher ⟨c.cs, t.raw⟩ t.draw) acc terms

end Summand

namespace KeygenDraw

variable (d : KeygenDraw)

theorem lambda_ne_zero : d.lambda ≠ 0 := by
  intro h
  have hcop := d.lambda_coprime
  rw [h, Nat.coprime_zero_left] at hcop
  have := d.nine_le_modulus
  omega

/-- The raw value zero decrypts, though it encrypts nothing. -/
theorem dec_zero : d.cryptosystem.dec 0 false = some (-d.prv.x % d.modulus) := by
  have hn : d.pub.n = d.modulus := rfl
  have hne : (d.modulus : ℤ) ≠ 0 := Int.natCast_ne_zero.mpr d.modulus_pos.ne'
  have hpow : mpzPowm 0 d.lambda d.pub.nSquared = some 0 := by
    change (if d.pub.nSquared = 0 then none else some (0 ^ d.lambda % d.pub.nSquared)) = _
    rw [d.pub.nSquared_eq, hn, if_neg (mul_ne_zero hne hne), zero_pow d.lambda_ne_zero,
      Int.zero_emod]
  have hdiv : mpzDiv (0 - 1) d.modulus = some (-1) := by
    rw [mpzDiv, if_neg hne, Int.fdiv_eq_ediv_of_nonneg _ (Int.natCast_nonneg _)]
    congr 1
    have := d.modulus_pos
    exact Int.ediv_eq_neg_one_of_neg_of_le (by decide) (by omega)
  rw [dec_unsigned]
  change paillierDec d.pub d.prv 0 = _
  simp only [paillierDec, d.prv_lambda, hpow, hn, hdiv, Option.bind_eq_bind, Option.bind_some,
    mpzMod, if_neg hne, neg_one_mul]

theorem prv_x_not_modEq_zero : ¬ d.prv.x ≡ 0 [ZMOD d.modulus] := by
  intro h
  have hx : (d.prv.x : ZMod d.modulus) = 0 := by
    rw [(ZMod.intCast_eq_intCast_iff _ _ _).mpr h, Int.cast_zero]
  have hone := d.prv_x_mul_lambda
  rw [hx, zero_mul] at hone
  have hdvd := (ZMod.natCast_eq_zero_iff 1 d.modulus).mp (by rw [Nat.cast_one, ← hone])
  have := Nat.le_of_dvd one_pos hdvd
  have := d.nine_le_modulus
  omega

end KeygenDraw

section Paths

variable {key : PaillierKey}

theorem addAll_of_zero {T : CipherClass} {acc : Cipher T}
    (hcs : acc.cs.base.pub.HasModulus key.modulus) (hacc : acc.raw = 0)
    (terms : List (Summand key.modulus)) : Summand.addAll acc terms = some acc := by
  have hne : acc.cs.base.pub.nSquared ≠ 0 := by
    rw [hcs.nSquared_cast]
    exact Int.natCast_ne_zero.mpr (NeZero.ne (key.modulus * key.modulus))
  have hstep (t : Summand key.modulus) : acc.addTo ⟨acc.cs, t.raw⟩ = some acc := by
    change (mpzMod (acc.raw * t.raw) acc.cs.base.pub.nSquared).map _ = _
    rw [hacc, zero_mul, mpzMod, if_neg hne, Int.zero_emod, Option.map_some, ← hacc]
  induction terms with
  | nil => rfl
  | cons t terms ih =>
      rw [Summand.addAll, exec_cons, hstep, Option.bind_some]
      exact ih

/-- One private-key `+=`, from any cipher that decrypts. -/
theorem addCipher_dec {c : Cipher .privateKey} (hcs : c.cs = key.cryptosystem) {v : ℤ}
    (hc : key.cryptosystem.dec c.raw false = some (v % key.modulus))
    (t : Summand key.modulus) :
    ∃ e, c.addCipher ⟨c.cs, t.raw⟩ t.draw = some e ∧ e.cs = key.cryptosystem ∧
      key.cryptosystem.dec e.raw false = some ((v + t.plain) % key.modulus) := by
  have hdec := (privateKey_laws key).dec t.valid
  obtain ⟨e, he, henc⟩ := (privateKey_laws key).enc
    (t.plain % key.modulus + v % key.modulus) t.draw t.invertible
  refine ⟨{ c with raw := e }, ?_, hcs, ?_⟩
  · have hc' : key.cryptosystem.privateKey.dec c.raw false = some (v % key.modulus) := hc
    simp only [Cipher.addCipher, hcs, PrivateKeyInterface.addCipher, PrivateKeyInterface.viaCipher,
      PrivateKeyInterface.addPlain, PrivateKeyInterface.viaPlain, hdec, hc', he,
      Option.bind_eq_bind, Option.bind_some, Option.map_some]
  · rw [henc.decryptsTo.dec, ← Int.add_emod, add_comm]

theorem addAllPrivate_dec {acc : Cipher .privateKey} (hcs : acc.cs = key.cryptosystem) {v : ℤ}
    (hacc : key.cryptosystem.dec acc.raw false = some (v % key.modulus))
    (terms : List (Summand key.modulus)) :
    ∃ c, Summand.addAllPrivate acc terms = some c ∧
      key.cryptosystem.dec c.raw false = some ((v + Summand.total terms) % key.modulus) := by
  induction terms generalizing acc v with
  | nil => exact ⟨acc, rfl, by rw [hacc, Summand.total, List.map_nil, List.sum_nil, add_zero]⟩
  | cons t terms ih =>
      obtain ⟨e, he, hecs, hdec⟩ := addCipher_dec hcs hacc t
      obtain ⟨c, hc, hsum⟩ := ih hecs hdec
      refine ⟨c, ?_, ?_⟩
      · rw [Summand.addAllPrivate, exec_cons, he, Option.bind_some]
        exact hc
      · rw [hsum, Summand.total, Summand.total, List.map_cons, List.sum_cons, add_assoc]

end Paths

/-- Both loops end with ciphers that decrypt to the sum. -/
def SumsOnBothPaths (key : PaillierKey) {T : CipherClass} (acc : Cipher T)
    (acc' : Cipher .privateKey) (terms : List (Summand key.modulus)) : Prop :=
  ∃ c c', Summand.addAll acc terms = some c ∧ Summand.addAllPrivate acc' terms = some c' ∧
    key.cryptosystem.dec c.raw false = some (Summand.total terms % key.modulus) ∧
    key.cryptosystem.dec c'.raw false = some (Summand.total terms % key.modulus)

/-- What the two loops leave instead: the decryption of zero, and the sum shifted by it. -/
theorem fresh_accumulator_never_sums (key : PaillierKey) {T : CipherClass} (acc : Cipher T)
    (acc' : Cipher .privateKey) (hacc : Fresh acc) (hacc' : Fresh acc')
    (hcs : acc.cs.base.pub = key.pub) (hcs' : acc'.cs = key.cryptosystem)
    (terms : List (Summand key.modulus)) :
    (∃ c c', Summand.addAll acc terms = some c ∧ Summand.addAllPrivate acc' terms = some c' ∧
      key.cryptosystem.dec c.raw false = some (-key.prv.x % key.modulus) ∧
      key.cryptosystem.dec c'.raw false =
        some ((-key.prv.x + Summand.total terms) % key.modulus) ∧
      key.cryptosystem.dec c'.raw false ≠ some (Summand.total terms % key.modulus)) ∧
    ¬ SumsOnBothPaths key acc acc' terms := by
  have hn : acc.cs.base.pub.HasModulus key.modulus := hcs ▸ key.pub_hasModulus
  have hadd := addAll_of_zero hn hacc.raw_eq terms
  obtain ⟨c', hadd', hdec'⟩ := addAllPrivate_dec hcs' (by rw [hacc'.raw_eq, key.dec_zero]) terms
  have hwrong : key.cryptosystem.dec c'.raw false ≠ some (Summand.total terms % key.modulus) := by
    rw [hdec', ne_eq, Option.some.injEq]
    intro hmod
    -- equal sums would make `x` vanish modulo `n`
    have hcancel : -key.prv.x + Summand.total terms ≡ 0 + Summand.total terms
        [ZMOD key.modulus] := by rwa [zero_add]
    have hneg := (Int.ModEq.add_right_cancel' _ hcancel).neg
    rw [neg_neg, neg_zero] at hneg
    exact key.prv_x_not_modEq_zero hneg
  refine ⟨⟨acc, c', hadd, hadd', by rw [hacc.raw_eq, key.dec_zero], hdec', hwrong⟩, ?_⟩
  intro ⟨c, d, _, hd, _, hdec⟩
  obtain rfl : c' = d := Option.some.inj (hadd'.symm.trans hd)
  exact hwrong hdec

def sampleSummand : Summand sampleKey.modulus where
  plain := 1
  raw := 36
  draw := 2
  valid := ⟨1, by decide, by decide⟩
  invertible := by decide

theorem fresh_accumulator_never_sums_sample :
    ¬ SumsOnBothPaths sampleKey (Cipher.new (T := .publicKey) ⟨initConstants sampleKey.pub⟩)
      (Cipher.new (T := .privateKey) sampleKey.cryptosystem) [sampleSummand] :=
  (fresh_accumulator_never_sums sampleKey _ _ (.constructor _) (.constructor _) rfl rfl _).2

/-- With nothing added at all, the fresh cipher decrypts to 32 where the sum is 0. -/
theorem fresh_cipher_decrypts_to_32 :
    sampleKey.cryptosystem.dec (Cipher.new (T := .privateKey) sampleKey.cryptosystem).raw false =
      some 32 ∧
    ¬ SumsOnBothPaths sampleKey (Cipher.new (T := .publicKey) ⟨initConstants sampleKey.pub⟩)
      (Cipher.new (T := .privateKey) sampleKey.cryptosystem) [] := by
  have hdec : sampleKey.cryptosystem.dec 0 false = some 32 := by decide +kernel
  refine ⟨hdec, ?_⟩
  intro ⟨c, c', hc, _, hsum, _⟩
  obtain rfl : Cipher.new _ = c := Option.some.inj hc
  have hsum' : some (32 : ℤ) = some 0 := hdec.symm.trans hsum
  cases hsum'

end PPFramework
