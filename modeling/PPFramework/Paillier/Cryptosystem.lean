import PPFramework.Cipher.Refinement
import PPFramework.Paillier.Key

/-!
The Paillier cryptosystem classes of `PaillierCryptosystem.hpp`. The private key's
class and the public key's class share the base; a raw cipher is an integer.

Functions that sample take the accepted draws as arguments: `enc` and the
subtraction of a plaintext one factor, the pool of `recrypt` one factor for each
of its entries. `BlindingAccepts` says which factors the loops can end with. The
constant `_minusOne` is not modelled, since no function reads it.
-/

namespace PPFramework
open Gmp

def recryptPoolSize : ℕ := 4096

def recryptChooseSize : ℕ := 20

structure PaillierCryptosystemBase where
  pub : PaillierPubkey
  halfN : ℤ
  randomVals : List ℤ

def initConstants (pub : PaillierPubkey) : PaillierCryptosystemBase where
  pub := pub
  halfN := mpzTdivQ2exp pub.n 1
  randomVals := []

namespace PaillierCryptosystemBase

variable (cs : PaillierCryptosystemBase)

def enc (p : ℤ) (r : ℕ) : Option ℤ :=
  paillierEncWith cs.pub p r

def addTo (dest src : ℤ) : Option ℤ :=
  paillierMul cs.pub dest src

/-- `subFrom(PaillierCipher&, const Plain)`, overriding the interface's default. -/
def subFromPlain (dest src : ℤ) (r : ℕ) : Option ℤ := do
  let csrc ← paillierEncWith cs.pub (cs.pub.n - src) r
  paillierMul cs.pub dest csrc

def plainMultiplyTo (dest src : ℤ) : Option ℤ :=
  paillierExp cs.pub dest src

/-- The first part of `recrypt`: `draws i` is the factor the `i`-th sampling loop left. -/
def fillPool (draws : ℕ → ℕ) : Option PaillierCryptosystemBase :=
  if cs.randomVals.length < recryptPoolSize then do
    let vals ← (List.range recryptPoolSize).mapM fun i =>
      mpzPowm (draws i) cs.pub.n cs.pub.nSquared
    some { cs with randomVals := cs.randomVals ++ vals }
  else some cs

/-- The second part of `recrypt`: `choices i` is the value of the `i`-th call of `rand`. -/
def multiplyByPool (choices : ℕ → ℕ) (c : ℤ) : Option ℤ :=
  (List.range (min recryptChooseSize cs.randomVals.length)).foldlM (fun c i => do
    let v ← cs.randomVals[choices i % cs.randomVals.length]?
    mpzMod (c * v) cs.pub.nSquared) c

def recrypt (draws choices : ℕ → ℕ) (c : ℤ) : Option (ℤ × PaillierCryptosystemBase) := do
  let cs ← cs.fillPool draws
  let c ← cs.multiplyByPool choices c
  some (c, cs)

def getPublicKey : List UInt8 :=
  paillierPubkeyToHex cs.pub

def getBitLength : Int32 :=
  cs.pub.bits

def additive : AdditiveInterface ℤ where
  enc := cs.enc
  addTo := cs.addTo
  plainMultiplyTo := cs.plainMultiplyTo
  subFromPlain := cs.subFromPlain

end PaillierCryptosystemBase

structure PaillierCryptosystemPrivateKey extends PaillierCryptosystemBase where
  prv : PaillierPrvkey

namespace PaillierCryptosystemPrivateKey

def new (keyLength : Int32) (tape : List ℕ) : Option PaillierCryptosystemPrivateKey := do
  let (pub, prv) ← paillierKeygen keyLength tape
  some { initConstants pub with prv := prv }

def dec (cs : PaillierCryptosystemPrivateKey) (c : ℤ) (signedValue : Bool) : Option ℤ := do
  let m ← paillierDec cs.pub cs.prv c
  -- the comparison is used as a truth value: it holds whenever the two numbers differ
  if signedValue && (mpzSizeinbase2 m ≥ mpzSizeinbase2 cs.halfN - 1 : Bool) &&
      (mpzCmp m cs.halfN != 0) then
    some (m - cs.pub.n)
  else some m

def privateKey (cs : PaillierCryptosystemPrivateKey) : PrivateKeyInterface ℤ where
  enc := cs.enc
  dec := cs.dec

end PaillierCryptosystemPrivateKey

structure PaillierCryptosystem extends PaillierCryptosystemBase

def PaillierCryptosystem.new (pubKeyHex : List UInt8) : PaillierCryptosystem where
  toPaillierCryptosystemBase := initConstants (paillierPubkeyFromHex pubKeyHex)

def KeygenDraw.cryptosystem (d : KeygenDraw) : PaillierCryptosystemPrivateKey where
  toPaillierCryptosystemBase := initConstants d.pub
  prv := d.prv

theorem keyOfTape_iff (keyLength : Int32) (cs : PaillierCryptosystemPrivateKey) :
    (∃ tape, PaillierCryptosystemPrivateKey.new keyLength tape = some cs) ↔
      ∃ d : KeygenDraw, d.modulusbits = keyLength ∧ d.cryptosystem = cs := by
  have hnew (tape : List ℕ) : PaillierCryptosystemPrivateKey.new keyLength tape = some cs ↔
      ∃ key, paillierKeygen keyLength tape = some key ∧
        { initConstants key.1 with prv := key.2 : PaillierCryptosystemPrivateKey } = cs := by
    simp only [PaillierCryptosystemPrivateKey.new, Option.bind_eq_bind, Option.bind_eq_some_iff,
      Option.some.injEq]
  constructor
  · intro ⟨tape, h⟩
    obtain ⟨key, hkey, rfl⟩ := (hnew tape).mp h
    obtain ⟨p, q, hacc, hprimes⟩ := (paillierKeygen_iff keyLength key).mp ⟨tape, hkey⟩
    let d : KeygenDraw := ⟨keyLength, p, q, hacc⟩
    obtain rfl : (d.pub, d.prv) = key := Option.some.inj (d.keyFromPrimes_eq.symm.trans hprimes)
    exact ⟨d, rfl, rfl⟩
  · rintro ⟨d, rfl, rfl⟩
    obtain ⟨tape, h⟩ := (paillierKeygen_iff d.modulusbits (d.pub, d.prv)).mpr
      ⟨d.p, d.q, d.accepted, d.keyFromPrimes_eq⟩
    exact ⟨tape, (hnew tape).mpr ⟨_, h, rfl⟩⟩

theorem dec_unsigned (cs : PaillierCryptosystemPrivateKey) (c : ℤ) :
    cs.dec c false = paillierDec cs.pub cs.prv c := by
  simp only [PaillierCryptosystemPrivateKey.dec, Bool.false_and, Bool.false_eq_true, ite_false,
    Option.bind_eq_bind]
  exact Option.bind_fun_some _

theorem additive_laws {cs : PaillierCryptosystemBase} {n : ℕ} (hn : cs.pub.HasModulus n) :
    AdditiveLaws cs.additive (ValidEnc n) (fun r => r.Coprime n) where
  enc := fun p _ hr => paillierEncWith_valid hn p hr
  addTo := fun h h' => paillierMul_valid hn h h'
  plainMultiplyTo := fun k h => paillierExp_valid hn h k
  subFromPlain := by
    intro m c p r hr h
    obtain ⟨e, he, henc⟩ := paillierEncWith_valid hn (cs.pub.n - p) hr
    obtain ⟨f, hf, hmul⟩ := paillierMul_valid hn h henc
    refine ⟨f, ?_, validEnc_congr hmul ?_⟩
    · simp only [PaillierCryptosystemBase.additive, PaillierCryptosystemBase.subFromPlain, he, hf,
        Option.bind_eq_bind, Option.bind_some]
    · have hsum : m + (cs.pub.n - p) = m - p + n * 1 := by rw [hn.n_eq]; ring
      rw [hsum]
      exact Int.modEq_add_fac_self

theorem KeygenDraw.own_additive_laws (d : KeygenDraw) :
    AdditiveLaws d.cryptosystem.additive (ValidEnc d.modulus) (fun r => r.Coprime d.modulus) :=
  @additive_laws d.cryptosystem.toPaillierCryptosystemBase _ d.pub_hasModulus

theorem privateKey_laws (key : PaillierKey) :
    PrivateKeyLaws key.cryptosystem.privateKey (ValidEnc key.modulus)
      (fun r => r.Coprime key.modulus) key.modulus where
  enc := fun p _ hr => paillierEncWith_valid key.pub_hasModulus p hr
  dec := fun h => (dec_unsigned key.cryptosystem _).trans (key.paillierDec_valid h)
  congr := fun h hm => validEnc_congr h hm

end PPFramework
