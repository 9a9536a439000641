import Mathlib.Algebra.BigOperators.Group.List.Basic
import Mathlib.NumberTheory.Basic
import PPFramework.Paillier.Operators
import PPFramework.Paillier.Pool

/-!
Three ways to re-encrypt. The fast version multiplies by entries of a pool that the
first call fills; the slow version, compiled without `USE_FAST_RECRYPT`, draws one
factor; the interface's default adds an encryption of zero. An `n`-th power modulo
`n²` depends on its base modulo `n` only, which turns the fast version's product
into one factor that the slow version could have drawn.
-/

namespace PPFramework
open Gmp PartialRun

/-- The version of `recrypt` without a pool, after its loop has left `r`. -/
def PaillierCryptosystemBase.recryptSlow (cs : PaillierCryptosystemBase) (c : ℤ) (r : ℕ) :
    Option ℤ := do
  let x ← mpzPowm r cs.pub.n cs.pub.nSquared
  mpzMod (c * x) cs.pub.nSquared

/-- What one call of `recrypt` reads: the draws in case it fills the pool, the values of
`rand` and the cipher. -/
structure RecryptCall where
  draws : ℕ → ℕ
  choices : ℕ → ℕ
  cipher : ℤ

def recryptStep (cs : PaillierCryptosystemBase) (call : RecryptCall) :
    Option (PaillierCryptosystemBase × ℤ) :=
  recryptCall call.draws cs (call.choices, call.cipher)

def poolOf (n : ℕ) (draws : ℕ → ℕ) : List ℤ :=
  (List.range recryptPoolSize).map fun i => (draws i : ℤ) ^ n % (n * n : ℕ)

/-- The product of the factors that one call picks. -/
def chosenProduct (draws choices : ℕ → ℕ) : ℕ :=
  ((List.range recryptChooseSize).map fun i => draws (choices i % recryptPoolSize)).prod

theorem poolOf_length (n : ℕ) (draws : ℕ → ℕ) : (poolOf n draws).length = recryptPoolSize := by
  rw [poolOf, List.length_map, List.length_range]

theorem poolOf_getElem? (n : ℕ) (draws : ℕ → ℕ) {i : ℕ} (hi : i < recryptPoolSize) :
    (poolOf n draws)[i]? = some ((draws i : ℤ) ^ n % (n * n : ℕ)) := by
  rw [poolOf, List.getElem?_map, List.getElem?_range hi, Option.map_some]

/-- Reducing the base modulo `n` leaves its `n`-th power modulo `n²` alone. -/
theorem mod_pow_modulus (n a : ℕ) : ((a % n : ℕ) : ZMod (n * n)) ^ n = (a : ZMod (n * n)) ^ n := by
  have hdvd : (n : ℤ) ∣ ((a % n : ℕ) : ℤ) - a := (Nat.modEq_iff_dvd.mp (Nat.mod_modEq a n).symm)
  have hpow := dvd_sub_pow_of_dvd_sub hdvd 1
  have hcast : ((((a % n : ℕ) : ℤ) ^ n - (a : ℤ) ^ n : ℤ) : ZMod (n * n)) = 0 := by
    rw [ZMod.intCast_zmod_eq_zero_iff_dvd, Nat.cast_mul, ← pow_two]
    simpa only [pow_one] using hpow
  rw [Int.cast_sub, Int.cast_pow, Int.cast_pow, Int.cast_natCast, Int.cast_natCast] at hcast
  exact sub_eq_zero.mp hcast

theorem chosenProduct_coprime {n : ℕ} {draws : ℕ → ℕ}
    (hdraws : ∀ i < recryptPoolSize, (draws i).Coprime n) (choices : ℕ → ℕ) :
    (chosenProduct draws choices).Coprime n := by
  rw [chosenProduct, Nat.coprime_list_prod_left_iff]
  intro r hr
  obtain ⟨i, _, rfl⟩ := List.mem_map.mp hr
  exact hdraws _ (Nat.mod_lt _ (by decide))

section Calls

variable {n : ℕ} {cs : PaillierCryptosystemBase} {draws : ℕ → ℕ}

theorem fillPool_fresh (hn : cs.pub.HasModulus n) (hfresh : cs.randomVals = []) :
    cs.fillPool draws = some { cs with randomVals := poolOf n draws } := by
  have := hn.neZero
  have hvals : (List.range recryptPoolSize).mapM (fun i =>
      mpzPowm (draws i) cs.pub.n cs.pub.nSquared) = some (poolOf n draws) := by
    rw [poolOf, hn.n_eq, hn.nSquared_cast]
    exact Traverse.mapM_eq_map fun i _ => if_neg modulus_pos.ne'
  rw [PaillierCryptosystemBase.fillPool, if_pos (by rw [hfresh]; decide), Option.bind_eq_bind,
    hvals, Option.bind_some, hfresh, List.nil_append]

/-- A full pool is left as it is, whatever could have been drawn. -/
theorem fillPool_full (hfull : cs.randomVals = poolOf n draws) (draws' : ℕ → ℕ) :
    cs.fillPool draws' = some cs := by
  rw [PaillierCryptosystemBase.fillPool, hfull, poolOf_length, if_neg (lt_irrefl _)]

/-- The loop over the pool, started from any residue. -/
theorem multiplyLoop_residue (hn : cs.pub.HasModulus n) (hfull : cs.randomVals = poolOf n draws)
    (choices : ℕ → ℕ) (is : List ℕ) {x : ZMod (n * n)} {c : ℤ} (hc : IsResidue (n * n) x c) :
    ∃ e, is.foldlM (fun c i => do
        let v ← cs.randomVals[choices i % cs.randomVals.length]?
        mpzMod (c * v) cs.pub.nSquared) c = some e ∧
      IsResidue (n * n)
        (x * (((is.map fun i => draws (choices i % recryptPoolSize)).prod : ℕ) : ZMod (n * n)) ^ n)
        e := by
  have := hn.neZero
  induction is generalizing x c with
  | nil => exact ⟨c, rfl, by simpa using hc⟩
  | cons i is ih =>
      have hv := poolOf_getElem? n draws
        (Nat.mod_lt (choices i) (show 0 < recryptPoolSize by decide))
      obtain ⟨e, he, hres⟩ := mpzMod_residue (M := n * n)
        (c * ((draws (choices i % recryptPoolSize) : ℤ) ^ n % (n * n : ℕ)))
      rw [Int.cast_mul, hc.2.2, ZMod.intCast_mod, Int.cast_pow, Int.cast_natCast] at hres
      have hmul : mpzMod (c * ((draws (choices i % recryptPoolSize) : ℤ) ^ n % (n * n : ℕ)))
          cs.pub.nSquared = some e := by rw [hn.nSquared_cast, he]
      obtain ⟨f, hf, hres'⟩ := ih hres
      refine ⟨f, ?_, ?_⟩
      · simp only [hfull, poolOf_length, Option.bind_eq_bind, List.foldlM_cons, hv,
          Option.bind_some, hmul] at hf ⊢
        exact hf
      · rwa [List.map_cons, List.prod_cons, Nat.cast_mul, mul_pow, ← mul_assoc]

theorem multiplyByPool_residue (hn : cs.pub.HasModulus n) (hfull : cs.randomVals = poolOf n draws)
    (choices : ℕ → ℕ) {x : ZMod (n * n)} {c : ℤ} (hc : IsResidue (n * n) x c) :
    ∃ e, cs.multiplyByPool choices c = some e ∧
      IsResidue (n * n) (x * (chosenProduct draws choices : ZMod (n * n)) ^ n) e := by
  have hmin : min recryptChooseSize cs.randomVals.length = recryptChooseSize := by
    rw [hfull, poolOf_length]
    decide
  rw [PaillierCryptosystemBase.multiplyByPool, hmin]
  exact multiplyLoop_residue hn hfull choices (List.range recryptChooseSize) hc

theorem recryptSlow_residue (hn : cs.pub.HasModulus n) (c : ℤ) (r : ℕ) :
    ∃ e, cs.recryptSlow c r = some e ∧
      IsResidue (n * n) ((c : ZMod (n * n)) * (r : ZMod (n * n)) ^ n) e := by
  have := hn.neZero
  obtain ⟨v, hv, _, _, hcast⟩ := poolValue_residue hn r
  obtain ⟨e, he, hres⟩ := mpzMod_residue (M := n * n) (c * v)
  refine ⟨e, ?_, by rwa [Int.cast_mul, hcast] at hres⟩
  rw [PaillierCryptosystemBase.recryptSlow, hv, Option.bind_eq_bind, Option.bind_some,
    hn.nSquared_cast, he]

theorem recryptSlow_valid (hn : cs.pub.HasModulus n) {m c : ℤ} (hc : ValidEnc n m c) {r : ℕ}
    (hr : r.Coprime n) : ∃ e, cs.recryptSlow c r = some e ∧ ValidEnc n m e := by
  have := hn.neZero
  obtain ⟨v, hv, hres⟩ := poolValue_residue hn r
  obtain ⟨e, he, henc⟩ := validEnc_mul hc (validEnc_poolValue hn hr hres)
  refine ⟨e, ?_, by rwa [add_zero] at henc⟩
  rw [PaillierCryptosystemBase.recryptSlow, hv, Option.bind_eq_bind, Option.bind_some,
    hn.nSquared_cast, he]

/-- With a full pool, one call is the slow version at the chosen product modulo `n`. -/
theorem recryptStep_full (hn : cs.pub.HasModulus n) (hfull : cs.randomVals = poolOf n draws)
    (call : RecryptCall) (hc : 0 ≤ call.cipher ∧ call.cipher < (n * n : ℕ)) :
    ∃ e, recryptStep cs call = some (cs, e) ∧
      cs.recryptSlow call.cipher (chosenProduct draws call.choices % n) = some e := by
  obtain ⟨e, he, hres⟩ := multiplyByPool_residue hn hfull call.choices
    (x := (call.cipher : ZMod (n * n))) ⟨hc.1, hc.2, rfl⟩
  obtain ⟨e', he', hres'⟩ := recryptSlow_residue hn call.cipher
    (chosenProduct draws call.choices % n)
  rw [mod_pow_modulus] at hres'
  refine ⟨e, ?_, by rw [he', isResidue_unique hres hres']⟩
  simp only [recryptStep, recryptCall, PaillierCryptosystemBase.recrypt, fillPool_full hfull, he,
    Option.bind_eq_bind, Option.bind_some, Option.map_some, Prod.swap]

theorem recryptStep_fresh (hn : cs.pub.HasModulus n) (hfresh : cs.randomVals = [])
    (call : RecryptCall) :
    recryptStep cs call = recryptStep { cs with randomVals := poolOf n call.draws } call := by
  have hpool : ({ cs with randomVals := poolOf n call.draws } :
      PaillierCryptosystemBase).randomVals = poolOf n call.draws := by dsimp only
  have hfull := fillPool_full hpool call.draws
  simp only [recryptStep, recryptCall, PaillierCryptosystemBase.recrypt, fillPool_fresh hn hfresh,
    hfull, Option.bind_eq_bind, Option.bind_some]

end Calls

/-- What one call makes of its cipher: the slow version's result for the chosen product,
and a cipher that decrypts as the default version's results do. -/
structure RefinesSlow (key : PaillierKey) (draws : ℕ → ℕ) (cs : PaillierCryptosystemBase)
    (call : RecryptCall) (out : ℤ) : Prop where
  index_lt : ∀ i, call.choices i % cs.randomVals.length < cs.randomVals.length
  nonneg : 0 ≤ out
  lt_sq : out < (key.modulus * key.modulus : ℕ)
  valid : ∀ m, ValidEnc key.modulus m call.cipher → ValidEnc key.modulus m out
  accepts : BlindingAccepts cs.pub (chosenProduct draws call.choices % key.modulus)
  coprime : (chosenProduct draws call.choices % key.modulus).Coprime key.modulus
  slow : cs.recryptSlow call.cipher (chosenProduct draws call.choices % key.modulus) = some out
  default : ∀ r : ℕ, r.Coprime key.modulus → ∃ e, cs.additive.recrypt call.cipher r = some e ∧
    key.cryptosystem.dec e false = key.cryptosystem.dec out false

theorem refinesSlow_step {key : PaillierKey} {cs : PaillierCryptosystemBase}
    (hcs : cs.pub = key.pub) {draws : ℕ → ℕ} (hfull : cs.randomVals = poolOf key.modulus draws)
    (hdraws : ∀ i < recryptPoolSize, (draws i).Coprime key.modulus) {call : RecryptCall}
    (hcall : ∃ m, ValidEnc key.modulus m call.cipher) :
    ∃ out, recryptStep cs call = some (cs, out) ∧ RefinesSlow key draws cs call out := by
  have hn : cs.pub.HasModulus key.modulus := hcs ▸ key.pub_hasModulus
  obtain ⟨m, hm⟩ := hcall
  obtain ⟨out, hstep, hslow⟩ := recryptStep_full hn hfull call (validEnc_range hm)
  have hcop : (chosenProduct draws call.choices % key.modulus).Coprime key.modulus :=
    (Nat.mod_modEq _ _).gcd_eq.trans (chosenProduct_coprime hdraws call.choices)
  have hvalid (m' : ℤ) (hm' : ValidEnc key.modulus m' call.cipher) :
      ValidEnc key.modulus m' out := by
    obtain ⟨e, he, henc⟩ := recryptSlow_valid hn hm' hcop
    obtain rfl : out = e := Option.some.inj (hslow.symm.trans he)
    exact henc
  refine ⟨out, hstep, ?_⟩
  constructor
  case index_lt =>
    rw [hfull, poolOf_length]
    exact fun i => Nat.mod_lt _ (by decide)
  case nonneg => exact (validEnc_range (hvalid m hm)).1
  case lt_sq => exact (validEnc_range (hvalid m hm)).2
  case valid => exact hvalid
  case accepts =>
    rw [hcs]
    exact (key.blindingAccepts_iff _).mpr (Nat.mod_lt _ key.modulus_pos)
  case coprime => exact hcop
  case slow => exact hslow
  case default =>
    intro r hr
    obtain ⟨e, he, henc⟩ := recrypt_refines (additive_laws hn) hr hm
    exact ⟨e, he, henc.decryptsTo.dec.trans (hvalid m hm).decryptsTo.dec.symm⟩

/-- An `n`-th power modulo `n²`, and invertible. -/
def UnitResidue (n : ℕ) (v : ℤ) : Prop :=
  (∃ r : ℕ, r.Coprime n ∧ v = (r : ℤ) ^ n % (n * n : ℕ)) ∧ IsUnit (v : ZMod (n * n))

theorem unitResidue_of_mem_poolOf {n : ℕ} {draws : ℕ → ℕ}
    (hdraws : ∀ i < recryptPoolSize, (draws i).Coprime n) {v : ℤ} (hv : v ∈ poolOf n draws) :
    UnitResidue n v := by
  obtain ⟨i, hi, rfl⟩ := List.mem_map.mp hv
  have hcop := hdraws i (List.mem_range.mp hi)
  obtain ⟨u, hu⟩ := exists_unit_of_coprime hcop
  refine ⟨⟨draws i, hcop, rfl⟩, ?_⟩
  rw [ZMod.intCast_mod, Int.cast_pow, Int.cast_natCast, ← hu]
  exact u.isUnit.pow n

/-- Every history of calls on a fresh object: the first call fills the pool for good, and
each result is one the slow version could have computed. -/
theorem fast_recrypt_refines (key : PaillierKey) (cs : PaillierCryptosystemBase)
    (hcs : cs.pub = key.pub) (hfresh : cs.randomVals = []) (first : RecryptCall)
    (rest : List RecryptCall)
    (hdraws : ∀ i < recryptPoolSize, (first.draws i).Coprime key.modulus)
    (hcalls : ∀ call ∈ first :: rest, ∃ m, ValidEnc key.modulus m call.cipher) :
    ∃ cs' outs, run recryptStep cs (first :: rest) = some (cs', outs) ∧
      cs' = { cs with randomVals := poolOf key.modulus first.draws } ∧
      cs'.randomVals.length = recryptPoolSize ∧
      (∀ v ∈ cs'.randomVals, UnitResidue key.modulus v) ∧
      List.Forall₂ (RefinesSlow key first.draws cs') (first :: rest) outs := by
  have hn : cs.pub.HasModulus key.modulus := hcs ▸ key.pub_hasModulus
  obtain ⟨cs', hcs'⟩ : ∃ cs', cs' = { cs with randomVals := poolOf key.modulus first.draws } :=
    ⟨_, rfl⟩
  have hpub : cs'.pub = key.pub := by rw [hcs', hcs]
  have hfull : cs'.randomVals = poolOf key.modulus first.draws := by rw [hcs']
  -- the first call does what it would do with the pool already there
  have hrun : run recryptStep cs (first :: rest) = run recryptStep cs' (first :: rest) := by
    simp only [run, recryptStep_fresh hn hfresh first, hcs']
  obtain ⟨s, outs, htotal, rfl, houts⟩ := run_total (fun s => s = cs') _
    (RefinesSlow key first.draws cs') (fun s call hs hcall => by
      subst hs
      obtain ⟨out, hstep, href⟩ := refinesSlow_step hpub hfull hdraws hcall
      exact ⟨s, out, hstep, rfl, href⟩) rfl hcalls
  refine ⟨s, outs, hrun.trans htotal, hcs', ?_, ?_, houts⟩
  · rw [hfull, poolOf_length]
  · intro v hv
    exact unitResidue_of_mem_poolOf hdraws (hfull ▸ hv)

/-- The second call could only have drawn zeros; it finds the pool full. -/
def sampleCalls : List RecryptCall :=
  [⟨fun _ => 2, id, 36⟩, ⟨fun _ => 0, fun _ => 4097, 36⟩]

theorem fast_recrypt_refines_sample :
    ∃ cs' outs, run recryptStep sampleKey.cryptosystem.toPaillierCryptosystemBase sampleCalls =
      some (cs', outs) ∧ outs.length = 2 ∧ cs'.randomVals.length = recryptPoolSize := by
  have hone : ∃ m, ValidEnc sampleKey.modulus m 36 := ⟨1, 1, by decide, by decide⟩
  have htwo : Nat.Coprime 2 sampleKey.modulus := by decide
  obtain ⟨cs', outs, hrun, _, hlen, _, houts⟩ := fast_recrypt_refines sampleKey
    sampleKey.cryptosystem.toPaillierCryptosystemBase rfl rfl ⟨fun _ => 2, id, 36⟩
    [⟨fun _ => 0, fun _ => 4097, 36⟩] (fun _ _ => htwo) (by simpa using hone)
  exact ⟨cs', outs, hrun, houts.length_eq.symm, hlen⟩

end PPFramework
