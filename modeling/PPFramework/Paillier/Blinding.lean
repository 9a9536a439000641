import PPFramework.Paillier.Operators
import PPFramework.Paillier.Pool

/-!
What a blinding factor does to a plaintext. The sampling loops only compare with
`n`, so they also end with zero and with multiples of one prime. Such a factor is
not invertible; two plaintexts that differ by the other prime then have the same
ciphertext, and no decryption can tell them apart.

The pool of `recrypt` is filled once and kept, so one bad draw reaches every later
call that picks it.
-/

namespace PPFramework
open Gmp PartialRun

/-- The draws that neither prime divides; zero is divided by both. -/
def NoCommonFactor (key : PaillierKey) (r : ℕ) : Prop :=
  ¬ key.p ∣ r ∧ ¬ key.q ∣ r

instance (key : PaillierKey) (r : ℕ) : Decidable (NoCommonFactor key r) :=
  inferInstanceAs (Decidable (_ ∧ _))

theorem coprime_iff_noCommonFactor (key : PaillierKey) (r : ℕ) :
    r.Coprime key.modulus ↔ NoCommonFactor key r := by
  rw [KeygenDraw.modulus, Nat.coprime_mul_iff_right, Nat.coprime_comm,
    key.accepted.p_prime.coprime_iff_not_dvd, Nat.coprime_comm (n := r),
    key.accepted.q_prime.coprime_iff_not_dvd, NoCommonFactor]

structure CommonFactor (n r g h : ℕ) : Prop where
  modulus_eq : n = g * h
  one_lt : 1 < g
  h_pos : 0 < h
  dvd : g ∣ r

theorem CommonFactor.h_lt {n r g h : ℕ} (f : CommonFactor n r g h) : h < n := by
  rw [f.modulus_eq]
  exact lt_mul_of_one_lt_left f.h_pos f.one_lt

theorem exists_commonFactor {key : PaillierKey} {r : ℕ} (h : ¬ NoCommonFactor key r) :
    ∃ g k, CommonFactor key.modulus r g k := by
  have hp := key.accepted.p_prime
  have hq := key.accepted.q_prime
  by_cases hdvd : key.p ∣ r
  · exact ⟨key.p, key.q, ⟨rfl, hp.one_lt, hq.pos, hdvd⟩⟩
  · have hdvd' : key.q ∣ r := by
      by_contra hq'
      exact h ⟨hdvd, hq'⟩
    exact ⟨key.q, key.p, ⟨Nat.mul_comm _ _, hq.one_lt, hp.pos, hdvd'⟩⟩

section Collision

variable {n r g h : ℕ}

/-- Multiplied by a multiple of `g`, the plaintexts `m` and `m + n / g` become one. -/
theorem collision (f : CommonFactor n r g h) (m : ℤ) {x : ZMod (n * n)} (hx : ∃ y, x = g * y) :
    ((encBase n ^ (m + h) : (ZMod (n * n))ˣ) : ZMod (n * n)) * x =
      ((encBase n ^ m : (ZMod (n * n))ˣ) : ZMod (n * n)) * x := by
  obtain ⟨y, rfl⟩ := hx
  have hn : (n : ZMod (n * n)) = g * h := by
    have hcast := congrArg (Nat.cast : ℕ → ZMod (n * n)) f.modulus_eq
    rwa [Nat.cast_mul] at hcast
  rw [encBase_zpow_val, encBase_zpow_val]
  push_cast
  linear_combination y * modulus_sq_zero n - y * (n : ZMod (n * n)) * hn

theorem pow_eq_mul_of_dvd {R : Type*} [CommSemiring R] {g r k : ℕ} (hk : k ≠ 0) (h : g ∣ r) :
    ∃ y : R, (r : R) ^ k = g * y := by
  obtain ⟨s, rfl⟩ := h
  obtain ⟨j, rfl⟩ := Nat.exists_eq_succ_of_ne_zero hk
  exact ⟨s * ((g * s : ℕ) : R) ^ j, by rw [pow_succ', Nat.cast_mul, mul_assoc]⟩

theorem paillierEncWith_collision (f : CommonFactor n r g h) {pub : PaillierPubkey}
    (hn : pub.HasModulus n) (m : ℤ) : paillierEncWith pub (m + h) r = paillierEncWith pub m r := by
  have hpow := pow_eq_mul_of_dvd (R := ZMod (n * n)) hn.n_pos.ne' f.dvd
  obtain ⟨c, hc, hres⟩ := paillierEncWith_residue hn (m + h) r
  obtain ⟨c', hc', hres'⟩ := paillierEncWith_residue hn m r
  rw [collision f m hpow] at hres
  rw [hc, hc', isResidue_unique hres hres']

theorem paillierEncWith_not_invertible (f : CommonFactor n r g h) {pub : PaillierPubkey}
    (hn : pub.HasModulus n) {m c : ℤ} (henc : paillierEncWith pub m r = some c) :
    paillierExp pub c (-1) = none := by
  have := hn.neZero
  obtain ⟨c', hc, _, _, hres⟩ := paillierEncWith_residue hn m r
  obtain rfl : c' = c := Option.some.inj (hc.symm.trans henc)
  have hdvd : (g : ℤ) ∣ n := ⟨h, by rw [f.modulus_eq, Nat.cast_mul]⟩
  have hsq : (g : ℤ) ∣ (n * n : ℕ) := by
    rw [Nat.cast_mul]
    exact dvd_mul_of_dvd_left hdvd _
  rw [encBase_zpow_val] at hres
  have hcast : ((c' - (1 + m * n) * (r : ℤ) ^ n : ℤ) : ZMod (n * n)) = 0 := by
    push_cast
    rw [hres, sub_self]
  have hdiff := hsq.trans ((ZMod.intCast_zmod_eq_zero_iff_dvd _ _).mp hcast)
  have hr : (g : ℤ) ∣ (1 + m * n) * (r : ℤ) ^ n :=
    dvd_mul_of_dvd_right (dvd_pow (Int.natCast_dvd_natCast.mpr f.dvd) hn.n_pos.ne') _
  have hc' : (g : ℤ) ∣ c' := by
    have hsum := dvd_add hdiff hr
    rwa [sub_add_cancel] at hsum
  rw [paillierExp, hn.nSquared_cast, mpzPowm_neg_one_eq_none (by exact_mod_cast NeZero.ne (n * n))]
  intro hone
  have hg : (g : ℤ) ∣ 1 := by
    rw [← Nat.cast_one, ← hone]
    exact Int.dvd_coe_gcd hc' hsq
  have := Int.le_of_dvd one_pos hg
  have := f.one_lt
  omega

end Collision

section Soundness

variable (key : PaillierKey) (cs : PaillierCryptosystemBase)

def EncSound (r : ℕ) : Prop :=
  ∀ m : ℤ, ∃ c, cs.enc m r = some c ∧ key.cryptosystem.dec c false = some (m % key.modulus)

def SubPlainSound (r : ℕ) : Prop :=
  ∀ m p c : ℤ, ValidEnc key.modulus m c →
    ∃ e, cs.subFromPlain c p r = some e ∧
      key.cryptosystem.dec e false = some ((m - p) % key.modulus)

def SubCipherSound (r : ℕ) : Prop :=
  ∀ m m' c c' : ℤ, ValidEnc key.modulus m c → cs.enc m' r = some c' →
    ∃ e, cs.additive.subFrom c c' = some e ∧
      key.cryptosystem.dec e false = some ((m - m') % key.modulus)

/-- Every history of re-encryptions on a fresh object keeps every plaintext. -/
def RecryptSound (draws : ℕ → ℕ) : Prop :=
  ∀ calls : List ((ℕ → ℕ) × ℤ), (∀ call ∈ calls, ∃ m, ValidEnc key.modulus m call.2) →
    ∃ cs' outs, run (recryptCall draws) cs calls = some (cs', outs) ∧
      List.Forall₂ (fun call out =>
        key.cryptosystem.dec out false = key.cryptosystem.dec call.2 false) calls outs

variable {key cs}

theorem dec_valid {m c : ℤ} (h : ValidEnc key.modulus m c) :
    key.cryptosystem.dec c false = some (m % key.modulus) :=
  (dec_unsigned key.cryptosystem c).trans (key.paillierDec_valid h)

theorem no_dec_of_collision {r g k : ℕ} (f : CommonFactor key.modulus r g k) (m : ℤ) :
    (m + k) % key.modulus ≠ m % key.modulus := by
  intro h
  have hdvd : (key.modulus : ℤ) ∣ k := by
    have hsub := Int.ModEq.dvd (Int.ModEq.symm h)
    rwa [add_sub_cancel_left] at hsub
  exact absurd (Nat.le_of_dvd f.h_pos (Int.natCast_dvd_natCast.mp hdvd)) (not_le.mpr f.h_lt)

theorem recryptSound_single {draws : ℕ → ℕ} (h : RecryptSound key cs draws) (choices : ℕ → ℕ)
    {m c : ℤ} (hc : ValidEnc key.modulus m c) :
    ∃ e, (cs.recrypt draws choices c).map Prod.fst = some e ∧
      key.cryptosystem.dec e false = some (m % key.modulus) := by
  obtain ⟨cs', outs, hrun, houts⟩ := h [(choices, c)] fun call hcall =>
    ⟨m, List.mem_singleton.mp hcall ▸ hc⟩
  obtain ⟨cs₁, e, _, hcall, _, rfl⟩ := run_cons_eq_some.mp hrun
  cases houts with
  | cons hdec _ =>
      refine ⟨e, ?_, hdec.trans (dec_valid hc)⟩
      rw [recryptCall, Option.map_eq_some_iff] at hcall
      obtain ⟨out, hout, hswap⟩ := hcall
      rw [hout, Option.map_some, ← Prod.swap_swap out, hswap, Prod.fst_swap]

variable (hcs : cs.pub.HasModulus key.modulus)
include hcs

theorem encSound_iff (r : ℕ) : EncSound key cs r ↔ NoCommonFactor key r := by
  constructor
  · intro hsound
    by_contra hbad
    obtain ⟨g, k, f⟩ := exists_commonFactor hbad
    obtain ⟨c, hc, hdec⟩ := hsound 0
    obtain ⟨c', hc', hdec'⟩ := hsound (0 + k)
    have hsame : cs.enc (0 + k) r = cs.enc 0 r := paillierEncWith_collision f hcs 0
    obtain rfl : c' = c := Option.some.inj (hc'.symm.trans (hsame.trans hc))
    exact no_dec_of_collision f 0 (Option.some.inj (hdec'.symm.trans hdec))
  · intro hr m
    obtain ⟨c, hc, henc⟩ :=
      paillierEncWith_valid hcs m ((coprime_iff_noCommonFactor key r).mpr hr)
    exact ⟨c, hc, dec_valid henc⟩

theorem exists_validEnc (m : ℤ) : ∃ c : ℤ, ValidEnc key.modulus m c ∧
    (c : ZMod (key.modulus * key.modulus)) = (encBase key.modulus ^ m : (ZMod _)ˣ) := by
  have := hcs.neZero
  obtain ⟨c, hc, _, _, hcast⟩ := paillierEncWith_residue hcs m 1
  obtain ⟨c', hc', henc⟩ := paillierEncWith_valid hcs m (Nat.coprime_one_left key.modulus)
  obtain rfl : c' = c := Option.some.inj (hc'.symm.trans hc)
  refine ⟨c', henc, ?_⟩
  rw [hcast, Nat.cast_one, one_pow, mul_one]

theorem subPlainSound_iff (r : ℕ) : SubPlainSound key cs r ↔ NoCommonFactor key r := by
  constructor
  · intro hsound
    by_contra hbad
    obtain ⟨g, k, f⟩ := exists_commonFactor hbad
    obtain ⟨c, hc, _⟩ := exists_validEnc hcs (0 : ℤ)
    obtain ⟨e, he, hdec⟩ := hsound 0 k c hc
    obtain ⟨e', he', hdec'⟩ := hsound 0 0 c hc
    have hsame := paillierEncWith_collision f hcs (cs.pub.n - k)
    rw [sub_add_cancel] at hsame
    have hsub : cs.subFromPlain c 0 r = cs.subFromPlain c k r := by
      simp only [PaillierCryptosystemBase.subFromPlain, sub_zero, hsame]
    obtain rfl : e' = e := Option.some.inj (he'.symm.trans (hsub.trans he))
    have hmod := Option.some.inj (hdec'.symm.trans hdec)
    have hne := no_dec_of_collision f (0 - k)
    rw [sub_add_cancel] at hne
    exact hne hmod
  · intro hr m p c hc
    obtain ⟨e, he, henc⟩ :=
      (additive_laws hcs).subFromPlain p r ((coprime_iff_noCommonFactor key r).mpr hr) hc
    exact ⟨e, he, dec_valid henc⟩

theorem subCipherSound_iff (r : ℕ) : SubCipherSound key cs r ↔ NoCommonFactor key r := by
  constructor
  · intro hsound
    by_contra hbad
    obtain ⟨g, k, f⟩ := exists_commonFactor hbad
    obtain ⟨c, hc, _⟩ := exists_validEnc hcs (0 : ℤ)
    obtain ⟨c', hc', _⟩ := paillierEncWith_residue hcs 0 r
    obtain ⟨e, he, _⟩ := hsound 0 0 c c' hc hc'
    have hnone : cs.additive.plainMultiplyTo c' (-1) = none :=
      paillierEncWith_not_invertible f hcs hc'
    rw [AdditiveInterface.subFrom, hnone] at he
    cases he
  · intro hr m m' c c' hc hc'
    obtain ⟨c₁, hc₁, henc⟩ :=
      paillierEncWith_valid hcs m' ((coprime_iff_noCommonFactor key r).mpr hr)
    obtain rfl : c₁ = c' := Option.some.inj (hc₁.symm.trans hc')
    obtain ⟨e, he, hsub⟩ := subFrom_refines (additive_laws hcs) hc henc
    exact ⟨e, he, dec_valid hsub⟩

theorem recryptSound_iff (hfresh : cs.randomVals = []) (draws : ℕ → ℕ) :
    RecryptSound key cs draws ↔ ∀ i < recryptPoolSize, NoCommonFactor key (draws i) := by
  constructor
  · intro hsound i hi
    by_contra hbad
    obtain ⟨g, k, f⟩ := exists_commonFactor hbad
    obtain ⟨c, hc, hres⟩ := exists_validEnc hcs (0 : ℤ)
    obtain ⟨c', hc', hres'⟩ := exists_validEnc hcs (0 + k : ℤ)
    -- every index choice is the bad entry, so the two ciphers become one
    obtain ⟨e, he, hdec⟩ := recryptSound_single hsound (fun _ => i) hc
    obtain ⟨e', he', hdec'⟩ := recryptSound_single hsound (fun _ => i) hc'
    have hsame : cs.recrypt draws (fun _ => i) c' = cs.recrypt draws (fun _ => i) c := by
      apply recrypt_congr hcs hfresh hi
      rw [hres, hres']
      exact collision f 0 (pow_eq_mul_of_dvd hcs.n_pos.ne' f.dvd)
    obtain rfl : e' = e := Option.some.inj (he'.symm.trans ((congrArg _ hsame).trans he))
    exact no_dec_of_collision f 0 (Option.some.inj (hdec'.symm.trans hdec))
  · intro hdraws calls hcalls
    have hvalid : ValidPool key.modulus cs := ⟨hcs, by rw [hfresh]; exact fun v hv => nomatch hv⟩
    have hstep : ∀ (cs : PaillierCryptosystemBase) (call : (ℕ → ℕ) × ℤ),
        ValidPool key.modulus cs → (∃ m, ValidEnc key.modulus m call.2) →
        ∃ cs' out, recryptCall draws cs call = some (cs', out) ∧ ValidPool key.modulus cs' ∧
          key.cryptosystem.dec out false = key.cryptosystem.dec call.2 false := by
      intro cs call hcs ⟨m, hm⟩
      obtain ⟨cs', c', hcall, hcs', hc'⟩ := recryptCall_valid hcs
        (fun i hi => (coprime_iff_noCommonFactor key _).mpr (hdraws i hi)) call.1 hm
      exact ⟨cs', c', hcall, hcs', (dec_valid hc').trans (dec_valid hm).symm⟩
    obtain ⟨cs', outs, hrun, _, houts⟩ := run_total _ _ _ hstep hvalid hcalls
    exact ⟨cs', outs, hrun, houts⟩

end Soundness

/-- The loops end with every value below the modulus; exactly those that neither prime
divides are invertible and keep what is encrypted, subtracted or re-encrypted. -/
theorem blinding_sound_iff (key : PaillierKey) (cs : PaillierCryptosystemBase)
    (hcs : cs.pub = key.pub) (hfresh : cs.randomVals = []) :
    (∀ r, (∃ tape rest, blindingLoop cs.pub tape = some (r, rest)) ↔ r < key.modulus) ∧
      (∀ r < key.modulus,
        (IsUnit (r : ZMod key.modulus) ↔ NoCommonFactor key r) ∧
        (EncSound key cs r ↔ NoCommonFactor key r) ∧
        (SubPlainSound key cs r ↔ NoCommonFactor key r) ∧
        (SubCipherSound key cs r ↔ NoCommonFactor key r)) ∧
      ∀ draws : ℕ → ℕ, (∀ i, draws i < key.modulus) →
        (RecryptSound key cs draws ↔ ∀ i < recryptPoolSize, NoCommonFactor key (draws i)) := by
  have hn : cs.pub.HasModulus key.modulus := hcs ▸ key.pub_hasModulus
  refine ⟨?_, ?_, ?_⟩
  · intro r
    rw [blindingLoop_iff, hcs, key.blindingAccepts_iff]
  · intro r _
    refine ⟨?_, encSound_iff hn r, subPlainSound_iff hn r, subCipherSound_iff hn r⟩
    rw [ZMod.isUnit_iff_coprime, coprime_iff_noCommonFactor]
  · intro draws _
    exact recryptSound_iff hn hfresh draws

theorem blinding_sound_iff_sample :
    EncSound sampleKey sampleKey.cryptosystem.toPaillierCryptosystemBase 2 := by
  have h := blinding_sound_iff sampleKey sampleKey.cryptosystem.toPaillierCryptosystemBase rfl rfl
  exact (h.2.1 2 (by decide)).2.1.mpr (by decide)

/-- Under the modulus 35 the loop may end with 5. Encrypting 1 with it loses the 1, the
result cannot be subtracted, and a pool of such draws corrupts what it touches. -/
theorem common_factor_corrupts :
    (∃ c, paillierEnc sampleKey.pub 1 [5] = some (c, []) ∧
      sampleKey.cryptosystem.dec c false ≠ some 1 ∧
      sampleKey.cryptosystem.additive.subFrom 36 c = none) ∧
    ¬ RecryptSound sampleKey sampleKey.cryptosystem.toPaillierCryptosystemBase fun _ => 5 := by
  refine ⟨⟨36 * 5 ^ 35 % 1225, by decide +kernel⟩, ?_⟩
  rw [recryptSound_iff sampleKey.pub_hasModulus rfl]
  intro h
  exact absurd (h 0 (by decide)) (by decide)

end PPFramework
