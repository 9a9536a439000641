import PPFramework.Machine.Traverse
import PPFramework.Paillier.Cryptosystem

/-!
The pool behind `recrypt`. Its entries are encryptions of zero as long as the draws
it was filled with are invertible, and re-encryption multiplies by some of them.
-/

namespace PPFramework
open Gmp PartialRun

structure ValidPool (n : ℕ) (cs : PaillierCryptosystemBase) : Prop where
  pub : cs.pub.HasModulus n
  vals : ∀ v ∈ cs.randomVals, ValidEnc n 0 v

/-- One call of `recrypt` on an object, with its index choices and its cipher. -/
def recryptCall (draws : ℕ → ℕ) (cs : PaillierCryptosystemBase) (call : (ℕ → ℕ) × ℤ) :
    Option (PaillierCryptosystemBase × ℤ) :=
  (cs.recrypt draws call.1 call.2).map Prod.swap

section Pool

variable {n : ℕ} {cs : PaillierCryptosystemBase}

theorem poolValue_residue (hn : cs.pub.HasModulus n) (r : ℕ) :
    ∃ v, mpzPowm r cs.pub.n cs.pub.nSquared = some v ∧
      IsResidue (n * n) ((r : ZMod (n * n)) ^ n) v := by
  have := hn.neZero
  rw [hn.n_eq, hn.nSquared_cast]
  simpa only [Int.cast_natCast] using mpzPowm_natCast (M := n * n) r n

theorem validEnc_poolValue (hn : cs.pub.HasModulus n) {r : ℕ} (hr : r.Coprime n) {v : ℤ}
    (hv : IsResidue (n * n) ((r : ZMod (n * n)) ^ n) v) : ValidEnc n 0 v := by
  have := hn.neZero
  obtain ⟨s, hs⟩ := exists_unit_of_coprime hr
  refine (validEnc_iff 0 v).mpr
    ⟨encBase n ^ (0 : ℤ) * s ^ n, ?_, BlindedPower.blinded_intro _ _ _ _⟩
  rwa [zpow_zero, one_mul, Units.val_pow_eq_pow_val, hs]

theorem fillPool_spec (hn : cs.pub.HasModulus n) (draws : ℕ → ℕ)
    (hpool : cs.randomVals.length < recryptPoolSize) :
    ∃ vals, cs.fillPool draws = some { cs with randomVals := cs.randomVals ++ vals } ∧
      List.Forall₂ (fun i v => IsResidue (n * n) ((draws i : ZMod (n * n)) ^ n) v)
        (List.range recryptPoolSize) vals := by
  have hdraw : ∀ i ∈ List.range recryptPoolSize, _ := fun i _ => poolValue_residue hn (draws i)
  obtain ⟨vals, hvals, hres⟩ := Traverse.mapM_total hdraw
  refine ⟨vals, ?_, hres⟩
  rw [PaillierCryptosystemBase.fillPool, if_pos hpool, Option.bind_eq_bind, hvals,
    Option.bind_some]

theorem fillPool_valid (h : ValidPool n cs) {draws : ℕ → ℕ}
    (hdraws : ∀ i < recryptPoolSize, (draws i).Coprime n) :
    ∃ cs', cs.fillPool draws = some cs' ∧ ValidPool n cs' ∧
      recryptPoolSize ≤ cs'.randomVals.length := by
  by_cases hpool : cs.randomVals.length < recryptPoolSize
  · obtain ⟨vals, hfill, hres⟩ := fillPool_spec h.pub draws hpool
    refine ⟨_, hfill, ⟨h.pub, ?_⟩, ?_⟩
    · intro v hv
      cases List.mem_append.mp hv with
      | inl hv => exact h.vals v hv
      | inr hv =>
          obtain ⟨i, hi, hv⟩ := Traverse.forall₂_mem_right hres hv
          exact validEnc_poolValue h.pub (hdraws i (List.mem_range.mp hi)) hv
    · have hlen := hres.length_eq
      rw [List.length_range] at hlen
      rw [List.length_append, ← hlen]
      exact Nat.le_add_left _ _
  · exact ⟨cs, if_neg hpool, h, not_lt.mp hpool⟩

theorem poolIndex_lt {pool : List ℤ} (hpool : 0 < pool.length) (i : ℕ) :
    ∃ v ∈ pool, pool[i % pool.length]? = some v :=
  ⟨_, List.getElem_mem _, List.getElem?_eq_getElem (Nat.mod_lt i hpool)⟩

theorem multiplyByPool_valid (h : ValidPool n cs) (hpool : 0 < cs.randomVals.length)
    (choices : ℕ → ℕ) {m c : ℤ} (hc : ValidEnc n m c) :
    ∃ c', cs.multiplyByPool choices c = some c' ∧ ValidEnc n m c' := by
  have := h.pub.neZero
  refine exec_total (ValidEnc n m) (fun _ => True) ?_ hc (fun _ _ => trivial)
  intro c i hc _
  obtain ⟨v, hmem, hv⟩ := poolIndex_lt hpool (choices i)
  obtain ⟨e, he, henc⟩ := validEnc_mul hc (h.vals v hmem)
  rw [add_zero] at henc
  refine ⟨e, ?_, henc⟩
  rw [Option.bind_eq_bind, hv, Option.bind_some, h.pub.nSquared_cast, he]

theorem recryptCall_valid (h : ValidPool n cs) {draws : ℕ → ℕ}
    (hdraws : ∀ i < recryptPoolSize, (draws i).Coprime n) (choices : ℕ → ℕ) {m c : ℤ}
    (hc : ValidEnc n m c) :
    ∃ cs' c', recryptCall draws cs (choices, c) = some (cs', c') ∧ ValidPool n cs' ∧
      ValidEnc n m c' := by
  obtain ⟨cs', hfill, h', hlen⟩ := fillPool_valid h hdraws
  obtain ⟨c', hmul, hc'⟩ :=
    multiplyByPool_valid h' (lt_of_lt_of_le (by decide) hlen) choices hc
  refine ⟨cs', c', ?_, h', hc'⟩
  simp only [recryptCall, PaillierCryptosystemBase.recrypt, hfill, hmul, Option.bind_eq_bind,
    Option.bind_some, Option.map_some, Prod.swap]

theorem multiplyByPool_congr (hpool : 0 < cs.randomVals.length) {choices : ℕ → ℕ} {c c' : ℤ}
    (h : ∀ v, cs.randomVals[choices 0 % cs.randomVals.length]? = some v →
      mpzMod (c * v) cs.pub.nSquared = mpzMod (c' * v) cs.pub.nSquared) :
    cs.multiplyByPool choices c = cs.multiplyByPool choices c' := by
  obtain ⟨k, hk⟩ : ∃ k, min recryptChooseSize cs.randomVals.length = k + 1 :=
    Nat.exists_eq_succ_of_ne_zero (lt_min (by decide) hpool).ne'
  obtain ⟨v, _, hv⟩ := poolIndex_lt hpool (choices 0)
  simp only [PaillierCryptosystemBase.multiplyByPool, hk, List.range_succ_eq_map,
    List.foldlM_cons, hv, Option.bind_eq_bind, Option.bind_some, h v hv]

/-- On a fresh object, a constant choice of index multiplies by that draw's entry. -/
theorem recrypt_congr (hn : cs.pub.HasModulus n) (hfresh : cs.randomVals = []) {draws : ℕ → ℕ}
    {i : ℕ} (hi : i < recryptPoolSize) {c c' : ℤ}
    (h : (c : ZMod (n * n)) * (draws i : ZMod (n * n)) ^ n = c' * (draws i : ZMod (n * n)) ^ n) :
    cs.recrypt draws (fun _ => i) c = cs.recrypt draws (fun _ => i) c' := by
  have := hn.neZero
  obtain ⟨vals, hfill, hres⟩ := fillPool_spec hn draws (by rw [hfresh]; decide)
  rw [hfresh, List.nil_append] at hfill
  have hlen : vals.length = recryptPoolSize := by
    rw [← hres.length_eq, List.length_range]
  have hi' : i < vals.length := hlen ▸ hi
  have hv : vals[i % vals.length]? = some (vals.get ⟨i, hi'⟩) := by
    rw [Nat.mod_eq_of_lt hi', List.getElem?_eq_getElem hi', List.get_eq_getElem]
  -- the entry at the chosen index is the power of the `i`-th draw
  have hget := List.Forall₂.get hres (by rwa [List.length_range]) hi'
  generalize vals.get ⟨i, hi'⟩ = v at hv hget
  have hvi : (v : ZMod (n * n)) = (draws i : ZMod (n * n)) ^ n := by
    simpa only [List.get_eq_getElem, List.getElem_range] using hget.2.2
  have hmul : PaillierCryptosystemBase.multiplyByPool { cs with randomVals := vals }
      (fun _ => i) c = PaillierCryptosystemBase.multiplyByPool { cs with randomVals := vals }
      (fun _ => i) c' := by
    apply multiplyByPool_congr (by rw [hlen]; decide)
    intro v' hv'
    obtain rfl : v = v' := Option.some.inj (hv.symm.trans hv')
    obtain ⟨e, he, hres⟩ := mpzMod_residue (M := n * n) (c * v)
    obtain ⟨e', he', hres'⟩ := mpzMod_residue (M := n * n) (c' * v)
    rw [Int.cast_mul, hvi, h] at hres
    rw [Int.cast_mul, hvi] at hres'
    rw [hn.nSquared_cast, he, he', isResidue_unique hres hres']
  simp only [PaillierCryptosystemBase.recrypt, hfill, Option.bind_eq_bind, Option.bind_some, hmul]

end Pool

end PPFramework
