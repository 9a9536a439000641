import PPFramework.Cipher.Program
import PPFramework.Paillier.Comparison

/-!
Programs with expressions over Paillier ciphers, in the class of the public key and in
that of the private key. Both compute what the same program computes on integers, up to
a multiple of the modulus; the product of two ciphers compiles in one of them only.

The comparison of two expressions needs the private key. It never fails on equal values,
and on small ones it decides equality.
-/

namespace PPFramework
open Gmp PartialRun

/-- The operators of the two cipher classes that work under a key. -/
inductive ClassOperators (key : PaillierKey) : CipherOperators ℤ → Prop
  | publicKey (cs : PaillierCryptosystemBase) (hcs : cs.pub.HasModulus key.modulus) :
      ClassOperators key cs.additive.operators
  | privateKey : ClassOperators key key.cryptosystem.privateKey.operators

theorem ClassOperators.laws {key : PaillierKey} {ops : CipherOperators ℤ}
    (h : ClassOperators key ops) :
    OperatorLaws ops (ValidEnc key.modulus) (fun r => r.Coprime key.modulus) := by
  cases h with
  | publicKey cs hcs => exact additive_operator_laws (additive_laws hcs)
  | privateKey => exact private_operator_laws (privateKey_laws key)

/-- `c = a * (a - 12); a = (c + a) - c;`, where the product needs the private key. -/
def sampleStatements : List CipherStmt :=
  [.assignPlain 0 5 2,
    .assign 1 (.binary .mul (.var 0) (.withPlain .sub (.var 0) 12 3) 4),
    .assign 0 (.binary .sub (.binary .add (.var 1) (.var 0) 1) (.var 1) 6)]

/-- The values that signed decryption and the conversion to `long` leave as they are. -/
def Small (key : PaillierKey) (v : ℤ) : Prop :=
  0 ≤ v ∧ v < 2 ^ 63 ∧ v < 2 ^ (mpzSizeinbase2 ((key.modulus : ℤ) / 2) - 2)

section Comparison

variable {key : PaillierKey}

theorem Small.lt_half {v : ℤ} (h : Small key v) : v < (key.modulus : ℤ) / 2 := by
  have hnine : (9 : ℤ) ≤ key.modulus := by exact_mod_cast key.nine_le_modulus
  have hlen : 2 < mpzSizeinbase2 ((key.modulus : ℤ) / 2) :=
    (lt_mpzSizeinbase2_iff (by omega) (by decide)).mpr (by omega)
  have hhalf : (2 : ℤ) ^ (mpzSizeinbase2 ((key.modulus : ℤ) / 2) - 2) ≤ key.modulus / 2 :=
    (lt_mpzSizeinbase2_iff (by omega) (by omega)).mp (by omega)
  exact lt_of_lt_of_le h.2.2 hhalf

theorem Small.emod {v : ℤ} (h : Small key v) : v % key.modulus = v := by
  have hlt := h.lt_half
  exact Int.emod_eq_of_lt h.1 (by omega)

theorem alike_of_modEq {n v w : ℤ} (h : v ≡ w [ZMOD n]) : Alike n (v % n) (w % n) := by
  rw [h]
  exact ⟨Iff.rfl, Int.ModEq.refl _⟩

theorem alike_iff_of_small {v w : ℤ} (hv : Small key v) (hw : Small key w) :
    Alike key.modulus (v % key.modulus) (w % key.modulus) ↔ v = w := by
  rw [hv.emod, hw.emod]
  constructor
  · intro h
    have hmod : v % 2 ^ 63 = w % 2 ^ 63 := h.2
    rwa [Int.emod_eq_of_lt hv.1 hv.2.1, Int.emod_eq_of_lt hw.1 hw.2.1] at hmod
  · rintro rfl
    exact ⟨Iff.rfl, Int.ModEq.refl _⟩

theorem cipherEq_valid {v w c e : ℤ} (hc : ValidEnc key.modulus v c)
    (he : ValidEnc key.modulus w e) :
    ∃ b : Bool, key.cryptosystem.cipherEq c e = some b ∧
      key.cryptosystem.cipherNe c e = some !b ∧
      (b = true ↔ Alike key.modulus (v % key.modulus) (w % key.modulus)) := by
  obtain ⟨h0, hlt, _⟩ := isResidue_emod (M := key.modulus) v
  obtain ⟨h0', hlt', _⟩ := isResidue_emod (M := key.modulus) w
  exact key.cipherEq_spec h0 hlt h0' hlt' (key.paillierDec_valid hc) (key.paillierDec_valid he)

/-- Both operands of a comparison are computed, and the variables are left alone. -/
theorem operands_refine {d : ℕ} {e e' : CipherExpr} (hfits : e.Fits d) (hfits' : e'.Fits d)
    (hdraws : e.Draws fun r => r.Coprime key.modulus)
    (hdraws' : e'.Draws fun r => r.Coprime key.modulus) {σ : Store ℤ} {τ : Clear}
    (h : Holds (ValidEnc key.modulus) σ τ) {v w : ℤ} (hv : e.clear τ = some v)
    (hw : e'.clear τ = some w) :
    ∃ σ', exec (stepInstr key.cryptosystem.privateKey.operators) σ
        (e.load d ++ e'.load (d + 1)) = some σ' ∧
      ValidEnc key.modulus v (σ' (e.operand d)) ∧
      ValidEnc key.modulus w (σ' (e'.operand (d + 1))) ∧ ∀ i < d, σ' i = σ i := by
  obtain ⟨c, hc, henc⟩ := eval_refines ClassOperators.privateKey.laws
    (PrivateKeyInterface.compiles _ e) hdraws h hv
  obtain ⟨c', hc', henc'⟩ := eval_refines ClassOperators.privateKey.laws
    (PrivateKeyInterface.compiles _ e') hdraws' h hw
  obtain ⟨σ', hrun, hval, hval', hframe⟩ := CipherExpr.load_two hfits hfits' hc hc'
  exact ⟨σ', hrun, hval ▸ henc, hval' ▸ henc', hframe⟩

end Comparison

/-- `c == c_save + p + d` where the variables hold 15, 3 and 2 and `p` is 10. -/
def sampleComparison : CipherExpr × CipherExpr :=
  (.var 0, .binary .add (.withPlain .add (.var 1) 10 2) (.var 2) 3)

end PPFramework
