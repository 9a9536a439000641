import PPFramework.Paillier.Cryptosystem

/-!
Programs over Paillier ciphers. The generic refinement is instantiated at the
Paillier laws: programs of the additive class, run by a holder of the public key,
and programs of a private-key holder, which may mix the two classes.

A program has a meaning on integers as soon as it reads no variable before a value
has been assigned to it; the initial stores are otherwise arbitrary. That the run
exists says that no division by zero and no missing inverse stopped it.
-/

namespace PPFramework
open PartialRun

structure DecryptsTo (key : PaillierKey) (v c : ℤ) : Prop where
  nonneg : 0 ≤ c
  lt_sq : c < (key.modulus * key.modulus : ℕ)
  valid : ValidEnc key.modulus v c
  dec : key.cryptosystem.dec c false = some (v % key.modulus)

theorem ValidEnc.decryptsTo {key : PaillierKey} {v c : ℤ} (h : ValidEnc key.modulus v c) :
    DecryptsTo key v c where
  nonneg := (validEnc_range h).1
  lt_sq := (validEnc_range h).2
  valid := h
  dec := (dec_unsigned key.cryptosystem c).trans (key.paillierDec_valid h)

theorem homomorphic_run_decrypts (key : PaillierKey) (cs : PaillierCryptosystemBase)
    (hcs : cs.pub.HasModulus key.modulus) (steps : List (CipherOp × ℕ))
    (hdraws : ∀ s ∈ steps, s.2.Coprime key.modulus) (σ : Store ℤ) (τ τ' : Clear)
    (hinit : Holds (ValidEnc key.modulus) σ τ) (hclear : exec stepClearOp τ steps = some τ') :
    ∃ σ', exec (stepAdditive cs.additive) σ steps = some σ' ∧
      ∀ i v, τ' i = some v → DecryptsTo key v (σ' i) := by
  obtain ⟨σ', hrun, hholds⟩ := additive_run_refines (additive_laws hcs) hinit hdraws hclear
  exact ⟨σ', hrun, fun i v hv => (hholds i v hv).decryptsTo⟩

def sampleKey : PaillierKey where
  modulusbits := 6
  p := 5
  q := 7
  accepted := ⟨by decide, by decide, by decide, by decide, by decide, by decide⟩
  distinct := by decide

def sampleProgram : List (CipherOp × ℕ) :=
  [(.assign 0 3, 2), (.assign 1 (-40), 3), (.subCipher 0 1, 1), (.subPlain 0 1300, 4),
    (.mulPlain 0 (-2), 1)]

theorem homomorphic_run_decrypts_sample :
    ∃ τ' σ', exec stepClearOp (fun _ => none) sampleProgram = some τ' ∧ τ' 0 = some 2514 ∧
      exec (stepAdditive sampleKey.cryptosystem.additive) (fun _ => 0) sampleProgram = some σ' ∧
      DecryptsTo sampleKey 2514 (σ' 0) := by
  obtain ⟨σ', hrun, hdec⟩ := homomorphic_run_decrypts sampleKey
    sampleKey.cryptosystem.toPaillierCryptosystemBase sampleKey.pub_hasModulus sampleProgram
    (by decide) (fun _ => 0) (fun _ => none) _ (fun _ _ hv => nomatch hv) rfl
  exact ⟨_, σ', rfl, rfl, hrun, hdec 0 2514 rfl⟩

section BothPaths

variable (key : PaillierKey)

/-- Both classes have the operator: the two results decrypt alike, whatever each drew. -/
def PathsAgree : Prop :=
  ∀ (op : CipherOp) (r r' : ℕ) (σ : Store ℤ) (τ : Clear) (v : ℤ),
    r.Coprime key.modulus → r'.Coprime key.modulus → Holds (ValidEnc key.modulus) σ τ →
    op.clear τ = some v →
    ∃ c c', key.cryptosystem.additive.apply σ r op = some c ∧
      key.cryptosystem.privateKey.apply σ r' op = some c' ∧
      DecryptsTo key v c ∧ DecryptsTo key v c' ∧
      key.cryptosystem.dec c false = key.cryptosystem.dec c' false

def ProductDecrypts : Prop :=
  ∀ (c d m m' : ℤ) (r : ℕ), r.Coprime key.modulus → ValidEnc key.modulus m c →
    ValidEnc key.modulus m' d →
    ∃ e, key.cryptosystem.privateKey.mulCipher c d r = some e ∧ DecryptsTo key (m * m') e

def MixedRunsDecrypt : Prop :=
  ∀ (steps : List CipherStep) (σ : Store ℤ) (τ τ' : Clear),
    (∀ s ∈ steps, s.draw.Coprime key.modulus) → Holds (ValidEnc key.modulus) σ τ →
    exec stepClear τ steps = some τ' →
    ∃ σ', exec (stepStore key.cryptosystem.additive key.cryptosystem.privateKey) σ steps = some σ' ∧
      ∀ i v, τ' i = some v → DecryptsTo key v (σ' i)

theorem pathsAgree : PathsAgree key := by
  intro op r r' σ τ v hr hr' hholds hv
  obtain ⟨c, hc, henc⟩ :=
    additive_apply_refines key.own_additive_laws hholds hr hv
  obtain ⟨c', hc', henc'⟩ := private_apply_refines (privateKey_laws key) hholds hr' hv
  exact ⟨c, c', hc, hc', henc.decryptsTo, henc'.decryptsTo,
    henc.decryptsTo.dec.trans henc'.decryptsTo.dec.symm⟩

theorem productDecrypts : ProductDecrypts key := by
  intro c d m m' r hr h h'
  obtain ⟨e, he, henc⟩ := mulCipher_refines (privateKey_laws key) hr h h'
  exact ⟨e, he, henc.decryptsTo⟩

theorem mixedRunsDecrypt : MixedRunsDecrypt key := by
  intro steps σ τ τ' hdraws hinit hclear
  obtain ⟨σ', hrun, hholds⟩ :=
    mixed_run_refines key.own_additive_laws (privateKey_laws key) hinit hdraws hclear
  exact ⟨σ', hrun, fun i v hv => (hholds i v hv).decryptsTo⟩

/-- Decrypting, computing and encrypting again agrees with homomorphic evaluation. -/
theorem private_path_refines_homomorphic :
    PathsAgree key ∧ ProductDecrypts key ∧ MixedRunsDecrypt key :=
  ⟨pathsAgree key, productDecrypts key, mixedRunsDecrypt key⟩

end BothPaths

theorem private_path_refines_homomorphic_sample :
    ∃ e, sampleKey.cryptosystem.privateKey.mulCipher 36 36 1 = some e ∧
      sampleKey.cryptosystem.dec e false = some 1 := by
  have hone : ValidEnc sampleKey.modulus 1 36 := ⟨1, by decide, by decide⟩
  obtain ⟨e, he, hdec⟩ :=
    (private_path_refines_homomorphic sampleKey).2.1 36 36 1 1 1 (by decide) hone hone
  exact ⟨e, he, hdec.dec⟩

end PPFramework
