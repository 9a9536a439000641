import PPFramework.Cipher.Interface

/-!
Cipher programs refine integer programs. An encoding relation `Enc v c` says that
the cipher `c` stands for the integer `v`; the laws of an interface say that each
virtual function respects it. From the laws every operator does, on either path,
and by simulation every run.

Nothing is assumed about how ciphers are built, and the relation need not be
functional: the private path only needs the decrypted value to be congruent.
-/

namespace PPFramework
open PartialRun

variable {CipherBase : Type}

/-- What the additive operators rely on. `good` are the blinding factors that do no harm. -/
structure AdditiveLaws (I : AdditiveInterface CipherBase) (Enc : ℤ → CipherBase → Prop)
    (good : ℕ → Prop) : Prop where
  enc : ∀ p r, good r → ∃ c, I.enc p r = some c ∧ Enc p c
  addTo : ∀ {m m' c c'}, Enc m c → Enc m' c' → ∃ e, I.addTo c c' = some e ∧ Enc (m + m') e
  plainMultiplyTo : ∀ {m c} k, Enc m c → ∃ e, I.plainMultiplyTo c k = some e ∧ Enc (m * k) e
  subFromPlain : ∀ {m c} p r, good r → Enc m c → ∃ e, I.subFromPlain c p r = some e ∧ Enc (m - p) e

structure PrivateKeyLaws (P : PrivateKeyInterface CipherBase) (Enc : ℤ → CipherBase → Prop)
    (good : ℕ → Prop) (n : ℕ) : Prop where
  enc : ∀ p r, good r → ∃ c, P.enc p r = some c ∧ Enc p c
  dec : ∀ {m c}, Enc m c → P.dec c false = some (m % n)
  congr : ∀ {m m' c}, Enc m c → m ≡ m' [ZMOD n] → Enc m' c

/-- Every variable with a clear value holds a cipher that encodes it. -/
def Holds (Enc : ℤ → CipherBase → Prop) (σ : Store CipherBase) (τ : Clear) : Prop :=
  ∀ i v, τ i = some v → Enc v (σ i)

theorem holds_update {Enc : ℤ → CipherBase → Prop} {σ : Store CipherBase} {τ : Clear}
    (h : Holds Enc σ τ) (d : ℕ) {v : ℤ} {c : CipherBase} (hc : Enc v c) :
    Holds Enc (Function.update σ d c) (Function.update τ d (some v)) := by
  intro i w hw
  by_cases hi : i = d
  · subst hi
    simp only [Function.update_self, Option.some.injEq] at hw ⊢
    exact hw ▸ hc
  · simp only [ne_eq, hi, not_false_eq_true, Function.update_of_ne] at hw ⊢
    exact h i w hw

theorem clear_unary_inv {x : Option ℤ} {f : ℤ → ℤ} {v : ℤ} (h : (do some (f (← x))) = some v) :
    ∃ a, x = some a ∧ f a = v := by
  cases x with
  | none => cases h
  | some a => exact ⟨a, rfl, Option.some.inj h⟩

theorem clear_binary_inv {x y : Option ℤ} {f : ℤ → ℤ → ℤ} {v : ℤ}
    (h : (do some (f (← x) (← y))) = some v) : ∃ a b, x = some a ∧ y = some b ∧ f a b = v := by
  cases x with
  | none => cases h
  | some a =>
      obtain ⟨b, hb, hv⟩ := clear_unary_inv h
      exact ⟨a, b, rfl, hb, hv⟩

section Additive

variable {I : AdditiveInterface CipherBase} {Enc : ℤ → CipherBase → Prop} {good : ℕ → Prop}

theorem subFrom_refines (L : AdditiveLaws I Enc good) {m m' : ℤ} {c c' : CipherBase}
    (h : Enc m c) (h' : Enc m' c') : ∃ e, I.subFrom c c' = some e ∧ Enc (m - m') e := by
  obtain ⟨md, hmd, hneg⟩ := L.plainMultiplyTo (-1) h'
  obtain ⟨e, he, hadd⟩ := L.addTo h hneg
  refine ⟨e, ?_, ?_⟩
  · simp only [AdditiveInterface.subFrom, hmd, he, Option.bind_eq_bind, Option.bind_some]
  · simpa only [mul_neg, mul_one, ← sub_eq_add_neg] using hadd

theorem addPlain_refines (L : AdditiveLaws I Enc good) {m : ℤ} {c : CipherBase} (p : ℤ) {r : ℕ}
    (hr : good r) (h : Enc m c) : ∃ e, I.addPlain c p r = some e ∧ Enc (m + p) e := by
  obtain ⟨cb, hcb, henc⟩ := L.enc p r hr
  obtain ⟨e, he, hadd⟩ := L.addTo h henc
  refine ⟨e, ?_, hadd⟩
  simp only [AdditiveInterface.addPlain, hcb, he, Option.bind_eq_bind, Option.bind_some]

theorem recrypt_refines (L : AdditiveLaws I Enc good) {m : ℤ} {c : CipherBase} {r : ℕ}
    (hr : good r) (h : Enc m c) : ∃ e, I.recrypt c r = some e ∧ Enc m e := by
  obtain ⟨z, hz, henc⟩ := L.enc 0 r hr
  obtain ⟨e, he, hadd⟩ := L.addTo h henc
  refine ⟨e, ?_, by rwa [add_zero] at hadd⟩
  simp only [AdditiveInterface.recrypt, hz, he, Option.bind_eq_bind, Option.bind_some]

theorem additive_apply_refines (L : AdditiveLaws I Enc good) {σ : Store CipherBase} {τ : Clear}
    (h : Holds Enc σ τ) {r : ℕ} (hr : good r) {op : CipherOp} {v : ℤ} (hv : op.clear τ = some v) :
    ∃ c, I.apply σ r op = some c ∧ Enc v c := by
  cases op with
  | assign d p =>
      obtain rfl : p = v := Option.some.inj hv
      exact L.enc p r hr
  | addCipher d s =>
      obtain ⟨a, b, ha, hb, rfl⟩ := clear_binary_inv hv
      exact L.addTo (h d a ha) (h s b hb)
  | addPlain d p =>
      obtain ⟨a, ha, rfl⟩ := clear_unary_inv hv
      exact addPlain_refines L p hr (h d a ha)
  | subCipher d s =>
      obtain ⟨a, b, ha, hb, rfl⟩ := clear_binary_inv hv
      exact subFrom_refines L (h d a ha) (h s b hb)
  | subPlain d p =>
      obtain ⟨a, ha, rfl⟩ := clear_unary_inv hv
      exact L.subFromPlain p r hr (h d a ha)
  | mulPlain d p =>
      obtain ⟨a, ha, rfl⟩ := clear_unary_inv hv
      exact L.plainMultiplyTo p (h d a ha)

theorem additive_run_refines (L : AdditiveLaws I Enc good) {steps : List (CipherOp × ℕ)}
    {σ : Store CipherBase} {τ τ' : Clear} (h : Holds Enc σ τ) (hgood : ∀ s ∈ steps, good s.2)
    (hclear : exec stepClearOp τ steps = some τ') :
    ∃ σ', exec (stepAdditive I) σ steps = some σ' ∧ Holds Enc σ' τ' := by
  refine exec_simulation (Holds Enc) (fun s => good s.2) ?_ h hgood hclear
  intro σ τ s τ' h hs hstep
  obtain ⟨v, hv, rfl⟩ := Option.map_eq_some_iff.mp hstep
  obtain ⟨c, hc, henc⟩ := additive_apply_refines L h hs hv
  refine ⟨_, ?_, holds_update h s.1.dest henc⟩
  rw [stepAdditive, hc, Option.map_some]

end Additive

section PrivateKey

variable {P : PrivateKeyInterface CipherBase} {Enc : ℤ → CipherBase → Prop} {good : ℕ → Prop}
  {n : ℕ}

/-- Decrypting, computing and encrypting again: the reduction of the intermediate
plaintext is absorbed when `f` respects congruence in its second argument. -/
theorem viaPlain_refines (L : PrivateKeyLaws P Enc good n) (f : ℤ → ℤ → ℤ)
    (hf : ∀ p {a b : ℤ}, a ≡ b [ZMOD n] → f p a ≡ f p b [ZMOD n]) {m : ℤ} {c : CipherBase} (p : ℤ)
    {r : ℕ} (hr : good r) (h : Enc m c) : ∃ e, P.viaPlain f c p r = some e ∧ Enc (f p m) e := by
  obtain ⟨e, he, henc⟩ := L.enc (f p (m % n)) r hr
  refine ⟨e, ?_, L.congr henc (hf p (Int.mod_modEq m n))⟩
  simp only [PrivateKeyInterface.viaPlain, L.dec h, he, Option.bind_eq_bind, Option.bind_some]

theorem viaCipher_refines (L : PrivateKeyLaws P Enc good n) (f : ℤ → ℤ → ℤ)
    (hf : ∀ {p p' a b : ℤ}, p ≡ p' [ZMOD n] → a ≡ b [ZMOD n] → f p a ≡ f p' b [ZMOD n])
    {m m' : ℤ} {c c' : CipherBase} {r : ℕ} (hr : good r) (h : Enc m c) (h' : Enc m' c') :
    ∃ e, P.viaCipher (P.viaPlain f) c c' r = some e ∧ Enc (f m' m) e := by
  obtain ⟨e, he, henc⟩ :=
    viaPlain_refines L f (fun p _ _ hab => hf (Int.ModEq.refl p) hab) (m' % n) hr h
  refine ⟨e, ?_, L.congr henc (hf (Int.mod_modEq m' n) (Int.ModEq.refl m))⟩
  simp only [PrivateKeyInterface.viaCipher, L.dec h', he, Option.bind_eq_bind, Option.bind_some]

theorem mulCipher_refines (L : PrivateKeyLaws P Enc good n) {m m' : ℤ} {c c' : CipherBase} {r : ℕ}
    (hr : good r) (h : Enc m c) (h' : Enc m' c') :
    ∃ e, P.mulCipher c c' r = some e ∧ Enc (m * m') e := by
  rw [mul_comm m m']
  exact viaCipher_refines L (fun p1 p2 => p1 * p2) (fun hp ha => hp.mul ha) hr h h'

theorem private_apply_refines (L : PrivateKeyLaws P Enc good n) {σ : Store CipherBase} {τ : Clear}
    (h : Holds Enc σ τ) {r : ℕ} (hr : good r) {op : CipherOp} {v : ℤ} (hv : op.clear τ = some v) :
    ∃ c, P.apply σ r op = some c ∧ Enc v c := by
  cases op with
  | assign d p =>
      obtain rfl : p = v := Option.some.inj hv
      exact L.enc p r hr
  | addCipher d s =>
      obtain ⟨a, b, ha, hb, rfl⟩ := clear_binary_inv hv
      rw [add_comm a b]
      exact viaCipher_refines L (fun p1 p2 => p1 + p2) (fun hp ha => hp.add ha) hr
        (h d a ha) (h s b hb)
  | addPlain d p =>
      obtain ⟨a, ha, rfl⟩ := clear_unary_inv hv
      rw [add_comm a p]
      exact viaPlain_refines L (fun p1 p2 => p1 + p2) (fun p _ _ hab => hab.add_left p) p hr
        (h d a ha)
  | subCipher d s =>
      obtain ⟨a, b, ha, hb, rfl⟩ := clear_binary_inv hv
      exact viaCipher_refines L (fun p1 p2 => p2 - p1) (fun hp ha => ha.sub hp) hr
        (h d a ha) (h s b hb)
  | subPlain d p =>
      obtain ⟨a, ha, rfl⟩ := clear_unary_inv hv
      exact viaPlain_refines L (fun p1 p2 => p2 - p1) (fun p _ _ hab => hab.sub_right p) p hr
        (h d a ha)
  | mulPlain d p =>
      obtain ⟨a, ha, rfl⟩ := clear_unary_inv hv
      rw [mul_comm a p]
      exact viaPlain_refines L (fun p1 p2 => p1 * p2) (fun p _ _ hab => hab.mul_left p) p hr
        (h d a ha)

end PrivateKey

section Mixed

variable {A : AdditiveInterface CipherBase} {P : PrivateKeyInterface CipherBase}
  {Enc : ℤ → CipherBase → Prop} {good : ℕ → Prop} {n : ℕ}

theorem mixed_run_refines (LA : AdditiveLaws A Enc good) (LP : PrivateKeyLaws P Enc good n)
    {steps : List CipherStep} {σ : Store CipherBase} {τ τ' : Clear} (h : Holds Enc σ τ)
    (hgood : ∀ s ∈ steps, good s.draw) (hclear : exec stepClear τ steps = some τ') :
    ∃ σ', exec (stepStore A P) σ steps = some σ' ∧ Holds Enc σ' τ' := by
  refine exec_simulation (Holds Enc) (fun s => good s.draw) ?_ h hgood hclear
  intro σ τ s τ' h hs hstep
  obtain ⟨v, hv, rfl⟩ := Option.map_eq_some_iff.mp hstep
  have happly : ∃ c, s.apply A P σ = some c ∧ Enc v c := by
    cases s with
    | additive op r => exact additive_apply_refines LA h hs hv
    | viaPrivateKey op r => exact private_apply_refines LP h hs hv
    | mulCipher d t r =>
        obtain ⟨a, b, ha, hb, rfl⟩ := clear_binary_inv hv
        exact mulCipher_refines LP hs (h d a ha) (h t b hb)
  obtain ⟨c, hc, henc⟩ := happly
  refine ⟨_, ?_, holds_update h s.dest henc⟩
  rw [stepStore, hc, Option.map_some]

end Mixed

end PPFramework
