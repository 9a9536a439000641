import PPFramework.Cipher.Expression

/-!
Programs over cipher variables: statements that assign the value of an expression or
update a variable with it, and their compilation to copies and assignment operators.

A compiled program does on the variables what its statements do, whatever its temporaries
are left with. When the operators of the class respect an encoding relation, it computes
what the statements say on integers and changes no variable that it does not assign.
-/

namespace PPFramework
open PartialRun

inductive CipherStmt
  | assignPlain (dest : ℕ) (p : ℤ) (r : ℕ)
  | assign (dest : ℕ) (e : CipherExpr)
  | updatePlain (op : BinaryOp) (dest : ℕ) (p : ℤ) (r : ℕ)
  | update (op : BinaryOp) (dest : ℕ) (e : CipherExpr) (r : ℕ)

namespace CipherStmt

variable {CipherBase : Type} (ops : CipherOperators CipherBase)

def dest : CipherStmt → ℕ
  | assignPlain x _ _ | assign x _ | updatePlain _ x _ _ | update _ x _ _ => x

def value (σ : Store CipherBase) : CipherStmt → Option CipherBase
  | assignPlain _ p r => ops.assign p r
  | assign _ e => e.eval ops σ
  | updatePlain op x p r => ops.onPlain op (σ x) p r
  | update op x e r => do
      let b ← e.eval ops σ
      ops.applyCipher op (σ x) b r

/-- The code of a statement; its temporaries start at `d` and are gone at its end. -/
def emit (d : ℕ) : CipherStmt → List CipherInstr
  | assignPlain x p r => [.assign x p r]
  | assign x e => e.load d ++ [.copy x (e.operand d)]
  | updatePlain op x p r => [.opPlain op x p r]
  | update op x e r => e.load d ++ [.opCipher op x (e.operand d) r]

def Fits (d : ℕ) : CipherStmt → Prop
  | assignPlain x _ _ | updatePlain _ x _ _ => x < d
  | assign x e | update _ x e _ => x < d ∧ e.Fits d

def Compiles : CipherStmt → Prop
  | assignPlain _ _ _ | updatePlain _ _ _ _ => True
  | assign _ e => e.Compiles ops
  | update op _ e _ => (ops.onCipher op).isSome ∧ e.Compiles ops

def Draws (good : ℕ → Prop) : CipherStmt → Prop
  | assignPlain _ _ r | updatePlain _ _ _ r => good r
  | assign _ e => e.Draws good
  | update _ _ e r => good r ∧ e.Draws good

def clear (τ : Clear) : CipherStmt → Option ℤ
  | assignPlain _ p _ => some p
  | assign _ e => e.clear τ
  | updatePlain op x p _ => do some (op.eval (← τ x) p)
  | update op x e _ => do some (op.eval (← τ x) (← e.clear τ))

def step (σ : Store CipherBase) (s : CipherStmt) : Option (Store CipherBase) :=
  (s.value ops σ).map (Function.update σ s.dest)

def stepClear (τ : Clear) (s : CipherStmt) : Option Clear :=
  (s.clear τ).map fun v => Function.update τ s.dest (some v)

end CipherStmt

def emitProgram (d : ℕ) (prog : List CipherStmt) : List CipherInstr :=
  prog.flatMap (CipherStmt.emit d)

section Programs

variable {CipherBase : Type} {ops : CipherOperators CipherBase} {d : ℕ}

/-- Running the code fails where there is no next store, and otherwise agrees with it on the
variables; the temporaries may differ. -/
def Performs (ops : CipherOperators CipherBase) (d : ℕ) (σ : Store CipherBase)
    (code : List CipherInstr) : Option (Store CipherBase) → Prop
  | none => exec (stepInstr ops) σ code = none
  | some σ₁ => ∃ σ', exec (stepInstr ops) σ code = some σ' ∧ ∀ i < d, σ' i = σ₁ i

theorem step_congr {s : CipherStmt} (h : s.Fits d) {σ σ' : Store CipherBase}
    (hσ : ∀ i < d, σ' i = σ i) : s.value ops σ' = s.value ops σ := by
  cases s with
  | assignPlain x p r => rfl
  | assign x e => exact CipherExpr.eval_congr h.2 hσ
  | updatePlain op x p r => exact congrArg (fun c => ops.onPlain op c p r) (hσ x h)
  | update op x e r => simp only [CipherStmt.value, CipherExpr.eval_congr h.2 hσ, hσ x h.1]

/-- The last instruction of a statement writes to its variable. -/
theorem write_performs {i : CipherInstr} {σ₀ σ : Store CipherBase} (hframe : ∀ j < d, σ j = σ₀ j) :
    Performs ops d σ [i] ((i.value ops σ).map (Function.update σ₀ i.dest)) := by
  cases hvalue : i.value ops σ with
  | none => simp [Performs, stepInstr, hvalue]
  | some c =>
      refine ⟨Function.update σ i.dest c, by simp [stepInstr, hvalue], ?_⟩
      intro j hj
      by_cases hji : j = i.dest
      · subst hji
        simp
      · simp [hji, hframe j hj]

theorem Performs.after_load {σ : Store CipherBase} {e : CipherExpr} (h : e.Fits d)
    {rest : List CipherInstr} {f : CipherBase → Option (Store CipherBase)}
    (hrest : ∀ c σ', σ' (e.operand d) = c → (∀ i < d, σ' i = σ i) →
      Performs ops d σ' rest (f c)) :
    Performs ops d σ (e.load d ++ rest) ((e.eval ops σ).bind f) := by
  have hload : Leaves ops σ (e.load d) (e.operand d) d (e.eval ops σ) :=
    CipherExpr.load_leaves (CipherExpr.emit_leaves h σ)
  cases heval : e.eval ops σ with
  | none =>
      rw [heval] at hload
      have hnone : exec (stepInstr ops) σ (e.load d) = none := hload
      simp [Performs, exec_append, hnone]
  | some c =>
      rw [heval] at hload
      obtain ⟨σ₁, hrun, hc, hframe⟩ := hload
      have hexec : exec (stepInstr ops) σ (e.load d ++ rest) = exec (stepInstr ops) σ₁ rest := by
        rw [exec_append, hrun, Option.bind_some]
      have hdone := hrest c σ₁ hc hframe
      rw [Option.bind_some]
      cases hf : f c with
      | none =>
          rw [hf] at hdone
          exact hexec.trans hdone
      | some σ₂ =>
          rw [hf] at hdone
          obtain ⟨σ', hrun', hagree⟩ := hdone
          exact ⟨σ', hexec.trans hrun', hagree⟩

theorem stmt_performs {s : CipherStmt} (h : s.Fits d) (σ : Store CipherBase) :
    Performs ops d σ (s.emit d) (s.step ops σ) := by
  cases s with
  | assignPlain x p r => exact write_performs fun _ _ => rfl
  | assign x e =>
      have hstep : CipherStmt.step ops σ (.assign x e) =
          (e.eval ops σ).bind fun c => some (Function.update σ x c) := by
        simp [CipherStmt.step, CipherStmt.value, CipherStmt.dest, Option.map_eq_bind]
      rw [hstep]
      refine Performs.after_load h.2 fun c σ' hc hframe => ?_
      have hwrite : Performs ops d σ' [.copy x (e.operand d)] _ := write_performs hframe
      rwa [CipherInstr.value, hc] at hwrite
  | updatePlain op x p r => exact write_performs fun _ _ => rfl
  | update op x e r =>
      have hstep : CipherStmt.step ops σ (.update op x e r) = (e.eval ops σ).bind fun c =>
          (ops.applyCipher op (σ x) c r).map (Function.update σ x) := by
        simp [CipherStmt.step, CipherStmt.value, CipherStmt.dest, Option.map_bind]
      rw [hstep]
      refine Performs.after_load h.2 fun c σ' hc hframe => ?_
      have hwrite : Performs ops d σ' [.opCipher op x (e.operand d) r] _ := write_performs hframe
      rwa [CipherInstr.value, hc, hframe x h.1] at hwrite

theorem step_agree {s : CipherStmt} (h : s.Fits d) {σ σ' σ₁ : Store CipherBase}
    (hσ : ∀ i < d, σ' i = σ i) (hstep : s.step ops σ = some σ₁) :
    ∃ σ₁', s.step ops σ' = some σ₁' ∧ ∀ i < d, σ₁' i = σ₁ i := by
  obtain ⟨c, hc, rfl⟩ := Option.map_eq_some_iff.mp hstep
  refine ⟨Function.update σ' s.dest c, ?_, ?_⟩
  · rw [CipherStmt.step, step_congr h hσ, hc, Option.map_some]
  · intro i hi
    by_cases his : i = s.dest
    · subst his
      simp
    · simp [his, hσ i hi]

/-- The compiled program does on the variables what the statements do one after the other. -/
theorem program_performs {prog : List CipherStmt} (hfits : ∀ s ∈ prog, s.Fits d)
    {σ σ₁ : Store CipherBase} (hrun : exec (CipherStmt.step ops) σ prog = some σ₁) :
    ∃ σ', exec (stepInstr ops) σ (emitProgram d prog) = some σ' ∧ ∀ i < d, σ' i = σ₁ i := by
  have key : ∀ σ₀, (∀ i < d, σ₀ i = σ i) →
      ∃ σ', exec (stepInstr ops) σ₀ (emitProgram d prog) = some σ' ∧ ∀ i < d, σ' i = σ₁ i := by
    induction prog generalizing σ with
    | nil =>
        intro σ₀ hσ₀
        rw [exec_nil, Option.some.injEq] at hrun
        exact ⟨σ₀, rfl, hrun ▸ hσ₀⟩
    | cons s prog ih =>
        intro σ₀ hσ₀
        rw [exec_cons, Option.bind_eq_some_iff] at hrun
        obtain ⟨σ₂, hstep, hrest⟩ := hrun
        have hs := hfits s List.mem_cons_self
        obtain ⟨σ₂', hstep', hagree⟩ := step_agree hs hσ₀ hstep
        have hperforms : Performs ops d σ₀ (s.emit d) _ := stmt_performs hs σ₀
        rw [hstep'] at hperforms
        obtain ⟨σ₃, hcode, hagree'⟩ := hperforms
        obtain ⟨σ', hcode', hfinal⟩ := ih (fun s' hs' => hfits s' (List.mem_cons_of_mem s hs'))
          hrest σ₃ fun i hi => (hagree' i hi).trans (hagree i hi)
        refine ⟨σ', ?_, hfinal⟩
        rw [emitProgram, List.flatMap_cons, exec_append, hcode, Option.bind_some]
        exact hcode'
  exact key σ fun _ _ => rfl

/-- Statements that do not assign a variable leave its cipher as it was. -/
theorem step_frame {prog : List CipherStmt} {i : ℕ} (hi : ∀ s ∈ prog, s.dest ≠ i)
    {σ σ' : Store CipherBase} (hrun : exec (CipherStmt.step ops) σ prog = some σ') :
    σ' i = σ i := by
  refine exec_invariant (fun σ' => σ' i = σ i) (fun s => s.dest ≠ i) ?_ rfl hi hrun
  intro σ₁ s σ₂ h hs hstep
  obtain ⟨c, _, rfl⟩ := Option.map_eq_some_iff.mp hstep
  rw [Function.update_of_ne hs.symm, h]

end Programs

/-- What the operators of a class must do for its programs to compute on plaintexts. -/
structure OperatorLaws {CipherBase : Type} (ops : CipherOperators CipherBase)
    (Enc : ℤ → CipherBase → Prop) (good : ℕ → Prop) : Prop where
  assign : ∀ p r, good r → ∃ c, ops.assign p r = some c ∧ Enc p c
  onCipher : ∀ {op f m m' c c' r}, ops.onCipher op = some f → good r → Enc m c → Enc m' c' →
    ∃ e, f c c' r = some e ∧ Enc (op.eval m m') e
  onPlain : ∀ (op : BinaryOp) {m c} p r, good r → Enc m c →
    ∃ e, ops.onPlain op c p r = some e ∧ Enc (op.eval m p) e

section Laws

variable {CipherBase : Type} {Enc : ℤ → CipherBase → Prop} {good : ℕ → Prop}

theorem additive_operator_laws {I : AdditiveInterface CipherBase} (L : AdditiveLaws I Enc good) :
    OperatorLaws I.operators Enc good where
  assign := L.enc
  onCipher := by
    intro op f m m' c c' r hf hr h h'
    cases op with
    | add =>
        obtain rfl := Option.some.inj hf
        exact L.addTo h h'
    | sub =>
        obtain rfl := Option.some.inj hf
        exact subFrom_refines L h h'
    | mul => cases hf
  onPlain := by
    intro op m c p r hr h
    cases op with
    | add => exact addPlain_refines L p hr h
    | sub => exact L.subFromPlain p r hr h
    | mul => exact L.plainMultiplyTo p h

theorem private_operator_laws {P : PrivateKeyInterface CipherBase} {n : ℕ}
    (L : PrivateKeyLaws P Enc good n) : OperatorLaws P.operators Enc good where
  assign := L.enc
  onCipher := by
    intro op f m m' c c' r hf hr h h'
    cases op with
    | add =>
        obtain rfl := Option.some.inj hf
        rw [BinaryOp.eval, add_comm m m']
        exact viaCipher_refines L (fun p1 p2 => p1 + p2) (fun hp ha => hp.add ha) hr h h'
    | sub =>
        obtain rfl := Option.some.inj hf
        exact viaCipher_refines L (fun p1 p2 => p2 - p1) (fun hp ha => ha.sub hp) hr h h'
    | mul =>
        obtain rfl := Option.some.inj hf
        exact mulCipher_refines L hr h h'
  onPlain := by
    intro op m c p r hr h
    cases op with
    | add =>
        rw [BinaryOp.eval, add_comm m p]
        exact viaPlain_refines L (fun p1 p2 => p1 + p2) (fun p _ _ hab => hab.add_left p) p hr h
    | sub =>
        exact viaPlain_refines L (fun p1 p2 => p2 - p1) (fun p _ _ hab => hab.sub_right p) p hr h
    | mul =>
        rw [BinaryOp.eval, mul_comm m p]
        exact viaPlain_refines L (fun p1 p2 => p1 * p2) (fun p _ _ hab => hab.mul_left p) p hr h

end Laws

section Refinement

variable {CipherBase : Type} {ops : CipherOperators CipherBase} {Enc : ℤ → CipherBase → Prop}
  {good : ℕ → Prop}

theorem applyCipher_refines (L : OperatorLaws ops Enc good) {op : BinaryOp}
    (hop : (ops.onCipher op).isSome) {r : ℕ} (hr : good r) {m m' : ℤ} {c c' : CipherBase}
    (h : Enc m c) (h' : Enc m' c') :
    ∃ e, ops.applyCipher op c c' r = some e ∧ Enc (op.eval m m') e := by
  obtain ⟨f, hf⟩ := Option.isSome_iff_exists.mp hop
  obtain ⟨e, he, henc⟩ := L.onCipher hf hr h h'
  refine ⟨e, ?_, henc⟩
  simp only [CipherOperators.applyCipher, hf, he, Option.bind_eq_bind, Option.bind_some]

theorem eval_refines (L : OperatorLaws ops Enc good) {e : CipherExpr} (hcompiles : e.Compiles ops)
    (hdraws : e.Draws good) {σ : Store CipherBase} {τ : Clear} (h : Holds Enc σ τ) {v : ℤ}
    (hv : e.clear τ = some v) : ∃ c, e.eval ops σ = some c ∧ Enc v c := by
  induction e generalizing v with
  | var i => exact ⟨σ i, rfl, h i v hv⟩
  | binary op lhs rhs r ihl ihr =>
      obtain ⟨a, b, ha, hb, rfl⟩ := clear_binary_inv hv
      obtain ⟨c, hc, henc⟩ := ihl hcompiles.2.1 hdraws.2.1 ha
      obtain ⟨c', hc', henc'⟩ := ihr hcompiles.2.2 hdraws.2.2 hb
      obtain ⟨e, he, hres⟩ := applyCipher_refines L hcompiles.1 hdraws.1 henc henc'
      refine ⟨e, ?_, hres⟩
      simp only [CipherExpr.eval, hc, hc', he, Option.bind_eq_bind, Option.bind_some]
  | withPlain op lhs p r ihl =>
      obtain ⟨a, ha, rfl⟩ := clear_unary_inv hv
      obtain ⟨c, hc, henc⟩ := ihl hcompiles hdraws.2 ha
      obtain ⟨e, he, hres⟩ := L.onPlain op p r hdraws.1 henc
      refine ⟨e, ?_, hres⟩
      simp only [CipherExpr.eval, hc, he, Option.bind_eq_bind, Option.bind_some]

theorem value_refines (L : OperatorLaws ops Enc good) {s : CipherStmt} (hcompiles : s.Compiles ops)
    (hdraws : s.Draws good) {σ : Store CipherBase} {τ : Clear} (h : Holds Enc σ τ) {v : ℤ}
    (hv : s.clear τ = some v) : ∃ c, s.value ops σ = some c ∧ Enc v c := by
  cases s with
  | assignPlain x p r =>
      obtain rfl : p = v := Option.some.inj hv
      exact L.assign p r hdraws
  | assign x e => exact eval_refines L hcompiles hdraws h hv
  | updatePlain op x p r =>
      obtain ⟨a, ha, rfl⟩ := clear_unary_inv hv
      exact L.onPlain op p r hdraws (h x a ha)
  | update op x e r =>
      obtain ⟨a, b, ha, hb, rfl⟩ := clear_binary_inv hv
      obtain ⟨c, hc, henc⟩ := eval_refines L hcompiles.2 hdraws.2 h hb
      obtain ⟨e', he, hres⟩ := applyCipher_refines L hcompiles.1 hdraws.1 (h x a ha) henc
      refine ⟨e', ?_, hres⟩
      simp only [CipherStmt.value, hc, he, Option.bind_eq_bind, Option.bind_some]

/-- Compiled programs compute what their statements say on integers, and the variables
they do not assign keep their ciphers. -/
theorem program_refines (L : OperatorLaws ops Enc good) {d : ℕ} {prog : List CipherStmt}
    (hfits : ∀ s ∈ prog, s.Fits d) (hok : ∀ s ∈ prog, s.Compiles ops ∧ s.Draws good)
    {σ : Store CipherBase} {τ τ' : Clear} (h : Holds Enc σ τ)
    (hclear : exec CipherStmt.stepClear τ prog = some τ') :
    ∃ σ', exec (stepInstr ops) σ (emitProgram d prog) = some σ' ∧
      (∀ i < d, ∀ v, τ' i = some v → Enc v (σ' i)) ∧
      ∀ i < d, (∀ s ∈ prog, s.dest ≠ i) → σ' i = σ i := by
  obtain ⟨σ₁, hrun, hholds⟩ : ∃ σ₁, exec (CipherStmt.step ops) σ prog = some σ₁ ∧
      Holds Enc σ₁ τ' := by
    refine exec_simulation (Holds Enc) (fun s => s.Compiles ops ∧ s.Draws good) ?_ h hok hclear
    intro σ τ s τ' h hs hstep
    obtain ⟨v, hv, rfl⟩ := Option.map_eq_some_iff.mp hstep
    obtain ⟨c, hc, henc⟩ := value_refines L hs.1 hs.2 h hv
    exact ⟨_, by rw [CipherStmt.step, hc, Option.map_some], holds_update h s.dest henc⟩
  obtain ⟨σ', hcode, hagree⟩ := program_performs hfits hrun
  refine ⟨σ', hcode, ?_, ?_⟩
  · intro i hi v hv
    rw [hagree i hi]
    exact hholds i v hv
  · intro i hi hne
    rw [hagree i hi]
    exact step_frame hne hrun

end Refinement

end PPFramework
