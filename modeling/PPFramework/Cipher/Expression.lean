import PPFramework.Cipher.Refinement

/-!
Expressions of ciphers. The free operators of `Cryptosystem.hpp` take the left operand
by value and the right one by reference, apply the assignment operator to their copy
and return a copy of it. The meaning of an expression is given twice: as a value, and
as the copies and assignments that the compiled program makes on numbered objects,
where everything from a given number on is a temporary.

The two agree: the code of an expression leaves its value in the object it was given
and touches nothing below it.
-/

namespace PPFramework
open PartialRun

inductive BinaryOp
  | add
  | sub
  | mul
deriving DecidableEq

def BinaryOp.eval : BinaryOp → ℤ → ℤ → ℤ
  | add, a, b => a + b
  | sub, a, b => a - b
  | mul, a, b => a * b

/-- The assignment operators that a cipher class ends up with; an operator it does not
have makes the program ill-formed. -/
structure CipherOperators (CipherBase : Type) where
  assign : ℤ → ℕ → Option CipherBase
  onCipher : BinaryOp → Option (CipherBase → CipherBase → ℕ → Option CipherBase)
  onPlain : BinaryOp → CipherBase → ℤ → ℕ → Option CipherBase

/-- `AdditiveInterface::Cipher`, the operators of the public class. -/
def AdditiveInterface.operators {CipherBase : Type} (I : AdditiveInterface CipherBase) :
    CipherOperators CipherBase where
  assign := I.enc
  onCipher
    | .add => some fun c d _ => I.addTo c d
    | .sub => some fun c d _ => I.subFrom c d
    | .mul => none
  onPlain
    | .add => I.addPlain
    | .sub => I.subFromPlain
    | .mul => fun c p _ => I.plainMultiplyTo c p

/-- `PrivateKeyInterface::Cipher`, which `PrivateKeyOverrides` puts first. -/
def PrivateKeyInterface.operators {CipherBase : Type} (I : PrivateKeyInterface CipherBase) :
    CipherOperators CipherBase where
  assign := I.enc
  onCipher
    | .add => some I.addCipher
    | .sub => some I.subCipher
    | .mul => some I.mulCipher
  onPlain
    | .add => I.addPlain
    | .sub => I.subPlain
    | .mul => I.mulPlain

inductive CipherExpr
  | var (i : ℕ)
  | binary (op : BinaryOp) (lhs rhs : CipherExpr) (r : ℕ)
  | withPlain (op : BinaryOp) (lhs : CipherExpr) (p : ℤ) (r : ℕ)

/-- What a program does to objects: the copy constructor and the assignment operators. -/
inductive CipherInstr
  | copy (dest src : ℕ)
  | assign (dest : ℕ) (p : ℤ) (r : ℕ)
  | opCipher (op : BinaryOp) (dest src : ℕ) (r : ℕ)
  | opPlain (op : BinaryOp) (dest : ℕ) (p : ℤ) (r : ℕ)

def CipherInstr.dest : CipherInstr → ℕ
  | copy d _ | assign d _ _ | opCipher _ d _ _ | opPlain _ d _ _ => d

section Meaning

variable {CipherBase : Type} (ops : CipherOperators CipherBase)

def CipherOperators.applyCipher (op : BinaryOp) (c d : CipherBase) (r : ℕ) : Option CipherBase := do
  let f ← ops.onCipher op
  f c d r

def CipherInstr.value (σ : Store CipherBase) : CipherInstr → Option CipherBase
  | copy _ s => some (σ s)
  | assign _ p r => ops.assign p r
  | opCipher op d s r => ops.applyCipher op (σ d) (σ s) r
  | opPlain op d p r => ops.onPlain op (σ d) p r

def stepInstr (σ : Store CipherBase) (i : CipherInstr) : Option (Store CipherBase) :=
  (i.value ops σ).map (Function.update σ i.dest)

namespace CipherExpr

def eval (σ : Store CipherBase) : CipherExpr → Option CipherBase
  | var i => some (σ i)
  | binary op lhs rhs r => do
      let a ← lhs.eval σ
      let b ← rhs.eval σ
      ops.applyCipher op a b r
  | withPlain op lhs p r => do
      let a ← lhs.eval σ
      ops.onPlain op a p r

/-- The object a `const C&` parameter binds to, when a temporary would be at `d`. -/
def operand (d : ℕ) : CipherExpr → ℕ
  | var i => i
  | binary _ _ _ _ | withPlain _ _ _ _ => d

/-- The code that leaves the value in a new object at `d`; later numbers are free. -/
def emit (d : ℕ) : CipherExpr → List CipherInstr
  | var i => [.copy d i]
  | binary op lhs rhs r =>
      -- the parameter `lhs` is the object at `d + 1`, and `return lhs` copies it
      lhs.emit (d + 1) ++
        ((match rhs with
          | var _ => []
          | binary _ _ _ _ | withPlain _ _ _ _ => rhs.emit (d + 2)) ++
        [.opCipher op (d + 1) (rhs.operand (d + 2)) r, .copy d (d + 1)])
  | withPlain op lhs p r => lhs.emit (d + 1) ++ [.opPlain op (d + 1) p r, .copy d (d + 1)]

def load (d : ℕ) : CipherExpr → List CipherInstr
  | var _ => []
  | binary op lhs rhs r => (binary op lhs rhs r).emit d
  | withPlain op lhs p r => (withPlain op lhs p r).emit d

/-- Every variable of the expression is one of the first `d` objects. -/
def Fits (d : ℕ) : CipherExpr → Prop
  | var i => i < d
  | binary _ lhs rhs _ => lhs.Fits d ∧ rhs.Fits d
  | withPlain _ lhs _ _ => lhs.Fits d

/-- The class has every operator that the expression uses. -/
def Compiles : CipherExpr → Prop
  | var _ => True
  | binary op lhs rhs _ => (ops.onCipher op).isSome ∧ lhs.Compiles ∧ rhs.Compiles
  | withPlain _ lhs _ _ => lhs.Compiles

def Draws (good : ℕ → Prop) : CipherExpr → Prop
  | var _ => True
  | binary _ lhs rhs r => good r ∧ lhs.Draws good ∧ rhs.Draws good
  | withPlain _ lhs _ r => good r ∧ lhs.Draws good

def clear (τ : Clear) : CipherExpr → Option ℤ
  | var i => τ i
  | binary op lhs rhs _ => do some (op.eval (← lhs.clear τ) (← rhs.clear τ))
  | withPlain op lhs p _ => do some (op.eval (← lhs.clear τ) p)

end CipherExpr

end Meaning

section Emission

variable {CipherBase : Type} {ops : CipherOperators CipherBase}

/-- Running the code fails where there is no value, and otherwise leaves the value in the
object `place` and every object below `d` as it was. -/
def Leaves (ops : CipherOperators CipherBase) (σ : Store CipherBase) (code : List CipherInstr)
    (place d : ℕ) : Option CipherBase → Prop
  | none => exec (stepInstr ops) σ code = none
  | some c => ∃ σ', exec (stepInstr ops) σ code = some σ' ∧ σ' place = c ∧ ∀ i < d, σ' i = σ i

namespace CipherExpr

theorem Fits.mono {e : CipherExpr} {d d' : ℕ} (h : e.Fits d) (hd : d ≤ d') : e.Fits d' := by
  induction e with
  | var i => exact Nat.lt_of_lt_of_le h hd
  | binary op lhs rhs r ihl ihr => exact ⟨ihl h.1, ihr h.2⟩
  | withPlain op lhs p r ihl => exact ihl h

theorem eval_congr {e : CipherExpr} {d : ℕ} (h : e.Fits d) {σ σ' : Store CipherBase}
    (hσ : ∀ i < d, σ' i = σ i) : e.eval ops σ' = e.eval ops σ := by
  induction e with
  | var i => exact congrArg some (hσ i h)
  | binary op lhs rhs r ihl ihr => simp only [eval, ihl h.1, ihr h.2]
  | withPlain op lhs p r ihl => simp only [eval, ihl h]

theorem emit_binary (d : ℕ) (op : BinaryOp) (lhs rhs : CipherExpr) (r : ℕ) :
    (binary op lhs rhs r).emit d = lhs.emit (d + 1) ++ (rhs.load (d + 2) ++
      [.opCipher op (d + 1) (rhs.operand (d + 2)) r, .copy d (d + 1)]) := by
  cases rhs with
  | var i => rfl
  | binary op' lhs' rhs' r' => rfl
  | withPlain op' lhs' p r' => rfl

/-- A variable is not copied to be passed by reference. -/
theorem load_leaves {e : CipherExpr} {d : ℕ} {σ : Store CipherBase}
    (h : Leaves ops σ (e.emit d) d d (e.eval ops σ)) :
    Leaves ops σ (e.load d) (e.operand d) d (e.eval ops σ) := by
  cases e with
  | var i => exact ⟨σ, rfl, rfl, fun _ _ => rfl⟩
  | binary op lhs rhs r => exact h
  | withPlain op lhs p r => exact h

/-- The last two instructions: assign to the parameter, return a copy of it. -/
theorem return_leaves {i : CipherInstr} {d : ℕ} (hi : i.dest = d + 1) {σ : Store CipherBase} :
    Leaves ops σ [i, .copy d (d + 1)] d d (i.value ops σ) := by
  have hfirst : stepInstr ops σ i = (i.value ops σ).map (Function.update σ (d + 1)) := by
    rw [stepInstr, hi]
  cases hvalue : i.value ops σ with
  | none => rw [Leaves, exec_cons, hfirst, hvalue, Option.map_none, Option.bind_none]
  | some c =>
      have hcopy : stepInstr ops (Function.update σ (d + 1) c) (.copy d (d + 1)) =
          some (Function.update (Function.update σ (d + 1) c) d c) := by
        simp [stepInstr, CipherInstr.value, CipherInstr.dest]
      refine ⟨Function.update (Function.update σ (d + 1) c) d c, ?_, ?_, ?_⟩
      · simp [hfirst, hvalue, hcopy]
      · simp
      · intro j hj
        rw [Function.update_of_ne (by omega), Function.update_of_ne (by omega)]

theorem Leaves.bind {σ : Store CipherBase} {code code' : List CipherInstr} {place place' d d' : ℕ}
    {x : Option CipherBase} {f : CipherBase → Option CipherBase} (hd : d' ≤ d)
    (h : Leaves ops σ code place d x)
    (h' : ∀ c σ', σ' place = c → (∀ i < d, σ' i = σ i) → Leaves ops σ' code' place' d' (f c)) :
    Leaves ops σ (code ++ code') place' d' (x.bind f) := by
  cases x with
  | none =>
      have hnone : exec (stepInstr ops) σ code = none := h
      simp only [Option.bind_none, Leaves, exec_append, hnone]
  | some c =>
      obtain ⟨σ₁, hrun, hc, hframe⟩ := h
      have hrest := h' c σ₁ hc hframe
      rw [Option.bind_some]
      cases hf : f c with
      | none =>
          rw [hf] at hrest
          have hnone : exec (stepInstr ops) σ₁ code' = none := hrest
          simp only [Leaves, exec_append, hrun, Option.bind_some, hnone]
      | some c' =>
          rw [hf] at hrest
          obtain ⟨σ₂, hrun', hc', hframe'⟩ := hrest
          refine ⟨σ₂, by rw [exec_append, hrun, Option.bind_some, hrun'], hc', ?_⟩
          intro i hi
          rw [hframe' i hi, hframe i (Nat.lt_of_lt_of_le hi hd)]

theorem emit_leaves {e : CipherExpr} {d : ℕ} (h : e.Fits d) (σ : Store CipherBase) :
    Leaves ops σ (e.emit d) d d (e.eval ops σ) := by
  induction e generalizing d σ with
  | var i =>
      refine ⟨Function.update σ d (σ i), rfl, Function.update_self d _ σ, ?_⟩
      intro j hj
      exact Function.update_of_ne hj.ne _ _
  | binary op lhs rhs r ihl ihr =>
      rw [emit_binary, eval, Option.bind_eq_bind]
      refine Leaves.bind (Nat.le_succ d) (ihl (h.1.mono (Nat.le_succ d)) σ) ?_
      intro a σ₁ ha hframe
      have hrhs : rhs.eval ops σ₁ = rhs.eval ops σ :=
        eval_congr h.2 fun i hi => hframe i (Nat.lt_succ_of_lt hi)
      rw [← hrhs]
      refine Leaves.bind (Nat.le_add_right d 2)
        (load_leaves (ihr (h.2.mono (Nat.le_add_right d 2)) σ₁)) ?_
      intro b σ₂ hb hframe'
      have ha' : σ₂ (d + 1) = a := by rw [hframe' (d + 1) (Nat.lt_succ_self _), ha]
      rw [← ha', ← hb]
      exact return_leaves rfl
  | withPlain op lhs p r ihl =>
      rw [emit, eval, Option.bind_eq_bind]
      refine Leaves.bind (Nat.le_succ d) (ihl (Fits.mono h (Nat.le_succ d)) σ) ?_
      intro a σ₁ ha _
      rw [← ha]
      exact return_leaves rfl

theorem operand_lt {e : CipherExpr} {d : ℕ} (h : e.Fits d) : e.operand d < d + 1 := by
  cases e with
  | var i => exact Nat.lt_succ_of_lt h
  | binary op lhs rhs r => exact Nat.lt_succ_self d
  | withPlain op lhs p r => exact Nat.lt_succ_self d

/-- Two operands evaluated one after the other do not disturb each other. -/
theorem load_two {e e' : CipherExpr} {d : ℕ} (h : e.Fits d) (h' : e'.Fits d)
    {σ : Store CipherBase} {c c' : CipherBase} (hc : e.eval ops σ = some c)
    (hc' : e'.eval ops σ = some c') :
    ∃ σ', exec (stepInstr ops) σ (e.load d ++ e'.load (d + 1)) = some σ' ∧
      σ' (e.operand d) = c ∧ σ' (e'.operand (d + 1)) = c' ∧ ∀ i < d, σ' i = σ i := by
  have hfirst : Leaves ops σ (e.load d) (e.operand d) d _ := load_leaves (emit_leaves h σ)
  rw [hc] at hfirst
  obtain ⟨σ₁, hrun, hval, hframe⟩ := hfirst
  have hsecond : Leaves ops σ₁ (e'.load (d + 1)) (e'.operand (d + 1)) (d + 1) _ :=
    load_leaves (emit_leaves (h'.mono (Nat.le_succ d)) σ₁)
  rw [eval_congr h' hframe, hc'] at hsecond
  obtain ⟨σ', hrun', hval', hframe'⟩ := hsecond
  refine ⟨σ', ?_, ?_, hval', ?_⟩
  · rw [exec_append, hrun, Option.bind_some, hrun']
  · rw [hframe' _ (operand_lt h), hval]
  · intro i hi
    rw [hframe' i (Nat.lt_succ_of_lt hi), hframe i hi]

end CipherExpr

end Emission

/-- The class of the private key has every operator. -/
theorem PrivateKeyInterface.compiles {CipherBase : Type} (P : PrivateKeyInterface CipherBase)
    (e : CipherExpr) : e.Compiles P.operators := by
  induction e with
  | var i => exact trivial
  | binary op lhs rhs r ihl ihr => exact ⟨by cases op <;> rfl, ihl, ihr⟩
  | withPlain op lhs p r ihl => exact ihl

end PPFramework
