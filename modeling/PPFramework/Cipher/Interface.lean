import Mathlib.Data.Int.ModEq
import Mathlib.Logic.Function.Basic
import PPFramework.Machine.PartialRun

/-!
The cipher interfaces: `AdditiveInterface<CipherBase>`, `PrivateKeyInterface<CipherBase>`
and the operators of their `Cipher` classes, for any cipher type. A cryptosystem
supplies the virtual functions; what it need not supply, such as the subtraction
of a cipher, is defined here in terms of the others.

A function that encrypts takes the blinding factor its sampling loop ended with as
the last argument. A program over cipher variables is a list of operators on a
store; which of the two classes an operator is taken from is part of the step.
-/

namespace PPFramework
open PartialRun

structure AdditiveInterface (CipherBase : Type) where
  enc : ℤ → ℕ → Option CipherBase
  addTo : CipherBase → CipherBase → Option CipherBase
  plainMultiplyTo : CipherBase → ℤ → Option CipherBase
  subFromPlain : CipherBase → ℤ → ℕ → Option CipherBase

structure PrivateKeyInterface (CipherBase : Type) where
  enc : ℤ → ℕ → Option CipherBase
  dec : CipherBase → Bool → Option ℤ

namespace AdditiveInterface

variable {CipherBase : Type} (I : AdditiveInterface CipherBase)

/-- The default `subFrom(CipherBase&, CipherBase)`. -/
def subFrom (c d : CipherBase) : Option CipherBase := do
  let md ← I.plainMultiplyTo d (-1)
  I.addTo c md

/-- The default `subFrom(CipherBase&, const Plain)`. -/
def subFromPlainDefault (c : CipherBase) (p : ℤ) (r : ℕ) : Option CipherBase := do
  let d ← I.enc p r
  I.subFrom c d

/-- The default `recrypt(CipherBase&)`, adding an encryption of zero. -/
def recrypt (c : CipherBase) (r : ℕ) : Option CipherBase := do
  let z ← I.enc 0 r
  I.addTo c z

/-- `Cipher::operator+=(const Plain&)`. -/
def addPlain (c : CipherBase) (p : ℤ) (r : ℕ) : Option CipherBase := do
  let cb ← I.enc p r
  I.addTo c cb

end AdditiveInterface

namespace PrivateKeyInterface

variable {CipherBase : Type} (I : PrivateKeyInterface CipherBase)

/-- The three arithmetic operators of `PrivateKeyInterface::Cipher` on a `Plain`
operand decrypt, compute on integers and encrypt the result. -/
def viaPlain (f : ℤ → ℤ → ℤ) (c : CipherBase) (p1 : ℤ) (r : ℕ) : Option CipherBase := do
  let p2 ← I.dec c false
  I.enc (f p1 p2) r

def addPlain : CipherBase → ℤ → ℕ → Option CipherBase :=
  I.viaPlain fun p1 p2 => p1 + p2

def subPlain : CipherBase → ℤ → ℕ → Option CipherBase :=
  I.viaPlain fun p1 p2 => p2 - p1

def mulPlain : CipherBase → ℤ → ℕ → Option CipherBase :=
  I.viaPlain fun p1 p2 => p1 * p2

def viaCipher (op : CipherBase → ℤ → ℕ → Option CipherBase) (c d : CipherBase) (r : ℕ) :
    Option CipherBase := do
  let p1 ← I.dec d false
  op c p1 r

def addCipher : CipherBase → CipherBase → ℕ → Option CipherBase :=
  I.viaCipher I.addPlain

def subCipher : CipherBase → CipherBase → ℕ → Option CipherBase :=
  I.viaCipher I.subPlain

def mulCipher : CipherBase → CipherBase → ℕ → Option CipherBase :=
  I.viaCipher I.mulPlain

end PrivateKeyInterface

/-- The operators both cipher classes offer, on numbered cipher variables. -/
inductive CipherOp
  | assign (dest : ℕ) (p : ℤ)
  | addCipher (dest src : ℕ)
  | addPlain (dest : ℕ) (p : ℤ)
  | subCipher (dest src : ℕ)
  | subPlain (dest : ℕ) (p : ℤ)
  | mulPlain (dest : ℕ) (p : ℤ)
deriving DecidableEq

def CipherOp.dest : CipherOp → ℕ
  | assign d _ | addCipher d _ | addPlain d _ | subCipher d _ | subPlain d _ | mulPlain d _ => d

abbrev Store (CipherBase : Type) := ℕ → CipherBase

/-- Clear values of the cipher variables; a variable never assigned has none. -/
abbrev Clear := ℕ → Option ℤ

def CipherOp.clear (τ : Clear) : CipherOp → Option ℤ
  | assign _ p => some p
  | addCipher d s => do some ((← τ d) + (← τ s))
  | addPlain d p => do some ((← τ d) + p)
  | subCipher d s => do some ((← τ d) - (← τ s))
  | subPlain d p => do some ((← τ d) - p)
  | mulPlain d p => do some ((← τ d) * p)

def AdditiveInterface.apply {CipherBase : Type} (I : AdditiveInterface CipherBase)
    (σ : Store CipherBase) (r : ℕ) : CipherOp → Option CipherBase
  | .assign _ p => I.enc p r
  | .addCipher d s => I.addTo (σ d) (σ s)
  | .addPlain d p => I.addPlain (σ d) p r
  | .subCipher d s => I.subFrom (σ d) (σ s)
  | .subPlain d p => I.subFromPlain (σ d) p r
  | .mulPlain d p => I.plainMultiplyTo (σ d) p

def PrivateKeyInterface.apply {CipherBase : Type} (I : PrivateKeyInterface CipherBase)
    (σ : Store CipherBase) (r : ℕ) : CipherOp → Option CipherBase
  | .assign _ p => I.enc p r
  | .addCipher d s => I.addCipher (σ d) (σ s) r
  | .addPlain d p => I.addPlain (σ d) p r
  | .subCipher d s => I.subCipher (σ d) (σ s) r
  | .subPlain d p => I.subPlain (σ d) p r
  | .mulPlain d p => I.mulPlain (σ d) p r

/-- One statement of a program that holds the private key. The product of two
ciphers exists on the private path only. -/
inductive CipherStep
  | additive (op : CipherOp) (r : ℕ)
  | viaPrivateKey (op : CipherOp) (r : ℕ)
  | mulCipher (dest src : ℕ) (r : ℕ)

def CipherStep.dest : CipherStep → ℕ
  | additive op _ | viaPrivateKey op _ => op.dest
  | mulCipher d _ _ => d

def CipherStep.draw : CipherStep → ℕ
  | additive _ r | viaPrivateKey _ r | mulCipher _ _ r => r

def CipherStep.clear (τ : Clear) : CipherStep → Option ℤ
  | additive op _ | viaPrivateKey op _ => op.clear τ
  | mulCipher d s _ => do some ((← τ d) * (← τ s))

def CipherStep.apply {CipherBase : Type} (A : AdditiveInterface CipherBase)
    (P : PrivateKeyInterface CipherBase) (σ : Store CipherBase) : CipherStep → Option CipherBase
  | additive op r => A.apply σ r op
  | viaPrivateKey op r => P.apply σ r op
  | mulCipher d s r => P.mulCipher (σ d) (σ s) r

def stepStore {CipherBase : Type} (A : AdditiveInterface CipherBase)
    (P : PrivateKeyInterface CipherBase) (σ : Store CipherBase) (s : CipherStep) :
    Option (Store CipherBase) :=
  (s.apply A P σ).map (Function.update σ s.dest)

def stepClear (τ : Clear) (s : CipherStep) : Option Clear :=
  (s.clear τ).map fun v => Function.update τ s.dest (some v)

def stepAdditive {CipherBase : Type} (A : AdditiveInterface CipherBase)
    (σ : Store CipherBase) (s : CipherOp × ℕ) : Option (Store CipherBase) :=
  (A.apply σ s.2 s.1).map (Function.update σ s.1.dest)

def stepClearOp (τ : Clear) (s : CipherOp × ℕ) : Option Clear :=
  (s.1.clear τ).map fun v => Function.update τ s.1.dest (some v)

end PPFramework
