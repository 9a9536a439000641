import Mathlib.Data.Prod.TProd
import PPFramework.Paillier.Cryptosystem
import PPFramework.Rpc.Message

/-!
`PackingUtils.hpp` and the parts of `Procedure.hpp` and `RPCClient.hpp` that convert
between ciphers and messages.

Overload resolution is decided by types, so it happens here on the declared types:
a cipher class stands for the type of its ciphers, and two classes have the same
cipher type when they are the same class. A single cipher as a parameter makes the
overloads ambiguous and does not compile; the parameters are clear values, vectors
and matrices. A tuple is a product over the list of its types.
-/

namespace PPFramework

/-- The template argument `CryptosystemType`. -/
inductive CipherClass
  | privateKey
  | publicKey
deriving DecidableEq

abbrev CryptosystemType : CipherClass → Type
  | .privateKey => PaillierCryptosystemPrivateKey
  | .publicKey => PaillierCryptosystem

def CryptosystemType.base : {T : CipherClass} → CryptosystemType T → PaillierCryptosystemBase
  | .privateKey, cs => cs.toPaillierCryptosystemBase
  | .publicKey, cs => cs.toPaillierCryptosystemBase

abbrev CipherClass.publicKeyCSType (_ : CipherClass) : CipherClass :=
  .publicKey

structure Cipher (T : CipherClass) where
  cs : CryptosystemType T
  raw : ℤ

structure ClearType where
  carrier : Type
  default : carrier
  convert : MsgObject → Option carrier

inductive ParamType
  | clear (t : ClearType)
  | vector (T : CipherClass)
  | matrix (T : CipherClass)

namespace ParamType

/-- The type after `replace_type`, as it is converted from the message. -/
abbrev Raw : ParamType → Type
  | clear t => t.carrier
  | vector _ => List ℤ
  | matrix _ => List (List ℤ)

abbrev Out : ParamType → Type
  | clear t => t.carrier
  | vector T => List (Cipher T)
  | matrix T => List (List (Cipher T))

def convert : (t : ParamType) → MsgObject → Option t.Raw
  | clear t => t.convert
  | vector _ => MsgObject.asVector msgpackUnpack
  | matrix _ => MsgObject.asVector (MsgObject.asVector msgpackUnpack)

def init : (t : ParamType) → t.Out
  | clear t => t.default
  | vector _ => []
  | matrix _ => []

def rawOf : (t : ParamType) → t.Out → t.Raw
  | clear _, x => x
  | vector _, x => x.map Cipher.raw
  | matrix _, x => x.map fun v => v.map Cipher.raw

end ParamType

def pushCiphers {T : CipherClass} (cs : CryptosystemType T) (t1 : List (Cipher T)) (t2 : List ℤ) :
    List (Cipher T) :=
  t2.foldl (fun t1 r => t1 ++ [⟨cs, r⟩]) t1

def pushRows {T : CipherClass} (cs : CryptosystemType T) (t1 : List (List (Cipher T)))
    (t2 : List (List ℤ)) : List (List (Cipher T)) :=
  t2.foldl (fun t1 v => t1 ++ [pushCiphers cs [] v]) t1

/-- The overloads with a cryptosystem: they act when the element type is that
cryptosystem's cipher type, and are empty otherwise. -/
def unpackConditional {T1 : CipherClass} (cs : CryptosystemType T1) :
    (t : ParamType) → t.Out → t.Raw → t.Out
  | .clear _, t1, _ => t1
  | .vector T2, t1, t2 => if h : T1 = T2 then pushCiphers (h ▸ cs) t1 t2 else t1
  | .matrix T2, t1, t2 => if h : T1 = T2 then pushRows (h ▸ cs) t1 t2 else t1

/-- The overloads without one: they assign when the types did not change. -/
def unpackClear : (t : ParamType) → t.Out → t.Raw → t.Out
  | .clear _, _, t2 => t2
  -- `replace_type` changes these two types, so the overload chosen is empty
  | .vector _, t1, _ => t1
  | .matrix _, t1, _ => t1

structure CipherUnpackerTransform (LocalCS RemoteCS : CipherClass) where
  localCS : Option (CryptosystemType LocalCS)
  remoteCS : Option (CryptosystemType RemoteCS)

/-- `operator()`: the remote conversion, the local one and the clear one, in this order. -/
def CipherUnpackerTransform.apply {LocalCS RemoteCS : CipherClass}
    (f : CipherUnpackerTransform LocalCS RemoteCS) (t : ParamType) (x1 : t.Out) (x2 : t.Raw) :
    t.Out :=
  let x1 := match f.remoteCS with
    | some cs => unpackConditional cs t x1 x2
    | none => x1
  let x1 := match f.localCS with
    | some cs => unpackConditional cs t x1 x2
    | none => x1
  unpackClear t x1 x2

def transformTuple {LocalCS RemoteCS : CipherClass} (f : CipherUnpackerTransform LocalCS RemoteCS) :
    (ts : List ParamType) → ts.TProd ParamType.Out → ts.TProd ParamType.Raw →
      ts.TProd ParamType.Out
  | [], t1, _ => t1
  | t :: ts, (x1, t1), (x2, t2) => (f.apply t x1 x2, transformTuple f ts t1 t2)

/-- The conversion of an array's first items to a tuple; further items are ignored. -/
def convertItems : (ts : List ParamType) → List MsgObject → Option (ts.TProd ParamType.Raw)
  | [], _ => some PUnit.unit
  | _ :: _, [] => none
  | t :: ts, o :: os => do
      let x ← t.convert o
      let xs ← convertItems ts os
      some (x, xs)

def convertTuple (ts : List ParamType) : MsgObject → Option (ts.TProd ParamType.Raw)
  | .array items => convertItems ts items
  | _ => none

def initTuple : (ts : List ParamType) → ts.TProd ParamType.Out
  | [] => PUnit.unit
  | t :: ts => (t.init, initTuple ts)

def unpack {LocalCS RemoteCS : CipherClass} (f : CipherUnpackerTransform LocalCS RemoteCS)
    (ts : List ParamType) (params : MsgObject) : Option (ts.TProd ParamType.Out) := do
  let rawParams ← convertTuple ts params
  some (transformTuple f ts (initTuple ts) rawParams)

def packResult {T : CipherClass} (t : List (Cipher T)) : MsgObject :=
  .array (t.map fun e => msgpackPack e.raw)

/-- `packConditional` of a vector of ciphers on the client, packed as a parameter. -/
def packVector {T : CipherClass} (t2 : List (Cipher T)) : MsgObject :=
  .array ((t2.map Cipher.raw).map msgpackPack)

section Loops

variable {T : CipherClass} (cs : CryptosystemType T)

theorem pushCiphers_eq (t1 : List (Cipher T)) (t2 : List ℤ) :
    pushCiphers cs t1 t2 = t1 ++ t2.map fun r => ⟨cs, r⟩ :=
  Traverse.foldl_push (fun r => (⟨cs, r⟩ : Cipher T)) t1 t2

theorem pushRows_eq (t1 : List (List (Cipher T))) (t2 : List (List ℤ)) :
    pushRows cs t1 t2 = t1 ++ t2.map fun v => v.map fun r => ⟨cs, r⟩ := by
  rw [pushRows, Traverse.foldl_push]
  congr 1
  apply List.map_congr_left
  intro v _
  rw [pushCiphers_eq, List.nil_append]

@[simp] theorem map_raw_mk (x : List ℤ) :
    (x.map fun r => (⟨cs, r⟩ : Cipher T)).map Cipher.raw = x := by
  rw [List.map_map]
  exact List.map_id x

@[simp] theorem map_raw_rows (x : List (List ℤ)) :
    (x.map fun v => v.map fun r => (⟨cs, r⟩ : Cipher T)).map (fun v => v.map Cipher.raw) = x := by
  rw [List.map_map]
  simp only [Function.comp_def, map_raw_mk, List.map_id']

end Loops

def CryptosystemType.forType {T1 : CipherClass} (cs : Option (CryptosystemType T1))
    (T2 : CipherClass) : List (CryptosystemType T2) :=
  if h : T1 = T2 then (h ▸ cs).toList else []

namespace CipherUnpackerTransform

variable {LocalCS RemoteCS : CipherClass} (f : CipherUnpackerTransform LocalCS RemoteCS)

/-- The cryptosystems that convert a parameter with elements of type `T2`, in order. -/
def converters (T2 : CipherClass) : List (CryptosystemType T2) :=
  CryptosystemType.forType f.remoteCS T2 ++ CryptosystemType.forType f.localCS T2

theorem apply_clear (t : ClearType) (x1 x2 : t.carrier) : f.apply (.clear t) x1 x2 = x2 := by
  rfl

/-- Appending under the type test, once for every cryptosystem that passes it. -/
theorem append_forType {T1 : CipherClass} (cs : Option (CryptosystemType T1)) (T2 : CipherClass)
    {A : Type} (act : CryptosystemType T2 → List A) (x1 : List A) :
    (match cs with
      | some cs => if h : T1 = T2 then x1 ++ act (h ▸ cs) else x1
      | none => x1) = x1 ++ (CryptosystemType.forType cs T2).flatMap act := by
  simp only [CryptosystemType.forType]
  by_cases h : T1 = T2
  · subst h
    cases cs with
    | none => simp
    | some cs => simp
  · cases cs with
    | none => simp [h]
    | some cs => simp [h]

theorem unpackConditional_vector {T1 : CipherClass} (cs : Option (CryptosystemType T1))
    (T2 : CipherClass) (x1 : List (Cipher T2)) (x2 : List ℤ) :
    (match cs with
      | some cs => unpackConditional cs (.vector T2) x1 x2
      | none => x1) =
      x1 ++ (CryptosystemType.forType cs T2).flatMap fun cs => x2.map fun r => ⟨cs, r⟩ := by
  simp only [unpackConditional, pushCiphers_eq]
  exact append_forType cs T2 (fun cs => x2.map fun r => ⟨cs, r⟩) x1

theorem unpackConditional_matrix {T1 : CipherClass} (cs : Option (CryptosystemType T1))
    (T2 : CipherClass) (x1 : List (List (Cipher T2))) (x2 : List (List ℤ)) :
    (match cs with
      | some cs => unpackConditional cs (.matrix T2) x1 x2
      | none => x1) =
      x1 ++ (CryptosystemType.forType cs T2).flatMap
        fun cs => x2.map fun v => v.map fun r => ⟨cs, r⟩ := by
  simp only [unpackConditional, pushRows_eq]
  exact append_forType cs T2 (fun cs => x2.map fun v => v.map fun r => ⟨cs, r⟩) x1

theorem apply_vector (T2 : CipherClass) (x2 : List ℤ) :
    f.apply (.vector T2) [] x2 =
      (f.converters T2).flatMap fun cs => x2.map fun r => ⟨cs, r⟩ := by
  rw [converters, List.flatMap_append, ← List.nil_append (List.flatMap _ _),
    ← unpackConditional_vector f.remoteCS T2 [] x2, ← unpackConditional_vector f.localCS]
  rfl

theorem apply_matrix (T2 : CipherClass) (x2 : List (List ℤ)) :
    f.apply (.matrix T2) [] x2 =
      (f.converters T2).flatMap fun cs => x2.map fun v => v.map fun r => ⟨cs, r⟩ := by
  rw [converters, List.flatMap_append, ← List.nil_append (List.flatMap _ _),
    ← unpackConditional_matrix f.remoteCS T2 [] x2, ← unpackConditional_matrix f.localCS]
  rfl

end CipherUnpackerTransform

end PPFramework
