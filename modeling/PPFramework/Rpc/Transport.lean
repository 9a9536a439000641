import PPFramework.Rpc.InnerProduct
import PPFramework.Rpc.Unpack

/-!
The transport of ciphers, vectors and matrices of ciphers in both directions.

The overloads of `unpackConditional` are chosen when the server is compiled, so the
choice is modelled: the overloads a call matches, their order by specialisation, and
the best one when there is one. The test `std::is_same<T1*, T2>` left over from an
earlier version is never true, so for a single cipher two overloads with the same
parameters remain and neither is better.
-/

namespace PPFramework
open Gmp PartialRun

inductive CipherShape
  | single
  | vector
  | matrix
deriving DecidableEq

namespace CipherShape

abbrev Of (A : Type) : CipherShape → Type
  | single => A
  | vector => List A
  | matrix => List (List A)

def map {A B : Type} (f : A → B) : (s : CipherShape) → s.Of A → s.Of B
  | single, x => f x
  | vector, x => x.map f
  | matrix, x => x.map fun v => v.map f

def All {A : Type} (P : A → Prop) : (s : CipherShape) → s.Of A → Prop
  | single, x => P x
  | vector, x => ∀ a ∈ x, P a
  | matrix, x => ∀ v ∈ x, ∀ a ∈ v, P a

def IsEmpty {A : Type} : (s : CipherShape) → s.Of A → Prop
  | single, _ => False
  | vector, x => x = []
  | matrix, x => x = []

/-- What MessagePack makes of raw values. -/
def pack : (s : CipherShape) → s.Of ℤ → MsgObject
  | single, x => msgpackPack x
  | vector, x => .array (x.map msgpackPack)
  | matrix, x => .array (x.map fun v => .array (v.map msgpackPack))

def convert : (s : CipherShape) → MsgObject → Option (s.Of ℤ)
  | single => msgpackUnpack
  | vector => MsgObject.asVector msgpackUnpack
  | matrix => MsgObject.asVector (MsgObject.asVector msgpackUnpack)

/-- The member of the default-constructed tuple; a cipher has no default constructor. -/
def init (T : CipherClass) : (s : CipherShape) → Option (s.Of (Cipher T))
  | single => none
  | vector => some []
  | matrix => some []

theorem all_map {A B : Type} {P : B → Prop} {f : A → B} {s : CipherShape} {x : s.Of A} :
    s.All P (s.map f x) ↔ s.All (fun a => P (f a)) x := by
  cases s with
  | single => exact Iff.rfl
  | vector => exact List.forall_mem_map
  | matrix =>
      simp only [All, map, List.forall_mem_map]

theorem All.imp {A : Type} {P Q : A → Prop} (h : ∀ a, P a → Q a) {s : CipherShape} {x : s.Of A}
    (hx : s.All P x) : s.All Q x := by
  cases s with
  | single => exact h x hx
  | vector => exact fun a ha => h a (hx a ha)
  | matrix => exact fun v hv a ha => h a (hx v hv a ha)

/-- The round trip of the message, for every shape. -/
theorem convert_pack {s : CipherShape} {x : s.Of ℤ} (hx : s.All Transportable x) :
    s.convert (s.pack x) = some x := by
  cases s with
  | single => exact msgpackUnpack_pack hx
  | vector => exact asVector_map fun a ha => msgpackUnpack_pack (hx a ha)
  | matrix =>
      exact asVector_map fun v hv => asVector_map fun a ha => msgpackUnpack_pack (hx v hv a ha)

theorem pack_injective {s : CipherShape} {x y : s.Of ℤ} (hx : s.All Transportable x)
    (hy : s.All Transportable y) (h : s.pack x = s.pack y) : x = y := by
  have hconvert := congrArg s.convert h
  rw [convert_pack hx, convert_pack hy, Option.some.injEq] at hconvert
  exact hconvert

end CipherShape

/-- The first two parameters of an overload of `unpackConditional`, with its condition. -/
inductive OverloadPattern
  | sameType
  | otherType
  | vector
  | matrix
deriving DecidableEq

/-- An overload; its third parameter is `T4*` or `T4&`. -/
structure Overload where
  pattern : OverloadPattern
  pointer : Bool
deriving DecidableEq

/-- The overloads with a cryptosystem, [1a] to [4b]. -/
def unpackOverloads : List Overload :=
  [⟨.sameType, false⟩, ⟨.sameType, true⟩, ⟨.otherType, false⟩, ⟨.otherType, true⟩,
    ⟨.vector, true⟩, ⟨.vector, false⟩, ⟨.matrix, true⟩, ⟨.matrix, false⟩]

/-- Whether the pattern matches a parameter of this shape and its condition holds;
`sameClass` says that its ciphers are those of the cryptosystem. -/
def OverloadPattern.enabled (sameClass : Bool) : OverloadPattern → CipherShape → Bool
  | sameType, .single => sameClass
  | sameType, _ => false
  -- the condition compares with `T1*`, and no parameter is a pointer
  | otherType, _ => true
  | vector, .vector => sameClass
  -- a matrix matches with vectors as elements, which are no ciphers
  | vector, _ => false
  | matrix, .matrix => sameClass
  | matrix, _ => false

def OverloadPattern.depth : OverloadPattern → ℕ
  | sameType | otherType => 0
  | vector => 1
  | matrix => 2

def Overload.atLeast (o o' : Overload) : Bool :=
  decide (o'.pattern.depth ≤ o.pattern.depth) && (!o'.pointer || o.pointer)

def Overload.moreSpecialised (o o' : Overload) : Bool :=
  o.atLeast o' && !o'.atLeast o

/-- The overload the compiler selects, or `none` when the call is ambiguous. -/
def resolveOverload (sameClass : Bool) (s : CipherShape) : Option Overload :=
  let viable := unpackOverloads.filter fun o => o.pattern.enabled sameClass s
  viable.find? fun o => viable.all fun o' => decide (o' = o) || o.moreSpecialised o'

theorem resolveOverload_vector (sameClass : Bool) :
    resolveOverload sameClass .vector =
      some (if sameClass then ⟨.vector, true⟩ else ⟨.otherType, true⟩) := by
  cases sameClass <;> decide

theorem resolveOverload_matrix (sameClass : Bool) :
    resolveOverload sameClass .matrix =
      some (if sameClass then ⟨.matrix, true⟩ else ⟨.otherType, true⟩) := by
  cases sameClass <;> decide

theorem resolveOverload_single : resolveOverload true .single = none := by
  decide

/-- The body of an overload. -/
def OverloadPattern.act {T1 T2 : CipherClass} (cs : CryptosystemType T1) :
    OverloadPattern → (s : CipherShape) → s.Of (Cipher T2) → s.Of ℤ → s.Of (Cipher T2)
  | sameType, .single, t1, t2 => { t1 with raw := t2 }
  | vector, .vector, t1, t2 => if h : T1 = T2 then pushCiphers (h ▸ cs) t1 t2 else t1
  | matrix, .matrix, t1, t2 => if h : T1 = T2 then pushRows (h ▸ cs) t1 t2 else t1
  | _, _, t1, _ => t1

theorem act_vector {T1 T2 : CipherClass} (cs : CryptosystemType T1) (x1 : List (Cipher T2))
    (x2 : List ℤ) :
    (if T1 = T2 then ⟨.vector, true⟩ else ⟨.otherType, true⟩ : Overload).pattern.act cs .vector
      x1 x2 = unpackConditional cs (.vector T2) x1 x2 := by
  by_cases h : T1 = T2
  · rw [if_pos h]
    rfl
  · rw [if_neg h, unpackConditional, dif_neg h]
    rfl

theorem act_matrix {T1 T2 : CipherClass} (cs : CryptosystemType T1) (x1 : List (List (Cipher T2)))
    (x2 : List (List ℤ)) :
    (if T1 = T2 then ⟨.matrix, true⟩ else ⟨.otherType, true⟩ : Overload).pattern.act cs .matrix
      x1 x2 = unpackConditional cs (.matrix T2) x1 x2 := by
  by_cases h : T1 = T2
  · rw [if_pos h]
    rfl
  · rw [if_neg h, unpackConditional, dif_neg h]
    rfl

namespace CipherUnpackerTransform

variable {LocalCS RemoteCS : CipherClass} (f : CipherUnpackerTransform LocalCS RemoteCS)

/-- `operator()` for a parameter of ciphers. Both calls are compiled, whichever keys are
present; the last call, without a cryptosystem, does nothing since the types differ. -/
def applyShape (T2 : CipherClass) (s : CipherShape) (x1 : s.Of (Cipher T2)) (x2 : s.Of ℤ) :
    Option (s.Of (Cipher T2)) := do
  let remote ← resolveOverload (RemoteCS = T2) s
  let loc ← resolveOverload (LocalCS = T2) s
  let x1 := match f.remoteCS with
    | some cs => remote.pattern.act cs s x1 x2
    | none => x1
  let x1 := match f.localCS with
    | some cs => loc.pattern.act cs s x1 x2
    | none => x1
  some x1

/-- `Procedure::unpack` for one parameter; no result stands for a program that does not
compile, or for a conversion that throws. -/
def unpackShape (T2 : CipherClass) (s : CipherShape) (o : MsgObject) :
    Option (s.Of (Cipher T2)) := do
  let raw ← s.convert o
  let x1 ← s.init T2
  f.applyShape T2 s x1 raw

/-- The selected overloads are those of the tuple's conversion. -/
theorem applyShape_vector (T2 : CipherClass) (x1 : List (Cipher T2)) (x2 : List ℤ) :
    f.applyShape T2 .vector x1 x2 = some (f.apply (.vector T2) x1 x2) := by
  rw [applyShape, resolveOverload_vector, resolveOverload_vector]
  simp only [decide_eq_true_eq, Option.bind_eq_bind, Option.bind_some, act_vector]
  rfl

theorem applyShape_matrix (T2 : CipherClass) (x1 : List (List (Cipher T2))) (x2 : List (List ℤ)) :
    f.applyShape T2 .matrix x1 x2 = some (f.apply (.matrix T2) x1 x2) := by
  rw [applyShape, resolveOverload_matrix, resolveOverload_matrix]
  simp only [decide_eq_true_eq, Option.bind_eq_bind, Option.bind_some, act_matrix]
  rfl

end CipherUnpackerTransform

section Encoders

variable {T : CipherClass}

def pushRaws (t1 : List ℤ) (t2 : List (Cipher T)) : List ℤ :=
  t2.foldl (fun t1 e => t1 ++ [e.raw]) t1

/-- The overloads of `packConditional` for ciphers; `packResult` runs the same loops. -/
def packConditional : (s : CipherShape) → s.Of (Cipher T) → s.Of ℤ
  | .single, t2 => t2.raw
  | .vector, t2 => pushRaws [] t2
  | .matrix, t2 => t2.foldl (fun t1 v => t1 ++ [pushRaws [] v]) []

def packResultShape (s : CipherShape) (t : s.Of (Cipher T)) : MsgObject :=
  s.pack (packConditional s t)

theorem pushRaws_eq (t1 : List ℤ) (t2 : List (Cipher T)) :
    pushRaws t1 t2 = t1 ++ t2.map Cipher.raw :=
  Traverse.foldl_push Cipher.raw t1 t2

theorem packConditional_eq (s : CipherShape) (t : s.Of (Cipher T)) :
    packConditional s t = s.map Cipher.raw t := by
  cases s with
  | single => rfl
  | vector => exact (pushRaws_eq [] t).trans (List.nil_append _)
  | matrix =>
      rw [packConditional, Traverse.foldl_push, List.nil_append]
      exact List.map_congr_left fun v _ => (pushRaws_eq [] v).trans (List.nil_append _)

/-- The vector overloads, as the calls of the inner product use them. -/
theorem packVector_eq_pack (t2 : List (Cipher T)) :
    packVector t2 = CipherShape.vector.pack (packConditional .vector t2) := by
  rw [packConditional_eq]
  rfl

theorem packResult_eq_packResultShape (t : List (Cipher T)) :
    packResult t = packResultShape .vector t := by
  rw [packResultShape, packConditional_eq]
  simp only [packResult, CipherShape.pack, CipherShape.map, List.map_map]
  rfl

end Encoders

/-- The loops of the client's functions that turn a response into ciphers; the matrix
version dereferences the cryptosystem before its loops, the vector version inside. -/
def ciphersOn {T : CipherClass} (cs : Option (CryptosystemType T)) :
    (s : CipherShape) → s.Of ℤ → Option (s.Of (Cipher T))
  | .single, r => do
      let cs ← cs
      some ⟨cs, r⟩
  | .vector, v => v.foldlM (fun v2 r => do
      let cs ← cs
      some (v2 ++ [⟨cs, r⟩])) []
  | .matrix, vv => do
      let cs ← cs
      some (pushRows cs [] vv)

def getCiphers {T : CipherClass} (cs : Option (CryptosystemType T)) (s : CipherShape)
    (m : Response) : Option (s.Of (Cipher T)) := do
  let r ← m.get s.convert
  ciphersOn cs s r

namespace RPCClient

variable {T : CipherClass} (client : RPCClient T)

def getRemoteCipherFrom : Response → Option (Cipher T.publicKeyCSType) :=
  getCiphers client.remoteCS .single

def getRemoteCipherVectorFrom : Response → Option (List (Cipher T.publicKeyCSType)) :=
  getCiphers client.remoteCS .vector

def getRemoteCipherVectorVectorFrom :
    Response → Option (List (List (Cipher T.publicKeyCSType))) :=
  getCiphers client.remoteCS .matrix

def getLocalCipherFrom : Response → Option (Cipher T) :=
  getCiphers client.localCS .single

def getLocalCipherVectorFrom : Response → Option (List (Cipher T)) :=
  getCiphers client.localCS .vector

def getLocalCipherVectorVectorFrom : Response → Option (List (List (Cipher T))) :=
  getCiphers client.localCS .matrix

def getRemote : (s : CipherShape) → Response → Option (s.Of (Cipher T.publicKeyCSType))
  | .single => client.getRemoteCipherFrom
  | .vector => client.getRemoteCipherVectorFrom
  | .matrix => client.getRemoteCipherVectorVectorFrom

def getLocal : (s : CipherShape) → Response → Option (s.Of (Cipher T))
  | .single => client.getLocalCipherFrom
  | .vector => client.getLocalCipherVectorFrom
  | .matrix => client.getLocalCipherVectorVectorFrom

theorem getRemote_eq (s : CipherShape) (m : Response) :
    client.getRemote s m = getCiphers client.remoteCS s m := by
  cases s <;> rfl

theorem getLocal_eq (s : CipherShape) (m : Response) :
    client.getLocal s m = getCiphers client.localCS s m := by
  cases s <;> rfl

end RPCClient

theorem ciphersOn_eq {T : CipherClass} (cs : CryptosystemType T) (s : CipherShape) (x : s.Of ℤ) :
    ciphersOn (some cs) s x = some (s.map (fun r => ⟨cs, r⟩) x) := by
  cases s with
  | single => rfl
  | vector =>
      simp only [ciphersOn, Option.bind_eq_bind, Option.bind_some]
      exact Traverse.foldlM_push (fun r => (⟨cs, r⟩ : Cipher T)) [] x
  | matrix =>
      simp only [ciphersOn, Option.bind_eq_bind, Option.bind_some, pushRows_eq, List.nil_append]
      rfl

/-- The raw values that the operations on ciphers leave, whatever their operands were. -/
inductive Produced (n : ℕ) : ℤ → Prop
  | enc {cs : PaillierCryptosystemBase} {p c : ℤ} {r : ℕ} (hn : cs.pub.HasModulus n)
      (h : cs.enc p r = some c) : Produced n c
  | addTo {cs : PaillierCryptosystemBase} {c d e : ℤ} (hn : cs.pub.HasModulus n)
      (h : cs.addTo c d = some e) : Produced n e
  | subFrom {cs : PaillierCryptosystemBase} {c d e : ℤ} (hn : cs.pub.HasModulus n)
      (h : cs.additive.subFrom c d = some e) : Produced n e
  | subFromPlain {cs : PaillierCryptosystemBase} {c p e : ℤ} {r : ℕ} (hn : cs.pub.HasModulus n)
      (h : cs.subFromPlain c p r = some e) : Produced n e
  | plainMultiplyTo {cs : PaillierCryptosystemBase} {c p e : ℤ} (hn : cs.pub.HasModulus n)
      (h : cs.plainMultiplyTo c p = some e) : Produced n e
  | recrypt {cs cs' : PaillierCryptosystemBase} {draws choices : ℕ → ℕ} {c e : ℤ}
      (hn : cs.pub.HasModulus n) (h : cs.recrypt draws choices c = some (e, cs')) : Produced n e

section Produced

variable {n : ℕ} {cs : PaillierCryptosystemBase}

theorem paillierMul_range (hn : cs.pub.HasModulus n) {c d e : ℤ}
    (h : paillierMul cs.pub c d = some e) : 0 ≤ e ∧ e < (n * n : ℕ) := by
  have := hn.neZero
  rw [paillierMul, hn.nSquared_cast] at h
  exact mpzMod_range h

theorem fillPool_length {draws : ℕ → ℕ} {cs' : PaillierCryptosystemBase}
    (h : cs.fillPool draws = some cs') :
    cs'.pub = cs.pub ∧ recryptPoolSize ≤ cs'.randomVals.length := by
  by_cases hpool : cs.randomVals.length < recryptPoolSize
  · rw [PaillierCryptosystemBase.fillPool, if_pos hpool, Option.bind_eq_bind,
      Option.bind_eq_some_iff] at h
    obtain ⟨vals, hvals, hcs'⟩ := h
    have hlen := (Traverse.mapM_eq_some_iff.mp hvals).length_eq
    rw [List.length_range] at hlen
    cases hcs'
    refine ⟨rfl, ?_⟩
    rw [List.length_append, ← hlen]
    exact Nat.le_add_left _ _
  · rw [PaillierCryptosystemBase.fillPool, if_neg hpool, Option.some.injEq] at h
    exact ⟨h ▸ rfl, h ▸ not_lt.mp hpool⟩

/-- The loop of `recrypt` runs at least once, and each round reduces modulo `n²`. -/
theorem recrypt_range (hn : cs.pub.HasModulus n) {draws choices : ℕ → ℕ} {c e : ℤ}
    {cs' : PaillierCryptosystemBase} (h : cs.recrypt draws choices c = some (e, cs')) :
    0 ≤ e ∧ e < (n * n : ℕ) := by
  have := hn.neZero
  simp only [PaillierCryptosystemBase.recrypt, Option.bind_eq_bind, Option.bind_eq_some_iff,
    Option.some.injEq, Prod.mk.injEq] at h
  obtain ⟨cs₁, hfill, e', hmul, rfl, rfl⟩ := h
  obtain ⟨hpub, hlen⟩ := fillPool_length hfill
  have hrounds : List.range (min recryptChooseSize cs₁.randomVals.length) ≠ [] := by
    have hpool : 0 < recryptPoolSize := by decide
    have hchoose : 0 < recryptChooseSize := by decide
    rw [ne_eq, List.range_eq_nil]
    omega
  refine exec_post (fun e => 0 ≤ e ∧ e < ((n * n : ℕ) : ℤ)) ?_ hrounds hmul
  intro c i e hstep
  obtain ⟨v, _, hmod⟩ := Option.bind_eq_some_iff.mp hstep
  rw [hpub, hn.nSquared_cast] at hmod
  exact mpzMod_range hmod

theorem produced_range {c : ℤ} (h : Produced n c) : 0 ≤ c ∧ c < (n * n : ℕ) := by
  cases h with
  | enc hn h =>
      have := hn.neZero
      simp only [PaillierCryptosystemBase.enc, paillierEncWith, hn.nSquared_cast,
        Option.bind_eq_bind, Option.bind_eq_some_iff] at h
      obtain ⟨_, _, _, _, hmod⟩ := h
      exact mpzMod_range hmod
  | addTo hn h => exact paillierMul_range hn h
  | subFrom hn h =>
      obtain ⟨_, _, hadd⟩ := Option.bind_eq_some_iff.mp h
      exact paillierMul_range hn hadd
  | subFromPlain hn h =>
      obtain ⟨_, _, hmul⟩ := Option.bind_eq_some_iff.mp h
      exact paillierMul_range hn hmul
  | plainMultiplyTo hn h =>
      have := hn.neZero
      rw [PaillierCryptosystemBase.plainMultiplyTo, paillierExp, hn.nSquared_cast] at h
      exact mpzPowm_range h
  | recrypt hn h => exact recrypt_range hn h

end Produced

/-- What a procedure on the server unpacks has the raw values that the client sent. -/
def RequestLossless {S A : CipherClass} (server : RPCServer S) (T2 : CipherClass)
    (s : CipherShape) (x : s.Of (Cipher A)) : Prop :=
  (server.unpacker.unpackShape T2 s (s.pack (packConditional s x))).map (s.map Cipher.raw) =
    some (s.map Cipher.raw x)

def ResponseLossless {A B : CipherClass} (s : CipherShape)
    (get : Response → Option (s.Of (Cipher B))) (x : s.Of (Cipher A)) : Prop :=
  (get (.result (packResultShape s x))).map (s.map Cipher.raw) = some (s.map Cipher.raw x)

section Transport

variable {A : CipherClass} {s : CipherShape} {x : s.Of (Cipher A)}

theorem requestLossless_iff (hx : s.All (fun c => Transportable c.raw) x) {S : CipherClass}
    (server : RPCServer S) (T2 : CipherClass) :
    RequestLossless server T2 s x ↔ s ≠ .single ∧ (s.IsEmpty x ∨ server.keysFor T2 = 1) := by
  have hconvert := CipherShape.convert_pack (CipherShape.all_map.mpr hx)
  rw [RequestLossless, packConditional_eq, CipherUnpackerTransform.unpackShape, hconvert,
    Option.bind_eq_bind, Option.bind_some]
  cases s with
  | single =>
      constructor
      · intro h
        cases h
      · intro h
        exact absurd rfl h.1
  | vector =>
      rw [CipherShape.init, Option.bind_eq_bind, Option.bind_some,
        server.unpacker.applyShape_vector, Option.map_some, Option.some.injEq]
      apply (rawOf_apply_iff server (.vector T2) (x.map Cipher.raw)).trans
      simp [RPCServer.Convertible, CipherShape.IsEmpty]
  | matrix =>
      rw [CipherShape.init, Option.bind_eq_bind, Option.bind_some,
        server.unpacker.applyShape_matrix, Option.map_some, Option.some.injEq]
      apply (rawOf_apply_iff server (.matrix T2) (x.map fun v => v.map Cipher.raw)).trans
      simp [RPCServer.Convertible, CipherShape.IsEmpty]

theorem map_raw_attach {T : CipherClass} (cs : CryptosystemType T) (s : CipherShape)
    (r : s.Of ℤ) : s.map Cipher.raw (s.map (fun r => (⟨cs, r⟩ : Cipher T)) r) = r := by
  cases s with
  | single => rfl
  | vector => exact map_raw_mk cs r
  | matrix => exact map_raw_rows cs r

theorem responseLossless (hx : s.All (fun c => Transportable c.raw) x) {T : CipherClass}
    (cs : CryptosystemType T) : ResponseLossless s (getCiphers (some cs) s) x := by
  have hconvert := CipherShape.convert_pack (CipherShape.all_map.mpr hx)
  rw [ResponseLossless, packResultShape, packConditional_eq, getCiphers, Response.get, hconvert,
    Option.bind_eq_bind, Option.bind_some, ciphersOn_eq, Option.map_some, map_raw_attach]

end Transport

/-- Every shape of ciphers returns from the server unchanged; on the way to the server
it must not be a single cipher, and one key of the server must be of its type. -/
theorem cipher_transport_iff (d : KeygenDraw) (s : CipherShape) {A : CipherClass}
    (x : s.Of (Cipher A)) (hx : s.All (fun c => Produced d.modulus c.raw) x) :
    (s.All (fun c => 0 ≤ c.raw) x ∧ ∀ y : s.Of ℤ, s.All (Produced d.modulus) y →
      s.pack y = s.pack (s.map Cipher.raw x) → y = s.map Cipher.raw x) ∧
    (∀ {S : CipherClass} (server : RPCServer S) (T2 : CipherClass),
      RequestLossless server T2 s x ↔ s ≠ .single ∧ (s.IsEmpty x ∨ server.keysFor T2 = 1)) ∧
    ∀ {T : CipherClass} (client : RPCClient T),
      (client.localCS.isSome → ResponseLossless s (client.getLocal s) x) ∧
      (client.remoteCS.isSome → ResponseLossless s (client.getRemote s) x) := by
  have htransportable : ∀ c, Produced d.modulus c → Transportable c := fun c hc =>
    d.transportable (produced_range hc).1 (produced_range hc).2
  have hraw : s.All (fun c : Cipher A => Transportable c.raw) x :=
    hx.imp fun (c : Cipher A) hc => htransportable c.raw hc
  refine ⟨⟨hraw.imp fun c hc => hc.nonneg, ?_⟩, fun server T2 => requestLossless_iff hraw server T2,
    fun client => ⟨?_, ?_⟩⟩
  · intro y hy hpack
    exact CipherShape.pack_injective (hy.imp htransportable) (CipherShape.all_map.mpr hraw) hpack
  · intro hlocal
    obtain ⟨cs, hcs⟩ := Option.isSome_iff_exists.mp hlocal
    have hget : client.getLocal s = getCiphers (some cs) s := by
      funext m
      rw [client.getLocal_eq, hcs]
    rw [hget]
    exact responseLossless hraw cs
  · intro hremote
    obtain ⟨cs, hcs⟩ := Option.isSome_iff_exists.mp hremote
    have hget : client.getRemote s = getCiphers (some cs) s := by
      funext m
      rw [client.getRemote_eq, hcs]
    rw [hget]
    exact responseLossless hraw cs

def sampleCipher : Cipher .publicKey :=
  ⟨⟨initConstants sampleKey.pub⟩, 36⟩

theorem produced_sampleCipher : Produced sampleKey.modulus sampleCipher.raw := by
  have henc : (initConstants sampleKey.pub).enc 1 1 = some 36 := by decide +kernel
  exact Produced.enc (p := 1) (r := 1) sampleKey.pub_hasModulus henc

theorem cipher_transport_iff_sample :
    RequestLossless sampleServer .publicKey .matrix [[sampleCipher, sampleCipher], []] := by
  have hproduced : CipherShape.matrix.All (fun c => Produced sampleKey.modulus c.raw)
      [[sampleCipher, sampleCipher], []] := by
    simp [CipherShape.All, produced_sampleCipher]
  have h := cipher_transport_iff sampleKey.toKeygenDraw .matrix _ hproduced
  exact (h.2.1 sampleServer .publicKey).mpr ⟨by decide, Or.inr rfl⟩

/-- A single cipher is sent, but no procedure can be compiled that receives it. -/
theorem single_cipher_not_received :
    Produced sampleKey.modulus sampleCipher.raw ∧ sampleServer.keysFor .publicKey = 1 ∧
      CipherShape.single.convert (CipherShape.single.pack (packConditional .single sampleCipher)) =
        some sampleCipher.raw ∧
      resolveOverload true .single = none ∧
      ¬ RequestLossless sampleServer .publicKey .single sampleCipher := by
  refine ⟨produced_sampleCipher, rfl, rfl, resolveOverload_single, ?_⟩
  intro h
  cases h

end PPFramework
