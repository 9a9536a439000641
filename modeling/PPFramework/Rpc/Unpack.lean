import PPFramework.Paillier.Operators
import PPFramework.Rpc.Server

/-!
What `Procedure::unpack` makes of a request. Each parameter is offered to the remote
cryptosystem, the local one and the clear assignment; nothing checks that one of
them took it. A vector of ciphers comes out as often as there are cryptosystems for
its type: never when the key is missing, twice when both classes are the same.
-/

namespace PPFramework
open PartialRun

variable {T : CipherClass}

def rawTuple : (ts : List ParamType) → ts.TProd ParamType.Out → ts.TProd ParamType.Raw
  | [], _ => PUnit.unit
  | t :: ts, (x, xs) => (t.rawOf x, rawTuple ts xs)

namespace RPCServer

/-- How many of the server's cryptosystems have ciphers of this type. -/
def keysFor (s : RPCServer T) (T2 : CipherClass) : ℕ :=
  (if s.remoteCS.isSome ∧ T.publicKeyCSType = T2 then 1 else 0) +
    if s.localCS.isSome ∧ T = T2 then 1 else 0

/-- A parameter the conversions treat as they should: a clear one, an empty one, or
one for whose type there is one key. -/
def Convertible (s : RPCServer T) : (t : ParamType) → t.Raw → Prop
  | .clear _, _ => True
  | .vector T2, x => x = [] ∨ s.keysFor T2 = 1
  | .matrix T2, x => x = [] ∨ s.keysFor T2 = 1

def AllConvertible (s : RPCServer T) : (ts : List ParamType) → ts.TProd ParamType.Raw → Prop
  | [], _ => True
  | t :: ts, (x, xs) => s.Convertible t x ∧ s.AllConvertible ts xs

theorem length_forType {T1 : CipherClass} (cs : Option (CryptosystemType T1)) (T2 : CipherClass) :
    (CryptosystemType.forType cs T2).length = if cs.isSome ∧ T1 = T2 then 1 else 0 := by
  simp only [CryptosystemType.forType]
  by_cases h : T1 = T2
  · subst h
    cases cs with
    | none => simp
    | some cs => simp
  · simp [h]

theorem length_converters (s : RPCServer T) (T2 : CipherClass) :
    (s.unpacker.converters T2).length = s.keysFor T2 := by
  rw [CipherUnpackerTransform.converters, List.length_append, length_forType, length_forType]
  rfl

end RPCServer

theorem flatMap_const_eq_iff {A B : Type} (as : List A) (bs : List B) :
    (as.flatMap fun _ => bs) = bs ↔ bs = [] ∨ as.length = 1 := by
  constructor
  · intro h
    have hlen := congrArg List.length h
    rw [List.length_flatMap, List.map_const', List.sum_replicate, smul_eq_mul] at hlen
    by_cases hbs : bs = []
    · exact Or.inl hbs
    · exact Or.inr (Nat.eq_of_mul_eq_mul_right (List.length_pos_of_ne_nil hbs)
        (hlen.trans (Nat.one_mul _).symm))
  · intro h
    cases h with
    | inl h => simp [h]
    | inr h =>
        obtain ⟨a, rfl⟩ := List.length_eq_one_iff.mp h
        exact List.flatMap_singleton _ _

theorem rawOf_apply_iff (s : RPCServer T) (t : ParamType) (x : t.Raw) :
    t.rawOf (s.unpacker.apply t t.init x) = x ↔ s.Convertible t x := by
  cases t with
  | clear t => exact iff_of_true (s.unpacker.apply_clear t t.default x) trivial
  | vector T2 =>
      rw [ParamType.init, s.unpacker.apply_vector]
      simp only [ParamType.rawOf, List.map_flatMap, map_raw_mk]
      rw [flatMap_const_eq_iff, s.length_converters]
      rfl
  | matrix T2 =>
      rw [ParamType.init, s.unpacker.apply_matrix]
      simp only [ParamType.rawOf, List.map_flatMap, map_raw_rows]
      rw [flatMap_const_eq_iff, s.length_converters]
      rfl

theorem rawTuple_transform_iff (s : RPCServer T) (ts : List ParamType)
    (xs : ts.TProd ParamType.Raw) :
    rawTuple ts (transformTuple s.unpacker ts (initTuple ts) xs) = xs ↔ s.AllConvertible ts xs := by
  induction ts with
  | nil => exact iff_of_true rfl trivial
  | cons t ts ih =>
      obtain ⟨x, xs⟩ := xs
      exact Prod.mk_inj.trans (and_congr (rawOf_apply_iff s t x) (ih xs))

/-- A well-typed request is unpacked without an error, and the values that come out
are the ones that went in exactly when every parameter was convertible. -/
theorem unpack_preserves_iff (s : RPCServer T) (ts : List ParamType) (params : MsgObject)
    (xs : ts.TProd ParamType.Raw) (htyped : convertTuple ts params = some xs) :
    ∃ out, unpack s.unpacker ts params = some out ∧
      (rawTuple ts out = xs ↔ s.AllConvertible ts xs) := by
  refine ⟨_, ?_, rawTuple_transform_iff s ts xs⟩
  rw [unpack, htyped, Option.bind_eq_bind, Option.bind_some]

def sampleParams : MsgObject :=
  .array [.array [.array [.raw [36]]]]

def sampleServer : RPCServer .privateKey :=
  { RPCServer.new (some sampleKey.cryptosystem) with
    remoteCS := some (PaillierCryptosystem.new (asciiBytes "23")) }

theorem unpack_preserves_iff_sample :
    ∃ out, unpack sampleServer.unpacker [.vector .publicKey] sampleParams = some out ∧
      rawTuple [.vector .publicKey] out = ([36], PUnit.unit) := by
  obtain ⟨out, hout, hiff⟩ := unpack_preserves_iff sampleServer [.vector .publicKey] sampleParams
    ([36], PUnit.unit) rfl
  exact ⟨out, hout, hiff.mpr ⟨Or.inr rfl, trivial⟩⟩

/-- The private-key server before any key exchange returns no cipher for the one sent;
a server of the public class with both keys returns two. -/
theorem unpack_drops_and_duplicates :
    convertTuple [.vector .publicKey] sampleParams = some ([36], PUnit.unit) ∧
      (unpack (RPCServer.new (T := .privateKey) (some sampleKey.cryptosystem)).unpacker
        [.vector .publicKey] sampleParams).map (rawTuple _) = some ([], PUnit.unit) ∧
      ∃ s responses,
        run dispatch (RPCServer.new (T := .publicKey)
            (some (PaillierCryptosystem.new (asciiBytes "23"))))
          [callRequest Procedure.exchangePublicKeys.procName [.raw (asciiBytes "23")]] =
          some (s, responses) ∧
        (unpack s.unpacker [.vector .publicKey] sampleParams).map (rawTuple _) =
          some ([36, 36], PUnit.unit) :=
  ⟨rfl, rfl, _, _, rfl, rfl⟩

end PPFramework
