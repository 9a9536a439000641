import Mathlib.Data.List.TakeWhile
import PPFramework.Gmp.Text
import PPFramework.Machine.Traverse

/-!
MessagePack objects and the conversions the framework asks for. Objects are what
the library hands over after parsing; its byte format is not modelled. A conversion
that throws `type_error` is `none`.

`mpz_class_packable` writes a one-element array around the exported bytes, whose
number is cast to 32 bits; the sign of the number is not written.
-/

namespace PPFramework
open Gmp

inductive MsgObject
  | nil
  | integer (i : ℤ)
  | raw (bytes : List UInt8)
  | array (items : List MsgObject)

def asciiBytes (s : String) : List UInt8 :=
  s.toList.map fun c => UInt8.ofNat c.toNat

/-- What `c_str` shows of a `std::string`. -/
def cStr (s : List UInt8) : List UInt8 :=
  s.takeWhile (· != 0)

namespace MsgObject

def asString : MsgObject → Option (List UInt8)
  | raw bytes => some bytes
  | _ => none

def asVector {A : Type} (convert : MsgObject → Option A) : MsgObject → Option (List A)
  | array items => items.mapM convert
  | _ => none

end MsgObject

/-- `mpz_class_packable::msgpack_pack`. -/
def msgpackPack (v : ℤ) : MsgObject :=
  let buf := mpzExport v
  .array [.raw (buf.take (buf.length % 2 ^ 32))]

/-- `mpz_class_packable::msgpack_unpack`; an empty array leaves the reference empty. -/
def msgpackUnpack : MsgObject → Option ℤ
  | .array [] => some (mpzImport [])
  | .array (o :: _) => o.asString.map mpzImport
  | _ => none

/-- The integers that survive the transport: no sign, and a size that fits its field. -/
structure Transportable (v : ℤ) : Prop where
  nonneg : 0 ≤ v
  size : (mpzExport v).length < 2 ^ 32

theorem msgpackPack_eq {v : ℤ} (h : (mpzExport v).length < 2 ^ 32) :
    msgpackPack v = .array [.raw (mpzExport v)] := by
  simp only [msgpackPack, Nat.mod_eq_of_lt h, List.take_length]

/-- What arrives is the magnitude. -/
theorem msgpackUnpack_pack_natAbs {v : ℤ} (h : (mpzExport v).length < 2 ^ 32) :
    msgpackUnpack (msgpackPack v) = some (v.natAbs : ℤ) := by
  rw [msgpackPack_eq h, ← mpzImport_export]
  rfl

theorem msgpackUnpack_pack {v : ℤ} (h : Transportable v) :
    msgpackUnpack (msgpackPack v) = some v := by
  rw [msgpackUnpack_pack_natAbs h.size, Int.natAbs_of_nonneg h.nonneg]

theorem msgpackPack_eq_iff {v w : ℤ} (hv : (mpzExport v).length < 2 ^ 32)
    (hw : (mpzExport w).length < 2 ^ 32) : msgpackPack v = msgpackPack w ↔ v = w ∨ v = -w := by
  rw [← Int.natAbs_eq_natAbs_iff]
  constructor
  · intro h
    have hmag := congrArg msgpackUnpack h
    rw [msgpackUnpack_pack_natAbs hv, msgpackUnpack_pack_natAbs hw, Option.some.injEq] at hmag
    exact Int.ofNat.inj hmag
  · intro h
    rw [msgpackPack_eq hv, msgpackPack_eq hw, mpzExport, mpzExport, h]

/-- The codec restores the numbers without a sign, and encodes two numbers alike exactly
when they differ in the sign only. -/
theorem msgpack_round_trip_iff (v : ℤ) (hv : (mpzExport v).length < 2 ^ 32) :
    (msgpackUnpack (msgpackPack v) = some v ↔ 0 ≤ v) ∧
      ∀ w : ℤ, (mpzExport w).length < 2 ^ 32 → v ≠ w →
        (msgpackPack v ≠ msgpackPack w ↔ v ≠ -w) := by
  constructor
  · rw [msgpackUnpack_pack_natAbs hv, Option.some.injEq]
    omega
  · intro w hw hne
    rw [ne_eq, msgpackPack_eq_iff hv hw, or_iff_right hne]

theorem msgpack_round_trip_iff_sample :
    msgpackUnpack (msgpackPack 258) = some 258 ∧ msgpackPack 258 ≠ msgpackPack 257 := by
  obtain ⟨hround, hdistinct⟩ := msgpack_round_trip_iff 258 (by decide)
  exact ⟨hround.mpr (by decide), (hdistinct 257 (by decide) (by decide)).mpr (by decide)⟩

/-- Minus one is sent as the byte 1 and read as one. -/
theorem sign_lost_in_transport : (mpzExport (-1)).length < 2 ^ 32 ∧
    msgpackUnpack (msgpackPack (-1)) = some 1 ∧ msgpackPack (-1) = msgpackPack 1 := by
  refine ⟨by decide, msgpackUnpack_pack_natAbs (by decide), ?_⟩
  exact (msgpackPack_eq_iff (by decide) (by decide)).mpr (Or.inr rfl)

theorem asVector_map {A : Type} {convert : MsgObject → Option A} {pack : A → MsgObject}
    {as : List A} (h : ∀ a ∈ as, convert (pack a) = some a) :
    (MsgObject.array (as.map pack)).asVector convert = some as := by
  rw [MsgObject.asVector, Traverse.mapM_eq_some_iff, List.forall₂_map_left_iff,
    List.forall₂_same]
  exact h

theorem cStr_getStr16 (n : ℤ) : cStr (mpzGetStr16 n) = mpzGetStr16 n := by
  apply List.takeWhile_eq_self_iff.mpr
  intro c hc
  rw [bne_iff_ne]
  intro h0
  exact zero_not_mem_getStr16 n (h0 ▸ hc)

end PPFramework
