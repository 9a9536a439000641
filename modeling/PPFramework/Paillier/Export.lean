import Mathlib.Data.List.TakeWhile
import PPFramework.Paillier.Operators

/-!
Import and export of plaintexts and ciphertexts as byte arrays and strings. The byte
functions work on a given number of bytes: a plaintext is padded with zeros or loses
its leading bytes, and a ciphertext that needs more room is written in front of the
buffer, which is `none` here.

Strings stop at the first zero byte, and their length is an `int`.
-/

namespace PPFramework
open Gmp

/-- `memcpy(dst + off, src, n)`, where `n` is the length of `src`. -/
def memcpy (dst : List UInt8) (off : ℕ) (src : List UInt8) : List UInt8 :=
  dst.take off ++ src ++ dst.drop (off + src.length)

/-- The characters of a C string. -/
def cString (buf : List UInt8) : List UInt8 :=
  buf.takeWhile fun c => c != 0

def paillierPlaintextFromBytes (m : List UInt8) : ℤ :=
  mpzImport m

def paillierPlaintextToBytes (len : ℕ) (pt : ℤ) : List UInt8 :=
  let buf0 := mpzExport pt
  let written := buf0.length
  if written = len then buf0
  else
    let buf1 := List.replicate len 0
    if written = 0 then buf1
    else if written < len then memcpy buf1 (len - written) buf0
    else memcpy buf1 0 ((buf0.drop (written - len)).take len)

def paillierPlaintextFromStr (str : List UInt8) : Option ℤ :=
  let s := cString str
  let len := (Int32.ofInt s.length).toInt
  -- a length that is negative as an `int` makes `mpz_import` read out of bounds
  if len < 0 then none else some (paillierPlaintextFromBytes (s.take len.toNat))

def paillierPlaintextToStr (pt : ℤ) : List UInt8 :=
  mpzExport pt ++ [0]

def paillierCiphertextFromBytes (c : List UInt8) : ℤ :=
  mpzImport c

/-- `PAILLIER_BITS_TO_BYTES`. -/
def paillierBitsToBytes (n : ℕ) : ℕ :=
  if n % 8 ≠ 0 then n / 8 + 1 else n / 8

def paillierCiphertextToBytes (len : ℕ) (ct : ℤ) : Option (List UInt8) :=
  let curLen := paillierBitsToBytes (mpzSizeinbase2 ct)
  let bytes := mpzExport ct
  if bytes ≠ [] ∧ len < curLen then none
  else some (memcpy (List.replicate len 0) (len - curLen) bytes)

theorem memcpy_end {len : ℕ} {src : List UInt8} (h : src.length ≤ len) :
    memcpy (List.replicate len 0) (len - src.length) src =
      List.replicate (len - src.length) 0 ++ src := by
  have htake : min (len - src.length) len = len - src.length := by omega
  have hdrop : len - (len - src.length + src.length) = 0 := by omega
  rw [memcpy, List.take_replicate, List.drop_replicate, htake, hdrop, List.replicate_zero,
    List.append_nil]

theorem memcpy_all {len : ℕ} {src : List UInt8} (h : src.length = len) :
    memcpy (List.replicate len 0) 0 src = src := by
  rw [memcpy, List.take_zero, List.nil_append, List.drop_replicate, Nat.zero_add, h, Nat.sub_self,
    List.replicate_zero, List.append_nil]

/-- Zeros in front of the number, or its last bytes. -/
theorem plaintextToBytes_eq (len : ℕ) (pt : ℤ) :
    paillierPlaintextToBytes len pt =
      List.replicate (len - (mpzExport pt).length) 0 ++
        (mpzExport pt).drop ((mpzExport pt).length - len) := by
  simp only [paillierPlaintextToBytes]
  generalize mpzExport pt = buf0
  split
  · next h => rw [h, Nat.sub_self, List.replicate_zero, List.drop_zero, List.nil_append]
  · split
    · next h0 =>
        rw [List.length_eq_zero_iff.mp h0, List.drop_nil, List.append_nil, List.length_nil,
          Nat.sub_zero]
    · split
      · next hlt => rw [memcpy_end hlt.le, Nat.sub_eq_zero_of_le hlt.le, List.drop_zero]
      · next hne _ hge =>
          have hlen : (buf0.drop (buf0.length - len)).length = len := by
            rw [List.length_drop]
            omega
          have hpad : len - buf0.length = 0 := by omega
          rw [List.take_of_length_le hlen.le, memcpy_all hlen, hpad, List.replicate_zero,
            List.nil_append]

theorem plaintextToBytes_length (len : ℕ) (pt : ℤ) :
    (paillierPlaintextToBytes len pt).length = len := by
  rw [plaintextToBytes_eq, List.length_append, List.length_replicate, List.length_drop]
  omega

theorem import_plaintextToBytes (len : ℕ) (pt : ℤ) :
    mpzImport (paillierPlaintextToBytes len pt) = pt.natAbs % 256 ^ len := by
  rw [plaintextToBytes_eq, mpzImport_replicate_append, mpzImport_drop, mpzImport_export]
  by_cases h : (mpzExport pt).length ≤ len
  · have hlt : (pt.natAbs : ℤ) < 256 ^ (mpzExport pt).length := by
      exact_mod_cast (mpzExport_length_le_iff pt _).mp (Nat.le_refl _)
    have hlt' : (pt.natAbs : ℤ) < 256 ^ len := by
      exact_mod_cast (mpzExport_length_le_iff pt _).mp h
    rw [Nat.sub_eq_zero_of_le h, Nat.sub_zero, Int.emod_eq_of_lt (Int.natCast_nonneg _) hlt,
      Int.emod_eq_of_lt (Int.natCast_nonneg _) hlt']
  · rw [Nat.sub_sub_self (Nat.le_of_not_le h)]

/-- On a given number of bytes export and import are inverse to each other; of a plaintext
they keep the magnitude, reduced to what fits. -/
theorem plaintext_bytes_inverse (len : ℕ) :
    (∀ pt, (paillierPlaintextToBytes len pt).length = len ∧
      paillierPlaintextFromBytes (paillierPlaintextToBytes len pt) = pt.natAbs % 256 ^ len) ∧
    (∀ m : List UInt8, m.length = len →
      paillierPlaintextToBytes len (paillierPlaintextFromBytes m) = m) ∧
    ∀ pt pt', paillierPlaintextToBytes len pt = paillierPlaintextToBytes len pt' ↔
      pt.natAbs ≡ pt'.natAbs [MOD 256 ^ len] := by
  refine ⟨fun pt => ⟨plaintextToBytes_length len pt, import_plaintextToBytes len pt⟩, ?_, ?_⟩
  · intro m hm
    have hnonneg : 0 ≤ mpzImport m := Int.natCast_nonneg _
    apply mpzImport_injective ((plaintextToBytes_length _ _).trans hm.symm)
    rw [paillierPlaintextFromBytes, import_plaintextToBytes, Int.natAbs_of_nonneg hnonneg]
    exact Int.emod_eq_of_lt hnonneg (hm ▸ mpzImport_lt m)
  · intro pt pt'
    have himport := import_plaintextToBytes len pt
    have himport' := import_plaintextToBytes len pt'
    constructor
    · intro h
      rw [h, himport'] at himport
      exact_mod_cast himport.symm
    · intro h
      apply mpzImport_injective
      · rw [plaintextToBytes_length, plaintextToBytes_length]
      · rw [himport, himport']
        exact_mod_cast h

section Strings

theorem cString_zero (s : List UInt8) : cString (s ++ [0]) = cString s := by
  induction s with
  | nil => rfl
  | cons c s ih =>
      by_cases hc : c = 0
      · simp [cString, hc]
      · simpa [cString, hc] using ih

theorem zero_not_mem_cString (buf : List UInt8) : (0 : UInt8) ∉ cString buf := by
  intro h
  simpa using List.mem_takeWhile_imp h

theorem cString_eq_self {s : List UInt8} (h : (0 : UInt8) ∉ s) : cString s = s := by
  rw [cString, List.takeWhile_eq_self_iff]
  intro c hc
  simpa using ne_of_mem_of_not_mem hc h

theorem plaintextFromStr_eq {str : List UInt8} (h : (cString str).length < 2 ^ 31) :
    paillierPlaintextFromStr str = some (mpzImport (cString str)) := by
  have hlen : (Int32.ofInt (cString str).length).toInt = (cString str).length :=
    Int32.toInt_ofInt_of_le (by omega) (by omega)
  simp only [paillierPlaintextFromStr, hlen, Int.toNat_natCast, List.take_length]
  exact if_neg (not_lt.mpr (Int.natCast_nonneg _))

theorem export_import_cString (buf : List UInt8) :
    mpzExport (mpzImport (cString buf)) = cString buf := by
  apply mpzExport_import
  intro h
  exact zero_not_mem_cString buf (List.mem_of_head? h)

end Strings

/-- A string comes back whole. A plaintext comes back as it was exactly when it is not
negative and none of its bytes is zero. -/
theorem plaintext_str_inverse :
    (∀ str : List UInt8, (cString str).length < 2 ^ 31 →
      (paillierPlaintextFromStr str).map paillierPlaintextToStr = some (cString str ++ [0])) ∧
    ∀ pt : ℤ, (mpzExport pt).length < 2 ^ 31 →
      (paillierPlaintextFromStr (paillierPlaintextToStr pt) = some pt ↔
        0 ≤ pt ∧ (0 : UInt8) ∉ mpzExport pt) := by
  constructor
  · intro str hstr
    rw [plaintextFromStr_eq hstr, Option.map_some, paillierPlaintextToStr, export_import_cString]
  · intro pt hpt
    have hlen : (cString (mpzExport pt)).length < 2 ^ 31 :=
      lt_of_le_of_lt (List.takeWhile_sublist _).length_le hpt
    rw [paillierPlaintextToStr, plaintextFromStr_eq (by rwa [cString_zero]), cString_zero,
      Option.some.injEq]
    constructor
    · intro h
      have hexport := export_import_cString (mpzExport pt)
      rw [h] at hexport
      refine ⟨h ▸ Int.natCast_nonneg _, ?_⟩
      rw [hexport]
      exact zero_not_mem_cString _
    · intro ⟨h0, hzero⟩
      rw [cString_eq_self hzero, mpzImport_export, Int.natAbs_of_nonneg h0]

/-- The number `0x010041` loses its last two bytes. -/
theorem plaintext_str_inverse_sample :
    paillierPlaintextFromStr (paillierPlaintextToStr 0x010203) = some 0x010203 ∧
      paillierPlaintextFromStr (paillierPlaintextToStr 0x010041) ≠ some 0x010041 := by
  have hlen (pt : ℤ) (hpt : pt.natAbs < 256 ^ 3) : (mpzExport pt).length < 2 ^ 31 :=
    lt_of_le_of_lt ((mpzExport_length_le_iff pt 3).mpr hpt) (by decide)
  refine ⟨(plaintext_str_inverse.2 _ (hlen _ (by decide))).mpr ⟨by decide, ?_⟩, ?_⟩
  · simp [mpzExport, Radix.numeral, byteAlphabet]
  · intro h
    have hzero := ((plaintext_str_inverse.2 _ (hlen _ (by decide))).mp h).2
    simp [mpzExport, Radix.numeral, byteAlphabet] at hzero

section Ciphertexts

theorem bitsToBytes_le_iff (n k : ℕ) : paillierBitsToBytes n ≤ k ↔ n ≤ 8 * k := by
  simp only [paillierBitsToBytes]
  split <;> omega

/-- The length computed from the bits is the number of bytes written. -/
theorem bitsToBytes_sizeinbase {c : ℤ} (hc : c ≠ 0) :
    paillierBitsToBytes (mpzSizeinbase2 c) = (mpzExport c).length := by
  have hle (k : ℕ) : paillierBitsToBytes (mpzSizeinbase2 c) ≤ k ↔ (mpzExport c).length ≤ k := by
    rw [bitsToBytes_le_iff, mpzExport_length_le_iff, mpzSizeinbase2, Nat.succ_le_iff,
      Nat.log2_lt (Int.natAbs_ne_zero.mpr hc), pow_mul]
    rfl
  exact Nat.le_antisymm ((hle _).mpr (Nat.le_refl _)) ((hle _).mp (Nat.le_refl _))

/-- Ciphertexts are exported like plaintexts when they fit, and out of bounds otherwise. -/
theorem ciphertextToBytes_eq (len : ℕ) (ct : ℤ) :
    paillierCiphertextToBytes len ct =
      if ct.natAbs < 256 ^ len then some (paillierPlaintextToBytes len ct) else none := by
  by_cases hct : ct = 0
  · subst hct
    have hnil : mpzExport 0 = [] := (mpzExport_eq_nil 0).mpr rfl
    rw [if_pos (by simp), plaintextToBytes_eq]
    simp [paillierCiphertextToBytes, hnil, memcpy]
  · have hne : mpzExport ct ≠ [] := mt (mpzExport_eq_nil ct).mp hct
    simp only [paillierCiphertextToBytes, bitsToBytes_sizeinbase hct, hne, ne_eq,
      not_false_eq_true, true_and, ← mpzExport_length_le_iff]
    by_cases hfit : (mpzExport ct).length ≤ len
    · rw [if_neg (not_lt.mpr hfit), if_pos hfit, memcpy_end hfit, plaintextToBytes_eq,
        Nat.sub_eq_zero_of_le hfit, List.drop_zero]
    · rw [if_pos (not_le.mp hfit), if_neg hfit]

theorem validEnc_lt_bytes {key : PaillierKey} {m c : ℤ} (hc : ValidEnc key.modulus m c) {len : ℕ}
    (hlen : paillierBitsToBytes (2 * key.modulusbits.toInt.toNat) ≤ len) :
    c.natAbs < 256 ^ len := by
  have hbits : key.modulusbits.toInt.toNat = mpzSizeinbase2 key.modulus := by
    rw [← key.sizeinbase_modulus, Int.toNat_natCast]
  have hn : key.modulus < 2 ^ key.modulusbits.toInt.toNat := by
    rw [hbits, mpzSizeinbase2, Int.natAbs_natCast]
    exact Nat.lt_log2_self
  obtain ⟨h0, hlt⟩ := validEnc_range hc
  calc c.natAbs < key.modulus * key.modulus := by omega
    _ ≤ 2 ^ key.modulusbits.toInt.toNat * 2 ^ key.modulusbits.toInt.toNat :=
      Nat.mul_le_mul hn.le hn.le
    _ = 2 ^ (2 * key.modulusbits.toInt.toNat) := by rw [two_mul, pow_add]
    _ ≤ 2 ^ (8 * len) := Nat.pow_le_pow_right (by decide) ((bitsToBytes_le_iff _ _).mp hlen)
    _ = 256 ^ len := pow_mul 2 8 len

end Ciphertexts

/-- Twice the bits of the key are enough room for every ciphertext under it, whose bytes
then bring it back. Without the room the export is out of bounds, and with it the bytes
are those of a plaintext. -/
theorem ciphertext_bytes_inverse (key : PaillierKey) (len : ℕ)
    (hlen : paillierBitsToBytes (2 * key.modulusbits.toInt.toNat) ≤ len) (m c : ℤ)
    (hc : ValidEnc key.modulus m c) :
    (∃ buf, paillierCiphertextToBytes len c = some buf ∧ buf.length = len ∧
      paillierCiphertextFromBytes buf = c) ∧
    ∀ len', paillierCiphertextToBytes len' c =
      if c.natAbs < 256 ^ len' then some (paillierPlaintextToBytes len' c) else none := by
  have hfit := validEnc_lt_bytes hc hlen
  refine ⟨⟨paillierPlaintextToBytes len c, ?_, plaintextToBytes_length len c, ?_⟩, ?_⟩
  · rw [ciphertextToBytes_eq, if_pos hfit]
  · rw [paillierCiphertextFromBytes, import_plaintextToBytes,
      Int.natAbs_of_nonneg (validEnc_range hc).1]
    refine Int.emod_eq_of_lt (validEnc_range hc).1 ?_
    exact_mod_cast (Int.natAbs_of_nonneg (validEnc_range hc).1) ▸ Int.ofNat_lt.mpr hfit
  · exact fun len' => ciphertextToBytes_eq len' c

theorem ciphertext_bytes_inverse_sample :
    (∃ buf, paillierCiphertextToBytes 2 648 = some buf ∧ paillierCiphertextFromBytes buf = 648) ∧
      paillierCiphertextToBytes 1 648 = none := by
  have hc : ValidEnc sampleKey.modulus 1 648 := ⟨2, by decide, by decide⟩
  obtain ⟨⟨buf, hbuf, _, himport⟩, hall⟩ :=
    ciphertext_bytes_inverse sampleKey 2 (by decide) 1 648 hc
  exact ⟨⟨buf, hbuf, himport⟩, (hall 1).trans (if_neg (by decide))⟩

end PPFramework
