import Mathlib.Data.Nat.Digits.Lemmas
import PPFramework.Arith.Radix

/-!
Number formats of GMP: numerals as strings (`mpz_get_str`, `mpz_set_str`) and
big-endian byte strings (`mpz_export`, `mpz_import` with one-byte words). A
character is the byte the C library sees.

The string reader follows the library: leading blanks are skipped, one minus sign
may follow, the next character must be a digit, and blanks among the digits are
ignored. The byte formats carry the magnitude only.
-/

namespace Gmp
open Radix

def isspace (c : UInt8) : Bool :=
  c == 32 || (9 ≤ c && c ≤ 13)

def hexDigit (d : ℕ) : UInt8 :=
  if d < 10 then UInt8.ofNat (48 + d) else UInt8.ofNat (87 + d)

def hexValue (c : UInt8) : Option ℕ :=
  if 48 ≤ c ∧ c ≤ 57 then some (c.toNat - 48)
  else if 97 ≤ c ∧ c ≤ 102 then some (c.toNat - 87)
  else if 65 ≤ c ∧ c ≤ 70 then some (c.toNat - 55)
  else none

def hexAlphabet : Alphabet UInt8 16 where
  render := hexDigit
  read := hexValue
  read_render := by decide

def byteAlphabet : Alphabet UInt8 256 where
  render := UInt8.ofNat
  read := fun c => some c.toNat
  read_render := by
    intro d hd
    rw [UInt8.toNat_ofNat_of_lt' hd]

def minusSign : UInt8 := 45

/-- `mpz_get_str(0, 16, n)`. -/
def mpzGetStr16 (n : ℤ) : List UInt8 :=
  let digits := if n = 0 then [hexDigit 0] else numeral hexAlphabet n.natAbs
  if n < 0 then minusSign :: digits else digits

def decimalDigit (d : ℕ) : UInt8 :=
  UInt8.ofNat (48 + d)

def decimalAlphabet : Alphabet UInt8 10 where
  render := decimalDigit
  read := fun c => if 48 ≤ c ∧ c ≤ 57 then some (c.toNat - 48) else none
  read_render := by decide

/-- `mpz_get_str(0, 10, n)`, which `get_str()` of the C++ class returns as a string. -/
def mpzGetStr10 (n : ℤ) : List UInt8 :=
  let digits := if n = 0 then [decimalDigit 0] else numeral decimalAlphabet n.natAbs
  if n < 0 then minusSign :: digits else digits

/-- `mpz_set_str(x, s, 16)`; the error return is `none`. -/
def mpzSetStr16 (s : List UInt8) : Option ℤ :=
  let s := s.dropWhile isspace
  let negative := s.head? == some minusSign
  let digits := if negative then s.tail else s
  match digits with
  | [] => none
  | c :: _ =>
      if (hexValue c).isNone then none
      else (readAll hexAlphabet (digits.filter fun d => !isspace d)).map fun ds =>
        if negative then -(value 16 ds : ℤ) else value 16 ds

/-- `mpz_export(NULL, &size, 1, 1, 0, 0, v)`: no byte at all for zero. -/
def mpzExport (v : ℤ) : List UInt8 :=
  numeral byteAlphabet v.natAbs

/-- `mpz_import(v, size, 1, 1, 0, 0, bytes)`. -/
def mpzImport (bytes : List UInt8) : ℤ :=
  value 256 (bytes.map UInt8.toNat)

theorem hexDigit_plain : ∀ d, d < 16 →
    isspace (hexDigit d) = false ∧ hexDigit d ≠ minusSign ∧ hexDigit d ≠ 0 := by
  decide

def hexDigits (n : ℕ) : List UInt8 :=
  if n = 0 then [hexDigit 0] else numeral hexAlphabet n

theorem mpzGetStr16_eq (n : ℤ) :
    mpzGetStr16 n = if n < 0 then minusSign :: hexDigits n.natAbs else hexDigits n.natAbs := by
  simp only [mpzGetStr16, hexDigits, Int.natAbs_eq_zero]

theorem mem_hexDigits {n : ℕ} {c : UInt8} (h : c ∈ hexDigits n) : ∃ d, d < 16 ∧ c = hexDigit d := by
  simp only [hexDigits] at h
  split at h
  · exact ⟨0, by decide, List.mem_singleton.mp h⟩
  · exact mem_numeral hexAlphabet (by decide) h

theorem hexDigits_ne_nil (n : ℕ) : hexDigits n ≠ [] := by
  simp only [hexDigits]
  split
  · exact List.cons_ne_nil _ _
  · next h => exact numeral_ne_nil hexAlphabet h

theorem readAll_hexDigits (n : ℕ) :
    (readAll hexAlphabet (hexDigits n)).map (value 16) = some n := by
  simp only [hexDigits]
  split
  · next h => subst h; rfl
  · exact readAll_numeral_value hexAlphabet (by decide) n

theorem readDigits_hexDigits (n : ℕ) (f : ℕ → ℤ) :
    (match hexDigits n with
      | [] => none
      | c :: _ =>
          if (hexValue c).isNone then none
          else (readAll hexAlphabet ((hexDigits n).filter fun d => !isspace d)).map
            fun ds => f (value 16 ds)) = some (f n) := by
  have hfilter : (hexDigits n).filter (fun d => !isspace d) = hexDigits n := by
    apply List.filter_eq_self.mpr
    intro c hc
    obtain ⟨d, hd, rfl⟩ := mem_hexDigits hc
    rw [(hexDigit_plain d hd).1, Bool.not_false]
  have hread := congrArg (Option.map f) (readAll_hexDigits n)
  rw [Option.map_map, Option.map_some] at hread
  rw [hfilter]
  cases hn : hexDigits n with
  | nil => exact absurd hn (hexDigits_ne_nil n)
  | cons c cs =>
      obtain ⟨d, hd, rfl⟩ := mem_hexDigits (hn ▸ List.mem_cons_self : c ∈ hexDigits n)
      have hvalue : hexValue (hexDigit d) = some d := hexAlphabet.read_render d hd
      rw [hn] at hread
      simp only [hvalue, Option.isNone_some, Bool.false_eq_true, ite_false]
      exact hread

theorem hexDigits_head (n : ℕ) : ∃ c cs, hexDigits n = c :: cs ∧
    isspace c = false ∧ c ≠ minusSign := by
  cases hn : hexDigits n with
  | nil => exact absurd hn (hexDigits_ne_nil n)
  | cons c cs =>
      obtain ⟨d, hd, rfl⟩ := mem_hexDigits (hn ▸ List.mem_cons_self : c ∈ hexDigits n)
      exact ⟨_, _, rfl, (hexDigit_plain d hd).1, (hexDigit_plain d hd).2.1⟩

theorem mpzSetStr16_getStr16 (n : ℤ) : mpzSetStr16 (mpzGetStr16 n) = some n := by
  obtain ⟨c, cs, hc, hspace, hminus⟩ := hexDigits_head n.natAbs
  rw [mpzGetStr16_eq]
  by_cases hn : n < 0
  · have hneg : -(n.natAbs : ℤ) = n := by omega
    have h := readDigits_hexDigits n.natAbs fun v => -(v : ℤ)
    rw [hneg] at h
    rw [if_pos hn]
    have hdrop : (minusSign :: hexDigits n.natAbs).dropWhile isspace =
        minusSign :: hexDigits n.natAbs := by
      rw [List.dropWhile_cons_of_neg (by decide)]
    simpa only [mpzSetStr16, hdrop, List.head?_cons, List.tail_cons, beq_self_eq_true,
      ite_true] using h
  · have hpos : (n.natAbs : ℤ) = n := by omega
    have h := readDigits_hexDigits n.natAbs fun v => (v : ℤ)
    rw [hpos] at h
    rw [if_neg hn]
    have hdrop : (hexDigits n.natAbs).dropWhile isspace = hexDigits n.natAbs := by
      rw [hc, List.dropWhile_cons_of_neg (by rw [hspace]; exact Bool.false_ne_true)]
    have hhead : ((hexDigits n.natAbs).head? == some minusSign) = false := by
      rw [hc, List.head?_cons]
      simpa only [beq_eq_false_iff_ne, ne_eq, Option.some.injEq] using hminus
    simpa only [mpzSetStr16, hdrop, hhead, Bool.false_eq_true, ite_false] using h

theorem mpzGetStr16_ne_nil (n : ℤ) : mpzGetStr16 n ≠ [] := by
  rw [mpzGetStr16_eq]
  split
  · exact List.cons_ne_nil _ _
  · exact hexDigits_ne_nil _

theorem zero_not_mem_getStr16 (n : ℤ) : (0 : UInt8) ∉ mpzGetStr16 n := by
  have hdigits : (0 : UInt8) ∉ hexDigits n.natAbs := by
    intro h
    obtain ⟨d, hd, h0⟩ := mem_hexDigits h
    exact (hexDigit_plain d hd).2.2 h0.symm
  rw [mpzGetStr16_eq]
  split
  · simpa only [List.mem_cons, minusSign, not_or] using And.intro (by decide) hdigits
  · exact hdigits

theorem readAll_byteAlphabet (bytes : List UInt8) :
    readAll byteAlphabet bytes = some (bytes.map UInt8.toNat) := by
  induction bytes with
  | nil => rfl
  | cons c cs ih =>
      simp only [readAll, ih, Option.bind_eq_bind, Option.bind_some, List.map_cons]
      rfl

theorem mpzImport_export (v : ℤ) : mpzImport (mpzExport v) = v.natAbs := by
  have h := readAll_numeral_value byteAlphabet (by decide) v.natAbs
  rw [readAll_byteAlphabet, Option.map_some, Option.some.injEq] at h
  rw [mpzImport, mpzExport, h]

theorem mpzExport_length_le {v : ℤ} {k : ℕ} (hv : v.natAbs < 256 ^ k) :
    (mpzExport v).length ≤ k := by
  rw [mpzExport, numeral, List.length_map, List.length_reverse]
  exact (Nat.digits_length_le_iff (by decide) _).mpr hv

theorem mpzExport_length_le_iff (v : ℤ) (k : ℕ) :
    (mpzExport v).length ≤ k ↔ v.natAbs < 256 ^ k := by
  rw [mpzExport, numeral, List.length_map, List.length_reverse]
  exact Nat.digits_length_le_iff (by decide) _

theorem mpzExport_eq_nil (v : ℤ) : mpzExport v = [] ↔ v = 0 := by
  rw [← List.length_eq_zero_iff, ← Nat.le_zero, mpzExport_length_le_iff]
  omega

theorem byte_lt (bytes : List UInt8) : ∀ d ∈ bytes.map UInt8.toNat, d < 256 := by
  intro d hd
  obtain ⟨c, _, rfl⟩ := List.mem_map.mp hd
  exact c.toNat_lt

theorem mpzImport_replicate_append (k : ℕ) (bytes : List UInt8) :
    mpzImport (List.replicate k 0 ++ bytes) = mpzImport bytes := by
  rw [mpzImport, List.map_append, List.map_replicate]
  exact congrArg Nat.cast (value_replicate_append 256 k _)

theorem mpzImport_drop (k : ℕ) (bytes : List UInt8) :
    mpzImport (bytes.drop k) = mpzImport bytes % 256 ^ (bytes.length - k) := by
  rw [mpzImport, List.map_drop, value_drop (by decide) (byte_lt bytes), List.length_map]
  push_cast
  rfl

theorem mpzImport_lt (bytes : List UInt8) : mpzImport bytes < 256 ^ bytes.length := by
  rw [mpzImport, ← List.length_map (f := UInt8.toNat)]
  exact_mod_cast value_lt (by decide) (byte_lt bytes)

theorem mpzImport_injective {bytes bytes' : List UInt8} (hlen : bytes.length = bytes'.length)
    (h : mpzImport bytes = mpzImport bytes') : bytes = bytes' := by
  have hmap := value_injective (by decide) (by simpa using hlen) (byte_lt bytes) (byte_lt bytes')
    (Int.ofNat.inj h)
  exact List.map_injective_iff.mpr (fun _ _ => UInt8.toNat.inj) hmap

theorem mpzExport_import {bytes : List UInt8} (h : bytes.head? ≠ some 0) :
    mpzExport (mpzImport bytes) = bytes := by
  have hhead : (bytes.map UInt8.toNat).head? ≠ some 0 := by
    cases bytes with
    | nil => simp
    | cons c cs =>
        intro hc
        exact h (congrArg some (UInt8.toNat.inj (Option.some.inj hc)))
  rw [mpzExport, mpzImport, Int.natAbs_natCast, numeral, digits_value (by decide) (byte_lt bytes) hhead,
    List.map_map]
  exact List.map_id'' (fun c => UInt8.ofNat_toNat) bytes

def decimalDigits (n : ℕ) : List UInt8 :=
  if n = 0 then [decimalDigit 0] else numeral decimalAlphabet n

theorem mpzGetStr10_eq (n : ℤ) :
    mpzGetStr10 n =
      if n < 0 then minusSign :: decimalDigits n.natAbs else decimalDigits n.natAbs := by
  simp only [mpzGetStr10, decimalDigits, Int.natAbs_eq_zero]

theorem readAll_decimalDigits (n : ℕ) :
    (readAll decimalAlphabet (decimalDigits n)).map (value 10) = some n := by
  simp only [decimalDigits]
  split
  · next h => subst h; rfl
  · exact readAll_numeral_value decimalAlphabet (by decide) n

theorem decimalDigits_injective {m n : ℕ} (h : decimalDigits m = decimalDigits n) : m = n := by
  have hread := readAll_decimalDigits m
  rw [h, readAll_decimalDigits n, Option.some.injEq] at hread
  exact hread.symm

/-- The sign cannot be mistaken for a digit. -/
theorem decimalDigits_ne_minus (m : ℕ) (cs : List UInt8) : decimalDigits m ≠ minusSign :: cs := by
  intro h
  have hread := readAll_decimalDigits m
  rw [h] at hread
  cases hread

theorem mpzGetStr10_injective {m n : ℤ} (h : mpzGetStr10 m = mpzGetStr10 n) : m = n := by
  rw [mpzGetStr10_eq, mpzGetStr10_eq] at h
  by_cases hm : m < 0
  · by_cases hn : n < 0
    · rw [if_pos hm, if_pos hn, List.cons.injEq] at h
      have habs := decimalDigits_injective h.2
      omega
    · rw [if_pos hm, if_neg hn] at h
      exact absurd h.symm (decimalDigits_ne_minus _ _)
  · by_cases hn : n < 0
    · rw [if_neg hm, if_pos hn] at h
      exact absurd h (decimalDigits_ne_minus _ _)
    · rw [if_neg hm, if_neg hn] at h
      have habs := decimalDigits_injective h
      omega

end Gmp
