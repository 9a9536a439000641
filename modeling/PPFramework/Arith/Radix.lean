import Mathlib.Data.List.Basic
import Mathlib.Data.Nat.Digits.Defs

/-!
Big-endian positional numerals over an alphabet. An alphabet for base `b` is a
rendering of the digits below `b` and a partial reading that recovers them;
printing a number and reading the numeral back is then the identity.
-/

namespace Radix

structure Alphabet (α : Type) (b : ℕ) where
  render : ℕ → α
  read : α → Option ℕ
  read_render : ∀ d, d < b → read (render d) = some d

variable {α : Type} {b : ℕ}

/-- The numeral of `n`, most significant digit first; zero has no digits. -/
def numeral (A : Alphabet α b) (n : ℕ) : List α :=
  (Nat.digits b n).reverse.map A.render

def value (b : ℕ) (digits : List ℕ) : ℕ :=
  Nat.ofDigits b digits.reverse

def readAll (A : Alphabet α b) : List α → Option (List ℕ)
  | [] => some []
  | c :: cs => do
      let d ← A.read c
      let ds ← readAll A cs
      some (d :: ds)

theorem readAll_map_render (A : Alphabet α b) (ds : List ℕ) (h : ∀ d ∈ ds, d < b) :
    readAll A (ds.map A.render) = some ds := by
  induction ds with
  | nil => rfl
  | cons d ds ih =>
      have hd := A.read_render d (h d List.mem_cons_self)
      have hds := ih fun e he => h e (List.mem_cons_of_mem d he)
      simp only [List.map_cons, readAll, hd, hds, Option.bind_eq_bind, Option.bind_some]

theorem readAll_numeral (A : Alphabet α b) (hb : 1 < b) (n : ℕ) :
    readAll A (numeral A n) = some (Nat.digits b n).reverse := by
  apply readAll_map_render
  intro d hd
  exact Nat.digits_lt_base hb (List.mem_reverse.mp hd)

theorem value_digits (b n : ℕ) : value b (Nat.digits b n).reverse = n := by
  rw [value, List.reverse_reverse, Nat.ofDigits_digits]

theorem readAll_numeral_value (A : Alphabet α b) (hb : 1 < b) (n : ℕ) :
    (readAll A (numeral A n)).map (value b) = some n := by
  rw [readAll_numeral A hb, Option.map_some, value_digits]

theorem mem_numeral (A : Alphabet α b) (hb : 1 < b) {n : ℕ} {c : α} (h : c ∈ numeral A n) :
    ∃ d, d < b ∧ c = A.render d := by
  obtain ⟨d, hd, rfl⟩ := List.mem_map.mp h
  exact ⟨d, Nat.digits_lt_base hb (List.mem_reverse.mp hd), rfl⟩

theorem numeral_ne_nil (A : Alphabet α b) {n : ℕ} (hn : n ≠ 0) : numeral A n ≠ [] := by
  simpa only [numeral, ne_eq, List.map_eq_nil_iff, List.reverse_eq_nil_iff] using
    Nat.digits_ne_nil_iff_ne_zero.mpr hn

section FixedWidth

theorem value_replicate_append (b k : ℕ) (ds : List ℕ) :
    value b (List.replicate k 0 ++ ds) = value b ds := by
  rw [value, List.reverse_append, List.reverse_replicate, Nat.ofDigits_append_replicate_zero,
    value]

/-- Without its leading digits a numeral denotes a remainder. -/
theorem value_drop (hb : 0 < b) {ds : List ℕ} (h : ∀ d ∈ ds, d < b) (k : ℕ) :
    value b (ds.drop k) = value b ds % b ^ (ds.length - k) := by
  rw [value, value, List.reverse_drop, Nat.ofDigits_mod_pow_eq_ofDigits_take _ hb]
  intro d hd
  exact h d (List.mem_reverse.mp hd)

theorem value_lt (hb : 1 < b) {ds : List ℕ} (h : ∀ d ∈ ds, d < b) :
    value b ds < b ^ ds.length := by
  rw [value, ← List.length_reverse]
  exact Nat.ofDigits_lt_base_pow_length hb fun d hd => h d (List.mem_reverse.mp hd)

/-- Among numerals of one length the value determines the digits. -/
theorem value_injective (hb : 1 < b) {ds es : List ℕ} (hlen : ds.length = es.length)
    (hd : ∀ d ∈ ds, d < b) (he : ∀ e ∈ es, e < b) (h : value b ds = value b es) : ds = es := by
  apply List.reverse_injective
  refine Nat.ofDigits_inj_of_len_eq hb ?_ ?_ ?_ h
  · rw [List.length_reverse, List.length_reverse, hlen]
  · exact fun d hmem => hd d (List.mem_reverse.mp hmem)
  · exact fun e hmem => he e (List.mem_reverse.mp hmem)

/-- A numeral without leading zeros is the one that is printed. -/
theorem digits_value (hb : 1 < b) {ds : List ℕ} (h : ∀ d ∈ ds, d < b) (hhead : ds.head? ≠ some 0) :
    (Nat.digits b (value b ds)).reverse = ds := by
  rw [value, Nat.digits_ofDigits b hb, List.reverse_reverse]
  · exact fun d hd => h d (List.mem_reverse.mp hd)
  · intro hne hlast
    rw [List.getLast_reverse] at hlast
    have hne' : ds ≠ [] := mt List.reverse_eq_nil_iff.mpr hne
    exact hhead (by rw [List.head?_eq_some_head hne', hlast])

end FixedWidth

end Radix
