import Mathlib.Data.List.Basic
import Mathlib.Data.Option.Basic

/-!
Rejection loops over a tape of draws. A loop takes draws until one is accepted; a
nested loop takes two accepted draws a round until the pair is. What they return is
the first acceptable element of a list, whatever fuel bounded the rounds.
-/

namespace Rejection

variable {A B : Type*}

/-- `do x = draw(); while (!accepts(x));` -/
def drawUntil (accepts : A → Bool) : List A → Option (A × List A)
  | [] => none
  | x :: tape => if accepts x then some (x, tape) else drawUntil accepts tape

/-- The loop that draws a pair a round, with the number of rounds bounded by the fuel. -/
def drawPairUntil (accepts : A → Bool) (acceptsPair : A → A → Bool) :
    ℕ → List A → Option (A × A)
  | 0, _ => none
  | fuel + 1, tape => do
      let (x, tape) ← drawUntil accepts tape
      let (y, tape) ← drawUntil accepts tape
      if acceptsPair x y then some (x, y) else drawPairUntil accepts acceptsPair fuel tape

def pairUp : List A → List (A × A)
  | x :: y :: xs => (x, y) :: pairUp xs
  | _ => []

section Single

variable (accepts : A → Bool)

/-- One loop consumes the first accepted draw and the rejected ones before it. -/
theorem drawUntil_filter (tape : List A) :
    match tape.filter accepts with
      | [] => drawUntil accepts tape = none
      | x :: xs => ∃ rest, drawUntil accepts tape = some (x, rest) ∧ rest.filter accepts = xs ∧
          rest.length < tape.length := by
  induction tape with
  | nil => rfl
  | cons x tape ih =>
      cases hx : accepts x with
      | true =>
          rw [List.filter_cons_of_pos hx]
          exact ⟨tape, by simp only [drawUntil, hx, ite_true], rfl, Nat.lt_succ_self _⟩
      | false =>
          have hskip : drawUntil accepts (x :: tape) = drawUntil accepts tape := by
            simp only [drawUntil, hx, Bool.false_eq_true, ite_false]
          rw [List.filter_cons_of_neg (by rw [hx]; exact Bool.false_ne_true), hskip]
          cases hfilter : tape.filter accepts with
          | nil =>
              rw [hfilter] at ih
              exact ih
          | cons y ys =>
              rw [hfilter] at ih
              obtain ⟨rest, hrest, hys, hlen⟩ := ih
              exact ⟨rest, hrest, hys, Nat.lt_succ_of_lt hlen⟩

end Single

theorem drawPairUntil_find? {accepts : A → Bool} {acceptsPair : A → A → Bool} {fuel : ℕ}
    {tape : List A} (hfuel : tape.length < fuel) :
    drawPairUntil accepts acceptsPair fuel tape =
      (pairUp (tape.filter accepts)).find? fun p => acceptsPair p.1 p.2 := by
  induction fuel generalizing tape with
  | zero => exact absurd hfuel (Nat.not_lt_zero _)
  | succ fuel ih =>
      have hfirst := drawUntil_filter accepts tape
      cases hx : tape.filter accepts with
      | nil =>
          rw [hx] at hfirst
          simp only [drawPairUntil, hfirst]
          rfl
      | cons x xs =>
          rw [hx] at hfirst
          obtain ⟨rest, hrest, rfl, hlen⟩ := hfirst
          have hsecond := drawUntil_filter accepts rest
          cases hy : rest.filter accepts with
          | nil =>
              rw [hy] at hsecond
              simp only [drawPairUntil, hrest, hsecond, Option.bind_eq_bind, Option.bind_some]
              rfl
          | cons y ys =>
              rw [hy] at hsecond
              obtain ⟨rest', hrest', rfl, hlen'⟩ := hsecond
              have hround := ih (show rest'.length < fuel by omega)
              cases hpair : acceptsPair x y with
              | true => simp [drawPairUntil, hrest, hrest', pairUp, hpair]
              | false => simpa [drawPairUntil, hrest, hrest', pairUp, hpair] using hround

theorem pairUp_map (f : A → B) (xs : List A) :
    pairUp (xs.map f) = (pairUp xs).map fun p => (f p.1, f p.2) := by
  induction xs using pairUp.induct with
  | case1 x y xs ih => simp only [List.map_cons, pairUp, ih]
  | case2 xs hshort =>
      rw [pairUp.eq_2 xs hshort, pairUp.eq_2 _ (by
        intro x y ys h
        match xs with
        | [] | [_] => simp at h
        | a :: b :: cs => exact hshort a b cs rfl)]
      rfl

theorem pairUp_append_find? {p : A × A → Bool} {xs : List A} {xy : A × A} (ys : List A)
    (h : (pairUp xs).find? p = some xy) : (pairUp (xs ++ ys)).find? p = some xy := by
  induction xs using pairUp.induct with
  | case1 x y xs ih =>
      simp only [List.cons_append, pairUp, List.find?_cons] at h ⊢
      cases hp : p (x, y) with
      | true => simpa only [hp] using h
      | false =>
          rw [hp] at h
          exact ih h
  | case2 xs hshort =>
      rw [pairUp.eq_2 xs hshort] at h
      cases h

end Rejection
