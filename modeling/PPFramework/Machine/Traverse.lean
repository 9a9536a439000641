import Mathlib.Data.List.Forall2
import Mathlib.Data.Option.Basic

/-!
Partial functions applied to every element of a list. The result exists when it
exists at each element, and then has the length and order of the argument.
-/

namespace Traverse

variable {A B : Type*}

theorem mapM_eq_some_iff {f : A → Option B} {as : List A} {bs : List B} :
    as.mapM f = some bs ↔ List.Forall₂ (fun a b => f a = some b) as bs := by
  induction as generalizing bs with
  | nil =>
      rw [List.mapM_nil, List.forall₂_nil_left_iff]
      exact ⟨fun h => (Option.some.inj h).symm, fun h => congrArg some h.symm⟩
  | cons a as ih =>
      rw [List.mapM_cons, List.forall₂_cons_left_iff]
      simp only [Option.bind_eq_bind, Option.bind_eq_some_iff, ih, Option.pure_def,
        Option.some.injEq]
      constructor
      · intro ⟨b, hb, bs', hbs, heq⟩
        exact ⟨b, bs', hb, hbs, heq.symm⟩
      · intro ⟨b, bs', hb, hbs, heq⟩
        exact ⟨b, hb, bs', hbs, heq.symm⟩

theorem mapM_total {f : A → Option B} {P : A → B → Prop} {as : List A}
    (h : ∀ a ∈ as, ∃ b, f a = some b ∧ P a b) :
    ∃ bs, as.mapM f = some bs ∧ List.Forall₂ P as bs := by
  induction as with
  | nil => exact ⟨[], rfl, List.Forall₂.nil⟩
  | cons a as ih =>
      obtain ⟨b, hb, hP⟩ := h a List.mem_cons_self
      obtain ⟨bs, hbs, hPs⟩ := ih fun c hc => h c (List.mem_cons_of_mem a hc)
      refine ⟨b :: bs, ?_, List.Forall₂.cons hP hPs⟩
      rw [List.mapM_cons, hb, hbs]
      rfl

theorem mapM_eq_map {f : A → Option B} {g : A → B} {as : List A} (h : ∀ a ∈ as, f a = some (g a)) :
    as.mapM f = some (as.map g) := by
  rw [mapM_eq_some_iff, List.forall₂_map_right_iff, List.forall₂_same]
  exact h

theorem mapM_eq_none_iff {f : A → Option B} {as : List A} :
    as.mapM f = none ↔ ∃ a ∈ as, f a = none := by
  induction as with
  | nil => simp
  | cons a as ih =>
      rw [List.mapM_cons, List.exists_mem_cons_iff, ← ih]
      cases f a with
      | none => simp
      | some b =>
          cases as.mapM f with
          | none => simp
          | some bs => simp

theorem eq_map_of_mapM {f : A → Option B} {g : A → B} {as : List A} {bs : List B}
    (h : as.mapM f = some bs) (hg : ∀ a b, f a = some b → b = g a) : bs = as.map g := by
  have hmap := (mapM_eq_some_iff.mp h).imp fun a b hb => hg a b hb
  rw [← List.forall₂_eq_eq_eq, List.forall₂_map_right_iff]
  exact hmap.flip

theorem forall₂_mem_right {P : A → B → Prop} {as : List A} {bs : List B}
    (h : List.Forall₂ P as bs) {b : B} (hb : b ∈ bs) : ∃ a ∈ as, P a b := by
  induction h with
  | nil => cases hb
  | cons hP _ ih =>
      cases hb with
      | head => exact ⟨_, List.mem_cons_self, hP⟩
      | tail _ hb =>
          obtain ⟨a, ha, hPa⟩ := ih hb
          exact ⟨a, List.mem_cons_of_mem _ ha, hPa⟩

/-- The loop `for (a : as) bs.push_back(f(a))`. -/
theorem foldl_push (f : A → B) (bs : List B) (as : List A) :
    as.foldl (fun bs a => bs ++ [f a]) bs = bs ++ as.map f := by
  induction as generalizing bs with
  | nil => exact (List.append_nil bs).symm
  | cons a as ih =>
      rw [List.foldl_cons, ih, List.append_assoc, List.singleton_append, List.map_cons]

theorem foldlM_push (f : A → B) (bs : List B) (as : List A) :
    as.foldlM (fun bs a => some (bs ++ [f a])) bs = some (bs ++ as.map f) := by
  rw [← foldl_push]
  exact List.foldlM_pure

/-- The loop `for (i = 0; i < size; i++) v[i] = f(v[i])`, updating the list in place. -/
def updateEach (f : A → Option A) (as : List A) : Option (List A) :=
  (List.range as.length).foldlM (fun as i => do
    let a ← as[i]?
    let b ← f a
    some (as.set i b)) as

theorem updateEach_from (f : A → Option A) (done rest : List A) :
    (List.range' done.length rest.length).foldlM (fun as i => do
      let a ← as[i]?
      let b ← f a
      some (as.set i b)) (done ++ rest) = (rest.mapM f).map (done ++ ·) := by
  induction rest generalizing done with
  | nil => rfl
  | cons a rest ih =>
      have hget : (done ++ a :: rest)[done.length]? = some a := by simp
      rw [List.length_cons, List.range'_succ, List.foldlM_cons, List.mapM_cons]
      cases hb : f a with
      | none => simp only [hget, hb, Option.bind_eq_bind, Option.bind_some, Option.bind_none,
          Option.map_none]
      | some b =>
          have hset : (done ++ a :: rest).set done.length b = (done ++ [b]) ++ rest := by simp
          have h := ih (done ++ [b])
          rw [List.length_append, List.length_singleton] at h
          simp only [hget, hb, hset, Option.bind_eq_bind, Option.bind_some] at h ⊢
          rw [h]
          cases rest.mapM f with
          | none => rfl
          | some bs => simp

theorem updateEach_eq_mapM (f : A → Option A) (as : List A) : updateEach f as = as.mapM f := by
  have h := updateEach_from f [] as
  rw [List.nil_append, List.length_nil, ← List.range_eq_range'] at h
  rw [updateEach, h]
  cases as.mapM f with
  | none => rfl
  | some bs => rfl

end Traverse
