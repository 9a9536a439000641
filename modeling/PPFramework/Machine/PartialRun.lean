import Mathlib.Data.List.Basic
import Mathlib.Data.Option.Basic

/-!
Runs of partial step functions, with and without outputs. A step that returns
`none` ends the run: the machine has no next state. The rules here turn facts
about one step into facts about every finite run.
-/

namespace PartialRun

variable {S T A B : Type*}

def exec (step : S → A → Option S) (s : S) (as : List A) : Option S :=
  as.foldlM step s

def run (step : S → A → Option (S × B)) : S → List A → Option (S × List B)
  | s, [] => some (s, [])
  | s, a :: as =>
      (step s a).bind fun sb => (run step sb.1 as).map fun r => (r.1, sb.2 :: r.2)

section Exec

variable {step : S → A → Option S}

@[simp] theorem exec_nil (s : S) : exec step s [] = some s := rfl

@[simp] theorem exec_cons (s : S) (a : A) (as : List A) :
    exec step s (a :: as) = (step s a).bind fun s' => exec step s' as := by
  simp only [exec, List.foldlM_cons, Option.bind_eq_bind]

theorem exec_append (s : S) (as bs : List A) :
    exec step s (as ++ bs) = (exec step s as).bind fun s' => exec step s' bs := by
  simp only [exec, List.foldlM_append, Option.bind_eq_bind]

/-- A forward simulation: whenever the specification `spec` steps, so does the
implementation, and the relation is kept. Whole runs then correspond. -/
theorem exec_simulation {spec : T → A → Option T} (R : S → T → Prop) (ok : A → Prop)
    (hstep : ∀ s t a t', R s t → ok a → spec t a = some t' →
      ∃ s', step s a = some s' ∧ R s' t')
    {as : List A} {s : S} {t t' : T} (hR : R s t) (hok : ∀ a ∈ as, ok a)
    (hspec : exec spec t as = some t') :
    ∃ s', exec step s as = some s' ∧ R s' t' := by
  induction as generalizing s t with
  | nil =>
      rw [exec_nil, Option.some.injEq] at hspec
      exact ⟨s, rfl, hspec ▸ hR⟩
  | cons a as ih =>
      rw [exec_cons, Option.bind_eq_some_iff] at hspec
      obtain ⟨t₁, ht₁, hrest⟩ := hspec
      obtain ⟨s₁, hs₁, hR₁⟩ := hstep s t a t₁ hR (hok a List.mem_cons_self) ht₁
      rw [exec_cons, hs₁, Option.bind_some]
      exact ih hR₁ (fun b hb => hok b (List.mem_cons_of_mem a hb)) hrest

theorem exec_total (Inv : S → Prop) (ok : A → Prop)
    (hstep : ∀ s a, Inv s → ok a → ∃ s', step s a = some s' ∧ Inv s')
    {as : List A} {s : S} (hs : Inv s) (hok : ∀ a ∈ as, ok a) :
    ∃ s', exec step s as = some s' ∧ Inv s' := by
  induction as generalizing s with
  | nil => exact ⟨s, rfl, hs⟩
  | cons a as ih =>
      obtain ⟨s₁, hs₁, hInv₁⟩ := hstep s a hs (hok a List.mem_cons_self)
      rw [exec_cons, hs₁, Option.bind_some]
      exact ih hInv₁ fun b hb => hok b (List.mem_cons_of_mem a hb)

theorem exec_invariant (Inv : S → Prop) (ok : A → Prop)
    (hstep : ∀ s a s', Inv s → ok a → step s a = some s' → Inv s') {as : List A} {s s' : S}
    (hs : Inv s) (hok : ∀ a ∈ as, ok a) (hexec : exec step s as = some s') : Inv s' := by
  induction as generalizing s with
  | nil =>
      rw [exec_nil, Option.some.injEq] at hexec
      exact hexec ▸ hs
  | cons a as ih =>
      rw [exec_cons, Option.bind_eq_some_iff] at hexec
      obtain ⟨s₁, hs₁, hrest⟩ := hexec
      exact ih (hstep s a s₁ hs (hok a List.mem_cons_self) hs₁)
        (fun b hb => hok b (List.mem_cons_of_mem a hb)) hrest

/-- What every step establishes holds after a run that made a step. -/
theorem exec_post (P : S → Prop) (hstep : ∀ s a s', step s a = some s' → P s') {as : List A}
    {s s' : S} (hne : as ≠ []) (hexec : exec step s as = some s') : P s' := by
  induction as generalizing s with
  | nil => exact absurd rfl hne
  | cons a as ih =>
      rw [exec_cons, Option.bind_eq_some_iff] at hexec
      obtain ⟨s₁, hs₁, hrest⟩ := hexec
      cases as with
      | nil =>
          rw [exec_nil, Option.some.injEq] at hrest
          exact hrest ▸ hstep s a s₁ hs₁
      | cons b as => exact ih (List.cons_ne_nil b as) hrest

end Exec

section Run

variable {step : S → A → Option (S × B)}

@[simp] theorem run_nil (s : S) : run step s [] = some (s, []) := rfl

theorem run_cons_eq_some {s s' : S} {a : A} {as : List A} {bs : List B} :
    run step s (a :: as) = some (s', bs) ↔
      ∃ s₁ b bs', step s a = some (s₁, b) ∧ run step s₁ as = some (s', bs') ∧
        bs = b :: bs' := by
  simp only [run, Option.bind_eq_some_iff, Option.map_eq_some_iff, Prod.exists, Prod.mk.injEq]
  constructor
  · rintro ⟨s₁, b, hs, s₂, bs', hr, rfl, rfl⟩
    exact ⟨s₁, b, bs', hs, hr, rfl⟩
  · rintro ⟨s₁, b, bs', hs, hr, rfl⟩
    exact ⟨s₁, b, hs, s', bs', hr, rfl, rfl⟩

theorem run_cons {s s₁ s' : S} {a : A} {as : List A} {b : B} {bs : List B}
    (hstep : step s a = some (s₁, b)) (hrest : run step s₁ as = some (s', bs)) :
    run step s (a :: as) = some (s', b :: bs) := by
  rw [run_cons_eq_some]
  exact ⟨s₁, b, bs, hstep, hrest, rfl⟩

theorem run_append_eq_some {s s' : S} {as as' : List A} {bs : List B} :
    run step s (as ++ as') = some (s', bs) ↔
      ∃ s₁ bs₁ bs₂, run step s as = some (s₁, bs₁) ∧ run step s₁ as' = some (s', bs₂) ∧
        bs = bs₁ ++ bs₂ := by
  induction as generalizing s bs with
  | nil => simp
  | cons a as ih =>
      simp only [List.cons_append, run_cons_eq_some, ih]
      constructor
      · rintro ⟨s₁, b, _, hs, ⟨s₂, bs₁, bs₂, h₁, h₂, rfl⟩, rfl⟩
        exact ⟨s₂, b :: bs₁, bs₂, ⟨s₁, b, bs₁, hs, h₁, rfl⟩, h₂, rfl⟩
      · rintro ⟨s₂, _, bs₂, ⟨s₁, b, bs₁, hs, h₁, rfl⟩, h₂, rfl⟩
        exact ⟨s₁, b, bs₁ ++ bs₂, hs, ⟨s₂, bs₁, bs₂, h₁, h₂, rfl⟩, rfl⟩

theorem run_append_eq_none {s s₁ : S} {as as' : List A} {bs : List B}
    (hrun : run step s as = some (s₁, bs)) (hrest : run step s₁ as' = none) :
    run step s (as ++ as') = none := by
  rw [Option.eq_none_iff_forall_ne_some]
  rintro ⟨s', cs⟩ h
  rw [run_append_eq_some] at h
  obtain ⟨t, _, _, hrun', hrest', _⟩ := h
  obtain ⟨rfl, _⟩ := Prod.mk.inj (Option.some.inj (hrun.symm.trans hrun'))
  rw [hrest] at hrest'
  cases hrest'

theorem run_snoc {s s₁ s' : S} {as : List A} {bs : List B} {a : A} {b : B}
    (hrun : run step s as = some (s₁, bs)) (hstep : step s₁ a = some (s', b)) :
    run step s (as ++ [a]) = some (s', bs ++ [b]) := by
  rw [run_append_eq_some]
  exact ⟨s₁, bs, [b], hrun, run_cons hstep rfl, rfl⟩

theorem run_length {s s' : S} {as : List A} {bs : List B}
    (hrun : run step s as = some (s', bs)) : bs.length = as.length := by
  induction as generalizing s bs with
  | nil =>
      simp only [run_nil, Option.some.injEq, Prod.mk.injEq] at hrun
      rw [← hrun.2, List.length_nil, List.length_nil]
  | cons a as ih =>
      rw [run_cons_eq_some] at hrun
      obtain ⟨s₁, b, bs', _, hrest, rfl⟩ := hrun
      rw [List.length_cons, List.length_cons, ih hrest]

/-- The output at the place of a step is that step's output. -/
theorem run_output_at {s s₁ s₂ s' : S} {before after : List A} {a : A} {b : B} {bs₁ bs : List B}
    (hbefore : run step s before = some (s₁, bs₁)) (hstep : step s₁ a = some (s₂, b))
    (hrun : run step s (before ++ a :: after) = some (s', bs)) : bs[before.length]? = some b := by
  rw [run_append_eq_some] at hrun
  obtain ⟨t₁, cs₁, cs₂, hbefore', hafter, rfl⟩ := hrun
  obtain ⟨rfl, rfl⟩ := Prod.mk.inj (Option.some.inj (hbefore.symm.trans hbefore'))
  rw [run_cons_eq_some] at hafter
  obtain ⟨t₂, b', cs, hstep', _, rfl⟩ := hafter
  obtain ⟨rfl, rfl⟩ := Prod.mk.inj (Option.some.inj (hstep.symm.trans hstep'))
  rw [← run_length hbefore, List.getElem?_append_right (Nat.le_refl _), Nat.sub_self,
    List.getElem?_cons_zero]

theorem run_invariant (Inv : S → Prop) (ok : A → Prop)
    (hstep : ∀ s a s' b, Inv s → ok a → step s a = some (s', b) → Inv s')
    {s s' : S} {as : List A} {bs : List B} (hs : Inv s) (hok : ∀ a ∈ as, ok a)
    (hrun : run step s as = some (s', bs)) : Inv s' := by
  induction as generalizing s bs with
  | nil =>
      simp only [run_nil, Option.some.injEq, Prod.mk.injEq] at hrun
      exact hrun.1 ▸ hs
  | cons a as ih =>
      rw [run_cons_eq_some] at hrun
      obtain ⟨s₁, b, bs', hstep₁, hrest, _⟩ := hrun
      exact ih (hstep s a s₁ b hs (hok a List.mem_cons_self) hstep₁)
        (fun c hc => hok c (List.mem_cons_of_mem a hc)) hrest

/-- The invariant may use what is known of every state the run comes through. -/
theorem run_invariant_visited (Inv V : S → Prop) (ok : A → Prop)
    (hstep : ∀ s a s' b, Inv s → V s → V s' → ok a → step s a = some (s', b) → Inv s')
    {s s' : S} {as : List A} {bs : List B} (hs : Inv s) (hok : ∀ a ∈ as, ok a)
    (hvisited : ∀ before after s₁ bs₁, as = before ++ after →
      run step s before = some (s₁, bs₁) → V s₁)
    (hrun : run step s as = some (s', bs)) : Inv s' := by
  induction as generalizing s bs with
  | nil =>
      simp only [run_nil, Option.some.injEq, Prod.mk.injEq] at hrun
      exact hrun.1 ▸ hs
  | cons a as ih =>
      rw [run_cons_eq_some] at hrun
      obtain ⟨s₁, b, bs', hfirst, hrest, _⟩ := hrun
      have hV : V s := hvisited [] (a :: as) s [] rfl rfl
      have hlater : ∀ before after s₂ bs₂, as = before ++ after →
          run step s₁ before = some (s₂, bs₂) → V s₂ := by
        intro before after s₂ bs₂ has hbefore
        exact hvisited (a :: before) after s₂ (b :: bs₂) (congrArg (List.cons a) has)
          (run_cons hfirst hbefore)
      have hV₁ : V s₁ := hlater [] as s₁ [] rfl rfl
      exact ih (hstep s a s₁ b hs hV hV₁ (hok a List.mem_cons_self) hfirst)
        (fun c hc => hok c (List.mem_cons_of_mem a hc)) hlater hrest

/-- Progress: steps from invariant states exist, so the whole run does, and every
output is what its input allows. -/
theorem run_total (Inv : S → Prop) (ok : A → Prop) (P : A → B → Prop)
    (hstep : ∀ s a, Inv s → ok a → ∃ s' b, step s a = some (s', b) ∧ Inv s' ∧ P a b)
    {s : S} {as : List A} (hs : Inv s) (hok : ∀ a ∈ as, ok a) :
    ∃ s' bs, run step s as = some (s', bs) ∧ Inv s' ∧ List.Forall₂ P as bs := by
  induction as generalizing s with
  | nil => exact ⟨s, [], rfl, hs, List.Forall₂.nil⟩
  | cons a as ih =>
      obtain ⟨s₁, b, hstep₁, hs₁, hb⟩ := hstep s a hs (hok a List.mem_cons_self)
      obtain ⟨s', bs, hrest, hs', hbs⟩ := ih hs₁ fun c hc => hok c (List.mem_cons_of_mem a hc)
      exact ⟨s', b :: bs, run_cons hstep₁ hrest, hs', List.Forall₂.cons hb hbs⟩

/-- A run is missing exactly when some step of it is. -/
theorem run_eq_none_iff {s : S} {as : List A} :
    run step s as = none ↔
      ∃ before a after s₁ bs, as = before ++ a :: after ∧
        run step s before = some (s₁, bs) ∧ step s₁ a = none := by
  constructor
  · induction as generalizing s with
    | nil => exact fun h => nomatch h
    | cons a as ih =>
        intro h
        cases hstep : step s a with
        | none => exact ⟨[], a, as, s, [], rfl, rfl, hstep⟩
        | some sb =>
            obtain ⟨s₁, b⟩ := sb
            rw [run, hstep, Option.bind_some, Option.map_eq_none_iff] at h
            obtain ⟨before, a', after, s₂, bs, rfl, hbefore, hnone⟩ := ih h
            exact ⟨a :: before, a', after, s₂, b :: bs, rfl, run_cons hstep hbefore, hnone⟩
  · rintro ⟨before, a, after, s₁, bs, rfl, hbefore, hnone⟩
    exact run_append_eq_none hbefore (by rw [run, hnone, Option.bind_none])

/-- What a rank counts down to happens once enough of the steps are ones that count. -/
theorem run_ranked (rank : S → ℕ) (mine : A → Bool) (P : B → Prop)
    (hmine : ∀ s a s' b, mine a = true → 0 < rank s → step s a = some (s', b) →
      P b ∨ 0 < rank s' ∧ rank s' < rank s)
    (hother : ∀ s a s' b, mine a = false → 0 < rank s → step s a = some (s', b) →
      rank s' = rank s)
    {s s' : S} {as : List A} {bs : List B} (hs : 0 < rank s) (hcount : rank s ≤ as.countP mine)
    (hrun : run step s as = some (s', bs)) : ∃ b ∈ bs, P b := by
  induction as generalizing s bs with
  | nil =>
      rw [List.countP_nil] at hcount
      omega
  | cons a as ih =>
      rw [run_cons_eq_some] at hrun
      obtain ⟨s₁, b, bs', hstep, hrest, rfl⟩ := hrun
      rw [List.exists_mem_cons_iff]
      cases ha : mine a with
      | true =>
          rw [List.countP_cons_of_pos ha] at hcount
          obtain hb | ⟨hpos, hless⟩ := hmine s a s₁ b ha hs hstep
          · exact .inl hb
          · exact .inr (ih hpos (by omega) hrest)
      | false =>
          rw [List.countP_cons_of_neg (by simp [ha])] at hcount
          have hsame := hother s a s₁ b ha hs hstep
          exact .inr (ih (hsame ▸ hs) (hsame ▸ hcount) hrest)

/-- Two machines whose steps match, outputs included, have matching runs. -/
theorem run_bisimulation {step' : T → A → Option (T × B)} (R : S → T → Prop)
    (hstep : ∀ s t a, R s t →
      Option.Rel (fun x y => R x.1 y.1 ∧ x.2 = y.2) (step s a) (step' t a))
    {s : S} {t : T} (hR : R s t) (as : List A) :
    Option.Rel (fun x y => R x.1 y.1 ∧ x.2 = y.2) (run step s as) (run step' t as) := by
  induction as generalizing s t with
  | nil => exact .some ⟨hR, rfl⟩
  | cons a as ih =>
      have hhead := hstep s t a hR
      simp only [run]
      generalize step s a = x, step' t a = y at hhead
      cases hhead with
      | none => exact .none
      | some h =>
          have htail := ih h.1
          rw [Option.bind_some, Option.bind_some, h.2]
          generalize run step _ as = r, run step' _ as = r' at htail
          cases htail with
          | none => exact .none
          | some hrest => exact .some ⟨hrest.1, congrArg (List.cons _) hrest.2⟩

/-- Inputs that leave the state alone can be left out: the other inputs get the outputs
they had, and the run ends where it ended. -/
theorem run_filter (keep : A → Bool)
    (hskip : ∀ s a s' b, keep a = false → step s a = some (s', b) → s' = s)
    {s s' : S} {as : List A} {bs : List B} (hrun : run step s as = some (s', bs)) :
    run step s (as.filter keep) =
      some (s', ((as.zip bs).filter fun ab => keep ab.1).map Prod.snd) := by
  induction as generalizing s bs with
  | nil =>
      simp only [run_nil, Option.some.injEq, Prod.mk.injEq] at hrun
      simp [hrun.1]
  | cons a as ih =>
      rw [run_cons_eq_some] at hrun
      obtain ⟨s₁, b, bs', hstep, hrest, rfl⟩ := hrun
      cases hkeep : keep a with
      | true =>
          simp only [List.zip_cons_cons, List.filter_cons, hkeep, if_true, List.map_cons]
          exact run_cons hstep (ih hrest)
      | false =>
          have hs := hskip s a s₁ b hkeep hstep
          simp only [List.zip_cons_cons, List.filter_cons, hkeep, Bool.false_eq_true, if_false]
          exact ih (hs ▸ hrest)

/-- A part of the state that each step updates as a function of itself and the
input is, after a run, the fold of that function over the inputs. -/
theorem run_project (f : S → T) (g : T → A → T)
    (hstep : ∀ s a s' b, step s a = some (s', b) → f s' = g (f s) a)
    {s s' : S} {as : List A} {bs : List B} (hrun : run step s as = some (s', bs)) :
    f s' = as.foldl g (f s) := by
  induction as generalizing s bs with
  | nil =>
      simp only [run_nil, Option.some.injEq, Prod.mk.injEq] at hrun
      rw [hrun.1, List.foldl_nil]
  | cons a as ih =>
      rw [run_cons_eq_some] at hrun
      obtain ⟨s₁, b, bs', hstep₁, hrest, _⟩ := hrun
      rw [ih hrest, hstep s a s₁ b hstep₁, List.foldl_cons]

end Run

end PartialRun
