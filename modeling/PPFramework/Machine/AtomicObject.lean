import Mathlib.Data.List.ReduceOption
import Mathlib.Logic.Function.Basic
import PPFramework.Machine.PartialRun

/-!
An object that several threads use as if each operation happened at one moment between
its invocation and its response. The operations are the steps of a sequential machine;
the visible events are invocations and responses. An implementation whose events are
those of such a run is linearizable, and `run_simulation` shows that step by step.
-/

namespace AtomicObject
open PartialRun

variable {S I Req Resp C A : Type*}

inductive Event (I Req Resp : Type*)
  | invoke (i : I) (req : Req)
  | respond (i : I) (r : Resp)

/-- What a thread waits for. -/
inductive Pending (Req Resp : Type*)
  | idle
  | invoked (req : Req)
  | done (r : Resp)

variable [DecidableEq I]

/-- A run with its visible events and, in their order, the operations it performed. -/
inductive Run (seq : S → Req → Option (S × Resp)) (s : S) (p : I → Pending Req Resp) :
    List (Event I Req Resp) → List (Req × Resp) → S → (I → Pending Req Resp) → Prop
  | refl : Run seq s p [] [] s p
  | invoke {tr ops s' p' i} {req : Req} (h : Run seq s p tr ops s' p') (hidle : p' i = .idle) :
      Run seq s p (tr ++ [.invoke i req]) ops s' (Function.update p' i (.invoked req))
  | perform {tr ops s' p' s'' i} {req : Req} {r : Resp} (h : Run seq s p tr ops s' p')
      (hreq : p' i = .invoked req) (hseq : seq s' req = some (s'', r)) :
      Run seq s p tr (ops ++ [(req, r)]) s'' (Function.update p' i (.done r))
  | respond {tr ops s' p' i} {r : Resp} (h : Run seq s p tr ops s' p') (hdone : p' i = .done r) :
      Run seq s p (tr ++ [.respond i r]) ops s' (Function.update p' i .idle)

/-- What a step of one thread can amount to. -/
inductive Effect (seq : S → Req → Option (S × Resp)) (s : S) :
    Pending Req Resp → Pending Req Resp → S → Option Resp → Prop
  | silent (w : Pending Req Resp) : Effect seq s w w s none
  | perform {req : Req} {s' r} (hseq : seq s req = some (s', r)) :
      Effect seq s (.invoked req) (.done r) s' none
  | respond (r : Resp) : Effect seq s (.done r) .idle s (some r)

section Runs

variable {seq : S → Req → Option (S × Resp)} {s s' s'' : S} {p p' p'' : I → Pending Req Resp}
  {tr tr' : List (Event I Req Resp)} {ops ops' : List (Req × Resp)}

theorem Run.trans (h : Run seq s p tr ops s' p') (h' : Run seq s' p' tr' ops' s'' p'') :
    Run seq s p (tr ++ tr') (ops ++ ops') s'' p'' := by
  induction h' with
  | refl => simpa using h
  | invoke _ hidle ih => simpa using ih.invoke hidle
  | perform _ hreq hseq ih => simpa using ih.perform hreq hseq
  | respond _ hdone ih => simpa using ih.respond hdone

/-- The operations in the order they were performed are a sequential run. -/
theorem Run.sequential (h : Run seq s p tr ops s' p') :
    run seq s (ops.map Prod.fst) = some (s', ops.map Prod.snd) := by
  induction h with
  | refl => rfl
  | invoke _ _ ih => exact ih
  | perform _ _ hseq ih =>
      rw [List.map_append, List.map_append]
      exact run_snoc ih hseq
  | respond _ _ ih => exact ih

/-- A thread waits for what it invoked, and its answer was given to that. -/
theorem Run.pending (h : Run seq s p tr ops s' p') (hp : ∀ i, p i = .idle) (i : I) :
    (∀ req, p' i = .invoked req → .invoke i req ∈ tr) ∧
      ∀ r, p' i = .done r → ∃ req, .invoke i req ∈ tr ∧ (req, r) ∈ ops := by
  induction h with
  | refl => simp [hp i]
  | @invoke tr ops s' p' j req h hidle ih =>
      by_cases hij : i = j
      · subst hij
        simp
      · simp only [Function.update_of_ne hij, List.mem_append]
        exact ⟨fun req hreq => .inl (ih.1 req hreq), fun r hr => by
          obtain ⟨req, hreq, hops⟩ := ih.2 r hr
          exact ⟨req, .inl hreq, hops⟩⟩
  | @perform tr ops s' p' s'' j req r h hreq hseq ih =>
      by_cases hij : i = j
      · subst hij
        simpa using ⟨req, ih.1 req hreq, Or.inr rfl⟩
      · simp only [Function.update_of_ne hij, List.mem_append]
        exact ⟨ih.1, fun r hr => by
          obtain ⟨req, hreq, hops⟩ := ih.2 r hr
          exact ⟨req, hreq, .inl hops⟩⟩
  | @respond tr ops s' p' j r h hdone ih =>
      by_cases hij : i = j
      · subst hij
        simp
      · simp only [Function.update_of_ne hij, List.mem_append]
        exact ⟨fun req hreq => .inl (ih.1 req hreq), fun r hr => by
          obtain ⟨req, hreq, hops⟩ := ih.2 r hr
          exact ⟨req, .inl hreq, hops⟩⟩

/-- Every response answers a request that its thread invoked. -/
theorem Run.responds (h : Run seq s p tr ops s' p') (hp : ∀ i, p i = .idle) {i : I} {r : Resp}
    (hr : .respond i r ∈ tr) : ∃ req, .invoke i req ∈ tr ∧ (req, r) ∈ ops := by
  induction h with
  | refl => cases hr
  | invoke h hidle ih =>
      obtain ⟨req, hreq, hops⟩ := ih (by simpa using hr)
      exact ⟨req, List.mem_append_left _ hreq, hops⟩
  | perform h hreq hseq ih =>
      obtain ⟨req, hreq, hops⟩ := ih hr
      exact ⟨req, hreq, List.mem_append_left _ hops⟩
  | @respond tr ops s' p' j r' h hdone ih =>
      obtain ⟨req, hreq, hops⟩ : ∃ req, .invoke i req ∈ tr ∧ (req, r) ∈ ops := by
        cases List.mem_append.mp hr with
        | inl hr => exact ih hr
        | inr hr =>
            cases List.mem_singleton.mp hr
            exact (h.pending hp i).2 r hdone
      exact ⟨req, List.mem_append_left _ hreq, hops⟩

theorem Effect.run {i : I} {w : Pending Req Resp} {response : Option Resp}
    (h : Effect seq s (p i) w s' response) :
    ∃ ops, Run seq s p (response.map (Event.respond i)).toList ops s' (Function.update p i w) := by
  generalize hw : p i = w₀ at h
  cases h with
  | silent =>
      refine ⟨[], ?_⟩
      rw [← hw, Function.update_eq_self]
      exact .refl
  | perform hseq => exact ⟨_, Run.refl.perform hw hseq⟩
  | respond => exact ⟨_, Run.refl.respond hw⟩

/-- When each step of an implementation is matched by a run of the object with the same
visible event, each of its runs is. -/
theorem run_simulation {step : C → A → Option (C × Option (Event I Req Resp))}
    (R : C → S → (I → Pending Req Resp) → Prop)
    (hstep : ∀ c s p a c' e, R c s p → step c a = some (c', e) →
      ∃ ops s' p', Run seq s p e.toList ops s' p' ∧ R c' s' p')
    {c c' : C} {as : List A} {es : List (Option (Event I Req Resp))} (hR : R c s p)
    (hrun : run step c as = some (c', es)) :
    ∃ ops s' p', Run seq s p es.reduceOption ops s' p' ∧ R c' s' p' := by
  induction as generalizing c s p es with
  | nil =>
      simp only [run_nil, Option.some.injEq, Prod.mk.injEq] at hrun
      exact ⟨[], s, p, hrun.2 ▸ .refl, hrun.1 ▸ hR⟩
  | cons a as ih =>
      obtain ⟨c₁, e, es', hfirst, hrest, rfl⟩ := run_cons_eq_some.mp hrun
      obtain ⟨ops, s₁, p₁, hops, hR₁⟩ := hstep c s p a c₁ e hR hfirst
      obtain ⟨ops', s', p', hops', hR'⟩ := ih hR₁ hrest
      refine ⟨ops ++ ops', s', p', ?_, hR'⟩
      have htrans := hops.trans hops'
      cases e with
      | none => simpa [List.reduceOption_cons_of_none] using htrans
      | some e => simpa [List.reduceOption_cons_of_some] using htrans

end Runs

end AtomicObject
