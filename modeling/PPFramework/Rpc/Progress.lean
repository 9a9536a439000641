import PPFramework.Rpc.Threads

/-!
A thread of the server waits for no other thread. The steps it has left to its answer are
bounded by its own request, and a schedule that gives it so many has it answer, whatever
the other threads do meanwhile.
-/

namespace PPFramework
open PartialRun AtomicObject

/-- How many steps of its own a thread makes before it waits again, at most. -/
def ThreadState.remaining : ThreadState → ℕ
  | .idle => 0
  | .entered req => 3 * ((vectorParam req.params).getD []).length + 6
  | .testRemote _ => 4
  | .deleteRemote _ => 3
  | .assignRemote _ => 2
  | .readRemote raws => 3 * raws.length + 5
  | .construct _ todo made => 3 * todo.length + 2 * made.length + 4
  | .addAssign _ todo made => 2 * todo.length + made.length + 3
  | .pack _ todo _ => todo.length + 2
  | .leaving _ => 1

/-- The thread's own steps in a schedule. -/
def Action.advances {I : Type} [DecidableEq I] (i : I) : Action I → Bool
  | .invoke _ _ => false
  | .advance j => j == i

section Steps

variable {s : RPCServer .privateKey} {m m' : Memory} {t t' : ThreadState}
  {response : Option Response}

theorem ThreadState.remaining_pos_iff : 0 < t.remaining ↔ t ≠ .idle := by
  cases t <;> simp [remaining]

theorem enter_remaining (s : RPCServer .privateKey) (req : Request) :
    0 < (enter s req).remaining ∧
      (enter s req).remaining < (ThreadState.entered req).remaining := by
  obtain ⟨response, heq, _⟩ | ⟨key, heq, _⟩ | ⟨raws, heq, hparam, _⟩ := enter_cases s req
  · rw [heq]
    simp [ThreadState.remaining]
  · rw [heq]
    simp only [ThreadState.remaining]
    omega
  · rw [heq]
    simp [ThreadState.remaining, hparam]

theorem advance_remaining (hbusy : 0 < t.remaining)
    (h : advance s m t = some (m', t', response)) :
    response.isSome ∨ 0 < t'.remaining ∧ t'.remaining < t.remaining := by
  cases t with
  | idle => exact absurd hbusy (Nat.lt_irrefl 0)
  | entered req =>
      cases h
      exact .inr (enter_remaining s req)
  | testRemote key =>
      cases h
      split_ifs
      · exact .inr (by simp [ThreadState.remaining])
      · exact .inr (by simp [ThreadState.remaining])
  | deleteRemote key =>
      simp only [advance] at h
      split at h
      · cases h
        exact .inr (by simp [ThreadState.remaining])
      · obtain ⟨_, _, h⟩ := Option.bind_eq_some_iff.mp h
        cases h
        exact .inr (by simp [ThreadState.remaining])
  | assignRemote key =>
      cases h
      exact .inr (by simp [ThreadState.remaining])
  | readRemote raws =>
      simp only [advance] at h
      split at h
      · cases h
        exact .inr (by simp [ThreadState.remaining])
      · cases h
        exact .inr (by simp [ThreadState.remaining])
  | construct p todo made =>
      cases todo with
      | nil =>
          cases h
          exact .inr (by simp [ThreadState.remaining])
      | cons r todo =>
          obtain ⟨_, _, h⟩ := Option.bind_eq_some_iff.mp h
          cases h
          refine .inr ⟨Nat.succ_pos _, ?_⟩
          simp only [ThreadState.remaining, List.length_cons, List.length_append, List.length_nil]
          omega
  | addAssign p todo made =>
      cases todo with
      | nil =>
          cases h
          exact .inr (by simp [ThreadState.remaining])
      | cons r todo =>
          obtain ⟨_, _, h⟩ := Option.bind_eq_some_iff.mp h
          obtain ⟨_, _, h⟩ := Option.bind_eq_some_iff.mp h
          cases h
          refine .inr ⟨Nat.succ_pos _, ?_⟩
          simp only [ThreadState.remaining, List.length_cons, List.length_append, List.length_nil]
          omega
  | pack p todo made =>
      cases todo with
      | nil =>
          cases h
          exact .inr (by simp [ThreadState.remaining])
      | cons r todo =>
          obtain ⟨_, _, h⟩ := Option.bind_eq_some_iff.mp h
          cases h
          exact .inr (by simp [ThreadState.remaining])
  | leaving r =>
      cases h
      exact .inl rfl

end Steps

section Runs

variable {I : Type} [DecidableEq I] {s : RPCServer .privateKey} {c c' : Threads I}

theorem stepThreads_own {i : I} (hbusy : 0 < (c.thread i).remaining)
    {event : Option (Event I Request Response)}
    (hstep : stepThreads s c (.advance i) = some (c', event)) :
    (∃ response, event = some (.respond i response)) ∨
      0 < (c'.thread i).remaining ∧ (c'.thread i).remaining < (c.thread i).remaining := by
  obtain ⟨⟨m, t, response⟩, hadvance, hstep⟩ := Option.bind_eq_some_iff.mp hstep
  cases hstep
  cases response with
  | some r => exact .inl ⟨r, rfl⟩
  | none =>
      obtain hsome | hless := advance_remaining hbusy hadvance
      · cases hsome
      · right
        simpa only [Function.update_self] using hless

theorem stepThreads_other {i : I} (hbusy : 0 < (c.thread i).remaining) {a : Action I}
    (ha : a.advances i = false) {event : Option (Event I Request Response)}
    (hstep : stepThreads s c a = some (c', event)) : c'.thread i = c.thread i := by
  cases a with
  | invoke j req =>
      by_cases hij : i = j
      · subst hij
        have hne := ThreadState.remaining_pos_iff.mp hbusy
        simp only [stepThreads] at hstep
        cases hstep
        rfl
      · exact stepThreads_frame hstep hij
  | advance j => exact stepThreads_frame hstep (Ne.symm (beq_eq_false_iff_ne.mp ha))

/-- Whatever the schedule, a thread that is given the steps its request needs answers it. -/
theorem busy_thread_answers {i : I} (hbusy : c.thread i ≠ .idle) {acts : List (Action I)}
    (hsteps : (c.thread i).remaining ≤ acts.countP (Action.advances i))
    {events : List (Option (Event I Request Response))}
    (hrun : run (stepThreads s) c acts = some (c', events)) :
    ∃ response, some (.respond i response) ∈ events := by
  obtain ⟨_, hmem, response, rfl⟩ := run_ranked (fun c : Threads I => (c.thread i).remaining)
    (Action.advances i) (fun event => ∃ response, event = some (.respond i response))
    (by
      intro c a c' event ha hbusy hstep
      cases a with
      | invoke j req => cases ha
      | advance j =>
          obtain rfl : j = i := beq_iff_eq.mp ha
          exact stepThreads_own hbusy hstep)
    (fun _ _ _ _ ha hbusy hstep =>
      congrArg ThreadState.remaining (stepThreads_other hbusy ha hstep))
    (ThreadState.remaining_pos_iff.mpr hbusy) hsteps hrun
  exact ⟨response, hmem⟩

theorem busy_thread_answers_sample :
    ∃ c' events response,
      run (stepThreads sampleDotServer)
        (⟨.ofRemote none, fun _ => .entered sampleDot⟩ : Threads Bool)
        (List.replicate 9 [.advance true, .advance false]).flatten = some (c', events) ∧
      some (.respond true response) ∈ events := by
  obtain ⟨c', events, hrun⟩ : ∃ c' events,
      run (stepThreads sampleDotServer)
        (⟨.ofRemote none, fun _ => .entered sampleDot⟩ : Threads Bool)
        (List.replicate 9 [.advance true, .advance false]).flatten = some (c', events) :=
    ⟨_, _, rfl⟩
  have hbusy : ThreadState.entered sampleDot ≠ .idle := by
    intro h
    cases h
  obtain ⟨response, hmem⟩ := busy_thread_answers (i := true) hbusy (by decide) hrun
  exact ⟨c', events, response, hrun, hmem⟩

end Runs

end PPFramework
