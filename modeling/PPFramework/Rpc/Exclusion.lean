import PPFramework.Rpc.Threads

/-!
When no thread of the server uses a deleted key. Two key exchanges that overlap may
delete one object twice, and an exchange that overlaps an inner product may delete the
object it works on. Without such overlaps, and with moduli that are not zero, every
schedule runs to its end.
-/

namespace PPFramework
open PartialRun AtomicObject

/-- Between the test of the client's key and the new one. -/
def ThreadState.Writing : ThreadState → Prop
  | .deleteRemote _ | .assignRemote _ => True
  | _ => False

/-- After the deletion of the client's key. -/
def ThreadState.Assigning : ThreadState → Prop
  | .assignRemote _ => True
  | _ => False

/-- Between the first and the last use of a copy of the pointer. -/
def ThreadState.Reading : ThreadState → Prop
  | .construct _ _ _ | .addAssign _ _ _ | .pack _ _ _ => True
  | _ => False

/-- While a thread replaces the key, no other thread does so or uses it. -/
def Threads.Exclusive {I : Type} (c : Threads I) : Prop :=
  ∀ i j, i ≠ j → (c.thread i).Writing → ¬ (c.thread j).Writing ∧ ¬ (c.thread j).Reading

def KeyNonzero (key : List UInt8) : Prop :=
  (PaillierCryptosystem.new (cStr key)).pub.n ≠ 0

def Action.KeyNonzero {I : Type} : Action I → Prop
  | .invoke _ req => ∀ key, req.keyString = some key → PPFramework.KeyNonzero key
  | .advance _ => True

namespace Memory

variable {m m' : Memory} {p : ℕ}

/-- The object is there, and ciphers can be added with it. -/
def Live (m : Memory) (p : ℕ) : Prop :=
  ∃ cs, m.get p = some cs ∧ cs.pub.n ≠ 0

theorem Live.free (h : m.Live p) : ∃ m', m.free p = some m' := by
  obtain ⟨cs, hget, _⟩ := h
  obtain ⟨cell, hcell, halive⟩ := Option.bind_eq_some_iff.mp hget
  split_ifs at halive with ha
  exact ⟨_, by simp [Memory.free, hcell, ha]; rfl⟩

theorem Live.assignNew (h : m.Live p) (cs : PaillierCryptosystem) : (m.assignNew cs).Live p := by
  obtain ⟨cs', hget, hn⟩ := h
  obtain ⟨cell, hcell, halive⟩ := Option.bind_eq_some_iff.mp hget
  have hlt := (List.getElem?_eq_some_iff.mp hcell).1
  refine ⟨cs', ?_, hn⟩
  rw [get, Memory.assignNew, List.getElem?_append_left hlt, hcell]
  exact halive

theorem assignNew_live (m : Memory) {cs : PaillierCryptosystem} (h : cs.pub.n ≠ 0) {p : ℕ}
    (hp : (m.assignNew cs).remoteCS = some p) : (m.assignNew cs).Live p := by
  obtain rfl : m.heap.length = p := Option.some.inj hp
  exact ⟨cs, by simp [get, assignNew], h⟩

theorem free_not_live (h : m.free p = some m') : m'.get p = none ∧ m'.free p = none := by
  obtain ⟨cell, hcell, halive⟩ := Option.bind_eq_some_iff.mp h
  split_ifs at halive
  have hdead : m'.heap[p]? = some { cell with alive := false } := by
    have hlt := (List.getElem?_eq_some_iff.mp hcell).1
    rw [← Option.some.inj halive, List.getElem?_set_self hlt]
  simp [get, Memory.free, hdead]

end Memory

/-- What a thread relies on in its next steps. -/
def ThreadState.Safe (m : Memory) : ThreadState → Prop
  | .entered req => ∀ key, req.keyString = some key → KeyNonzero key
  | .testRemote key | .deleteRemote key | .assignRemote key => KeyNonzero key
  | .construct p _ _ | .addAssign p _ _ | .pack p _ _ => m.Live p
  | _ => True

structure Threads.Safe {I : Type} (c : Threads I) : Prop where
  threads : ∀ i, (c.thread i).Safe c.memory
  remote : (∀ i, ¬ (c.thread i).Assigning) → ∀ p, c.memory.remoteCS = some p → c.memory.Live p

section Steps

variable {s : RPCServer .privateKey} {m m' : Memory} {t t' : ThreadState}
  {response : Option Response}

theorem ThreadState.Safe.of_not_reading (hsafe : t.Safe m) (h : ¬ t.Reading) : t.Safe m' := by
  cases t with
  | construct _ _ _ | addAssign _ _ _ | pack _ _ _ => exact absurd trivial h
  | idle | entered _ | testRemote _ | deleteRemote _ | assignRemote _ | readRemote _
  | leaving _ => exact hsafe

theorem ThreadState.Safe.assignNew (hsafe : t.Safe m) (cs : PaillierCryptosystem) :
    t.Safe (m.assignNew cs) := by
  cases t with
  | construct _ _ _ | addAssign _ _ _ | pack _ _ _ => exact Memory.Live.assignNew hsafe cs
  | idle | entered _ | testRemote _ | deleteRemote _ | assignRemote _ | readRemote _
  | leaving _ => exact hsafe

/-- A safe thread can step, when the client's key is there to be deleted. -/
theorem advance_progress (hsafe : t.Safe m)
    (hremote : t.Writing → ¬ t.Assigning → ∀ p, m.remoteCS = some p → m.Live p) :
    ∃ m' t' response, advance s m t = some (m', t', response) := by
  cases t with
  | idle | entered _ | testRemote _ | assignRemote _ | leaving _ => exact ⟨_, _, _, rfl⟩
  | deleteRemote key =>
      simp only [advance]
      cases hp : m.remoteCS with
      | none => exact ⟨_, _, _, rfl⟩
      | some p =>
          obtain ⟨m', hfree⟩ := (hremote trivial id p hp).free
          simp only [hfree]
          exact ⟨_, _, _, rfl⟩
  | readRemote raws =>
      simp only [advance]
      cases m.remoteCS with
      | none => exact ⟨_, _, _, rfl⟩
      | some p => exact ⟨_, _, _, rfl⟩
  | construct p todo made | pack p todo made =>
      obtain ⟨cs, hget, _⟩ := hsafe
      cases todo with
      | nil => exact ⟨_, _, _, rfl⟩
      | cons r todo =>
          simp only [advance, hget]
          exact ⟨_, _, _, rfl⟩
  | addAssign p todo made =>
      obtain ⟨cs, hget, hn⟩ := hsafe
      cases todo with
      | nil => exact ⟨_, _, _, rfl⟩
      | cons r todo =>
          have hsquared : cs.pub.nSquared ≠ 0 := fun h => hn ((nSquared_eq_zero_iff cs).mp h)
          obtain ⟨c, hadd⟩ := addAssign_total (c := ⟨cs, r⟩) hsquared ⟨cs, r⟩
          simp only [advance, hget, hadd, Option.bind_eq_bind, Option.bind_some]
          exact ⟨_, _, _, rfl⟩

theorem enter_of_keyString {req : Request} {key : List UInt8} (h : req.keyString = some key) :
    enter s req = .testRemote key := by
  have hmethod := method_of_keyString h
  rw [Request.keyString, if_pos hmethod, Option.filter_eq_some_iff] at h
  obtain ⟨hparam, hne⟩ := h
  have hpos : key.length > 0 := List.length_pos_of_ne_nil (by simpa using hne)
  simp only [enter, hmethod, find_procName s.exchange_mem, hparam, if_pos hpos]

theorem enter_safe {req : Request} (hreq : ∀ key, req.keyString = some key → KeyNonzero key) :
    (enter s req).Safe m ∧ ¬ (enter s req).Assigning := by
  obtain ⟨response, heq, _⟩ | ⟨key, heq, hkey⟩ | ⟨raws, heq, _⟩ := enter_cases s req
  · rw [heq]
    exact ⟨trivial, id⟩
  · rw [heq]
    exact ⟨hreq key hkey, id⟩
  · rw [heq]
    exact ⟨trivial, id⟩

/-- The three ways a step treats the memory: it leaves it alone, it deletes the client's
key, or it stores a new one. -/
theorem advance_memory (hsafe : t.Safe m) (h : advance s m t = some (m', t', response)) :
    (m' = m ∧ ¬ t.Assigning ∧ ((t'.Reading → ∀ p, m.remoteCS = some p → m.Live p) → t'.Safe m)) ∨
    (t.Writing ∧ t'.Assigning ∧ t'.Safe m') ∨
    (t'.Safe m' ∧ ∃ cs : PaillierCryptosystem, cs.pub.n ≠ 0 ∧ m' = m.assignNew cs) := by
  cases t with
  | idle =>
      cases h
      exact .inl ⟨rfl, id, fun _ => trivial⟩
  | entered req =>
      cases h
      exact .inl ⟨rfl, id, fun _ => (enter_safe hsafe).1⟩
  | testRemote key =>
      cases h
      refine .inl ⟨rfl, id, fun _ => ?_⟩
      split_ifs
      · exact hsafe
      · exact hsafe
  | deleteRemote key =>
      simp only [advance] at h
      cases hp : m.remoteCS with
      | none =>
          simp only [hp] at h
          cases h
          exact .inr (.inl ⟨trivial, trivial, hsafe⟩)
      | some p =>
          simp only [hp] at h
          obtain ⟨m₁, _, h⟩ := Option.bind_eq_some_iff.mp h
          cases h
          exact .inr (.inl ⟨trivial, trivial, hsafe⟩)
  | assignRemote key =>
      cases h
      exact .inr (.inr ⟨trivial, _, hsafe, rfl⟩)
  | readRemote raws =>
      simp only [advance] at h
      cases hp : m.remoteCS with
      | none =>
          simp only [hp] at h
          cases h
          exact .inl ⟨rfl, id, fun _ => trivial⟩
      | some p =>
          simp only [hp] at h
          cases h
          exact .inl ⟨rfl, id, fun hlive => hlive trivial p rfl⟩
  | construct p todo made =>
      cases todo with
      | nil =>
          cases h
          exact .inl ⟨rfl, id, fun _ => hsafe⟩
      | cons r todo =>
          obtain ⟨_, _, h⟩ := Option.bind_eq_some_iff.mp h
          cases h
          exact .inl ⟨rfl, id, fun _ => hsafe⟩
  | addAssign p todo made =>
      cases todo with
      | nil =>
          cases h
          exact .inl ⟨rfl, id, fun _ => hsafe⟩
      | cons r todo =>
          obtain ⟨_, _, h⟩ := Option.bind_eq_some_iff.mp h
          obtain ⟨_, _, h⟩ := Option.bind_eq_some_iff.mp h
          cases h
          exact .inl ⟨rfl, id, fun _ => hsafe⟩
  | pack p todo made =>
      cases todo with
      | nil =>
          cases h
          exact .inl ⟨rfl, id, fun _ => trivial⟩
      | cons r todo =>
          obtain ⟨_, _, h⟩ := Option.bind_eq_some_iff.mp h
          cases h
          exact .inl ⟨rfl, id, fun _ => hsafe⟩
  | leaving r =>
      cases h
      exact .inl ⟨rfl, id, fun _ => trivial⟩

end Steps

section Runs

variable {I : Type} {s : RPCServer .privateKey} {c c' : Threads I}

theorem ThreadState.Assigning.writing {t : ThreadState} (h : t.Assigning) : t.Writing := by
  cases t with
  | assignRemote _ => exact trivial
  | idle | entered _ | testRemote _ | deleteRemote _ | readRemote _ | construct _ _ _
  | addAssign _ _ _ | pack _ _ _ | leaving _ => exact h.elim

theorem Threads.new_safe {remoteCS : Option PaillierCryptosystem}
    (h : ∀ cs, remoteCS = some cs → cs.pub.n ≠ 0) : (Threads.new I remoteCS).Safe := by
  refine ⟨fun _ => trivial, fun _ p hp => ?_⟩
  cases remoteCS with
  | none => cases hp
  | some cs =>
      obtain rfl : 0 = p := Option.some.inj hp
      exact ⟨cs, rfl, h cs rfl⟩

/-- No thread has deleted the key when another one writes or reads it. -/
theorem Threads.Exclusive.not_assigning (hexcl : c.Exclusive) {i : I}
    (hi : (c.thread i).Writing ∨ (c.thread i).Reading) {j : I} (hji : j ≠ i) :
    ¬ (c.thread j).Assigning := by
  intro hj
  obtain ⟨hwriting, hreading⟩ := hexcl j i hji hj.writing
  exact hi.elim hwriting hreading

variable [DecidableEq I]

theorem Threads.Safe.update (hsafe : c.Safe) {i : I} (hi : ¬ (c.thread i).Assigning)
    {t : ThreadState} (ht : t.Safe c.memory) :
    (⟨c.memory, Function.update c.thread i t⟩ : Threads I).Safe := by
  refine ⟨fun j => ?_, fun hnone => hsafe.remote fun j => ?_⟩
  · by_cases hji : j = i
    · subst hji
      simpa only [Function.update_self] using ht
    · simpa only [Function.update_of_ne hji] using hsafe.threads j
  · by_cases hji : j = i
    · exact hji ▸ hi
    · simpa only [Function.update_of_ne hji] using hnone j

theorem Threads.Safe.progress (hsafe : c.Safe) (hexcl : c.Exclusive) (a : Action I) :
    ∃ c' event, stepThreads s c a = some (c', event) := by
  cases a with
  | invoke i req =>
      simp only [stepThreads]
      split
      · exact ⟨_, _, rfl⟩
      · exact ⟨_, _, rfl⟩
  | advance i =>
      obtain ⟨m, t, response, hadvance⟩ := advance_progress (s := s) (hsafe.threads i) (by
        intro hwriting hassigning
        refine hsafe.remote fun j => ?_
        by_cases hji : j = i
        · exact hji ▸ hassigning
        · exact hexcl.not_assigning (.inl hwriting) hji)
      simp only [stepThreads, hadvance]
      exact ⟨_, _, rfl⟩

theorem Threads.Safe.step (hsafe : c.Safe) (hexcl : c.Exclusive) (hexcl' : c'.Exclusive)
    {a : Action I} (ha : a.KeyNonzero) {event : Option (Event I Request Response)}
    (hstep : stepThreads s c a = some (c', event)) : c'.Safe := by
  cases a with
  | invoke i req =>
      simp only [stepThreads] at hstep
      split at hstep
      · next hi =>
          cases hstep
          exact hsafe.update (hi ▸ id) ha
      · cases hstep
        exact hsafe
  | advance i =>
      obtain ⟨⟨m, t, response⟩, hadvance, hstep⟩ := Option.bind_eq_some_iff.mp hstep
      cases hstep
      have hself : Function.update c.thread i t i = t := Function.update_self ..
      have hother : ∀ j, j ≠ i → Function.update c.thread i t j = c.thread j :=
        fun j hji => Function.update_of_ne hji ..
      obtain ⟨rfl, hi, ht⟩ | ⟨hwriting, hassigning, ht⟩ | ⟨ht, cs, hcs, rfl⟩ :=
        advance_memory (hsafe.threads i) hadvance
      · refine hsafe.update hi (ht fun hreading => hsafe.remote fun j => ?_)
        by_cases hji : j = i
        · exact hji ▸ hi
        · rw [← hother j hji]
          exact hexcl'.not_assigning (.inr ((congrArg ThreadState.Reading hself).mpr hreading)) hji
      · have hdeleted : (Function.update c.thread i t i).Assigning := by
          rw [hself]
          exact hassigning
        refine ⟨fun j => ?_, fun hnone => absurd hdeleted (hnone i)⟩
        by_cases hji : j = i
        · subst hji
          simpa only [hself] using ht
        · simp only [hother j hji]
          exact (hsafe.threads j).of_not_reading (hexcl i j (Ne.symm hji) hwriting).2
      · refine ⟨fun j => ?_, fun _ p hp => Memory.assignNew_live _ hcs hp⟩
        by_cases hji : j = i
        · subst hji
          simpa only [hself] using ht
        · simp only [hother j hji]
          exact (hsafe.threads j).assignNew cs

/-- While exchanges overlap neither one another nor an inner product, and keys have moduli
that are not zero, the process lives: no schedule leads to a key used after its deletion. -/
theorem exclusive_exchanges_never_fault (s₀ : RPCServer .privateKey)
    (hremote : ∀ cs, s₀.remoteCS = some cs → cs.pub.n ≠ 0) (acts : List (Action I))
    (hkeys : ∀ a ∈ acts, a.KeyNonzero)
    (hexcl : ∀ before after c events, acts = before ++ after →
      run (stepThreads s₀) (Threads.new I s₀.remoteCS) before = some (c, events) → c.Exclusive) :
    ∃ c events, run (stepThreads s₀) (Threads.new I s₀.remoteCS) acts = some (c, events) := by
  cases hrun : run (stepThreads s₀) (Threads.new I s₀.remoteCS) acts with
  | some r => exact ⟨_, _, rfl⟩
  | none =>
      obtain ⟨before, a, after, c, events, rfl, hbefore, hnone⟩ := run_eq_none_iff.mp hrun
      have hsafe : c.Safe := run_invariant_visited Threads.Safe Threads.Exclusive Action.KeyNonzero
        (fun _ _ _ _ hsafe hV hV' ha hstep => hsafe.step hV hV' ha hstep)
        (Threads.new_safe hremote) (fun a ha => hkeys a (List.mem_append_left _ ha))
        (fun served rest c₁ events₁ hserved => hexcl served (rest ++ a :: after) c₁ events₁
          (by rw [hserved, List.append_assoc]))
        hbefore
      obtain ⟨_, _, hstep⟩ := hsafe.progress (s := s₀) (hexcl before _ c events rfl hbefore) a
      rw [hnone] at hstep
      cases hstep

/-- The next step of the thread uses the object at `p`, or deletes it. -/
def ThreadState.Uses (m : Memory) (p : ℕ) : ThreadState → Prop
  | .deleteRemote _ => m.remoteCS = some p
  | .construct q (_ :: _) _ | .addAssign q (_ :: _) _ | .pack q (_ :: _) _ => q = p
  | _ => False

/-- A key exchange in a thread that is alone. -/
def sampleAlone : List (Action Bool) :=
  .invoke false (sampleExchange "23") :: List.replicate 4 (.advance false)

theorem exclusive_exchanges_never_fault_sample :
    ∃ c events, run (stepThreads sampleDotServer) (Threads.new Bool sampleDotServer.remoteCS)
      sampleAlone = some (c, events) := by
  refine exclusive_exchanges_never_fault sampleDotServer (fun _ h => by cases h) sampleAlone ?_ ?_
  · intro a ha
    obtain rfl | ha := List.mem_cons.mp ha
    · intro key hkey
      obtain rfl : asciiBytes "23" = key := Option.some.inj hkey
      rw [PPFramework.KeyNonzero]
      decide
    · obtain rfl := List.eq_of_mem_replicate ha
      exact trivial
  · intro before after c events hacts hrun
    have hfalse : ∀ a ∈ before, a.actor = false := by
      intro a ha
      have hmem : a ∈ sampleAlone := hacts ▸ List.mem_append_left _ ha
      obtain rfl | ha := List.mem_cons.mp hmem
      · rfl
      · obtain rfl := List.eq_of_mem_replicate ha
        rfl
    have hidle : c.thread true = .idle :=
      run_invariant (fun c => c.thread true = .idle) (fun a => a.actor = false)
        (fun _ _ _ _ hc ha hstep => (stepThreads_frame hstep (by simp [ha])).trans hc)
        rfl hfalse hrun
    intro i j hij hi
    cases i with
    | true =>
        rw [hidle] at hi
        exact hi.elim
    | false =>
        obtain rfl : j = true := (Bool.eq_not_of_ne hij.symm).trans rfl
        rw [hidle]
        exact ⟨id, id⟩

theorem stepThreads_invoke {i : I} (h : c.thread i = .idle) (req : Request) :
    stepThreads s c (.invoke i req) =
      some (⟨c.memory, Function.update c.thread i (.entered req)⟩, some (.invoke i req)) := by
  simp only [stepThreads, h]

theorem stepThreads_advance {i : I} {m : Memory} {t : ThreadState} {response : Option Response}
    (h : advance s c.memory (c.thread i) = some (m, t, response)) :
    stepThreads s c (.advance i) =
      some (⟨m, Function.update c.thread i t⟩, response.map (.respond i)) := by
  simp only [stepThreads, h, Option.bind_eq_bind, Option.bind_some]

theorem overlap_faults {i j : I} (hij : i ≠ j) {key : List UInt8} {p : ℕ}
    (hi : c.thread i = .deleteRemote key) (hp : c.memory.remoteCS = some p)
    (hj : (c.thread j).Uses c.memory p) :
    run (stepThreads s) c [.advance i, .advance j] = none := by
  cases hfree : c.memory.free p with
  | none =>
      have hfirst : stepThreads s c (.advance i) = none := by
        simp [stepThreads, advance, hi, hp, hfree]
      rw [run, hfirst, Option.bind_none]
  | some m =>
      obtain ⟨hget, hagain⟩ := Memory.free_not_live hfree
      have hremote : m.remoteCS = some p := (Memory.free_remoteCS hfree).trans hp
      have hfirst : advance s c.memory (c.thread i) = some (m, .assignRemote key, none) := by
        simp [advance, hi, hp, hfree]
      have hsecond : advance s m (c.thread j) = none := by
        cases ht : c.thread j with
        | deleteRemote _ => simp [advance, hremote, hagain]
        | construct q todo _ | addAssign q todo _ | pack q todo _ =>
            rw [ht] at hj
            cases todo with
            | nil => exact hj.elim
            | cons r todo =>
                obtain rfl : q = p := hj
                simp [advance, hget]
        | idle | entered _ | testRemote _ | assignRemote _ | readRemote _ | leaving _ =>
            rw [ht] at hj
            exact hj.elim
      have hdies : stepThreads s ⟨m, Function.update c.thread i (.assignRemote key)⟩ (.advance j) =
          none := by
        simp only [stepThreads, Function.update_of_ne (Ne.symm hij), hsecond, Option.bind_eq_bind,
          Option.bind_none]
      rw [run, stepThreads_advance hfirst, Option.bind_some, run, hdies]
      rfl

/-- An exchange that has found a key and not yet deleted it. -/
theorem run_begin_exchange {i : I} (hi : c.thread i = .idle) {p : ℕ}
    (hp : c.memory.remoteCS = some p) {req : Request} {key : List UInt8}
    (hkey : req.keyString = some key) :
    ∃ events, run (stepThreads s) c [.invoke i req, .advance i, .advance i] =
      some (⟨c.memory, Function.update c.thread i (.deleteRemote key)⟩, events) := by
  have henter : advance s c.memory (.entered req) = some (c.memory, .testRemote key, none) := by
    rw [advance, enter_of_keyString hkey]
  have htest : advance s c.memory (.testRemote key) =
      some (c.memory, .deleteRemote key, none) := by
    rw [advance, hp, Option.isSome_some, if_pos rfl]
  have hstep : ∀ t t', advance s c.memory t = some (c.memory, t', none) →
      stepThreads s ⟨c.memory, Function.update c.thread i t⟩ (.advance i) =
        some (⟨c.memory, Function.update c.thread i t'⟩, none) := by
    intro t t' h
    have hi : advance s c.memory (Function.update c.thread i t i) = some (c.memory, t', none) := by
      rwa [Function.update_self]
    rw [stepThreads_advance hi, Function.update_idem, Option.map_none]
  simp only [run, stepThreads_invoke hi, hstep _ _ henter, hstep _ _ htest, Option.bind_some,
    Option.map_some]
  exact ⟨_, rfl⟩

/-- Two exchanges that both find a key before either of them deletes it. -/
def bothDelete (i j : I) (req req' : Request) : List (Action I) :=
  [.invoke i req, .advance i, .advance i, .invoke j req', .advance j, .advance j,
    .advance i, .advance j]

/-- Two clients can bring the process down: wherever two threads wait for requests and there
is a key, two exchanges can be served so that both delete it. -/
theorem overlapping_exchanges_fault {i j : I} (hij : i ≠ j) (hi : c.thread i = .idle)
    (hj : c.thread j = .idle) {p : ℕ} (hp : c.memory.remoteCS = some p) {req req' : Request}
    {key key' : List UInt8} (hkey : req.keyString = some key) (hkey' : req'.keyString = some key') :
    run (stepThreads s) c (bothDelete i j req req') = none := by
  obtain ⟨_, hfirst⟩ := run_begin_exchange (s := s) hi hp hkey
  have hwaits : Function.update c.thread i (.deleteRemote key) j = .idle := by
    rw [Function.update_of_ne (Ne.symm hij), hj]
  obtain ⟨_, hsecond⟩ := run_begin_exchange (s := s)
    (c := ⟨c.memory, Function.update c.thread i (.deleteRemote key)⟩) hwaits hp hkey'
  have hthread : Function.update (Function.update c.thread i (.deleteRemote key)) j
      (.deleteRemote key') i = .deleteRemote key :=
    (Function.update_of_ne hij ..).trans (Function.update_self ..)
  refine run_append_eq_none hfirst (run_append_eq_none hsecond (overlap_faults hij hthread hp ?_))
  simpa only [Function.update_self, ThreadState.Uses] using hp

theorem overlapping_exchanges_fault_sample :
    run (stepThreads sampleDotServer)
      (Threads.new Bool (some (PaillierCryptosystem.new (asciiBytes "23"))))
      (bothDelete false true (sampleExchange "21") (sampleExchange "23")) = none := by
  have hkey : ∀ key ∈ ["21", "23"], (sampleExchange key).keyString = some (asciiBytes key) := by
    decide
  exact overlapping_exchanges_fault Bool.false_ne_true rfl rfl rfl (hkey "21" (by decide))
    (hkey "23" (by decide))

end Runs

end PPFramework
