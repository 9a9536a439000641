import PPFramework.Machine.AtomicObject
import PPFramework.Rpc.History

/-!
A private-key server whose requests are served by several threads at once, as `run`
starts them. The threads share the client's key through the pointer `_remoteCS`: a key
exchange tests it, deletes what it points to and stores a new object in three steps, and
an inner product copies the pointer once and uses the object for every cipher. The steps
of different threads may come in any order.

A use of a deleted object, or a second deletion, ends the process here. What is answered
without one is answered as if each request had been served at one moment; and there is
none when exchanges do not overlap with one another or with an inner product.
-/

namespace PPFramework
open PartialRun AtomicObject

/-- A cryptosystem built for a client; `delete` leaves its contents behind. -/
structure HeapCell where
  cs : PaillierCryptosystem
  alive : Bool

structure Memory where
  heap : List HeapCell
  remoteCS : Option ℕ
  remote_lt : ∀ p, remoteCS = some p → p < heap.length

namespace Memory

/-- A use of the object at an address. -/
def get (m : Memory) (p : ℕ) : Option PaillierCryptosystem := do
  let cell ← m.heap[p]?
  if cell.alive then some cell.cs else none

def free (m : Memory) (p : ℕ) : Option Memory := do
  let cell ← m.heap[p]?
  if cell.alive then
    some
      { heap := m.heap.set p { cell with alive := false }
        remoteCS := m.remoteCS
        remote_lt := by simpa using m.remote_lt }
  else none

def assignNew (m : Memory) (cs : PaillierCryptosystem) : Memory where
  heap := m.heap ++ [⟨cs, true⟩]
  remoteCS := some m.heap.length
  remote_lt := by simp

def ofRemote : Option PaillierCryptosystem → Memory
  | none => ⟨[], none, by simp⟩
  | some cs => ⟨[⟨cs, true⟩], some 0, by simp⟩

/-- What is or was at an address. -/
def contents (m : Memory) (p : ℕ) : Option PaillierCryptosystem :=
  (m.heap[p]?).map HeapCell.cs

/-- The client's key as the other threads will have it: the last one stored. -/
def current (m : Memory) : Option PaillierCryptosystem :=
  m.remoteCS.bind m.contents

end Memory

/-- Where a thread is in the code of `dispatch` and of the procedures. -/
inductive ThreadState
  | idle
  | entered (req : Request)
  | testRemote (key : List UInt8)
  | deleteRemote (key : List UInt8)
  | assignRemote (key : List UInt8)
  | readRemote (raws : List ℤ)
  | construct (p : ℕ) (todo made : List ℤ)
  | addAssign (p : ℕ) (todo made : List ℤ)
  | pack (p : ℕ) (todo : List ℤ) (made : List MsgObject)
  | leaving (response : Response)

/-- `dispatch` and the conversion of the parameters, which touch no shared state. -/
def enter (s : RPCServer .privateKey) (req : Request) : ThreadState :=
  match req.method.asString with
  | none => .leaving (.error .argument)
  | some procName =>
      match s.procs.find? fun proc => proc.procName == procName with
      | none => .leaving (.error .noMethod)
      | some .exchangePublicKeys =>
          match stringParam req.params with
          | some key => if key.length > 0 then .testRemote key
              else .leaving (.result (.raw s.publicKey))
          | none => .leaving (.result (.raw s.publicKey))
      | some .innerProduct =>
          match vectorParam req.params with
          | some raws => .readRemote raws
          | none => .leaving (.error .argument)

/-- The next step of a thread, with the response when it is done. -/
def advance (s : RPCServer .privateKey) (m : Memory) :
    ThreadState → Option (Memory × ThreadState × Option Response)
  | .idle => some (m, .idle, none)
  | .entered req => some (m, enter s req, none)
  | .testRemote key =>
      some (m, if m.remoteCS.isSome then .deleteRemote key else .assignRemote key, none)
  | .deleteRemote key =>
      match m.remoteCS with
      | none => some (m, .assignRemote key, none)
      | some p => do
          let m ← m.free p
          some (m, .assignRemote key, none)
  | .assignRemote key =>
      some (m.assignNew (PaillierCryptosystem.new (cStr key)),
        .leaving (.result (.raw s.publicKey)), none)
  | .readRemote raws =>
      match m.remoteCS with
      | none => some (m, .leaving (.result (.array [])), none)
      | some p => some (m, .construct p raws [], none)
  | .construct p [] made => some (m, .addAssign p made [], none)
  | .construct p (r :: todo) made => do
      let _ ← m.get p
      some (m, .construct p todo (made ++ [r]), none)
  | .addAssign p [] made => some (m, .pack p made [], none)
  | .addAssign p (r :: todo) made => do
      let cs ← m.get p
      let c ← Cipher.addAssign (⟨cs, r⟩ : Cipher .publicKey) ⟨cs, r⟩
      some (m, .addAssign p todo (made ++ [c.raw]), none)
  -- the ciphers are copied to be packed, and a copy uses their cryptosystem
  | .pack _ [] made => some (m, .leaving (.result (.array made)), none)
  | .pack p (r :: todo) made => do
      let _ ← m.get p
      some (m, .pack p todo (made ++ [msgpackPack r]), none)
  | .leaving response => some (m, .idle, some response)

structure Threads (I : Type) where
  memory : Memory
  thread : I → ThreadState

inductive Action (I : Type)
  | invoke (i : I) (req : Request)
  | advance (i : I)

variable {I : Type}

def Threads.new (I : Type) (remoteCS : Option PaillierCryptosystem) : Threads I where
  memory := .ofRemote remoteCS
  thread _ := .idle

/-- A request is handed to a thread that waits for one. -/
def stepThreads [DecidableEq I] (s : RPCServer .privateKey) (c : Threads I) :
    Action I → Option (Threads I × Option (Event I Request Response))
  | .invoke i req =>
      match c.thread i with
      | .idle => some ({ c with thread := Function.update c.thread i (.entered req) },
          some (.invoke i req))
      | _ => some (c, none)
  | .advance i => do
      let (m, t, response) ← PPFramework.advance s c.memory (c.thread i)
      some (⟨m, Function.update c.thread i t⟩, response.map (.respond i))

namespace Memory

variable {m m' : Memory} {p : ℕ} {cs : PaillierCryptosystem}

/-- No address changes its contents. -/
def Extends (m m' : Memory) : Prop :=
  ∀ p cs, m.contents p = some cs → m'.contents p = some cs

theorem Extends.refl (m : Memory) : m.Extends m :=
  fun _ _ h => h

theorem contents_of_get (h : m.get p = some cs) : m.contents p = some cs := by
  obtain ⟨cell, hcell, halive⟩ := Option.bind_eq_some_iff.mp h
  split_ifs at halive with ha
  rw [contents, hcell, ← Option.some.inj halive, Option.map_some]

theorem free_contents (h : m.free p = some m') (q : ℕ) : m'.contents q = m.contents q := by
  obtain ⟨cell, hcell, halive⟩ := Option.bind_eq_some_iff.mp h
  split_ifs at halive with ha
  rw [← Option.some.inj halive, contents, contents, List.getElem?_set]
  split_ifs with hp hlt
  · rw [← hp, hcell, Option.map_some, Option.map_some]
  · rw [← hp, List.getElem?_eq_none (not_lt.mp hlt)]
  · rfl

theorem free_remoteCS (h : m.free p = some m') : m'.remoteCS = m.remoteCS := by
  obtain ⟨cell, _, halive⟩ := Option.bind_eq_some_iff.mp h
  split_ifs at halive
  rw [← Option.some.inj halive]

theorem free_extends (h : m.free p = some m') : m.Extends m' :=
  fun q _ hq => (free_contents h q).trans hq

theorem free_current (h : m.free p = some m') : m'.current = m.current := by
  rw [current, current, free_remoteCS h]
  exact congrArg _ (funext (free_contents h))

theorem remote_contents (h : m.remoteCS = some p) :
    ∃ cs, m.contents p = some cs ∧ m.current = some cs := by
  obtain ⟨cell, hcell⟩ : ∃ cell, m.heap[p]? = some cell :=
    ⟨_, List.getElem?_eq_getElem (m.remote_lt p h)⟩
  have hcs : m.contents p = some cell.cs := by rw [contents, hcell, Option.map_some]
  exact ⟨cell.cs, hcs, by rw [current, h, Option.bind_some, hcs]⟩

theorem assignNew_extends (m : Memory) (cs : PaillierCryptosystem) :
    m.Extends (m.assignNew cs) := by
  intro p cs' h
  obtain ⟨cell, hcell, rfl⟩ := Option.map_eq_some_iff.mp h
  have hlt := (List.getElem?_eq_some_iff.mp hcell).1
  rw [contents, assignNew, List.getElem?_append_left hlt, hcell, Option.map_some]

theorem assignNew_current (m : Memory) (cs : PaillierCryptosystem) :
    (m.assignNew cs).current = some cs := by
  simp [current, contents, assignNew]

theorem ofRemote_current (remoteCS : Option PaillierCryptosystem) :
    (ofRemote remoteCS).current = remoteCS := by
  cases remoteCS with
  | none => rfl
  | some cs => rfl

end Memory

/-- What an inner product that has its key answers when the `made` numbers are doubled and
the `todo` numbers are not, `none` where it divides by zero. -/
def dotResponse (cs : PaillierCryptosystem) (made todo : List ℤ) : Option Response :=
  (todo.mapM fun r => Cipher.addAssign (⟨cs, r⟩ : Cipher .publicKey) ⟨cs, r⟩).map fun v =>
    .result (.array ((made ++ v.map Cipher.raw).map msgpackPack))

section Responses

variable {s : RPCServer .privateKey} {cs : PaillierCryptosystem}

theorem dotResponse_nil (cs : PaillierCryptosystem) (made : List ℤ) :
    dotResponse cs made [] = some (.result (.array (made.map msgpackPack))) := by
  simp [dotResponse]

theorem dotResponse_cons {r : ℤ} {c : Cipher .publicKey}
    (h : Cipher.addAssign (⟨cs, r⟩ : Cipher .publicKey) ⟨cs, r⟩ = some c) (made todo : List ℤ) :
    dotResponse cs made (r :: todo) = dotResponse cs (made ++ [c.raw]) todo := by
  rw [dotResponse, dotResponse, List.mapM_cons, h]
  cases todo.mapM fun r => Cipher.addAssign (⟨cs, r⟩ : Cipher .publicKey) ⟨cs, r⟩ with
  | none => rfl
  | some v => simp

theorem procInnerProduct_dotResponse {params : MsgObject} {raws : List ℤ}
    (hraws : vectorParam params = some raws) :
    procInnerProduct s params = match s.remoteCS with
      | none => some (.result (.array []))
      | some cs => dotResponse cs [] raws := by
  have hconverters : s.unpacker.converters .publicKey = s.remoteCS.toList := by
    rw [s.converters_publicKey]
    exact List.append_nil _
  rw [procInnerProduct, unpack_vector, hraws, hconverters, Option.map_some]
  simp only [Traverse.updateEach_eq_mapM]
  cases s.remoteCS with
  | none => rfl
  | some cs =>
      simp only [Option.toList_some, List.flatMap_singleton, List.mapM_map, dotResponse,
        packResult, List.nil_append, List.map_map, Function.comp_def]
      exact (Option.map_eq_bind ..).symm

end Responses

/-- The thread's operation has been performed once its answer is decided; while it will
divide by zero its request stays as it was. -/
def Awaits (pending : Pending Request Response) : Option Response → Prop
  | some response => pending = .done response
  | none => ∃ req, pending = .invoked req

/-- What a thread has done of its request. -/
def Matches (s : RPCServer .privateKey) (m : Memory) (pending : Pending Request Response) :
    ThreadState → Prop
  | .idle => pending = .idle
  | .entered req => pending = .invoked req
  | .testRemote key | .deleteRemote key | .assignRemote key =>
      ∃ req, pending = .invoked req ∧ req.keyString = some key
  | .readRemote raws =>
      ∃ req, pending = .invoked req ∧ vectorParam req.params = some raws ∧
        req.method.asString = some Procedure.innerProduct.procName ∧ .innerProduct ∈ s.procs
  | .construct p todo made =>
      ∃ cs, m.contents p = some cs ∧ Awaits pending (dotResponse cs [] (made ++ todo))
  | .addAssign p todo made =>
      ∃ cs, m.contents p = some cs ∧ Awaits pending (dotResponse cs made todo)
  | .pack _ todo made => pending = .done (.result (.array (made ++ todo.map msgpackPack)))
  | .leaving response => pending = .done response

/-- The server as the requests performed so far have left it. -/
def RPCServer.withMemory (s : RPCServer .privateKey) (m : Memory) : RPCServer .privateKey :=
  { s with remoteCS := m.current }

section Steps

variable {s : RPCServer .privateKey} {m m' : Memory} {pending : Pending Request Response}

theorem Matches.mono {t : ThreadState} (hext : m.Extends m') (h : Matches s m pending t) :
    Matches s m' pending t := by
  cases t with
  | construct p todo made | addAssign p todo made =>
      obtain ⟨cs, hcs, hawaits⟩ := h
      exact ⟨cs, hext p cs hcs, hawaits⟩
  | idle | entered _ | testRemote _ | deleteRemote _ | assignRemote _ | readRemote _
  | pack _ _ _ | leaving _ => exact h

/-- A thread's step, seen as a step of the server that serves each request at once. -/
def Explained (s : RPCServer .privateKey) (m m' : Memory) (pending : Pending Request Response)
    (t : ThreadState) (response : Option Response) : Prop :=
  m.Extends m' ∧ ∃ pending', Matches s m' pending' t ∧
    Effect dispatch (s.withMemory m) pending pending' (s.withMemory m') response

theorem explained_silent {t : ThreadState} (h : Matches s m pending t) :
    Explained s m m pending t none :=
  ⟨.refl m, pending, h, .silent pending⟩

theorem method_of_keyString {req : Request} {key : List UInt8} (h : req.keyString = some key) :
    req.method.asString = some Procedure.exchangePublicKeys.procName := by
  by_contra hne
  rw [Request.keyString, if_neg hne] at h
  cases h

theorem dispatch_quiet_exchange {req : Request}
    (hmethod : req.method.asString = some Procedure.exchangePublicKeys.procName)
    (hquiet : req.keyString = none) :
    dispatch (s.withMemory m) req = some (s.withMemory m, .result (.raw s.publicKey)) := by
  rw [dispatch_exchange (s.withMemory m) hmethod, installKey, hquiet]
  rfl

/-- A request is answered at once, or begins to exchange a key or to read one. -/
theorem enter_cases (s : RPCServer .privateKey) (req : Request) :
    (∃ response, enter s req = .leaving response ∧
      ∀ m, dispatch (s.withMemory m) req = some (s.withMemory m, response)) ∨
    (∃ key, enter s req = .testRemote key ∧ req.keyString = some key) ∨
    (∃ raws, enter s req = .readRemote raws ∧ vectorParam req.params = some raws ∧
      req.method.asString = some Procedure.innerProduct.procName ∧ .innerProduct ∈ s.procs) := by
  simp only [enter]
  cases hmethod : req.method.asString with
  | none => exact .inl ⟨_, rfl, fun m => by simp only [dispatch, hmethod]⟩
  | some name =>
      cases hfind : s.procs.find? fun proc => proc.procName == name with
      | none =>
          simp only [hfind]
          refine .inl ⟨_, rfl, fun m => ?_⟩
          simp only [dispatch, hmethod, RPCServer.withMemory, hfind]
      | some proc =>
          have hname := List.find?_some hfind
          obtain rfl : proc.procName = name := beq_iff_eq.mp hname
          simp only [hfind]
          cases proc with
          | exchangePublicKeys =>
              have hkey : req.keyString = (stringParam req.params).filter fun key => !key.isEmpty :=
                if_pos hmethod
              cases hparam : stringParam req.params with
              | none =>
                  rw [hparam, Option.filter_none] at hkey
                  exact .inl ⟨_, rfl, fun m => dispatch_quiet_exchange hmethod hkey⟩
              | some key =>
                  rw [hparam, Option.filter_some] at hkey
                  cases key with
                  | nil => exact .inl ⟨_, rfl, fun m => dispatch_quiet_exchange hmethod hkey⟩
                  | cons c key => exact .inr (.inl ⟨_, rfl, hkey⟩)
          | innerProduct =>
              have hdot : Procedure.innerProduct ∈ s.procs := List.mem_of_find?_eq_some hfind
              cases hparam : vectorParam req.params with
              | none =>
                  refine .inl ⟨_, rfl, fun m => ?_⟩
                  rw [dispatch_dot (s := s.withMemory m) hmethod hdot, procInnerProduct,
                    unpack_vector, hparam]
                  rfl
              | some raws => exact .inr (.inr ⟨raws, rfl, rfl, rfl, hdot⟩)

theorem enter_explained (req : Request) :
    Explained s m m (.invoked req) (enter s req) none := by
  obtain ⟨response, heq, h⟩ | ⟨key, heq, hkey⟩ | ⟨raws, heq, hdot⟩ := enter_cases s req
  · rw [heq]
    exact ⟨.refl m, .done response, rfl, .perform (h m)⟩
  · rw [heq]
    exact explained_silent ⟨req, rfl, hkey⟩
  · rw [heq]
    exact explained_silent ⟨req, rfl, hdot⟩

theorem readRemote_explained {req : Request} {raws : List ℤ}
    (hparam : vectorParam req.params = some raws)
    (hmethod : req.method.asString = some Procedure.innerProduct.procName)
    (hdot : .innerProduct ∈ s.procs) {t : ThreadState} {response : Option Response}
    (h : advance s m (.readRemote raws) = some (m', t, response)) :
    Explained s m m' (.invoked req) t response := by
  have hdispatch := dispatch_dot (s := s.withMemory m) hmethod hdot
  rw [procInnerProduct_dotResponse hparam] at hdispatch
  simp only [advance] at h
  cases hremote : m.remoteCS with
  | none =>
      simp only [hremote, Option.some.injEq, Prod.mk.injEq] at h
      obtain ⟨rfl, rfl, rfl⟩ := h
      have hcurrent : (s.withMemory m).remoteCS = none := by
        simp [RPCServer.withMemory, Memory.current, hremote]
      rw [hcurrent] at hdispatch
      exact ⟨.refl m, _, rfl, .perform hdispatch⟩
  | some p =>
      simp only [hremote, Option.some.injEq, Prod.mk.injEq] at h
      obtain ⟨rfl, rfl, rfl⟩ := h
      obtain ⟨cs, hcs, hcurrent⟩ := Memory.remote_contents hremote
      have hserver : (s.withMemory m).remoteCS = some cs := hcurrent
      simp only [hserver] at hdispatch
      cases hresponse : dotResponse cs [] raws with
      | none =>
          refine explained_silent ⟨cs, hcs, ?_⟩
          rw [List.nil_append, hresponse]
          exact ⟨req, rfl⟩
      | some response =>
          rw [hresponse] at hdispatch
          refine ⟨.refl m, .done response, ⟨cs, hcs, ?_⟩, .perform hdispatch⟩
          rw [List.nil_append, hresponse]
          rfl

theorem advance_explained {t t' : ThreadState} {response : Option Response}
    (hmatch : Matches s m pending t) (h : advance s m t = some (m', t', response)) :
    Explained s m m' pending t' response := by
  cases t with
  | idle =>
      cases h
      exact explained_silent hmatch
  | entered req =>
      cases h
      subst hmatch
      exact enter_explained req
  | testRemote key =>
      cases h
      split_ifs
      · exact explained_silent hmatch
      · exact explained_silent hmatch
  | deleteRemote key =>
      simp only [advance] at h
      cases hremote : m.remoteCS with
      | none =>
          simp only [hremote] at h
          cases h
          exact explained_silent hmatch
      | some p =>
          simp only [hremote] at h
          obtain ⟨m₁, hfree, h⟩ := Option.bind_eq_some_iff.mp h
          cases h
          have hsame : s.withMemory m' = s.withMemory m := by
            rw [RPCServer.withMemory, RPCServer.withMemory, Memory.free_current hfree]
          refine ⟨Memory.free_extends hfree, pending, hmatch, ?_⟩
          rw [hsame]
          exact .silent pending
  | assignRemote key =>
      cases h
      obtain ⟨req, rfl, hkey⟩ := hmatch
      refine ⟨Memory.assignNew_extends m _, _, rfl, .perform ?_⟩
      rw [dispatch_exchange _ (method_of_keyString hkey), installKey, hkey, RPCServer.withMemory,
        RPCServer.withMemory, Memory.assignNew_current]
      rfl
  | readRemote raws =>
      obtain ⟨req, rfl, hparam, hmethod, hdot⟩ := hmatch
      exact readRemote_explained hparam hmethod hdot h
  | construct p todo made =>
      cases todo with
      | nil =>
          cases h
          obtain ⟨cs, hcs, hawaits⟩ := hmatch
          rw [List.append_nil] at hawaits
          exact explained_silent ⟨cs, hcs, hawaits⟩
      | cons r todo =>
          obtain ⟨_, _, h⟩ := Option.bind_eq_some_iff.mp h
          cases h
          obtain ⟨cs, hcs, hawaits⟩ := hmatch
          rw [List.append_cons] at hawaits
          exact explained_silent ⟨cs, hcs, hawaits⟩
  | addAssign p todo made =>
      obtain ⟨cs, hcs, hawaits⟩ := hmatch
      cases todo with
      | nil =>
          cases h
          rw [dotResponse_nil] at hawaits
          exact explained_silent hawaits
      | cons r todo =>
          obtain ⟨cs', hget, h⟩ := Option.bind_eq_some_iff.mp h
          obtain ⟨c, hadd, h⟩ := Option.bind_eq_some_iff.mp h
          cases h
          obtain rfl : cs' = cs := Option.some.inj ((Memory.contents_of_get hget).symm.trans hcs)
          rw [dotResponse_cons hadd] at hawaits
          exact explained_silent ⟨cs', hcs, hawaits⟩
  | pack p todo made =>
      cases todo with
      | nil =>
          cases h
          simp only [Matches, List.map_nil, List.append_nil] at hmatch
          exact explained_silent hmatch
      | cons r todo =>
          obtain ⟨_, _, h⟩ := Option.bind_eq_some_iff.mp h
          cases h
          rw [Matches, List.map_cons, List.append_cons] at hmatch
          exact explained_silent hmatch
  | leaving r =>
      cases h
      subst hmatch
      exact ⟨.refl m, .idle, rfl, .respond r⟩

end Steps

section Runs

variable {s₀ s : RPCServer .privateKey} {c c' : Threads I}
  {pending : I → Pending Request Response}

def Action.actor : Action I → I
  | .invoke i _ | .advance i => i

/-- The state of the server and of its requests that a state of the threads stands for. -/
structure Threads.StandsFor (s₀ : RPCServer .privateKey) (c : Threads I)
    (s : RPCServer .privateKey) (pending : I → Pending Request Response) : Prop where
  server : s = s₀.withMemory c.memory
  threads : ∀ i, Matches s₀ c.memory (pending i) (c.thread i)

theorem Threads.new_standsFor (s₀ : RPCServer .privateKey) :
    (Threads.new I s₀.remoteCS).StandsFor s₀ s₀ fun _ => .idle := by
  refine ⟨?_, fun _ => rfl⟩
  rw [RPCServer.withMemory, Threads.new, Memory.ofRemote_current]

variable [DecidableEq I]

theorem stepThreads_frame {a : Action I} {event : Option (Event I Request Response)}
    (h : stepThreads s₀ c a = some (c', event)) {j : I} (hj : j ≠ a.actor) :
    c'.thread j = c.thread j := by
  cases a with
  | invoke i req =>
      simp only [stepThreads] at h
      split at h
      · cases h
        exact Function.update_of_ne hj ..
      · cases h
        rfl
  | advance i =>
      obtain ⟨_, _, h⟩ := Option.bind_eq_some_iff.mp h
      cases h
      exact Function.update_of_ne hj ..

theorem stepThreads_explained {a : Action I} {event : Option (Event I Request Response)}
    (h : c.StandsFor s₀ s pending) (hstep : stepThreads s₀ c a = some (c', event)) :
    ∃ ops s' pending', Run dispatch s pending event.toList ops s' pending' ∧
      c'.StandsFor s₀ s' pending' := by
  cases a with
  | invoke i req =>
      simp only [stepThreads] at hstep
      cases hi : c.thread i with
      | idle =>
          simp only [hi] at hstep
          cases hstep
          have hidle : Matches s₀ c.memory (pending i) .idle := hi ▸ h.threads i
          refine ⟨[], s, _, Run.refl.invoke hidle, h.server, fun j => ?_⟩
          by_cases hji : j = i
          · subst hji
            simp [Matches]
          · simpa only [Function.update_of_ne hji] using h.threads j
      | entered _ | testRemote _ | deleteRemote _ | assignRemote _ | readRemote _
      | construct _ _ _ | addAssign _ _ _ | pack _ _ _ | leaving _ =>
          simp only [hi] at hstep
          cases hstep
          exact ⟨[], s, pending, .refl, h⟩
  | advance i =>
      obtain ⟨⟨m, t, response⟩, hadvance, hstep⟩ := Option.bind_eq_some_iff.mp hstep
      cases hstep
      obtain ⟨hext, w, hmatch, heffect⟩ := advance_explained (h.threads i) hadvance
      rw [← h.server] at heffect
      obtain ⟨ops, hops⟩ := heffect.run
      refine ⟨ops, _, _, hops, rfl, fun j => ?_⟩
      by_cases hji : j = i
      · subst hji
        simpa only [Function.update_self] using hmatch
      · simpa only [Function.update_of_ne hji] using (h.threads j).mono hext

/-- Whatever the schedule, threads that never use a deleted key serve their requests as a
server does that serves each of them at one moment between its arrival and its answer. -/
theorem threads_linearizable (s₀ : RPCServer .privateKey) {acts : List (Action I)}
    {events : List (Option (Event I Request Response))}
    (hrun : run (stepThreads s₀) (Threads.new I s₀.remoteCS) acts = some (c, events)) :
    ∃ ops pending,
      Run dispatch s₀ (fun _ => .idle) events.reduceOption ops (s₀.withMemory c.memory) pending ∧
      run dispatch s₀ (ops.map Prod.fst) = some (s₀.withMemory c.memory, ops.map Prod.snd) ∧
      ∀ i response, .respond i response ∈ events.reduceOption →
        ∃ req, .invoke i req ∈ events.reduceOption ∧ (req, response) ∈ ops := by
  obtain ⟨ops, s, pending, hops, hfinal⟩ := run_simulation (Threads.StandsFor s₀)
    (fun _ _ _ _ _ _ => stepThreads_explained) (Threads.new_standsFor s₀) hrun
  obtain rfl := hfinal.server
  exact ⟨ops, pending, hops, hops.sequential, fun i response => hops.responds fun _ => rfl⟩

/-- One thread exchanges a key while another waits with its inner product. -/
def sampleSchedule : List (Action Bool) :=
  [.invoke true sampleDot, .invoke false (sampleExchange "23"), .advance true] ++
    List.replicate 4 (.advance false) ++ List.replicate 8 (.advance true)

theorem threads_linearizable_sample :
    ∃ (s : RPCServer .privateKey) (ops : List (Request × Response)) (req : Request),
      run dispatch sampleDotServer (ops.map Prod.fst) = some (s, ops.map Prod.snd) ∧
        (req, .result (.array [msgpackPack 71])) ∈ ops := by
  obtain ⟨c, events, hrun, hmem⟩ : ∃ c events,
      run (stepThreads sampleDotServer) (Threads.new Bool sampleDotServer.remoteCS)
        sampleSchedule = some (c, events) ∧
      .respond true (.result (.array [msgpackPack 71])) ∈ events.reduceOption :=
    ⟨_, _, rfl, .tail _ (.tail _ (.tail _ (.head _)))⟩
  obtain ⟨ops, pending, _, hops, hresponds⟩ := threads_linearizable sampleDotServer hrun
  obtain ⟨req, _, hreq⟩ := hresponds true _ hmem
  exact ⟨_, ops, req, hops, hreq⟩

end Runs

end PPFramework
