import PPFramework.Machine.PartialRun
import PPFramework.Rpc.Packing

/-!
`RPCServer<CryptosystemType>` and its procedures. A request is dispatched as a whole:
the model is of the order in which requests are served, not of two threads inside
one of them. `Rpc.Threads` relates those to it.

`none` is an abort of the process; errors that `dispatch` catches are responses.
Nothing a request does can change the server's own cryptosystem or its procedures,
and one function of the request says what becomes of the client's key.
-/

namespace PPFramework
open Gmp PartialRun

structure Request where
  method : MsgObject
  params : MsgObject

def callRequest (method : List UInt8) (args : List MsgObject) : Request where
  method := .raw method
  params := .array args

inductive RpcError
  | noMethod
  | argument
deriving DecidableEq

inductive Response
  | result (o : MsgObject)
  | error (e : RpcError)

/-- The procedures that can be registered; `ProcObliviousMult` does not compile. -/
inductive Procedure
  | exchangePublicKeys
  | innerProduct
deriving DecidableEq

def Procedure.procName : Procedure → List UInt8
  | exchangePublicKeys => asciiBytes "XCHANGE_KEYS"
  | innerProduct => asciiBytes "DOT"

/-- The constructor registers the key exchange, and nothing unregisters a procedure. -/
structure RPCServer (T : CipherClass) where
  localCS : Option (CryptosystemType T)
  remoteCS : Option (CryptosystemType T.publicKeyCSType)
  procs : List Procedure
  exchange_mem : Procedure.exchangePublicKeys ∈ procs

namespace RPCServer

variable {T : CipherClass}

def new (cs : Option (CryptosystemType T)) : RPCServer T where
  localCS := cs
  remoteCS := none
  procs := [.exchangePublicKeys]
  exchange_mem := List.mem_cons_self

def registerProc (s : RPCServer T) (proc : Procedure) : RPCServer T where
  localCS := s.localCS
  remoteCS := s.remoteCS
  -- looked up from the front, so a name inserted twice keeps its first procedure
  procs := s.procs ++ [proc]
  exchange_mem := List.mem_append_left _ s.exchange_mem

def unpacker (s : RPCServer T) : CipherUnpackerTransform T T.publicKeyCSType where
  localCS := s.localCS
  remoteCS := s.remoteCS

end RPCServer

def stringType : ClearType where
  carrier := List UInt8
  default := []
  convert := MsgObject.asString

/-- The only parameter of the key exchange, `none` where the conversion throws. -/
def stringParam (params : MsgObject) : Option (List UInt8) :=
  (convertTuple [.clear stringType] params).map Prod.fst

variable {T : CipherClass}

def procExchangePublicKeys (s : RPCServer T) (params : MsgObject) : RPCServer T × MsgObject :=
  let remoteCS := match stringParam params with
    | some remotePublicKey =>
        if remotePublicKey.length > 0 then some (PaillierCryptosystem.new (cStr remotePublicKey))
        else s.remoteCS
    -- the `type_error` is caught here, and the answer is sent all the same
    | none => s.remoteCS
  let localPublicKey := match s.localCS with
    | some cs => cs.base.getPublicKey
    | none => []
  ({ s with remoteCS := remoteCS }, .raw localPublicKey)

def Cipher.addAssign (c d : Cipher .publicKey) : Option (Cipher .publicKey) := do
  let raw ← c.cs.base.additive.addTo c.raw d.raw
  some { c with raw := raw }

/-- `ProcInnerProduct::run`; a `type_error` leaves through `dispatch`. -/
def procInnerProduct (s : RPCServer T) (params : MsgObject) : Option Response :=
  match unpack s.unpacker [.vector T.publicKeyCSType] params with
  | none => some (.error .argument)
  | some (v, _) => do
      let v ← Traverse.updateEach (fun c => c.addAssign c) v
      some (.result (packResult v))

def Procedure.run (s : RPCServer T) (params : MsgObject) :
    Procedure → Option (RPCServer T × Response)
  | exchangePublicKeys =>
      let (s, o) := procExchangePublicKeys s params
      some (s, .result o)
  | innerProduct => (procInnerProduct s params).map fun response => (s, response)

def dispatch (s : RPCServer T) (req : Request) : Option (RPCServer T × Response) :=
  match req.method.asString with
  | none => some (s, .error .argument)
  | some procName =>
      match s.procs.find? fun proc => proc.procName == procName with
      | none => some (s, .error .noMethod)
      | some proc => proc.run s req.params

/-- The non-empty key string a request carries, if it is a key exchange with one. -/
def Request.keyString (req : Request) : Option (List UInt8) :=
  if req.method.asString = some Procedure.exchangePublicKeys.procName then
    (stringParam req.params).filter fun key => !key.isEmpty
  else none

/-- What a request does to the client's key. -/
def installKey (remoteCS : Option PaillierCryptosystem) (req : Request) :
    Option PaillierCryptosystem :=
  match req.keyString with
  | some key => some (PaillierCryptosystem.new (cStr key))
  | none => remoteCS

def RPCServer.publicKey (s : RPCServer T) : List UInt8 :=
  match s.localCS with
  | some cs => mpzGetStr16 cs.base.pub.n
  | none => []

theorem procName_injective {proc proc' : Procedure} (h : proc.procName = proc'.procName) :
    proc = proc' := by
  revert h
  cases proc with
  | exchangePublicKeys => cases proc' with
    | exchangePublicKeys => exact fun _ => rfl
    | innerProduct => exact fun h => absurd h (by decide)
  | innerProduct => cases proc' with
    | exchangePublicKeys => exact fun h => absurd h (by decide)
    | innerProduct => exact fun _ => rfl

theorem find_procName {procs : List Procedure} {proc : Procedure} (h : proc ∈ procs) :
    procs.find? (fun p => p.procName == proc.procName) = some proc := by
  have hsome : (procs.find? fun p => p.procName == proc.procName).isSome :=
    List.find?_isSome.mpr ⟨proc, h, beq_self_eq_true _⟩
  obtain ⟨p, hp⟩ := Option.isSome_iff_exists.mp hsome
  have hname := List.find?_some hp
  rw [hp, procName_injective (beq_iff_eq.mp hname)]

theorem dispatch_registered {s : RPCServer T} {proc : Procedure} (h : proc ∈ s.procs)
    (args : List MsgObject) :
    dispatch s (callRequest proc.procName args) = proc.run s (.array args) := by
  simp only [dispatch, callRequest, MsgObject.asString, find_procName h]

theorem procExchangePublicKeys_eq (s : RPCServer T) (params : MsgObject) :
    procExchangePublicKeys s params =
      ({ s with
          remoteCS := installKey s.remoteCS ⟨.raw Procedure.exchangePublicKeys.procName, params⟩ },
        .raw s.publicKey) := by
  simp only [procExchangePublicKeys, installKey, Request.keyString, RPCServer.publicKey,
    MsgObject.asString, ite_true]
  cases stringParam params with
  | none => rfl
  | some key => cases key with
    | nil => rfl
    | cons c key => rfl

theorem dispatch_exchange (s : RPCServer T) {req : Request}
    (h : req.method.asString = some Procedure.exchangePublicKeys.procName) :
    dispatch s req =
      some ({ s with remoteCS := installKey s.remoteCS req }, .result (.raw s.publicKey)) := by
  have hinstall : installKey s.remoteCS ⟨.raw Procedure.exchangePublicKeys.procName, req.params⟩ =
      installKey s.remoteCS req := by
    have hraw : (MsgObject.raw Procedure.exchangePublicKeys.procName).asString =
        req.method.asString := h.symm
    simp only [installKey, Request.keyString, hraw]
  simp only [dispatch, h, find_procName s.exchange_mem, Procedure.run,
    procExchangePublicKeys_eq, hinstall]

theorem dispatch_other {s s' : RPCServer T} {req : Request} {response : Response}
    (h : req.method.asString ≠ some Procedure.exchangePublicKeys.procName)
    (hstep : dispatch s req = some (s', response)) : s' = s := by
  simp only [dispatch] at hstep
  split at hstep
  · cases hstep
    rfl
  · next name hname =>
      split at hstep
      · cases hstep
        rfl
      · next proc hproc =>
          cases proc with
          | exchangePublicKeys =>
              have hfound := List.find?_some hproc
              exact absurd (hname.trans (congrArg some (beq_iff_eq.mp hfound).symm)) h
          | innerProduct =>
              obtain ⟨_, _, heq⟩ := Option.map_eq_some_iff.mp hstep
              exact (congrArg Prod.fst heq).symm

/-- The whole effect of a request on the server. -/
theorem dispatch_state {s s' : RPCServer T} {req : Request} {response : Response}
    (hstep : dispatch s req = some (s', response)) :
    s' = { s with remoteCS := installKey s.remoteCS req } := by
  by_cases h : req.method.asString = some Procedure.exchangePublicKeys.procName
  · rw [dispatch_exchange s h, Option.some.injEq, Prod.mk.injEq] at hstep
    exact hstep.1.symm
  · have hkey : installKey s.remoteCS req = s.remoteCS := by
      simp only [installKey, Request.keyString, if_neg h]
    rw [hkey]
    exact dispatch_other h hstep

theorem run_remoteCS {s s' : RPCServer T} {reqs : List Request} {responses : List Response}
    (hrun : run dispatch s reqs = some (s', responses)) :
    s'.remoteCS = reqs.foldl installKey s.remoteCS :=
  run_project RPCServer.remoteCS installKey
    (fun _ _ _ _ hstep => congrArg RPCServer.remoteCS (dispatch_state hstep)) hrun

theorem run_localCS {s s' : RPCServer T} {reqs : List Request} {responses : List Response}
    (hrun : run dispatch s reqs = some (s', responses)) :
    s'.localCS = s.localCS ∧ s'.procs = s.procs :=
  run_invariant (fun s₁ => s₁.localCS = s.localCS ∧ s₁.procs = s.procs) (fun _ => True)
    (fun _ _ _ _ h _ hstep => dispatch_state hstep ▸ h) ⟨rfl, rfl⟩ (fun _ _ => trivial) hrun

end PPFramework
