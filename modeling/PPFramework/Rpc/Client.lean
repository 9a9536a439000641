import PPFramework.Rpc.Server

/-!
`RPCClient<PrivateCryptosystemType>` against a server. A call sends one request and
waits for its response; an error response and a conversion that fails are exceptions
in the client. Both they and an abort of the server are `none` here.
-/

namespace PPFramework
open PartialRun

def Response.get {A : Type} (convert : MsgObject → Option A) : Response → Option A
  | .result o => convert o
  | .error _ => none

structure RPCClient (T : CipherClass) where
  localCS : Option (CryptosystemType T)
  remoteCS : Option (CryptosystemType T.publicKeyCSType)

variable {T S : CipherClass}

namespace RPCClient

/-- The constructors, with the string they send as the client's key. -/
def handshake (localCS : Option (CryptosystemType T)) (key : List UInt8) (server : RPCServer S) :
    Option (RPCServer S × RPCClient T) := do
  let (server, response) ←
    dispatch server (callRequest Procedure.exchangePublicKeys.procName [.raw key])
  let publicKey ← response.get MsgObject.asString
  let remoteCS :=
    if publicKey.length > 0 then some (PaillierCryptosystem.new (cStr publicKey)) else none
  some (server, { localCS := localCS, remoteCS := remoteCS })

def newPublic (server : RPCServer S) : Option (RPCServer S × RPCClient T) :=
  handshake none [] server

def new (cs : CryptosystemType T) (server : RPCServer S) : Option (RPCServer S × RPCClient T) :=
  handshake (some cs) cs.base.getPublicKey server

/-- The loop of `getLocalCipherVector(future)`, with `localCS` dereferenced in its body. -/
def localCiphers (client : RPCClient T) (v : List ℤ) : Option (List (Cipher T)) :=
  v.foldlM (fun v2 r => do
    let cs ← client.localCS
    some (v2 ++ [⟨cs, r⟩])) []

/-- `getLocalCipherVector(args...)` with one vector of ciphers as its argument. -/
def getLocalCipherVector (client : RPCClient T) (server : RPCServer S) (method : List UInt8)
    {A : CipherClass} (v : List (Cipher A)) : Option (RPCServer S × List (Cipher T)) := do
  let (server, response) ← dispatch server (callRequest method [packVector v])
  let raws ← response.get (MsgObject.asVector msgpackUnpack)
  let ciphers ← client.localCiphers raws
  some (server, ciphers)

theorem localCiphers_eq {client : RPCClient T} {cs : CryptosystemType T}
    (h : client.localCS = some cs) (v : List ℤ) :
    client.localCiphers v = some (v.map fun r => ⟨cs, r⟩) := by
  simp only [localCiphers, h, Option.bind_eq_bind, Option.bind_some]
  exact Traverse.foldlM_push (fun r => (⟨cs, r⟩ : Cipher T)) [] v

theorem handshake_eq (localCS : Option (CryptosystemType T)) (key : List UInt8)
    (server : RPCServer S) :
    handshake localCS key server =
      some ({ server with
          remoteCS := installKey server.remoteCS
            (callRequest Procedure.exchangePublicKeys.procName [.raw key]) },
        { localCS := localCS
          remoteCS := if server.publicKey.length > 0 then
            some (PaillierCryptosystem.new (cStr server.publicKey)) else none }) := by
  rw [handshake, dispatch_exchange server rfl]
  rfl

end RPCClient

end PPFramework
