import PPFramework.Rpc.Client
import PPFramework.Rpc.RemoteKey

/-!
What both sides know after exchanging keys. Over any run of exchanges the server
holds the key of the last non-empty string and answers with its own modulus. A key
issued by keygen is rebuilt exactly from its hexadecimal modulus: the bit length too,
since the acceptance test of keygen makes the requested length the measured one.

Encrypting with the rebuilt key is then encrypting with the issued one, which its
owner can read back when the primes differ.
-/

namespace PPFramework
open Gmp PartialRun

variable {T : CipherClass}

/-- The client's key that a run leaves: the last non-empty string, or the one before. -/
def lastKey (remoteCS : Option PaillierCryptosystem) (reqs : List Request) :
    Option PaillierCryptosystem :=
  match (reqs.filterMap Request.keyString).getLast? with
  | some key => some (PaillierCryptosystem.new (cStr key))
  | none => remoteCS

structure ExchangeAgrees (s₀ : RPCServer T) (reqs : List Request) (s : RPCServer T)
    (responses : List Response) : Prop where
  remoteCS : s.remoteCS = lastKey s₀.remoteCS reqs
  localCS : s.localCS = s₀.localCS
  length_eq : responses.length = reqs.length
  responses : ∀ response ∈ responses, response = .result (.raw s₀.publicKey)

theorem publicKey_eq_nil_iff (s : RPCServer T) : s.publicKey = [] ↔ s.localCS = none := by
  simp only [RPCServer.publicKey]
  cases s.localCS with
  | none => exact iff_of_true rfl rfl
  | some cs => exact iff_of_false (mpzGetStr16_ne_nil _) (Option.some_ne_none cs)

theorem run_exchange (s₀ : RPCServer T) {reqs : List Request}
    (hreqs : ∀ req ∈ reqs, req.method.asString = some Procedure.exchangePublicKeys.procName) :
    ∃ s responses, run dispatch s₀ reqs = some (s, responses) ∧
      ExchangeAgrees s₀ reqs s responses := by
  have hstep : ∀ (s : RPCServer T) (req : Request), s.publicKey = s₀.publicKey →
      req.method.asString = some Procedure.exchangePublicKeys.procName →
      ∃ s' response, dispatch s req = some (s', response) ∧ s'.publicKey = s₀.publicKey ∧
        response = .result (.raw s₀.publicKey) := by
    intro s req hs hreq
    exact ⟨_, _, dispatch_exchange s hreq, hs, by rw [hs]⟩
  obtain ⟨s, responses, hrun, _, houts⟩ := run_total _ _ _ hstep rfl hreqs
  refine ⟨s, responses, hrun, ?_, (run_localCS hrun).1, houts.length_eq.symm, ?_⟩
  · exact (run_remoteCS hrun).trans (foldl_installKey _ _)
  · intro response hresponse
    obtain ⟨_, _, h⟩ := Traverse.forall₂_mem_right houts hresponse
    exact h

namespace KeygenDraw

variable (d : KeygenDraw)

/-- The public-key cryptosystem rebuilt from the string that `getPublicKey` returns. -/
def rebuilt : PaillierCryptosystem :=
  PaillierCryptosystem.new (cStr d.cryptosystem.getPublicKey)

theorem rebuilt_pub : d.rebuilt.pub = d.pub := by
  have hstr : cStr d.cryptosystem.getPublicKey = mpzGetStr16 d.modulus :=
    cStr_getStr16 (d.modulus : ℤ)
  have hbits : Int32.ofInt (mpzSizeinbase2 d.modulus) = d.modulusbits := by
    rw [d.sizeinbase_modulus, Int32.ofInt_toInt]
  change paillierPubkeyFromHex (cStr d.cryptosystem.getPublicKey) = d.pub
  rw [hstr, paillierPubkeyFromHex, mpzSetStr16_getStr16, Option.getD_some, hbits]
  rfl

theorem rebuilt_eq : d.rebuilt.toPaillierCryptosystemBase =
    d.cryptosystem.toPaillierCryptosystemBase :=
  congrArg initConstants d.rebuilt_pub

def RebuiltDecrypts : Prop :=
  ∀ (m : ℤ) (r : ℕ), r.Coprime d.modulus →
    ∃ c, d.rebuilt.enc m r = some c ∧ d.cryptosystem.dec c false = some (m % d.modulus)

theorem rebuilt_enc (m : ℤ) (r : ℕ) : d.rebuilt.enc m r = paillierEncWith d.pub m r :=
  congrArg (fun pub => paillierEncWith pub m r) d.rebuilt_pub

theorem rebuiltDecrypts_iff : d.RebuiltDecrypts ↔ d.p ≠ d.q := by
  constructor
  · intro h hpq
    obtain ⟨r, hr, _, hdec⟩ := d.not_decrypts_of_equal hpq
    obtain ⟨c, hc, hzero⟩ := h 0 r hr
    rw [d.rebuilt_enc, d.enc_zero r, Option.some.injEq] at hc
    rw [dec_unsigned, Int.zero_emod] at hzero
    exact hdec (hc ▸ hzero)
  · intro hpq m r hr
    obtain ⟨c, hc, henc⟩ := paillierEncWith_valid d.pub_hasModulus m hr
    refine ⟨c, (d.rebuilt_enc m r).trans hc, ?_⟩
    exact (dec_unsigned d.cryptosystem c).trans (PaillierKey.paillierDec_valid ⟨d, hpq⟩ henc)

end KeygenDraw

theorem getPublicKey_ne_nil (d : KeygenDraw) : d.cryptosystem.getPublicKey ≠ [] :=
  mpzGetStr16_ne_nil (d.modulus : ℤ)

theorem installKey_getPublicKey (d : KeygenDraw) (remoteCS : Option PaillierCryptosystem) :
    installKey remoteCS
      (callRequest Procedure.exchangePublicKeys.procName [.raw d.cryptosystem.getPublicKey]) =
      some d.rebuilt := by
  have hkey : (callRequest Procedure.exchangePublicKeys.procName
      [.raw d.cryptosystem.getPublicKey]).keyString = some d.cryptosystem.getPublicKey := by
    change Option.filter (fun key => !List.isEmpty key) (some d.cryptosystem.getPublicKey) = _
    exact Option.filter_some_pos (by simpa using getPublicKey_ne_nil d)
  rw [installKey, hkey]
  rfl

/-- What a client's handshake leaves: each side holds the other's key, rebuilt. -/
structure Agreed {S : CipherClass} (server₀ server : RPCServer S) (d : KeygenDraw)
    (client : RPCClient .privateKey) : Prop where
  server_eq : server = { server₀ with remoteCS := some d.rebuilt }
  localCS : client.localCS = some d.cryptosystem
  remoteCS : ∀ own : KeygenDraw, server₀.publicKey = own.cryptosystem.getPublicKey →
    client.remoteCS = some own.rebuilt

theorem RPCClient.new_agreed {S : CipherClass} (d : KeygenDraw) (server₀ : RPCServer S) :
    ∃ server client, RPCClient.new (T := .privateKey) d.cryptosystem server₀ =
      some (server, client) ∧ Agreed server₀ server d client := by
  refine ⟨_, _, RPCClient.handshake_eq _ _ server₀, ?_, rfl, ?_⟩
  · exact congrArg (fun cs => { server₀ with remoteCS := cs })
      (installKey_getPublicKey d server₀.remoteCS)
  · intro own hown
    have hpos : server₀.publicKey.length > 0 :=
      hown ▸ List.length_pos_of_ne_nil (getPublicKey_ne_nil own)
    change (if server₀.publicKey.length > 0 then _ else none) = _
    rw [if_pos hpos, hown]
    rfl

/-- A run of key exchanges leaves the server with the last key and answers with its own;
a handshake gives each side the other's key; a rebuilt key equals the issued one, and its
encryptions decrypt exactly when the issuer's primes differ. -/
theorem key_exchange_agrees_iff (s₀ : RPCServer T) (reqs : List Request)
    (hreqs : ∀ req ∈ reqs, req.method.asString = some Procedure.exchangePublicKeys.procName)
    (d : KeygenDraw) :
    (∃ s responses, run dispatch s₀ reqs = some (s, responses) ∧
      ExchangeAgrees s₀ reqs s responses) ∧
    (s₀.publicKey = [] ↔ s₀.localCS = none) ∧
    (∃ server client, RPCClient.new (T := .privateKey) d.cryptosystem s₀ =
      some (server, client) ∧ Agreed s₀ server d client) ∧
    d.rebuilt.toPaillierCryptosystemBase = d.cryptosystem.toPaillierCryptosystemBase ∧
    (d.RebuiltDecrypts ↔ d.p ≠ d.q) :=
  ⟨run_exchange s₀ hreqs, publicKey_eq_nil_iff s₀, RPCClient.new_agreed d s₀, d.rebuilt_eq,
    d.rebuiltDecrypts_iff⟩

theorem key_exchange_agrees_iff_sample :
    ∃ s responses, run dispatch sampleDotServer
        [sampleExchange "23", sampleExchange "", ⟨(sampleExchange "").method, .array [.integer 1]⟩,
          ⟨(sampleExchange "").method, .nil⟩] = some (s, responses) ∧
      s.remoteCS = some (PaillierCryptosystem.new (cStr (asciiBytes "23"))) := by
  obtain ⟨⟨s, responses, hrun, h⟩, _⟩ := key_exchange_agrees_iff sampleDotServer
    [sampleExchange "23", sampleExchange "", ⟨(sampleExchange "").method, .array [.integer 1]⟩,
      ⟨(sampleExchange "").method, .nil⟩]
    (by
      intro req hreq
      simp only [List.mem_cons, List.not_mem_nil, or_false] at hreq
      obtain rfl | rfl | rfl | rfl := hreq <;> rfl)
    sampleKey.toKeygenDraw
  exact ⟨s, responses, hrun, h.remoteCS⟩

/-- The key with both primes 7 is rebuilt, and its encryption of 0 under the blinding
factor 8 decrypts to 7. -/
theorem rebuilt_equal_primes_misdecrypts :
    ∃ c, equalDraw.rebuilt.enc 0 8 = some c ∧ Nat.Coprime 8 equalDraw.modulus ∧
      equalDraw.cryptosystem.dec c false = some 7 :=
  ⟨8 ^ 49 % 2401, by decide +kernel⟩

end PPFramework
