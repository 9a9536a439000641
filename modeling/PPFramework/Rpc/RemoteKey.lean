import PPFramework.Paillier.Keygen
import PPFramework.Paillier.Operators
import PPFramework.Rpc.Server

/-!
The key exchange over whole runs. The client's key is rebuilt from the last
non-empty string received, whatever that string is: the return value of the number
parser is ignored, so a string that is no number, or stands for zero, installs a
modulus that no later operation can divide by.

A key that keygen issued is rebuilt exactly, its bit length included, because the
acceptance test fixes the top bit of the product.
-/

namespace PPFramework
open Gmp PartialRun

variable {T : CipherClass}

structure Usable (cs : PaillierCryptosystem) : Prop where
  one_lt : 1 < cs.pub.n
  nSquared_ne_zero : cs.pub.nSquared ≠ 0
  samples : ∃ r tape rest, blindingLoop cs.pub tape = some (r, rest)

/-- The key strings that stand for a number above one whose bit length fits an `int`. -/
def KeyAccepted (key : List UInt8) : Prop :=
  1 < (paillierPubkeyFromHex (cStr key)).n ∧ 0 ≤ (paillierPubkeyFromHex (cStr key)).bits.toInt

theorem usable_iff_keyAccepted (key : List UInt8) :
    Usable (PaillierCryptosystem.new (cStr key)) ↔ KeyAccepted key := by
  have hpub : (PaillierCryptosystem.new (cStr key)).pub = paillierPubkeyFromHex (cStr key) := rfl
  rw [KeyAccepted, ← hpub]
  generalize PaillierCryptosystem.new (cStr key) = cs
  obtain ⟨hlow, hhigh⟩ := int32_bounds cs.pub.bits
  constructor
  · intro h
    obtain ⟨r, tape, rest, hr⟩ := h.samples
    have hacc := (blindingLoop_iff cs.pub r).mp ⟨tape, rest, hr⟩
    exact ⟨h.one_lt, nonneg_of_bitcnt_le hlow hacc.width⟩
  · intro ⟨hn, hbits⟩
    have hwidth : bitcnt cs.pub.bits.toInt ≤ mpzMaxBits := by
      have := bitcnt_of_nonneg hbits hhigh
      simp only [mpzMaxBits]
      omega
    refine ⟨hn, ?_, 0, (blindingLoop_iff cs.pub 0).mpr ⟨hwidth, Nat.two_pow_pos _, ?_⟩⟩
    · rw [cs.pub.nSquared_eq]
      exact mul_ne_zero (by omega) (by omega)
    · omega

def RemoteUsable (s : RPCServer T) : Prop :=
  ∀ cs, s.remoteCS = some cs → Usable cs

/-- The server's own modulus, where procedures compute with it: in a server of the
public class. For a private-key server there is nothing to assume. -/
def LocalUsable (s : RPCServer T) : Prop :=
  ∀ cs ∈ CryptosystemType.forType s.localCS .publicKey, cs.base.pub.nSquared ≠ 0

def Request.Accepted (req : Request) : Prop :=
  ∀ key, req.keyString = some key → KeyAccepted key

/-- The client's key is usable in every state that a run of the requests goes through. -/
def EveryStateUsable (s₀ : RPCServer T) (reqs : List Request) : Prop :=
  ∀ served s responses, served <+: reqs → run dispatch s₀ served = some (s, responses) →
    RemoteUsable s

theorem RPCServer.converters_publicKey (s : RPCServer T) :
    s.unpacker.converters .publicKey =
      s.remoteCS.toList ++ CryptosystemType.forType s.localCS .publicKey :=
  rfl

theorem addAssign_total {c : Cipher .publicKey} (h : c.cs.base.pub.nSquared ≠ 0)
    (d : Cipher .publicKey) : ∃ e, c.addAssign d = some e :=
  ⟨{ c with raw := c.raw * d.raw % c.cs.base.pub.nSquared }, by
    simp only [Cipher.addAssign, PaillierCryptosystemBase.additive, PaillierCryptosystemBase.addTo,
      paillierMul, mpzMod, if_neg h, Option.bind_eq_bind, Option.bind_some]⟩

def vectorParam (params : MsgObject) : Option (List ℤ) :=
  (convertTuple [.vector .publicKey] params).map Prod.fst

theorem unpack_vector (s : RPCServer T) (params : MsgObject) :
    unpack s.unpacker [.vector T.publicKeyCSType] params =
      (vectorParam params).map fun x =>
        ((s.unpacker.converters .publicKey).flatMap fun cs => x.map fun r => ⟨cs, r⟩,
          PUnit.unit) := by
  simp only [unpack, vectorParam]
  cases convertTuple [.vector .publicKey] params with
  | none => rfl
  | some xs => exact congrArg (fun x => some (x, PUnit.unit)) (s.unpacker.apply_vector _ xs.1)

theorem procInnerProduct_total {s : RPCServer T}
    (h : ∀ cs ∈ s.unpacker.converters .publicKey, cs.base.pub.nSquared ≠ 0) (params : MsgObject) :
    ∃ response, procInnerProduct s params = some response := by
  rw [procInnerProduct, unpack_vector]
  cases vectorParam params with
  | none => exact ⟨_, rfl⟩
  | some x =>
      simp only [Option.map_some, Traverse.updateEach_eq_mapM]
      have hadd : ∀ c ∈ (s.unpacker.converters .publicKey).flatMap fun cs =>
          x.map fun r => (⟨cs, r⟩ : Cipher .publicKey),
          ∃ e, c.addAssign c = some e ∧ True := by
        intro c hc
        obtain ⟨cs, hcs, hc⟩ := List.mem_flatMap.mp hc
        obtain ⟨r, _, rfl⟩ := List.mem_map.mp hc
        obtain ⟨e, he⟩ := addAssign_total (c := ⟨cs, r⟩) (h cs hcs) ⟨cs, r⟩
        exact ⟨e, he, trivial⟩
      obtain ⟨v, hv, _⟩ := Traverse.mapM_total hadd
      rw [hv]
      exact ⟨_, rfl⟩

theorem dispatch_total {s : RPCServer T} (hlocal : LocalUsable s) (hremote : RemoteUsable s)
    (req : Request) : ∃ s' response, dispatch s req = some (s', response) := by
  have hconverters : ∀ cs ∈ s.unpacker.converters .publicKey, cs.base.pub.nSquared ≠ 0 := by
    intro cs hcs
    rw [s.converters_publicKey] at hcs
    cases List.mem_append.mp hcs with
    | inl hcs => exact (hremote cs (Option.mem_toList.mp hcs)).nSquared_ne_zero
    | inr hcs => exact hlocal cs hcs
  simp only [dispatch]
  split
  · exact ⟨_, _, rfl⟩
  · split
    · exact ⟨_, _, rfl⟩
    · next proc _ =>
        cases proc with
        | exchangePublicKeys => exact ⟨_, _, rfl⟩
        | innerProduct =>
            obtain ⟨response, h⟩ := procInnerProduct_total hconverters req.params
            exact ⟨s, response, by rw [Procedure.run, h, Option.map_some]⟩

theorem foldl_installKey (remoteCS : Option PaillierCryptosystem) (reqs : List Request) :
    reqs.foldl installKey remoteCS =
      match (reqs.filterMap Request.keyString).getLast? with
      | some key => some (PaillierCryptosystem.new (cStr key))
      | none => remoteCS := by
  induction reqs generalizing remoteCS with
  | nil => rfl
  | cons req reqs ih =>
      rw [List.foldl_cons, ih, List.filterMap_cons]
      cases hkey : req.keyString with
      | none => simp only [installKey, hkey]
      | some key =>
          rw [List.getLast?_cons]
          cases (reqs.filterMap Request.keyString).getLast? with
          | none => simp only [installKey, hkey, Option.getD_none]
          | some last => rfl

theorem installKey_usable {s : RPCServer T} (h : RemoteUsable s) {req : Request}
    (hreq : req.Accepted) : ∀ cs, installKey s.remoteCS req = some cs → Usable cs := by
  intro cs hcs
  simp only [installKey] at hcs
  cases hkey : req.keyString with
  | none =>
      rw [hkey] at hcs
      exact h cs hcs
  | some key =>
      rw [hkey, Option.some.injEq] at hcs
      exact hcs ▸ (usable_iff_keyAccepted key).mpr (hreq key hkey)

theorem run_usable {s₀ s : RPCServer T} {reqs : List Request} {responses : List Response}
    (h₀ : RemoteUsable s₀) (hkeys : ∀ req ∈ reqs, req.Accepted)
    (hrun : run dispatch s₀ reqs = some (s, responses)) : RemoteUsable s :=
  run_invariant RemoteUsable Request.Accepted
    (fun _ _ _ _ h hreq hstep => dispatch_state hstep ▸ installKey_usable h hreq) h₀ hkeys hrun

theorem run_dispatch_total {s₀ : RPCServer T} {reqs : List Request} (hlocal : LocalUsable s₀)
    (h₀ : RemoteUsable s₀) (hkeys : ∀ req ∈ reqs, req.Accepted) :
    ∃ s responses, run dispatch s₀ reqs = some (s, responses) := by
  have hstep : ∀ (s : RPCServer T) (req : Request), LocalUsable s ∧ RemoteUsable s →
      req.Accepted → ∃ s' response, dispatch s req = some (s', response) ∧
        (LocalUsable s' ∧ RemoteUsable s') ∧ True := by
    intro s req ⟨hlocal, hremote⟩ hreq
    obtain ⟨s', response, hstep⟩ := dispatch_total hlocal hremote req
    exact ⟨s', response, hstep, dispatch_state hstep ▸
      ⟨hlocal, installKey_usable hremote hreq⟩, trivial⟩
  obtain ⟨s, responses, hrun, _⟩ := run_total _ _ (fun _ _ => True) hstep ⟨hlocal, h₀⟩ hkeys
  exact ⟨s, responses, hrun⟩

theorem keysAccepted_of_everyState {s₀ : RPCServer T} (hlocal : LocalUsable s₀)
    (h₀ : RemoteUsable s₀) {reqs : List Request} (h : EveryStateUsable s₀ reqs) :
    ∀ req ∈ reqs, req.Accepted := by
  induction reqs generalizing s₀ with
  | nil => exact fun req hreq => nomatch hreq
  | cons req reqs ih =>
      obtain ⟨s, response, hstep⟩ := dispatch_total hlocal h₀ req
      have hstate := dispatch_state hstep
      have hone : run dispatch s₀ [req] = some (s, [response]) :=
        run_cons_eq_some.mpr ⟨s, response, [], hstep, rfl, rfl⟩
      -- the state after the first request is one of the run's states
      have hs : RemoteUsable s := h [req] s [response] (List.prefix_cons_inj req |>.mpr
        (List.nil_prefix)) hone
      have hrest : ∀ req ∈ reqs, req.Accepted := by
        have hlocal' : LocalUsable s := hstate ▸ hlocal
        refine ih hlocal' hs ?_
        intro served s' responses hserved hrun
        exact h (req :: served) s' (response :: responses)
          (List.prefix_cons_inj req |>.mpr hserved)
          (run_cons_eq_some.mpr ⟨s, response, responses, hstep, hrun, rfl⟩)
      intro req' hreq' key hkey
      cases hreq' with
      | head =>
          apply (usable_iff_keyAccepted key).mp
          apply hs
          simp only [hstate, installKey, hkey]
      | tail _ hreq' => exact hrest req' hreq' key hkey

/-- Every state has a usable key when all strings received are accepted, and, where the
server can serve its requests at all, only then. -/
theorem remote_key_usable_iff (s₀ : RPCServer T) (hfresh : s₀.remoteCS = none)
    (reqs : List Request) :
    ((∀ req ∈ reqs, req.Accepted) → EveryStateUsable s₀ reqs) ∧
      (LocalUsable s₀ → EveryStateUsable s₀ reqs → ∀ req ∈ reqs, req.Accepted) ∧
      (LocalUsable s₀ → (∀ req ∈ reqs, req.Accepted) →
        ∃ s responses, run dispatch s₀ reqs = some (s, responses)) := by
  have h₀ : RemoteUsable s₀ := by
    intro cs hcs
    rw [hfresh] at hcs
    cases hcs
  refine ⟨?_, fun hlocal => keysAccepted_of_everyState hlocal h₀,
    fun hlocal => run_dispatch_total hlocal h₀⟩
  intro hkeys served s responses hserved hrun
  exact run_usable h₀ (fun req hreq => hkeys req (hserved.subset hreq)) hrun

def sampleDotServer : RPCServer .privateKey :=
  (RPCServer.new (some sampleKey.cryptosystem)).registerProc .innerProduct

def sampleExchange (key : String) : Request :=
  callRequest Procedure.exchangePublicKeys.procName [.raw (asciiBytes key)]

theorem remote_key_usable_iff_sample :
    EveryStateUsable sampleDotServer [sampleExchange "23", sampleExchange ""] := by
  apply (remote_key_usable_iff sampleDotServer rfl _).1
  intro req hreq key hkey
  simp only [List.mem_cons, List.not_mem_nil, or_false] at hreq
  cases hreq with
  | inl h =>
      subst h
      obtain rfl : asciiBytes "23" = key := Option.some.inj hkey
      exact ⟨by decide, by decide⟩
  | inr h =>
      subst h
      cases hkey

/-- The string "0" installs the modulus zero: no blinding factor is ever accepted, and
an inner product of one cipher divides by zero. -/
theorem zero_key_unusable :
    ∃ s responses cs, run dispatch sampleDotServer [sampleExchange "0"] = some (s, responses) ∧
      s.remoteCS = some cs ∧ cs.pub.n = 0 ∧ (∀ tape, blindingLoop cs.pub tape = none) ∧
      dispatch s (callRequest Procedure.innerProduct.procName [.array [.array [.raw [36]]]]) =
        none := by
  refine ⟨_, _, _, rfl, rfl, rfl, ?_, rfl⟩
  intro tape
  cases h : blindingLoop (PaillierCryptosystem.new (cStr (asciiBytes "0"))).pub tape with
  | none => rfl
  | some drawn =>
      have hlt := ((blindingLoop_iff _ drawn.1).mp ⟨tape, drawn.2, h⟩).lt_n
      exact absurd hlt (not_lt.mpr (Int.natCast_nonneg _))

end PPFramework
