import PPFramework.Rpc.KeyExchange

/-!
The inner product procedure from the client's call to the client's result. The
request's vector is packed, unpacked under the key the server holds for its client,
each cipher is added to itself, and the result is packed, unpacked and attached to
the client's own cryptosystem. Nothing on the way depends on the server's own key.

A cipher below `n²` is exported in at most as many bytes as `n` has bits, which is
why every cipher fits the size field of the transport.
-/

namespace PPFramework
open Gmp PartialRun

/-- The number `r + r` becomes under a key with modulus `n`. -/
def doubled (n : ℕ) (r : ℤ) : ℤ :=
  r * r % (n * n : ℕ)

theorem doubled_range {n : ℕ} [NeZero n] (r : ℤ) :
    0 ≤ doubled n r ∧ doubled n r < (n * n : ℕ) :=
  ⟨Int.emod_nonneg _ modulus_pos.ne', Int.emod_lt_of_pos _ modulus_pos⟩

theorem paillierMul_self {pub : PaillierPubkey} {n : ℕ} (hn : pub.HasModulus n) (r : ℤ) :
    paillierMul pub r r = some (doubled n r) := by
  have := hn.neZero
  rw [paillierMul, hn.nSquared_cast, mpzMod, if_neg modulus_pos.ne']
  rfl

namespace KeygenDraw

variable (d : KeygenDraw)

theorem transportable {c : ℤ} (h0 : 0 ≤ c) (hlt : c < (d.modulus * d.modulus : ℕ)) :
    Transportable c := by
  obtain ⟨b, hb⟩ : ∃ b, mpzSizeinbase2 d.modulus = b := ⟨_, rfl⟩
  have hsize : d.modulus < 2 ^ b := by
    rw [← hb, mpzSizeinbase2, Int.natAbs_natCast]
    exact Nat.lt_log2_self
  have hbytes : c.natAbs < 256 ^ b := by
    calc c.natAbs < d.modulus * d.modulus := by omega
      _ < 2 ^ b * 2 ^ b := Nat.mul_lt_mul'' hsize hsize
      _ = 4 ^ b := by rw [← Nat.mul_pow]
      _ ≤ 256 ^ b := Nat.pow_le_pow_left (by decide) b
  refine ⟨h0, lt_of_le_of_lt (mpzExport_length_le hbytes) ?_⟩
  obtain ⟨_, hhigh⟩ := int32_bounds d.modulusbits
  have := d.sizeinbase_modulus
  omega

theorem transportable_valid {m c : ℤ} (h : ValidEnc d.modulus m c) : Transportable c :=
  d.transportable (validEnc_range h).1 (validEnc_range h).2

theorem transportable_doubled (r : ℤ) : Transportable (doubled d.modulus r) :=
  d.transportable (doubled_range r).1 (doubled_range r).2

end KeygenDraw

/-- What the client reads in the cipher `e` it gets back for the cipher `c` it sent. -/
structure DoubleOf (d : KeygenDraw) (c e : Cipher .privateKey) : Prop where
  cs : e.cs = d.cryptosystem
  valid : ∀ m, ValidEnc d.modulus m c.raw → ValidEnc d.modulus (2 * m) e.raw
  dec : ∃ v, d.cryptosystem.dec c.raw false = some v ∧
    d.cryptosystem.dec e.raw false = some (2 * v % d.modulus)
  dec_distinct : d.p ≠ d.q → ∀ m, ValidEnc d.modulus m c.raw →
    d.cryptosystem.dec e.raw false = some (2 * m % d.modulus)

theorem doubleOf_doubled (d : KeygenDraw) {c : Cipher .privateKey} {m : ℤ}
    (h : ValidEnc d.modulus m c.raw) :
    DoubleOf d c ⟨d.cryptosystem, doubled d.modulus c.raw⟩ := by
  have hmul := paillierMul_self d.pub_hasModulus c.raw
  have hvalid : ∀ m, ValidEnc d.modulus m c.raw →
      ValidEnc d.modulus (2 * m) (doubled d.modulus c.raw) := by
    intro m h
    obtain ⟨e, he, henc⟩ := paillierMul_valid d.pub_hasModulus h h
    obtain rfl : e = doubled d.modulus c.raw := Option.some.inj (he.symm.trans hmul)
    rwa [two_mul]
  refine ⟨rfl, hvalid, ?_, ?_⟩
  · obtain ⟨v, v', hv, hv', hsum⟩ := d.paillierDec_mul h h hmul
    obtain rfl : v' = v := Option.some.inj (hv'.symm.trans hv)
    refine ⟨v', (dec_unsigned _ _).trans hv, ?_⟩
    rw [dec_unsigned, two_mul]
    exact hsum
  · intro hpq m h
    exact (dec_unsigned _ _).trans (PaillierKey.paillierDec_valid ⟨d, hpq⟩ (hvalid m h))

section Server

variable {s : RPCServer .privateKey} {cs : PaillierCryptosystem} {n : ℕ}

theorem addAssign_self (hn : cs.pub.HasModulus n) (r : ℤ) :
    Cipher.addAssign (⟨cs, r⟩ : Cipher .publicKey) ⟨cs, r⟩ = some ⟨cs, doubled n r⟩ := by
  change (paillierMul cs.pub r r).bind _ = _
  rw [paillierMul_self hn, Option.bind_some]

theorem procInnerProduct_eq (hcs : s.remoteCS = some cs) (hn : cs.pub.HasModulus n)
    {params : MsgObject} {raws : List ℤ} (hraws : vectorParam params = some raws) :
    procInnerProduct s params =
      some (.result (.array ((raws.map (doubled n)).map msgpackPack))) := by
  have hconverters : s.unpacker.converters .publicKey = [cs] := by
    rw [s.converters_publicKey, hcs]
    rfl
  have hadd : ∀ c ∈ raws.map (fun r => (⟨cs, r⟩ : Cipher .publicKey)),
      c.addAssign c = some ⟨cs, doubled n c.raw⟩ := by
    intro c hc
    obtain ⟨r, _, rfl⟩ := List.mem_map.mp hc
    exact addAssign_self hn r
  rw [procInnerProduct, unpack_vector, hraws, hconverters, Option.map_some, List.flatMap_singleton]
  simp only [Traverse.updateEach_eq_mapM, Traverse.mapM_eq_map hadd, Option.bind_eq_bind,
    Option.bind_some, packResult, List.map_map, Function.comp_def]

theorem vectorParam_array (o : MsgObject) :
    vectorParam (.array [o]) = o.asVector msgpackUnpack := by
  change ((o.asVector msgpackUnpack).bind fun x => some (x, PUnit.unit)).map Prod.fst = _
  cases o.asVector msgpackUnpack with
  | none => rfl
  | some x => rfl

theorem vectorParam_packVector {A : CipherClass} {v : List (Cipher A)}
    (h : ∀ c ∈ v, Transportable c.raw) :
    vectorParam (.array [packVector v]) = some (v.map Cipher.raw) := by
  rw [vectorParam_array]
  apply asVector_map
  intro r hr
  obtain ⟨c, hc, rfl⟩ := List.mem_map.mp hr
  exact msgpackUnpack_pack (h c hc)

theorem exists_vectorParam {A : CipherClass} (v : List (Cipher A)) :
    ∃ raws, vectorParam (.array [packVector v]) = some raws := by
  have hunpack : ∀ o ∈ (v.map Cipher.raw).map msgpackPack,
      ∃ r, msgpackUnpack o = some r ∧ True := by
    intro o ho
    obtain ⟨r, _, rfl⟩ := List.mem_map.mp ho
    exact ⟨_, rfl, trivial⟩
  obtain ⟨raws, hraws, _⟩ := Traverse.mapM_total hunpack
  exact ⟨raws, (vectorParam_array _).trans hraws⟩

theorem getLocalCipherVector_eq {d : KeygenDraw} (hdot : .innerProduct ∈ s.procs)
    (hs : s.remoteCS = some d.rebuilt) {client : RPCClient .privateKey}
    {own : PaillierCryptosystemPrivateKey} (hclient : client.localCS = some own)
    {A : CipherClass} {v : List (Cipher A)} {raws : List ℤ}
    (hraws : vectorParam (.array [packVector v]) = some raws) :
    client.getLocalCipherVector s Procedure.innerProduct.procName v =
      some (s, raws.map fun r => ⟨own, doubled d.modulus r⟩) := by
  have hn : d.rebuilt.pub.HasModulus d.modulus := d.rebuilt_pub ▸ d.pub_hasModulus
  have hresult : (MsgObject.array ((raws.map (doubled d.modulus)).map msgpackPack)).asVector
      msgpackUnpack = some (raws.map (doubled d.modulus)) := by
    apply asVector_map
    intro r hr
    obtain ⟨r', _, rfl⟩ := List.mem_map.mp hr
    exact msgpackUnpack_pack (d.transportable_doubled r')
  rw [RPCClient.getLocalCipherVector, dispatch_registered hdot, Procedure.run,
    procInnerProduct_eq hs hn hraws]
  simp only [Option.map_some, Option.bind_eq_bind, Option.bind_some, Response.get, hresult,
    RPCClient.localCiphers_eq hclient]
  rw [List.map_map]
  rfl

end Server

def dotCall (client : RPCClient .privateKey) (server : RPCServer .privateKey)
    (v : List (Cipher .privateKey)) : Option (RPCServer .privateKey) :=
  (client.getLocalCipherVector server Procedure.innerProduct.procName v).map Prod.fst

/-- After the handshake and any earlier calls, the call returns the doubles of the
vector sent; they are a function of the client's modulus and the vector alone. -/
theorem dot_call_doubles (d : KeygenDraw) (server₀ : RPCServer .privateKey)
    (hdot : .innerProduct ∈ server₀.procs) (earlier : List (List (Cipher .privateKey)))
    (v : List (Cipher .privateKey)) (hv : ∀ c ∈ v, ∃ m, ValidEnc d.modulus m c.raw) :
    ∃ server client server' out,
      RPCClient.new (T := .privateKey) d.cryptosystem server₀ = some (server, client) ∧
      exec (dotCall client) server earlier = some server' ∧
      client.getLocalCipherVector server' Procedure.innerProduct.procName v =
        some (server', out) ∧
      out = v.map (fun c => ⟨d.cryptosystem, doubled d.modulus c.raw⟩) ∧
      out.length = v.length ∧ List.Forall₂ (DoubleOf d) v out := by
  obtain ⟨server, client, hnew, hagreed⟩ := RPCClient.new_agreed d server₀
  have hserver : .innerProduct ∈ server.procs ∧ server.remoteCS = some d.rebuilt := by
    rw [hagreed.server_eq]
    exact ⟨hdot, rfl⟩
  have hcall : ∀ (s : RPCServer .privateKey) (w : List (Cipher .privateKey)),
      .innerProduct ∈ s.procs ∧ s.remoteCS = some d.rebuilt → True →
      ∃ s', dotCall client s w = some s' ∧
        .innerProduct ∈ s'.procs ∧ s'.remoteCS = some d.rebuilt := by
    intro s w ⟨hdot, hs⟩ _
    obtain ⟨raws, hraws⟩ := exists_vectorParam w
    refine ⟨s, ?_, hdot, hs⟩
    rw [dotCall, getLocalCipherVector_eq hdot hs hagreed.localCS hraws, Option.map_some]
  obtain ⟨server', hearlier, hdot', hs'⟩ :=
    exec_total _ _ hcall hserver (fun _ (_ : _ ∈ earlier) => trivial)
  have hraws : vectorParam (.array [packVector v]) = some (v.map Cipher.raw) :=
    vectorParam_packVector fun c hc => d.transportable_valid (hv c hc).choose_spec
  refine ⟨server, client, server', _, hnew, hearlier,
    getLocalCipherVector_eq hdot' hs' hagreed.localCS hraws, ?_, ?_, ?_⟩
  · rw [List.map_map]
    rfl
  · rw [List.length_map, List.length_map]
  · rw [List.map_map, List.forall₂_map_right_iff, List.forall₂_same]
    intro c hc
    obtain ⟨m, hm⟩ := hv c hc
    exact doubleOf_doubled d hm

theorem dot_call_doubles_sample :
    ∃ server client out,
      RPCClient.new (T := .privateKey) sampleKey.cryptosystem sampleDotServer =
        some (server, client) ∧
      client.getLocalCipherVector server Procedure.innerProduct.procName
        [(⟨sampleKey.cryptosystem, 36⟩ : Cipher .privateKey)] = some (server, out) ∧
      out.map Cipher.raw = [71] := by
  obtain ⟨server, client, server', out, hnew, hearlier, hcall, hout, _⟩ :=
    dot_call_doubles sampleKey.toKeygenDraw sampleDotServer (by decide) []
      [⟨sampleKey.cryptosystem, 36⟩] (by
        intro c hc
        rw [List.mem_singleton.mp hc]
        exact ⟨1, 1, by decide, by decide⟩)
  obtain rfl : server = server' := Option.some.inj hearlier
  refine ⟨server, client, out, hnew, hcall, ?_⟩
  rw [hout]
  rfl

end PPFramework
