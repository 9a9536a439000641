import PPFramework.Rpc.InnerProduct

/-!
Several clients of one server. The server has one slot for a client's key, and no
request names its sender, so an exchange by any client replaces the key for all.
What an inner product is computed under is therefore a function of the order of the
exchanges: the key of the last one, whoever sent it.
-/

namespace PPFramework
open Gmp PartialRun

variable {I : Type}

inductive ClientCall (I : Type)
  | exchange (i : I)
  | dot (i : I) (v : List (Cipher .privateKey))

def ClientCall.exchangedBy : ClientCall I → Option I
  | exchange i => some i
  | dot _ _ => none

def lastExchange (calls : List (ClientCall I)) : Option I :=
  (calls.filterMap ClientCall.exchangedBy).getLast?

def clientOf (key : PaillierKey) (remoteCS : Option PaillierCryptosystem) :
    RPCClient .privateKey where
  localCS := some key.cryptosystem
  remoteCS := remoteCS

/-- One call against the shared server, with the vector that an inner product returns. -/
def serveCall (keys : I → PaillierKey) (server : RPCServer .privateKey) :
    ClientCall I → Option (RPCServer .privateKey × List (Cipher .privateKey))
  | .exchange i =>
      (RPCClient.new (T := .privateKey) (keys i).cryptosystem server).map fun r => (r.1, [])
  | .dot i v =>
      (clientOf (keys i) none).getLocalCipherVector server Procedure.innerProduct.procName v

/-- The requests of every client: its own exchange first, and only ciphers of its own key. -/
structure WellOrdered (keys : I → PaillierKey) (calls : List (ClientCall I)) : Prop where
  exchanged : ∀ before i v after, calls = before ++ .dot i v :: after → .exchange i ∈ before
  valid : ∀ i v, .dot i v ∈ calls → ∀ c ∈ v, ∃ m, ValidEnc (keys i).modulus m c.raw

structure SharedServer (keys : I → PaillierKey) (holder : Option I)
    (server : RPCServer .privateKey) : Prop where
  dot_mem : .innerProduct ∈ server.procs
  remoteCS : server.remoteCS = holder.map fun j => (keys j).rebuilt

section Step

variable {keys : I → PaillierKey} {server : RPCServer .privateKey}

theorem serveCall_exchange {holder : Option I} (h : SharedServer keys holder server) (i : I) :
    ∃ server', serveCall keys server (.exchange i) = some (server', []) ∧
      SharedServer keys (some i) server' := by
  obtain ⟨server', client, hnew, hagreed⟩ := RPCClient.new_agreed (keys i).toKeygenDraw server
  refine ⟨server', by rw [serveCall, hnew, Option.map_some], ?_⟩
  rw [hagreed.server_eq]
  exact ⟨h.dot_mem, rfl⟩

theorem serveCall_dot {j : I} (h : SharedServer keys (some j) server) (i : I)
    {v : List (Cipher .privateKey)} (hv : ∀ c ∈ v, ∃ m, ValidEnc (keys i).modulus m c.raw) :
    serveCall keys server (.dot i v) =
      some (server, v.map fun c => ⟨(keys i).cryptosystem, doubled (keys j).modulus c.raw⟩) := by
  have hraws : vectorParam (.array [packVector v]) = some (v.map Cipher.raw) :=
    vectorParam_packVector fun c hc => (keys i).transportable_valid (hv c hc).choose_spec
  rw [serveCall, getLocalCipherVector_eq h.dot_mem h.remoteCS rfl hraws, List.map_map]
  rfl

end Step

theorem lastExchange_append_exchange (calls : List (ClientCall I)) (i : I) :
    lastExchange (calls ++ [.exchange i]) = some i := by
  simp [lastExchange, ClientCall.exchangedBy]

theorem lastExchange_append_dot (calls : List (ClientCall I)) (i : I)
    (v : List (Cipher .privateKey)) :
    lastExchange (calls ++ [.dot i v]) = lastExchange calls := by
  simp [lastExchange, ClientCall.exchangedBy]

theorem exists_lastExchange {calls : List (ClientCall I)} {i : I} (h : .exchange i ∈ calls) :
    ∃ j, lastExchange calls = some j := by
  have hmem : i ∈ calls.filterMap ClientCall.exchangedBy :=
    List.mem_filterMap.mpr ⟨.exchange i, h, rfl⟩
  cases hlast : lastExchange calls with
  | none =>
      rw [lastExchange, List.getLast?_eq_none_iff] at hlast
      rw [hlast] at hmem
      cases hmem
  | some j => exact ⟨j, rfl⟩

theorem WellOrdered.of_append {keys : I → PaillierKey} {calls rest : List (ClientCall I)}
    (h : WellOrdered keys (calls ++ rest)) : WellOrdered keys calls where
  exchanged := by
    intro before i v after heq
    apply h.exchanged before i v (after ++ rest)
    rw [heq, List.append_assoc, List.cons_append]
  valid := fun i v hmem => h.valid i v (List.mem_append_left rest hmem)

theorem run_serveCall {keys : I → PaillierKey} {server₀ : RPCServer .privateKey}
    (h₀ : SharedServer keys none server₀) (calls : List (ClientCall I))
    (h : WellOrdered keys calls) :
    ∃ server outs, run (serveCall keys) server₀ calls = some (server, outs) ∧
      SharedServer keys (lastExchange calls) server := by
  induction calls using List.reverseRecOn with
  | nil => exact ⟨server₀, [], rfl, h₀⟩
  | append_singleton calls call ih =>
      obtain ⟨server, outs, hrun, hshared⟩ := ih h.of_append
      cases call with
      -- the slot is overwritten, whoever held it
      | exchange i =>
          obtain ⟨server', hcall, hshared'⟩ := serveCall_exchange hshared i
          exact ⟨server', _, run_snoc hrun hcall,
            lastExchange_append_exchange calls i ▸ hshared'⟩
      | dot i v =>
          obtain ⟨j, hj⟩ := exists_lastExchange (h.exchanged calls i v [] rfl)
          have hcall := serveCall_dot (hj ▸ hshared) i
            (h.valid i v (List.mem_append_right calls List.mem_cons_self))
          exact ⟨server, _, run_snoc hrun hcall, lastExchange_append_dot calls i v ▸ hshared⟩

/-- In every interleaving each inner product is served under the key of the last client
to exchange keys before it; when that is the sender, it gets its doubles. -/
theorem dot_served_under_last_exchange (keys : I → PaillierKey) (server₀ : RPCServer .privateKey)
    (hdot : .innerProduct ∈ server₀.procs) (hfresh : server₀.remoteCS = none)
    (calls : List (ClientCall I)) (h : WellOrdered keys calls) :
    ∃ server outs, run (serveCall keys) server₀ calls = some (server, outs) ∧
      ∀ before i v after, calls = before ++ .dot i v :: after →
        ∃ j out, lastExchange before = some j ∧ outs[before.length]? = some out ∧
          out = v.map (fun c =>
            ⟨(keys i).cryptosystem, doubled (keys j).modulus c.raw⟩) ∧
          (j = i → List.Forall₂ (DoubleOf (keys i).toKeygenDraw) v out) := by
  have h₀ : SharedServer keys none server₀ := ⟨hdot, hfresh⟩
  obtain ⟨server, outs, hrun, _⟩ := run_serveCall h₀ calls h
  refine ⟨server, outs, hrun, ?_⟩
  intro before i v after heq
  subst heq
  have hv : ∀ c ∈ v, ∃ m, ValidEnc (keys i).modulus m c.raw :=
    h.valid i v (List.mem_append_right before List.mem_cons_self)
  obtain ⟨server₁, outs₁, hbefore, hshared⟩ := run_serveCall h₀ before h.of_append
  obtain ⟨j, hj⟩ := exists_lastExchange (h.exchanged before i v after rfl)
  have hcall := serveCall_dot (hj ▸ hshared) i hv
  refine ⟨j, _, hj, run_output_at hbefore hcall hrun, rfl, ?_⟩
  intro hji
  subst hji
  rw [List.forall₂_map_right_iff, List.forall₂_same]
  intro c hc
  obtain ⟨m, hm⟩ := hv c hc
  exact doubleOf_doubled (keys j).toKeygenDraw hm

def sampleKey' : PaillierKey where
  modulusbits := 8
  p := 11
  q := 13
  accepted := ⟨by decide, by decide, by decide, by decide, by decide, by decide⟩
  distinct := by decide

def sampleKeys : Bool → PaillierKey
  | true => sampleKey
  | false => sampleKey'

def sampleVector : List (Cipher .privateKey) :=
  [⟨sampleKey.cryptosystem, 648⟩]

theorem sampleVector_valid : ∀ c ∈ sampleVector, ValidEnc sampleKey.modulus 1 c.raw := by
  intro c hc
  rw [List.mem_singleton.mp hc]
  exact ⟨2, by decide, by decide⟩

theorem dot_served_under_last_exchange_sample :
    ∃ server outs, run (serveCall sampleKeys) sampleDotServer
        [.exchange false, .exchange true, .dot true sampleVector] = some (server, outs) ∧
      ∃ out, outs[2]? = some out ∧
        List.Forall₂ (DoubleOf sampleKey.toKeygenDraw) sampleVector out := by
  have h : WellOrdered sampleKeys [.exchange false, .exchange true, .dot true sampleVector] := by
    constructor
    · intro before i v after heq
      match before with
      | [] | [_] => simp at heq
      | [_, _] =>
          simp only [List.cons_append, List.nil_append, List.cons.injEq,
            ClientCall.dot.injEq] at heq
          obtain ⟨rfl, rfl, ⟨rfl, _⟩, _⟩ := heq
          exact List.mem_cons_of_mem _ List.mem_cons_self
      | _ :: _ :: _ :: _ => simp at heq
    · intro i v hmem c hc
      simp only [List.mem_cons, reduceCtorEq, ClientCall.dot.injEq, List.not_mem_nil, or_false,
        false_or] at hmem
      obtain ⟨rfl, rfl⟩ := hmem
      exact ⟨1, sampleVector_valid c hc⟩
  obtain ⟨server, outs, hrun, hdots⟩ := dot_served_under_last_exchange sampleKeys
    sampleDotServer (by decide) rfl _ h
  obtain ⟨j, out, hj, hout, _, hdouble⟩ := hdots [.exchange false, .exchange true] true
    sampleVector [] rfl
  obtain rfl : true = j := Option.some.inj hj
  exact ⟨server, outs, hrun, out, hout, hdouble rfl⟩

/-- Both clients exchange keys, then the first one sends its encryption of 1: the answer
is computed under the second client's key and decrypts to 10. -/
theorem other_client_key_corrupts :
    (∀ c ∈ sampleVector, ValidEnc sampleKey.modulus 1 c.raw) ∧
    ∃ server outs, run (serveCall sampleKeys) sampleDotServer
        [.exchange true, .exchange false, .dot true sampleVector] = some (server, outs) ∧
      outs.map (List.map Cipher.raw) = [[], [], [10924]] ∧
      sampleKey.cryptosystem.dec 10924 false = some 10 ∧ (2 : ℤ) * 1 % sampleKey.modulus ≠ 10 := by
  refine ⟨sampleVector_valid, ?_⟩
  have h₀ : SharedServer sampleKeys none sampleDotServer := ⟨by decide, rfl⟩
  obtain ⟨server₁, hfirst, h₁⟩ := serveCall_exchange h₀ true
  obtain ⟨server₂, hsecond, h₂⟩ := serveCall_exchange h₁ false
  have hdot := serveCall_dot h₂ true fun c hc => ⟨1, sampleVector_valid c hc⟩
  have hrun₁ : run (serveCall sampleKeys) sampleDotServer [.exchange true] = some (server₁, [[]]) :=
    run_cons_eq_some.mpr ⟨server₁, [], [], hfirst, rfl, rfl⟩
  have hrun := run_snoc (run_snoc hrun₁ hsecond) hdot
  refine ⟨server₂, _, hrun, ?_⟩
  exact ⟨by decide, by decide +kernel, by decide⟩

end PPFramework
