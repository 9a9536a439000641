import PPFramework.Rpc.KeyExchange

/-!
What a server's answers depend on. Seen from outside, a server is what it was built
with and the last key it received: these decide each answer, and whether there is
one. A vector of ciphers that meets a modulus of zero divides by it, and that is the
only way a request ends the process.
-/

namespace PPFramework
open Gmp PartialRun

variable {T : CipherClass}

namespace RPCServer

/-- The cryptosystems a vector of ciphers is unpacked with. -/
def keys (s : RPCServer T) (remoteCS : Option PaillierCryptosystem) : List PaillierCryptosystem :=
  remoteCS.toList ++ CryptosystemType.forType s.localCS .publicKey

/-- The request reaches the inner product of this server with a cipher to work on. -/
structure CallsDot (s : RPCServer T) (req : Request) : Prop where
  method : req.method.asString = some Procedure.innerProduct.procName
  registered : .innerProduct ∈ s.procs
  vector : ∃ raws, vectorParam req.params = some raws ∧ raws ≠ []

def answerDot (keys : List PaillierCryptosystem) : Option (List ℤ) → Response
  | none => .error .argument
  | some raws => .result (.array (keys.flatMap fun cs =>
      raws.map fun r => msgpackPack (r * r % cs.pub.nSquared)))

/-- The answer to a request after the key `remoteCS` was received last. -/
def answer (s : RPCServer T) (remoteCS : Option PaillierCryptosystem) (req : Request) : Response :=
  match req.method.asString with
  | none => .error .argument
  | some name =>
      if name = Procedure.exchangePublicKeys.procName then .result (.raw s.publicKey)
      else if name = Procedure.innerProduct.procName ∧ .innerProduct ∈ s.procs then
        answerDot (s.keys remoteCS) (vectorParam req.params)
      else .error .noMethod

end RPCServer

section InnerProduct

variable {s : RPCServer T}

theorem addAssign_eq (c d : Cipher .publicKey) :
    c.addAssign d =
      if c.cs.pub.nSquared = 0 then none
      else some { c with raw := c.raw * d.raw % c.cs.pub.nSquared } := by
  change (mpzMod (c.raw * d.raw) c.cs.pub.nSquared).bind _ = _
  rw [mpzMod]
  split_ifs with h
  · rfl
  · rfl

theorem nSquared_eq_zero_iff (cs : PaillierCryptosystem) : cs.pub.nSquared = 0 ↔ cs.pub.n = 0 := by
  rw [cs.pub.nSquared_eq, mul_self_eq_zero]

theorem procInnerProduct_eq_none_iff {params : MsgObject} :
    procInnerProduct s params = none ↔
      (∃ raws, vectorParam params = some raws ∧ raws ≠ []) ∧
        ∃ cs ∈ s.keys s.remoteCS, cs.pub.n = 0 := by
  rw [procInnerProduct, unpack_vector, s.converters_publicKey]
  cases vectorParam params with
  | none => simp
  | some raws =>
      simp only [Option.map_some, Traverse.updateEach_eq_mapM, Option.bind_eq_bind,
        Option.bind_eq_none_iff, reduceCtorEq, imp_false, ← Option.eq_none_iff_forall_ne_some,
        Traverse.mapM_eq_none_iff, addAssign_eq, ite_eq_left_iff, Option.some.injEq,
        exists_eq_left', not_not]
      constructor
      · rintro ⟨c, hc, hzero⟩
        obtain ⟨cs, hcs, hc⟩ := List.mem_flatMap.mp hc
        obtain ⟨r, hr, rfl⟩ := List.mem_map.mp hc
        exact ⟨List.ne_nil_of_mem hr, cs, hcs, (nSquared_eq_zero_iff cs).mp hzero⟩
      · rintro ⟨hne, cs, hcs, hn⟩
        obtain ⟨r, hr⟩ := List.exists_mem_of_ne_nil raws hne
        exact ⟨⟨cs, r⟩, List.mem_flatMap.mpr ⟨cs, hcs, List.mem_map_of_mem hr⟩,
          (nSquared_eq_zero_iff cs).mpr hn⟩

theorem procInnerProduct_answer {params : MsgObject} {response : Response}
    (h : procInnerProduct s params = some response) :
    response = RPCServer.answerDot (s.keys s.remoteCS) (vectorParam params) := by
  rw [procInnerProduct, unpack_vector, s.converters_publicKey] at h
  cases hparam : vectorParam params with
  | none =>
      rw [hparam] at h
      exact (Option.some.inj h).symm
  | some raws =>
      rw [hparam, Option.map_some] at h
      obtain ⟨v, hv, hresponse⟩ := Option.bind_eq_some_iff.mp h
      rw [Traverse.updateEach_eq_mapM] at hv
      have hmap := Traverse.eq_map_of_mapM (g := fun c : Cipher .publicKey =>
        { c with raw := c.raw * c.raw % c.cs.pub.nSquared }) hv (by
          intro c e hce
          rw [addAssign_eq] at hce
          split_ifs at hce with hne
          exact (Option.some.inj hce).symm)
      rw [← Option.some.inj hresponse, hmap]
      simp [RPCServer.answerDot, packResult, RPCServer.keys, List.map_flatMap, Function.comp_def]

end InnerProduct

section Dispatch

variable {s s' : RPCServer T} {req : Request} {response : Response}

theorem dispatch_dot (h : req.method.asString = some Procedure.innerProduct.procName)
    (hdot : .innerProduct ∈ s.procs) :
    dispatch s req = (procInnerProduct s req.params).map fun response => (s, response) := by
  simp only [dispatch, h, find_procName hdot, Procedure.run]

/-- The four ways of a request through `dispatch`. -/
theorem dispatch_cases (s : RPCServer T) (req : Request) :
    (req.method.asString = none ∧ dispatch s req = some (s, .error .argument)) ∨
    (req.method.asString = some Procedure.exchangePublicKeys.procName ∧
      dispatch s req =
        some ({ s with remoteCS := installKey s.remoteCS req }, .result (.raw s.publicKey))) ∨
    (req.method.asString = some Procedure.innerProduct.procName ∧ .innerProduct ∈ s.procs ∧
      dispatch s req = (procInnerProduct s req.params).map fun response => (s, response)) ∨
    (∃ name, req.method.asString = some name ∧ (∀ proc ∈ s.procs, proc.procName ≠ name) ∧
      dispatch s req = some (s, .error .noMethod)) := by
  cases hmethod : req.method.asString with
  | none => exact .inl ⟨rfl, by simp only [dispatch, hmethod]⟩
  | some name =>
      by_cases hname : ∃ proc ∈ s.procs, proc.procName = name
      · obtain ⟨proc, hproc, rfl⟩ := hname
        cases proc with
        | exchangePublicKeys => exact .inr (.inl ⟨rfl, dispatch_exchange s hmethod⟩)
        | innerProduct => exact .inr (.inr (.inl ⟨rfl, hproc, dispatch_dot hmethod hproc⟩))
      · have hall : ∀ proc ∈ s.procs, proc.procName ≠ name :=
          fun proc hproc heq => hname ⟨proc, hproc, heq⟩
        have hfind : s.procs.find? (fun proc => proc.procName == name) = none := by
          simpa [List.find?_eq_none] using hall
        exact .inr (.inr (.inr ⟨name, rfl, hall, by simp only [dispatch, hmethod, hfind]⟩))

theorem dot_ne_exchange :
    Procedure.innerProduct.procName ≠ Procedure.exchangePublicKeys.procName :=
  fun h => nomatch procName_injective h

theorem dispatch_eq_none_iff :
    dispatch s req = none ↔ s.CallsDot req ∧ ∃ cs ∈ s.keys s.remoteCS, cs.pub.n = 0 := by
  obtain ⟨hmethod, hd⟩ | ⟨hmethod, hd⟩ | ⟨hmethod, hreg, hd⟩ | ⟨name, hmethod, hall, hd⟩ :=
    dispatch_cases s req
  · rw [hd]
    exact iff_of_false (Option.some_ne_none _) fun h => nomatch hmethod.symm.trans h.1.method
  · rw [hd]
    refine iff_of_false (Option.some_ne_none _) fun h => dot_ne_exchange ?_
    exact Option.some.inj (h.1.method.symm.trans hmethod)
  · rw [hd, Option.map_eq_none_iff, procInnerProduct_eq_none_iff]
    exact and_congr_left fun _ => ⟨fun h => ⟨hmethod, hreg, h⟩, fun h => h.vector⟩
  · rw [hd]
    refine iff_of_false (Option.some_ne_none _) fun h => hall _ h.1.registered ?_
    exact Option.some.inj (h.1.method.symm.trans hmethod)

theorem dispatch_answer (h : dispatch s req = some (s', response)) :
    response = s.answer s.remoteCS req := by
  obtain ⟨hmethod, hd⟩ | ⟨hmethod, hd⟩ | ⟨hmethod, hreg, hd⟩ | ⟨name, hmethod, hall, hd⟩ :=
    dispatch_cases s req
  · rw [hd, Option.some.injEq, Prod.mk.injEq] at h
    simp only [RPCServer.answer, hmethod, ← h.2]
  · rw [hd, Option.some.injEq, Prod.mk.injEq] at h
    simp only [RPCServer.answer, hmethod, ← h.2, if_true]
  · rw [hd] at h
    obtain ⟨answer, hanswer, heq⟩ := Option.map_eq_some_iff.mp h
    rw [← (Prod.mk.inj heq).2, procInnerProduct_answer hanswer]
    simp only [RPCServer.answer, hmethod, if_neg dot_ne_exchange, hreg, true_and, if_true]
  · rw [hd, Option.some.injEq, Prod.mk.injEq] at h
    have hexchange := hall _ s.exchange_mem
    have hdot : ¬ (name = Procedure.innerProduct.procName ∧ .innerProduct ∈ s.procs) :=
      fun hdot => hall _ hdot.2 hdot.1.symm
    simp only [RPCServer.answer, hmethod, ← h.2, if_neg hexchange.symm, if_neg hdot]

end Dispatch

section Runs

variable {s₀ s : RPCServer T} {reqs : List Request} {responses : List Response}

theorem run_lastKey (hrun : run dispatch s₀ reqs = some (s, responses)) :
    s = { s₀ with remoteCS := lastKey s₀.remoteCS reqs } := by
  have hkey : s.remoteCS = lastKey s₀.remoteCS reqs :=
    (run_remoteCS hrun).trans (foldl_installKey _ _)
  obtain ⟨hlocal, hprocs⟩ := run_localCS hrun
  cases s with
  | mk localCS remoteCS procs _ =>
      subst hkey hlocal hprocs
      rfl

def sampleDot : Request :=
  callRequest Procedure.innerProduct.procName [.array [.array [.raw [36]]]]

/-- In a completed run each answer is the one that the server's own data and the last key
before it give. -/
theorem answers_of_lastKey (hrun : run dispatch s₀ reqs = some (s, responses))
    {before after : List Request} {req : Request} (hreqs : reqs = before ++ req :: after) :
    responses[before.length]? = some (s₀.answer (lastKey s₀.remoteCS before) req) := by
  subst hreqs
  obtain ⟨s₁, _, _, hbefore, hafter, _⟩ := run_append_eq_some.mp hrun
  obtain ⟨s₂, response, _, hstep, _⟩ := run_cons_eq_some.mp hafter
  rw [run_output_at hbefore hstep hrun, dispatch_answer hstep, run_lastKey hbefore]
  rfl

theorem answers_of_lastKey_sample :
    ∃ s responses, run dispatch sampleDotServer [sampleExchange "23", sampleDot] =
        some (s, responses) ∧
      responses[1]? = some (.result (.array [msgpackPack 71])) := by
  obtain ⟨s, responses, hrun⟩ : ∃ s responses,
      run dispatch sampleDotServer [sampleExchange "23", sampleDot] = some (s, responses) :=
    ⟨_, _, rfl⟩
  exact ⟨s, responses, hrun, answers_of_lastKey hrun (List.singleton_append).symm⟩

theorem dispatch_quiet {s s' : RPCServer T} {req : Request} {response : Response}
    (hquiet : req.keyString = none) (hstep : dispatch s req = some (s', response)) : s' = s := by
  rw [dispatch_state hstep, installKey, hquiet]

end Runs

section PrivateKey

/-- Two private-key servers with the same modulus that hold the same client's key. -/
structure SameFromOutside (s t : RPCServer .privateKey) : Prop where
  publicKey : s.publicKey = t.publicKey
  remoteCS : s.remoteCS = t.remoteCS
  procs : s.procs = t.procs

theorem procInnerProduct_sameFromOutside {s t : RPCServer .privateKey} (h : SameFromOutside s t)
    (params : MsgObject) : procInnerProduct s params = procInnerProduct t params := by
  have hconverters : s.unpacker.converters .publicKey = t.unpacker.converters .publicKey := by
    rw [s.converters_publicKey, t.converters_publicKey, h.remoteCS]
    rfl
  rw [procInnerProduct, procInnerProduct, unpack_vector, unpack_vector, hconverters]

theorem dispatch_sameFromOutside (s t : RPCServer .privateKey) (req : Request)
    (h : SameFromOutside s t) :
    Option.Rel (fun x y => SameFromOutside x.1 y.1 ∧ x.2 = y.2) (dispatch s req)
      (dispatch t req) := by
  simp only [dispatch, h.procs]
  cases req.method.asString with
  | none => exact .some ⟨h, rfl⟩
  | some name =>
      cases hfind : t.procs.find? fun proc => proc.procName == name with
      | none =>
          simp only [hfind]
          exact .some ⟨h, rfl⟩
      | some proc =>
          simp only [hfind]
          cases proc with
          | exchangePublicKeys =>
              simp only [Procedure.run, procExchangePublicKeys_eq, h.publicKey, h.remoteCS]
              exact .some ⟨⟨h.publicKey, rfl, h.procs⟩, rfl⟩
          | innerProduct =>
              simp only [Procedure.run, procInnerProduct_sameFromOutside h]
              cases procInnerProduct t req.params with
              | none => exact .none
              | some response => exact .some ⟨h, rfl⟩

/-- No sequence of requests tells apart two private-key servers that differ in their keys
but have the same modulus. -/
theorem private_key_not_revealed (s t : RPCServer .privateKey) (h : SameFromOutside s t)
    (reqs : List Request) :
    (run dispatch s reqs).map Prod.snd = (run dispatch t reqs).map Prod.snd := by
  have hrun := run_bisimulation SameFromOutside dispatch_sameFromOutside h reqs
  generalize run dispatch s reqs = r, run dispatch t reqs = r' at hrun
  cases hrun with
  | none => rfl
  | some hrun => exact congrArg some hrun.2

theorem private_key_not_revealed_sample :
    (run dispatch sampleDotServer [sampleExchange "23", sampleDot]).map Prod.snd =
      (run dispatch ((RPCServer.new (T := .privateKey)
        (some { sampleKey.cryptosystem with prv := ⟨1, 0⟩ })).registerProc .innerProduct)
        [sampleExchange "23", sampleDot]).map Prod.snd :=
  private_key_not_revealed _ _ ⟨rfl, rfl, rfl⟩ _

end PrivateKey

end PPFramework
