import PPFramework.Paillier.Expressions
import PPFramework.Rpc.History
import PPFramework.Rpc.Transport

/-!
A call with its whole tuple of arguments, and procedures of the shape that a subclass
of `Procedure` has: unpack the parameters, compute on ciphers, pack the result. The
inner product is one of them.

A client can leave any program of homomorphic operators to such a procedure: it sends
the inputs, the server computes under the client's public key, and the client decrypts
what the program gives on integers.
-/

namespace PPFramework
open Gmp PartialRun

/-- A type that `replace_type` keeps, with what MessagePack makes of its values. -/
structure ClearArg extends ClearType where
  pack : carrier → MsgObject

/-- An argument of `call`. -/
inductive Arg
  | clear (t : ClearArg) (x : t.carrier)
  | ciphers (A : CipherClass) (s : CipherShape) (x : s.Of (Cipher A))

namespace Arg

/-- The element of `postArgs` that `packConditional` fills in, as it is sent. -/
def packed : Arg → MsgObject
  | clear t x => t.pack x
  | ciphers _ s x => s.pack (packConditional s x)

/-- The raw value arrives when its type agrees. -/
def Portable : Arg → Prop
  | clear t x => t.convert (t.pack x) = some x
  | ciphers _ s x => s.All (fun c => Transportable c.raw) x

/-- The parameter type takes the argument, whose raw value is the last index. The ciphers
may be of different classes on the two sides. -/
inductive Sends : Arg → (t : ParamType) → t.Raw → Prop
  | clear (t : ClearArg) (x : t.carrier) : Sends (.clear t x) (.clear t.toClearType) x
  | vector (A T2 : CipherClass) (x : List (Cipher A)) :
      Sends (.ciphers A .vector x) (.vector T2) (x.map Cipher.raw)
  | matrix (A T2 : CipherClass) (x : List (List (Cipher A))) :
      Sends (.ciphers A .matrix x) (.matrix T2) (x.map fun v => v.map Cipher.raw)

/-- The arguments for all parameters; the conversion ignores what is left over. -/
def SendsAll : List Arg → (ts : List ParamType) → ts.TProd ParamType.Raw → Prop
  | _, [], _ => True
  | [], _ :: _, _ => False
  | a :: args, t :: ts, (x, xs) => a.Sends t x ∧ SendsAll args ts xs

theorem convert_packed {a : Arg} {t : ParamType} {x : t.Raw} (h : a.Sends t x)
    (ha : a.Portable) : t.convert a.packed = some x := by
  cases h with
  | clear t x => exact ha
  | vector A T2 x =>
      rw [packed, packConditional_eq]
      exact CipherShape.convert_pack (s := .vector) (CipherShape.all_map.mpr ha)
  | matrix A T2 x =>
      rw [packed, packConditional_eq]
      exact CipherShape.convert_pack (s := .matrix) (CipherShape.all_map.mpr ha)

theorem convertItems_packed {args : List Arg} {ts : List ParamType} {xs : ts.TProd ParamType.Raw}
    (h : SendsAll args ts xs) (hargs : ∀ a ∈ args, a.Portable) :
    convertItems ts (args.map packed) = some xs := by
  induction ts generalizing args with
  | nil => rfl
  | cons t ts ih =>
      cases args with
      | nil => exact h.elim
      | cons a args =>
          obtain ⟨x, xs⟩ := xs
          have hx := convert_packed h.1 (hargs a List.mem_cons_self)
          have hxs := ih h.2 fun b hb => hargs b (List.mem_cons_of_mem a hb)
          rw [List.map_cons, convertItems, hx, hxs]
          rfl

end Arg

/-- `RPCClient::call(std::tuple<Args...>)`, up to sending it; the name is the first argument. -/
def callTuple (method : List UInt8) (args : List Arg) : Request :=
  callRequest method (args.map Arg.packed)

section Unpacking

variable {T : CipherClass}

/-- Every cipher of a parameter is on a cryptosystem that the server holds for its type. -/
def OnKeys (s : RPCServer T) : (ts : List ParamType) → ts.TProd ParamType.Out → Prop
  | [], _ => True
  | .clear _ :: ts, (_, xs) => OnKeys s ts xs
  | .vector T2 :: ts, (x, xs) =>
      (∀ c ∈ x, c.cs ∈ s.unpacker.converters T2) ∧ OnKeys s ts xs
  | .matrix T2 :: ts, (x, xs) =>
      (∀ v ∈ x, ∀ c ∈ v, c.cs ∈ s.unpacker.converters T2) ∧ OnKeys s ts xs

theorem onKeys_transform (s : RPCServer T) (ts : List ParamType) (xs : ts.TProd ParamType.Raw) :
    OnKeys s ts (transformTuple s.unpacker ts (initTuple ts) xs) := by
  induction ts with
  | nil => trivial
  | cons t ts ih =>
      obtain ⟨x, xs⟩ := xs
      cases t with
      | clear t => exact ih xs
      | vector T2 =>
          refine ⟨?_, ih xs⟩
          intro c hc
          rw [ParamType.init, s.unpacker.apply_vector] at hc
          obtain ⟨cs, hcs, hc⟩ := List.mem_flatMap.mp hc
          obtain ⟨r, _, rfl⟩ := List.mem_map.mp hc
          exact hcs
      | matrix T2 =>
          refine ⟨?_, ih xs⟩
          intro v hv c hc
          rw [ParamType.init, s.unpacker.apply_matrix] at hv
          obtain ⟨cs, hcs, hv⟩ := List.mem_flatMap.mp hv
          obtain ⟨w, _, rfl⟩ := List.mem_map.mp hv
          obtain ⟨r, _, rfl⟩ := List.mem_map.mp hc
          exact hcs

theorem unpack_callTuple (s : RPCServer T) {method : List UInt8} {args : List Arg}
    {ts : List ParamType} {xs : ts.TProd ParamType.Raw} (h : Arg.SendsAll args ts xs)
    (hargs : ∀ a ∈ args, a.Portable) :
    unpack s.unpacker ts (callTuple method args).params =
      some (transformTuple s.unpacker ts (initTuple ts) xs) := by
  have hconvert : convertTuple ts (callTuple method args).params = some xs :=
    Arg.convertItems_packed h hargs
  rw [unpack, hconvert, Option.bind_eq_bind, Option.bind_some]

def sampleArgs : List Arg :=
  [.clear { toClearType := stringType, pack := .raw } (asciiBytes "row"),
    .ciphers .publicKey .matrix [[sampleCipher], [sampleCipher, sampleCipher]]]

end Unpacking

section Procedures

variable {T : CipherClass}

/-- `run` of a procedure that unpacks, computes and packs its result. -/
def runProcedure (s : RPCServer T) (ts : List ParamType) (shape : CipherShape) {B : CipherClass}
    (body : ts.TProd ParamType.Out → Option (shape.Of (Cipher B))) (params : MsgObject) :
    Option Response :=
  match unpack s.unpacker ts params with
  | none => some (.error .argument)
  | some out => (body out).map fun t => .result (packResultShape shape t)

theorem procInnerProduct_eq_runProcedure (s : RPCServer T) (params : MsgObject) :
    procInnerProduct s params =
      runProcedure s [.vector T.publicKeyCSType] .vector
        (fun out => Traverse.updateEach (fun c => c.addAssign c) out.1) params := by
  rw [procInnerProduct, runProcedure]
  cases unpack s.unpacker [.vector T.publicKeyCSType] params with
  | none => rfl
  | some out =>
      simp only [Option.map_eq_bind, packResult_eq_packResultShape]
      rfl

/-- A packed result comes back on the client's cryptosystem. -/
theorem getCiphers_result (cs : CryptosystemType T) {shape : CipherShape} {B : CipherClass}
    {x : shape.Of (Cipher B)} (hx : shape.All (fun c => Transportable c.raw) x) :
    getCiphers (some cs) shape (.result (packResultShape shape x)) =
      some (shape.map (fun c => ⟨cs, c.raw⟩) x) := by
  have hconvert := CipherShape.convert_pack (CipherShape.all_map.mpr hx)
  rw [getCiphers, Response.get, packResultShape, packConditional_eq, hconvert,
    Option.bind_eq_bind, Option.bind_some, ciphersOn_eq]
  cases shape with
  | single => rfl
  | vector => simp [CipherShape.map, Function.comp_def]
  | matrix => simp [CipherShape.map, Function.comp_def]

/-- The body of a procedure whose locals are ciphers of `*remoteCS`: the vector it was sent
are the first variables of the program, and `outs` are the variables it returns. -/
def programBody (remoteCS : Option PaillierCryptosystem) (d : ℕ) (prog : List CipherStmt)
    (outs : List ℕ) (v : List (Cipher .publicKey)) : Option (List (Cipher .publicKey)) := do
  let cs ← remoteCS
  let σ ← exec (stepInstr cs.additive.operators) (fun i => ((v[i]?).map Cipher.raw).getD 0)
    (emitProgram d prog)
  some (outs.map fun i => ⟨cs, σ i⟩)

/-- The call of such a procedure, from the vector sent to the vector received. -/
def RPCClient.callProgram (client : RPCClient .privateKey) (server : RPCServer T) (d : ℕ)
    (prog : List CipherStmt) (outs : List ℕ) (v : List (Cipher .privateKey)) :
    Option (List (Cipher .privateKey)) := do
  let response ← runProcedure server [.vector .publicKey] .vector
    (fun out => programBody server.remoteCS d prog outs out.1) (.array [packVector v])
  client.getLocalCipherVectorFrom response

theorem run_quiet {s : RPCServer .privateKey} {cs : PaillierCryptosystem}
    (hcs : s.remoteCS = some cs) (hn : cs.pub.n ≠ 0) {reqs : List Request}
    (hquiet : ∀ req ∈ reqs, req.keyString = none) :
    ∃ responses, run dispatch s reqs = some (s, responses) := by
  have hstep : ∀ (s₁ : RPCServer .privateKey) (req : Request), s₁ = s → req.keyString = none →
      ∃ s' response, dispatch s₁ req = some (s', response) ∧ s' = s ∧ True := by
    intro s₁ req hs hreq
    cases hd : dispatch s₁ req with
    | none =>
        obtain ⟨_, cs', hcs', hzero⟩ := dispatch_eq_none_iff.mp hd
        have hkeys : s₁.keys s₁.remoteCS = [cs] := by
          rw [hs, hcs]
          rfl
        rw [hkeys, List.mem_singleton] at hcs'
        exact absurd (hcs' ▸ hzero) hn
    | some r => exact ⟨r.1, r.2, rfl, (dispatch_quiet hreq hd).trans hs, trivial⟩
  obtain ⟨_, responses, hrun, rfl, _⟩ := run_total _ _ (fun _ _ => True) hstep rfl hquiet
  exact ⟨responses, hrun⟩

theorem programBody_valid {key : PaillierKey} {d : ℕ} {prog : List CipherStmt} {outs : List ℕ}
    (hfits : ∀ s ∈ prog, s.Fits d)
    (hok : ∀ s ∈ prog, s.Compiles key.rebuilt.additive.operators ∧
      s.Draws fun r => r.Coprime key.modulus)
    {values raws : List ℤ} (hraws : List.Forall₂ (ValidEnc key.modulus) values raws) {τ' : Clear}
    (hclear : exec CipherStmt.stepClear (fun i => values[i]?) prog = some τ')
    (houts : ∀ i ∈ outs, i < d ∧ (τ' i).isSome) :
    ∃ w, programBody (some key.rebuilt) d prog outs (raws.map fun r => ⟨key.rebuilt, r⟩) = some w ∧
      List.Forall₂ (fun i c => ∃ m, τ' i = some m ∧ ValidEnc key.modulus m (Cipher.raw c)) outs w := by
  have hlaws : OperatorLaws key.rebuilt.additive.operators (ValidEnc key.modulus)
      (fun r => r.Coprime key.modulus) :=
    (ClassOperators.publicKey _ (key.rebuilt_pub ▸ key.pub_hasModulus)).laws
  have hinit : Holds (ValidEnc key.modulus)
      (fun i => (((raws.map fun r => (⟨key.rebuilt, r⟩ : Cipher .publicKey))[i]?).map
        Cipher.raw).getD 0) (fun i => values[i]?) := by
    intro i m hm
    obtain ⟨hi, rfl⟩ := List.getElem?_eq_some_iff.mp hm
    have hi' : i < raws.length := hraws.length_eq ▸ hi
    have henc := (List.forall₂_iff_get.mp hraws).2 i hi hi'
    simpa [hi'] using henc
  obtain ⟨σ', hrun, hvalues, _⟩ := program_refines hlaws hfits hok hinit hclear
  refine ⟨outs.map fun i => ⟨key.rebuilt, σ' i⟩, ?_, ?_⟩
  · rw [programBody, Option.bind_eq_bind, Option.bind_some, hrun]
    rfl
  · rw [List.forall₂_map_right_iff, List.forall₂_same]
    intro i hi
    obtain ⟨hlt, hsome⟩ := houts i hi
    obtain ⟨m, hm⟩ := Option.isSome_iff_exists.mp hsome
    exact ⟨m, hm, hvalues i hlt m hm⟩

/-- `c = a * 3 + b; c -= 2;` on the two ciphers sent. -/
def sampleRemoteProgram : List CipherStmt :=
  [.assign 2 (.binary .add (.withPlain .mul (.var 0) 3 1) (.var 1) 1), .updatePlain .sub 2 2 1]

end Procedures

end PPFramework
