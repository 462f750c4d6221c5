import Basecoin.App.Runner

/-!
# An IBC query proves its answer down to the app hash

The value, its proof and the proof of the module's root are read by three calls on two stores.
They fit together because the stores are in lockstep: at every committed height the main store
holds the root of the module's state of that height, and the commit answered the main root. A
request may also ask for height 0, the latest; in an unpruned store that is the number of commits
(`getState_latest`).

The modules in front of the ibc module are asked first, and have to pass the query on. They do
because of its path and of what is under it: the bank answers to account texts, and no path of
`ibc-rs` begins as one of those does.
-/

namespace Basecoin

open Avl Ics23 Lib

/-! ## The three reads -/

section Stores

variable [Sha256]

namespace InMemoryStore

theorem getState_latest {s : InMemoryStore} (h : s.store.pruned = 0)
    (hlen : 1 ≤ s.history.length) : s.getState .latest = s.getState (.stable s.history.length) := by
  rw [getState_stable h hlen]
  exact List.getLast?_eq_getElem?

theorem getState_ofRaw {s : InMemoryStore} (h : s.store.pruned = 0) {n k : Nat}
    (hk : k = if n = 0 then s.history.length else n) (h₁ : 1 ≤ k) :
    s.getState (Height.ofRaw n) = s.getState (.stable k) := by
  cases n with
  | zero =>
    rw [if_pos rfl] at hk
    subst hk
    exact getState_latest h h₁
  | succ n =>
    rw [if_neg (Nat.succ_ne_zero n)] at hk
    rw [hk]
    rfl

/-- A stored value has a right existence proof against the root of its state. -/
theorem getProof_of_get {s : InMemoryStore} {height : Height} {path : Path} {value : Bytes}
    (h : s.get height path = some value) :
    ∃ st p root, s.getState height = some st ∧
      s.getProof height path = some { proof := some (.exist p) } ∧
      st.rootHash = some root ∧ Proves p path value (some root) := by
  obtain ⟨st, hst, hget⟩ := Option.bind_eq_some_iff.mp h
  obtain ⟨p, hp, hproves⟩ := st.valid.getProof_of_get hget
  refine ⟨st, p, existenceRoot p, hst, ?_, hproves.root_eq, hproves.root_eq ▸ hproves⟩
  rw [getProof, hst, Option.map_some, State.getProof]
  simp only [hp, Option.get_some]

end InMemoryStore

end Stores

/-! ## The modules in front -/

section Query

variable [Sha256] [Bech32] [AuthCodec] [BankHost] [IbcHost] [ProofEncoding]

omit [IbcHost] [ProofEncoding] in
/-- Data that is not the text of an address is not for the bank. -/
theorem Bank.query_of_not_prefix (s accounts : InMemoryStore) {text : String}
    (h : ¬ accountPrefix.toList <+: text.toList) (height : Height) :
    Bank.query s accounts (stringBytes text) height = .error .notHandled := by
  have hfalse : accountPrefix.toList.isPrefixOf text.toList = false := by
    rw [Bool.eq_false_iff]
    exact fun hp => h (List.isPrefixOf_iff_prefix.mp hp)
  simp only [Bank.query, fromUtf8_stringBytes, hfalse]
  rfl

omit [AuthCodec] [BankHost] in
theorem Ibc.query_of_get {s : InMemoryStore} {height : Height} {text : String} {value : Bytes}
    {proof : CommitmentProof} (hvalid : IbcHost.validPath text = true)
    (hproof : s.getProof height (Path.ofString text) = some proof)
    (hget : s.get height (Path.ofString text) = some value) :
    Ibc.query s (stringBytes text) (some (Path.ofString IbcHost.queryPath)) height true =
      .ok { data := value, proof := some [⟨"", stringBytes text, encodeProof proof⟩] } := by
  have hbytes : Ibc.getProof s height (Path.ofString text) = some (encodeProof proof) := by
    rw [Ibc.getProof, hproof]
    rfl
  simp only [Ibc.query, Path.toString_ofString, fromUtf8_stringBytes, hvalid, hbytes, hget]
  simp

variable {M G : Type} [GenesisJson G U256] [Host G]

/-- Auth and bank pass an IBC query on, and the ibc module's answer is extended by the proof of
its root. -/
theorem query_defaultModules {rest : Unmodelled M G} {app : BaseCoinApp M G}
    (hmods : app.modules = defaultModules rest) {request : RequestQuery} {text : String}
    (hdata : request.data = stringBytes text) (hprove : request.prove = true)
    (htext : ¬ accountPrefix.toList <+: text.toList) {height : Height} {result : QueryResult}
    (hibc : Ibc.query (app.world.stores 3) (stringBytes text)
      (some (Path.ofString request.path)) height true = .ok result)
    {proof : CommitmentProof}
    (hmain : app.store.getProof height (Path.ofIdentifier "ibc") = some proof) :
    app.queryModules request height app.modules =
      some
        { log := "exists", key := request.data, value := result.data
          proofOps := some (result.proof.getD [] ++
            [{ fieldType := "", key := stringBytes "ibc", data := encodeProof proof }])
          height := app.store.currentHeight } := by
  have hauth : (Auth.module 0 : Module M G).query request.data (some (Path.ofString request.path))
      height request.prove app.world = some (.error .notHandled) := rfl
  have hbank : (Bank.module 1 0 : Module M G).query request.data
      (some (Path.ofString request.path)) height request.prove app.world =
        some (.error .notHandled) := by
    show some (Bank.query _ _ request.data height) = _
    rw [hdata, Bank.query_of_not_prefix _ _ htext]
  have hthird : (Ibc.module 3 rest.ibcDeliver rest.ibcBeginBlock : Module M G).query request.data
      (some (Path.ofString request.path)) height request.prove app.world = some (.ok result) := by
    show some (Ibc.query _ request.data _ height request.prove) = _
    rw [hdata, hprove, hibc]
  rw [hmods, defaultModules, BaseCoinApp.queryModules, hauth, Option.bind_some,
    BaseCoinApp.queryModules, hbank, Option.bind_some, BaseCoinApp.queryModules, hthird,
    Option.bind_some]
  simp only [hprove, if_true, hmain, Option.map_some]

/-! ## The chain -/

/-- **The two proofs of an IBC query chain to the app hash.** Take any run of requests on the
default application, a height `h` it has committed, asked for by its number or as the latest by
0, and a valid path with a value in the ibc store at `h`. The query answers that value and two
existence proofs: of the value under the ibc store's root `R` at `h`, and of `R` under the app
hash the `h`-th commit answered. -/
theorem ibc_query_chains {rest : Unmodelled M G} {mem : M} {app₀ app : BaseCoinApp M G}
    {requests : List Request} {responses : List Response} {request : RequestQuery}
    {text : String} {value : Bytes} {h : Nat}
    (hvalidPaths : ∀ s, IbcHost.validPath s = true → ¬ accountPrefix.toList <+: s.toList)
    (h₀ : defaultApp rest mem = some app₀)
    (hrun : runSteps BaseCoinApp.step app₀ requests = some (responses, app))
    (hpath : request.path = IbcHost.queryPath) (hdata : request.data = stringBytes text)
    (hprove : request.prove = true) (hvalid : IbcHost.validPath text = true)
    (hheight : h = if request.height.toUInt64.toNat = 0 then requests.count .commit
      else request.height.toUInt64.toNat)
    (hfirst : 1 ≤ h) (hlast : h ≤ requests.count .commit)
    (hvalue : (app.world.stores 3).get (.stable h) (Path.ofString text) = some value) :
    ∃ response p q R appHash, app.query request = some response ∧ response.code = 0 ∧
      response.value = value ∧
      response.proofOps = some
        [⟨"", stringBytes text, encodeProof { proof := some (.exist p) }⟩,
          ⟨"", stringBytes "ibc", encodeProof { proof := some (.exist q) }⟩] ∧
      Proves p (Path.ofString text) value (some R) ∧
      (app.world.stores 3).rootAt h = R.bytes ∧
      Proves q (Path.ofIdentifier "ibc") R.bytes (some appHash) ∧
      (commitHashes responses)[h - 1]? = some appHash.bytes := by
  obtain ⟨hmods₀, hbuilt⟩ := built_defaultApp rest h₀
  obtain ⟨hlock, hcount, -, hmods, -⟩ := hbuilt.lockstep.run hrun
  rw [List.nil_append] at hlock
  rw [← hcount] at hheight hlast
  have hmods' : app.modules = defaultModules rest := hmods.trans hmods₀
  have hm : (⟨"ibc", Ibc.module 3 rest.ibcDeliver rest.ibcBeginBlock⟩ :
      IdentifiedModule M G) ∈ app.modules := by
    rw [hmods']
    simp [defaultModules]
  have hunpruned := hlock.modules_unpruned _ hm
  obtain ⟨hmainHeight, hheights⟩ := hlock.heights
  -- the raw height stands for `h` in both stores
  have hraw : (app.world.stores 3).getState (Height.ofRaw request.height.toUInt64.toNat) =
      (app.world.stores 3).getState (.stable h) := by
    refine InMemoryStore.getState_ofRaw hunpruned ?_ hfirst
    rw [← InMemoryStore.currentHeight_eq hunpruned]
    exact hheight.trans (by rw [← hheights _ hm])
  have hrawMain : app.store.getState (Height.ofRaw request.height.toUInt64.toNat) =
      app.store.getState (.stable h) := by
    refine InMemoryStore.getState_ofRaw hlock.unpruned ?_ hfirst
    rw [← InMemoryStore.currentHeight_eq hlock.unpruned, hmainHeight]
    exact hheight
  -- the inner proof
  have hget : (app.world.stores 3).get (Height.ofRaw request.height.toUInt64.toNat)
      (Path.ofString text) = some value := by
    rw [InMemoryStore.get, hraw]
    exact hvalue
  obtain ⟨st, p, R, hst, hproof, hR, hp⟩ := InMemoryStore.getProof_of_get hget
  have hroot : (app.world.stores 3).rootAt h = R.bytes := by
    rw [InMemoryStore.rootAt, ← hraw, hst, Option.bind_some, hR]
    rfl
  -- the outer proof, of the root the main store recorded
  obtain ⟨hhash, hrecorded⟩ := hlock.atHeight hfirst hlast
  have hrecord : app.store.get (Height.ofRaw request.height.toUInt64.toNat)
      (Path.ofIdentifier "ibc") = some R.bytes := by
    rw [InMemoryStore.get, hrawMain, ← hroot]
    exact hrecorded _ hm
  obtain ⟨stMain, q, appHash, hstMain, hproofMain, hA, hq⟩ :=
    InMemoryStore.getProof_of_get hrecord
  have hmainRoot : app.store.rootAt h = appHash.bytes := by
    rw [InMemoryStore.rootAt, ← hrawMain, hstMain, Option.bind_some, hA]
    rfl
  have hibc := Ibc.query_of_get hvalid hproof hget
  rw [← hpath] at hibc
  exact ⟨_, p, q, R, appHash,
    query_defaultModules hmods' hdata hprove (hvalidPaths text hvalid) hibc hproofMain,
    rfl, rfl, rfl, hp, hroot, hq, hmainRoot ▸ hhash⟩

end Query

section OneCommit

local instance oneCommitBech32 : Bech32 := Bech32.any

local instance oneCommitSha256 : Sha256 := Sha256.ones

local instance oneCommitAuthCodec : AuthCodec := ⟨Codec.ofEncodable _⟩

local instance oneCommitBankHost : BankHost :=
  { codec := Codec.ofEncodable _
    decodeMsgSend := fun _ => none
    parseAmount := fun _ => none }

/-- The paths of the counters are valid ones. -/
local instance oneCommitIbcHost : IbcHost :=
  { queryPath := "store/ibc/key"
    validPath := fun s =>
      ["nextClientSequence", "nextConnectionSequence", "nextChannelSequence"].contains s
    nextClientSequence := "nextClientSequence"
    nextConnectionSequence := "nextConnectionSequence"
    nextChannelSequence := "nextChannelSequence"
    counterCodec := Codec.ofEncodable _ }

local instance oneCommitProofEncoding : ProofEncoding := ⟨fun _ => []⟩

local instance oneCommitGenesisJson : GenesisJson Unit U256 :=
  { authAccounts := fun _ => some [], bankAccounts := fun _ => some [] }

local instance oneCommitHost : Host Unit :=
  { decodeTx := fun _ => .error "empty"
    accountId := fun _ _ => none
    readGenesis := fun _ => some ()
    debugError := Error.toString }

/-- Default modules that do nothing where they are not modelled. -/
def idleModules : Unmodelled Unit Unit :=
  { ibcDeliver := fun _ _ => pure (.error .notHandled)
    ibcBeginBlock := fun _ => pure []
    governance := fun ref => { store := ref }
    upgrade := fun ref => { store := ref }
    governance_store := fun _ => rfl
    upgrade_store := fun _ => rfl }

def idleApp : BaseCoinApp Unit Unit := (defaultApp idleModules ()).get rfl

/-- After one commit the latest value of the client counter is asked for. -/
theorem ibc_query_chains_counter :
    ∃ response p q R appHash,
      idleApp.commit.2.query
          { data := stringBytes "nextClientSequence", path := "store/ibc/key", height := 0,
            prove := true } = some response ∧ response.code = 0 ∧
      response.value = (IbcHost.counterCodec).encode 0 ∧
      response.proofOps = some
        [⟨"", stringBytes "nextClientSequence", encodeProof { proof := some (.exist p) }⟩,
          ⟨"", stringBytes "ibc", encodeProof { proof := some (.exist q) }⟩] ∧
      Proves p (Path.ofString "nextClientSequence") ((IbcHost.counterCodec).encode 0) (some R) ∧
      (idleApp.commit.2.world.stores 3).rootAt 1 = R.bytes ∧
      Proves q (Path.ofIdentifier "ibc") R.bytes (some appHash) ∧
      (commitHashes [.commit idleApp.commit.1])[1 - 1]? = some appHash.bytes := by
  have hpaths : ∀ s, IbcHost.validPath s = true → ¬ accountPrefix.toList <+: s.toList := by
    intro s hs
    have hmem : s ∈ ["nextClientSequence", "nextConnectionSequence", "nextChannelSequence"] :=
      List.contains_iff_mem.mp hs
    simp only [List.mem_cons, List.not_mem_nil, or_false] at hmem
    rcases hmem with rfl | rfl | rfl <;> decide
  have hrun : runSteps BaseCoinApp.step idleApp [.commit] =
      some ([.commit idleApp.commit.1], idleApp.commit.2) := rfl
  have hget : (idleApp.commit.2.world.stores 3).get (.stable 1)
      (Path.ofString "nextClientSequence") = some ((IbcHost.counterCodec).encode 0) := by
    show State.get (Ibc.newContext InMemoryStore.default).pending
      (Path.ofString "nextClientSequence") = _
    have hne : ∀ s : String, s ≠ "nextClientSequence" →
        ¬ Path.ofString "nextClientSequence" = Path.ofString s :=
      fun s hs h => hs (Path.ofString_injective h).symm
    simp only [Ibc.newContext, TypedStore.set, InMemoryStore.set, TypedStore.path,
      Ibc.counterStore, id]
    rw [State.get_insert, if_neg (hne _ (by decide)), State.get_insert,
      if_neg (hne _ (by decide)), State.get_insert]
    exact if_pos rfl
  exact ibc_query_chains hpaths (Option.some_get _).symm hrun rfl rfl rfl (by decide) (by decide)
    le_rfl (by decide) hget

end OneCommit

end Basecoin
