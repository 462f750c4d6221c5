import Basecoin.App.Query
import Basecoin.Modules.Governance

/-!
# The default application, with the modules that keep the chain

`default_app_runner` with all its modules. What remains a parameter is how the ibc module delivers
a message. The governance module is given the upgrade module's store, the fifth one handed out,
since an upgrade proposal is executed there.

With the modules fixed, it is known what a request can do to each store
(`defaultModules_chain`). A statement on the world that a request is to preserve is asked of one
module at a time, and most modules only ask of it that it says nothing about their own store:
`chain_deliver_keeps` for a message, `chain_init_preserves` for genesis. At the beginning of a
block two modules act (`run_beginModules`): the ibc module remembers the header, and the upgrade
module may store a consensus state, or panic.

`Idle`, at the end, fills in the parameters with other crates that do nothing. Runs on concrete
requests start from it, each with its own instances where it needs more.
-/

namespace Basecoin

section Chain

variable [Sha256] [Bech32] [AuthCodec] [BankHost] [IbcHost] [ProofEncoding] [U256Text]
  {R G AnyClientState MsgRecoverClient : Type} [GenesisJson G U256]
  [UpgradeHost AnyClientState] [GovHost MsgRecoverClient] [ProposalHandlers R MsgRecoverClient]
  [BuildProfile]

omit [AuthCodec] [BankHost] [IbcHost] [GenesisJson G U256] in
def chainModules (ibcDeliver : Any → AccountId → Handler (Memory R) (Except Error (List Event))) :
    Unmodelled (Memory R) G where
  ibcDeliver := ibcDeliver
  ibcBeginBlock := Ibc.beginBlock
  governance ref := Governance.module ref 4
  upgrade ref := Upgrade.module ref
  governance_store _ := rfl
  upgrade_store _ := rfl

/-- The memory of a fresh node: no host consensus state yet, no proposal counted. -/
def Memory.new (rest : R) : Memory R :=
  { consensusStates := fun _ => none, proposalCounter := 0, rest }

def chainApp (ibcDeliver : Any → AccountId → Handler (Memory R) (Except Error (List Event)))
    (rest : R) : Option (BaseCoinApp (Memory R) G) :=
  defaultApp (chainModules ibcDeliver) (Memory.new rest)

/-- The modules in the order they are asked. -/
theorem defaultModules_chain
    (ibcDeliver : Any → AccountId → Handler (Memory R) (Except Error (List Event))) :
    defaultModules (chainModules ibcDeliver : Unmodelled (Memory R) G) =
      [⟨"auth", Auth.module 0⟩, ⟨"bank", Bank.module 1 0⟩,
        ⟨"ibc", Ibc.module 3 ibcDeliver Ibc.beginBlock⟩, ⟨"gov", Governance.module 5 4⟩,
        ⟨"upgrade", Upgrade.module 4⟩] := rfl

theorem chain_handles
    {ibcDeliver : Any → AccountId → Handler (Memory R) (Except Error (List Event))} :
    handles (defaultModules (chainModules ibcDeliver : Unmodelled (Memory R) G)) =
      [0, 1, 3, 5, 4] := rfl

theorem chain_handles_nodup
    {ibcDeliver : Any → AccountId → Handler (Memory R) (Except Error (List Event))} :
    (handles (defaultModules (chainModules ibcDeliver : Unmodelled (Memory R) G))).Nodup := by
  rw [chain_handles]
  decide

/-- The consensus state of the block that begins, in the memory of the ibc module. -/
def World.begun (w : World (Memory R)) (header : Header) : World (Memory R) :=
  { w with
    mem := { w.mem with
      consensusStates := Function.update w.mem.consensusStates header.height
        (some (Ibc.headerConsensusState header)) } }

/-- At the beginning of a block two modules act: one remembers the header, the other may panic. -/
theorem run_beginModules
    {ibcDeliver : Any → AccountId → Handler (Memory R) (Except Error (List Event))}
    (header : Header) (w : World (Memory R)) :
    (beginModules header (defaultModules (chainModules ibcDeliver : Unmodelled (Memory R) G))
      []).run w =
      (Upgrade.beginBlock (w.stores 4) header).map fun r =>
        (r.1, (w.begun header).modify 4 fun _ => r.2) := by
  rw [defaultModules_chain]
  cases h : Upgrade.beginBlock (w.stores 4) header with
  | none =>
    show Option.bind (Option.map _ (Upgrade.beginBlock (w.stores 4) header)) _ = _
    rw [h]
    rfl
  | some r =>
    show Option.bind (Option.map _ (Upgrade.beginBlock (w.stores 4) header)) _ = _
    rw [h]
    rfl

/-! ## What its modules preserve -/

omit [AuthCodec] [BankHost] [IbcHost] [ProofEncoding] [U256Text] [UpgradeHost AnyClientState]
  [GovHost MsgRecoverClient] [ProposalHandlers R MsgRecoverClient] [BuildProfile] [Bech32]
  [GenesisJson G U256] in
/-- A statement on the store of the upgrade module and the host's consensus states alone. -/
structure IgnoresOthers (P : World (Memory R) → Prop) : Prop where
  store : ∀ ref, ref ≠ 4 → ∀ w s, P w → P (w.modify ref fun _ => s)
  counter : ∀ w proposalCounter, P w → P { w with mem := { w.mem with proposalCounter } }

section Preserves

variable {P : World (Memory R) → Prop}
  {ibcDeliver : Any → AccountId → Handler (Memory R) (Except Error (List Event))}

/-- Of a message all but the ibc module's own calls, and what a proposal writes, leaves a statement
that does not ask for the accounts, the balances and the proposals. -/
theorem chain_deliver_keeps_of_ignored {undone : Prop} {message : Any} {signer : AccountId}
    (hstore : ∀ ref ∈ [0, 1, 5], ∀ w s, P w → P (w.modify ref fun _ => s))
    (hcounter : ∀ w proposalCounter, P w → P { w with mem := { w.mem with proposalCounter } })
    (hibc : (ibcDeliver message signer).Preserves P)
    (hexecute : ∀ upgradeProposal, Governance.Proposes message upgradeProposal →
      Handler.Triple P (Governance.executeUpgrade 4 upgradeProposal) fun result w =>
        (∀ e, result = .error e → ¬ undone) → P w)
    (hrecover : ∀ msgRecoverClient : MsgRecoverClient,
      (ProposalHandlers.recoverExecute msgRecoverClient : Handler (Memory R) _).Preserves P) :
    ∀ m ∈ (defaultModules (chainModules ibcDeliver) : List (IdentifiedModule (Memory R) G)),
      (m.module.deliver message signer).Keeps undone P := by
  rw [defaultModules_chain]
  intro m hm
  simp only [List.mem_cons, List.not_mem_nil, or_false] at hm
  -- one case per module, in the order of `defaultModules_chain`
  rcases hm with rfl | rfl | rfl | rfl | rfl
  · refine Handler.Preserves.keeps ?_
    exact Handler.triple_onStore (f := fun s => some (Auth.deliver signer s)) (fun _ => rfl)
      fun w _ s hw _ => hstore 0 (by decide) w s hw
  · refine Handler.Preserves.keeps ?_
    refine Handler.triple_bind (Handler.preserves_read _) fun accounts => ?_
    exact Handler.triple_onStore (f := Bank.deliver accounts message) (fun _ => rfl)
      fun w _ s hw _ => hstore 1 (by decide) w s hw
  · exact hibc.keeps
  · -- of governance's own writes one is in its store and one in memory
    refine Governance.keeps_deliver (fun proposal => ?_) ?_ hexecute hrecover
    · exact Handler.triple_onStore
        (f := fun s =>
          some ((), (Governance.proposalStore.set s Governance.sdkPath proposal.toAny).2))
        (fun _ => rfl) fun w _ s hw _ => hstore 5 (by decide) w s hw
    · refine Handler.preserves_onMem fun w mem hw hmem => ?_
      by_cases hfull : Governance.CounterFull w.mem
      · rw [if_pos hfull] at hmem
        cases hmem
      · rw [if_neg hfull] at hmem
        exact Option.some.inj hmem ▸ hcounter w _ hw
  · exact (Handler.preserves_pure _).keeps

theorem chain_deliver_keeps (hP : IgnoresOthers P) {undone : Prop} {message : Any}
    {signer : AccountId} (hibc : (ibcDeliver message signer).Preserves P)
    (hexecute : ∀ upgradeProposal, Governance.Proposes message upgradeProposal →
      Handler.Triple P (Governance.executeUpgrade 4 upgradeProposal) fun result w =>
        (∀ e, result = .error e → ¬ undone) → P w)
    (hrecover : ∀ msgRecoverClient : MsgRecoverClient,
      (ProposalHandlers.recoverExecute msgRecoverClient : Handler (Memory R) _).Preserves P) :
    ∀ m ∈ (defaultModules (chainModules ibcDeliver) : List (IdentifiedModule (Memory R) G)),
      (m.module.deliver message signer).Keeps undone P := by
  refine chain_deliver_keeps_of_ignored (fun ref href => hP.store ref ?_) hP.counter hibc hexecute
    hrecover
  rintro rfl
  exact absurd href (by decide)

end Preserves

/-- Genesis is written to the first two stores. -/
theorem chain_init_preserves {P : World (Memory R) → Prop}
    (hP : ∀ ref < 2, ∀ w s, P w → P (w.modify ref fun _ => s))
    {ibcDeliver : Any → AccountId → Handler (Memory R) (Except Error (List Event))} {appState : G} :
    ∀ m ∈ (defaultModules (chainModules ibcDeliver) : List (IdentifiedModule (Memory R) G)),
      (m.module.init appState).Preserves P := by
  rw [defaultModules_chain]
  intro m hm
  simp only [List.mem_cons, List.not_mem_nil, or_false] at hm
  rcases hm with rfl | rfl | rfl | rfl | rfl
  · exact Handler.triple_onStore
      (f := fun s => ((GenesisJson.authAccounts appState).bind fun accounts =>
        Auth.initAccounts accounts s).map fun s' => ((), s'))
      (fun _ => rfl) fun w _ s hw _ => hP 0 (by decide) w s hw
  · exact Handler.triple_onStore
      (f := fun s => ((GenesisJson.bankAccounts appState).bind fun accounts =>
        Bank.initBalances accounts s).map fun s' => ((), s'))
      (fun _ => rfl) fun w _ s hw _ => hP 1 (by decide) w s hw
  · exact Handler.preserves_pure _
  · exact Handler.preserves_pure _
  · exact Handler.preserves_pure _

end Chain

/-! ## To run the model with

Other crates that bring nothing to a chain without messages. -/

namespace Idle

scoped instance bech32 : Bech32 := Bech32.any

scoped instance sha256 : Sha256 := Sha256.ones

scoped instance authCodec : AuthCodec := ⟨Codec.ofEncodable _⟩

scoped instance bankHost : BankHost where
  codec := Codec.ofEncodable _
  decodeMsgSend _ := none
  parseAmount _ := none

scoped instance ibcHost : IbcHost where
  queryPath := "store/ibc/key"
  validPath := (["nextClientSequence", "nextConnectionSequence", "nextChannelSequence"].contains ·)
  nextClientSequence := "nextClientSequence"
  nextConnectionSequence := "nextConnectionSequence"
  nextChannelSequence := "nextChannelSequence"
  counterCodec := Codec.ofEncodable _

scoped instance proofEncoding : ProofEncoding := ⟨fun _ => []⟩

scoped instance u256Text : U256Text where
  display a := toString a.toNat
  fromStrRadix text := (readText 10 text).elim (.error "invalid digit") .ok

scoped instance buildProfile : BuildProfile := ⟨true⟩

scoped instance upgradeHost : UpgradeHost Nat := .ofEncodable Nat

scoped instance govHost : GovHost Unit where
  decodeMsgSubmitProposal _ := .error "invalid wire type"
  upgradeProposalTypeUrl := "/ibc.core.client.v1.UpgradeProposal"
  recoverClientTypeUrl := "/ibc.core.client.v1.MsgRecoverClient"
  typeUrl_ne := typeUrls_ne
  decodeUpgradeProposal _ := none
  decodeMsgRecoverClient _ := none
  rawProposalCodec := Codec.ofEncodable _
  anyCodec := Codec.ofEncodable _
  decodeVecError _ _ := ""
  debugHostError _ := ""

theorem notFound_isSome (w : World (Memory Unit)) :
    ((pure (.error "not found") : Handler (Memory Unit) (Except String Unit)).run w).isSome := rfl

scoped instance proposalHandlers : ProposalHandlers Unit Unit where
  executeUpgradeClientProposal _ s := (.error (.other "not convertible"), s)
  execute_sameBase _ s := .refl s
  recoverValidate _ _ := .error "not found"
  recoverExecute _ := pure (.error "not found")
  recoverExecute_isSome _ := notFound_isSome

def genesisAccount : AccountId := (AccountId.fromStr aliceAddress).get rfl

/-- Genesis has one account and no balances. -/
scoped instance genesisJson : GenesisJson Unit U256 where
  authAccounts _ := some [(aliceAddress, [])]
  bankAccounts _ := some []

scoped instance host : Host Unit where
  decodeTx _ := .error "empty"
  accountId _ _ := none
  readGenesis _ := some ()
  debugError := Error.toString

def ibcDeliver : Any → AccountId → Handler (Memory Unit) (Except Error (List Event)) :=
  fun _ _ => pure (.error .notHandled)

/-- The default application, fresh. -/
def app : BaseCoinApp (Memory Unit) Unit := (chainApp ibcDeliver ()).get rfl

theorem chainApp_eq : chainApp ibcDeliver () = some app := (Option.some_get _).symm

end Idle

end Basecoin
