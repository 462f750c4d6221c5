import Basecoin.App.Blocks
import Basecoin.Modules.Relaying

/-!
# The ibc module in a chain

`ibc-rs` acts on the module's store by calls of its context, and the application applies, resets and
commits it with the others. So the store that a run of requests leaves is one that a run of calls
leaves (`ibc_run`), and what is said of contexts holds of it. What a transaction that succeeds or a
commit leaves there is continued by every later state (`applied_stays`).

The hypothesis on `ibc-rs` is that it acts by calls (`ActsByContext`): a handler leaves a store
that some calls lead to, and nothing is said of which. No other module touches the store, except
that a proposal to recover a client does, through the governance module's clone of the context.
Each request adds calls at the end, `reset` and `commit` among them, so the calls of a run are
those of its requests one after the other, and a later state continues an earlier one by the calls
in between.
-/

namespace Basecoin

open Lib IbcStore

section Called

variable [IdentifierText] [Sha256]
  {AnyClientState AnyConsensusState Timestamp ConnectionEnd ChannelEnd : Type}
  [IbcContextHost AnyClientState AnyConsensusState Timestamp ConnectionEnd ChannelEnd]
  [BuildProfile]

/-- Calls of a context lead from one store to the other. -/
def Called (s s' : InMemoryStore) : Prop :=
  ∃ calls results, runSteps call s calls = some (results, s')

theorem Called.refl (s : InMemoryStore) : Called s s := ⟨[], [], rfl⟩

theorem Called.trans {s₁ s₂ s₃ : InMemoryStore} (h : Called s₁ s₂) (h' : Called s₂ s₃) :
    Called s₁ s₃ := by
  obtain ⟨calls, results, hcalls⟩ := h
  obtain ⟨calls', results', hcalls'⟩ := h'
  exact ⟨_, _, runSteps_append.mpr ⟨s₂, results, results', hcalls, hcalls', rfl⟩⟩

theorem Called.of_call {s s' : InMemoryStore} {result : Except HostError Unit}
    (c : Call AnyClientState AnyConsensusState Timestamp ConnectionEnd ChannelEnd)
    (h : call s c = some (result, s')) : Called s s' :=
  ⟨[c], [result], runSteps_cons.mpr ⟨result, s', [], h, rfl, rfl⟩⟩

end Called

section Applies

variable [Bech32] {G : Type} [Host G]

/-- The request applies what is pending, or commits it. -/
def Applies : Request → Response → Prop
  | .deliverTx _, .deliverTx response => response.code = 0
  | .commit, _ => True
  | _, _ => False

theorem code_of_admitTx_error {tx : Bytes} {response : ResponseDeliverTx}
    (h : BaseCoinApp.admitTx tx = .error response) : response.code ≠ 0 := by
  unfold BaseCoinApp.admitTx at h
  repeat' split at h
  all_goals cases h
  all_goals simp [ResponseDeliverTx.fromError]

end Applies

section Chain

variable [IdentifierText]
  {AnyClientState AnyConsensusState Timestamp ConnectionEnd ChannelEnd : Type}
  [Sha256] [Bech32] [AuthCodec] [BankHost] [ProofEncoding] [U256Text]
  [IbcContextHost AnyClientState AnyConsensusState Timestamp ConnectionEnd ChannelEnd]
  {R G MsgRecoverClient : Type} [GenesisJson G U256] [UpgradeHost AnyClientState]
  [GovHost MsgRecoverClient] [ProposalHandlers R MsgRecoverClient] [BuildProfile]
  {ibcDeliver : Any → AccountId → Handler (Memory R) (Except Error (List Event))}

/-- What a handler does to the store of the ibc module are calls of its context. -/
def ActsByContext {α : Type} (x : Handler (Memory R) α) : Prop :=
  ∀ s, x.Preserves fun w => Called s (w.stores 3)

variable (hibc : ∀ message signer, ActsByContext (ibcDeliver message signer))
  (hrecover : ∀ msgRecoverClient : MsgRecoverClient,
    ActsByContext (ProposalHandlers.recoverExecute msgRecoverClient : Handler (Memory R) _))

include hibc hrecover

/-- Of all modules, only the ibc module and a proposal to recover a client touch the store. -/
theorem deliver_called {message : Any} {signer : AccountId} (s : InMemoryStore) :
    ∀ m ∈ (defaultModules (chainModules ibcDeliver) : List (IdentifiedModule (Memory R) G)),
      (m.module.deliver message signer).Keeps False fun w => Called s (w.stores 3) := by
  have hother : ∀ {ref : StoreRef}, 3 ≠ ref → ∀ (w : World (Memory R)) (s' : InMemoryStore),
      Called s (w.stores 3) → Called s ((w.modify ref fun _ => s').stores 3) := by
    intro ref hne w s' hw
    rw [World.modify_other _ _ hne]
    exact hw
  refine chain_deliver_keeps_of_ignored (fun ref href => hother ?_) (fun _ _ hw => hw)
    (hibc message signer s) (fun upgradeProposal _ => ?_)
    fun msgRecoverClient => hrecover msgRecoverClient s
  · rintro rfl
    exact absurd href (by decide)
  · exact Handler.triple_onStore
      (f := fun s => some (ProposalHandlers.executeUpgradeClientProposal R upgradeProposal s))
      (fun _ => rfl) fun w _ s' hw _ _ => hother (by decide) w s' hw

variable [Host G]

/-- One request. -/
theorem ibc_step {app app' : BaseCoinApp (Memory R) G} {request : Request} {response : Response}
    (hmods : app.modules = defaultModules (chainModules ibcDeliver))
    (hstep : app.step request = some (response, app')) :
    Called (app.world.stores 3) (app'.world.stores 3) := by
  have hmem : (3 : StoreRef) ∈ handles app.modules := by
    rw [hmods, chain_handles]
    decide
  cases answers_of_step hstep with
  | initChain hinit =>
    obtain ⟨appState, w, hrun, rfl⟩ := initChain_run hinit
    rw [hmods] at hrun
    -- genesis is written by modules whose stores come before the IBC one
    have hsame : w.stores 3 = app.world.stores 3 := by
      refine preserves_initModules (P := fun w => w.stores 3 = app.world.stores 3)
        (chain_init_preserves fun ref href w s hw => ?_) _ _ _ rfl hrun
      rw [World.modify_other _ _ (Nat.ne_of_lt (Nat.lt_trans href (by decide))).symm]
      exact hw
    exact hsame ▸ .refl _
  | beginBlock hbegin =>
    obtain ⟨header, events, w, rfl, hrun, rfl⟩ := beginBlock_run hbegin
    rw [hmods, run_beginModules] at hrun
    obtain ⟨r, -, heq⟩ := Option.map_eq_some_iff.mp hrun
    obtain rfl := (Prod.mk.inj heq).2
    rw [World.modify_other _ _ (by decide)]
    exact .refl _
  | deliverTx hdeliver =>
    rcases deliverTx_keeps hdeliver with
      ⟨-, rfl⟩ | ⟨signer, messages, w, -, -, hkeeps, hend⟩
    · exact .refl _
    · have hw : Called (app.world.stores 3) (w.stores 3) :=
        hkeeps False (fun w => Called (app.world.stores 3) (w.stores 3))
          (fun message _ => hmods ▸ deliver_called hibc hrecover _) (.refl _) fun _ h => h
      rcases hend with ⟨-, rfl⟩ | ⟨-, rfl⟩
      · have happly : Called (w.stores 3) ((applyModules app.modules w).stores 3) := by
          rw [stores_applyModules _ _ hmem]
          exact .of_call .apply rfl
        exact hw.trans happly
      · have hreset : Called (w.stores 3) ((resetModules app.modules w).stores 3) := by
          rw [stores_resetModules _ _ hmem]
          exact .of_call .reset rfl
        exact hw.trans hreset
  | commit =>
    have hcommit : app.commit.2.world.stores 3 = (app.world.stores 3).commit.2 :=
      stores_commitModules (hmods ▸ chain_handles_nodup) hmem _ _
    rw [hcommit]
    exact .of_call .commit rfl

/-- All requests of a run, from any state of the default application. -/
theorem ibc_run {requests : List Request} : ∀ {app app' : BaseCoinApp (Memory R) G}
    {responses : List Response}, app.modules = defaultModules (chainModules ibcDeliver) →
      runSteps BaseCoinApp.step app requests = some (responses, app') →
      Called (app.world.stores 3) (app'.world.stores 3) := by
  induction requests with
  | nil =>
    intro app app' responses _ hrun
    obtain ⟨-, rfl⟩ := Prod.mk.inj (Option.some.inj hrun)
    exact .refl _
  | cons request requests ih =>
    intro app app' responses hmods hrun
    obtain ⟨response, app₁, rest, hstep, hrest, -⟩ := runSteps_cons.mp hrun
    exact (ibc_step hibc hrecover hmods hstep).trans (ih ((modules_step hstep).trans hmods) hrest)

/-! ## What stays -/

omit hibc hrecover in
/-- After a request that applies what is pending, nothing is left to apply. -/
theorem apply_of_applies {app app' : BaseCoinApp (Memory R) G} {request : Request}
    {response : Response} (hmods : app.modules = defaultModules (chainModules ibcDeliver))
    (hstep : app.step request = some (response, app')) (happlies : Applies request response) :
    (app'.world.stores 3).apply = app'.world.stores 3 := by
  have hmem : (3 : StoreRef) ∈ handles app.modules := by
    rw [hmods, chain_handles]
    decide
  cases answers_of_step hstep with
  | initChain hinit => exact happlies.elim
  | beginBlock hbegin => exact happlies.elim
  | @deliverTx tx response _ hdeliver =>
    have hcode : response.code = 0 := happlies
    rcases deliverTx_run hdeliver with
      ⟨⟨r, hr⟩, -⟩ | ⟨signer, messages, result, w, -, -, ⟨-, -, rfl⟩ | ⟨-, hfail, -⟩⟩
    · rw [BaseCoinApp.deliverTx, hr] at hdeliver
      obtain ⟨rfl, -⟩ := Prod.mk.inj (Option.some.inj hdeliver)
      exact absurd hcode (code_of_admitTx_error hr)
    · show ((applyModules app.modules w).stores 3).apply = (applyModules app.modules w).stores 3
      rw [stores_applyModules _ _ hmem]
      rfl
    · exact absurd hcode hfail
  | commit =>
    have hcommit : app.commit.2.world.stores 3 = (app.world.stores 3).commit.2 :=
      stores_commitModules (hmods ▸ chain_handles_nodup) hmem _ _
    rw [hcommit]
    rfl

end Chain

/-! ## A packet received, and one taken back -/

namespace Receiving

attribute [local instance] Idle.bech32 Idle.sha256 Idle.authCodec Idle.bankHost Idle.proofEncoding
  Idle.u256Text Idle.buildProfile Idle.upgradeHost Idle.govHost Idle.proposalHandlers
  twoChannelsText twoChannelsHost

def receipt (b : UInt8) : ReceiptPath :=
  ⟨watchedChannel.portId, watchedChannel.channelId, b.toUInt64⟩

def receive (b : UInt8) (s : InMemoryStore) : Option (Except Error (List Event) × InMemoryStore) :=
  some (.ok [], storePacketReceipt s (receipt b))

theorem receive_sameBase (b : UInt8) {s s' : InMemoryStore} {r : Except Error (List Event)}
    (h : receive b s = some (r, s')) : s.SameBase s' :=
  (Prod.mk.inj (Option.some.inj h)).2 ▸ packetReceiptStore.set_sameBase s _ _

/-- The byte of a message is the sequence of a packet; a zero is not the ibc module's. -/
def ibcDeliver (message : Any) (_ : AccountId) :
    Handler (Memory Unit) (Except Error (List Event)) :=
  match message.value with
  | b :: _ => if b = 0 then pure (.error .notHandled)
    else Handler.onStore 3 (receive b) (receive_sameBase b)
  | [] => pure (.error .notHandled)

scoped instance host : Host Unit where
  decodeTx bytes := .ok
    { signerInfos := [⟨some (.single [])⟩]
      messages := bytes.map fun b => ⟨"/ibc", [b]⟩ }
  accountId _ _ := some Idle.genesisAccount
  readGenesis _ := some ()
  debugError := Error.toString

scoped instance genesisJson : GenesisJson Unit U256 where
  authAccounts _ := some [(aliceAddress, [])]
  bankAccounts _ := some []

def app : BaseCoinApp (Memory Unit) Unit := (chainApp ibcDeliver ()).get rfl

theorem chainApp_eq : chainApp ibcDeliver () = some app := (Option.some_get _).symm

theorem actsByContext (message : Any) (signer : AccountId) :
    ActsByContext (ibcDeliver message signer) := by
  intro s
  unfold ibcDeliver
  split
  · next b _ _ =>
    split
    · exact Handler.preserves_pure _
    · exact Handler.triple_onStore (f := receive b) (fun _ => rfl) fun w _ s' hw hreceive => by
        obtain ⟨-, rfl⟩ := Prod.mk.inj (Option.some.inj hreceive)
        rw [World.modify_self]
        exact hw.trans (.of_call (.storePacketReceipt (receipt b)) rfl)
  · exact Handler.preserves_pure _

theorem recover_actsByContext (msgRecoverClient : Unit) :
    ActsByContext (ProposalHandlers.recoverExecute msgRecoverClient : Handler (Memory Unit) _) :=
  fun _ => Handler.preserves_pure _

/-- Has the packet been received? -/
def received (app : BaseCoinApp (Memory Unit) Unit) (b : UInt8) : Bool :=
  getPacketReceipt (app.world.stores 3) (receipt b) matches .ok .ok

/-- One packet is received, and then another taken back. -/
theorem received_run :
    ((runSteps BaseCoinApp.step app [.initChain []]).bind fun r₁ =>
      (r₁.2.step (.deliverTx [1])).bind fun r₂ =>
        (runSteps BaseCoinApp.step r₂.2 [.deliverTx [2, 0], .commit]).map fun r₃ =>
          (r₂.1, received r₂.2 1, received r₃.2 2)) =
      some (.deliverTx { log := "success" }, true, false) := by
  decide +kernel

end Receiving

end Basecoin
