import Basecoin.Modules.Proposal
import Basecoin.Modules.Upgrade

/-!
# `modules/src/gov`

A submitted proposal is three messages in one: the `MsgSubmitProposal`, its content, and the
client state in that. Only the first decoder reports its failures. The deposit and the content are
taken out of the message unchecked, and the content is unwrapped once its type URL is known
(`Readable`), so it is on the bytes of the sender whether `deliver` returns (`deliver_returns_iff`).

One more thing can go wrong, and not through the message: the count of proposals is in memory,
grows by one with each that is taken and is never lowered, so in a build with overflow checks the
last one panics (`CounterFull`). An upgrade proposal that is taken is in two stores, the one of the
upgrade context (`executeUpgrade`) and the module's own (`setProposal`); a recovery is neither
stored nor counted. All proposals are stored under one key, so each replaces the one before it, and
what `set` does with the old one has no effect (`replaced_converts`).
-/

namespace Basecoin

/-! ## Messages -/

/-- `UpgradeProposal` of `ibc-rs`. -/
structure UpgradeProposal where
  title : String
  description : String
  plan : Plan
  upgradedClientState : Any
deriving DecidableEq

/-- `ibc_proto::cosmos::gov::v1beta1::MsgSubmitProposal`. -/
structure RawMsgSubmitProposal where
  content : Option Any
  initialDeposit : List ProtoCoin
  proposer : String
deriving DecidableEq

structure MsgSubmitProposal where
  content : Any
  initialDeposit : Coin
  proposer : String
deriving DecidableEq

/-- What `ibc-rs` and `prost` do for the governance module's messages. -/
class GovHost (MsgRecoverClient : outParam Type) where
  /-- `RawMsgSubmitProposal::decode`. -/
  decodeMsgSubmitProposal : Bytes → Except String RawMsgSubmitProposal
  /-- `UPGRADE_PROPOSAL_TYPE_URL` and `RECOVER_CLIENT_TYPE_URL`. -/
  upgradeProposalTypeUrl : String
  recoverClientTypeUrl : String
  typeUrl_ne : upgradeProposalTypeUrl ≠ recoverClientTypeUrl
  /-- `UpgradeProposal::decode_vec` and `MsgRecoverClient::decode_vec`. -/
  decodeUpgradeProposal : Bytes → Option UpgradeProposal
  decodeMsgRecoverClient : Bytes → Option MsgRecoverClient
  /-- `RawProposal` and `Any` on the wire. -/
  rawProposalCodec : Codec RawProposal
  anyCodec : Codec Any
  /-- The error of `Protobuf::decode_vec` on these bytes, with the text of the conversion's error
  where it was that which failed. -/
  decodeVecError : Bytes → Option String → String
  /-- `{e:?}` of a `HostError`. -/
  debugHostError : HostError → String

/-- What `ibc-rs` does with a proposal. An upgrade is executed on the store of the upgrade context,
a recovery on the world of the governance module's clone of `Ibc`; all of it returns. -/
class ProposalHandlers (R : Type) (MsgRecoverClient : outParam Type) [Sha256] where
  executeUpgradeClientProposal : UpgradeProposal → InMemoryStore →
    Except HostError Event × InMemoryStore
  execute_sameBase : ∀ (proposal : UpgradeProposal) (s : InMemoryStore),
    s.SameBase (executeUpgradeClientProposal proposal s).2
  /-- `recover_client::validate` and `recover_client::execute`, with `{e:?}` of their errors. -/
  recoverValidate : MsgRecoverClient → World (Memory R) → Except String Unit
  recoverExecute : MsgRecoverClient → Handler (Memory R) (Except String Unit)
  recoverExecute_isSome : ∀ (message : MsgRecoverClient) (w : World (Memory R)),
    ((recoverExecute message).run w).isSome

/-! ## `msg.rs` -/

namespace MsgSubmitProposal

def typeUrl : String := "/cosmos.gov.v1beta1.MsgSubmitProposal"

def proposal (self : MsgSubmitProposal) (proposalCounter : UInt64) : Proposal :=
  { proposalId := proposalCounter
    content := self.content
    status := .votingPeriod
    finalTallyResult := none
    submitTime := none
    depositEndTime := none
    totalDeposit := self.initialDeposit
    votingStartTime := none
    votingEndTime := none }

variable [Bech32] [U256Text]

/-- `TryFrom<RawMsgSubmitProposal>`; `none` is the index into an empty deposit, or the `unwrap`
of a missing content. -/
def tryFromRaw (raw : RawMsgSubmitProposal) : Option (Except Error MsgSubmitProposal) :=
  match raw.initialDeposit with
  | [] => none
  | deposit :: _ =>
    match Coin.tryFromProto deposit with
    | .error e => some (.error e)
    | .ok coin => raw.content.map fun content =>
      .ok { content, initialDeposit := coin, proposer := raw.proposer }

variable {MsgRecoverClient : Type} [GovHost MsgRecoverClient]

/-- `TryFrom<Any>`, through `decode_vec`. -/
def tryFromAny (raw : Any) : Option (Except Error MsgSubmitProposal) :=
  if raw.typeUrl = typeUrl then
    match GovHost.decodeMsgSubmitProposal raw.value with
    | .error e => some (.error (.custom e))
    | .ok message => tryFromRaw message
  else some (.error (.custom raw.typeUrl))

end MsgSubmitProposal

/-! ## `proposal.rs`, in an `Any` -/

namespace Proposal

def typeUrl : String := "/cosmos.gov.v1beta1.Proposal"

variable [Bech32] [U256Text] {MsgRecoverClient : Type} [GovHost MsgRecoverClient]

/-- `TryFrom<Any>`, through `decode_vec`. -/
def tryFromAny (raw : Any) : Option (Except GovError Proposal) :=
  if raw.typeUrl = typeUrl then
    match GovHost.rawProposalCodec.decode raw.value with
    | none => some (.error (.invalidProposal (GovHost.decodeVecError raw.value none)))
    | some proposal => (tryFromRaw proposal).map fun result => result.mapError fun e =>
      .invalidProposal (GovHost.decodeVecError raw.value (some e.toString))
  else some (.error (.invalidProposal raw.typeUrl))

omit [Bech32] in
/-- `From<Proposal> for Any`. -/
def toAny (value : Proposal) : Any :=
  { typeUrl, value := GovHost.rawProposalCodec.encode value.toRaw }

omit [Bech32] in
/-- The id can be told from the `Any`. -/
theorem proposalId_of_toAny {p q : Proposal} (h : p.toAny = q.toAny) :
    p.proposalId = q.proposalId := by
  have hraw : p.toRaw = q.toRaw :=
    GovHost.rawProposalCodec.encode_injective (congrArg Any.value h)
  exact congrArg RawProposal.proposalId hraw

end Proposal

namespace Governance

variable [Sha256] [Bech32] [U256Text] {R MsgRecoverClient : Type} [GovHost MsgRecoverClient]
  [ProposalHandlers R MsgRecoverClient] [BuildProfile]

/-! ## `impls.rs` -/

section Store

omit [Sha256] [Bech32] [U256Text]

/-- `ProposalPath::sdk_path`, from `PROPOSAL_BYTE`. -/
def sdkPath : String := "0x0"

/-- `ProtobufStore<_, ProposalPath, Proposal, Any>`, before its values are converted. -/
def proposalStore : TypedStore String Any :=
  { display := id, codec := GovHost.anyCodec }

end Store

/-- `self.proposal.get`; `none` is a panic of the conversion, whose error is dropped. -/
def getProposal (s : InMemoryStore) (height : Height) : Option (Option Proposal) :=
  match proposalStore.get s height sdkPath with
  | none => some none
  | some raw => (Proposal.tryFromAny raw).map Except.toOption

/-- `self.proposal.set(ProposalPath::sdk_path(), proposal).unwrap()`, without the conversion of the
proposal that is replaced: it has no effect (`replaced_converts`). -/
def setProposal (store : StoreRef) (proposal : Proposal) : Handler (Memory R) Unit :=
  Handler.onStore store (fun s => some ((), (proposalStore.set s sdkPath proposal.toAny).2))
    (by
      intro s _ s' h
      exact (Prod.mk.inj (Option.some.inj h)).2 ▸ proposalStore.set_sameBase s _ _)

/-- Counting one more proposal overflows, in a build that checks. -/
def CounterFull (mem : Memory R) : Prop :=
  BuildProfile.overflowChecks = true ∧ mem.proposalCounter.toNat + 1 = UInt64.size

instance (mem : Memory R) : Decidable (CounterFull mem) := inferInstanceAs (Decidable (_ ∧ _))

/-- `self.proposal_counter += 1`. -/
def countProposal : Handler (Memory R) Unit :=
  Handler.onMem fun mem =>
    if CounterFull mem then none
    else some { mem with proposalCounter := mem.proposalCounter + 1 }

def executeUpgrade (upgradeStore : StoreRef) (upgradeProposal : UpgradeProposal) :
    Handler (Memory R) (Except HostError Event) :=
  Handler.onStore upgradeStore
    (fun s => some (ProposalHandlers.executeUpgradeClientProposal R upgradeProposal s))
    (by
      intro s _ s' h
      have hbase := ProposalHandlers.execute_sameBase (R := R) upgradeProposal s
      rw [Option.some.inj h] at hbase
      exact hbase)

/-- The branch of `UPGRADE_PROPOSAL_TYPE_URL`, once the content is decoded. -/
def deliverUpgrade (store upgradeStore : StoreRef) (message : MsgSubmitProposal)
    (upgradeProposal : UpgradeProposal) : Handler (Memory R) (Except Error (List Event)) := do
  match ← executeUpgrade upgradeStore upgradeProposal with
  | .error e =>
    pure (.error (.custom ("Error handling upgrade proposal: " ++ GovHost.debugHostError e)))
  | .ok event =>
    let proposalCounter ← Handler.read fun w => w.mem.proposalCounter
    setProposal store (message.proposal proposalCounter)
    countProposal
    pure (.ok [event])

/-- `GovError::ValidationFailure`. -/
def validationFailure (reason : String) : Error := .gov ("failed to validate: `" ++ reason ++ "`")

/-- The branch of `RECOVER_CLIENT_TYPE_URL`, once the content is decoded. -/
def deliverRecovery (msgRecoverClient : MsgRecoverClient) :
    Handler (Memory R) (Except Error (List Event)) := do
  match ← Handler.read (ProposalHandlers.recoverValidate msgRecoverClient) with
  | .error e => pure (.error (validationFailure ("Error validating client recovery message: " ++ e)))
  | .ok () =>
    match ← ProposalHandlers.recoverExecute msgRecoverClient with
    | .error e => pure (.error (validationFailure ("Error executing client recovery message: " ++ e)))
    | .ok () => pure (.ok [])

def deliver (store upgradeStore : StoreRef) (message : Any) :
    Handler (Memory R) (Except Error (List Event)) :=
  match MsgSubmitProposal.tryFromAny message with
  | none => .panic
  | some (.error _) => pure (.error .notHandled)
  | some (.ok message) =>
    if message.content.typeUrl = GovHost.upgradeProposalTypeUrl then
      match GovHost.decodeUpgradeProposal message.content.value with
      | none => .panic
      | some upgradeProposal => deliverUpgrade store upgradeStore message upgradeProposal
    else if message.content.typeUrl = GovHost.recoverClientTypeUrl then
      match GovHost.decodeMsgRecoverClient message.content.value with
      | none => .panic
      | some msgRecoverClient => deliverRecovery msgRecoverClient
    else pure (.error .notHandled)

def query (s : InMemoryStore) (path : Option Path) : Except Error QueryResult :=
  match path with
  | none => .error .notHandled
  | some path =>
    if path.toString ≠ "/cosmos.gov.v1beta1.Query/Proposal" then .error .notHandled
    else
      match s.get .pending (Path.ofString sdkPath) with
      | none => .error (.custom "Data not found")
      | some data => .ok { data, proof := none }

/-- `Governance`, as a module over the store behind `store`; `upgradeStore` is the store of its
upgrade context. -/
def module {G : Type} (store upgradeStore : StoreRef) : Module (Memory R) G where
  store := store
  deliver message _ := deliver store upgradeStore message
  query _ path _ _ w := some (query (w.stores store) path)

/-! ## What a message must bring

What keeps `deliver` from a panic, as conditions on the message and the state. A message that is
rejected with an error meets them too. -/

/-- The message is a `MsgSubmitProposal` with these fields. -/
def Submits (message : Any) (raw : RawMsgSubmitProposal) : Prop :=
  message.typeUrl = MsgSubmitProposal.typeUrl ∧
    GovHost.decodeMsgSubmitProposal message.value = .ok raw

/-- The content decodes as the type its URL names, if that is one of the two. -/
def ContentDecodes (content : Any) : Prop :=
  (content.typeUrl = GovHost.upgradeProposalTypeUrl →
    (GovHost.decodeUpgradeProposal content.value).isSome) ∧
  (content.typeUrl = GovHost.recoverClientTypeUrl →
    (GovHost.decodeMsgRecoverClient content.value).isSome)

/-- No deposit, no content, or content that is not what it says. -/
def Malformed (raw : RawMsgSubmitProposal) : Prop :=
  raw.initialDeposit = [] ∨ raw.content = none ∨
    ∃ content, raw.content = some content ∧ ¬ ContentDecodes content

/-- The upgrade context takes the proposal. -/
def Accepts (upgradeStore : StoreRef) (w : World (Memory R)) (content : Any) : Prop :=
  content.typeUrl = GovHost.upgradeProposalTypeUrl ∧
    ∃ upgradeProposal event, GovHost.decodeUpgradeProposal content.value = some upgradeProposal ∧
      (ProposalHandlers.executeUpgradeClientProposal R upgradeProposal
        (w.stores upgradeStore)).1 = .ok event

/-- What `deliver` relies on: there is a deposit, and either it does not read as a coin, or there
is content that is what it says, and if it is taken it can be counted. -/
def Readable (upgradeStore : StoreRef) (w : World (Memory R)) (raw : RawMsgSubmitProposal) : Prop :=
  ∃ deposit rest, raw.initialDeposit = deposit :: rest ∧
    ∀ coin, Coin.tryFromProto deposit = .ok coin →
      ∃ content, raw.content = some content ∧ ContentDecodes content ∧
        (Accepts upgradeStore w content → ¬ CounterFull w.mem)

/-! ## The branches -/

omit [Bech32] [U256Text] [GovHost MsgRecoverClient] [BuildProfile] in
theorem run_executeUpgrade (upgradeStore : StoreRef) (upgradeProposal : UpgradeProposal)
    (w : World (Memory R)) :
    (executeUpgrade upgradeStore upgradeProposal).run w =
      some ((ProposalHandlers.executeUpgradeClientProposal R upgradeProposal
          (w.stores upgradeStore)).1,
        w.modify upgradeStore fun s =>
          (ProposalHandlers.executeUpgradeClientProposal R upgradeProposal s).2) := rfl

omit [Bech32] [ProposalHandlers R MsgRecoverClient] [BuildProfile] in
theorem run_setProposal (store : StoreRef) (proposal : Proposal) (w : World (Memory R)) :
    (setProposal store proposal).run w =
      some ((), w.modify store fun s => (proposalStore.set s sdkPath proposal.toAny).2) := rfl

omit [Bech32] [U256Text] in
theorem run_countProposal_full {w : World (Memory R)} (h : CounterFull w.mem) :
    countProposal.run w = none := by
  rw [countProposal, Handler.run_onMem, if_pos h, Option.map_none]

omit [Bech32] [U256Text] in
theorem run_countProposal {w : World (Memory R)} (h : ¬ CounterFull w.mem) :
    countProposal.run w =
      some ((), { w with mem := { w.mem with
        proposalCounter := w.mem.proposalCounter + 1 } }) := by
  rw [countProposal, Handler.run_onMem, if_neg h, Option.map_some]

theorem deliverUpgrade_isSome_iff {store upgradeStore : StoreRef} {message : MsgSubmitProposal}
    {upgradeProposal : UpgradeProposal} {w : World (Memory R)} :
    ((deliverUpgrade store upgradeStore message upgradeProposal).run w).isSome ↔
      ((∃ event, (ProposalHandlers.executeUpgradeClientProposal R upgradeProposal
        (w.stores upgradeStore)).1 = .ok event) → ¬ CounterFull w.mem) := by
  unfold deliverUpgrade
  rw [Handler.run_bind, run_executeUpgrade, Option.bind_some]
  cases hresult : (ProposalHandlers.executeUpgradeClientProposal R upgradeProposal
      (w.stores upgradeStore)).1 with
  | error e =>
    refine iff_of_true rfl ?_
    rintro ⟨event, hok⟩
    cases hok
  | ok event =>
    have hok : ∃ event', (Except.ok event : Except HostError Event) = .ok event' := ⟨event, rfl⟩
    simp only [Handler.run_bind, Handler.run_read, Option.bind_some, run_setProposal]
    by_cases h : CounterFull w.mem
    · rw [run_countProposal_full (by exact h)]
      exact iff_of_false Bool.false_ne_true fun hfits => hfits hok h
    · rw [run_countProposal (by exact h)]
      exact iff_of_true rfl fun _ => h

omit [U256Text] [GovHost MsgRecoverClient] [BuildProfile] in
theorem deliverRecovery_isSome (msgRecoverClient : MsgRecoverClient) (w : World (Memory R)) :
    ((deliverRecovery msgRecoverClient).run w).isSome := by
  unfold deliverRecovery
  rw [Handler.run_bind, Handler.run_read, Option.bind_some]
  cases ProposalHandlers.recoverValidate msgRecoverClient w with
  | error e => rfl
  | ok =>
    obtain ⟨⟨result, w'⟩, hexecute⟩ := Option.isSome_iff_exists.mp
      (ProposalHandlers.recoverExecute_isSome msgRecoverClient w)
    dsimp only
    rw [Handler.run_bind, hexecute, Option.bind_some]
    cases result with
    | error e => rfl
    | ok => rfl

/-! ## `deliver` -/

/-- A message that is not a `MsgSubmitProposal` is not handled. -/
theorem run_deliver_other {message : Any} (h : ∀ raw, ¬ Submits message raw)
    (store upgradeStore : StoreRef) (w : World (Memory R)) :
    (deliver store upgradeStore message).run w = some (.error .notHandled, w) := by
  unfold deliver MsgSubmitProposal.tryFromAny
  by_cases hurl : message.typeUrl = MsgSubmitProposal.typeUrl
  · rw [if_pos hurl]
    cases hdecode : GovHost.decodeMsgSubmitProposal message.value with
    | error e => rfl
    | ok raw => exact absurd ⟨hurl, hdecode⟩ (h raw)
  · rw [if_neg hurl]
    rfl

omit [Sha256] [BuildProfile] in
theorem tryFromAny_of_submits {message : Any} {raw : RawMsgSubmitProposal}
    (h : Submits message raw) :
    MsgSubmitProposal.tryFromAny message = MsgSubmitProposal.tryFromRaw raw := by
  rw [MsgSubmitProposal.tryFromAny, if_pos h.1, h.2]

/-- The fate of a message is that of its content. -/
theorem deliver_isSome_iff {message : Any} {submitted : MsgSubmitProposal}
    (h : MsgSubmitProposal.tryFromAny message = some (.ok submitted))
    (store upgradeStore : StoreRef) (w : World (Memory R)) :
    ((deliver store upgradeStore message).run w).isSome ↔
      ContentDecodes submitted.content ∧
        (Accepts upgradeStore w submitted.content → ¬ CounterFull w.mem) := by
  unfold deliver
  rw [h]
  dsimp only
  by_cases hupgrade : submitted.content.typeUrl = GovHost.upgradeProposalTypeUrl
  · rw [if_pos hupgrade]
    have hother : submitted.content.typeUrl ≠ GovHost.recoverClientTypeUrl :=
      fun hrecover => GovHost.typeUrl_ne (hupgrade.symm.trans hrecover)
    cases hdecode : GovHost.decodeUpgradeProposal submitted.content.value with
    | none =>
      refine iff_of_false Bool.false_ne_true fun hand => ?_
      have hsome := hand.1.1 hupgrade
      rw [hdecode] at hsome
      exact Bool.false_ne_true hsome
    | some upgradeProposal =>
      -- only an accepted upgrade proposal takes an id, which is where the counter can overflow
      have hdecodes : ContentDecodes submitted.content :=
        ⟨fun _ => hdecode ▸ rfl, fun hrecover => absurd hrecover hother⟩
      have haccepts : Accepts upgradeStore w submitted.content ↔
          ∃ event, (ProposalHandlers.executeUpgradeClientProposal R upgradeProposal
            (w.stores upgradeStore)).1 = .ok event := by
        constructor
        · rintro ⟨-, p, event, hp, hok⟩
          obtain rfl := Option.some.inj (hdecode.symm.trans hp)
          exact ⟨event, hok⟩
        · rintro ⟨event, hok⟩
          exact ⟨hupgrade, upgradeProposal, event, hdecode, hok⟩
      rw [haccepts, and_iff_right hdecodes]
      exact deliverUpgrade_isSome_iff
  · rw [if_neg hupgrade]
    have haccepts : ¬ Accepts upgradeStore w submitted.content := fun h => hupgrade h.1
    by_cases hrecover : submitted.content.typeUrl = GovHost.recoverClientTypeUrl
    · rw [if_pos hrecover]
      cases hdecode : GovHost.decodeMsgRecoverClient submitted.content.value with
      | none =>
        refine iff_of_false Bool.false_ne_true fun hand => ?_
        have hsome := hand.1.2 hrecover
        rw [hdecode] at hsome
        exact Bool.false_ne_true hsome
      | some msgRecoverClient =>
        exact iff_of_true (deliverRecovery_isSome msgRecoverClient w)
          ⟨⟨fun h => absurd h hupgrade, fun _ => hdecode ▸ rfl⟩, fun h => absurd h haccepts⟩
    · rw [if_neg hrecover]
      exact iff_of_true rfl
        ⟨⟨fun h => absurd h hupgrade, fun h => absurd h hrecover⟩, fun h => absurd h haccepts⟩

theorem deliver_submitted_iff {message : Any} {raw : RawMsgSubmitProposal}
    (h : Submits message raw) (store upgradeStore : StoreRef) (w : World (Memory R)) :
    ((deliver store upgradeStore message).run w).isSome ↔ Readable upgradeStore w raw := by
  -- the cases follow `try_from`: the first deposit, its coin, the content
  have hany := tryFromAny_of_submits h
  rw [MsgSubmitProposal.tryFromRaw] at hany
  unfold Readable
  cases hdeposit : raw.initialDeposit with
  | nil =>
    rw [hdeposit] at hany
    unfold deliver
    rw [hany]
    refine iff_of_false Bool.false_ne_true ?_
    rintro ⟨deposit, rest, heq, -⟩
    cases heq
  | cons deposit rest =>
    rw [hdeposit] at hany
    dsimp only at hany
    cases hcoin : Coin.tryFromProto deposit with
    | error e =>
      rw [hcoin] at hany
      unfold deliver
      rw [hany]
      refine iff_of_true rfl ⟨deposit, rest, rfl, fun coin hread => ?_⟩
      rw [hcoin] at hread
      cases hread
    | ok coin =>
      rw [hcoin] at hany
      dsimp only at hany
      cases hcontent : raw.content with
      | none =>
        rw [hcontent] at hany
        unfold deliver
        rw [hany]
        refine iff_of_false Bool.false_ne_true ?_
        rintro ⟨deposit', rest', heq, hrest⟩
        obtain ⟨rfl, -⟩ := List.cons.inj heq
        obtain ⟨content, heq', -⟩ := hrest coin hcoin
        cases heq'
      | some content =>
        rw [hcontent] at hany
        rw [deliver_isSome_iff hany]
        constructor
        · intro hboth
          exact ⟨deposit, rest, rfl, fun _ _ => ⟨content, rfl, hboth⟩⟩
        · rintro ⟨deposit', rest', heq, hrest⟩
          obtain ⟨rfl, -⟩ := List.cons.inj heq
          obtain ⟨content', heq', hboth⟩ := hrest coin hcoin
          obtain rfl := Option.some.inj heq'
          exact hboth

/-- What is malformed and yet readable has a deposit that does not read, and is not handled. -/
theorem run_deliver_malformed {message : Any} {raw : RawMsgSubmitProposal}
    (h : Submits message raw) (hmal : Malformed raw) {store upgradeStore : StoreRef}
    {w : World (Memory R)} (hread : Readable upgradeStore w raw) :
    (deliver store upgradeStore message).run w = some (.error .notHandled, w) := by
  obtain ⟨deposit, rest, hdeposit, hrest⟩ := hread
  have hany := tryFromAny_of_submits h
  rw [MsgSubmitProposal.tryFromRaw, hdeposit] at hany
  dsimp only at hany
  cases hcoin : Coin.tryFromProto deposit with
  | error e =>
    rw [hcoin] at hany
    unfold deliver
    rw [hany]
    rfl
  | ok coin =>
    obtain ⟨content, hcontent, hdecodes, -⟩ := hrest coin hcoin
    rcases hmal with hnil | hnone | ⟨content', hcontent', hbad⟩
    · rw [hdeposit] at hnil
      cases hnil
    · rw [hcontent] at hnone
      cases hnone
    · obtain rfl := Option.some.inj (hcontent.symm.trans hcontent')
      exact absurd hdecodes hbad

/-- **Governance returns exactly on readable messages.** For every message and every state,
`deliver` returns, and rejects what has no deposit, no content or content that is not what its type
URL says, if and only if the message is not a decodable `MsgSubmitProposal` or is one that is
readable in that state. -/
theorem deliver_returns_iff (store upgradeStore : StoreRef) (message : Any)
    (w : World (Memory R)) :
    (∃ r w', (deliver store upgradeStore message).run w = some (r, w') ∧
      ∀ raw, Submits message raw → Malformed raw → ∃ e, r = .error e) ↔
      ∀ raw, Submits message raw → Readable upgradeStore w raw := by
  constructor
  · rintro ⟨r, w', hrun, -⟩ raw hraw
    exact (deliver_submitted_iff hraw store upgradeStore w).mp (hrun ▸ rfl)
  · intro h
    by_cases hsubmits : ∃ raw, Submits message raw
    · obtain ⟨raw, hraw⟩ := hsubmits
      have hread := h raw hraw
      obtain ⟨⟨r, w'⟩, hrun⟩ := Option.isSome_iff_exists.mp
        ((deliver_submitted_iff hraw store upgradeStore w).mpr hread)
      refine ⟨r, w', hrun, fun raw' hraw' hmal => ?_⟩
      rw [run_deliver_malformed hraw' hmal (h raw' hraw')] at hrun
      obtain ⟨rfl, -⟩ := Prod.mk.inj (Option.some.inj hrun)
      exact ⟨_, rfl⟩
    · have hother : ∀ raw, ¬ Submits message raw := fun raw hraw => hsubmits ⟨raw, hraw⟩
      exact ⟨_, _, run_deliver_other hother store upgradeStore w,
        fun raw hraw _ => absurd hraw (hother raw)⟩

/-! ## What `deliver` preserves -/

/-- The message is a proposal of this upgrade. -/
def Proposes (message : Any) (upgradeProposal : UpgradeProposal) : Prop :=
  ∃ submitted, MsgSubmitProposal.tryFromAny message = some (.ok submitted) ∧
    submitted.content.typeUrl = GovHost.upgradeProposalTypeUrl ∧
      GovHost.decodeUpgradeProposal submitted.content.value = some upgradeProposal

theorem keeps_deliverUpgrade {undone : Prop} {P : World (Memory R) → Prop}
    {store upgradeStore : StoreRef} {message : MsgSubmitProposal}
    {upgradeProposal : UpgradeProposal}
    (hset : ∀ proposal, (setProposal store proposal : Handler (Memory R) Unit).Preserves P)
    (hcount : (countProposal : Handler (Memory R) Unit).Preserves P)
    (hexecute : Handler.Triple P (executeUpgrade upgradeStore upgradeProposal) fun result w =>
      (∀ e, result = .error e → ¬ undone) → P w) :
    (deliverUpgrade store upgradeStore message upgradeProposal).Keeps undone P := by
  unfold deliverUpgrade
  refine Handler.triple_bind hexecute fun executed => ?_
  cases executed with
  | error e =>
    -- the error is an answer too, so what it left need not be kept if it is undone
    refine Handler.triple_pure fun w hw hcounts => hw fun e' _ hundone => ?_
    cases hcounts _ rfl hundone
  | ok event =>
    have hrest : (do
        let proposalCounter ← Handler.read fun w : World (Memory R) => w.mem.proposalCounter
        setProposal store (message.proposal proposalCounter)
        countProposal
        pure (.ok [event]) : Handler (Memory R) (Except Error (List Event))).Preserves P :=
      Handler.triple_bind (Handler.preserves_read _) fun _ =>
        Handler.triple_bind (hset _) fun _ =>
          Handler.triple_bind hcount fun _ => Handler.preserves_pure _
    intro w a w' hw hrun _
    exact hrest w a w' (hw fun e he => by cases he) hrun

omit [U256Text] [GovHost MsgRecoverClient] [BuildProfile] in
theorem preserves_deliverRecovery {P : World (Memory R) → Prop}
    {msgRecoverClient : MsgRecoverClient}
    (hrecover :
      (ProposalHandlers.recoverExecute msgRecoverClient : Handler (Memory R) _).Preserves P) :
    (deliverRecovery msgRecoverClient : Handler (Memory R) _).Preserves P := by
  unfold deliverRecovery
  refine Handler.triple_bind (Handler.preserves_read _) fun validated => ?_
  cases validated with
  | error e => exact Handler.preserves_pure _
  | ok =>
    refine Handler.triple_bind hrecover fun executed => ?_
    cases executed with
    | error e => exact Handler.preserves_pure _
    | ok => exact Handler.preserves_pure _

theorem keeps_deliver {undone : Prop} {P : World (Memory R) → Prop} {store upgradeStore : StoreRef}
    {message : Any}
    (hset : ∀ proposal, (setProposal store proposal : Handler (Memory R) Unit).Preserves P)
    (hcount : (countProposal : Handler (Memory R) Unit).Preserves P)
    (hexecute : ∀ upgradeProposal, Proposes message upgradeProposal →
      Handler.Triple P (executeUpgrade upgradeStore upgradeProposal) fun result w =>
        (∀ e, result = .error e → ¬ undone) → P w)
    (hrecover : ∀ msgRecoverClient : MsgRecoverClient,
      (ProposalHandlers.recoverExecute msgRecoverClient : Handler (Memory R) _).Preserves P) :
    (deliver store upgradeStore message).Keeps undone P := by
  unfold deliver
  cases hany : MsgSubmitProposal.tryFromAny message with
  | none => exact Handler.triple_panic
  | some result =>
    cases result with
    | error e => exact (Handler.preserves_pure _).keeps
    | ok submitted =>
      dsimp only
      by_cases hupgrade : submitted.content.typeUrl = GovHost.upgradeProposalTypeUrl
      · rw [if_pos hupgrade]
        cases hdecode : GovHost.decodeUpgradeProposal submitted.content.value with
        | none => exact Handler.triple_panic
        | some upgradeProposal =>
          exact keeps_deliverUpgrade hset hcount
            (hexecute _ ⟨submitted, hany, hupgrade, hdecode⟩)
      · rw [if_neg hupgrade]
        by_cases hurl : submitted.content.typeUrl = GovHost.recoverClientTypeUrl
        · rw [if_pos hurl]
          cases GovHost.decodeMsgRecoverClient submitted.content.value with
          | none => exact Handler.triple_panic
          | some msgRecoverClient => exact (preserves_deliverRecovery (hrecover _)).keeps
        · rw [if_neg hurl]
          exact (Handler.preserves_pure _).keeps

end Governance

/-! ## An empty message -/

section EmptyMessage

local instance emptyBech32 : Bech32 := Bech32.any

local instance emptySha256 : Sha256 := Sha256.ones

local instance emptyU256Text : U256Text :=
  { display := fun a => toString a.toNat
    fromStrRadix := fun text => (readText 10 text).elim (.error "invalid digit") .ok }

local instance emptyBuildProfile : BuildProfile := ⟨true⟩

theorem typeUrls_ne :
    "/ibc.core.client.v1.UpgradeProposal" ≠ "/ibc.core.client.v1.MsgRecoverClient" := by decide

/-- No field is on the wire, so every field has its default. -/
local instance emptyGovHost : GovHost Unit :=
  { decodeMsgSubmitProposal := fun bytes =>
      if bytes = [] then .ok { content := none, initialDeposit := [], proposer := "" }
      else .error "invalid wire type"
    upgradeProposalTypeUrl := "/ibc.core.client.v1.UpgradeProposal"
    recoverClientTypeUrl := "/ibc.core.client.v1.MsgRecoverClient"
    typeUrl_ne := typeUrls_ne
    decodeUpgradeProposal := fun _ => none
    decodeMsgRecoverClient := fun _ => none
    rawProposalCodec := Codec.ofEncodable _
    anyCodec := Codec.ofEncodable _
    decodeVecError := fun _ _ => ""
    debugHostError := fun _ => "" }

local instance emptyProposalHandlers : ProposalHandlers Unit Unit :=
  { executeUpgradeClientProposal := fun _ s => (.error (.other "not convertible"), s)
    execute_sameBase := fun _ s => .refl s
    recoverValidate := fun _ _ => .error "not found"
    recoverExecute := fun _ => pure (.error "not found")
    recoverExecute_isSome := fun _ _ => rfl }

def emptyWorld : World (Memory Unit) :=
  { stores := fun _ => InMemoryStore.default
    mem := { consensusStates := fun _ => none, proposalCounter := 0, rest := () } }

/-- A proposal with neither deposit nor content is not rejected. -/
theorem empty_not_rejected :
    Governance.Submits ⟨MsgSubmitProposal.typeUrl, []⟩ ⟨none, [], ""⟩ ∧
    Governance.Malformed ⟨none, [], ""⟩ ∧
      ¬ ∃ r w', (Governance.deliver 5 4 ⟨MsgSubmitProposal.typeUrl, []⟩).run emptyWorld =
        some (r, w') := by
  refine ⟨⟨rfl, rfl⟩, .inl rfl, ?_⟩
  rintro ⟨r, w', hrun⟩
  cases hrun

end EmptyMessage

end Basecoin
