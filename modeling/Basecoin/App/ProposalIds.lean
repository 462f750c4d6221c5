import Basecoin.App.Upgrades

/-!
# The ids of proposals

A proposal is kept in the store of the governance module and numbered from a counter in its memory.
`deliver_tx` resets the stores of a transaction that fails and leaves the memory, so a proposal that
is undone with its transaction has used up an id. Where no transaction fails after a proposal of its
own (`NoneUndone`), the counter is the number of proposals of successful transactions, and each is
stored under the number of those before it.

The counter and the store are looked at together, as what is kept of proposals (`Kept`). A message
that goes through keeps the one it submits, if any, and a message that fails keeps nothing
(`Leaves`): the modules before governance do not handle a proposal, and an upgrade that is refused
is refused before anything is stored. So all that a failing transaction can leave behind comes from
the messages before the one that failed. Only upgrade proposals are numbered; a recovery of a client
is executed and forgotten.
-/

namespace Basecoin

open Lib

/-! ## Numbered proposals -/

namespace Governance

section Messages

variable [Bech32] [U256Text] {MsgRecoverClient : Type} [GovHost MsgRecoverClient]

/-- The upgrade proposal that a message submits. -/
def upgradeOf? (message : Any) : Option MsgSubmitProposal :=
  match MsgSubmitProposal.tryFromAny message with
  | some (.ok submitted) =>
    if submitted.content.typeUrl = GovHost.upgradeProposalTypeUrl then some submitted else none
  | _ => none

/-- The upgrade proposals that messages submit, in their order. -/
def upgradesOf (messages : List Any) : List MsgSubmitProposal := messages.filterMap upgradeOf?

@[simp] theorem upgradesOf_nil : upgradesOf [] = [] := rfl

theorem upgradesOf_cons (message : Any) (messages : List Any) :
    upgradesOf (message :: messages) = (upgradeOf? message).toList ++ upgradesOf messages := by
  rw [upgradesOf, upgradesOf]
  cases h : upgradeOf? message with
  | none => rw [List.filterMap_cons_none h, Option.toList_none, List.nil_append]
  | some submitted => rw [List.filterMap_cons_some h, Option.toList_some, List.singleton_append]

theorem upgradesOf_concat {message : Any} {submitted : MsgSubmitProposal}
    (h : upgradeOf? message = some submitted) (messages : List Any) :
    upgradesOf (messages ++ [message]) = upgradesOf messages ++ [submitted] := by
  rw [upgradesOf, List.filterMap_append, List.filterMap_cons_some h, List.filterMap_nil]
  rfl

theorem upgradeOf?_eq_some_iff {message : Any} {submitted : MsgSubmitProposal} :
    upgradeOf? message = some submitted ↔
      MsgSubmitProposal.tryFromAny message = some (.ok submitted) ∧
        submitted.content.typeUrl = GovHost.upgradeProposalTypeUrl := by
  unfold upgradeOf?
  cases MsgSubmitProposal.tryFromAny message with
  | none => simp
  | some result =>
    cases result with
    | error e => simp
    | ok other =>
      dsimp only
      by_cases hurl : other.content.typeUrl = GovHost.upgradeProposalTypeUrl
      · rw [if_pos hurl, Option.some.injEq, Option.some.injEq, Except.ok.injEq]
        constructor
        · rintro rfl
          exact ⟨rfl, hurl⟩
        · exact And.left
      · rw [if_neg hurl]
        refine iff_of_false (by simp) ?_
        rintro ⟨heq, hsubmitted⟩
        obtain rfl := Except.ok.inj (Option.some.inj heq)
        exact hurl hsubmitted

theorem typeUrl_of_tryFromAny {message : Any} {submitted : MsgSubmitProposal}
    (h : MsgSubmitProposal.tryFromAny message = some (.ok submitted)) :
    message.typeUrl = MsgSubmitProposal.typeUrl := by
  by_contra hurl
  rw [MsgSubmitProposal.tryFromAny, if_neg hurl] at h
  cases h

end Messages

section Numbered

variable [Sha256] [U256Text] {MsgRecoverClient : Type} [GovHost MsgRecoverClient]

/-- What the module keeps of proposals: the counter in memory, and the store. -/
structure Kept where
  counter : UInt64
  store : InMemoryStore

/-- One more is stored, then counted. -/
def Kept.keep (kept : Kept) (submitted : MsgSubmitProposal) : Kept :=
  { counter := kept.counter + 1
    store := (proposalStore.set kept.store sdkPath (submitted.proposal kept.counter).toAny).2 }

/-- These were accepted: they are counted, and the last of them is stored with the number of those
before it as its id. -/
structure Numbered (ps : List MsgSubmitProposal) (kept : Kept) : Prop where
  counted : kept.counter = UInt64.ofNat ps.length
  stored : proposalStore.get kept.store .pending sdkPath =
    ps.getLast?.map fun submitted => (submitted.proposal (UInt64.ofNat (ps.length - 1))).toAny

namespace Numbered

variable {ps : List MsgSubmitProposal} {kept : Kept}

theorem initial : Numbered [] ⟨0, InMemoryStore.default⟩ := ⟨rfl, rfl⟩

/-- Of the store only what is pending counts. -/
theorem congr (h : Numbered ps kept) {s : InMemoryStore}
    (hread : ∀ path, s.get .pending path = kept.store.get .pending path) :
    Numbered ps { kept with store := s } := by
  refine ⟨h.counted, ?_⟩
  rw [TypedStore.get, hread]
  exact h.stored

theorem keep (h : Numbered ps kept) (submitted : MsgSubmitProposal) :
    Numbered (ps ++ [submitted]) (kept.keep submitted) := by
  refine ⟨?_, ?_⟩
  · rw [Kept.keep, h.counted, List.length_append, List.length_singleton, UInt64.ofNat_add]
    rfl
  · rw [Kept.keep, proposalStore.get_set, if_pos rfl, List.getLast?_concat, Option.map_some,
      h.counted, List.length_append, List.length_singleton, Nat.add_sub_cancel]

theorem foldl_keep (h : Numbered ps kept) (qs : List MsgSubmitProposal) :
    Numbered (ps ++ qs) (qs.foldl Kept.keep kept) := by
  induction qs generalizing ps kept with
  | nil =>
    rw [List.append_nil]
    exact h
  | cons q qs ih =>
    rw [List.append_cons, List.foldl_cons]
    exact ih (h.keep q)

theorem stored_last {submitted : MsgSubmitProposal} (h : Numbered (ps ++ [submitted]) kept) :
    proposalStore.get kept.store .pending sdkPath =
      some (submitted.proposal (UInt64.ofNat ps.length)).toAny := by
  rw [h.stored, List.getLast?_concat, Option.map_some, List.length_append, List.length_singleton,
    Nat.add_sub_cancel]

end Numbered

end Numbered

/-! ## What a message leaves

A message is followed through the loop over the modules by what it does to the counter and to the
proposals together (`Kept`), since only the pair has an invariant. -/

section Kept

variable [Sha256] {R : Type}

def kept (w : World (Memory R)) : Kept := ⟨w.mem.proposalCounter, w.stores 5⟩

theorem kept_modify (w : World (Memory R)) {ref : StoreRef} (href : 5 ≠ ref)
    (f : InMemoryStore → InMemoryStore) : kept (w.modify ref f) = kept w := by
  rw [kept, World.modify_other _ _ href]
  rfl

end Kept

variable [Sha256] [Bech32] [U256Text] {R MsgRecoverClient : Type} [GovHost MsgRecoverClient]

/-- Where `before` was kept: one more if the message submits one, unless it fails. -/
structure Leaves (before : Kept) (message : Any) (result : Except Error (List Event))
    (w : World (Memory R)) : Prop where
  ok : ∀ events, result = .ok events →
    kept w = (upgradeOf? message).toList.foldl Kept.keep before
  error : ∀ e, result = .error e → kept w = before

variable {before : Kept} {message : Any}

/-- Nothing is kept where the message submits nothing, or fails. -/
theorem leaves_of_unchanged {result : Except Error (List Event)} {w : World (Memory R)}
    (hfails : ∀ submitted, upgradeOf? message = some submitted → ∃ e, result = .error e)
    (h : kept w = before) : Leaves before message result w := by
  refine ⟨fun events hok => ?_, fun _ _ => h⟩
  cases hsubmits : upgradeOf? message with
  | none => exact h
  | some submitted =>
    obtain ⟨e, he⟩ := hfails submitted hsubmits
    cases hok.symm.trans he

variable [ProposalHandlers R MsgRecoverClient] [BuildProfile]

/-- An upgrade is executed on another store, so nothing is kept of a proposal that fails. -/
theorem deliverUpgrade_leaves {submitted : MsgSubmitProposal}
    (hsubmits : upgradeOf? message = some submitted) (upgradeProposal : UpgradeProposal) :
    Handler.Triple (fun w : World (Memory R) => kept w = before)
      (deliverUpgrade 5 4 submitted upgradeProposal) (Leaves before message) := by
  unfold deliverUpgrade
  have hexecute : (executeUpgrade 4 upgradeProposal :
      Handler (Memory R) (Except HostError Event)).Preserves fun w => kept w = before := by
    intro w result w' hw hrun
    rw [run_executeUpgrade] at hrun
    obtain ⟨-, rfl⟩ := Prod.mk.inj (Option.some.inj hrun)
    exact (kept_modify w (by decide) _).trans hw
  refine Handler.triple_bind hexecute fun executed => ?_
  cases executed with
  | error e => exact Handler.triple_pure fun w hw => leaves_of_unchanged (fun _ _ => ⟨_, rfl⟩) hw
  | ok event =>
    -- stored under the counter as it is, and then counted
    rintro w result w' rfl hrun
    simp only [Handler.run_bind, Handler.run_read, Option.bind_some, run_setProposal] at hrun
    by_cases hfull : CounterFull w.mem
    · rw [run_countProposal_full (by exact hfull)] at hrun
      cases hrun
    · rw [run_countProposal (by exact hfull)] at hrun
      obtain ⟨rfl, rfl⟩ := Prod.mk.inj (Option.some.inj hrun)
      refine ⟨fun _ _ => ?_, fun e he => by cases he⟩
      rw [hsubmits, kept, World.modify_self]
      rfl

theorem deliver_leaves (hrecover : ∀ msgRecoverClient : MsgRecoverClient,
    (ProposalHandlers.recoverExecute msgRecoverClient : Handler (Memory R) _).Preserves fun w =>
      kept w = before) :
    Handler.Triple (fun w : World (Memory R) => kept w = before) (deliver 5 4 message)
      (Leaves before message) := by
  unfold deliver
  cases hany : MsgSubmitProposal.tryFromAny message with
  | none => exact Handler.triple_panic
  | some result =>
    cases result with
    | error e => exact Handler.triple_pure fun w => leaves_of_unchanged fun _ _ => ⟨_, rfl⟩
    | ok submitted =>
      dsimp only
      by_cases hupgrade : submitted.content.typeUrl = GovHost.upgradeProposalTypeUrl
      · rw [if_pos hupgrade]
        cases GovHost.decodeUpgradeProposal submitted.content.value with
        | none => exact Handler.triple_panic
        | some upgradeProposal =>
          exact deliverUpgrade_leaves (upgradeOf?_eq_some_iff.mpr ⟨hany, hupgrade⟩) upgradeProposal
      · have hother : ∀ submitted', upgradeOf? message ≠ some submitted' := fun submitted' hsome => by
          obtain ⟨hany', hupgrade'⟩ := upgradeOf?_eq_some_iff.mp hsome
          obtain rfl := Except.ok.inj (Option.some.inj (hany.symm.trans hany'))
          exact hupgrade hupgrade'
        rw [if_neg hupgrade]
        by_cases hurl : submitted.content.typeUrl = GovHost.recoverClientTypeUrl
        · rw [if_pos hurl]
          cases GovHost.decodeMsgRecoverClient submitted.content.value with
          | none => exact Handler.triple_panic
          | some msgRecoverClient =>
            exact Handler.triple_post (preserves_deliverRecovery (hrecover _)) fun _ _ =>
              leaves_of_unchanged fun submitted' hsome => absurd hsome (hother submitted')
        · rw [if_neg hurl]
          exact Handler.triple_pure fun w => leaves_of_unchanged fun _ _ => ⟨_, rfl⟩

end Governance

section ProposalIds

open Governance

variable [Sha256] [Bech32] [AuthCodec] [BankHost] [IbcHost] [ProofEncoding] [U256Text]
  {R G AnyClientState MsgRecoverClient : Type} [GenesisJson G U256]
  [UpgradeHost AnyClientState] [GovHost MsgRecoverClient] [ProposalHandlers R MsgRecoverClient]
  [BuildProfile] [Host G]
  {ibcDeliver : Any → AccountId → Handler (Memory R) (Except Error (List Event))}

/-! ## What the other crates do to proposals -/

/-- A call leaves the counter and the store of the governance module alone, as those of the ibc
module do, which has neither. -/
def KeepsProposals {α : Type} (x : Handler (Memory R) α) : Prop :=
  ∀ before : Kept, x.Preserves fun w => kept w = before

/-- The ibc module handles the messages of its own types only. -/
structure PassesProposals
    (ibcDeliver : Any → AccountId → Handler (Memory R) (Except Error (List Event))) : Prop where
  keeps : ∀ message signer, KeepsProposals (ibcDeliver message signer)
  passes : ∀ message signer w result w', message.typeUrl = MsgSubmitProposal.typeUrl →
    (ibcDeliver message signer).run w = some (result, w') → result = .error .notHandled

/-! ## The condition -/

/-- Of a transaction that fails, the messages before the one that does submit no upgrade. -/
def NoneUndone (app : BaseCoinApp (Memory R) G) : Request → Prop
  | .deliverTx tx => ∀ signer before message after,
    BaseCoinApp.admitTx tx = .ok (signer, before ++ message :: after) → ∀ events w e w',
      (deliverMsgs app.modules signer before []).run app.world = some (.ok events, w) →
      (deliverMsg message signer app.modules).run w = some (.error e, w') →
        upgradesOf before = []
  | _ => True

/-! ## Messages -/

omit [IbcHost] [ProofEncoding] [BuildProfile] in
theorem Bank.deliver_of_upgrade {message : Any} {submitted : MsgSubmitProposal}
    (h : upgradeOf? message = some submitted) (accounts s : InMemoryStore) :
    Bank.deliver accounts message s = some (.error .notHandled, s) := by
  have hurl := typeUrl_of_tryFromAny (upgradeOf?_eq_some_iff.mp h).1
  have hdecode : Bank.decode message = .error .notHandled := by
    rw [Bank.decode, hurl, if_neg (by decide)]
  rw [Bank.deliver, hdecode]

omit [Host G] in
/-- An upgrade passes the modules before the governance module, and what that does not handle leaves
no proposal. -/
theorem deliverMsg_leaves (hibc : PassesProposals ibcDeliver)
    (hrecover : ∀ msgRecoverClient : MsgRecoverClient,
      KeepsProposals (ProposalHandlers.recoverExecute msgRecoverClient : Handler (Memory R) _))
    (before : Kept) (message : Any) (signer : AccountId) :
    Handler.Triple (fun w : World (Memory R) => kept w = before)
      (deliverMsg message signer
        (defaultModules (chainModules ibcDeliver : Unmodelled (Memory R) G)))
      (Leaves before message) := by
  refine triple_deliverMsg (fun w => ⟨fun h => h.error _ rfl,
    leaves_of_unchanged fun _ _ => ⟨_, rfl⟩⟩) ?_
  rw [defaultModules_chain]
  intro m hm
  simp only [List.mem_cons, List.not_mem_nil, or_false] at hm
  -- all but the fourth change nothing that is kept, and answer an error to a proposal
  rcases hm with rfl | rfl | rfl | rfl | rfl
  · refine Handler.triple_onStore (f := fun s => some (Auth.deliver signer s)) (fun _ => rfl)
      fun w result s hw hrun => leaves_of_unchanged (fun _ _ => ?_) ?_
    · obtain ⟨e, he⟩ := Auth.exists_deliver_error signer (w.stores 0)
      rw [Option.some.inj hrun] at he
      exact ⟨e, he⟩
    · exact (kept_modify w (by decide) _).trans hw
  · refine Handler.triple_bind (Handler.preserves_read _) fun accounts => ?_
    refine Handler.triple_onStore (f := Bank.deliver accounts message) (fun _ => rfl)
      fun w result s hw hrun => leaves_of_unchanged (fun submitted hsubmits => ?_) ?_
    · rw [Bank.deliver_of_upgrade hsubmits] at hrun
      exact ⟨_, (Prod.mk.inj (Option.some.inj hrun)).1.symm⟩
    · exact (kept_modify w (by decide) _).trans hw
  · intro w result w' hw hrun
    refine leaves_of_unchanged (fun submitted hsubmits => ?_)
      (hibc.keeps message signer before w result w' hw hrun)
    exact ⟨_, hibc.passes message signer w result w'
      (typeUrl_of_tryFromAny (upgradeOf?_eq_some_iff.mp hsubmits).1) hrun⟩
  · exact deliver_leaves fun msgRecoverClient => hrecover msgRecoverClient before
  · exact Handler.triple_pure fun w => leaves_of_unchanged fun _ _ => ⟨_, rfl⟩

section Messages

variable (hibc : PassesProposals ibcDeliver)
  (hrecover : ∀ msgRecoverClient : MsgRecoverClient,
    KeepsProposals (ProposalHandlers.recoverExecute msgRecoverClient : Handler (Memory R) _))
  {signer : AccountId} {messages : List Any} {events : List Event} {w w' : World (Memory R)}

include hibc hrecover

omit [Host G] in
/-- Of messages that succeed every upgrade is kept. -/
theorem kept_deliverMsgs {events' : List Event}
    (hrun : (deliverMsgs (defaultModules (chainModules ibcDeliver : Unmodelled (Memory R) G)) signer
      messages events).run w = some (.ok events', w')) :
    kept w' = (upgradesOf messages).foldl Kept.keep (kept w) := by
  induction messages generalizing events w with
  | nil =>
    obtain ⟨-, rfl⟩ := Prod.mk.inj (Option.some.inj hrun)
    rfl
  | cons message messages ih =>
    rcases run_deliverMsgs_cons_iff.mp hrun with ⟨e, -, heq⟩ | ⟨new, w₁, hfirst, hrest⟩
    · cases heq
    · have hleaves := deliverMsg_leaves hibc hrecover (kept w) message signer w _ w₁ rfl hfirst
      rw [upgradesOf_cons, List.foldl_append, ← hleaves.ok new rfl]
      exact ih hrest

omit [Host G] in
/-- Of messages that fail, those of the messages before the one that does. -/
theorem kept_of_failure {e : Error}
    (hrun : (deliverMsgs (defaultModules (chainModules ibcDeliver : Unmodelled (Memory R) G)) signer
      messages events).run w = some (.error e, w')) :
    ∃ before message after events₁ w₁, messages = before ++ message :: after ∧
      (deliverMsgs (defaultModules (chainModules ibcDeliver : Unmodelled (Memory R) G)) signer
        before events).run w = some (.ok events₁, w₁) ∧
      (deliverMsg message signer
        (defaultModules (chainModules ibcDeliver : Unmodelled (Memory R) G))).run w₁ =
          some (.error e, w') ∧
      kept w' = (upgradesOf before).foldl Kept.keep (kept w) := by
  obtain ⟨before, message, after, events₁, w₁, hsplit, hbefore, hfails⟩ := exists_failure hrun
  have hleaves := deliverMsg_leaves hibc hrecover (kept w₁) message signer w₁ _ w' rfl hfails
  exact ⟨before, message, after, events₁, w₁, hsplit, hbefore, hfails,
    (hleaves.error e rfl).trans (kept_deliverMsgs hibc hrecover hbefore)⟩

end Messages

/-! ## Requests -/

/-- Between requests, what was accepted is recorded, and applied. -/
structure Consistent
    (ibcDeliver : Any → AccountId → Handler (Memory R) (Except Error (List Event)))
    (ps : List MsgSubmitProposal) (app : BaseCoinApp (Memory R) G) : Prop where
  modules : app.modules = defaultModules (chainModules ibcDeliver)
  numbered : Numbered ps (kept app.world)
  applied : (app.world.stores 5).Applied

omit [Host G] in
theorem governance_mem : (⟨"gov", Governance.module 5 4⟩ : IdentifiedModule (Memory R) G) ∈
    defaultModules (chainModules ibcDeliver) := by
  rw [defaultModules_chain]
  simp

namespace Consistent

variable {ps : List MsgSubmitProposal} {app app' : BaseCoinApp (Memory R) G}

omit [Host G] in
theorem handle (h : Consistent ibcDeliver ps app) : 5 ∈ handles app.modules :=
  h.modules ▸ mem_handles governance_mem

omit [Host G] in
theorem congr (h : Consistent ibcDeliver ps app) (hmods : app'.modules = app.modules)
    (hkept : kept app'.world = kept app.world) : Consistent ibcDeliver ps app' := by
  refine ⟨hmods.trans h.modules, hkept ▸ h.numbered, ?_⟩
  rw [show app'.world.stores 5 = app.world.stores 5 from congrArg Kept.store hkept]
  exact h.applied

theorem initChain (h : Consistent ibcDeliver ps app) {bytes : Bytes}
    {response : ResponseInitChain} (hinit : app.initChain bytes = some (response, app')) :
    Consistent ibcDeliver ps app' := by
  obtain ⟨appState, w, hrun, rfl⟩ := initChain_run hinit
  rw [h.modules] at hrun
  have hkept := preserves_initModules (P := fun w => kept w = kept app.world)
    (chain_init_preserves fun ref href w s hw =>
      (kept_modify w (Nat.ne_of_gt (Nat.lt_trans href (by decide))) _).trans hw) _ _ _ rfl hrun
  exact h.congr rfl hkept

omit [Host G] in
theorem beginBlock (h : Consistent ibcDeliver ps app) {header : Option Header}
    {response : ResponseBeginBlock} (hbegin : app.beginBlock header = some (response, app')) :
    Consistent ibcDeliver ps app' := by
  obtain ⟨header, events, w, -, hrun, rfl⟩ := beginBlock_run hbegin
  rw [h.modules, run_beginModules] at hrun
  obtain ⟨⟨events', s⟩, -, heq⟩ := Option.map_eq_some_iff.mp hrun
  obtain ⟨-, rfl⟩ := Prod.mk.inj heq
  exact h.congr rfl (kept_modify (app.world.begun header) (by decide) _)

omit [Host G] in
theorem commit (h : Consistent ibcDeliver ps app) : Consistent ibcDeliver ps app.commit.2 := by
  have hstore : app.commit.2.world.stores 5 = (app.world.stores 5).commit.2 :=
    stores_commitModules (h.modules ▸ chain_handles_nodup) h.handle _ _
  have hmem : app.commit.2.world.mem = app.world.mem := mem_commitModules _ _ _
  refine ⟨h.modules, ?_, ?_⟩
  · rw [kept, hmem, hstore]
    exact h.numbered.congr fun _ => rfl
  · rw [hstore]
    exact fun _ => rfl

end Consistent

/-- The upgrade proposals of a transaction, if it succeeded. -/
def acceptedIn (tx : Bytes) (response : ResponseDeliverTx) : List MsgSubmitProposal :=
  if response.code = 0 then
    match BaseCoinApp.admitTx tx with
    | .ok (_, messages) => upgradesOf messages
    | .error _ => []
  else []

def acceptedBy : Request → Response → List MsgSubmitProposal
  | .deliverTx tx, .deliverTx response => acceptedIn tx response
  | _, _ => []

/-- Those of a run, in their order. -/
def accepted (requests : List Request) (responses : List Response) : List MsgSubmitProposal :=
  (List.zipWith acceptedBy requests responses).flatten

section Transactions

variable (hibc : PassesProposals ibcDeliver)
  (hrecover : ∀ msgRecoverClient : MsgRecoverClient,
    KeepsProposals (ProposalHandlers.recoverExecute msgRecoverClient : Handler (Memory R) _))
  {ps : List MsgSubmitProposal} {app app' : BaseCoinApp (Memory R) G}

include hibc hrecover

/-- A transaction that succeeds keeps its upgrades, and applies them. -/
theorem kept_deliverTx (hmods : app.modules = defaultModules (chainModules ibcDeliver)) {tx : Bytes}
    {signer : AccountId} {messages : List Any} {response : ResponseDeliverTx}
    (hadm : BaseCoinApp.admitTx tx = .ok (signer, messages))
    (hdeliver : app.deliverTx tx = some (response, app')) (hcode : response.code = 0) :
    ∃ k, k = (upgradesOf messages).foldl Kept.keep (kept app.world) ∧
      kept app'.world = { k with store := k.store.apply } := by
  rcases deliverTx_run hdeliver with
    ⟨⟨r, haway⟩, -⟩ | ⟨signer', messages', result, w, hadm', hrun, hend⟩
  · cases hadm.symm.trans haway
  · obtain ⟨rfl, rfl⟩ := Prod.mk.inj (Except.ok.inj (hadm.symm.trans hadm'))
    rcases hend with ⟨⟨events, rfl⟩, -, rfl⟩ | ⟨-, hfail, -⟩
    · have hmem : (applyModules app.modules w).mem = w.mem := mem_foldl_modify _ _ w
      have happlied := stores_applyModules app.modules w (hmods ▸ mem_handles governance_mem)
      rw [hmods] at hrun
      refine ⟨kept w, kept_deliverMsgs hibc hrecover hrun, ?_⟩
      show Kept.mk (applyModules app.modules w).mem.proposalCounter
        ((applyModules app.modules w).stores 5) = _
      rw [hmem]
      exact congrArg (Kept.mk w.mem.proposalCounter) happlied
    · exact absurd hcode hfail

theorem Consistent.deliverTx (h : Consistent ibcDeliver ps app) {tx : Bytes}
    {response : ResponseDeliverTx} (hnone : NoneUndone app (.deliverTx tx))
    (hdeliver : app.deliverTx tx = some (response, app')) :
    Consistent ibcDeliver (ps ++ acceptedIn tx response) app' := by
  rw [acceptedIn]
  rcases deliverTx_run hdeliver with
    ⟨⟨r, hadm⟩, rfl⟩ | ⟨signer, messages, result, w, hadm, hrun, hend⟩
  · rw [hadm, ite_self, List.append_nil]
    exact h
  · rw [hadm]
    rcases hend with ⟨-, hcode, -⟩ | ⟨⟨e, rfl⟩, hcode, rfl⟩
    · obtain ⟨k, hk, hkept⟩ := kept_deliverTx hibc hrecover h.modules hadm hdeliver hcode
      have hnumbered := h.numbered.foldl_keep (upgradesOf messages)
      rw [← hk] at hnumbered
      rw [if_pos hcode]
      refine ⟨(outcome_deliverTx hdeliver).modules.trans h.modules, ?_, ?_⟩
      · rw [hkept]
        exact hnumbered.congr fun _ => rfl
      · rw [show app'.world.stores 5 = k.store.apply from congrArg Kept.store hkept]
        exact fun _ => rfl
    · have hreset := stores_resetModules app.modules w h.handle
      have hmem : (resetModules app.modules w).mem = w.mem := mem_foldl_modify _ _ w
      have hstaged := ((deliverMsgs app.modules signer messages []).frame hrun 5).staged
      rw [h.modules] at hrun
      obtain ⟨before, message, after, events₁, w₁, rfl, hbefore, hfails, hkept⟩ :=
        kept_of_failure hibc hrecover hrun
      rw [← h.modules] at hbefore hfails
      -- the reset takes the proposals back but not the counter, so no id may have been taken
      rw [hnone signer before message after hadm events₁ w₁ e w hbefore hfails] at hkept
      have hcounter : w.mem.proposalCounter = app.world.mem.proposalCounter :=
        congrArg Kept.counter hkept
      rw [if_neg hcode, List.append_nil]
      refine ⟨h.modules, ?_, ?_⟩
      · show Numbered _ ⟨(resetModules app.modules w).mem.proposalCounter,
          (resetModules app.modules w).stores 5⟩
        rw [hreset, hmem, hcounter]
        refine h.numbered.congr fun path => ?_
        show (w.stores 5).staged.get path = _
        rw [hstaged]
        exact h.applied path
      · show ((resetModules app.modules w).stores 5).Applied
        rw [hreset]
        exact fun _ => rfl

theorem Consistent.step (h : Consistent ibcDeliver ps app) {request : Request}
    {response : Response} (hnone : NoneUndone app request)
    (hstep : app.step request = some (response, app')) :
    Consistent ibcDeliver (ps ++ acceptedBy request response) app' := by
  cases answers_of_step hstep with
  | @initChain bytes r app' hinit =>
    show Consistent ibcDeliver (ps ++ []) app'
    rw [List.append_nil]
    exact h.initChain hinit
  | @beginBlock header r app' hbegin =>
    show Consistent ibcDeliver (ps ++ []) app'
    rw [List.append_nil]
    exact h.beginBlock hbegin
  | deliverTx hdeliver => exact h.deliverTx hibc hrecover hnone hdeliver
  | commit =>
    show Consistent ibcDeliver (ps ++ []) app.commit.2
    rw [List.append_nil]
    exact h.commit

omit [Host G] hibc hrecover in
theorem consistent_initial {rest : R} (h₀ : chainApp ibcDeliver rest = some app) :
    Consistent ibcDeliver [] app := by
  refine ⟨(built_defaultApp _ h₀).1, ?_, ?_⟩
  all_goals
    rw [chainApp, defaultApp_eq, Option.some.injEq] at h₀
    subst h₀
  · exact Numbered.initial
  · exact fun _ => rfl

theorem Consistent.run (h : Consistent ibcDeliver ps app) {requests : List Request}
    {responses : List Response} (hnone : Along BaseCoinApp.step NoneUndone app requests)
    (hrun : runSteps BaseCoinApp.step app requests = some (responses, app')) :
    Consistent ibcDeliver (ps ++ accepted requests responses) app' :=
  hnone.collect (fun _ _ _ _ _ h hnone hstep => h.step hibc hrecover hnone hstep) h hrun

/-- **Ids count what was accepted.** Take any run from a fresh application in which no transaction
that fails has delivered an upgrade proposal before the message that fails. The counter is the
number of upgrade proposals of successful transactions, and the last of them is stored with the
number of those before it as its id. And if a transaction succeeds next, each of its upgrade
proposals is stored, when its message is delivered, with the number of those of the run and of its
earlier messages. -/
theorem ids_count_accepted {rest : R} {requests : List Request} {responses : List Response}
    (h₀ : chainApp ibcDeliver rest = some app)
    (hnone : Along BaseCoinApp.step NoneUndone app requests)
    (hrun : runSteps BaseCoinApp.step app requests = some (responses, app')) :
    Numbered (accepted requests responses) (kept app'.world) ∧
      ∀ tx signer before message after submitted response app'',
        BaseCoinApp.admitTx tx = .ok (signer, before ++ message :: after) →
        upgradeOf? message = some submitted → app'.deliverTx tx = some (response, app'') →
        response.code = 0 →
          ∃ events w, (deliverMsgs app'.modules signer (before ++ [message]) []).run app'.world =
            some (.ok events, w) ∧
          proposalStore.get (w.stores 5) .pending sdkPath = some (submitted.proposal
            (UInt64.ofNat (accepted requests responses ++ upgradesOf before).length)).toAny := by
  have hconsistent := (consistent_initial h₀).run hibc hrecover hnone hrun
  rw [List.nil_append] at hconsistent
  refine ⟨hconsistent.numbered, ?_⟩
  intro tx signer before message after submitted response app'' hadm hsubmits hdeliver hcode
  rcases deliverTx_run hdeliver with
    ⟨⟨r, haway⟩, -⟩ | ⟨signer', messages, result, w', hadm', hall, hend⟩
  · cases hadm.symm.trans haway
  · obtain ⟨rfl, rfl⟩ := Prod.mk.inj (Except.ok.inj (hadm.symm.trans hadm'))
    rcases hend with ⟨⟨events, rfl⟩, -, -⟩ | ⟨-, hfail, -⟩
    · rw [List.append_cons] at hall
      obtain ⟨events₁, w₁, hfirst⟩ := exists_run_deliverMsgs_of_append hall
      have hnumbered := hconsistent.numbered.foldl_keep (upgradesOf (before ++ [message]))
      have hrun₁ := hfirst
      rw [hconsistent.modules] at hrun₁
      rw [← kept_deliverMsgs hibc hrecover hrun₁, upgradesOf_concat hsubmits,
        ← List.append_assoc] at hnumbered
      exact ⟨events₁, w₁, hfirst, hnumbered.stored_last⟩
    · exact absurd hcode hfail

end Transactions

end ProposalIds

/-! ## A proposal undone -/

section Undone

open Governance
open scoped Idle

local instance undoneGovHost : GovHost Unit := firstBlocksGovHost

local instance undoneHandlers : ProposalHandlers Unit Unit := firstBlocksHandlers

local instance undoneGenesisJson : GenesisJson Unit U256 := firstBlocksGenesisJson

/-- Each byte of a transaction is a message, signed by the account of genesis: a zero is of a type
that no module handles, any other a proposal of a plan. -/
local instance undoneHost : Host Unit :=
  { decodeTx := fun bytes => .ok
      { signerInfos := [⟨some (.single [])⟩]
        messages := bytes.map fun b =>
          ⟨if b = 0 then "/unknown" else MsgSubmitProposal.typeUrl, [b]⟩ }
    accountId := fun _ _ => some Idle.genesisAccount
    readGenesis := fun _ => some ()
    debugError := Error.toString }

def undoneApp : BaseCoinApp (Memory Unit) Unit := (chainApp Idle.ibcDeliver ()).get rfl

theorem undoneApp_eq : chainApp Idle.ibcDeliver () = some undoneApp := (Option.some_get _).symm

theorem one_lt_two_pow : 1 < 2 ^ 256 := by omega

/-- The message of a byte that is not zero, and its proposal. -/
def planMessage : Any := ⟨MsgSubmitProposal.typeUrl, [1]⟩

def planProposal : MsgSubmitProposal :=
  { content := ⟨"/ibc.core.client.v1.UpgradeProposal", [1]⟩
    initialDeposit := ⟨⟨"basecoin"⟩, ⟨1, one_lt_two_pow⟩⟩
    proposer := "" }

theorem upgradeOf?_planMessage : upgradeOf? planMessage = some planProposal := rfl

theorem idle_passes : PassesProposals Idle.ibcDeliver where
  keeps _ _ _ := Handler.preserves_pure _
  passes _ _ _ _ _ _ hrun := (Prod.mk.inj (Option.some.inj hrun)).1.symm

theorem idle_keeps (msgRecoverClient : Unit) :
    KeepsProposals (ProposalHandlers.recoverExecute msgRecoverClient : Handler (Memory Unit) _) :=
  fun _ => Handler.preserves_pure _

/-- A proposal that is undone, then one that is not. -/
def undone : List Request := [.initChain [], .commit, .deliverTx [1, 0]]

def undoneThenKept : List Request := undone ++ [.deliverTx [1]]

/-- Three transactions, the second of which fails. -/
def neverUndone : List Request :=
  [.initChain [], .commit, .deliverTx [1], .deliverTx [0], .deliverTx [1]]

/-- What is counted after a run, what it accepted, and the code of one more transaction. -/
def counts (requests : List Request) (tx : Bytes) : Option (UInt64 × Nat × Option Nat) :=
  (runSteps BaseCoinApp.step undoneApp requests).map fun r =>
    (r.2.world.mem.proposalCounter, (accepted requests r.1).length,
      (r.2.deliverTx tx).map fun r' => r'.1.code)

theorem counts_undone : counts undone [1] = some (1, 0, some 0) ∧
    counts undoneThenKept [1] = some (2, 1, some 0) ∧
    counts neverUndone [1, 1] = some (2, 2, some 0) := by
  refine ⟨by decide +kernel, by decide +kernel, by decide +kernel⟩

/-- After a transaction that is undone has used up an id, the first proposal that is accepted is
stored with the id of a second, and counted as one. -/
theorem undone_uses_id :
    ∃ responses app, runSteps BaseCoinApp.step undoneApp undoneThenKept = some (responses, app) ∧
      (accepted undoneThenKept responses).length = 1 ∧ app.world.mem.proposalCounter = 2 ∧
      proposalStore.get (app.world.stores 5) .pending sdkPath = some (planProposal.proposal 1).toAny ∧
      (planProposal.proposal 1).toAny ≠ (planProposal.proposal 0).toAny ∧
      ¬ Numbered (accepted undoneThenKept responses) (kept app.world) := by
  obtain ⟨hundone, hkept, -⟩ := counts_undone
  obtain ⟨⟨responses, app⟩, hrun, hcounts⟩ := Option.map_eq_some_iff.mp hkept
  obtain ⟨hcounter, hrest⟩ := Prod.mk.inj hcounts
  have hlength := (Prod.mk.inj hrest).1
  refine ⟨responses, app, hrun, hlength, hcounter, ?_, fun h => ?_, fun h => ?_⟩
  · obtain ⟨app₁, responses₁, response, hrun₁, hstep, -⟩ := runSteps_concat.mp hrun
    rw [counts, hrun₁, Option.map_some, Option.some.injEq] at hundone
    obtain ⟨hcounter₁, hrest₁⟩ := Prod.mk.inj hundone
    obtain ⟨response, hdeliver⟩ : ∃ response, app₁.deliverTx [1] = some (response, app) := by
      cases answers_of_step hstep with
      | deliverTx hdeliver => exact ⟨_, hdeliver⟩
    have hcode : response.code = 0 := by
      have hthen := (Prod.mk.inj hrest₁).2
      rw [hdeliver, Option.map_some] at hthen
      exact Option.some.inj hthen
    have hmods : app₁.modules = defaultModules (chainModules Idle.ibcDeliver) :=
      runSteps_invariant (fun _ _ _ _ hmods hstep => (modules_step hstep).trans hmods)
        (built_defaultApp _ undoneApp_eq).1 hrun₁
    have hadm : BaseCoinApp.admitTx [1] = .ok (Idle.genesisAccount, [planMessage]) := rfl
    obtain ⟨k, rfl, hstore⟩ :=
      kept_deliverTx idle_passes idle_keeps hmods hadm hdeliver hcode
    rw [show app.world.stores 5 = _ from congrArg Kept.store hstore, upgradesOf_cons,
      upgradeOf?_planMessage]
    show proposalStore.get (Kept.keep _ planProposal).store .pending sdkPath = _
    rw [Kept.keep, proposalStore.get_set, if_pos rfl]
    show some (planProposal.proposal app₁.world.mem.proposalCounter).toAny = _
    rw [hcounter₁]
  · have hid : (1 : UInt64) = 0 := Proposal.proposalId_of_toAny h
    exact absurd hid (by decide)
  · have hcount := h.counted
    rw [hlength] at hcount
    exact absurd (hcounter.symm.trans hcount) (by decide)

theorem noneUndone_single (app : BaseCoinApp (Memory Unit) Unit) (b : UInt8) :
    NoneUndone app (.deliverTx [b]) := by
  intro signer before message after hadm
  have hmessages := (Prod.mk.inj (Except.ok.inj hadm)).2
  cases before with
  | nil => exact fun _ _ _ _ _ _ => rfl
  | cons m before =>
    cases before with
    | nil => cases hmessages
    | cons m' before => cases hmessages

theorem ids_count_accepted_three :
    ∃ responses app, runSteps BaseCoinApp.step undoneApp neverUndone = some (responses, app) ∧
      Numbered (accepted neverUndone responses) (kept app.world) ∧
      (accepted neverUndone responses).length = 2 ∧
      ∃ events w,
        (deliverMsgs app.modules Idle.genesisAccount [planMessage, planMessage] []).run app.world =
          some (.ok events, w) ∧
        proposalStore.get (w.stores 5) .pending sdkPath =
          some (planProposal.proposal 3).toAny := by
  obtain ⟨⟨responses, app⟩, hrun, hcounts⟩ := Option.map_eq_some_iff.mp counts_undone.2.2
  obtain ⟨hlength, hthen⟩ := Prod.mk.inj (Prod.mk.inj hcounts).2
  have hnone : Along BaseCoinApp.step NoneUndone undoneApp neverUndone := by
    refine along_of_forall fun request hmem app => ?_
    simp only [neverUndone, List.mem_cons, List.not_mem_nil, or_false] at hmem
    rcases hmem with rfl | rfl | rfl | rfl | rfl
    · trivial
    · trivial
    all_goals exact noneUndone_single app _
  obtain ⟨hnumbered, hnext⟩ :=
    ids_count_accepted idle_passes idle_keeps undoneApp_eq hnone hrun
  obtain ⟨⟨response, app'⟩, hdeliver, hcode⟩ := Option.map_eq_some_iff.mp hthen
  obtain ⟨events, w, hdelivered, hstored⟩ :=
    hnext [1, 1] Idle.genesisAccount [planMessage] planMessage []
    planProposal response app' rfl upgradeOf?_planMessage hdeliver hcode
  rw [List.length_append, hlength] at hstored
  exact ⟨responses, app, hrun, hnumbered, hlength, events, w, hdelivered, hstored⟩

end Undone

end Basecoin
