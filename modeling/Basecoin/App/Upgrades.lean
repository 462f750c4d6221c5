import Basecoin.App.Blocks
import Basecoin.Modules.UpgradeStates

/-!
# When an accepted plan takes effect

`schedule_upgrade` compares the plan's height with the committed height; `begin_block` acts on the
plan in the block before the plan's height, and panics on a height of zero. In block `n` the
committed height is `n - 1`, so a plan for any of the heights from `n - 1` to `n + 1` is accepted
and comes too late. What `begin_block` writes is pending like all else, so it is lost if the first
transaction a module sees in that block fails. Where neither happens (`InTime`) every plan takes
effect.

The invariant follows a pending plan through its blocks (`Awaits`): it is still ahead, or the block
of its height is next and its consensus state is stored, or that block has passed. A block that
begins moves a plan from the first to the second, which is when `begin_block` writes, and from the
second to the third. A proposal may replace the plan at any time, by one that is still ahead. Only
the pending copy of the upgrade store counts, so an apply or a commit changes nothing, and a reset
nothing that `InTime` allows it to.
-/

namespace Basecoin

open Lib

/-! ## The invariant -/

namespace Upgrade

variable [Sha256] {AnyClientState : Type} [UpgradeHost AnyClientState]

/-- After block `n`, or within it, a pending plan is for later than the next block, or for the next
one and has its consensus state, or is over. -/
structure Awaits (n : Nat) (last : Option Header) (s : InMemoryStore) : Prop where
  ready : Ready s
  effect : ∀ plan, plan? s = some plan → n + 2 ≤ plan.height ∨
    (plan.height = n + 1 ∧ ∃ header, last = some header ∧
      consensusState? s plan.height = some (lastConsensusState header)) ∨ plan.height ≤ n

variable {n : Nat} {last : Option Header} {s s' : InMemoryStore}

/-- Only what is pending counts. -/
theorem Awaits.congr (h : Awaits n last s)
    (hread : ∀ path, s'.get .pending path = s.get .pending path) : Awaits n last s' := by
  have hplan : plan? s' = plan? s := by rw [plan?, plan?, TypedStore.get, TypedStore.get, hread]
  have hclient : ∀ height, clientState? s' height = clientState? s height := fun height => by
    rw [clientState?, clientState?, TypedStore.get, TypedStore.get, hread]
  have hconsensus : ∀ height, consensusState? s' height = consensusState? s height := fun height => by
    rw [consensusState?, consensusState?, TypedStore.get, TypedStore.get, hread]
  refine ⟨fun plan hp => ?_, fun plan hp => ?_⟩
  · rw [hclient]
    exact h.ready plan (hplan ▸ hp)
  · rw [hconsensus]
    exact h.effect plan (hplan ▸ hp)

/-- A block begins: a plan for the block after it gets its consensus state now. -/
theorem Awaits.beginBlock (h : Awaits n last s) (hheight : s.currentHeight = n) {header : Header}
    {events : List Event} (hbegin : Upgrade.beginBlock s header = some (events, s')) :
    Awaits (n + 1) (some header) s' := by
  have hready : Ready s := h.ready
  by_cases htrigger : ∃ plan, Triggers s plan
  · obtain ⟨plan, hplan⟩ := htrigger
    rw [beginBlock_of_triggers header hplan] at hbegin
    obtain ⟨-, rfl⟩ := Prod.mk.inj (Option.some.inj hbegin)
    refine ⟨fun p hp => ?_, fun p hp => .inr (.inl ⟨?_, header, rfl, ?_⟩)⟩
    · rw [plan?_storeUpgradedConsensusState] at hp
      rw [clientState?_storeUpgradedConsensusState]
      exact hready p hp
    · rw [plan?_storeUpgradedConsensusState, hplan.pending] at hp
      obtain rfl := Option.some.inj hp
      rw [← hplan.height, hheight]
    · rw [plan?_storeUpgradedConsensusState, hplan.pending] at hp
      obtain rfl := Option.some.inj hp
      rw [consensusState?_storeUpgradedConsensusState, if_pos rfl]
  · rw [beginBlock_of_not_triggers header hready fun plan hplan => htrigger ⟨plan, hplan⟩] at hbegin
    obtain ⟨-, rfl⟩ := Prod.mk.inj (Option.some.inj hbegin)
    refine ⟨hready, fun p hp => ?_⟩
    have hnot : s.currentHeight + 2 ≠ p.height := fun heq =>
      htrigger ⟨p, hp, (hready p hp).1, heq⟩
    rw [hheight] at hnot
    -- a plan still ahead is not for the next block, or it would trigger; the others have passed
    rcases h.effect p hp with hlater | ⟨hnext, -⟩ | hover
    · exact .inl (Nat.lt_of_le_of_ne hlater hnot)
    · exact .inr (.inr (Nat.le_of_eq hnext))
    · exact .inr (.inr (Nat.le_succ_of_le hover))

/-- The block of the plan's height begins: its consensus state is there. -/
theorem Awaits.effect_beginBlock (h : Awaits n last s) (hheight : s.currentHeight = n)
    {header : Header} {events : List Event}
    (hbegin : Upgrade.beginBlock s header = some (events, s')) {plan : Plan}
    (hplan : plan? s' = some plan) (heq : plan.height = n + 1) :
    ∃ header, last = some header ∧
      consensusState? s' plan.height = some (lastConsensusState header) := by
  have hthere : ∀ p, plan? s = some p → p.height = n + 1 → ∃ header, last = some header ∧
      consensusState? s p.height = some (lastConsensusState header) := by
    intro p hp hnow
    rcases h.effect p hp with hlater | ⟨-, hstate⟩ | hover
    · rw [hnow] at hlater
      exact absurd hlater (Nat.not_succ_le_self _)
    · exact hstate
    · rw [hnow] at hover
      exact absurd hover (Nat.not_succ_le_self _)
  by_cases htrigger : ∃ plan, Triggers s plan
  · obtain ⟨p, hp⟩ := htrigger
    rw [beginBlock_of_triggers header hp] at hbegin
    obtain ⟨-, rfl⟩ := Prod.mk.inj (Option.some.inj hbegin)
    rw [plan?_storeUpgradedConsensusState, hp.pending] at hplan
    obtain rfl := Option.some.inj hplan
    have hnext := hp.height
    rw [hheight, heq] at hnext
    exact absurd hnext.symm (Nat.ne_of_lt (Nat.lt_succ_self _))
  · rw [beginBlock_of_not_triggers header h.ready fun plan hp => htrigger ⟨plan, hp⟩] at hbegin
    obtain ⟨-, rfl⟩ := Prod.mk.inj (Option.some.inj hbegin)
    exact hthere plan hplan heq

theorem plan?_beginBlock {header : Header} {events : List Event}
    (hbegin : Upgrade.beginBlock s header = some (events, s')) : plan? s' = plan? s := by
  by_cases htrigger : ∃ plan, Triggers s plan
  · obtain ⟨p, hp⟩ := htrigger
    rw [beginBlock_of_triggers header hp] at hbegin
    obtain ⟨-, rfl⟩ := Prod.mk.inj (Option.some.inj hbegin)
    exact plan?_storeUpgradedConsensusState s _ _
  · have hready : Ready s := (beginBlock_isSome_iff header).mp (hbegin ▸ rfl)
    rw [beginBlock_of_not_triggers header hready fun plan hp => htrigger ⟨plan, hp⟩] at hbegin
    obtain ⟨-, rfl⟩ := Prod.mk.inj (Option.some.inj hbegin)
    rfl

theorem awaits_of_noPlan (h : plan? s = none) : Awaits n last s := by
  refine ⟨fun plan hp => ?_, fun plan hp => ?_⟩
  · cases h.symm.trans hp
  · cases h.symm.trans hp

/-- A plan is accepted for the block after the next, or later. -/
theorem Proposed.awaits {plan : Plan} {clientState : AnyClientState}
    (h : Proposed s plan clientState s') (hahead : n + 2 ≤ plan.height) : Awaits n last s' := by
  refine ⟨fun p hp => ?_, fun p hp => ?_⟩
  · obtain rfl := Option.some.inj (h.pending.symm.trans hp)
    refine ⟨?_, fun hzero => ?_⟩
    · rw [h.clientState, if_pos rfl]
      rfl
    · rw [hzero] at hahead
      exact absurd hahead (Nat.not_succ_le_zero _)
  · obtain rfl := Option.some.inj (h.pending.symm.trans hp)
    exact .inl hahead

/-- A plan whose block has begun is turned away only if it is below the committed height. -/
theorem turnsAway_iff (s : InMemoryStore) (plan : Plan) :
    (plan.height ≤ s.currentHeight + 2 → ∃ e, (scheduleUpgrade s plan).1 = .error e) ↔
      plan.height < s.currentHeight ∨ s.currentHeight + 3 ≤ plan.height := by
  rcases scheduleUpgrade_cases s plan with ⟨hpast, heq⟩ | ⟨s', heq, hscheduled⟩
  · rw [heq]
    exact iff_of_true (fun _ => ⟨_, rfl⟩) (.inl hpast)
  · rw [heq]
    constructor
    · intro hturned
      refine .inr (Nat.lt_of_not_le fun hbegun => ?_)
      obtain ⟨e, he⟩ := hturned hbegun
      cases he
    · rintro (hpast | hahead) hbegun
      · exact absurd hscheduled.notPast (Nat.not_le_of_lt hpast)
      · exact absurd hbegun (Nat.not_le_of_lt hahead)

end Upgrade

section Upgrades

variable [Sha256] [Bech32] [AuthCodec] [BankHost] [IbcHost] [ProofEncoding] [U256Text]
  {R G AnyClientState MsgRecoverClient : Type} [GenesisJson G U256]
  [UpgradeHost AnyClientState] [GovHost MsgRecoverClient] [ProposalHandlers R MsgRecoverClient]
  [BuildProfile] [Host G]
  {ibcDeliver : Any → AccountId → Handler (Memory R) (Except Error (List Event))}

/-! ## What the other crates do to the upgrade store -/

/-- When an upgrade proposal is executed, its plan is scheduled and its client state stored at the
plan's height; nothing is said of a proposal that fails. -/
def ExecutesPlans (R : Type) {AnyClientState MsgRecoverClient : Type} [UpgradeHost AnyClientState]
    [ProposalHandlers R MsgRecoverClient] : Prop :=
  ∀ (proposal : UpgradeProposal) s event s',
    ProposalHandlers.executeUpgradeClientProposal R proposal s = (.ok event, s') →
      ∃ clientState : AnyClientState, Upgrade.Proposed s proposal.plan clientState s'

/-- A call leaves the store of the upgrade module alone, as the contexts of the ibc module do,
which have no handle to it. -/
def KeepsUpgrades {α : Type} (x : Handler (Memory R) α) : Prop :=
  ∀ P : InMemoryStore → Prop, x.Preserves fun w => P (w.stores 4)

/-! ## The condition -/

/-- What is staged is what is pending: nothing has been written since the last apply or commit. -/
def InMemoryStore.Applied (s : InMemoryStore) : Prop :=
  ∀ path, s.staged.get path = s.get .pending path

/-- A transaction that succeeds proposes plans for two blocks ahead at the least; one that fails at
a module finds nothing unapplied in the store of the upgrade module. -/
def InTime (app : BaseCoinApp (Memory R) G) : Request → Prop
  | .deliverTx tx => ∀ response app', app.deliverTx tx = some (response, app') →
    (response.code = 0 → ∀ signer messages, BaseCoinApp.admitTx tx = .ok (signer, messages) →
      ∀ message ∈ messages, ∀ proposal, Governance.Proposes message proposal →
        (app.world.stores 4).currentHeight + 3 ≤ proposal.plan.height) ∧
    (response.code ≠ 0 → ¬ TurnedAway tx → (app.world.stores 4).Applied)
  | _ => True

/-! ## Requests and the upgrade store -/

omit [Bech32] [AuthCodec] [BankHost] [IbcHost] [ProofEncoding] [U256Text] [BuildProfile] in
theorem ignoresOthers_upgrades (Q : InMemoryStore → Prop) :
    IgnoresOthers fun w : World (Memory R) => Q (w.stores 4) where
  store ref href w s hw := by rw [World.modify_other _ _ href.symm]; exact hw
  counter _ _ hw := hw

omit [Host G] in
theorem upgrade_mem : (⟨"upgrade", Upgrade.module 4⟩ : IdentifiedModule (Memory R) G) ∈
    defaultModules (chainModules ibcDeliver) := by
  rw [defaultModules_chain]
  simp

/-- A transaction keeps a statement on the upgrade store that depends on what is pending alone, if
the proposals of one that succeeds do, and if one that fails meets `InTime`. -/
theorem upgrade_deliverTx {Q : InMemoryStore → Prop} {app app' : BaseCoinApp (Memory R) G}
    {tx : Bytes} {response : ResponseDeliverTx} (hexecutes : ExecutesPlans R)
    (hibc : ∀ message signer, KeepsUpgrades (ibcDeliver message signer))
    (hrecover : ∀ msgRecoverClient : MsgRecoverClient,
      KeepsUpgrades (ProposalHandlers.recoverExecute msgRecoverClient : Handler (Memory R) _))
    (hmods : app.modules = defaultModules (chainModules ibcDeliver))
    (hcongr : ∀ {s s' : InMemoryStore}, (∀ path, s'.get .pending path = s.get .pending path) →
      Q s → Q s')
    (hpropose : response.code = 0 → ∀ signer messages,
      BaseCoinApp.admitTx tx = .ok (signer, messages) → ∀ message ∈ messages, ∀ proposal,
        Governance.Proposes message proposal → ∀ s s' (clientState : AnyClientState),
          s.currentHeight = (app.world.stores 4).currentHeight → Q s →
            Upgrade.Proposed s proposal.plan clientState s' → Q s')
    (hintime : InTime app (.deliverTx tx)) (h : app.deliverTx tx = some (response, app'))
    (hQ : Q (app.world.stores 4)) : Q (app'.world.stores 4) := by
  have hhandle : 4 ∈ handles app.modules := hmods ▸ mem_handles upgrade_mem
  rcases deliverTx_keeps h with ⟨-, rfl⟩ | ⟨signer, messages, w, hadm, hbase, hkeeps, hend⟩
  · exact hQ
  · rcases hend with ⟨hok, rfl⟩ | ⟨hfail, rfl⟩
    · -- the height is part of the statement, since `InTime` compares it with that of the plan
      let QNow : InMemoryStore → Prop := fun s =>
        s.currentHeight = (app.world.stores 4).currentHeight ∧ Q s
      have hw := hkeeps True (fun w => QNow (w.stores 4))
        (fun message hmessage => hmods ▸ chain_deliver_keeps (ignoresOthers_upgrades QNow)
          (hibc message signer QNow)
          (fun proposal hproposes => Handler.triple_onStore
            (f := fun s => some (ProposalHandlers.executeUpgradeClientProposal R proposal s))
            (fun _ => rfl) fun w result s' hw hs hcounts => ?_)
          fun recovery => hrecover recovery QNow)
        ⟨rfl, hQ⟩ fun hne => absurd hok hne
      · rw [show (applyModules app.modules w).stores 4 = _ from stores_applyModules _ _ hhandle]
        exact hcongr (s := w.stores 4) (fun _ => rfl) hw.2
      · rw [World.modify_self]
        cases result with
        | error e => exact absurd trivial (hcounts e rfl)
        | ok event =>
          obtain ⟨clientState, hproposed⟩ := hexecutes proposal _ event s' (Option.some.inj hs)
          have hheight : s'.currentHeight = (w.stores 4).currentHeight :=
            congrArg PrunedVec.originalLength hproposed.base.store
          exact ⟨hheight.trans hw.1, hpropose hok signer messages hadm message hmessage proposal
            hproposes _ s' clientState hw.1 hw.2 hproposed⟩
    · -- a transaction that fails is reset to the staged copy, which `InTime` makes the pending one
      have haway : ¬ TurnedAway tx := fun ⟨r, hr⟩ => by
        rw [hadm] at hr
        cases hr
      have happlied := (hintime _ _ h).2 hfail haway
      refine hcongr (fun path => ?_) hQ
      rw [show (resetModules app.modules w).stores 4 = _ from stores_resetModules _ _ hhandle]
      show (w.stores 4).staged.get path = _
      rw [(hbase 4).staged]
      exact happlied path

theorem upgrade_initChain {Q : InMemoryStore → Prop} {app app' : BaseCoinApp (Memory R) G}
    {bytes : Bytes} {response : ResponseInitChain}
    (hmods : app.modules = defaultModules (chainModules ibcDeliver))
    (h : app.initChain bytes = some (response, app')) (hQ : Q (app.world.stores 4)) :
    Q (app'.world.stores 4) := by
  obtain ⟨appState, w, hrun, rfl⟩ := initChain_run h
  rw [hmods] at hrun
  exact preserves_initModules (chain_init_preserves fun ref href =>
    (ignoresOthers_upgrades Q).store ref (Nat.ne_of_lt (Nat.lt_trans href (by decide))))
      _ _ _ hQ hrun

omit [Host G] in
theorem upgrade_beginBlock {app app' : BaseCoinApp (Memory R) G} {header : Header}
    {response : ResponseBeginBlock} (hmods : app.modules = defaultModules (chainModules ibcDeliver))
    (h : app.beginBlock (some header) = some (response, app')) :
    ∃ events, Upgrade.beginBlock (app.world.stores 4) header =
      some (events, app'.world.stores 4) := by
  obtain ⟨_, events, w, hheader, hrun, rfl⟩ := beginBlock_run h
  obtain rfl := Option.some.inj hheader
  rw [hmods, run_beginModules] at hrun
  obtain ⟨⟨events', s⟩, hbegin, heq⟩ := Option.map_eq_some_iff.mp hrun
  obtain ⟨-, rfl⟩ := Prod.mk.inj heq
  exact ⟨events', hbegin.trans (by rw [World.modify_self])⟩

omit [Host G] in
/-- `begin_block` returns if that of the upgrade module does. -/
theorem exists_beginBlock {app : BaseCoinApp (Memory R) G} {header : Header}
    {events : List Event} {s : InMemoryStore}
    (hmods : app.modules = defaultModules (chainModules ibcDeliver))
    (hbegin : Upgrade.beginBlock (app.world.stores 4) header = some (events, s)) :
    ∃ response app', app.beginBlock (some header) = some (response, app') ∧
      app'.world.stores 4 = s := by
  have hrun : (beginModules header app.modules []).run app.world =
      some (events, (app.world.begun header).modify 4 fun _ => s) := by
    rw [hmods, run_beginModules, hbegin]
    rfl
  refine ⟨_, _, Option.map_eq_some_iff.mpr ⟨_, hrun, rfl⟩, ?_⟩
  show ((app.world.begun header).modify 4 fun _ => s).stores 4 = s
  rw [World.modify_self]

omit [Host G] in
theorem upgrade_commit {app : BaseCoinApp (Memory R) G}
    (hown : (handles app.modules).Nodup)
    (hmods : app.modules = defaultModules (chainModules ibcDeliver)) :
    app.commit.2.world.stores 4 = (app.world.stores 4).commit.2 :=
  stores_commitModules hown (hmods ▸ mem_handles upgrade_mem) _ _

/-! ## Over histories -/

section Histories

variable (hexecutes : ExecutesPlans R)
  (hibc : ∀ message signer, KeepsUpgrades (ibcDeliver message signer))
  (hrecover : ∀ msgRecoverClient : MsgRecoverClient,
    KeepsUpgrades (ProposalHandlers.recoverExecute msgRecoverClient : Handler (Memory R) _))

include hexecutes hibc hrecover

theorem awaits_invariant :
    BlockInvariant (G := G) InTime
      (fun blocks app => Committed (defaultModules (chainModules ibcDeliver)) blocks.length app ∧
        Upgrade.Awaits blocks.length (blocks.getLast?.map Block.header) (app.world.stores 4))
      (fun blocks header app =>
        Committed (defaultModules (chainModules ibcDeliver)) blocks.length app ∧
          Upgrade.Awaits (blocks.length + 1) (some header) (app.world.stores 4)) where
  initChain := by
    rintro app bytes response app' ⟨hcommitted, hawaits⟩ - h
    exact ⟨hcommitted.outcome (outcome_initChain h), upgrade_initChain hcommitted.modules h hawaits⟩
  beginBlock := by
    rintro blocks header app response app' ⟨hcommitted, hawaits⟩ - - h
    refine ⟨hcommitted.outcome (outcome_beginBlock h), ?_⟩
    obtain ⟨events, hbegin⟩ := upgrade_beginBlock hcommitted.modules h
    exact hawaits.beginBlock (hcommitted.height upgrade_mem) hbegin
  deliverTx := by
    rintro blocks header app tx response app' ⟨hcommitted, hawaits⟩ hintime h
    refine ⟨hcommitted.outcome (outcome_deliverTx h), ?_⟩
    refine upgrade_deliverTx hexecutes hibc hrecover hcommitted.modules
      (fun hread hawaits => hawaits.congr hread)
      (fun hok signer messages hadm message hmessage proposal hproposes s s' clientState _ _
        hproposed => ?_) hintime h hawaits
    have hahead := (hintime _ _ h).1 hok signer messages hadm message hmessage proposal hproposes
    rw [show (app.world.stores 4).currentHeight = blocks.length from
      hcommitted.height upgrade_mem] at hahead
    exact hproposed.awaits hahead
  commit := by
    rintro blocks header txs app ⟨hcommitted, hawaits⟩
    refine ⟨?_, ?_⟩
    · rw [List.length_append]
      exact hcommitted.commit
    · rw [List.length_append, List.getLast?_concat,
        upgrade_commit (hcommitted.modules ▸ hcommitted.handles_nodup) hcommitted.modules]
      exact hawaits.congr fun _ => rfl

/-- A transaction that succeeds proposes no plan. -/
def NoProposal (app : BaseCoinApp (Memory R) G) : Request → Prop
  | .deliverTx tx => ∀ response app', app.deliverTx tx = some (response, app') → response.code = 0 →
    ∀ signer messages, BaseCoinApp.admitTx tx = .ok (signer, messages) →
      ∀ message ∈ messages, ∀ proposal, ¬ Governance.Proposes message proposal
  | _ => True

/-- A plan is pending until another is proposed. -/
theorem pending_step {app app' : BaseCoinApp (Memory R) G} {request : Request}
    {response : Response} {plan : Plan}
    (hmods : app.modules = defaultModules (chainModules ibcDeliver))
    (hintime : InTime app request) (hnone : NoProposal app request)
    (h : app.step request = some (response, app'))
    (hplan : Upgrade.plan? (app.world.stores 4) = some plan) :
    Upgrade.plan? (app'.world.stores 4) = some plan := by
  cases answers_of_step h with
  | initChain hinit =>
    exact upgrade_initChain (Q := fun s => Upgrade.plan? s = some plan) hmods hinit hplan
  | @beginBlock header _ _ hbegin =>
    cases header with
    | none => cases hbegin
    | some header =>
      obtain ⟨events, hbegin⟩ := upgrade_beginBlock hmods hbegin
      exact (Upgrade.plan?_beginBlock hbegin).trans hplan
  | deliverTx hdeliver =>
    refine upgrade_deliverTx (Q := fun s => Upgrade.plan? s = some plan) hexecutes hibc hrecover
      hmods (fun hread hp => ?_) (fun hok signer messages hadm message hmessage proposal hproposes =>
        absurd hproposes
          (hnone _ _ hdeliver hok signer messages hadm message hmessage proposal))
      hintime hdeliver hplan
    rw [Upgrade.plan?, TypedStore.get, hread]
    exact hp
  | commit =>
    rw [upgrade_commit (hmods ▸ chain_handles_nodup) hmods]
    exact hplan

theorem pending_run {app app' : BaseCoinApp (Memory R) G} {requests : List Request}
    {responses : List Response} {plan : Plan}
    (hmods : app.modules = defaultModules (chainModules ibcDeliver))
    (hintime : Along BaseCoinApp.step InTime app requests)
    (hnone : Along BaseCoinApp.step NoProposal app requests)
    (hrun : runSteps BaseCoinApp.step app requests = some (responses, app'))
    (hplan : Upgrade.plan? (app.world.stores 4) = some plan) :
    Upgrade.plan? (app'.world.stores 4) = some plan := by
  have hstep : ∀ (app : BaseCoinApp (Memory R) G) request response app',
      (app.modules = defaultModules (chainModules ibcDeliver) ∧
        Upgrade.plan? (app.world.stores 4) = some plan) →
      (InTime app request ∧ NoProposal app request) →
      app.step request = some (response, app') →
      app'.modules = defaultModules (chainModules ibcDeliver) ∧
        Upgrade.plan? (app'.world.stores 4) = some plan :=
    fun app request response app' hinv hcond hstep => ⟨(modules_step hstep).trans hinv.1,
      pending_step hexecutes hibc hrecover hinv.1 hcond.1 hcond.2 hstep hinv.2⟩
  exact ((hintime.and hnone).invariant hstep ⟨hmods, hplan⟩ hrun).2

/-- **When every accepted plan takes effect.** Take any history of blocks from a fresh application
whose requests are all in time, and the header of the next block. `begin_block` returns; and if a
plan was pending at any point of the history, none was proposed by a later transaction that
succeeds, and its height is that of the block, then its consensus state is there, from the header
of the block before. And for any plan and state, `schedule_upgrade` turns the plan away if its
block has begun exactly when it is below the committed height or its block is yet to begin. -/
theorem plans_take_effect {rest : R} {app₀ app : BaseCoinApp (Memory R) G} {history : History}
    {responses : List Response} {header : Header} (h₀ : chainApp ibcDeliver rest = some app₀)
    (hcurrent : history.current = none) (hheight : header.height = history.blocks.length + 1)
    (hrun : runSteps BaseCoinApp.step app₀ history.requests = some (responses, app))
    (hintime : Along BaseCoinApp.step InTime app₀ history.requests) :
    (∃ response app', app.beginBlock (some header) = some (response, app') ∧
      ∀ before after responses₁ app₁ plan, history.requests = before ++ after →
        runSteps BaseCoinApp.step app₀ before = some (responses₁, app₁) →
        Upgrade.plan? (app₁.world.stores 4) = some plan →
        Along BaseCoinApp.step NoProposal app₁ after → plan.height = header.height →
        ∃ last, history.blocks.getLast? = some last ∧
          Upgrade.consensusState? (app'.world.stores 4) plan.height =
            some (Upgrade.lastConsensusState last.header)) ∧
    ∀ (s : InMemoryStore) (plan : Plan),
      ((plan.height ≤ s.currentHeight + 2 → ∃ e, (Upgrade.scheduleUpgrade s plan).1 = .error e) ↔
        plan.height < s.currentHeight ∨ s.currentHeight + 3 ≤ plan.height) := by
  refine ⟨?_, Upgrade.turnsAway_iff⟩
  obtain ⟨hmods, hbuilt⟩ := built_defaultApp _ h₀
  have hbefore : Committed (defaultModules (chainModules ibcDeliver)) 0 app₀ ∧
      Upgrade.Awaits 0 none (app₀.world.stores 4) := by
    refine ⟨hmods ▸ hbuilt.committed, ?_⟩
    rw [chainApp, defaultApp_eq, Option.some.injEq] at h₀
    subst h₀
    exact Upgrade.awaits_of_noPlan rfl
  have hholds := (awaits_invariant hexecutes hibc hrecover).run hintime hbefore hrun
  rw [History.Holds, hcurrent] at hholds
  obtain ⟨hcommitted, hawaits⟩ := hholds
  have hstore : (app.world.stores 4).currentHeight = history.blocks.length :=
    hcommitted.height upgrade_mem
  obtain ⟨⟨events, s⟩, hbegin⟩ := Option.isSome_iff_exists.mp
    ((Upgrade.beginBlock_isSome_iff header).mpr hawaits.ready)
  obtain ⟨response, app', hreturns, rfl⟩ := exists_beginBlock hcommitted.modules hbegin
  refine ⟨response, app', hreturns, ?_⟩
  intro before after responses₁ app₁ plan hsplit hrun₁ hplan hnone hnow
  -- the plan is still pending when the block begins
  rw [hsplit] at hrun hintime
  obtain ⟨app₂, _, _, hrun₂, hrun₃, -⟩ := runSteps_append.mp hrun
  obtain ⟨-, rfl⟩ := Prod.mk.inj (Option.some.inj (hrun₁.symm.trans hrun₂))
  obtain ⟨-, -, -, hmods₁, -⟩ := hbuilt.lockstep.run hrun₁
  have hkept := pending_run hexecutes hibc hrecover (hmods₁.trans hmods)
    ((along_append.mp hintime).2 _ _ hrun₁) hnone hrun₃ hplan
  have hplan' := (Upgrade.plan?_beginBlock hbegin).trans hkept
  obtain ⟨last, hlast, hstate⟩ :=
    hawaits.effect_beginBlock hstore hbegin hplan' (hnow.trans hheight)
  obtain ⟨b, hb, rfl⟩ := Option.map_eq_some_iff.mp hlast
  exact ⟨b, hb, hstate⟩

end Histories

end Upgrades

/-! ## Plans for the first blocks -/

section FirstBlocks

open scoped Idle

/-- A message is a proposal of a plan whose height is the number of its bytes. -/
local instance firstBlocksGovHost : GovHost Unit :=
  { decodeMsgSubmitProposal := fun value =>
      .ok
        { content := some ⟨"/ibc.core.client.v1.UpgradeProposal", value⟩
          initialDeposit := [⟨"basecoin", "1"⟩]
          proposer := "" }
    upgradeProposalTypeUrl := "/ibc.core.client.v1.UpgradeProposal"
    recoverClientTypeUrl := "/ibc.core.client.v1.MsgRecoverClient"
    typeUrl_ne := typeUrls_ne
    decodeUpgradeProposal := fun value => some ⟨"", "", ⟨"", value.length, ""⟩, ⟨"", []⟩⟩
    decodeMsgRecoverClient := fun _ => none
    rawProposalCodec := Codec.ofEncodable _
    anyCodec := Codec.ofEncodable _
    decodeVecError := fun _ _ => ""
    debugHostError := fun _ => "" }

local instance firstBlocksHandlers : ProposalHandlers Unit Unit :=
  { executeUpgradeClientProposal := fun proposal s =>
      ((Upgrade.propose s proposal.plan 0).1.map fun _ => ⟨"upgrade_client_proposal", []⟩,
        (Upgrade.propose s proposal.plan 0).2)
    execute_sameBase := fun proposal s => by
      rcases Upgrade.propose_cases s proposal.plan 0 with ⟨-, heq⟩ | ⟨s', heq, hproposed⟩
      · rw [heq]
        exact .refl s
      · rw [heq]
        exact hproposed.base
    recoverValidate := fun _ _ => .error "not found"
    recoverExecute := fun _ => pure (.error "not found")
    recoverExecute_isSome := fun _ => Idle.notFound_isSome }

local instance firstBlocksGenesisJson : GenesisJson Unit U256 :=
  { authAccounts := fun _ => some [(aliceAddress, [])], bankAccounts := fun _ => some [] }

/-- A transaction is one message, signed by the account of genesis. -/
local instance firstBlocksHost : Host Unit :=
  { decodeTx := fun bytes => .ok
      { signerInfos := [⟨some (.single [])⟩], messages := [⟨MsgSubmitProposal.typeUrl, bytes⟩] }
    accountId := fun _ _ => some Idle.genesisAccount
    readGenesis := fun _ => some ()
    debugError := Error.toString }

def firstBlocksApp : BaseCoinApp (Memory Unit) Unit := (chainApp Idle.ibcDeliver ()).get rfl

def firstBlocksHeader (height : Nat) : Header :=
  { height, time := height, appHash := [], nextValidatorsHash := [] }

def proposePlan (height : Nat) : Bytes := List.replicate height 0

/-- The first block, with one proposal. -/
def proposeFirst (height : Nat) : List Request :=
  [.initChain [], .beginBlock (some (firstBlocksHeader 1)), .deliverTx (proposePlan height), .commit]

/-- The pending plan, and whether it has its consensus state. -/
def pendingPlan (r : List Response × BaseCoinApp (Memory Unit) Unit) : Option (RawHeight × Bool) :=
  (Upgrade.plan? (r.2.world.stores 4)).map fun plan =>
    (plan.height, (Upgrade.consensusState? (r.2.world.stores 4) plan.height).isSome)

/-- Three accepted plans, proposed in the first block, that do not take effect: for no block, where
the second block panics; for the second block; and for the third, where a transaction fails in the
second. -/
theorem plans_too_late :
    ((runSteps BaseCoinApp.step firstBlocksApp (proposeFirst 0)).bind pendingPlan = some (0, false) ∧
      runSteps BaseCoinApp.step firstBlocksApp
        (proposeFirst 0 ++ [.beginBlock (some (firstBlocksHeader 2))]) = none) ∧
    (runSteps BaseCoinApp.step firstBlocksApp
      (proposeFirst 2 ++ [.beginBlock (some (firstBlocksHeader 2))])).bind pendingPlan =
        some (2, false) ∧
    (runSteps BaseCoinApp.step firstBlocksApp
      (proposeFirst 3 ++ [.beginBlock (some (firstBlocksHeader 2)), .deliverTx (proposePlan 0),
        .commit, .beginBlock (some (firstBlocksHeader 3))])).bind pendingPlan = some (3, false) := by
  refine ⟨⟨by decide +kernel, Option.isNone_iff_eq_none.mp (by decide +kernel)⟩, by decide +kernel,
    by decide +kernel⟩

/-- A plan for the third block, proposed in the first, and the second block. -/
def planForThird : History :=
  { genesis := [[]]
    blocks := [⟨firstBlocksHeader 1, [proposePlan 3]⟩, ⟨firstBlocksHeader 2, []⟩]
    current := none
    numbered := by
      rintro (_ | _ | i) b hb
      · cases hb
        rfl
      · cases hb
        rfl
      · cases hb }

/-- The first block up to the proposal, and with it. -/
def untilProposal : List Request := [.initChain [], .beginBlock (some (firstBlocksHeader 1))]

def withProposal : List Request := untilProposal ++ [.deliverTx (proposePlan 3)]

/-- The proposal is executed before any commit, and succeeds. -/
theorem proposal_succeeds : (runSteps BaseCoinApp.step firstBlocksApp untilProposal).all fun r =>
    (r.2.world.stores 4).currentHeight == 0 &&
      (r.2.deliverTx (proposePlan 3)).all fun r' => r'.1.code == 0 := by
  decide +kernel

theorem planForThird_runs :
    (runSteps BaseCoinApp.step firstBlocksApp withProposal).bind pendingPlan = some (3, false) ∧
      (runSteps BaseCoinApp.step firstBlocksApp planForThird.requests).isSome := by
  refine ⟨by decide +kernel, by decide +kernel⟩

theorem planForThird_inTime :
    Along BaseCoinApp.step InTime firstBlocksApp planForThird.requests := by
  show Along BaseCoinApp.step InTime firstBlocksApp (untilProposal ++ .deliverTx (proposePlan 3) ::
    [.commit, .beginBlock (some (firstBlocksHeader 2)), .commit])
  refine along_append.mpr ⟨along_of_forall fun i hi _ => ?_, fun responses app hrun =>
    ⟨?_, fun _ _ _ => ⟨trivial, fun _ _ _ => ⟨trivial, fun _ _ _ => ⟨trivial, fun _ _ _ =>
      trivial⟩⟩⟩⟩⟩
  · rcases List.mem_pair.mp hi with rfl | rfl
    · trivial
    · trivial
  · have hthen := proposal_succeeds
    rw [hrun, Option.all_some, Bool.and_eq_true, beq_iff_eq] at hthen
    obtain ⟨hheight, hcode⟩ := hthen
    intro response app' h
    rw [h, Option.all_some, beq_iff_eq] at hcode
    refine ⟨fun _ signer messages hadm message hmessage proposal hproposes => ?_,
      fun hfail => absurd hcode hfail⟩
    obtain ⟨-, rfl⟩ := Prod.mk.inj (Except.ok.inj hadm)
    obtain rfl := List.mem_singleton.mp hmessage
    obtain ⟨submitted, htry, -, hdecode⟩ := hproposes
    obtain rfl := Except.ok.inj (Option.some.inj htry)
    obtain rfl := Option.some.inj hdecode
    rw [hheight]
    exact Nat.le_refl 3

theorem plans_take_effect_third :
    ∃ responses app response app',
      runSteps BaseCoinApp.step firstBlocksApp planForThird.requests = some (responses, app) ∧
      app.beginBlock (some (firstBlocksHeader 3)) = some (response, app') ∧
      Upgrade.consensusState? (app'.world.stores 4) 3 =
        some (Upgrade.lastConsensusState (firstBlocksHeader 2)) := by
  obtain ⟨hpending, hruns⟩ := planForThird_runs
  obtain ⟨⟨responses, app⟩, hrun⟩ := Option.isSome_iff_exists.mp hruns
  obtain ⟨⟨responses₁, app₁⟩, hrun₁, hplan₁⟩ := Option.bind_eq_some_iff.mp hpending
  obtain ⟨plan, hplan, hheight⟩ := Option.map_eq_some_iff.mp hplan₁
  have hexecutes : ExecutesPlans Unit := by
    intro proposal s event s' h
    rcases Upgrade.propose_cases s proposal.plan 0 with ⟨-, heq⟩ | ⟨t, heq, hproposed⟩
    · have h' := (Prod.mk.inj h).1
      rw [heq] at h'
      cases h'
    · have h' := (Prod.mk.inj h).2
      rw [heq] at h'
      exact ⟨0, h' ▸ hproposed⟩
  obtain ⟨response, app', hbegin, heffect⟩ := (plans_take_effect hexecutes
    (fun _ _ _ => Handler.preserves_pure _) (fun _ _ => Handler.preserves_pure _)
    (Option.some_get _).symm rfl
    (show (firstBlocksHeader 3).height = planForThird.blocks.length + 1 from rfl) hrun
    planForThird_inTime).1
  obtain ⟨last, hlast, hstate⟩ := heffect withProposal _ responses₁ app₁ plan rfl hrun₁ hplan
    ⟨trivial, fun _ _ _ => ⟨trivial, fun _ _ _ => ⟨trivial, fun _ _ _ => trivial⟩⟩⟩
    (Prod.mk.inj hheight).1
  obtain rfl := Option.some.inj hlast
  exact ⟨responses, app, response, app', hrun, hbegin, (Prod.mk.inj hheight).1 ▸ hstate⟩

end FirstBlocks

end Basecoin
