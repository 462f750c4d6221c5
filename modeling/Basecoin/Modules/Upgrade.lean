import Basecoin.Modules.ClientPaths
import Basecoin.Modules.HostStates

/-!
# `modules/src/upgrade/impls.rs`

The upgrade module keeps three kinds of entry in its store: one pending plan, and per height an
upgraded client state and an upgraded consensus state. Their keys never meet (`clientStatePath_ne`
and its neighbours), so each method is described by what it does to each kind.

`schedule_upgrade` hands `clear_upgrade_plan` the height of the plan that comes in. So the states
that are cleared are those of the new plan's height, and the ones of the plan that goes stay where
they are unless the heights agree (`Scheduled`). `begin_block` unwraps twice, once for the client
state of the pending plan and once for the height before it, so it returns exactly if a pending plan
has both (`beginBlock_isSome_iff`); and it acts on a plan in one block only, the one before the
plan's height (`Triggers`).
-/

namespace Basecoin

/-- `Plan` of `ibc-rs`. -/
structure Plan where
  name : String
  height : RawHeight
  info : String
deriving DecidableEq

/-- What `ibc-rs` and `prost` do for the upgrade module. -/
class UpgradeHost (AnyClientState : outParam Type) where
  /-- `Display` of `UpgradeClientStatePath::new_with_default_path`. -/
  clientStatePath : RawHeight → String
  /-- `Display` of `UpgradeConsensusStatePath::new_with_default_path`. -/
  consensusStatePath : RawHeight → String
  /-- Every such path names its kind and its height. -/
  paths_injective : Function.Injective (Sum.elim clientStatePath consensusStatePath)
  /-- And none is the key of the plan. -/
  paths_ne_plan : ∀ p, Sum.elim clientStatePath consensusStatePath p ≠ "0x0"
  planCodec : Codec Plan
  clientStateCodec : Codec AnyClientState
  consensusStateCodec : Codec TmConsensusState
  /-- `SDK_UPGRADE_QUERY_PATH`. -/
  sdkUpgradeQueryPath : String
  /-- `Any::from(plan).value`. -/
  planValue : Plan → Bytes
  /-- `UpgradeChain::new`, as an event. -/
  upgradeChain : RawHeight → String → Event

namespace Upgrade

variable [Sha256] {AnyClientState : Type} [UpgradeHost AnyClientState]

/-! ## The stores -/

section Stores

omit [Sha256]

/-- `UpgradePlanPath::sdk_pending_path`, from `PLAN_BYTE`. -/
def sdkPendingPath : String := "0x0"

def upgradePlanStore : TypedStore String Plan :=
  { display := id, codec := UpgradeHost.planCodec }

def upgradedClientStateStore : TypedStore RawHeight AnyClientState :=
  { display := UpgradeHost.clientStatePath, codec := UpgradeHost.clientStateCodec }

def upgradedConsensusStateStore : TypedStore RawHeight TmConsensusState :=
  { display := UpgradeHost.consensusStatePath, codec := UpgradeHost.consensusStateCodec }

end Stores

/-! ## `UpgradeValidationContext` -/

def upgradePlan (s : InMemoryStore) : Except HostError Plan :=
  match upgradePlanStore.get s .pending sdkPendingPath with
  | none => .error (.invalidState "No UpgradePlan")
  | some plan => .ok plan

def upgradedClientState (s : InMemoryStore) (planHeight : RawHeight) :
    Except HostError AnyClientState :=
  match upgradedClientStateStore.get s .pending planHeight with
  | none => .error (.missingState "Upgraded ClientState")
  | some clientState => .ok clientState

def upgradedConsensusState (s : InMemoryStore) (planHeight : RawHeight) :
    Except HostError TmConsensusState :=
  match upgradedConsensusStateStore.get s .pending planHeight with
  | none => .error (.missingState "Upgraded ConsensusState")
  | some consensusState => .ok consensusState

/-! ## `UpgradeExecutionContext` -/

def clearUpgradePlan (s : InMemoryStore) (planHeight : RawHeight) :
    Except HostError Unit × InMemoryStore :=
  match upgradePlanStore.get s .pending sdkPendingPath with
  | none => (.error (.invalidState "No upgrade plan set"), s)
  | some _ =>
    let s := upgradedClientStateStore.delete s planHeight
    let s := upgradedConsensusStateStore.delete s planHeight
    (.ok (), upgradePlanStore.delete s sdkPendingPath)

def scheduleUpgrade (s : InMemoryStore) (plan : Plan) : Except HostError Unit × InMemoryStore :=
  if plan.height < s.currentHeight then
    (.error (.invalidState "Upgrade plan height is in the past"), s)
  else
    let cleared : Except HostError Unit × InMemoryStore :=
      match upgradePlan s with
      | .ok _ => clearUpgradePlan s plan.height
      | .error _ => (.ok (), s)
    match cleared with
    | (.error e, s) => (.error e, s)
    | (.ok (), s) => (.ok (), (upgradePlanStore.set s sdkPendingPath plan).2)

def storeUpgradedClientState (s : InMemoryStore) (planHeight : RawHeight)
    (clientState : AnyClientState) : InMemoryStore :=
  (upgradedClientStateStore.set s planHeight clientState).2

def storeUpgradedConsensusState (s : InMemoryStore) (planHeight : RawHeight)
    (consensusState : TmConsensusState) : InMemoryStore :=
  (upgradedConsensusStateStore.set s planHeight consensusState).2

/-! ## `Module` -/

/-- `upgraded_consensus_state` of `begin_block`, from the header of the last block. -/
def lastConsensusState (header : Header) : TmConsensusState :=
  { timestamp := header.time, root := [], nextValidatorsHash := header.nextValidatorsHash }

/-- `begin_block`; `none` is one of its two `unwrap`s. -/
def beginBlock (s : InMemoryStore) (header : Header) : Option (List Event × InMemoryStore) :=
  match upgradePlan s with
  | .error _ => some ([], s)
  | .ok plan =>
    match upgradedClientState s plan.height with
    | .error _ => none
    | .ok _ =>
      -- the height of the host chain at the beginning of the block
      let hostHeight := s.currentHeight + 1
      -- `plan.height.checked_sub(1).unwrap()`
      if plan.height = 0 then none
      else if hostHeight = plan.height - 1 then
        some ([UpgradeHost.upgradeChain plan.height "upgrade"],
          storeUpgradedConsensusState s plan.height (lastConsensusState header))
      else some ([], s)

variable [Bech32] [ProofEncoding]

omit [Bech32] in
def getProof (s : InMemoryStore) (height : Height) (path : Path) : Option Bytes :=
  Ibc.getProof s height path

def query (s : InMemoryStore) (data : Bytes) (path : Option Path) (height : Height)
    (prove : Bool) : Except Error QueryResult :=
  match path with
  | none => .error .notHandled
  | some path =>
    if path.toString = UpgradeHost.sdkUpgradeQueryPath then
      match fromUtf8 data with
      | none => .error (.custom "Invalid path")
      | some text =>
        let path := Path.ofString text
        let answer (proof : Option (List ProofOp)) : Except Error QueryResult :=
          match s.get height path with
          | none => .error (.custom "Data not found")
          | some data => .ok { data, proof }
        if prove then
          match getProof s height path with
          | none => .error (.custom "Proof not found")
          | some proof =>
            answer (some [{ fieldType := "", key := stringBytes path.toString, data := proof }])
        else answer none
    else if path.toString = "/cosmos.upgrade.v1beta1.Query/CurrentPlan" then
      match upgradePlanStore.get s .pending sdkPendingPath with
      | none => .error (.custom "Data not found")
      | some plan => .ok { data := UpgradeHost.planValue plan, proof := none }
    else .error .notHandled

/-! ## What the methods do to each kind of entry -/

section Entries

omit [Bech32] [ProofEncoding]

def plan? (s : InMemoryStore) : Option Plan := upgradePlanStore.get s .pending sdkPendingPath

def clientState? (s : InMemoryStore) (height : RawHeight) : Option AnyClientState :=
  upgradedClientStateStore.get s .pending height

def consensusState? (s : InMemoryStore) (height : RawHeight) : Option TmConsensusState :=
  upgradedConsensusStateStore.get s .pending height

omit [Sha256] in
theorem clientStatePath_injective :
    Function.Injective (UpgradeHost.clientStatePath : RawHeight → String) := by
  intro a b h
  have heq : (Sum.inl a : RawHeight ⊕ RawHeight) = .inl b := UpgradeHost.paths_injective h
  exact Sum.inl_injective heq

omit [Sha256] in
theorem consensusStatePath_injective :
    Function.Injective (UpgradeHost.consensusStatePath : RawHeight → String) := by
  intro a b h
  have heq : (Sum.inr a : RawHeight ⊕ RawHeight) = .inr b := UpgradeHost.paths_injective h
  exact Sum.inr_injective heq

omit [Sha256] in
theorem clientStatePath_ne (a b : RawHeight) :
    UpgradeHost.clientStatePath a ≠ UpgradeHost.consensusStatePath b := by
  intro h
  have heq : (Sum.inl a : RawHeight ⊕ RawHeight) = .inr b := UpgradeHost.paths_injective h
  exact Sum.inl_ne_inr heq

omit [Sha256] in
theorem clientStatePath_ne_plan (a : RawHeight) :
    UpgradeHost.clientStatePath a ≠ sdkPendingPath := UpgradeHost.paths_ne_plan (.inl a)

omit [Sha256] in
theorem consensusStatePath_ne_plan (a : RawHeight) :
    UpgradeHost.consensusStatePath a ≠ sdkPendingPath := UpgradeHost.paths_ne_plan (.inr a)

variable (s : InMemoryStore) (height h : RawHeight)

@[simp] theorem plan?_storeUpgradedClientState (clientState : AnyClientState) :
    plan? (storeUpgradedClientState s height clientState) = plan? s :=
  upgradedClientStateStore.get_set_of_ne _ (clientStatePath_ne_plan height).symm

@[simp] theorem plan?_storeUpgradedConsensusState (consensusState : TmConsensusState) :
    plan? (storeUpgradedConsensusState s height consensusState) = plan? s :=
  upgradedConsensusStateStore.get_set_of_ne _ (consensusStatePath_ne_plan height).symm

theorem clientState?_storeUpgradedClientState (clientState : AnyClientState) :
    clientState? (storeUpgradedClientState s height clientState) h =
      if h = height then some clientState else clientState? s h := by
  rw [clientState?, storeUpgradedClientState, TypedStore.get_set]
  exact if_congr clientStatePath_injective.eq_iff rfl rfl

@[simp] theorem clientState?_storeUpgradedConsensusState (consensusState : TmConsensusState) :
    clientState? (storeUpgradedConsensusState s height consensusState) h = clientState? s h :=
  upgradedConsensusStateStore.get_set_of_ne _ (clientStatePath_ne h height)

@[simp] theorem consensusState?_storeUpgradedClientState (clientState : AnyClientState) :
    consensusState? (storeUpgradedClientState s height clientState) h = consensusState? s h :=
  upgradedClientStateStore.get_set_of_ne _ (clientStatePath_ne height h).symm

theorem consensusState?_storeUpgradedConsensusState (consensusState : TmConsensusState) :
    consensusState? (storeUpgradedConsensusState s height consensusState) h =
      if h = height then some consensusState else consensusState? s h := by
  rw [consensusState?, storeUpgradedConsensusState, TypedStore.get_set]
  exact if_congr consensusStatePath_injective.eq_iff rfl rfl

/-! ## One call -/

/-- What `clear_upgrade_plan` leaves when there is a plan: neither it nor the states of the height
it was given. -/
structure Cleared (planHeight : RawHeight) (s' : InMemoryStore) : Prop where
  base : s.SameBase s'
  pending : plan? s' = none
  clientState : ∀ h, clientState? s' h = if h = planHeight then none else clientState? s h
  consensusState : ∀ h, consensusState? s' h = if h = planHeight then none else consensusState? s h

theorem clearUpgradePlan_eq {s : InMemoryStore} {plan : Plan} (hplan : plan? s = some plan)
    (planHeight : RawHeight) :
    ∃ s', clearUpgradePlan s planHeight = (.ok (), s') ∧ Cleared s planHeight s' := by
  have hget : upgradePlanStore.get s .pending sdkPendingPath = some plan := hplan
  rw [clearUpgradePlan, hget]
  refine ⟨_, rfl, ⟨rfl, rfl⟩, ?_, fun h => ?_, fun h => ?_⟩
  · rw [plan?, TypedStore.get_delete, if_pos rfl]
  · rw [clientState?, TypedStore.get_delete_of_ne _ _ (clientStatePath_ne_plan h),
      TypedStore.get_delete_of_ne _ _ (clientStatePath_ne h planHeight), TypedStore.get_delete]
    exact if_congr clientStatePath_injective.eq_iff rfl rfl
  · rw [consensusState?, TypedStore.get_delete_of_ne _ _ (consensusStatePath_ne_plan h),
      TypedStore.get_delete]
    refine if_congr consensusStatePath_injective.eq_iff rfl ?_
    exact upgradedClientStateStore.get_delete_of_ne _ (clientStatePath_ne planHeight h).symm

/-- What `schedule_upgrade` leaves when it accepts the plan: it, and no states of its height if a
plan was pending. -/
structure Scheduled (plan : Plan) (s' : InMemoryStore) : Prop where
  base : s.SameBase s'
  notPast : s.currentHeight ≤ plan.height
  pending : plan? s' = some plan
  clientState : ∀ h, clientState? s' h =
    if (plan? s).isSome ∧ h = plan.height then none else clientState? s h
  consensusState : ∀ h, consensusState? s' h =
    if (plan? s).isSome ∧ h = plan.height then none else consensusState? s h

theorem plan?_set (plan : Plan) :
    plan? (upgradePlanStore.set s sdkPendingPath plan).2 = some plan := by
  rw [plan?, TypedStore.get_set, if_pos rfl]

theorem clientState?_setPlan (plan : Plan) :
    clientState? (upgradePlanStore.set s sdkPendingPath plan).2 h = clientState? s h :=
  upgradePlanStore.get_set_of_ne _ (clientStatePath_ne_plan h)

theorem consensusState?_setPlan (plan : Plan) :
    consensusState? (upgradePlanStore.set s sdkPendingPath plan).2 h = consensusState? s h :=
  upgradePlanStore.get_set_of_ne _ (consensusStatePath_ne_plan h)

/-- `schedule_upgrade` turns away exactly the plans below the committed height. -/
theorem scheduleUpgrade_cases (plan : Plan) :
    (plan.height < s.currentHeight ∧ scheduleUpgrade s plan =
      (.error (.invalidState "Upgrade plan height is in the past"), s)) ∨
    ∃ s', scheduleUpgrade s plan = (.ok (), s') ∧ Scheduled s plan s' := by
  rw [scheduleUpgrade]
  by_cases hpast : plan.height < s.currentHeight
  · exact .inl ⟨hpast, if_pos hpast⟩
  · right
    rw [if_neg hpast]
    cases hplan : plan? s with
    | none =>
      have hget : upgradePlan s = .error (.invalidState "No UpgradePlan") := by
        rw [upgradePlan, show upgradePlanStore.get s .pending sdkPendingPath = none from hplan]
      rw [hget]
      refine ⟨_, rfl, ⟨rfl, rfl⟩, Nat.le_of_not_lt hpast, plan?_set s plan, fun h => ?_, fun h => ?_⟩
      · rw [clientState?_setPlan, hplan, if_neg (by simp)]
      · rw [consensusState?_setPlan, hplan, if_neg (by simp)]
    | some old =>
      -- the pending plan is `old`, and what is cleared is the height of `plan`
      have hget : upgradePlan s = .ok old := by
        rw [upgradePlan, show upgradePlanStore.get s .pending sdkPendingPath = some old from hplan]
      obtain ⟨t, ht, hcleared⟩ := clearUpgradePlan_eq hplan plan.height
      rw [hget]
      simp only [ht]
      refine ⟨_, rfl, hcleared.base.trans ⟨rfl, rfl⟩, Nat.le_of_not_lt hpast, plan?_set t plan,
        fun h => ?_, fun h => ?_⟩
      · rw [clientState?_setPlan, hcleared.clientState, hplan]
        simp
      · rw [consensusState?_setPlan, hcleared.consensusState, hplan]
        simp

/-- The plan `begin_block` acts on: it is pending, its client state is stored, its height is not
zero, and the block that begins is the one before it. -/
structure Triggers (plan : Plan) : Prop where
  pending : plan? s = some plan
  clientState : (clientState? s plan.height).isSome
  height : s.currentHeight + 2 = plan.height

/-- A pending plan has its client state and a height before it. -/
def Ready : Prop :=
  ∀ plan, plan? s = some plan → (clientState? s plan.height).isSome ∧ plan.height ≠ 0

variable {s} (header : Header)

/-- `begin_block` with a pending plan. -/
theorem beginBlock_pending {plan : Plan} {clientState : AnyClientState}
    (hplan : plan? s = some plan) (hclient : clientState? s plan.height = some clientState) :
    beginBlock s header =
      if plan.height = 0 then none
      else if s.currentHeight + 1 = plan.height - 1 then
        some ([UpgradeHost.upgradeChain plan.height "upgrade"],
          storeUpgradedConsensusState s plan.height (lastConsensusState header))
      else some ([], s) := by
  have hget : upgradePlan s = .ok plan := by
    rw [upgradePlan, show upgradePlanStore.get s .pending sdkPendingPath = some plan from hplan]
  have hclient' : upgradedClientState s plan.height = .ok clientState := by
    rw [upgradedClientState,
      show upgradedClientStateStore.get s .pending plan.height = some clientState from hclient]
  rw [beginBlock, hget]
  simp only [hclient']

theorem beginBlock_none (hplan : plan? s = none) : beginBlock s header = some ([], s) := by
  have hget : upgradePlan s = .error (.invalidState "No UpgradePlan") := by
    rw [upgradePlan, show upgradePlanStore.get s .pending sdkPendingPath = none from hplan]
  rw [beginBlock, hget]

theorem beginBlock_of_triggers {plan : Plan} (h : Triggers s plan) :
    beginBlock s header =
      some ([UpgradeHost.upgradeChain plan.height "upgrade"],
        storeUpgradedConsensusState s plan.height (lastConsensusState header)) := by
  obtain ⟨clientState, hclient⟩ := Option.isSome_iff_exists.mp h.clientState
  have hheight := h.height
  rw [beginBlock_pending header h.pending hclient, if_neg (by grind), if_pos (by grind)]

theorem beginBlock_of_not_triggers (hready : Ready s) (h : ∀ plan, ¬ Triggers s plan) :
    beginBlock s header = some ([], s) := by
  cases hplan : plan? s with
  | none => exact beginBlock_none header hplan
  | some plan =>
    obtain ⟨hclient, hne⟩ := hready plan hplan
    obtain ⟨clientState, hclient'⟩ := Option.isSome_iff_exists.mp hclient
    have hheight : ¬ s.currentHeight + 1 = plan.height - 1 := fun heq =>
      h plan ⟨hplan, hclient, by grind⟩
    rw [beginBlock_pending header hplan hclient', if_neg hne, if_neg hheight]

theorem beginBlock_isSome_iff : (beginBlock s header).isSome ↔ Ready s := by
  constructor
  · intro hsome plan hplan
    cases hclient : clientState? s plan.height with
    | none =>
      have hget : upgradePlan s = .ok plan := by
        rw [upgradePlan, show upgradePlanStore.get s .pending sdkPendingPath = some plan from hplan]
      have hmissing : upgradedClientState s plan.height =
          .error (.missingState "Upgraded ClientState") := by
        rw [upgradedClientState,
          show upgradedClientStateStore.get s .pending plan.height = none from hclient]
      rw [beginBlock, hget] at hsome
      simp only [hmissing] at hsome
      exact absurd hsome Bool.false_ne_true
    | some clientState =>
      refine ⟨rfl, fun hzero => ?_⟩
      rw [beginBlock_pending header hplan hclient, if_pos hzero] at hsome
      exact absurd hsome Bool.false_ne_true
  · intro hready
    by_cases h : ∃ plan, Triggers s plan
    · obtain ⟨plan, hplan⟩ := h
      rw [beginBlock_of_triggers header hplan]
      rfl
    · rw [beginBlock_of_not_triggers header hready fun plan hplan => h ⟨plan, hplan⟩]
      rfl

theorem beginBlock_sameBase {events : List Event} {s' : InMemoryStore}
    (h : beginBlock s header = some (events, s')) : s.SameBase s' := by
  by_cases htrigger : ∃ plan, Triggers s plan
  · obtain ⟨plan, hplan⟩ := htrigger
    rw [beginBlock_of_triggers header hplan] at h
    exact (Prod.mk.inj (Option.some.inj h)).2 ▸ upgradedConsensusStateStore.set_sameBase s _ _
  · have hready : Ready s := (beginBlock_isSome_iff header).mp (h ▸ rfl)
    rw [beginBlock_of_not_triggers header hready fun plan hplan => htrigger ⟨plan, hplan⟩] at h
    exact (Prod.mk.inj (Option.some.inj h)).2 ▸ .refl s

end Entries

/-- `Upgrade`, as a module over the store behind `store`. -/
def module {M G : Type} (store : StoreRef) : Module M G where
  store := store
  query data path height prove w := some (query (w.stores store) data path height prove)
  beginBlock header :=
    Handler.onStore store (fun s => beginBlock s header) fun h => beginBlock_sameBase header h

end Upgrade

/-! ## The paths as they print -/

/-- A path under the default upgrade path. -/
def upgradePath (kind : String) (height : RawHeight) : String :=
  "upgradedIBCState/" ++ (height.repr ++ ("/" ++ kind))

theorem splitOn_upgradePath {kind : String} (h : '/' ∉ kind.toList) (height : RawHeight) :
    (upgradePath kind height).toList.splitOn '/' =
      ["upgradedIBCState".toList, height.repr.toList, kind.toList] := by
  have hroot : "upgradedIBCState/" = "upgradedIBCState" ++ "/" := by decide
  have hjoin : (upgradePath kind height).toList =
      ['/'].intercalate ["upgradedIBCState".toList, height.repr.toList, kind.toList] := by
    unfold upgradePath
    simp only [hroot, String.toList_append]
    generalize "upgradedIBCState" = root
    simp [List.intercalate]
  rw [hjoin]
  refine List.splitOn_intercalate '/' (fun l hl => ?_) (List.cons_ne_nil _ _)
  simp only [List.mem_cons, List.not_mem_nil, or_false] at hl
  rcases hl with rfl | rfl | rfl
  · decide
  · exact notMem_repr rfl _
  · exact h

theorem upgradePath_inj {kind kind' : String} (hkind : '/' ∉ kind.toList)
    (hkind' : '/' ∉ kind'.toList) {a b : RawHeight} :
    upgradePath kind a = upgradePath kind' b ↔ kind = kind' ∧ a = b := by
  constructor
  · intro h
    have hsplit := congrArg (fun text => text.toList.splitOn '/') h
    rw [splitOn_upgradePath hkind, splitOn_upgradePath hkind'] at hsplit
    obtain ⟨hheight, hkinds⟩ := List.cons.inj (List.cons.inj hsplit).2
    refine ⟨String.toList_inj.mp (List.cons.inj hkinds).1, ?_⟩
    have hread := congrArg (fun l => Nat.ofDigitChars 10 l 0) hheight
    simpa [Nat.repr] using hread
  · rintro ⟨rfl, rfl⟩
    rfl

instance encodablePlan : Encodable Plan :=
  Encodable.ofLeftInverse (fun p : Plan => (p.name, p.height, p.info)) (fun r => ⟨r.1, r.2.1, r.2.2⟩)
    fun _ => rfl

instance encodableTmConsensusState : Encodable TmConsensusState :=
  Encodable.ofLeftInverse (fun c : TmConsensusState => (c.timestamp, c.root, c.nextValidatorsHash))
    (fun r => ⟨r.1, r.2.1, r.2.2⟩) fun _ => rfl

/-- The two kinds of path as they print. With codecs for any countable type it stands for the real
ones where the model is run. -/
@[reducible] def UpgradeHost.ofEncodable (AnyClientState : Type) [Encodable AnyClientState] :
    UpgradeHost AnyClientState where
  clientStatePath := upgradePath "upgradedClient"
  consensusStatePath := upgradePath "upgradedConsState"
  paths_injective := by
    rintro (a | a) (b | b) h
    · exact congrArg Sum.inl ((upgradePath_inj (by decide) (by decide)).mp h).2
    · exact absurd ((upgradePath_inj (by decide) (by decide)).mp h).1 (by decide)
    · exact absurd ((upgradePath_inj (by decide) (by decide)).mp h).1 (by decide)
    · exact congrArg Sum.inr ((upgradePath_inj (by decide) (by decide)).mp h).2
  paths_ne_plan := by
    have hne : ∀ kind height, upgradePath kind height ≠ "0x0" := fun kind height h => by
      have hslash : '/' ∈ (upgradePath kind height).toList := by
        unfold upgradePath
        rw [String.toList_append]
        exact List.mem_append_left _ (by decide)
      exact absurd (h ▸ hslash) (by decide)
    rintro (a | a)
    · exact hne _ a
    · exact hne _ a
  planCodec := Codec.ofEncodable _
  clientStateCodec := Codec.ofEncodable _
  consensusStateCodec := Codec.ofEncodable _
  sdkUpgradeQueryPath := "store/upgrade/key"
  planValue plan := (Codec.ofEncodable Plan).encode plan
  upgradeChain height store :=
    ⟨"upgrade_chain", [("upgrade_plan_height", height.repr), ("upgrade_store", store)]⟩

end Basecoin
