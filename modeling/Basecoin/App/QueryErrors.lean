import Basecoin.App.Chain

/-!
# Queries of heights without a state

`query` asks the modules in order, and proves the answer of the first that has one out of the main
store at the height of the request. The modules differ in what they make of that height. Where
there is no state, the two that read it have no answer; the bank answers with no balances, and the
proposal and the plan are read from the pending copy at any height (`AnswersAnyway`). Their
answers meet an `unwrap` of a proof there is not.

Which module answers is decided in two steps. First, for any modules: the response is the first
answer that is not `NotHandled`, with a proof out of the main store if one is asked for
(`queryModules_answered`, `queryModules_unanswered`). Then, for the modules there are: an error of
one in front keeps those behind it from being asked, so a path of the ibc module never reaches the
governance module, and an account text never gets past the bank.
-/

namespace Basecoin

open Lib

/-! ## The loop -/

section Loop

variable [Sha256] [Bech32] [ProofEncoding] {M G : Type} [Host G]

omit [ProofEncoding] [Host G] in
/-- The module's answer to the request. -/
def IdentifiedModule.answer (m : IdentifiedModule M G) (app : BaseCoinApp M G)
    (request : RequestQuery) (height : Height) : Option (Except Error QueryResult) :=
  m.module.query request.data (some (Path.ofString request.path)) height request.prove app.world

omit [ProofEncoding] [Host G] in
/-- The first answer that is not `NotHandled`, if it is a result. -/
def firstAnswer (app : BaseCoinApp M G) (request : RequestQuery) (height : Height) :
    List (IdentifiedModule M G) → Option QueryResult
  | [] => none
  | m :: ms =>
    match m.answer app request height with
    | some (.ok result) => some result
    | some (.error .notHandled) => firstAnswer app request height ms
    | _ => none

section Cons

omit [ProofEncoding] [Host G]

variable {app : BaseCoinApp M G} {request : RequestQuery} {height : Height}
  {m : IdentifiedModule M G} (ms : List (IdentifiedModule M G))

theorem firstAnswer_notHandled (h : m.answer app request height = some (.error .notHandled)) :
    firstAnswer app request height (m :: ms) = firstAnswer app request height ms := by
  rw [firstAnswer, h]

theorem firstAnswer_ok {result : QueryResult}
    (h : m.answer app request height = some (.ok result)) :
    firstAnswer app request height (m :: ms) = some result := by
  rw [firstAnswer, h]

theorem firstAnswer_error {e : Error} (h : m.answer app request height = some (.error e))
    (hne : e ≠ .notHandled) : firstAnswer app request height (m :: ms) = none := by
  rw [firstAnswer, h]
  cases e with
  | notHandled => exact absurd rfl hne
  | custom => rfl
  | bank => rfl
  | ibc => rfl
  | gov => rfl

end Cons

/-- Without a first answer the response is an error. -/
theorem queryModules_unanswered {app : BaseCoinApp M G} {request : RequestQuery} {height : Height}
    {ms : List (IdentifiedModule M G)}
    (hreturns : ∀ m ∈ ms, (m.answer app request height).isSome)
    (h : firstAnswer app request height ms = none) :
    ∃ response, app.queryModules request height ms = some response ∧ response.code ≠ 0 := by
  induction ms with
  | nil => exact ⟨_, rfl, Nat.one_ne_zero⟩
  | cons m ms ih =>
    obtain ⟨answer, hanswer⟩ :=
      Option.isSome_iff_exists.mp (hreturns m List.mem_cons_self)
    rw [firstAnswer, hanswer] at h
    rw [IdentifiedModule.answer] at hanswer
    rw [BaseCoinApp.queryModules, hanswer, Option.bind_some]
    cases answer with
    | ok result => cases h
    | error e =>
      cases e with
      | notHandled => exact ih (fun m hm => hreturns m (List.mem_cons_of_mem _ hm)) h
      | custom reason => exact ⟨_, rfl, Nat.one_ne_zero⟩
      | bank e => exact ⟨_, rfl, Nat.one_ne_zero⟩
      | ibc e => exact ⟨_, rfl, Nat.one_ne_zero⟩
      | gov e => exact ⟨_, rfl, Nat.one_ne_zero⟩

/-- With one, the response is a success, unless a proof is asked for that there is not. -/
theorem queryModules_answered {app : BaseCoinApp M G} {request : RequestQuery} {height : Height}
    {ms : List (IdentifiedModule M G)} (h : (firstAnswer app request height ms).isSome) :
    (request.prove = true ∧ app.store.getState height = none →
      app.queryModules request height ms = none) ∧
    (¬ (request.prove = true ∧ app.store.getState height = none) →
      ∃ response, app.queryModules request height ms = some response ∧ response.code = 0) := by
  induction ms with
  | nil => exact absurd h Bool.false_ne_true
  | cons m ms ih =>
    rw [firstAnswer] at h
    rw [BaseCoinApp.queryModules, ← IdentifiedModule.answer]
    cases hanswer : m.answer app request height with
    | none =>
      rw [hanswer] at h
      cases h
    | some answer =>
      rw [hanswer] at h
      rw [Option.bind_some]
      cases answer with
      | error e =>
        cases e with
        | notHandled => exact ih h
        -- any other error ends the loop
        | custom reason => cases h
        | bank e => cases h
        | ibc e => cases h
        | gov e => cases h
      | ok result =>
        dsimp only
        cases hprove : request.prove with
        | false =>
          refine ⟨fun hand => absurd hand.1 Bool.false_ne_true, fun _ => ⟨_, rfl, rfl⟩⟩
        | true =>
          rw [if_pos rfl, InMemoryStore.getProof]
          cases hstate : app.store.getState height with
          | none => exact ⟨fun _ => rfl, fun hnot => absurd ⟨rfl, rfl⟩ hnot⟩
          | some state =>
            refine ⟨fun hand => ?_, fun _ => ⟨_, rfl, rfl⟩⟩
            cases hand.2

end Loop

/-! ## Heights without a state

The stores have their states at the same heights (`Lockstep`), so a height without one in the main
store has none in a module's either, and a module that answers there does not read one. -/

section Missing

variable [Sha256]

/-- After so many commits there is no state at the height of a request, where 0 asks for the
latest. -/
def StateMissing (commits : Nat) (height : Int64) : Prop :=
  if height.toUInt64.toNat = 0 then commits = 0 else commits < height.toUInt64.toNat

theorem getState_ofRaw_eq_none_iff {s : InMemoryStore} (h : s.store.pruned = 0) (n : Nat) :
    s.getState (Height.ofRaw n) = none ↔
      if n = 0 then s.currentHeight = 0 else s.currentHeight < n := by
  rw [InMemoryStore.currentHeight_eq h]
  cases n with
  | zero =>
    rw [if_pos rfl]
    show s.history.getLast? = none ↔ _
    rw [List.getLast?_eq_none_iff, List.length_eq_zero_iff]
  | succ n =>
    rw [if_neg (Nat.succ_ne_zero n)]
    show s.getState (.stable (n + 1)) = none ↔ _
    rw [InMemoryStore.getState_stable h (Nat.le_add_left 1 n), List.getElem?_eq_none_iff,
      Nat.add_sub_cancel, Nat.lt_succ_iff]

end Missing

section Modules

variable [Sha256] [Bech32] [AuthCodec] [BankHost] [IbcHost] [ProofEncoding] [U256Text]

omit [Sha256] [AuthCodec] [BankHost] [IbcHost] [ProofEncoding] [U256Text] in
/-- The account a query of the bank names. -/
def Bank.namedAccount (data : Bytes) : Option AccountId :=
  (fromUtf8 data).bind fun text =>
    if accountPrefix.toList.isPrefixOf text.toList then AccountId.fromStr text else none

omit [IbcHost] [ProofEncoding] [U256Text] in
theorem Bank.query_unnamed {data : Bytes} (h : namedAccount data = none)
    (s accounts : InMemoryStore) (height : Height) :
    Bank.query s accounts data height = .error .notHandled := by
  rw [namedAccount] at h
  rw [Bank.query]
  cases htext : fromUtf8 data with
  | none => rfl
  | some text =>
    rw [htext, Option.bind_some] at h
    dsimp only
    by_cases hprefix : accountPrefix.toList.isPrefixOf text.toList
    · rw [if_pos hprefix] at h
      rw [if_pos hprefix, h]
    · rw [if_neg hprefix]

omit [IbcHost] [ProofEncoding] [U256Text] in
/-- The bank answers for an account that exists, whatever the height. -/
theorem Bank.query_named {data : Bytes} {account : AccountId}
    (h : namedAccount data = some account) (s accounts : InMemoryStore) (height : Height) :
    ((Auth.getAccount accounts account).isSome →
      ∃ result, Bank.query s accounts data height = .ok result) ∧
    (Auth.getAccount accounts account = none →
      Bank.query s accounts data height = .error (.bank (.nonExistentAccount account))) := by
  rw [namedAccount] at h
  obtain ⟨text, htext, hif⟩ := Option.bind_eq_some_iff.mp h
  -- whether the account exists is asked of the pending accounts, so the height plays no part
  by_cases hprefix : accountPrefix.toList.isPrefixOf text.toList
  · rw [if_pos hprefix] at hif
    rw [Bank.query, htext]
    dsimp only
    rw [if_pos hprefix, hif]
    dsimp only
    cases Auth.getAccount accounts account with
    | none => exact ⟨fun hsome => absurd hsome Bool.false_ne_true, fun _ => rfl⟩
    | some a =>
      refine ⟨fun _ => ⟨_, rfl⟩, fun hnone => ?_⟩
      cases hnone
  · rw [if_neg hprefix] at hif
    cases hif

omit [AuthCodec] [BankHost] [U256Text] in
/-- Where there is no state, what the ibc module handles it cannot answer. -/
theorem Ibc.query_missing {s : InMemoryStore} {height : Height} (h : s.getState height = none)
    {path : Path} (hpath : path.toString = IbcHost.queryPath) (data : Bytes) (prove : Bool) :
    ∃ e, Ibc.query s data (some path) height prove = .error e ∧ e ≠ .notHandled := by
  have hget : ∀ p, s.get height p = none := fun p => by rw [InMemoryStore.get, h, Option.bind_none]
  have hproof : ∀ p, Ibc.getProof s height p = none := fun p => by
    rw [Ibc.getProof, InMemoryStore.getProof, h]
    rfl
  simp only [Ibc.query, hpath, hget, hproof, ne_eq, not_true_eq_false, if_false]
  cases fromUtf8 data with
  | none => exact ⟨_, rfl, by simp⟩
  | some text =>
    dsimp only
    split
    · exact ⟨_, rfl, by simp⟩
    · cases prove with
      | true => exact ⟨_, rfl, by simp⟩
      | false => exact ⟨_, rfl, by simp⟩

omit [AuthCodec] [BankHost] [U256Text] in
theorem Ibc.query_other {path : Path} (hpath : path.toString ≠ IbcHost.queryPath)
    (s : InMemoryStore) (data : Bytes) (height : Height) (prove : Bool) :
    Ibc.query s data (some path) height prove = .error .notHandled := by
  rw [Ibc.query]
  exact if_pos hpath

variable {AnyClientState : Type} [UpgradeHost AnyClientState]

omit [AuthCodec] [BankHost] [IbcHost] [U256Text] in
/-- And the same for the upgrade module's stored entries. -/
theorem Upgrade.query_missing {s : InMemoryStore} {height : Height} (h : s.getState height = none)
    {path : Path} (hpath : path.toString = UpgradeHost.sdkUpgradeQueryPath) (data : Bytes)
    (prove : Bool) :
    ∃ e, Upgrade.query s data (some path) height prove = .error e ∧ e ≠ .notHandled := by
  have hget : ∀ p, s.get height p = none := fun p => by rw [InMemoryStore.get, h, Option.bind_none]
  have hproof : ∀ p, Upgrade.getProof s height p = none := fun p => by
    rw [Upgrade.getProof, Ibc.getProof, InMemoryStore.getProof, h]
    rfl
  simp only [Upgrade.query, hpath, hget, hproof, if_true]
  cases fromUtf8 data with
  | none => exact ⟨_, rfl, by simp⟩
  | some text =>
    cases prove with
    | true => exact ⟨_, rfl, by simp⟩
    | false => exact ⟨_, rfl, by simp⟩

variable {R G MsgRecoverClient : Type} [GenesisJson G U256] [GovHost MsgRecoverClient]
  [ProposalHandlers R MsgRecoverClient] [BuildProfile] [Host G]

/-- A module answers the request whether or not there is a state at its height: it names an
account that exists, or else asks for a proposal or a plan that is stored. -/
def AnswersAnyway (w : World (Memory R)) (request : RequestQuery) : Prop :=
  match Bank.namedAccount request.data with
  | some account => (Auth.getAccount (w.stores 0) account).isSome
  | none =>
    request.path ≠ IbcHost.queryPath ∧
      ((request.path = "/cosmos.gov.v1beta1.Query/Proposal" ∧
          ((w.stores 5).get .pending (Path.ofString Governance.sdkPath)).isSome) ∨
        (request.path = "/cosmos.upgrade.v1beta1.Query/CurrentPlan" ∧
          request.path ≠ UpgradeHost.sdkUpgradeQueryPath ∧ (Upgrade.plan? (w.stores 4)).isSome))

omit [IbcHost] [U256Text] [AuthCodec] [BankHost] [ProofEncoding] [BuildProfile] in
theorem Governance.query_stored {path : Path}
    (hpath : path.toString = "/cosmos.gov.v1beta1.Query/Proposal") (s : InMemoryStore) :
    ((s.get .pending (Path.ofString Governance.sdkPath)).isSome →
      ∃ result, Governance.query s (some path) = .ok result) ∧
    (s.get .pending (Path.ofString Governance.sdkPath) = none →
      Governance.query s (some path) = .error (.custom "Data not found")) := by
  simp only [Governance.query, hpath, ne_eq, not_true_eq_false, if_false]
  cases s.get .pending (Path.ofString Governance.sdkPath) with
  | none => exact ⟨fun hsome => absurd hsome Bool.false_ne_true, fun _ => rfl⟩
  | some data =>
    refine ⟨fun _ => ⟨_, rfl⟩, fun hnone => ?_⟩
    cases hnone

omit [IbcHost] [U256Text] [AuthCodec] [BankHost] [ProofEncoding] [BuildProfile] in
theorem Governance.query_other {path : Path}
    (hpath : path.toString ≠ "/cosmos.gov.v1beta1.Query/Proposal") (s : InMemoryStore) :
    Governance.query s (some path) = .error .notHandled := by
  rw [Governance.query]
  exact if_pos hpath

omit [IbcHost] [U256Text] [AuthCodec] [BankHost] [BuildProfile] in
theorem Upgrade.query_other {path : Path}
    (hsdk : path.toString ≠ UpgradeHost.sdkUpgradeQueryPath)
    (hplan : path.toString ≠ "/cosmos.upgrade.v1beta1.Query/CurrentPlan") (s : InMemoryStore)
    (data : Bytes) (height : Height) (prove : Bool) :
    Upgrade.query s data (some path) height prove = .error .notHandled := by
  rw [Upgrade.query]
  dsimp only
  rw [if_neg hsdk, if_neg hplan]

omit [IbcHost] [U256Text] [AuthCodec] [BankHost] [BuildProfile] in
theorem Upgrade.query_plan {path : Path}
    (hpath : path.toString = "/cosmos.upgrade.v1beta1.Query/CurrentPlan")
    (hsdk : path.toString ≠ UpgradeHost.sdkUpgradeQueryPath) (s : InMemoryStore) (data : Bytes)
    (height : Height) (prove : Bool) :
    ((Upgrade.plan? s).isSome → ∃ result, Upgrade.query s data (some path) height prove = .ok result) ∧
    (Upgrade.plan? s = none →
      Upgrade.query s data (some path) height prove = .error (.custom "Data not found")) := by
  rw [Upgrade.query]
  dsimp only
  rw [if_neg hsdk, if_pos hpath, Upgrade.plan?]
  cases Upgrade.upgradePlanStore.get s .pending Upgrade.sdkPendingPath with
  | none => exact ⟨fun hsome => absurd hsome Bool.false_ne_true, fun _ => rfl⟩
  | some plan =>
    refine ⟨fun _ => ⟨_, rfl⟩, fun hnone => ?_⟩
    cases hnone

/-! ### Each module in its place -/

section Answers

omit [Host G]

variable {app : BaseCoinApp (Memory R) G} {request : RequestQuery} {height : Height}
  {ms : List (IdentifiedModule (Memory R) G)}

omit [IbcHost] [ProofEncoding] [U256Text] [BuildProfile] in
theorem firstAnswer_bank_named {account : AccountId}
    (h : Bank.namedAccount request.data = some account) :
    (firstAnswer app request height (⟨"bank", Bank.module 1 0⟩ :: ms)).isSome ↔
      (Auth.getAccount (app.world.stores 0) account).isSome := by
  have hbank : (⟨"bank", Bank.module 1 0⟩ : IdentifiedModule (Memory R) G).answer app request
      height = some (Bank.query (app.world.stores 1) (app.world.stores 0) request.data height) := rfl
  obtain ⟨hok, herr⟩ := Bank.query_named h (app.world.stores 1) (app.world.stores 0) height
  cases haccount : Auth.getAccount (app.world.stores 0) account with
  | none =>
    rw [firstAnswer_error _ (hbank.trans (congrArg some (herr haccount))) (by simp)]
    exact iff_of_false Bool.false_ne_true Bool.false_ne_true
  | some a =>
    obtain ⟨result, hresult⟩ := hok (haccount ▸ rfl)
    rw [firstAnswer_ok _ (hbank.trans (congrArg some hresult))]
    exact iff_of_true rfl rfl

omit [IbcHost] [ProofEncoding] [U256Text] [BuildProfile] in
theorem firstAnswer_bank_unnamed (h : Bank.namedAccount request.data = none) :
    firstAnswer app request height (⟨"bank", Bank.module 1 0⟩ :: ms) =
      firstAnswer app request height ms :=
  firstAnswer_notHandled ms (congrArg some (Bank.query_unnamed h _ _ height))

omit [AuthCodec] [BankHost] [U256Text] [GenesisJson G U256] [BuildProfile] in
theorem firstAnswer_ibc
    {ibcDeliver : Any → AccountId → Handler (Memory R) (Except Error (List Event))}
    (hmissing : (app.world.stores 3).getState height = none) :
    (firstAnswer app request height (⟨"ibc", Ibc.module 3 ibcDeliver Ibc.beginBlock⟩ :: ms)).isSome ↔
      request.path ≠ IbcHost.queryPath ∧ (firstAnswer app request height ms).isSome := by
  have hibc : (⟨"ibc", Ibc.module 3 ibcDeliver Ibc.beginBlock⟩ :
      IdentifiedModule (Memory R) G).answer app request height =
        some (Ibc.query (app.world.stores 3) request.data (some (Path.ofString request.path)) height
          request.prove) := rfl
  have htext : (Path.ofString request.path).toString = request.path := Path.toString_ofString _
  by_cases hpath : request.path = IbcHost.queryPath
  · obtain ⟨e, he, hne⟩ :=
      Ibc.query_missing hmissing (htext.trans hpath) request.data request.prove
    rw [firstAnswer_error _ (hibc.trans (congrArg some he)) hne]
    exact iff_of_false Bool.false_ne_true fun hand => hand.1 hpath
  · rw [firstAnswer_notHandled _ (hibc.trans (congrArg some
      (Ibc.query_other (htext.symm ▸ hpath) _ _ height _))), and_iff_right hpath]

omit [AuthCodec] [BankHost] [IbcHost] [ProofEncoding] [GenesisJson G U256] in
theorem firstAnswer_gov :
    (firstAnswer app request height (⟨"gov", Governance.module 5 4⟩ :: ms)).isSome ↔
      (request.path = "/cosmos.gov.v1beta1.Query/Proposal" ∧
          ((app.world.stores 5).get .pending (Path.ofString Governance.sdkPath)).isSome) ∨
        (request.path ≠ "/cosmos.gov.v1beta1.Query/Proposal" ∧
          (firstAnswer app request height ms).isSome) := by
  have hgov : (⟨"gov", Governance.module 5 4⟩ : IdentifiedModule (Memory R) G).answer app request
      height = some (Governance.query (app.world.stores 5) (some (Path.ofString request.path))) := rfl
  have htext : (Path.ofString request.path).toString = request.path := Path.toString_ofString _
  by_cases hproposal : request.path = "/cosmos.gov.v1beta1.Query/Proposal"
  · rw [and_iff_right hproposal, or_iff_left fun hand => hand.1 hproposal]
    obtain ⟨hok, herr⟩ := Governance.query_stored (htext.trans hproposal) (app.world.stores 5)
    cases hstored : (app.world.stores 5).get .pending (Path.ofString Governance.sdkPath) with
    | none =>
      rw [firstAnswer_error _ (hgov.trans (congrArg some (herr hstored))) (by simp)]
      exact iff_of_false Bool.false_ne_true Bool.false_ne_true
    | some data =>
      obtain ⟨result, hresult⟩ := hok (hstored ▸ rfl)
      rw [firstAnswer_ok _ (hgov.trans (congrArg some hresult))]
      exact iff_of_true rfl rfl
  · rw [or_iff_right fun hand => hproposal hand.1, and_iff_right hproposal,
      firstAnswer_notHandled _ (hgov.trans (congrArg some
        (Governance.query_other (htext.symm ▸ hproposal) _)))]

omit [AuthCodec] [BankHost] [IbcHost] [U256Text] [GenesisJson G U256] [BuildProfile] in
theorem firstAnswer_upgrade (hmissing : (app.world.stores 4).getState height = none) :
    (firstAnswer app request height (⟨"upgrade", Upgrade.module 4⟩ :: ms)).isSome ↔
      request.path ≠ UpgradeHost.sdkUpgradeQueryPath ∧
        ((request.path = "/cosmos.upgrade.v1beta1.Query/CurrentPlan" ∧
            (Upgrade.plan? (app.world.stores 4)).isSome) ∨
          (request.path ≠ "/cosmos.upgrade.v1beta1.Query/CurrentPlan" ∧
            (firstAnswer app request height ms).isSome)) := by
  have hupgrade : (⟨"upgrade", Upgrade.module 4⟩ : IdentifiedModule (Memory R) G).answer app
      request height = some (Upgrade.query (app.world.stores 4) request.data
        (some (Path.ofString request.path)) height request.prove) := rfl
  have htext : (Path.ofString request.path).toString = request.path := Path.toString_ofString _
  by_cases hsdk : request.path = UpgradeHost.sdkUpgradeQueryPath
  · obtain ⟨e, he, hne⟩ :=
      Upgrade.query_missing hmissing (htext.trans hsdk) request.data request.prove
    rw [firstAnswer_error _ (hupgrade.trans (congrArg some he)) hne]
    exact iff_of_false Bool.false_ne_true fun hand => hand.1 hsdk
  rw [and_iff_right hsdk]
  by_cases hplan : request.path = "/cosmos.upgrade.v1beta1.Query/CurrentPlan"
  · rw [and_iff_right hplan, or_iff_left fun hand => hand.1 hplan]
    obtain ⟨hok, herr⟩ := Upgrade.query_plan (htext.trans hplan) (htext.symm ▸ hsdk)
      (app.world.stores 4) request.data height request.prove
    cases hpending : Upgrade.plan? (app.world.stores 4) with
    | none =>
      rw [firstAnswer_error _ (hupgrade.trans (congrArg some (herr hpending))) (by simp)]
      exact iff_of_false Bool.false_ne_true Bool.false_ne_true
    | some plan =>
      obtain ⟨result, hresult⟩ := hok (hpending ▸ rfl)
      rw [firstAnswer_ok _ (hupgrade.trans (congrArg some hresult))]
      exact iff_of_true rfl rfl
  · rw [or_iff_right fun hand => hplan hand.1, and_iff_right hplan,
      firstAnswer_notHandled _ (hupgrade.trans (congrArg some
        (Upgrade.query_other (htext.symm ▸ hsdk) (htext.symm ▸ hplan) _ _ height _)))]

end Answers

omit [Host G] in
/-- Where there is no state, the modules of the default application answer what they answer
anyway. -/
theorem chain_firstAnswer_iff
    {ibcDeliver : Any → AccountId → Handler (Memory R) (Except Error (List Event))}
    {app : BaseCoinApp (Memory R) G} {request : RequestQuery} {height : Height}
    (hibc : (app.world.stores 3).getState height = none)
    (hupgrade : (app.world.stores 4).getState height = none) :
    (firstAnswer app request height (defaultModules (chainModules ibcDeliver))).isSome ↔
      AnswersAnyway app.world request := by
  rw [defaultModules_chain, firstAnswer_notHandled _ rfl, AnswersAnyway]
  cases hnamed : Bank.namedAccount request.data with
  | some account => exact firstAnswer_bank_named hnamed
  | none =>
    rw [firstAnswer_bank_unnamed hnamed, firstAnswer_ibc hibc, firstAnswer_gov,
      firstAnswer_upgrade hupgrade]
    refine and_congr_right fun _ => or_congr_right ?_
    constructor
    · rintro ⟨-, hsdk, ⟨hplan, hpending⟩ | ⟨-, hnil⟩⟩
      · exact ⟨hplan, hsdk, hpending⟩
      · cases hnil
    · rintro ⟨hplan, hsdk, hpending⟩
      refine ⟨?_, hsdk, .inl ⟨hplan, hpending⟩⟩
      rw [hplan]
      decide

omit [Host G] in
/-- Every module's query returns. -/
theorem chain_answer_isSome
    (ibcDeliver : Any → AccountId → Handler (Memory R) (Except Error (List Event)))
    (app : BaseCoinApp (Memory R) G) (request : RequestQuery) (height : Height) :
    ∀ m ∈ (defaultModules (chainModules ibcDeliver) : List (IdentifiedModule (Memory R) G)),
      (m.answer app request height).isSome := by
  rw [defaultModules_chain]
  intro m hm
  simp only [List.mem_cons, List.not_mem_nil, or_false] at hm
  rcases hm with rfl | rfl | rfl | rfl | rfl <;> rfl

/-! ## Queries over runs -/

omit [AuthCodec] [BankHost] [IbcHost] [U256Text] [ProofEncoding] [GovHost MsgRecoverClient]
  [UpgradeHost AnyClientState] [ProposalHandlers R MsgRecoverClient] [BuildProfile] [Host G]
  [GenesisJson G U256] in
/-- After so many commits every store has the same heights without a state. -/
theorem getState_eq_none_iff {app : BaseCoinApp (Memory R) G} {hashes : List Bytes}
    (hlock : Lockstep app hashes) (height : Int64) :
    (app.store.getState (Height.ofRaw height.toUInt64.toNat) = none ↔
      StateMissing hashes.length height) ∧
    ∀ m ∈ app.modules,
      ((app.world.stores m.module.store).getState (Height.ofRaw height.toUInt64.toNat) = none ↔
        StateMissing hashes.length height) := by
  obtain ⟨hmain, hmodules⟩ := hlock.heights
  refine ⟨?_, fun m hm => ?_⟩
  · rw [getState_ofRaw_eq_none_iff hlock.unpruned, hmain, StateMissing]
  · rw [getState_ofRaw_eq_none_iff (hlock.modules_unpruned m hm), hmodules m hm, StateMissing]

/-- A query of the default application panics where a proof is asked for, there is no state at the
height, and a module answers all the same; there it also succeeds without a proof. -/
theorem chain_query_cases
    {ibcDeliver : Any → AccountId → Handler (Memory R) (Except Error (List Event))}
    {app : BaseCoinApp (Memory R) G} {hashes : List Bytes} (hlock : Lockstep app hashes)
    (hmods : app.modules = defaultModules (chainModules ibcDeliver)) (request : RequestQuery) :
    (StateMissing hashes.length request.height ∧ AnswersAnyway app.world request ∧
      (request.prove = true → app.query request = none) ∧
      (request.prove = false →
        ∃ response, app.query request = some response ∧ response.code = 0)) ∨
    (StateMissing hashes.length request.height ∧ ¬ AnswersAnyway app.world request ∧
      ∃ response, app.query request = some response ∧ response.code ≠ 0) ∨
    (¬ StateMissing hashes.length request.height ∧ (app.query request).isSome) := by
  obtain ⟨hmain, hmodules⟩ := getState_eq_none_iff hlock request.height
  have hreturns := chain_answer_isSome ibcDeliver app request
    (Height.ofRaw request.height.toUInt64.toNat)
  have hibcMem : (⟨"ibc", Ibc.module 3 ibcDeliver Ibc.beginBlock⟩ :
      IdentifiedModule (Memory R) G) ∈ app.modules := by
    rw [hmods, defaultModules_chain]
    simp
  have hupgradeMem : (⟨"upgrade", Upgrade.module 4⟩ : IdentifiedModule (Memory R) G) ∈
      app.modules := by
    rw [hmods, defaultModules_chain]
    simp
  unfold BaseCoinApp.query
  rw [hmods]
  by_cases hmissing : StateMissing hashes.length request.height
  · -- the proof of the main store is asked for only once a module has answered
    have hiff : (firstAnswer app request (Height.ofRaw request.height.toUInt64.toNat)
        (defaultModules (chainModules ibcDeliver))).isSome ↔ AnswersAnyway app.world request :=
      chain_firstAnswer_iff ((hmodules _ hibcMem).mpr hmissing)
        ((hmodules _ hupgradeMem).mpr hmissing)
    by_cases hanyway : AnswersAnyway app.world request
    · obtain ⟨hpanic, hanswer⟩ := queryModules_answered (hiff.mpr hanyway)
      refine .inl ⟨hmissing, hanyway, fun hprove => hpanic ⟨hprove, hmain.mpr hmissing⟩,
        fun hprove => hanswer fun hand => ?_⟩
      rw [hprove] at hand
      exact Bool.false_ne_true hand.1
    · have hnone := Option.not_isSome_iff_eq_none.mp (mt hiff.mp hanyway)
      exact .inr (.inl ⟨hmissing, hanyway, queryModules_unanswered hreturns hnone⟩)
  · right
    right
    refine ⟨hmissing, ?_⟩
    cases hfirst : firstAnswer app request (Height.ofRaw request.height.toUInt64.toNat)
        (defaultModules (chainModules ibcDeliver)) with
    | none =>
      obtain ⟨response, hresponse, -⟩ := queryModules_unanswered hreturns hfirst
      exact hresponse ▸ rfl
    | some result =>
      have hfirstSome : (firstAnswer app request (Height.ofRaw request.height.toUInt64.toNat)
          (defaultModules (chainModules ibcDeliver))).isSome := by
        rw [hfirst]
        rfl
      obtain ⟨response, hresponse, -⟩ :=
        (queryModules_answered hfirstSome).2 fun hand => hmissing (hmain.mp hand.2)
      exact hresponse ▸ rfl

/-- **When a query of the default application is answered.** For every run of requests on the
default application and every query: it returns if and only if no proof is asked for, there is a
state at the height, or no module answers without one; and what a height without a state gets is
an error if and only if no module answers without one. -/
theorem query_returns_iff
    {ibcDeliver : Any → AccountId → Handler (Memory R) (Except Error (List Event))} {rest : R}
    {app₀ app : BaseCoinApp (Memory R) G} {requests : List Request} {responses : List Response}
    (h₀ : chainApp ibcDeliver rest = some app₀)
    (hrun : runSteps BaseCoinApp.step app₀ requests = some (responses, app))
    (request : RequestQuery) :
    ((app.query request).isSome ↔
      ¬ (request.prove = true ∧ StateMissing (requests.count .commit) request.height ∧
        AnswersAnyway app.world request)) ∧
    ((∃ response, app.query request = some response ∧
        (StateMissing (requests.count .commit) request.height → response.code ≠ 0)) ↔
      ¬ (StateMissing (requests.count .commit) request.height ∧
        AnswersAnyway app.world request)) := by
  obtain ⟨hmods₀, hbuilt⟩ := built_defaultApp _ h₀
  obtain ⟨hlock, hcount, -, hmods, -⟩ := hbuilt.lockstep.run hrun
  rw [List.nil_append] at hlock
  rw [← hcount]
  rcases chain_query_cases hlock (hmods.trans hmods₀) request with
    ⟨hmissing, hanyway, hpanic, hanswer⟩ | ⟨hmissing, hnot, response, hresponse, hcode⟩ |
      ⟨hpresent, hsome⟩
  · cases hprove : request.prove with
    | true =>
      rw [hpanic hprove]
      refine ⟨iff_of_false Bool.false_ne_true fun hnot => hnot ⟨rfl, hmissing, hanyway⟩,
        iff_of_false ?_ fun hnot => hnot ⟨hmissing, hanyway⟩⟩
      rintro ⟨response, hnone, -⟩
      cases hnone
    | false =>
      obtain ⟨response, hresponse, hcode⟩ := hanswer hprove
      rw [hresponse]
      refine ⟨iff_of_true rfl fun hand => Bool.false_ne_true hand.1,
        iff_of_false ?_ fun hnot => hnot ⟨hmissing, hanyway⟩⟩
      rintro ⟨response', heq, herror⟩
      obtain rfl := Option.some.inj heq
      exact herror hmissing hcode
  · refine ⟨iff_of_true (hresponse ▸ rfl) fun hand => hnot hand.2.2,
      iff_of_true ⟨response, hresponse, fun _ => hcode⟩ fun hand => hnot hand.2⟩
  · obtain ⟨response, hresponse⟩ := Option.isSome_iff_exists.mp hsome
    exact ⟨iff_of_true hsome fun hand => hpresent hand.2.1,
      iff_of_true ⟨response, hresponse, fun hmissing => absurd hmissing hpresent⟩
        fun hand => hpresent hand.1⟩

end Modules

/-! ## Before the first commit -/

section Fresh

open scoped Idle

/-- After genesis. -/
def aliceApp : BaseCoinApp (Memory Unit) Unit := ((Idle.app.initChain []).get rfl).2

def aliceRequest : RequestQuery :=
  { data := stringBytes aliceAddress, path := "", height := 0, prove := true }

theorem run_aliceApp : runSteps BaseCoinApp.step Idle.app [.initChain []] =
    some ([.initChain ⟨Idle.app.store.rootHash⟩], aliceApp) := rfl

/-- The rule at the query of an account after genesis. -/
theorem query_returns_iff_alice :
    ((aliceApp.query aliceRequest).isSome ↔
      ¬ (true = true ∧ StateMissing 0 0 ∧ AnswersAnyway aliceApp.world aliceRequest)) ∧
    ((∃ response, aliceApp.query aliceRequest = some response ∧
        (StateMissing 0 0 → response.code ≠ 0)) ↔
      ¬ (StateMissing 0 0 ∧ AnswersAnyway aliceApp.world aliceRequest)) :=
  query_returns_iff Idle.chainApp_eq run_aliceApp aliceRequest

/-- The query of an account that genesis made panics before the first commit. -/
theorem alice_query_panics : chainApp Idle.ibcDeliver () = some Idle.app ∧
    (∃ responses, runSteps BaseCoinApp.step Idle.app [.initChain []] = some (responses, aliceApp)) ∧
      aliceApp.query aliceRequest = none := by
  refine ⟨Idle.chainApp_eq, ⟨_, run_aliceApp⟩, ?_⟩
  obtain ⟨hmods, hbuilt⟩ := built_defaultApp _ Idle.chainApp_eq
  have hlock : Lockstep aliceApp [] := (hbuilt.lockstep.run run_aliceApp).1
  have hstore : aliceApp.world.stores 0 =
      Auth.setAccount InMemoryStore.default (AuthAccount.new Idle.genesisAccount) := rfl
  have hnamed : Bank.namedAccount aliceRequest.data = some Idle.genesisAccount := by
    show (fromUtf8 (stringBytes aliceAddress)).bind _ = _
    rw [fromUtf8_stringBytes]
    rfl
  have hanyway : AnswersAnyway aliceApp.world aliceRequest := by
    rw [AnswersAnyway, hnamed, hstore]
    dsimp only
    rw [Auth.getAccount_setAccount]
    rfl
  rcases chain_query_cases hlock hmods aliceRequest with
    ⟨-, -, hpanic, -⟩ | ⟨-, hnot, -⟩ | ⟨hpresent, -⟩
  · exact hpanic rfl
  · exact absurd hanyway hnot
  · exact absurd rfl hpresent

end Fresh

end Basecoin
