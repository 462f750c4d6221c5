import Basecoin.App.Steps
import Basecoin.Modules.Auth
import Basecoin.Lib.Run

/-!
# What a failing transaction undoes

`deliver_tx` rolls back by copying every module's staged state over its pending one. Staged is
what the last successful transaction or the last commit left, and nothing else moves it: a
handler only edits the pending copies. So a failing transaction undoes itself *and* every edit
that was never applied, and the latter are not its own: genesis (`init_chain` applies nothing),
what `begin_block` wrote, and what a module wrote while it was built.

`failed_tx_preserves_iff` is the exact condition, `Settled`: for every module, pending reads as
staged. `settled_run` says where it holds: once a commit or a successful transaction has applied
genesis, for as long as no `begin_block` writes.
-/

namespace Basecoin

open Lib

section Rollback

variable [Sha256] [Bech32] {M G : Type}

/-! ## Settled states -/

variable [Host G]

omit [Host G] in
/-- For every module, what is pending is what is staged, at every path. -/
def BaseCoinApp.Settled (app : BaseCoinApp M G) : Prop :=
  ∀ m ∈ app.modules, ∀ path, (app.world.stores m.module.store).staged.get path =
    (app.world.stores m.module.store).get .pending path

omit [Host G] in
/-- For every module and every path, the value read at `Height::Pending` is the same. -/
def PendingUnchanged (app app' : BaseCoinApp M G) : Prop :=
  ∀ m ∈ app.modules, ∀ path, (app'.world.stores m.module.store).get .pending path =
    (app.world.stores m.module.store).get .pending path

/-- A failing transaction leaves pending what was staged before it, so it changes nothing
exactly when the two already agreed. -/
theorem pendingUnchanged_iff {app app' : BaseCoinApp M G} {tx : Bytes}
    {response : ResponseDeliverTx} (h : app.deliverTx tx = some (response, app'))
    (hcode : response.code ≠ 0) : PendingUnchanged app app' ↔ TurnedAway tx ∨ app.Settled := by
  rcases deliverTx_cases h with ⟨haway, rfl⟩ | ⟨w, hnot, hframe, ⟨hok, -⟩ | ⟨-, rfl⟩⟩
  · exact ⟨fun _ => Or.inl haway, fun _ _ _ _ => rfl⟩
  · exact absurd hok hcode
  · have hread : ∀ m ∈ app.modules, ∀ path,
        ((resetModules app.modules w).stores m.module.store).get .pending path =
          (app.world.stores m.module.store).staged.get path := by
      intro m hm path
      rw [stores_resetModules _ _ (mem_handles hm), InMemoryStore.get, InMemoryStore.getState,
        InMemoryStore.reset, (hframe _).staged]
      rfl
    constructor
    · intro hsame
      exact Or.inr fun m hm path => (hread m hm path).symm.trans (hsame m hm path)
    · rintro (haway | hsettled) m hm path
      · exact absurd haway hnot
      · exact (hread m hm path).trans (hsettled m hm path)

/-! ## Over runs -/

/-- Every transaction, failing or not, leaves a settled state settled, and a successful one
settles any state. -/
theorem settled_deliverTx {app app' : BaseCoinApp M G} {tx : Bytes}
    {response : ResponseDeliverTx} (h : app.deliverTx tx = some (response, app')) :
    app.Settled ∨ ¬ TurnedAway tx → app'.Settled := by
  rcases deliverTx_cases h with ⟨haway, rfl⟩ | ⟨w, -, -, ⟨-, rfl⟩ | ⟨-, rfl⟩⟩
  · rintro (hs | hnot)
    · exact hs
    · exact absurd haway hnot
  · intro _ m hm path
    rw [stores_applyModules _ _ (mem_handles hm)]
    rfl
  · intro _ m hm path
    rw [stores_resetModules _ _ (mem_handles hm)]
    rfl

omit [Host G] in
theorem settled_commit (app : BaseCoinApp M G) : app.commit.2.Settled := by
  intro m hm path
  replace hm : m ∈ app.modules := hm
  show ((commitModules app.modules app.store app.world).2.stores m.module.store).staged.get path =
    ((commitModules app.modules app.store app.world).2.stores m.module.store).pending.get path
  rw [pending_commitModules (mem_handles hm)]

omit [Host G] in
/-- No module's `begin_block` changes what is pending. -/
def QuietBegin (ms : List (IdentifiedModule M G)) : Prop :=
  ∀ header w events w', (beginModules header ms []).run w = some (events, w') →
    ∀ m ∈ ms, ∀ path, (w'.stores m.module.store).get .pending path =
      (w.stores m.module.store).get .pending path

omit [Host G] in
theorem settled_of_unchanged (app app' : BaseCoinApp M G) (hm : app'.modules = app.modules)
    (hframe : ∀ ref, (app.world.stores ref).SameBase (app'.world.stores ref))
    (hsame : PendingUnchanged app app') (hs : app.Settled) : app'.Settled := by
  intro m hmem path
  rw [hm] at hmem
  rw [(hframe _).staged, hs m hmem path, hsame m hmem path]

/-- Without another genesis, and with modules whose `begin_block` does not write, a run from a
settled state stays in settled states. -/
theorem settled_run {requests : List Request} : ∀ {app₀ app : BaseCoinApp M G}
    {responses : List Response}, QuietBegin app₀.modules →
    (∀ bytes, Request.initChain bytes ∉ requests) → app₀.Settled →
    runSteps BaseCoinApp.step app₀ requests = some (responses, app) → app.Settled := by
  induction requests with
  | nil =>
    intro app₀ app responses _ _ hs hrun
    simp only [runSteps_nil, Option.some.injEq, Prod.mk.injEq] at hrun
    exact hrun.2 ▸ hs
  | cons request requests ih =>
    intro app₀ app responses hquiet hinit hs hrun
    obtain ⟨response, app₁, _, hstep, hrest, _⟩ := runSteps_cons.mp hrun
    have hmodules := modules_step hstep
    refine ih (hmodules ▸ hquiet) (fun b hb => hinit b (List.mem_cons_of_mem _ hb)) ?_ hrest
    cases answers_of_step hstep with
    | initChain => exact absurd List.mem_cons_self (hinit _)
    | beginBlock hbegin =>
      obtain ⟨header, events, w, -, hrun, rfl⟩ := beginBlock_run hbegin
      exact settled_of_unchanged app₀ _ rfl
        (fun ref => (beginModules header _ []).frame hrun ref) (hquiet header _ _ _ hrun) hs
    | deliverTx hdeliver => exact settled_deliverTx hdeliver (Or.inl hs)
    | commit => exact settled_commit app₀

/-- `tx` is delivered somewhere in the run of `requests` from `app₀`, and fails. -/
def FailsIn (app₀ : BaseCoinApp M G) (requests : List Request) (app : BaseCoinApp M G)
    (tx : Bytes) (app' : BaseCoinApp M G) : Prop :=
  ∃ before after responses response,
    requests = before ++ .deliverTx tx :: after ∧
      runSteps BaseCoinApp.step app₀ before = some (responses, app) ∧
      app.deliverTx tx = some (response, app') ∧ response.code ≠ 0

/-- **When a run's failing transactions change nothing.** For every application and every run of
requests: all failing transactions leave every module's pending reads as they were if and only
if each of them was turned away before dispatch or met a settled state. -/
theorem failed_tx_preserves_iff (app₀ : BaseCoinApp M G) (requests : List Request) :
    (∀ app tx app', FailsIn app₀ requests app tx app' → PendingUnchanged app app') ↔
      ∀ app tx app', FailsIn app₀ requests app tx app' → TurnedAway tx ∨ app.Settled := by
  constructor
  · intro h app tx app' hfails
    obtain ⟨_, _, _, _, _, _, hdeliver, hcode⟩ := id hfails
    exact (pendingUnchanged_iff hdeliver hcode).mp (h app tx app' hfails)
  · intro h app tx app' hfails
    obtain ⟨_, _, _, _, _, _, hdeliver, hcode⟩ := id hfails
    exact (pendingUnchanged_iff hdeliver hcode).mpr (h app tx app' hfails)

end Rollback

/-! ## Genesis is undone -/

section Genesis

local instance authAppBech32 : Bech32 := Bech32.any

local instance authAppSha256 : Sha256 := Sha256.ones

local instance authAppAuthCodec : AuthCodec := ⟨Codec.ofEncodable _⟩

/-- A genesis document is the map it denotes. -/
abbrev GenesisMap := List (String × List (Denom × String))

local instance authAppGenesisJson : GenesisJson GenesisMap String :=
  { authAccounts := some, bankAccounts := some }

/-- One of whom genesis knows nothing. -/
def stranger : AccountId := (AccountId.fromStr bobAddress).get rfl

/-- Genesis has one account; every transaction carries one message and is signed by another. -/
local instance authAppHost : Host GenesisMap :=
  { decodeTx := fun _ => .ok { signerInfos := [⟨some (.single [])⟩], messages := [⟨"/any", []⟩] }
    accountId := fun _ _ => some stranger
    readGenesis := fun _ => some [(aliceAddress, [])]
    debugError := Error.toString }

def authApp : BaseCoinApp Unit GenesisMap :=
  { store := InMemoryStore.default
    modules := [⟨"auth", Auth.module 0⟩]
    unique := List.nodup_singleton _
    world := { stores := fun _ => InMemoryStore.default, mem := () } }

/-- Right after genesis a transaction of an unknown signer fails, and takes the only account of
the genesis state with it. -/
theorem failed_tx_undoes_genesis :
    ∃ app tx app', FailsIn authApp [.initChain [], .deliverTx []] app tx app' ∧
      ¬ PendingUnchanged app app' := by
  let alice : AuthAccount := AuthAccount.new ((AccountId.fromStr aliceAddress).get rfl)
  let genesis : InMemoryStore := Auth.setAccount InMemoryStore.default alice
  let app : BaseCoinApp Unit GenesisMap :=
    { authApp with world := authApp.world.modify 0 fun _ => genesis }
  have hstranger : Auth.getAccount genesis stranger = none := by
    rw [Auth.getAccount_setAccount, if_neg (by decide)]
    rfl
  have hinit : runSteps BaseCoinApp.step authApp [.initChain []] =
      some ([.initChain ⟨authApp.store.rootHash⟩], app) := rfl
  have hauth : Auth.deliver stranger genesis =
      (.error (.custom "unknown signer"), genesis) := by
    rw [Auth.deliver, hstranger]
  have hmodule : ((Auth.module 0 : Module Unit GenesisMap).deliver
      ⟨"/any", []⟩ stranger).run app.world =
        some (.error (.custom "unknown signer"), app.world.modify 0 fun _ => genesis) := by
    show some ((Auth.deliver stranger genesis).1,
      app.world.modify 0 fun _ => (Auth.deliver stranger genesis).2) = _
    rw [hauth]
  have hrun : (deliverMsgs app.modules stranger [⟨"/any", []⟩] []).run app.world =
      some (.error (.custom "unknown signer"), app.world.modify 0 fun _ => genesis) := by
    have hmodules : app.modules = [⟨"auth", Auth.module 0⟩] := rfl
    rw [hmodules, deliverMsgs, Handler.run_bind, deliverMsg, Handler.run_bind, hmodule]
    rfl
  have hdeliver : app.deliverTx [] =
      some (.fromError 2 "deliver failed with error: custom error: `unknown signer`",
        { app with
          world := resetModules app.modules (app.world.modify 0 fun _ => genesis)
          store := app.store.reset }) := by
    show Option.map _ ((deliverMsgs app.modules stranger _ []).run app.world) = _
    rw [hrun]
    rfl
  refine ⟨app, [], _, ⟨[.initChain []], [], _, _, rfl, hinit, hdeliver, by decide⟩, ?_⟩
  intro hsame
  have hread := hsame ⟨"auth", Auth.module 0⟩ List.mem_cons_self
    (Auth.accountStore.path ⟨alice.address⟩)
  have hbefore : (app.world.stores 0).get .pending (Auth.accountStore.path ⟨alice.address⟩) =
      some (AuthCodec.codec.encode alice) := by
    show State.get _ _ = _
    rw [World.modify_self]
    show State.get (State.insert _ _ _).2 _ = _
    rw [State.get_insert, if_pos rfl]
    rfl
  have hwiped : (none : Option Bytes) = some (AuthCodec.codec.encode alice) :=
    hread.trans hbefore
  cases hwiped

end Genesis

end Basecoin
