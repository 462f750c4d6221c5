import Basecoin.App.Commit
import Basecoin.Modules.Bank
import Basecoin.Modules.Ibc

/-!
# `basecoin/src/runner.rs`

The application `default_app_runner` starts: every module gets its store before any is
registered, so each store is a new one, and the identifiers are distinct, so no `add_module`
panics. Of the modules only what is modelled elsewhere is fixed here; the rest of what they do
is a parameter.

Six stores are handed out and five modules registered: the staking module asks for a store and is
never added, so its store is one that no request reaches. The address of a store is the order in
which it was asked for (`defaultModules`), which is not the order in which the modules are asked.
`IbcContext::new` has already written its counters to the ibc store when the application is built;
they are pending and not staged, so a first transaction that fails takes them back.
-/

namespace Basecoin

variable [Sha256] [Bech32] [AuthCodec] [BankHost] [IbcHost] [ProofEncoding]

/-- What the default modules do beyond their models. -/
structure Unmodelled (M G : Type) where
  ibcDeliver : Any → AccountId → Handler M (Except Error (List Event))
  ibcBeginBlock : Header → Handler M (List Event)
  governance : StoreRef → Module M G
  upgrade : StoreRef → Module M G
  governance_store : ∀ ref, (governance ref).store = ref
  upgrade_store : ∀ ref, (upgrade ref).store = ref

variable {M G : Type} [GenesisJson G U256] (rest : Unmodelled M G)

/-- `default_app_runner` up to `build`. -/
def defaultBuilder : Option (Builder M G) := do
  let builder : Builder M G := Builder.new InMemoryStore.default
  let (authStore, builder) := builder.moduleStore "auth"
  let (bankStore, builder) := builder.moduleStore "bank"
  let (_, builder) := builder.moduleStore "staking"
  let (ibcStore, builder) := builder.moduleStore "ibc"
  let builder :=
    { builder with
      stores := Function.update builder.stores ibcStore
        (Ibc.newContext (builder.stores ibcStore)) }
  let (upgradeStore, builder) := builder.moduleStore "upgrade"
  let (governanceStore, builder) := builder.moduleStore "gov"
  let builder ← builder.addModule "auth" (Auth.module authStore)
  let builder ← builder.addModule "bank" (Bank.module bankStore authStore)
  let builder ← builder.addModule "ibc" (Ibc.module ibcStore rest.ibcDeliver rest.ibcBeginBlock)
  let builder ← builder.addModule "gov" (rest.governance governanceStore)
  builder.addModule "upgrade" (rest.upgrade upgradeStore)

def defaultApp (mem : M) : Option (BaseCoinApp M G) :=
  (defaultBuilder rest).map fun builder => builder.build mem

def defaultModules : List (IdentifiedModule M G) :=
  [⟨"auth", Auth.module 0⟩, ⟨"bank", Bank.module 1 0⟩,
    ⟨"ibc", Ibc.module 3 rest.ibcDeliver rest.ibcBeginBlock⟩, ⟨"gov", rest.governance 5⟩,
    ⟨"upgrade", rest.upgrade 4⟩]

theorem defaultModules_unique : ((defaultModules rest).map IdentifiedModule.id).Nodup := by
  show ["auth", "bank", "ibc", "gov", "upgrade"].Nodup
  decide

theorem defaultApp_eq (mem : M) :
    defaultApp rest mem =
      some
        { store := InMemoryStore.default
          modules := defaultModules rest
          unique := defaultModules_unique rest
          world :=
            { stores := Function.update (fun _ => InMemoryStore.default) 3
                (Ibc.newContext InMemoryStore.default)
              mem } } := rfl

/-- The default application is built: six stores were handed out, and one of them edited. -/
theorem built_defaultApp {mem : M} {app : BaseCoinApp M G} (h : defaultApp rest mem = some app) :
    app.modules = defaultModules rest ∧ app.Built := by
  rw [defaultApp_eq, Option.some.injEq] at h
  subst h
  refine ⟨rfl, ?_, .refl _, fun m hm => ?_⟩
  · show [0, 1, 3, (rest.governance 5).store, (rest.upgrade 4).store].Nodup
    rw [rest.governance_store, rest.upgrade_store]
    decide
  · by_cases hstore : m.module.store = 3
    · simp only [hstore, Function.update_self]
      exact Ibc.newContext_sameBase _
    · simp only [Function.update_of_ne hstore]
      exact .refl _

end Basecoin
