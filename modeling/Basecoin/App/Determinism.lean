import Basecoin.App.Genesis

/-!
# When genesis is deterministic

A validator runs `init_chain` with the two orders its own `HashMap`s happen to have, and commits.
Two validators agree whatever their orders exactly when the document leaves no choice: it is
refused by every validator, or has at most one account with at most one denomination.

For the other documents there are two orders whose roots differ. With two accounts or more, take
any order and move the account at the root of its auth tree to the end (`auth_orders_differ`);
with one account and two denominations or more, swap the first two (`bank_orders_differ`). Equal
root hashes would make SHA-256 collide, or the leaf encoding of two accounts coincide.
-/

namespace Basecoin

open Avl Coins

section Validators

variable [Sha256] [Bech32] [AuthCodec] [BankHost]

/-! ## A validator -/

def genesisApp : BaseCoinApp Unit GenesisOrders :=
  { store := InMemoryStore.default
    modules := [⟨"auth", Auth.module 0⟩, ⟨"bank", Bank.module 1 0⟩]
    unique := by
      show ["auth", "bank"].Nodup
      decide
    world := { stores := fun _ => InMemoryStore.default, mem := () } }

/-- The application with what `init` left in the two stores. -/
def initialised (auth bank : InMemoryStore) : BaseCoinApp Unit GenesisOrders :=
  { genesisApp with world := (genesisApp.world.modify 0 fun _ => auth).modify 1 fun _ => bank }

/-- The application of a validator after `init_chain`; `none` when `init` panics. -/
def validator (orders : GenesisOrders) : Option (BaseCoinApp Unit GenesisOrders) :=
  ((initModules orders genesisApp.modules).run genesisApp.world).map fun r =>
    { genesisApp with world := r.2 }

theorem initChain_genesisApp [Host GenesisOrders] {bytes : Bytes} {orders : GenesisOrders}
    (h : Host.readGenesis bytes = some orders) :
    (genesisApp.initChain bytes).map Prod.snd = validator orders := by
  rw [BaseCoinApp.initChain, h, Option.bind_some, validator, Option.map_map]
  rfl

/-- The document's entries as auth and the bank read them. -/
abbrev authView (l : GenesisEntries) : List (String × List (Denom × String)) :=
  l.map fun e => (e.1, e.2.map fun b => (b.1, b.2.text))

abbrev bankView (l : GenesisEntries) : List (String × List (Denom × U256)) :=
  l.map fun e => (e.1, e.2.map fun b => (b.1, b.2.value))

omit [Sha256] [Bech32] [AuthCodec] [BankHost] in
theorem map_fst_authView (l : GenesisEntries) : (authView l).map Prod.fst = l.map Prod.fst := by
  simp [Function.comp_def]

omit [BankHost] in
theorem run_auth_init (orders : GenesisOrders) (w : World Unit) :
    ((Auth.module 0 : Module Unit GenesisOrders).init orders).run w =
      (Auth.initAccounts (authView orders.auth) (w.stores 0)).map fun s =>
        ((), w.modify 0 fun _ => s) := by
  show (((some (authView orders.auth)).bind _).map _).map _ = _
  rw [Option.bind_some, Option.map_map]
  rfl

theorem run_bank_init (orders : GenesisOrders) (w : World Unit) :
    ((Bank.module 1 0 : Module Unit GenesisOrders).init orders).run w =
      (Bank.initBalances (bankView orders.bank) (w.stores 1)).map fun s =>
        ((), w.modify 1 fun _ => s) := by
  show (((some (bankView orders.bank)).bind _).map _).map _ = _
  rw [Option.bind_some, Option.map_map]
  rfl

theorem validator_eq (orders : GenesisOrders) :
    validator orders =
      (Auth.initAccounts (authView orders.auth) InMemoryStore.default).bind fun auth =>
        (Bank.initBalances (bankView orders.bank) InMemoryStore.default).map fun bank =>
          initialised auth bank := by
  have hmods : genesisApp.modules = [⟨"auth", Auth.module 0⟩, ⟨"bank", Bank.module 1 0⟩] := rfl
  have hbank : ∀ auth, ((genesisApp.world.modify 0 fun _ => auth).stores 1) =
      InMemoryStore.default := fun auth => World.modify_other _ _ (by decide)
  have hauth : genesisApp.world.stores 0 = InMemoryStore.default := rfl
  rw [validator, hmods, initModules, Handler.run_bind, run_auth_init, hauth]
  cases Auth.initAccounts (authView orders.auth) InMemoryStore.default with
  | none => rfl
  | some auth =>
    rw [Option.map_some, Option.bind_some, Option.bind_some, initModules, Handler.run_bind,
      run_bank_init, hbank]
    cases Bank.initBalances (bankView orders.bank) InMemoryStore.default <;> rfl

/-- The roots a validator's modules report at the first commit are those of the states `init`
left. -/
theorem roots_commit (auth bank : InMemoryStore) :
    ((initialised auth bank).commit.2.world.stores 0).rootHash =
        InMemoryStore.rootBytes auth.pending.rootHash ∧
      ((initialised auth bank).commit.2.world.stores 1).rootHash =
        InMemoryStore.rootBytes bank.pending.rootHash := by
  have hhandles : handles (initialised auth bank).modules = [0, 1] := rfl
  have hown : (handles (initialised auth bank).modules).Nodup := by
    rw [hhandles]
    decide
  have hauth : (initialised auth bank).world.stores 0 = auth := by
    show ((genesisApp.world.modify 0 fun _ => auth).modify 1 fun _ => bank).stores 0 = auth
    rw [World.modify_other _ _ (by decide), World.modify_self]
  have hbank : (initialised auth bank).world.stores 1 = bank := by
    show ((genesisApp.world.modify 0 fun _ => auth).modify 1 fun _ => bank).stores 1 = bank
    rw [World.modify_self]
  constructor
  · rw [BaseCoinApp.commit, stores_commitModules hown (by rw [hhandles]; decide),
      InMemoryStore.rootHash_commit, hauth]
  · rw [BaseCoinApp.commit, stores_commitModules hown (by rw [hhandles]; decide),
      InMemoryStore.rootHash_commit, hbank]

/-! ## Agreement -/

/-- Two validators agree on the roots of auth and bank and on the app hash of the first block. -/
structure Agree (app app' : BaseCoinApp Unit GenesisOrders) : Prop where
  auth : (app.commit.2.world.stores 0).rootHash = (app'.commit.2.world.stores 0).rootHash
  bank : (app.commit.2.world.stores 1).rootHash = (app'.commit.2.world.stores 1).rootHash
  appHash : app.commit.1.data = app'.commit.1.data

namespace Genesis

/-- Whatever orders two validators meet, if both get through `init_chain` they agree. -/
def Deterministic (g : Genesis) : Prop :=
  ∀ (orders orders' : GenesisOrders) (app app' : BaseCoinApp Unit GenesisOrders),
    g.Order orders.auth → g.Order orders.bank → g.Order orders'.auth → g.Order orders'.bank →
    validator orders = some app → validator orders' = some app' → Agree app app'

/-- The document is refused, or leaves no choice of an order. -/
def OneOrder (g : Genesis) : Prop :=
  (∃ e ∈ g.accounts, AccountId.fromStr e.1 = none) ∨
    (g.accounts.length ≤ 1 ∧ ∀ e ∈ g.accounts, e.2.length ≤ 1)

/-- The strings any validator hashes for its two stores. -/
def hashed (g : Genesis) : Set Bytes :=
  {x | ∃ (orders : GenesisOrders) (auth bank : InMemoryStore),
    g.Order orders.auth ∧ g.Order orders.bank ∧
    Auth.initAccounts (authView orders.auth) InMemoryStore.default = some auth ∧
    Bank.initBalances (bankView orders.bank) InMemoryStore.default = some bank ∧
    (x ∈ auth.pending.hashed ∨ x ∈ bank.pending.hashed)}

variable {g : Genesis}

theorem exists_stores (hparse : ∀ e ∈ g.accounts, (AccountId.fromStr e.1).isSome)
    {a b : GenesisEntries} (ha : g.Order a) (hb : g.Order b) :
    ∃ auth bank, Auth.initAccounts (authView a) InMemoryStore.default = some auth ∧
      Bank.initBalances (bankView b) InMemoryStore.default = some bank := by
  have hparse' : ∀ {l}, g.Order l → ∀ f ∈ l, (AccountId.fromStr f.1).isSome := by
    intro l hl f hf
    obtain ⟨e, he, hsame⟩ := hl.mem hf
    exact hsame.1 ▸ hparse e he
  have hauth : (Auth.initAccounts (authView a) InMemoryStore.default).isSome := by
    rw [Auth.isSome_initAccounts, List.forall_mem_map]
    exact hparse' ha
  have hbank := Bank.initBalances_isSome (s := InMemoryStore.default) hb.nodup
    (fun f hf => hb.nodup_denoms hf) (hparse' hb) fun _ _ => rfl
  obtain ⟨auth, hauth⟩ := Option.isSome_iff_exists.mp hauth
  obtain ⟨bank, hbank⟩ := Option.isSome_iff_exists.mp hbank
  exact ⟨auth, bank, hauth, hbank⟩

/-- Two orders for each module, and a root that differs: the document is not deterministic. -/
theorem not_deterministic {a b a' b' : GenesisEntries} (ha : g.Order a) (hb : g.Order b)
    (ha' : g.Order a') (hb' : g.Order b') {auth bank auth' bank' : InMemoryStore}
    (hauth : Auth.initAccounts (authView a) InMemoryStore.default = some auth)
    (hbank : Bank.initBalances (bankView b) InMemoryStore.default = some bank)
    (hauth' : Auth.initAccounts (authView a') InMemoryStore.default = some auth')
    (hbank' : Bank.initBalances (bankView b') InMemoryStore.default = some bank')
    (hne : InMemoryStore.rootBytes auth.pending.rootHash ≠
        InMemoryStore.rootBytes auth'.pending.rootHash ∨
      InMemoryStore.rootBytes bank.pending.rootHash ≠
        InMemoryStore.rootBytes bank'.pending.rootHash) : ¬ g.Deterministic := by
  intro hdet
  have happ : validator ⟨a, b⟩ = some (initialised auth bank) := by
    rw [validator_eq, hauth, Option.bind_some, hbank, Option.map_some]
  have happ' : validator ⟨a', b'⟩ = some (initialised auth' bank') := by
    rw [validator_eq, hauth', Option.bind_some, hbank', Option.map_some]
  have hagree := hdet ⟨a, b⟩ ⟨a', b'⟩ _ _ ha hb ha' hb' happ happ'
  obtain ⟨hroot, hrootBank⟩ := roots_commit auth bank
  obtain ⟨hroot', hrootBank'⟩ := roots_commit auth' bank'
  rcases hne with hne | hne
  · exact hne (hroot.symm.trans (hagree.auth.trans hroot'))
  · exact hne (hrootBank.symm.trans (hagree.bank.trans hrootBank'))

/-! ## Documents that leave a choice -/

/-- The leaves of two new accounts are never the same string. -/
def LeavesDiffer : Prop :=
  ∀ a b : AccountId,
    stringBytes a.toString ++ AuthCodec.codec.encode (AuthAccount.new a) =
      stringBytes b.toString ++ AuthCodec.codec.encode (AuthAccount.new b) → a = b

/-- With two accounts or more the auth root depends on the order. -/
theorem auth_orders_differ (hparse : ∀ e ∈ g.accounts, (AccountId.fromStr e.1).isSome)
    (hsha : Set.InjOn sha256 g.hashed) (hleaf : LeavesDiffer)
    (htwo : 2 ≤ g.accounts.length) : ¬ g.Deterministic := by
  have hne : authView g.accounts ≠ [] := by
    intro h
    have hlen := congrArg List.length h
    rw [List.length_map, List.length_nil] at hlen
    omega
  -- any order has some account at its root
  have ho : g.Order g.accounts := order_of_perm (.refl _)
  obtain ⟨auth, bank, hauth, hbank⟩ := exists_stores hparse ho ho
  obtain ⟨n, l, r, hroot, a, ha, hkey, hvalue⟩ := Auth.root_initAccounts hauth hne
  -- move it to the end
  rw [map_fst_authView] at ha
  obtain ⟨e, he, hea⟩ := List.mem_map.mp ha
  obtain ⟨pre, post, hsplit⟩ := List.append_of_mem he
  have hperm : g.accounts.Perm (pre ++ post ++ [e]) := by
    rw [hsplit]
    exact (List.perm_middle).trans (List.perm_append_singleton e (pre ++ post)).symm
  have ho' : g.Order (pre ++ post ++ [e]) := order_of_perm hperm
  obtain ⟨auth', bank', hauth', hbank'⟩ := exists_stores hparse ho' ho'
  have hview : authView (pre ++ post ++ [e]) =
      authView (pre ++ post) ++ authView [e] := List.map_append
  have hrest : authView (pre ++ post) ≠ [] := by
    intro h
    have hlen := congrArg List.length h
    have hlen' := hperm.length_eq
    simp only [List.length_map, List.length_append, List.length_nil, List.length_singleton]
      at hlen hlen'
    omega
  have hlast : e.1 ∉ (authView (pre ++ post)).map Prod.fst := by
    have hnd := ho'.nodup
    rw [List.map_append, List.nodup_append] at hnd
    rw [map_fst_authView]
    exact fun hmem => hnd.2.2 _ hmem _ (List.mem_singleton_self _) rfl
  obtain ⟨n', l', r', hroot', a', -, hkey', hvalue'⟩ := Auth.root_initAccounts hauth' (by
    rw [hview]
    exact List.append_ne_nil_of_left_ne_nil hrest _)
  have hmoved : n'.key ≠ Path.ofString e.1 := by
    rw [hview] at hauth'
    exact Auth.root_ne_last hauth' hrest hlast hroot'
  refine not_deterministic ho ho ho' ho' hauth hbank hauth' hbank' (.inl fun h => ?_)
  have hS : auth.pending.hashed ⊆ g.hashed := fun x hx =>
    ⟨⟨_, _⟩, auth, bank, ho, ho, hauth, hbank, .inl hx⟩
  have hS' : auth'.pending.hashed ⊆ g.hashed := fun x hx =>
    ⟨⟨_, _⟩, auth', bank', ho', ho', hauth', hbank', .inl hx⟩
  have hsame := State.root_of_rootBytes hsha hS hS' hroot hroot' h
  rw [hkey, hkey', Path.toString_ofString, Path.toString_ofString, hvalue, hvalue'] at hsame
  rw [hkey', ← hleaf a a' hsame, ← hea] at hmoved
  exact hmoved rfl

/-- With one account and two denominations or more the bank root depends on the order. -/
theorem bank_orders_differ {account : String} {a : AccountId}
    (ha : AccountId.fromStr account = some a) {x y : Denom × GenesisAmount}
    {rest : List (Denom × GenesisAmount)} (hg : g.accounts = [(account, x :: y :: rest)])
    (hsha : Set.InjOn sha256 g.hashed) : ¬ g.Deterministic := by
  have hparse : ∀ e ∈ g.accounts, (AccountId.fromStr e.1).isSome := by
    intro e he
    rw [hg, List.mem_singleton] at he
    rw [he, ha]
    rfl
  have hnd : ((x :: y :: rest).map Prod.fst).Nodup :=
    g.nodup_denoms (account, x :: y :: rest) (hg ▸ List.mem_singleton_self _)
  have ho : g.Order [(account, x :: y :: rest)] := hg ▸ order_of_perm (.refl _)
  have ho' : g.Order [(account, y :: x :: rest)] :=
    ⟨[(account, x :: y :: rest)], by rw [hg], .cons ⟨rfl, .swap y x rest⟩ .nil⟩
  have hnd' : ((y :: x :: rest).map Prod.fst).Nodup := ho'.nodup_denoms (List.mem_singleton_self _)
  obtain ⟨auth, -, hauth, -⟩ := exists_stores hparse ho ho
  have hbank := Bank.initBalances_one ha hnd
  have hbank' := Bank.initBalances_one ha hnd'
  refine not_deterministic ho ho ho ho' hauth hbank hauth hbank' (.inr fun h => ?_)
  have hS : (Bank.setBalances InMemoryStore.default a (coinsOf (x :: y :: rest))).pending.hashed
      ⊆ g.hashed := fun z hz => ⟨⟨_, _⟩, auth, _, ho, ho, hauth, hbank, .inr hz⟩
  have hS' : (Bank.setBalances InMemoryStore.default a (coinsOf (y :: x :: rest))).pending.hashed
      ⊆ g.hashed := fun z hz => ⟨⟨_, _⟩, auth, _, ho, ho', hauth, hbank', .inr hz⟩
  have hsame := State.root_of_rootBytes hsha hS hS' rfl rfl h
  -- one key, so the stored lists are the same
  have hvalue := List.append_cancel_left hsame
  have hcoins := Balances.mk.inj (BankHost.codec.encode_injective hvalue)
  have hxy : x.1 = y.1 := congrArg Coin.denom (List.cons.inj hcoins).1
  rw [List.map_cons, List.map_cons, List.nodup_cons] at hnd
  exact hnd.1 (hxy ▸ List.mem_cons_self)

/-- **Genesis is deterministic exactly where there is nothing to order.** For every genesis state,
where SHA-256 does not collide on what validators hash for it and the auth codec tells new
accounts apart: any two validators that get through `init_chain` report the same auth root, bank
root and app hash for the first block if and only if no validator gets through or the state has
at most one account with at most one denomination. -/
theorem deterministic_iff (g : Genesis) (hsha : Set.InjOn sha256 g.hashed)
    (hleaf : LeavesDiffer) : g.Deterministic ↔ g.OneOrder := by
  constructor
  · intro hdet
    by_contra hmany
    rw [OneOrder, not_or] at hmany
    obtain ⟨hnone, hmany⟩ := hmany
    have hparse : ∀ e ∈ g.accounts, (AccountId.fromStr e.1).isSome := by
      intro e he
      rw [← Option.ne_none_iff_isSome]
      exact fun h => hnone ⟨e, he, h⟩
    -- two accounts are told apart in the auth store, two denominations of one in the bank's
    by_cases htwo : 2 ≤ g.accounts.length
    · exact auth_orders_differ hparse hsha hleaf htwo hdet
    · have hone : g.accounts.length ≤ 1 := by omega
      have hdenoms : ¬ ∀ e ∈ g.accounts, e.2.length ≤ 1 := fun h => hmany ⟨hone, h⟩
      simp only [not_forall] at hdenoms
      obtain ⟨e, he, hlen⟩ := hdenoms
      have hsingle : g.accounts = [e] := by
        match hg : g.accounts, hone with
        | [], _ =>
          rw [hg] at he
          exact absurd he List.not_mem_nil
        | [f], _ =>
          rw [hg, List.mem_singleton] at he
          rw [he]
      obtain ⟨a, ha⟩ := Option.isSome_iff_exists.mp (hparse e he)
      match hbalances : e.2, hlen with
      | [], hlen => exact hlen (Nat.zero_le _)
      | [x], hlen => exact hlen le_rfl
      | x :: y :: rest, _ =>
        have hg : g.accounts = [(e.1, x :: y :: rest)] := by rw [hsingle, ← hbalances]
        exact bank_orders_differ ha hg hsha hdet
  · rintro (⟨e, he, hnone⟩ | ⟨hone, hdenoms⟩)
    · -- an address that does not parse: `init_chain` panics in every order
      intro orders orders' app app' ha _ _ _ hrun _
      rw [validator_eq] at hrun
      obtain ⟨auth, hauth, -⟩ := Option.bind_eq_some_iff.mp hrun
      have hsome := Auth.isSome_initAccounts.mp (Option.isSome_of_eq_some hauth)
      have hmem : e.1 ∈ (authView orders.auth).map Prod.fst := by
        rw [map_fst_authView, ha.fst_mem_iff]
        exact List.mem_map_of_mem he
      obtain ⟨f, hf, hfe⟩ := List.mem_map.mp hmem
      have hcontra := hsome f hf
      rw [hfe, hnone] at hcontra
      simp at hcontra
    · intro orders orders' app app' ha hb ha' hb' hrun hrun'
      have horders : orders = orders' := GenesisOrders.ext
        ((ha.eq_accounts hone hdenoms).trans (ha'.eq_accounts hone hdenoms).symm)
        ((hb.eq_accounts hone hdenoms).trans (hb'.eq_accounts hone hdenoms).symm)
      rw [horders, hrun', Option.some.injEq] at hrun
      subst hrun
      exact ⟨rfl, rfl, rfl⟩

end Genesis

end Validators

/-! ## One account, two denominations -/

section OneAccount

/-- Addresses of one length, as texts of bech32 addresses are. -/
local instance oneAccountBech32 : Bech32 := .ofValid fun s => decide ((stringBytes s).length = 45)

local instance oneAccountAuthCodec : AuthCodec := ⟨Codec.ofEncodable _⟩

local instance oneAccountBankHost : BankHost :=
  { codec := Codec.ofEncodable _
    decodeMsgSend := fun _ => none
    parseAmount := fun _ => none }

def alice : AccountId := (AccountId.fromStr aliceAddress).get (by decide)

def someAtoms : Denom × GenesisAmount := (⟨"atom"⟩, ⟨"0x1", ⟨1, by omega⟩⟩)

def someOsmo : Denom × GenesisAmount := (⟨"osmo"⟩, ⟨"0x2", ⟨2, by omega⟩⟩)

def aliceGenesis : Genesis where
  accounts := [(aliceAddress, [someAtoms, someOsmo])]
  nodup := List.nodup_singleton _
  nodup_denoms := by
    intro e he
    rw [List.mem_singleton.mp he]
    decide

/-- The string hashed for the leaf of alice with a value. -/
def aliceLeaf (value : Bytes) : Bytes :=
  leafPrefix ++ asBytes (Path.ofString alice.toString) ++ value

/-- The leaves validators can come to hash: her account, and her balances in both orders. -/
def aliceLeaves : List Bytes :=
  [aliceLeaf (AuthCodec.codec.encode (AuthAccount.new alice)),
    aliceLeaf (BankHost.codec.encode ⟨coinsOf [someAtoms, someOsmo]⟩),
    aliceLeaf (BankHost.codec.encode ⟨coinsOf [someOsmo, someAtoms]⟩)]

def constHash (i : Nat) : Hash := ⟨List.replicate 32 (UInt8.ofNat i), List.length_replicate⟩

/-- The leaves, and the nodes over leaves with one of the first three hashes. -/
def aliceStrings : List Bytes :=
  aliceLeaves ++ (List.range 3).map fun i => emptyChild ++ (constHash i).bytes ++ emptyChild

/-- A digest that does not collide on those strings: a string's place among them. -/
local instance oneAccountSha256 : Sha256 := ⟨fun x => constHash (aliceStrings.idxOf x)⟩

theorem constHash_injOn : Set.InjOn constHash {i | i < 256} := by
  intro i hi j hj h
  have hbyte : UInt8.ofNat i = UInt8.ofNat j := by
    have hhead := congrArg List.head? (congrArg Hash.bytes h)
    simpa [constHash, List.replicate_succ] using hhead
  have hnat := congrArg UInt8.toNat hbyte
  rw [UInt8.toNat_ofNat', UInt8.toNat_ofNat', Nat.mod_eq_of_lt hi, Nat.mod_eq_of_lt hj] at hnat
  exact hnat

theorem sha256_injOn_aliceStrings : Set.InjOn sha256 {x | x ∈ aliceStrings} := by
  intro x hx y hy h
  have hlen : aliceStrings.length = 6 := rfl
  have hxlt : aliceStrings.idxOf x < aliceStrings.length := List.idxOf_lt_length_iff.mpr hx
  have hylt : aliceStrings.idxOf y < aliceStrings.length := List.idxOf_lt_length_iff.mpr hy
  have hidx := constHash_injOn (show aliceStrings.idxOf x < 256 by omega)
    (show aliceStrings.idxOf y < 256 by omega) h
  exact (List.idxOf_inj hx).mp hidx

/-- A state with one of the leaves alone hashes nothing else. -/
theorem hashed_insert_alice {value : Bytes} (h : aliceLeaf value ∈ aliceLeaves) :
    ((State.new).insert (Path.ofString alice.toString) value).2.hashed ⊆
      {x | x ∈ aliceStrings} := by
  rintro x ((rfl | rfl) | (hx | hx))
  · exact List.mem_append_left _ h
  · have hlt : aliceLeaves.idxOf (aliceLeaf value) < 3 := List.idxOf_lt_length_iff.mpr h
    refine List.mem_append_right _ (List.mem_map.mpr
      ⟨aliceLeaves.idxOf (aliceLeaf value), List.mem_range.mpr hlt, ?_⟩)
    rw [← List.idxOf_append_of_mem h]
    rfl
  · exact absurd hx (Set.notMem_empty x)
  · exact absurd hx (Set.notMem_empty x)

theorem order_aliceGenesis {l : GenesisEntries} (h : aliceGenesis.Order l) :
    l = [(aliceAddress, [someAtoms, someOsmo])] ∨
      l = [(aliceAddress, [someOsmo, someAtoms])] := by
  obtain ⟨m, hperm, hall⟩ := h
  obtain rfl : m = [(aliceAddress, [someAtoms, someOsmo])] := (List.singleton_perm.mp hperm).symm
  obtain ⟨f, l', hsame, hnil, rfl⟩ := List.forall₂_cons_left_iff.mp hall
  obtain rfl := List.forall₂_nil_left_iff.mp hnil
  obtain ⟨account, balances⟩ := f
  obtain ⟨rfl, hp⟩ := hsame
  match balances, hp.length_eq with
  | [u, v], _ =>
    have hu : u ∈ [someAtoms, someOsmo] := hp.mem_iff.mpr List.mem_cons_self
    simp only [List.mem_cons, List.not_mem_nil, or_false] at hu
    rcases hu with rfl | rfl
    · left
      rw [List.singleton_perm.mp ((List.perm_cons _).mp hp)]
    · right
      have hswap := (List.Perm.swap someAtoms someOsmo []).trans hp
      rw [List.singleton_perm.mp ((List.perm_cons _).mp hswap)]

theorem hashed_aliceGenesis : aliceGenesis.hashed ⊆ {x | x ∈ aliceStrings} := by
  rintro x ⟨orders, auth, bank, hauth, hbank, hinitAuth, hinitBank, hx⟩
  have hfrom : AccountId.fromStr aliceAddress = some alice := AccountId.fromStr_toString alice
  rcases hx with hx | hx
  · have hstate : auth = Auth.setAccount InMemoryStore.default (AuthAccount.new alice) := by
      rcases order_aliceGenesis hauth with hl | hl <;>
        · rw [hl] at hinitAuth
          simp only [List.map_cons, List.map_nil, Auth.initAccounts, hfrom, Option.bind_some,
            Option.some.injEq] at hinitAuth
          exact hinitAuth.symm
    rw [hstate] at hx
    exact hashed_insert_alice List.mem_cons_self hx
  · rcases order_aliceGenesis hbank with hl | hl
    · rw [hl, bankView, List.map_cons, List.map_nil, Bank.initBalances_one hfrom (by decide),
        Option.some.injEq] at hinitBank
      subst hinitBank
      exact hashed_insert_alice (List.mem_cons_of_mem _ List.mem_cons_self) hx
    · rw [hl, bankView, List.map_cons, List.map_nil, Bank.initBalances_one hfrom (by decide),
        Option.some.injEq] at hinitBank
      subst hinitBank
      exact hashed_insert_alice
        (List.mem_cons_of_mem _ (List.mem_cons_of_mem _ List.mem_cons_self)) hx

theorem sha256_injOn_aliceGenesis : Set.InjOn sha256 aliceGenesis.hashed :=
  sha256_injOn_aliceStrings.mono hashed_aliceGenesis

theorem leavesDiffer_of_length : Genesis.LeavesDiffer := by
  intro a b h
  have ha : (stringBytes a.toString).length = 45 := of_decide_eq_true a.property
  have hb : (stringBytes b.toString).length = 45 := of_decide_eq_true b.property
  exact AccountId.toString_injective
    (stringBytes_injective (List.append_inj h (ha.trans hb.symm)).1)

/-- Where SHA-256 does not collide, the document with one account and two denominations is
covered: it is deterministic if and only if it leaves no choice. -/
theorem deterministic_iff_alice : aliceGenesis.Deterministic ↔ aliceGenesis.OneOrder :=
  aliceGenesis.deterministic_iff sha256_injOn_aliceGenesis leavesDiffer_of_length

/-- And it is not: two validators that iterate her two balances in different orders report
different bank roots. -/
theorem alice_not_deterministic : ¬ aliceGenesis.Deterministic :=
  Genesis.bank_orders_differ (AccountId.fromStr_toString alice) rfl sha256_injOn_aliceGenesis

end OneAccount

end Basecoin
