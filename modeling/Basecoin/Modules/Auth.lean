import Basecoin.Modules.Coin
import Basecoin.Modules.Context

/-!
# `modules/src/auth`

The auth module keeps one account per address in its own store. It never handles a message: for
each one it bumps the signer's sequence and passes the message on.

A genesis document is read into the map of its accounts by `serde_json`, and a `HashMap` is then
iterated in an order that differs from process to process. `GenesisJson` is that reading: for
one process, the entries in the order the loop sees them; `none` is a document of the wrong
shape.

`deliver` answers an error always (`exists_deliver_error`): `notHandled`, and the next module is
asked, or for an unknown signer one that ends the transaction. What the counting comes to over a run
is in `App/AccountHistory.lean`.
-/

namespace Basecoin

/-- `serde_json::from_value` into the two maps the modules ask for, in iteration order. -/
class GenesisJson (G : Type) (U : outParam Type) where
  authAccounts : G → Option (List (String × List (Denom × String)))
  bankAccounts : G → Option (List (String × List (Denom × U)))

def accountPrefix : String := "cosmos"

section Account

variable [Bech32]

structure AuthAccount where
  address : AccountId
  number : UInt64
  sequence : UInt64
deriving DecidableEq

def AuthAccount.new (address : AccountId) : AuthAccount :=
  { address, number := 0, sequence := 0 }

instance : Encodable AccountId :=
  Encodable.ofLeftInjection AccountId.toString AccountId.fromStr AccountId.fromStr_toString

instance : Encodable AuthAccount :=
  Encodable.ofLeftInverse (fun a : AuthAccount => (a.address, a.number, a.sequence))
    (fun r => ⟨r.1, r.2.1, r.2.2⟩) (fun _ => rfl)

/-- `AccountsPath`, which derives the `Display` of what it wraps. -/
structure AccountsPath where
  account : AccountId

/-- `ProtobufCodec<AuthAccount, BaseAccount>`. -/
class AuthCodec where
  codec : Codec AuthAccount

end Account

namespace Auth

variable [Sha256] [Bech32] [AuthCodec]

/-- The typed store of `AuthAccountReader` and `AuthAccountKeeper`. -/
def accountStore : TypedStore AccountsPath AuthAccount :=
  { display := fun path => path.account.toString, codec := AuthCodec.codec }

def getAccount (s : InMemoryStore) (address : AccountId) : Option AuthAccount :=
  accountStore.get s .pending ⟨address⟩

def setAccount (s : InMemoryStore) (account : AuthAccount) : InMemoryStore :=
  (accountStore.set s ⟨account.address⟩ account).2

/-- The loop of `init`; `none` when an account string does not parse. -/
def initAccounts : List (String × List (Denom × String)) → InMemoryStore → Option InMemoryStore
  | [], s => some s
  | (account, _) :: accounts, s =>
    (AccountId.fromStr account).bind fun accountId =>
      initAccounts accounts (setAccount s (AuthAccount.new accountId))

/-- As a release build counts: past the last `u64` the sequence starts over. -/
def deliver (signer : AccountId) (s : InMemoryStore) :
    Except Error (List Event) × InMemoryStore :=
  match getAccount s signer with
  | none => (.error (.custom "unknown signer"), s)
  | some account =>
    -- only intercepted, so it is unhandled
    (.error .notHandled, setAccount s { account with sequence := account.sequence + 1 })

theorem setAccount_sameBase (s : InMemoryStore) (account : AuthAccount) :
    s.SameBase (setAccount s account) := accountStore.set_sameBase s _ _

theorem initAccounts_sameBase : ∀ {accounts : List (String × List (Denom × String))}
    {s s' : InMemoryStore}, initAccounts accounts s = some s' → s.SameBase s'
  | [], _, _, h => Option.some.inj h ▸ .refl _
  | (_, _) :: _, s, _, h => by
    obtain ⟨a, _, hrest⟩ := Option.bind_eq_some_iff.mp h
    exact (setAccount_sameBase s (AuthAccount.new a)).trans (initAccounts_sameBase hrest)

theorem deliver_sameBase (signer : AccountId) (s : InMemoryStore) :
    s.SameBase (deliver signer s).2 := by
  unfold deliver
  split
  · exact .refl s
  · exact setAccount_sameBase s _

/-- The module handles nothing. -/
theorem exists_deliver_error (signer : AccountId) (s : InMemoryStore) :
    ∃ e, (deliver signer s).1 = .error e := by
  unfold deliver
  cases getAccount s signer with
  | none => exact ⟨_, rfl⟩
  | some account => exact ⟨_, rfl⟩

theorem getAccount_setAccount (s : InMemoryStore) (account : AuthAccount) (address : AccountId) :
    getAccount (setAccount s account) address =
      if address = account.address then some account else getAccount s address := by
  rw [getAccount, setAccount, TypedStore.get_set]
  simp only [accountStore, AccountId.toString_injective.eq_iff]
  rfl

/-- `Auth`, as a module over the store behind `store`. -/
def module {M G U : Type} [GenesisJson G U] (store : StoreRef) : Module M G where
  store := store
  init appState :=
    Handler.onStore store
      (fun s => ((GenesisJson.authAccounts appState).bind fun accounts =>
        initAccounts accounts s).map fun s' => ((), s'))
      (by
        intro s _ s' h
        obtain ⟨t, ht, heq⟩ := Option.map_eq_some_iff.mp h
        obtain ⟨accounts, _, hinit⟩ := Option.bind_eq_some_iff.mp ht
        exact (Prod.mk.inj heq).2 ▸ initAccounts_sameBase hinit)
  deliver _ signer :=
    Handler.onStore store (fun s => some (deliver signer s))
      (by
        intro s _ s' h
        exact (Prod.mk.inj (Option.some.inj h)).2 ▸ deliver_sameBase signer s)

end Auth

end Basecoin
