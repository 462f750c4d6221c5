import Basecoin.Modules.Auth

/-!
# `modules/src/bank/impls.rs`

The bank keeps one list of coins per account. A keeper call loads the lists it needs, edits the
copies coin by coin and writes them back if no coin failed; `send_coins` loads and writes two
lists, one after the other, whether or not they are the same account's. The arithmetic panics on
overflow, so the keeper's methods are partial here; `Keeper.lean` shows that they never panic.

Transactions, JSON and the parsing of amounts are other crates' work and come in through
`BankHost`.
-/

namespace Basecoin

/-! ## Messages -/

/-- `cosmrs::Coin`; the amount is a `u128`. -/
structure MsgCoin where
  denom : String
  amount : Nat
  lt : amount < 2 ^ 128
deriving DecidableEq

section Types

variable [Bech32]

structure MsgSend where
  fromAddress : AccountId
  toAddress : AccountId
  amount : List MsgCoin
deriving DecidableEq

/-- `BalancesPath`, which derives the `Display` of what it wraps. -/
structure BalancesPath where
  account : AccountId

/-- What the other crates do for the bank. -/
class BankHost where
  /-- `JsonCodec<Balances>`; a bare `Vec<Coin>` encodes the same. -/
  codec : Codec Balances
  /-- `Message::decode`, then `MsgSend::try_from` with the text of its error. -/
  decodeMsgSend : Bytes → Option (Except String MsgSend)
  /-- `U256::from_str`. -/
  parseAmount : String → Option U256

end Types

variable [Sha256] [Bech32] [BankHost]

omit [Sha256] in
/-- `From<&MsgCoin> for Coin`; `none` is the `unwrap` on the parsed amount. -/
def Coin.ofMsgCoin (coin : MsgCoin) : Option Coin :=
  (BankHost.parseAmount (toString coin.amount)).map fun amount => { denom := ⟨coin.denom⟩, amount }

namespace Bank

/-! ## The keeper -/

/-- The typed store of `BankBalanceReader` and `BankBalanceKeeper`. -/
def balanceStore : TypedStore BalancesPath Balances :=
  { display := fun path => path.account.toString, codec := BankHost.codec }

def getAllBalancesAtHeight (s : InMemoryStore) (height : Height) (address : AccountId) :
    List Coin :=
  ((balanceStore.get s height ⟨address⟩).map Balances.coins).getD []

/-- `get_all_balances`, and the loads of the keeper. -/
def getAllBalances (s : InMemoryStore) (address : AccountId) : List Coin :=
  getAllBalancesAtHeight s .pending address

def setBalances (s : InMemoryStore) (address : AccountId) (balances : List Coin) :
    InMemoryStore :=
  (balanceStore.set s ⟨address⟩ ⟨balances⟩).2

/-- The source's half of a coin, also the loop body of `burn_coins`: find the balance, make sure
it covers the amount, subtract. -/
def takeCoin (coin : Coin) (balances : List Coin) : Option (Except BankError (List Coin)) :=
  match (Coins.find balances coin.denom).filter fun balance => coin.amount ≤ balance with
  | none => some (.error .insufficientSourceFunds)
  | some balance =>
    (balance.sub coin.amount).map fun rest => .ok (Coins.write balances coin.denom rest)

/-- The destination's half of a coin, also the loop body of `mint_coins`: find the balance or
push an empty one, make sure there is room for the amount, add. -/
def putCoin (coin : Coin) (balances : List Coin) : Option (Except BankError (List Coin)) :=
  let (balance, balances) := Coins.findOrPush balances coin.denom
  (U256.max.sub coin.amount).bind fun room =>
    if balance ≤ room then
      (balance.add coin.amount).map fun sum => .ok (Coins.write balances coin.denom sum)
    else some (.error .destFundOverflow)

/-- The loop body of `send_coins`. The source subtracts only after the destination's check; on
the two local copies that order does not show. -/
def sendCoin (coin : Coin) (lists : List Coin × List Coin) :
    Option (Except BankError (List Coin × List Coin)) :=
  (takeCoin coin lists.1).bind fun
    | .error e => some (.error e)
    | .ok src => (putCoin coin lists.2).map fun
      | .error e => .error e
      | .ok dst => .ok (src, dst)

/-- `for Coin { denom, amount } in amount { .. }`, left at the first error. -/
def forCoins {L : Type} (body : Coin → L → Option (Except BankError L)) :
    List Coin → L → Option (Except BankError L)
  | [], lists => some (.ok lists)
  | coin :: coins, lists =>
    (body coin lists).bind fun
      | .error e => some (.error e)
      | .ok lists => forCoins body coins lists

def sendCoins (s : InMemoryStore) (source dest : AccountId) (amount : List Coin) :
    Option (Except BankError Unit × InMemoryStore) :=
  (forCoins sendCoin amount (getAllBalances s source, getAllBalances s dest)).map fun
    | .error e => (.error e, s)
    -- the second write wins where the accounts are the same
    | .ok (src, dst) => (.ok (), setBalances (setBalances s source src) dest dst)

def mintCoins (s : InMemoryStore) (account : AccountId) (amount : List Coin) :
    Option (Except BankError Unit × InMemoryStore) :=
  (forCoins putCoin amount (getAllBalances s account)).map fun
    | .error e => (.error e, s)
    | .ok balances => (.ok (), setBalances s account balances)

def burnCoins (s : InMemoryStore) (account : AccountId) (amount : List Coin) :
    Option (Except BankError Unit × InMemoryStore) :=
  (forCoins takeCoin amount (getAllBalances s account)).map fun
    | .error e => (.error e, s)
    | .ok balances => (.ok (), setBalances s account balances)

/-! ## The module -/

/-- `decode`, and the conversion its caller makes. -/
def decode (message : Any) : Except Error MsgSend :=
  if message.typeUrl = "/cosmos.bank.v1beta1.MsgSend" then
    match BankHost.decodeMsgSend message.value with
    | none => .error (.bank .msgDecodeFailure)
    | some (.error reason) => .error (.bank (.msgValidationFailure reason))
    | some (.ok message) => .ok message
  else .error .notHandled

variable [AuthCodec]

/-- `deliver`, with the account reader's store. -/
def deliver (accounts : InMemoryStore) (message : Any) (s : InMemoryStore) :
    Option (Except Error (List Event) × InMemoryStore) :=
  match decode message with
  | .error e => some (.error e, s)
  | .ok message =>
    match Auth.getAccount accounts message.fromAddress with
    | none => some (.error (.bank (.nonExistentAccount message.fromAddress)), s)
    | some _ =>
      -- transfers to non-existent destination accounts are allowed
      (message.amount.mapM Coin.ofMsgCoin).bind fun amounts =>
        (sendCoins s message.fromAddress message.toAddress amounts).map fun
          | (.error e, s) => (.error (.bank e), s)
          | (.ok (), s) => (.ok [], s)

/-- The loop of `init`; `none` when an account string does not parse or a mint fails. -/
def initBalances : List (String × List (Denom × U256)) → InMemoryStore → Option InMemoryStore
  | [], s => some s
  | (account, balances) :: accounts, s =>
    (AccountId.fromStr account).bind fun accountId =>
      (mintCoins s accountId (balances.map fun b => { denom := b.1, amount := b.2 })).bind fun
        | (.error _, _) => none
        | (.ok (), s) => initBalances accounts s

/-- `query`, with the account reader's store. -/
def query (s accounts : InMemoryStore) (data : Bytes) (height : Height) :
    Except Error QueryResult :=
  match fromUtf8 data with
  | none => .error .notHandled
  | some text =>
    -- `s.starts_with(ACCOUNT_PREFIX)`
    if accountPrefix.toList.isPrefixOf text.toList then
      match AccountId.fromStr text with
      | none => .error .notHandled
      | some accountId =>
        match Auth.getAccount accounts accountId with
        | none => .error (.bank (.nonExistentAccount accountId))
        | some _ =>
          .ok
            { data := BankHost.codec.encode ⟨getAllBalancesAtHeight s height accountId⟩
              proof := none }
    else .error .notHandled

/-! ## Only the pending copy is edited -/

omit [AuthCodec] in
theorem setBalances_sameBase (s : InMemoryStore) (address : AccountId) (balances : List Coin) :
    s.SameBase (setBalances s address balances) := balanceStore.set_sameBase s _ _

omit [AuthCodec] in
theorem sendCoins_sameBase {s s' : InMemoryStore} {source dest : AccountId} {amount : List Coin}
    {r : Except BankError Unit} (h : sendCoins s source dest amount = some (r, s')) :
    s.SameBase s' := by
  obtain ⟨lists, -, heq⟩ := Option.map_eq_some_iff.mp h
  match lists with
  | .error e => exact (Prod.mk.inj heq).2 ▸ .refl s
  | .ok (src, dst) =>
    rw [← (Prod.mk.inj heq).2]
    exact (setBalances_sameBase s source src).trans (setBalances_sameBase _ dest dst)

omit [AuthCodec] in
theorem mintCoins_sameBase {s s' : InMemoryStore} {account : AccountId} {amount : List Coin}
    {r : Except BankError Unit} (h : mintCoins s account amount = some (r, s')) :
    s.SameBase s' := by
  obtain ⟨list, -, heq⟩ := Option.map_eq_some_iff.mp h
  match list with
  | .error e => exact (Prod.mk.inj heq).2 ▸ .refl s
  | .ok balances => exact (Prod.mk.inj heq).2 ▸ setBalances_sameBase s account balances

theorem deliver_sameBase {accounts s s' : InMemoryStore} {message : Any}
    {r : Except Error (List Event)} (h : deliver accounts message s = some (r, s')) :
    s.SameBase s' := by
  unfold deliver at h
  split at h
  · exact (Prod.mk.inj (Option.some.inj h)).2 ▸ .refl s
  · split at h
    · exact (Prod.mk.inj (Option.some.inj h)).2 ▸ .refl s
    · obtain ⟨amounts, -, hrest⟩ := Option.bind_eq_some_iff.mp h
      obtain ⟨⟨sent, t⟩, hsend, heq⟩ := Option.map_eq_some_iff.mp hrest
      have hbase := sendCoins_sameBase hsend
      cases sent with
      | error e => exact (Prod.mk.inj heq).2 ▸ hbase
      | ok => exact (Prod.mk.inj heq).2 ▸ hbase

omit [AuthCodec] in
theorem initBalances_sameBase : ∀ {accounts : List (String × List (Denom × U256))}
    {s s' : InMemoryStore}, initBalances accounts s = some s' → s.SameBase s'
  | [], _, _, h => Option.some.inj h ▸ .refl _
  | (_, _) :: _, s, _, h => by
    obtain ⟨a, -, hmint⟩ := Option.bind_eq_some_iff.mp h
    obtain ⟨⟨r, t⟩, ht, hrest⟩ := Option.bind_eq_some_iff.mp hmint
    cases r with
    | error e => simp at hrest
    | ok => exact (mintCoins_sameBase ht).trans (initBalances_sameBase hrest)

/-- `Bank`, as a module over the store behind `store`, with the accounts behind `accounts`. -/
def module {M G : Type} [GenesisJson G U256] (store accounts : StoreRef) : Module M G where
  store := store
  deliver message _ := do
    let accounts ← Handler.read fun w => w.stores accounts
    Handler.onStore store (deliver accounts message) deliver_sameBase
  init appState :=
    Handler.onStore store
      (fun s => ((GenesisJson.bankAccounts appState).bind fun accounts =>
        initBalances accounts s).map fun s' => ((), s'))
      (by
        intro s _ s' h
        obtain ⟨t, ht, heq⟩ := Option.map_eq_some_iff.mp h
        obtain ⟨accounts, _, hinit⟩ := Option.bind_eq_some_iff.mp ht
        exact (Prod.mk.inj heq).2 ▸ initBalances_sameBase hinit)
  query data _ height _ w := some (query (w.stores store) (w.stores accounts) data height)

end Bank

end Basecoin
