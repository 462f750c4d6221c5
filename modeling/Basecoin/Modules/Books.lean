import Basecoin.Modules.Supply

/-!
# Accounts and balances, without the stores

What the auth and the bank module keep, as two maps: the account of each address and the coins it
holds. On these the keeper's calls, genesis and the messages of the two modules are written down
again without trees, codecs and paths, and each is shown to be what the module's function does to
the maps its stores stand for (`getAllBalances_run`, `map_initAccounts`, `map_initBalances`,
`books_sign`, `send_of_bank_deliver`).

The balances stay lists of coins. What a list says of a denomination is the business of `Coins`,
and the conditions under which a transfer goes through are the keeper's own, `Covers` and `HasRoom`.
So a transfer from an account to itself is on the books what it is in the stores: both lists are
edited from the same one, and the second is kept.
-/

namespace Basecoin

open Coins

section Books

variable [Bech32]

/-- The account of each address, and what it holds. -/
@[ext]
structure Books where
  accounts : AccountId → Option AuthAccount
  balances : AccountId → List Coin

namespace Books

def empty : Books := ⟨fun _ => none, fun _ => []⟩

/-! ## The keeper -/

/-- What a call of the keeper makes of the balances; one that fails changes nothing. -/
def afterCall (held : AccountId → List Coin) : Bank.Call → AccountId → List Coin
  | .send source dest coins =>
    if Covers (held source) coins ∧ HasRoom (held dest) coins then
      -- the second write wins where the accounts are the same
      Function.update (Function.update held source (taken (held source) coins)) dest
        (put (held dest) coins)
    else held
  | .mint account coins =>
    if HasRoom (held account) coins then Function.update held account (put (held account) coins)
    else held
  | .burn account coins =>
    if Covers (held account) coins then Function.update held account (taken (held account) coins)
    else held

def calls (self : Books) (calls : List Bank.Call) : Books :=
  { self with balances := calls.foldl afterCall self.balances }

/-! ## Messages -/

/-- The signer's sequence goes up by one; `none` for an unknown signer. -/
def sign (self : Books) (signer : AccountId) : Option Books :=
  (self.accounts signer).map fun account =>
    { self with
      accounts := Function.update self.accounts account.address
        (some { account with sequence := account.sequence + 1 }) }

/-- A transfer from an account there is, to any address; `none` if it fails. -/
def send [BankHost] (self : Books) (message : MsgSend) : Option Books :=
  (message.amount.mapM Coin.ofMsgCoin).bind fun coins =>
    if (self.accounts message.fromAddress).isSome ∧
        Covers (self.balances message.fromAddress) coins ∧
        HasRoom (self.balances message.toAddress) coins then
      some (self.calls [.send message.fromAddress message.toAddress coins])
    else none

/-! ## Genesis -/

/-- A new account for every entry; `none` when an account string does not parse. -/
def openAccounts : List (String × List (Denom × String)) →
    (AccountId → Option AuthAccount) → Option (AccountId → Option AuthAccount)
  | [], accounts => some accounts
  | (account, _) :: entries, accounts =>
    (AccountId.fromStr account).bind fun accountId =>
      openAccounts entries (Function.update accounts accountId (some (AuthAccount.new accountId)))

/-- The coins of every entry, minted; `none` when an account string does not parse or a list of
balances overflows. -/
def fundAccounts : List (String × List (Denom × U256)) →
    (AccountId → List Coin) → Option (AccountId → List Coin)
  | [], held => some held
  | (account, balances) :: entries, held =>
    (AccountId.fromStr account).bind fun accountId =>
      let coins := balances.map fun b => ({ denom := b.1, amount := b.2 } : Coin)
      if HasRoom (held accountId) coins then
        fundAccounts entries (Function.update held accountId (put (held accountId) coins))
      else none

def genesis {G : Type} [GenesisJson G U256] (self : Books) (appState : G) : Option Books :=
  ((GenesisJson.authAccounts appState).bind (openAccounts · self.accounts)).bind fun accounts =>
    ((GenesisJson.bankAccounts appState).bind (fundAccounts · self.balances)).map fun balances =>
      { accounts, balances }

end Books

end Books

/-! ## The stores behind the books -/

section Stores

variable [Sha256] [Bech32] [AuthCodec] [BankHost]

namespace Bank

omit [AuthCodec] in
/-- One call of the keeper, as the balances tell it. -/
theorem getAllBalances_call {s s' : InMemoryStore} {c : Call} {r : Except BankError Unit}
    (h : call s c = some (r, s')) : getAllBalances s' = Books.afterCall (getAllBalances s) c := by
  have hset : ∀ (s : InMemoryStore) (a : AccountId) (balances : List Coin),
      getAllBalances (setBalances s a balances) =
        Function.update (getAllBalances s) a balances := by
    intro s a balances
    funext b
    rw [getAllBalances_setBalances, Function.update_apply]
  cases c with
  | send source dest coins =>
    obtain ⟨e, he⟩ := sendCoins_eq s source dest coins
    have hcall := he.symm.trans h
    rw [Books.afterCall]
    by_cases hok : Covers (getAllBalances s source) coins ∧ HasRoom (getAllBalances s dest) coins
    · rw [if_pos hok] at hcall
      obtain ⟨-, rfl⟩ := Prod.mk.inj (Option.some.inj hcall)
      rw [if_pos hok, hset, hset]
    · rw [if_neg hok] at hcall
      obtain ⟨-, rfl⟩ := Prod.mk.inj (Option.some.inj hcall)
      rw [if_neg hok]
  | mint account coins =>
    have hcall := (mintCoins_eq s account coins).symm.trans h
    rw [Books.afterCall]
    by_cases hok : HasRoom (getAllBalances s account) coins
    · rw [if_pos hok] at hcall
      obtain ⟨-, rfl⟩ := Prod.mk.inj (Option.some.inj hcall)
      rw [if_pos hok, hset]
    · rw [if_neg hok] at hcall
      obtain ⟨-, rfl⟩ := Prod.mk.inj (Option.some.inj hcall)
      rw [if_neg hok]
  | burn account coins =>
    have hcall := (burnCoins_eq s account coins).symm.trans h
    rw [Books.afterCall]
    by_cases hok : Covers (getAllBalances s account) coins
    · rw [if_pos hok] at hcall
      obtain ⟨-, rfl⟩ := Prod.mk.inj (Option.some.inj hcall)
      rw [if_pos hok, hset]
    · rw [if_neg hok] at hcall
      obtain ⟨-, rfl⟩ := Prod.mk.inj (Option.some.inj hcall)
      rw [if_neg hok]

omit [AuthCodec] in
theorem getAllBalances_run {calls : List Call} : ∀ {s s' : InMemoryStore}
    {responses : List (Except BankError Unit)},
    Lib.runSteps call s calls = some (responses, s') →
      getAllBalances s' = calls.foldl Books.afterCall (getAllBalances s) := by
  induction calls with
  | nil =>
    intro s s' responses h
    obtain ⟨-, rfl⟩ := Prod.mk.inj (Option.some.inj h)
    rfl
  | cons c calls ih =>
    intro s s' responses h
    obtain ⟨r, s₁, rest, hcall, hrest, -⟩ := Lib.runSteps_cons.mp h
    rw [List.foldl_cons, ← getAllBalances_call hcall]
    exact ih hrest

end Bank

/-- What the two stores hold at `Height::Pending`. -/
def booksOf (accounts balances : InMemoryStore) : Books :=
  { accounts := Auth.getAccount accounts
    balances := Bank.getAllBalances balances }

/-! ## Genesis -/

omit [BankHost] in
theorem getAccount_set (s : InMemoryStore) (account : AuthAccount) :
    Auth.getAccount (Auth.setAccount s account) =
      Function.update (Auth.getAccount s) account.address (some account) := by
  funext a
  rw [Auth.getAccount_setAccount, Function.update_apply]

omit [BankHost] in
theorem map_initAccounts (entries : List (String × List (Denom × String))) (s : InMemoryStore) :
    (Auth.initAccounts entries s).map Auth.getAccount =
      Books.openAccounts entries (Auth.getAccount s) := by
  induction entries generalizing s with
  | nil => rfl
  | cons e entries ih =>
    rw [Auth.initAccounts, Books.openAccounts]
    cases AccountId.fromStr e.1 with
    | none => rfl
    | some a =>
      rw [Option.bind_some, Option.bind_some, ih, getAccount_set]
      rfl

omit [AuthCodec] in
theorem map_initBalances (entries : List (String × List (Denom × U256))) (s : InMemoryStore) :
    (Bank.initBalances entries s).map Bank.getAllBalances =
      Books.fundAccounts entries (Bank.getAllBalances s) := by
  induction entries generalizing s with
  | nil => rfl
  | cons e entries ih =>
    rw [Bank.initBalances, Books.fundAccounts]
    cases AccountId.fromStr e.1 with
    | none => rfl
    | some a =>
      rw [Option.bind_some, Option.bind_some, Bank.mintCoins_eq]
      dsimp only
      by_cases hroom : HasRoom (Bank.getAllBalances s a) (e.2.map fun b => ⟨b.1, b.2⟩)
      · have hput : Bank.getAllBalances (Bank.setBalances s a
            (put (Bank.getAllBalances s a) (e.2.map fun b => ⟨b.1, b.2⟩))) =
            Function.update (Bank.getAllBalances s) a
              (put (Bank.getAllBalances s a) (e.2.map fun b => ⟨b.1, b.2⟩)) := by
          funext b
          rw [Bank.getAllBalances_setBalances, Function.update_apply]
        rw [if_pos hroom, if_pos hroom, Option.bind_some, ← hput]
        exact ih _
      · rw [if_neg hroom, if_neg hroom]
        rfl

/-! ## Messages -/

/-- The auth module never handles a message; it passes one on exactly when the signer is known. -/
theorem books_sign {accounts accounts' balances : InMemoryStore} {signer : AccountId} :
    Auth.deliver signer accounts = (.error .notHandled, accounts') →
      (booksOf accounts balances).sign signer = some (booksOf accounts' balances) := by
  intro h
  rw [Auth.deliver] at h
  rw [Books.sign]
  show (Auth.getAccount accounts signer).map _ = _
  cases haccount : Auth.getAccount accounts signer with
  | none =>
    rw [haccount] at h
    cases h
  | some account =>
    rw [haccount] at h
    obtain rfl := (Prod.mk.inj h).2
    rw [Option.map_some, booksOf, booksOf, getAccount_set]

theorem deliver_of_sign {accounts balances : InMemoryStore} {signer : AccountId} {b : Books}
    (h : (booksOf accounts balances).sign signer = some b) :
    ∃ accounts', Auth.deliver signer accounts = (.error .notHandled, accounts') ∧
      b = booksOf accounts' balances := by
  obtain ⟨account, haccount, -⟩ := Option.map_eq_some_iff.mp h
  have haccount' : Auth.getAccount accounts signer = some account := haccount
  have hdeliver : Auth.deliver signer accounts = (.error .notHandled,
      Auth.setAccount accounts { account with sequence := account.sequence + 1 }) := by
    rw [Auth.deliver, haccount']
  exact ⟨_, hdeliver, Option.some.inj (h.symm.trans (books_sign hdeliver))⟩

/-- What the books allow the bank does, and what it does to the balances is what they say. -/
theorem bank_deliver_of_send {accounts balances : InMemoryStore} {message : Any} {msg : MsgSend}
    {b : Books} (hdecode : Bank.decode message = .ok msg)
    (h : (booksOf accounts balances).send msg = some b) :
    ∃ balances', Bank.deliver accounts message balances = some (.ok [], balances') ∧
      b = booksOf accounts balances' := by
  obtain ⟨coins, hcoins, hif⟩ := Option.bind_eq_some_iff.mp h
  by_cases hok : ((booksOf accounts balances).accounts msg.fromAddress).isSome ∧
      Covers ((booksOf accounts balances).balances msg.fromAddress) coins ∧
      HasRoom ((booksOf accounts balances).balances msg.toAddress) coins
  · rw [if_pos hok, Option.some.injEq] at hif
    obtain ⟨account, haccount⟩ := Option.isSome_iff_exists.mp hok.1
    have haccount' : Auth.getAccount accounts msg.fromAddress = some account := haccount
    obtain ⟨e, he⟩ := Bank.sendCoins_eq balances msg.fromAddress msg.toAddress coins
    obtain ⟨s, hsend⟩ : ∃ s, Bank.sendCoins balances msg.fromAddress msg.toAddress coins =
        some (.ok (), s) := ⟨_, he.trans (if_pos hok.2)⟩
    refine ⟨s, ?_, ?_⟩
    · rw [Bank.deliver, hdecode]
      dsimp only
      rw [haccount', hcoins]
      dsimp only
      rw [Option.bind_some, hsend]
      rfl
    · have hcall : Bank.call balances (.send msg.fromAddress msg.toAddress coins) =
          some (.ok (), s) := hsend
      have hbooks := Bank.getAllBalances_call hcall
      rw [← hif]
      exact Books.ext rfl hbooks.symm
  · rw [if_neg hok] at hif
    cases hif

/-- What they do not allow fails and changes nothing. -/
theorem bank_deliver_refused {accounts balances : InMemoryStore} {message : Any} {msg : MsgSend}
    {coins : List Coin} (hdecode : Bank.decode message = .ok msg)
    (hcoins : msg.amount.mapM Coin.ofMsgCoin = some coins)
    (h : (booksOf accounts balances).send msg = none) :
    ∃ e, Bank.deliver accounts message balances = some (.error (.bank e), balances) := by
  rw [Books.send, hcoins, Option.bind_some] at h
  rw [Bank.deliver, hdecode]
  dsimp only
  cases haccount : Auth.getAccount accounts msg.fromAddress with
  | none => exact ⟨_, rfl⟩
  | some account =>
    obtain ⟨e, he⟩ := Bank.sendCoins_eq balances msg.fromAddress msg.toAddress coins
    have hno : ¬ (Covers (Bank.getAllBalances balances msg.fromAddress) coins ∧
        HasRoom (Bank.getAllBalances balances msg.toAddress) coins) := by
      intro hok
      have hsome : (Auth.getAccount accounts msg.fromAddress).isSome := haccount ▸ rfl
      rw [if_pos ⟨hsome, hok⟩] at h
      cases h
    dsimp only
    rw [hcoins, Option.bind_some, he, if_neg hno]
    exact ⟨e, rfl⟩

/-- A message that is decoded is handled, well or not. -/
theorem bank_deliver_ne_notHandled {accounts balances balances' : InMemoryStore} {message : Any}
    {msg : MsgSend} (hdecode : Bank.decode message = .ok msg) :
    Bank.deliver accounts message balances ≠ some (.error .notHandled, balances') := by
  intro h
  rw [Bank.deliver, hdecode] at h
  dsimp only at h
  cases haccount : Auth.getAccount accounts msg.fromAddress with
  | none =>
    rw [haccount] at h
    cases h
  | some account =>
    rw [haccount] at h
    obtain ⟨coins, -, hsend⟩ := Option.bind_eq_some_iff.mp h
    obtain ⟨⟨result, s⟩, -, heq⟩ := Option.map_eq_some_iff.mp hsend
    cases result with
    | error e => cases (Prod.mk.inj heq).1
    | ok => cases (Prod.mk.inj heq).1

theorem send_of_bank_deliver {accounts balances balances' : InMemoryStore} {message : Any}
    {msg : MsgSend} {events : List Event} (hdecode : Bank.decode message = .ok msg)
    (h : Bank.deliver accounts message balances = some (.ok events, balances')) :
    (booksOf accounts balances).send msg = some (booksOf accounts balances') := by
  cases hsend : (booksOf accounts balances).send msg with
  | some b =>
    obtain ⟨s, hs, rfl⟩ := bank_deliver_of_send hdecode hsend
    obtain ⟨-, rfl⟩ := Prod.mk.inj (Option.some.inj (hs.symm.trans h))
    rfl
  | none =>
    have hcoins : ∃ coins, msg.amount.mapM Coin.ofMsgCoin = some coins := by
      rw [Bank.deliver, hdecode] at h
      dsimp only at h
      cases haccount : Auth.getAccount accounts msg.fromAddress with
      | none =>
        rw [haccount] at h
        cases h
      | some account =>
        rw [haccount] at h
        obtain ⟨coins, hcoins, -⟩ := Option.bind_eq_some_iff.mp h
        exact ⟨coins, hcoins⟩
    obtain ⟨coins, hcoins⟩ := hcoins
    obtain ⟨e, he⟩ := bank_deliver_refused hdecode hcoins hsend
    cases he.symm.trans h

end Stores

end Basecoin
