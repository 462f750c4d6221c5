import Basecoin.Modules.Transfer

/-!
# `modules/src/ibc/transfer.rs`: bank failures in the coin methods

The `validate` hooks accept everything, so it is the keeper that finds out whether the coins are
there. The four `execute` methods turn an account that does not parse into an error, but unwrap
what the keeper answers: where the keeper refuses, the method does not return (`execute_refused`).

All four come down to one keeper call on accounts that are known once the strings parse
(`keeperCall`), with a list of one coin. `Payable` is the condition under which the keeper makes it.
So there are three ways for a method to go: its accounts do not parse, and the error is reported;
they do and the call is payable, and the coins are moved; or they do and it is not, and nothing is
reported. Only the last one is at odds with a method that reports what became of the coins.
-/

namespace Basecoin

def CoinCall.coin : CoinCall → PrefixedCoin
  | .escrow _ _ _ coin => coin
  | .unescrow _ _ _ coin => coin
  | .mint _ amt => amt
  | .burn _ amt => amt

namespace Transfer

open Bank Coins

/-- The call a coin method makes on its keeper. -/
inductive KeeperCall [Bech32] where
  | sendCoins (source dest : AccountId)
  | mintCoins (account : AccountId)
  | burnCoins (account : AccountId)

variable [Sha256] [Bech32] [BankHost]

def KeeperCall.run (s : InMemoryStore) (coin : PrefixedCoin) :
    KeeperCall → Option (Except BankError Unit × InMemoryStore)
  | .sendCoins source dest => Bank.sendCoins s source dest (bankCoins coin)
  | .mintCoins account => Bank.mintCoins s account (bankCoins coin)
  | .burnCoins account => Bank.burnCoins s account (bankCoins coin)

/-- The balances allow the call: what is taken is there, and what is put has room. -/
def Payable (s : InMemoryStore) (coin : PrefixedCoin) : KeeperCall → Prop
  | .sendCoins source dest =>
    HasEntry s source ⟨coin.denom⟩ ∧ coin.amount.toNat ≤ balance s source ⟨coin.denom⟩ ∧
      balance s dest ⟨coin.denom⟩ + coin.amount.toNat ≤ 2 ^ 256 - 1
  | .mintCoins account => balance s account ⟨coin.denom⟩ + coin.amount.toNat ≤ 2 ^ 256 - 1
  | .burnCoins account =>
    HasEntry s account ⟨coin.denom⟩ ∧ coin.amount.toNat ≤ balance s account ⟨coin.denom⟩

theorem covers_bankCoins {s : InMemoryStore} {account : AccountId} {coin : PrefixedCoin} :
    Covers (getAllBalances s account) (bankCoins coin) ↔
      HasEntry s account ⟨coin.denom⟩ ∧ coin.amount.toNat ≤ balance s account ⟨coin.denom⟩ := by
  rw [covers_iff, ← total_bankCoins_self coin]
  constructor
  · intro h
    exact h ⟨⟨coin.denom⟩, coin.amount⟩ List.mem_cons_self
  · intro h c hc
    obtain rfl := List.mem_singleton.mp hc
    exact h

theorem hasRoom_bankCoins {s : InMemoryStore} {account : AccountId} {coin : PrefixedCoin} :
    HasRoom (getAllBalances s account) (bankCoins coin) ↔
      balance s account ⟨coin.denom⟩ + coin.amount.toNat ≤ 2 ^ 256 - 1 := by
  rw [hasRoom_iff, ← total_bankCoins_self coin]
  constructor
  · intro h
    exact h ⟨⟨coin.denom⟩, coin.amount⟩ List.mem_cons_self
  · intro h c hc
    obtain rfl := List.mem_singleton.mp hc
    exact h

theorem run_of_payable {s : InMemoryStore} {coin : PrefixedCoin} {call : KeeperCall}
    (h : Payable s coin call) : ∃ s', call.run s coin = some (.ok (), s') := by
  cases call with
  | sendCoins source dest =>
    obtain ⟨hentry, hcovers, hroom⟩ := h
    obtain ⟨e, he⟩ := sendCoins_eq s source dest (bankCoins coin)
    exact ⟨_, he.trans (if_pos ⟨covers_bankCoins.mpr ⟨hentry, hcovers⟩,
      hasRoom_bankCoins.mpr hroom⟩)⟩
  | mintCoins account =>
    exact ⟨_, (mintCoins_eq s account _).trans (if_pos (hasRoom_bankCoins.mpr h))⟩
  | burnCoins account =>
    exact ⟨_, (burnCoins_eq s account _).trans (if_pos (covers_bankCoins.mpr h))⟩

theorem run_of_not_payable {s : InMemoryStore} {coin : PrefixedCoin} {call : KeeperCall}
    (h : ¬ Payable s coin call) : ∃ e, call.run s coin = some (.error e, s) := by
  cases call with
  | sendCoins source dest =>
    obtain ⟨e, he⟩ := sendCoins_eq s source dest (bankCoins coin)
    refine ⟨e, he.trans (if_neg ?_)⟩
    rintro ⟨hcovers, hroom⟩
    obtain ⟨hentry, hle⟩ := covers_bankCoins.mp hcovers
    exact h ⟨hentry, hle, hasRoom_bankCoins.mp hroom⟩
  | mintCoins account =>
    exact ⟨_, (mintCoins_eq s account _).trans (if_neg fun hroom => h (hasRoom_bankCoins.mp hroom))⟩
  | burnCoins account =>
    exact ⟨_, (burnCoins_eq s account _).trans
      (if_neg fun hcovers => h (covers_bankCoins.mp hcovers))⟩

/-! ## The coin methods -/

variable [TransferHost]

/-- The keeper call of a coin method, once its accounts parse. -/
def keeperCall : CoinCall → Option KeeperCall
  | .escrow fromAccount portId channelId _ =>
    (AccountId.fromStr fromAccount).bind fun source =>
      (getEscrowAccount portId channelId).map fun dest => .sendCoins source dest
  | .unescrow toAccount portId channelId _ =>
    (AccountId.fromStr toAccount).bind fun dest =>
      (getEscrowAccount portId channelId).map fun source => .sendCoins source dest
  | .mint account _ => (AccountId.fromStr account).map .mintCoins
  | .burn account _ => (AccountId.fromStr account).map .burnCoins

theorem execute_unparsed {s : InMemoryStore} {call : CoinCall} (h : keeperCall call = none) :
    execute s call = some (.error parseError, s) := by
  cases call with
  | escrow fromAccount portId channelId coin =>
    rw [execute, escrowCoinsExecute, parse_escrowAccount]
    cases hsource : AccountId.fromStr fromAccount with
    | none => rfl
    | some source =>
      cases hdest : getEscrowAccount portId channelId with
      | none => rfl
      | some dest => simp [keeperCall, hsource, hdest] at h
  | unescrow toAccount portId channelId coin =>
    rw [execute, unescrowCoinsExecute, parse_escrowAccount]
    cases hsource : getEscrowAccount portId channelId with
    | none => rfl
    | some source =>
      cases hdest : AccountId.fromStr toAccount with
      | none => rfl
      | some dest => simp [keeperCall, hsource, hdest] at h
  | mint account amt =>
    rw [execute, mintCoinsExecute, Option.map_eq_none_iff.mp h]
  | burn account amt =>
    rw [execute, burnCoinsExecute, Option.map_eq_none_iff.mp h]

theorem execute_parsed {s : InMemoryStore} {call : CoinCall} {k : KeeperCall}
    (h : keeperCall call = some k) :
    execute s call = unwrap (k.run s call.coin) := by
  cases call with
  | escrow fromAccount portId channelId coin =>
    obtain ⟨source, hsource, hrest⟩ := Option.bind_eq_some_iff.mp h
    obtain ⟨dest, hdest, rfl⟩ := Option.map_eq_some_iff.mp hrest
    rw [execute, escrowCoinsExecute, parse_escrowAccount, hsource, hdest]
    rfl
  | unescrow toAccount portId channelId coin =>
    obtain ⟨dest, hdest, hrest⟩ := Option.bind_eq_some_iff.mp h
    obtain ⟨source, hsource, rfl⟩ := Option.map_eq_some_iff.mp hrest
    rw [execute, unescrow_eq hdest hsource]
    rfl
  | mint account amt =>
    obtain ⟨a, ha, rfl⟩ := Option.map_eq_some_iff.mp h
    rw [execute, mintCoinsExecute, ha]
    rfl
  | burn account amt =>
    obtain ⟨a, ha, rfl⟩ := Option.map_eq_some_iff.mp h
    rw [execute, burnCoinsExecute, ha]
    rfl

/-- What the keeper refuses, the method unwraps. -/
theorem execute_refused {s : InMemoryStore} {call : CoinCall} {k : KeeperCall}
    (h : keeperCall call = some k) (hk : ¬ Payable s call.coin k) : execute s call = none := by
  obtain ⟨e, he⟩ := run_of_not_payable hk
  rw [execute_parsed h, he, unwrap]

/-- A coin method that reports what became of the coins: it is fine exactly when its accounts
parse and the keeper moved them, and otherwise no balance changed. -/
structure Reported (s : InMemoryStore) (call : CoinCall) (r : Except HostError Unit)
    (s' : InMemoryStore) : Prop where
  ok_iff : r = .ok () ↔
    ∃ k, keeperCall call = some k ∧ k.run s call.coin = some (.ok (), s')
  failed : r ≠ .ok () → ∀ a, getAllBalances s' a = getAllBalances s a

/-- **The coin methods report exactly the failures of the parser.** From every bank store and for
every account string, port, channel and coin, a coin method returns, and is fine exactly when its
accounts parse and the keeper call goes through, if and only if its accounts do not parse or the
balances allow the keeper call. -/
theorem reported_iff (s : InMemoryStore) (call : CoinCall) :
    (∃ r s', execute s call = some (r, s') ∧ Reported s call r s') ↔
      ∀ k, keeperCall call = some k → Payable s call.coin k := by
  constructor
  · rintro ⟨r, s', hrun, -⟩ k hk
    by_contra hpay
    rw [execute_refused hk hpay] at hrun
    cases hrun
  · intro h
    cases hk : keeperCall call with
    | none =>
      refine ⟨_, _, execute_unparsed hk, ⟨?_, fun _ _ => rfl⟩⟩
      constructor
      · intro hok
        cases hok
      · rintro ⟨k, hk', -⟩
        rw [hk] at hk'
        cases hk'
    | some k =>
      obtain ⟨s', hs'⟩ := run_of_payable (h k hk)
      have hrun : execute s call = some (.ok (), s') := by
        rw [execute_parsed hk]
        exact unwrap_ok_iff.mpr hs'
      exact ⟨_, _, hrun, ⟨iff_of_true rfl ⟨k, hk, hs'⟩, fun hne => absurd rfl hne⟩⟩

end Transfer

/-! ## Coins that nobody has -/

section NoCoins

open Transfer

local instance noneBech32 : Bech32 := Bech32.any

local instance noneSha256 : Sha256 := Sha256.ones

local instance noneBankHost : BankHost :=
  { codec := Codec.ofEncodable _
    decodeMsgSend := fun _ => none
    parseAmount := fun _ => none }

local instance noneTransferHost : TransferHost :=
  { escrowAddress := fun _ _ => []
    newAccountId := fun _ _ => some fiveEscrow
    failedToParseAccount := "failed to parse account ID"
    tokenTransferText := fun _ => "" }

/-- An account that was never credited sends five coins. -/
theorem unpayable_not_reported :
    ¬ ∃ r s', execute InMemoryStore.default
        (.escrow aliceAddress "transfer" "channel-0" fiveCoins) = some (r, s') ∧
      Reported InMemoryStore.default
        (.escrow aliceAddress "transfer" "channel-0" fiveCoins) r s' := by
  rintro ⟨r, s', hrun, -⟩
  have hcall : keeperCall (.escrow aliceAddress "transfer" "channel-0" fiveCoins) =
      some (.sendCoins fiveSender fiveEscrow) := rfl
  have hpay : ¬ Payable InMemoryStore.default fiveCoins (.sendCoins fiveSender fiveEscrow) :=
    fun h => Bool.false_ne_true h.1
  rw [execute_refused hcall hpay] at hrun
  cases hrun

end NoCoins

end Basecoin
