import Basecoin.Modules.Supply

/-!
# The keeper is exact

What the loops of the keeper add up to, per denomination: a call goes through exactly when the
totals of its argument fit the balances it starts from, and then moves exactly those totals.
Nothing else changes, and a call that fails changes nothing at all.

The three structures say this once per kind of call, with the response and the store it left as
arguments. Their proofs do not look into the loops: `Keeper` has each call as one equation, and its
conditions `Covers` and `HasRoom` are the ones here, read account by account. A denomination that
occurs several times in the argument is counted with all its coins; a denomination that the source
has no entry for is refused, also where the amount asked for is zero (`HasEntry`).

Source and destination are different accounts, as for a debit and a credit they must be. Of a
transfer from an account to itself it is only said that it returns: what it does to the supply is in
`Supply`.
-/

namespace Basecoin

namespace Bank

open Coins

variable [Sha256] [Bech32] [BankHost]

/-- What the first entry of a denomination holds, 0 where there is none. -/
def balance (s : InMemoryStore) (account : AccountId) (denom : Denom) : Nat :=
  amount (getAllBalances s account) denom

def HasEntry (s : InMemoryStore) (account : AccountId) (denom : Denom) : Prop :=
  (find (getAllBalances s account) denom).isSome

theorem balance_setBalances (s : InMemoryStore) (address a : AccountId) (balances : List Coin)
    (d : Denom) :
    balance (setBalances s address balances) a d =
      if a = address then amount balances d else balance s a d := by
  rw [balance, getAllBalances_setBalances]
  split <;> rfl

theorem covers_iff {s : InMemoryStore} {account : AccountId} {coins : List Coin} :
    Covers (getAllBalances s account) coins ↔
      ∀ c ∈ coins, HasEntry s account c.denom ∧ total coins c.denom ≤ balance s account c.denom :=
  Iff.rfl

theorem hasRoom_iff {s : InMemoryStore} {account : AccountId} {coins : List Coin} :
    HasRoom (getAllBalances s account) coins ↔
      ∀ c ∈ coins, balance s account c.denom + total coins c.denom ≤ 2 ^ 256 - 1 :=
  Iff.rfl

omit [Sha256] [BankHost] in
theorem error_ne_ok (e : BankError) : (Except.error e : Except BankError Unit) ≠ .ok () := by
  intro h
  cases h

/-! ## One call -/

/-- A transfer between two accounts that answered `r` and left `s'`. -/
structure SendExact (s s' : InMemoryStore) (source dest : AccountId) (coins : List Coin)
    (r : Except BankError Unit) : Prop where
  ok_iff : r = .ok () ↔ ∀ c ∈ coins, HasEntry s source c.denom ∧
    total coins c.denom ≤ balance s source c.denom ∧
    balance s dest c.denom + total coins c.denom ≤ 2 ^ 256 - 1
  debited : r = .ok () → ∀ d, balance s' source d + total coins d = balance s source d
  credited : r = .ok () → ∀ d, balance s' dest d = balance s dest d + total coins d
  others : ∀ a, a ≠ source → a ≠ dest → getAllBalances s' a = getAllBalances s a
  failed : r ≠ .ok () → s' = s

/-- A mint that answered `r` and left `s'`. -/
structure MintExact (s s' : InMemoryStore) (account : AccountId) (coins : List Coin)
    (r : Except BankError Unit) : Prop where
  ok_iff : r = .ok () ↔
    ∀ c ∈ coins, balance s account c.denom + total coins c.denom ≤ 2 ^ 256 - 1
  added : r = .ok () → ∀ d, balance s' account d = balance s account d + total coins d
  others : ∀ a, a ≠ account → getAllBalances s' a = getAllBalances s a
  failed : r ≠ .ok () → s' = s

/-- A burn that answered `r` and left `s'`. -/
structure BurnExact (s s' : InMemoryStore) (account : AccountId) (coins : List Coin)
    (r : Except BankError Unit) : Prop where
  ok_iff : r = .ok () ↔
    ∀ c ∈ coins, HasEntry s account c.denom ∧ total coins c.denom ≤ balance s account c.denom
  removed : r = .ok () → ∀ d, balance s' account d + total coins d = balance s account d
  others : ∀ a, a ≠ account → getAllBalances s' a = getAllBalances s a
  failed : r ≠ .ok () → s' = s

theorem sendCoins_exact (s : InMemoryStore) {source dest : AccountId} (hne : source ≠ dest)
    (coins : List Coin) :
    ∃ r s', sendCoins s source dest coins = some (r, s') ∧
      SendExact s s' source dest coins r := by
  obtain ⟨e, he⟩ := sendCoins_eq s source dest coins
  have hfits : (Covers (getAllBalances s source) coins ∧ HasRoom (getAllBalances s dest) coins) ↔
      ∀ c ∈ coins, HasEntry s source c.denom ∧ total coins c.denom ≤ balance s source c.denom ∧
        balance s dest c.denom + total coins c.denom ≤ 2 ^ 256 - 1 := by
    rw [covers_iff, hasRoom_iff]
    constructor
    · intro h c hc
      exact ⟨(h.1 c hc).1, (h.1 c hc).2, h.2 c hc⟩
    · intro h
      exact ⟨fun c hc => ⟨(h c hc).1, (h c hc).2.1⟩, fun c hc => (h c hc).2.2⟩
  by_cases h : Covers (getAllBalances s source) coins ∧ HasRoom (getAllBalances s dest) coins
  -- the source is written first and the destination over it, so each is read past the other
  · refine ⟨_, _, he.trans (if_pos h), ⟨iff_of_true rfl (hfits.mp h), ?_, ?_, ?_, ?_⟩⟩
    · intro _ d
      rw [balance_setBalances, if_neg hne, balance_setBalances, if_pos rfl, amount_taken]
      exact Nat.sub_add_cancel (h.1.total_le d)
    · intro _ d
      rw [balance_setBalances, if_pos rfl, amount_put h.2]
      rfl
    · intro a hsource hdest
      rw [getAllBalances_setBalances, if_neg hdest, getAllBalances_setBalances, if_neg hsource]
    · intro hr
      exact absurd rfl hr
  · refine ⟨_, _, he.trans (if_neg h), ⟨iff_of_false (error_ne_ok e) fun hr => h (hfits.mpr hr),
      ?_, ?_, fun _ _ _ => rfl, fun _ => rfl⟩⟩
    · intro hr
      exact absurd hr (error_ne_ok e)
    · intro hr
      exact absurd hr (error_ne_ok e)

theorem mintCoins_exact (s : InMemoryStore) (account : AccountId) (coins : List Coin) :
    ∃ r s', mintCoins s account coins = some (r, s') ∧ MintExact s s' account coins r := by
  have heq := mintCoins_eq s account coins
  by_cases h : HasRoom (getAllBalances s account) coins
  · refine ⟨_, _, heq.trans (if_pos h), ⟨iff_of_true rfl (hasRoom_iff.mp h), ?_, ?_, ?_⟩⟩
    · intro _ d
      rw [balance_setBalances, if_pos rfl, amount_put h]
      rfl
    · intro a ha
      rw [getAllBalances_setBalances, if_neg ha]
    · intro hr
      exact absurd rfl hr
  · refine ⟨_, _, heq.trans (if_neg h),
      ⟨iff_of_false (error_ne_ok _) fun hr => h (hasRoom_iff.mpr hr), ?_, fun _ _ => rfl,
        fun _ => rfl⟩⟩
    intro hr
    exact absurd hr (error_ne_ok _)

theorem burnCoins_exact (s : InMemoryStore) (account : AccountId) (coins : List Coin) :
    ∃ r s', burnCoins s account coins = some (r, s') ∧ BurnExact s s' account coins r := by
  have heq := burnCoins_eq s account coins
  by_cases h : Covers (getAllBalances s account) coins
  · refine ⟨_, _, heq.trans (if_pos h), ⟨iff_of_true rfl (covers_iff.mp h), ?_, ?_, ?_⟩⟩
    · intro _ d
      rw [balance_setBalances, if_pos rfl, amount_taken]
      exact Nat.sub_add_cancel (h.total_le d)
    · intro a ha
      rw [getAllBalances_setBalances, if_neg ha]
    · intro hr
      exact absurd rfl hr
  · refine ⟨_, _, heq.trans (if_neg h),
      ⟨iff_of_false (error_ne_ok _) fun hr => h (covers_iff.mpr hr), ?_, fun _ _ => rfl,
        fun _ => rfl⟩⟩
    intro hr
    exact absurd hr (error_ne_ok _)

/-- **The keeper is exact, atomic and free of wrap-around.** From every bank store and for every
list of coins: a transfer between two accounts, a mint and a burn go through exactly when the
totals per denomination fit, then move exactly those totals and nothing else, and change nothing
when they fail; no addition or subtraction in them overflows, nor in a transfer from an account to
itself. -/
theorem keeper_exact (s : InMemoryStore) (coins : List Coin) :
    (∀ source dest, source ≠ dest → ∃ r s', sendCoins s source dest coins = some (r, s') ∧
      SendExact s s' source dest coins r) ∧
    (∀ account, ∃ r s', mintCoins s account coins = some (r, s') ∧
      MintExact s s' account coins r) ∧
    (∀ account, ∃ r s', burnCoins s account coins = some (r, s') ∧
      BurnExact s s' account coins r) ∧
    ∀ account, (sendCoins s account account coins).isSome := by
  refine ⟨fun source dest hne => sendCoins_exact s hne coins, fun account =>
    mintCoins_exact s account coins, fun account => burnCoins_exact s account coins,
    fun account => ?_⟩
  obtain ⟨e, he⟩ := sendCoins_eq s account account coins
  rw [he]
  split <;> rfl

end Bank

/-! ## Two accounts -/

section TwoAccounts

local instance twoBech32 : Bech32 := Bech32.any

local instance twoSha256 : Sha256 := Sha256.ones

local instance twoBankHost : BankHost :=
  { codec := Codec.ofEncodable _
    decodeMsgSend := fun _ => none
    parseAmount := fun _ => none }

def firstAccount : AccountId := (AccountId.fromStr aliceAddress).get rfl

def secondAccount : AccountId := (AccountId.fromStr bobAddress).get rfl

def someCoin (denom : String) (amount : UInt8) : Coin :=
  ⟨⟨denom⟩, ⟨amount.toNat, amount.toNat_lt.trans (by omega)⟩⟩

/-- The first account holds two denominations, the second nothing. -/
def twoHeld : InMemoryStore :=
  Bank.setBalances InMemoryStore.default firstAccount
    [someCoin "basecoin" 10, someCoin "othercoin" 4]

/-- One denomination is named twice. -/
def twiceBasecoin : List Coin :=
  [someCoin "basecoin" 2, someCoin "othercoin" 4, someCoin "basecoin" 3]

/-- A transfer of both denominations goes through, and five of ten coins are left. -/
theorem keeper_exact_two :
    ∃ s', Bank.sendCoins twoHeld firstAccount secondAccount twiceBasecoin = some (.ok (), s') ∧
      Bank.SendExact twoHeld s' firstAccount secondAccount twiceBasecoin (.ok ()) ∧
      Bank.balance s' firstAccount ⟨"basecoin"⟩ = 5 ∧
      Bank.balance s' secondAccount ⟨"basecoin"⟩ = 5 := by
  have hfirst : Bank.getAllBalances twoHeld firstAccount =
      [someCoin "basecoin" 10, someCoin "othercoin" 4] := by
    rw [twoHeld, Bank.getAllBalances_setBalances, if_pos rfl]
  have hsecond : Bank.getAllBalances twoHeld secondAccount = [] := by
    rw [twoHeld, Bank.getAllBalances_setBalances, if_neg (by decide)]
    rfl
  obtain ⟨r, s', hsend, hexact⟩ :=
    (Bank.keeper_exact twoHeld twiceBasecoin).1 firstAccount secondAccount (by decide)
  obtain rfl : r = .ok () := by
    refine hexact.ok_iff.mpr ?_
    simp only [Bank.HasEntry, Bank.balance, hfirst, hsecond]
    decide
  have hdebited := hexact.debited rfl ⟨"basecoin"⟩
  have hcredited := hexact.credited rfl ⟨"basecoin"⟩
  simp only [Bank.balance, hfirst, hsecond] at hdebited hcredited
  exact ⟨s', hsend, hexact, Nat.add_right_cancel (m := 5) hdebited, hcredited⟩

end TwoAccounts

end Basecoin
