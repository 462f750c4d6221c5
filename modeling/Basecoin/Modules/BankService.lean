import Basecoin.Modules.Amounts

/-!
# `modules/src/bank/service.rs`, and one entry per denomination

Every reader and writer of the bank takes the first entry of a denomination. That is all there is
of it because the keeper never pushes an entry beside another: the edits keep the denominations of
a list apart (`DistinctDenoms`), so every list a run of the keeper stores has that property
(`StoredDistinct`), and then the first entry is the whole balance (`amount_eq_total`).

The invariant is on bytes: whatever is stored decodes as a list with one entry per denomination.
A call loads such a list, or the empty one, edits it by `write` and `findOrPush`, and stores it.
`write` touches amounts only, and `findOrPush` adds an entry only where it has found none.
-/

namespace Basecoin

/-! ## The query service -/

/-- `tonic::Status`, the one the service answers. -/
inductive Status where
  | invalidArgument (message : String)
deriving DecidableEq

structure QueryBalanceRequest where
  address : String
  denom : String
deriving DecidableEq

/-- The coin is the `RawCoin` of the cosmos protos. -/
structure QueryBalanceResponse where
  balance : Option ProtoCoin
deriving DecidableEq

/-- `Display` of the error of `AccountId::from_str`. -/
class AddressError where
  text : String → String

/-- `BankService::balance`. -/
def BankService.balance [Sha256] [Bech32] [BankHost] [U256Text] [AddressError]
    (s : InMemoryStore) (request : QueryBalanceRequest) : Except Status QueryBalanceResponse :=
  match AccountId.fromStr request.address with
  | none => .error (.invalidArgument (AddressError.text request.address))
  | some accountId =>
    let denom : Denom := ⟨request.denom⟩
    let balances := Bank.getAllBalances s accountId
    .ok
      { balance := (balances.find? fun c => c.denom = denom).map fun coin =>
          { denom := coin.denom.name, amount := U256Text.display coin.amount } }

/-! ## Lists with one entry per denomination -/

namespace Coins

def DistinctDenoms (balances : List Coin) : Prop := (balances.map Coin.denom).Nodup

theorem map_denom_write (balances : List Coin) (denom : Denom) (amount : U256) :
    (write balances denom amount).map Coin.denom = balances.map Coin.denom := by
  induction balances with
  | nil => rfl
  | cons c cs ih =>
    rw [write]
    by_cases h : c.denom = denom
    · rw [if_pos h]
      rfl
    · rw [if_neg h, List.map_cons, ih, List.map_cons]

theorem DistinctDenoms.write {balances : List Coin} (h : DistinctDenoms balances) (denom : Denom)
    (amount : U256) : DistinctDenoms (write balances denom amount) := by
  rw [DistinctDenoms, map_denom_write]
  exact h

/-- An entry is pushed only where none was found. -/
theorem DistinctDenoms.findOrPush {balances : List Coin} (h : DistinctDenoms balances)
    (denom : Denom) : DistinctDenoms (findOrPush balances denom).2 := by
  unfold Coins.findOrPush
  cases hfind : find balances denom with
  | some amount => exact h
  | none =>
    have hnew := find_eq_none.mp hfind
    rw [DistinctDenoms, List.map_append, List.nodup_append]
    refine ⟨h, List.nodup_singleton _, fun d hd d' hd' heq => hnew ?_⟩
    rw [List.mem_singleton.mp hd'] at heq
    rw [heq] at hd
    exact hd

theorem DistinctDenoms.taken {balances : List Coin} (h : DistinctDenoms balances)
    (coins : List Coin) : DistinctDenoms (taken balances coins) := by
  induction coins generalizing balances with
  | nil => exact h
  | cons coin coins ih =>
    rw [Coins.taken, List.foldl_cons, ← Coins.taken]
    apply ih
    unfold takeOne
    cases find balances coin.denom with
    | none => exact h
    | some balance => exact h.write _ _

theorem DistinctDenoms.put {balances : List Coin} (h : DistinctDenoms balances)
    (coins : List Coin) : DistinctDenoms (put balances coins) := by
  induction coins generalizing balances with
  | nil => exact h
  | cons coin coins ih =>
    rw [Coins.put, List.foldl_cons, ← Coins.put]
    exact ih ((h.findOrPush coin.denom).write _ _)

/-- Then the first entry of a denomination is all there is of it. -/
theorem DistinctDenoms.amount_eq_total {balances : List Coin} (h : DistinctDenoms balances)
    (denom : Denom) : amount balances denom = total balances denom := by
  induction balances with
  | nil => rfl
  | cons c cs ih =>
    rw [DistinctDenoms, List.map_cons, List.nodup_cons] at h
    rw [total]
    by_cases hc : c.denom = denom
    · have hzero : total cs denom = 0 := by
        refine total_eq_zero fun c' hc' heq => h.1 ?_
        rw [hc, ← heq]
        exact List.mem_map_of_mem hc'
      rw [amount, find_cons, if_pos hc, if_pos hc, hzero]
      rfl
    · rw [if_neg hc, Nat.zero_add, ← ih h.2, amount, find_cons, if_neg hc]
      rfl

end Coins

/-! ## Every stored list -/

namespace Bank

open Coins Lib

variable [Sha256] [Bech32] [BankHost]

/-- Every value of the store is a `Balances` list with one entry per denomination. -/
def StoredDistinct (s : InMemoryStore) : Prop :=
  ∀ path value, s.pending.get path = some value →
    ∃ balances, BankHost.codec.decode value = some balances ∧ DistinctDenoms balances.coins

theorem storedDistinct_default : StoredDistinct InMemoryStore.default := by
  intro path value h
  exact absurd h (by simp [InMemoryStore.default])

theorem StoredDistinct.setBalances {s : InMemoryStore} (h : StoredDistinct s)
    (address : AccountId) {balances : List Coin} (hb : DistinctDenoms balances) :
    StoredDistinct (setBalances s address balances) := by
  intro path value hget
  change (s.pending.insert (balanceStore.path ⟨address⟩) (balanceStore.codec.encode ⟨balances⟩)).2.get
    path = some value at hget
  rw [State.get_insert] at hget
  split at hget
  · rw [← Option.some.inj hget]
    exact ⟨⟨balances⟩, BankHost.codec.decode_encode _, hb⟩
  · exact h path value hget

theorem StoredDistinct.getAllBalances {s : InMemoryStore} (h : StoredDistinct s)
    (address : AccountId) : DistinctDenoms (getAllBalances s address) := by
  show DistinctDenoms
    ((((s.pending.get (balanceStore.path ⟨address⟩)).bind BankHost.codec.decode).map
      Balances.coins).getD [])
  cases hget : s.pending.get (balanceStore.path ⟨address⟩) with
  | none => exact List.nodup_nil
  | some value =>
    obtain ⟨balances, hdecode, hb⟩ := h _ value hget
    rw [Option.bind_some, hdecode]
    exact hb

/-- What one call leaves keeps the entries apart, whether it succeeds or fails. -/
theorem StoredDistinct.call {s s' : InMemoryStore} (h : StoredDistinct s) {c : Call}
    {r : Except BankError Unit} (hcall : Bank.call s c = some (r, s')) : StoredDistinct s' := by
  cases c with
  | send source dest coins =>
    obtain ⟨e, he⟩ := sendCoins_eq s source dest coins
    rw [Bank.call, he] at hcall
    split at hcall
    · obtain ⟨-, rfl⟩ := Prod.mk.inj (Option.some.inj hcall)
      exact (h.setBalances source ((h.getAllBalances source).taken coins)).setBalances dest
        ((h.getAllBalances dest).put coins)
    · obtain ⟨-, rfl⟩ := Prod.mk.inj (Option.some.inj hcall)
      exact h
  | mint account coins =>
    rw [Bank.call, mintCoins_eq] at hcall
    split at hcall
    · obtain ⟨-, rfl⟩ := Prod.mk.inj (Option.some.inj hcall)
      exact h.setBalances account ((h.getAllBalances account).put coins)
    · obtain ⟨-, rfl⟩ := Prod.mk.inj (Option.some.inj hcall)
      exact h
  | burn account coins =>
    rw [Bank.call, burnCoins_eq] at hcall
    split at hcall
    · obtain ⟨-, rfl⟩ := Prod.mk.inj (Option.some.inj hcall)
      exact h.setBalances account ((h.getAllBalances account).taken coins)
    · obtain ⟨-, rfl⟩ := Prod.mk.inj (Option.some.inj hcall)
      exact h

theorem StoredDistinct.run {calls : List Call} {responses : List (Except BankError Unit)}
    {s s' : InMemoryStore} (h : StoredDistinct s)
    (hrun : runSteps Bank.call s calls = some (responses, s')) : StoredDistinct s' :=
  runSteps_invariant (fun _ _ _ _ hs hcall => hs.call hcall) h hrun

variable [U256Text] [AddressError]

/-- What the service answers: no coin where the account has none of the denomination, otherwise a
coin of the denomination whose amount is everything the account has of it. -/
def AnswersWhole (s : InMemoryStore) (account : AccountId) (denom : String)
    (response : QueryBalanceResponse) : Prop :=
  match response.balance with
  | none => ∀ c ∈ getAllBalances s account, c.denom ≠ ⟨denom⟩
  | some coin => ∃ a : U256, coin = { denom, amount := U256Text.display a } ∧
      a.toNat = total (getAllBalances s account) ⟨denom⟩

theorem StoredDistinct.answersWhole {s : InMemoryStore} (h : StoredDistinct s)
    {request : QueryBalanceRequest} {account : AccountId}
    (haddress : AccountId.fromStr request.address = some account) :
    ∃ response, BankService.balance s request = .ok response ∧
      AnswersWhole s account request.denom response := by
  rw [BankService.balance, haddress]
  refine ⟨_, rfl, ?_⟩
  unfold AnswersWhole
  cases hfind : (Bank.getAllBalances s account).find? fun c => c.denom = ⟨request.denom⟩ with
  | none =>
    intro c hc hdenom
    have hno := List.find?_eq_none.mp hfind c hc
    simp [hdenom] at hno
  | some coin =>
    have hdenom : coin.denom = ⟨request.denom⟩ := by simpa using List.find?_some hfind
    refine ⟨coin.amount, ?_, ?_⟩
    · show ProtoCoin.mk coin.denom.name _ = _
      rw [hdenom]
    · rw [← (h.getAllBalances account).amount_eq_total]
      exact (amount_of_find (by rw [find, hfind]; rfl)).symm

/-- **No account ever holds two entries for one denomination.** Every sequence of keeper calls on
an empty bank store returns, every list stored after it has pairwise distinct denominations, and
`BankService::balance` answers for every address the account's whole balance in the denomination
asked for. -/
theorem entries_distinct (calls : List Call) :
    ∃ responses s, runSteps Bank.call InMemoryStore.default calls = some (responses, s) ∧
      StoredDistinct s ∧
      ∀ request account, AccountId.fromStr request.address = some account →
        ∃ response, BankService.balance s request = .ok response ∧
          AnswersWhole s account request.denom response := by
  obtain ⟨responses, s, hrun, -⟩ := supply_run calls InMemoryStore.default
  have hs := storedDistinct_default.run hrun
  exact ⟨responses, s, hrun, hs, fun request account haddress => hs.answersWhole haddress⟩

end Bank

end Basecoin
