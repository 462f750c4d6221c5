import Basecoin.Lib.Ledger
import Basecoin.Lib.Run
import Basecoin.Modules.Keeper

/-!
# The bank and the supply

Seen as a ledger, a successful `mint_coins` is a credit, a successful `burn_coins` a debit, and a
successful `send_coins` between two accounts a debit and a credit. A send from an account to
itself is not: both lists are loaded before either is written, and the second write, the credited
one, overwrites the first (`ledger_sendCoins`). It creates what it claims to move, so the supply
is what was minted and not burned exactly in the runs in which no such send goes through with a
positive total.

A ledger needs finitely many accounts, which the bank has: an account with a balance has an entry in
the store, and a tree has finitely many keys. The amounts are natural numbers here, and the bound of
2^256 is on each account and not on the supply, so nothing is lost when supplies are added up.
-/

namespace Basecoin

namespace Bank

open Coins Lib

variable [Sha256] [Bech32] [BankHost]

/-! ## The bank as a ledger -/

theorem get_ne_none_of_amount {s : InMemoryStore} {a : AccountId} {d : Denom}
    (h : amount (getAllBalances s a) d ≠ 0) :
    s.pending.get (Path.ofString a.toString) ≠ none := by
  intro hnone
  apply h
  have hget : balanceStore.get s .pending ⟨a⟩ = none := by
    show (s.pending.get (Path.ofString a.toString)).bind _ = none
    rw [hnone]
    rfl
  rw [getAllBalances, getAllBalancesAtHeight, hget]
  rfl

/-- What the accounts hold at `Height::Pending`. -/
def ledger (s : InMemoryStore) : Ledger AccountId Denom where
  balance a := amount (getAllBalances s a)
  finite := by
    have hkeys : {p : Path | p ∈ s.pending.getKeys}.Finite := List.finite_toSet _
    have hinj : Function.Injective fun a : AccountId => Path.ofString a.toString :=
      Path.ofString_injective.comp AccountId.toString_injective
    refine (hkeys.preimage hinj.injOn).subset fun a ha => ?_
    obtain ⟨d, hd⟩ := Function.ne_iff.mp ha
    exact (s.pending.mem_getKeys).mpr (get_ne_none_of_amount hd)

noncomputable def supply (s : InMemoryStore) (d : Denom) : Nat := (ledger s).supply d

theorem balance_ledger (s : InMemoryStore) (a : AccountId) (d : Denom) :
    (ledger s).balance a d = amount (getAllBalances s a) d := rfl

theorem supply_default (d : Denom) : supply InMemoryStore.default d = 0 := Ledger.supply_empty d

theorem ledger_setBalances (s : InMemoryStore) (a : AccountId) (balances : List Coin) :
    ledger (setBalances s a balances) = (ledger s).set a (amount balances) := by
  ext b d
  rw [balance_ledger, getAllBalances_setBalances, Ledger.balance_set]
  by_cases h : b = a
  · rw [if_pos h, if_pos h]
  · rw [if_neg h, if_neg h, balance_ledger]

/-! ## The calls on the ledger -/

theorem ledger_put (s : InMemoryStore) {a : AccountId} {coins : List Coin}
    (h : HasRoom (getAllBalances s a) coins) :
    ledger (setBalances s a (put (getAllBalances s a) coins)) =
      (ledger s).credit a (total coins) := by
  rw [ledger_setBalances, Ledger.credit]
  congr 1
  funext d
  exact amount_put h d

theorem ledger_taken (s : InMemoryStore) (a : AccountId) (coins : List Coin) :
    ledger (setBalances s a (taken (getAllBalances s a) coins)) =
      (ledger s).debit a (total coins) := by
  rw [ledger_setBalances, Ledger.debit]
  congr 1
  funext d
  exact amount_taken d

/-- A transfer, unless source and destination are one account: then a credit. -/
theorem ledger_sendCoins (s : InMemoryStore) {source dest : AccountId} {coins : List Coin}
    (h : HasRoom (getAllBalances s dest) coins) :
    ledger (setBalances (setBalances s source (taken (getAllBalances s source) coins)) dest
        (put (getAllBalances s dest) coins)) =
      if source = dest then (ledger s).credit dest (total coins)
      else ((ledger s).debit source (total coins)).credit dest (total coins) := by
  split
  · next heq =>
    subst heq
    rw [ledger_setBalances, ledger_setBalances, Ledger.set_set, ← ledger_setBalances,
      ledger_put s h]
  · next hne =>
    have hsame : getAllBalances (setBalances s source (taken (getAllBalances s source) coins)) dest
        = getAllBalances s dest := by
      rw [getAllBalances_setBalances, if_neg (Ne.symm hne)]
    rw [← ledger_taken, ← ledger_put _ (hsame.symm ▸ h), hsame]

/-! ## Calls and runs -/

inductive Call where
  | send (source dest : AccountId) (amount : List Coin)
  | mint (account : AccountId) (amount : List Coin)
  | burn (account : AccountId) (amount : List Coin)
deriving DecidableEq

def call (s : InMemoryStore) : Call → Option (Except BankError Unit × InMemoryStore)
  | .send source dest amount => sendCoins s source dest amount
  | .mint account amount => mintCoins s account amount
  | .burn account amount => burnCoins s account amount

omit [Sha256] [BankHost] in
/-- What a call mints if it succeeds. -/
def Call.minted : Call → Denom → Nat
  | .mint _ amount, d => total amount d
  | _, _ => 0

omit [Sha256] [BankHost] in
def Call.burned : Call → Denom → Nat
  | .burn _ amount, d => total amount d
  | _, _ => 0

/-- `amounts` of the successful calls of a run, added up. -/
def successful (amounts : Call → Denom → Nat) :
    List Call → List (Except BankError Unit) → Denom → Nat
  | c :: calls, .ok () :: responses, d => amounts c d + successful amounts calls responses d
  | _ :: calls, .error _ :: responses, d => successful amounts calls responses d
  | _, _, _ => 0

/-- If the call is a send from an account to itself that the account's balances cover and have
room for, the coins it lists have no total in `d`. -/
def CreatesNone (d : Denom) (s : InMemoryStore) (c : Call) : Prop :=
  ∀ account coins, c = .send account account coins → Covers (getAllBalances s account) coins →
    HasRoom (getAllBalances s account) coins → total coins d = 0

/-- One call: it does not panic, and the supply moves by what it mints and burns, and by
`created`, which is nothing but in a send from an account to itself. -/
theorem supply_call (s : InMemoryStore) (c : Call) :
    ∃ r s', call s c = some (r, s') ∧ ∀ d, ∃ created,
      supply s' d + successful Call.burned [c] [r] d =
        supply s d + successful Call.minted [c] [r] d + created ∧
      (created = 0 ↔ CreatesNone d s c) := by
  cases c with
  | mint account coins =>
    have hnone : ∀ d, CreatesNone d s (.mint account coins) := by
      intro d a l h
      cases h
    by_cases h : HasRoom (getAllBalances s account) coins
    · refine ⟨_, _, (mintCoins_eq s account coins).trans (if_pos h), fun d => ?_⟩
      refine ⟨0, ?_, iff_of_true rfl (hnone d)⟩
      rw [supply, ledger_put s h, Ledger.supply_credit]
      rfl
    · refine ⟨_, _, (mintCoins_eq s account coins).trans (if_neg h), fun d => ?_⟩
      exact ⟨0, rfl, iff_of_true rfl (hnone d)⟩
  | burn account coins =>
    have hnone : ∀ d, CreatesNone d s (.burn account coins) := by
      intro d a l h
      cases h
    by_cases h : Covers (getAllBalances s account) coins
    · refine ⟨_, _, (burnCoins_eq s account coins).trans (if_pos h), fun d => ?_⟩
      refine ⟨0, ?_, iff_of_true rfl (hnone d)⟩
      rw [supply, ledger_taken]
      exact Ledger.supply_debit _ (fun d => h.total_le d) d
    · refine ⟨_, _, (burnCoins_eq s account coins).trans (if_neg h), fun d => ?_⟩
      exact ⟨0, rfl, iff_of_true rfl (hnone d)⟩
  | send source dest coins =>
    obtain ⟨e, he⟩ := sendCoins_eq s source dest coins
    -- `sendCoins` checks both lists before it writes either
    by_cases h : Covers (getAllBalances s source) coins ∧ HasRoom (getAllBalances s dest) coins
    · refine ⟨_, _, he.trans (if_pos h), fun d => ?_⟩
      rw [supply, ledger_sendCoins s h.2]
      by_cases heq : source = dest
      · -- what is written last is the credited list
        subst heq
        refine ⟨total coins d, ?_, fun hzero a l hc _ _ => ?_, fun hnone => ?_⟩
        · rw [if_pos rfl, Ledger.supply_credit]
          rfl
        · cases hc
          exact hzero
        · exact hnone source coins rfl h.1 h.2
      · refine ⟨0, ?_, iff_of_true rfl fun a l hc => ?_⟩
        · rw [if_neg heq, Ledger.supply_transfer _ fun d => h.1.total_le d]
          rfl
        · cases hc
          exact absurd rfl heq
    · refine ⟨_, _, he.trans (if_neg h), fun d => ?_⟩
      refine ⟨0, rfl, iff_of_true rfl fun a l hc hcovers hroom => ?_⟩
      cases hc
      exact absurd ⟨hcovers, hroom⟩ h

omit [Sha256] [BankHost] in
theorem successful_cons (amounts : Call → Denom → Nat) (c : Call) (calls : List Call)
    (r : Except BankError Unit) (responses : List (Except BankError Unit)) (d : Denom) :
    successful amounts (c :: calls) (r :: responses) d =
      successful amounts [c] [r] d + successful amounts calls responses d := by
  cases r with
  | error e => exact (Nat.zero_add _).symm
  | ok => rfl

/-- A run: no call panics, the supply never falls short of what was minted and not burned, and
it is exactly that where no call creates any. -/
theorem supply_run (calls : List Call) (s : InMemoryStore) :
    ∃ responses s', runSteps call s calls = some (responses, s') ∧ ∀ d,
      supply s d + successful Call.minted calls responses d ≤
        supply s' d + successful Call.burned calls responses d ∧
      (supply s' d + successful Call.burned calls responses d =
        supply s d + successful Call.minted calls responses d ↔
          Along call (CreatesNone d) s calls) := by
  induction calls generalizing s with
  | nil => exact ⟨[], s, rfl, fun d => ⟨le_rfl, iff_of_true rfl trivial⟩⟩
  | cons c calls ih =>
    obtain ⟨r, s₁, hcall, hone⟩ := supply_call s c
    obtain ⟨responses, s', hrun, hrest⟩ := ih s₁
    refine ⟨r :: responses, s', runSteps_cons.mpr ⟨r, s₁, responses, hcall, hrun, rfl⟩, fun d => ?_⟩
    obtain ⟨created, hmoved, hcreated⟩ := hone d
    obtain ⟨hle, hiff⟩ := hrest d
    rw [successful_cons Call.minted, successful_cons Call.burned]
    refine ⟨by omega, ?_⟩
    have halong : Along call (CreatesNone d) s (c :: calls) ↔
        CreatesNone d s c ∧ Along call (CreatesNone d) s₁ calls := by
      refine and_congr_right fun _ => ⟨fun h => h r s₁ hcall, fun h o t ht => ?_⟩
      obtain ⟨-, rfl⟩ := Prod.mk.inj (Option.some.inj (hcall.symm.trans ht))
      exact h
    rw [halong, ← hcreated, ← hiff]
    omega

/-- **The supply is what was minted and not burned, exactly as long as no send to oneself goes
through.** For every sequence of keeper calls on an empty bank store and every denomination: no
call panics, and all accounts together hold what successful mints made less what successful burns
took if and only if every send from an account to itself that the account could afford listed a
total of zero. -/
theorem supply_conserved_iff (calls : List Call) :
    ∃ responses s, runSteps call InMemoryStore.default calls = some (responses, s) ∧ ∀ d,
      (supply s d + successful Call.burned calls responses d =
          successful Call.minted calls responses d ↔
        Along call (CreatesNone d) InMemoryStore.default calls) := by
  obtain ⟨responses, s, hrun, h⟩ := supply_run calls InMemoryStore.default
  refine ⟨responses, s, hrun, fun d => ?_⟩
  have hiff := (h d).2
  rwa [supply_default, Nat.zero_add] at hiff

end Bank

/-! ## One coin becomes two -/

section SelfSend

open Bank Coins Lib

local instance selfSendBech32 : Bech32 := Bech32.any

local instance selfSendSha256 : Sha256 := Sha256.ones

local instance selfSendBankHost : BankHost :=
  { codec := Codec.ofEncodable _
    decodeMsgSend := fun _ => none
    parseAmount := fun _ => none }

/-- One coin is minted to an account, which then sends it to itself: both calls succeed, and the
supply is two. -/
theorem self_send_creates :
    ∃ (alice : AccountId) (coins : List Coin) (d : Denom) (s : InMemoryStore),
      runSteps call InMemoryStore.default [.mint alice coins, .send alice alice coins] =
        some ([.ok (), .ok ()], s) ∧
      successful Call.minted [.mint alice coins, .send alice alice coins] [.ok (), .ok ()] d = 1 ∧
      successful Call.burned [.mint alice coins, .send alice alice coins] [.ok (), .ok ()] d = 0 ∧
      supply s d = 2 := by
  let alice : AccountId := (AccountId.fromStr aliceAddress).get rfl
  let coins : List Coin := [⟨⟨"basecoin"⟩, ⟨1, by omega⟩⟩]
  have hempty : getAllBalances InMemoryStore.default alice = [] := rfl
  have hroom : HasRoom (getAllBalances InMemoryStore.default alice) coins := by
    rw [hempty]
    decide
  have hmint := (mintCoins_eq InMemoryStore.default alice coins).trans (if_pos hroom)
  set s := setBalances InMemoryStore.default alice
    (put (getAllBalances InMemoryStore.default alice) coins) with hs
  have hheld : getAllBalances s alice = put [] coins := by
    rw [hs, getAllBalances_setBalances, if_pos rfl, hempty]
  obtain ⟨e, he⟩ := sendCoins_eq s alice alice coins
  have hafford : Covers (getAllBalances s alice) coins ∧ HasRoom (getAllBalances s alice) coins := by
    rw [hheld]
    decide
  have hsend := he.trans (if_pos hafford)
  refine ⟨alice, coins, ⟨"basecoin"⟩, _,
    runSteps_cons.mpr ⟨_, s, _, hmint, runSteps_cons.mpr ⟨_, _, _, hsend, rfl, rfl⟩, rfl⟩,
    rfl, rfl, ?_⟩
  rw [supply, ledger_sendCoins s hafford.2, if_pos rfl, Ledger.supply_credit, hs,
    ledger_put _ hroom, Ledger.supply_credit]
  exact congrArg (· + 1 + 1) (supply_default _)

end SelfSend

end Basecoin
