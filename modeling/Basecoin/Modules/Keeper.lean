import Basecoin.Modules.Bank

/-!
# What the keeper's calls do

The loops check and edit one coin at a time; `Covers` and `HasRoom` say in advance, from the
lists as they were loaded and the totals of the argument, which loops get through, and `taken`
and `put` what they leave. So `sendCoins`, `mintCoins` and `burnCoins` are each one equation
without a loop, and no arithmetic in them ever panics.

The step from one coin to a list is `covers_cons` and `hasRoom_cons`: covering a list is covering
its first coin and then the others from what that one left. It holds for repeated denominations
because a total counts all coins of one, and an amount goes down by what was taken. In `send_coins`
the two lists are edited side by side, and which of the two errors it answers depends on the coin
at which it stops; where that is of no interest it is left open (`sendCoins_eq`).
-/

namespace Basecoin

namespace Coins

/-! ## Taking coins out of a list -/

/-- The balances have a coin of each denomination asked for, and hold at least what is asked. -/
def Covers (balances coins : List Coin) : Prop :=
  ∀ c ∈ coins, (find balances c.denom).isSome ∧ total coins c.denom ≤ amount balances c.denom

/-- The balances could take in all of the coins. -/
def HasRoom (balances coins : List Coin) : Prop :=
  ∀ c ∈ coins, amount balances c.denom + total coins c.denom ≤ U256.max.toNat

instance (balances coins : List Coin) : Decidable (Covers balances coins) :=
  inferInstanceAs (Decidable (∀ c ∈ coins, _))

instance (balances coins : List Coin) : Decidable (HasRoom balances coins) :=
  inferInstanceAs (Decidable (∀ c ∈ coins, _))

def takeOne (balances : List Coin) (coin : Coin) : List Coin :=
  match find balances coin.denom with
  | none => balances
  | some balance => write balances coin.denom (balance.saturatingSub coin.amount)

def putOne (balances : List Coin) (coin : Coin) : List Coin :=
  write (findOrPush balances coin.denom).2 coin.denom
    ((findOrPush balances coin.denom).1.saturatingAdd coin.amount)

/-- What is left of the balances when the coins are taken, one after the other. -/
def taken (balances coins : List Coin) : List Coin := coins.foldl takeOne balances

/-- The balances when the coins are put in, one after the other. -/
def put (balances coins : List Coin) : List Coin := coins.foldl putOne balances

theorem find_takeOne_isSome (balances : List Coin) (coin : Coin) (d : Denom) :
    (find (takeOne balances coin) d).isSome = (find balances d).isSome := by
  unfold takeOne
  cases h : find balances coin.denom with
  | none => rfl
  | some balance =>
    rw [find_write]
    by_cases hd : d = coin.denom
    · simp [hd, h]
    · rw [if_neg hd]

theorem amount_takeOne (balances : List Coin) (coin : Coin) (d : Denom) :
    amount (takeOne balances coin) d =
      amount balances d - if coin.denom = d then coin.amount.toNat else 0 := by
  unfold takeOne
  cases h : find balances coin.denom with
  | none =>
    by_cases hd : coin.denom = d
    · rw [amount_of_find_none (hd ▸ h), Nat.zero_sub]
    · rw [if_neg hd, Nat.sub_zero]
  | some balance =>
    by_cases hd : coin.denom = d
    · subst hd
      rw [if_pos rfl, amount, find_write, if_pos rfl, h, amount_of_find h]
      rfl
    · rw [if_neg hd, amount, find_write, if_neg (Ne.symm hd), Nat.sub_zero]
      rfl

theorem find_putOne (balances : List Coin) (coin : Coin) (d : Denom) :
    find (putOne balances coin) d =
      if d = coin.denom then
        some ((findOrPush balances coin.denom).1.saturatingAdd coin.amount)
      else find balances d := by
  unfold putOne
  rw [find_write, find_findOrPush, find_findOrPush, if_pos rfl]
  by_cases hd : d = coin.denom
  · rw [if_pos hd, if_pos hd]
    rfl
  · rw [if_neg hd, if_neg hd, if_neg hd]

theorem amount_putOne {balances : List Coin} {coin : Coin}
    (h : amount balances coin.denom + coin.amount.toNat ≤ U256.max.toNat) (d : Denom) :
    amount (putOne balances coin) d =
      amount balances d + if coin.denom = d then coin.amount.toNat else 0 := by
  rw [amount, find_putOne]
  by_cases hd : coin.denom = d
  · subst hd
    have hroom : (findOrPush balances coin.denom).1.toNat + coin.amount.toNat
        ≤ U256.max.toNat := by
      rw [toNat_findOrPush]
      exact h
    rw [if_pos rfl, if_pos rfl, ← toNat_findOrPush]
    exact U256.toNat_saturatingAdd hroom
  · rw [if_neg (Ne.symm hd), if_neg hd, Nat.add_zero]
    rfl

/-! ### One coin and the rest -/

theorem total_cons_self (coin : Coin) (coins : List Coin) :
    total (coin :: coins) coin.denom = coin.amount.toNat + total coins coin.denom := by
  rw [total, if_pos rfl]

theorem covers_nil (balances : List Coin) : Covers balances [] :=
  fun _ hc => absurd hc List.not_mem_nil

theorem hasRoom_nil (balances : List Coin) : HasRoom balances [] :=
  fun _ hc => absurd hc List.not_mem_nil

/-- Covering a list is covering its first coin and then, from what is left, the others. -/
theorem covers_cons {balances : List Coin} {coin : Coin} {coins : List Coin} :
    Covers balances (coin :: coins) ↔
      ((find balances coin.denom).isSome ∧ coin.amount.toNat ≤ amount balances coin.denom) ∧
        Covers (takeOne balances coin) coins := by
  constructor
  · intro h
    obtain ⟨hsome, hle⟩ := h coin List.mem_cons_self
    rw [total_cons_self] at hle
    refine ⟨⟨hsome, by omega⟩, fun c hc => ?_⟩
    obtain ⟨hsome', hle'⟩ := h c (List.mem_cons_of_mem _ hc)
    rw [total] at hle'
    rw [find_takeOne_isSome, amount_takeOne]
    exact ⟨hsome', by omega⟩
  · rintro ⟨⟨hsome, hle⟩, hrest⟩ c hc
    by_cases hin : ∃ c' ∈ coins, c'.denom = c.denom
    · obtain ⟨c', hc', heq⟩ := hin
      obtain ⟨hsome', hle'⟩ := hrest c' hc'
      rw [find_takeOne_isSome, heq] at hsome'
      rw [heq, amount_takeOne] at hle'
      refine ⟨hsome', ?_⟩
      rw [total]
      by_cases hd : coin.denom = c.denom
      · rw [if_pos hd] at hle' ⊢
        rw [hd] at hle
        omega
      · rw [if_neg hd] at hle' ⊢
        omega
    · -- only the first coin has this denomination
      rcases List.mem_cons.mp hc with rfl | hc
      · have hzero : total coins c.denom = 0 :=
          total_eq_zero fun c' hc' heq => hin ⟨c', hc', heq⟩
        rw [total_cons_self, hzero]
        exact ⟨hsome, by omega⟩
      · exact absurd ⟨c, hc, rfl⟩ hin

theorem hasRoom_cons {balances : List Coin} {coin : Coin} {coins : List Coin} :
    HasRoom balances (coin :: coins) ↔
      amount balances coin.denom + coin.amount.toNat ≤ U256.max.toNat ∧
        HasRoom (putOne balances coin) coins := by
  constructor
  · intro h
    have hle := h coin List.mem_cons_self
    rw [total_cons_self] at hle
    have hfirst : amount balances coin.denom + coin.amount.toNat ≤ U256.max.toNat := by omega
    refine ⟨hfirst, fun c hc => ?_⟩
    have hle' := h c (List.mem_cons_of_mem _ hc)
    rw [total] at hle'
    rw [amount_putOne hfirst]
    omega
  · rintro ⟨hfirst, hrest⟩ c hc
    by_cases hin : ∃ c' ∈ coins, c'.denom = c.denom
    · obtain ⟨c', hc', heq⟩ := hin
      have hle' := hrest c' hc'
      rw [amount_putOne hfirst, heq] at hle'
      rw [total]
      omega
    · -- only the first coin has this denomination
      rcases List.mem_cons.mp hc with rfl | hc
      · have hzero : total coins c.denom = 0 :=
          total_eq_zero fun c' hc' heq => hin ⟨c', hc', heq⟩
        rw [total_cons_self, hzero]
        omega
      · exact absurd ⟨c, hc, rfl⟩ hin

/-! ### Whole lists -/

theorem amount_taken {balances coins : List Coin} (d : Denom) :
    amount (taken balances coins) d = amount balances d - total coins d := by
  induction coins generalizing balances with
  | nil => rfl
  | cons coin coins ih =>
    rw [taken, List.foldl_cons, ← taken, ih, amount_takeOne, total, Nat.sub_sub]

theorem amount_put {balances coins : List Coin} (h : HasRoom balances coins) (d : Denom) :
    amount (put balances coins) d = amount balances d + total coins d := by
  induction coins generalizing balances with
  | nil => rfl
  | cons coin coins ih =>
    obtain ⟨hfirst, hrest⟩ := hasRoom_cons.mp h
    rw [put, List.foldl_cons, ← put, ih hrest, amount_putOne hfirst, total, Nat.add_assoc]

/-- A covered list asks for nothing the balances do not have. -/
theorem Covers.total_le {balances coins : List Coin} (h : Covers balances coins) (d : Denom) :
    total coins d ≤ amount balances d := by
  by_cases hin : ∃ c ∈ coins, c.denom = d
  · obtain ⟨c, hc, rfl⟩ := hin
    exact (h c hc).2
  · rw [total_eq_zero fun c hc heq => hin ⟨c, hc, heq⟩]
    exact Nat.zero_le _

/-! ### Coins of different denominations -/

theorem find_eq_none {balances : List Coin} {denom : Denom} :
    find balances denom = none ↔ denom ∉ balances.map Coin.denom := by
  induction balances with
  | nil => exact iff_of_true rfl List.not_mem_nil
  | cons c cs ih =>
    rw [find_cons, List.map_cons, List.mem_cons, not_or, ← ih]
    by_cases h : c.denom = denom
    · rw [if_pos h]
      simp [h]
    · rw [if_neg h]
      simp [Ne.symm h]

theorem write_append {balances : List Coin} {denom : Denom} (h : denom ∉ balances.map Coin.denom)
    (a b : U256) : write (balances ++ [⟨denom, a⟩]) denom b = balances ++ [⟨denom, b⟩] := by
  induction balances with
  | nil => exact if_pos rfl
  | cons c cs ih =>
    rw [List.map_cons, List.mem_cons, not_or] at h
    rw [List.cons_append, write, if_neg (Ne.symm h.1), ih h.2, List.cons_append]

theorem putOne_of_notMem {balances : List Coin} {coin : Coin}
    (h : coin.denom ∉ balances.map Coin.denom) : putOne balances coin = balances ++ [coin] := by
  have hpush : findOrPush balances coin.denom =
      (U256.zero, balances ++ [⟨coin.denom, U256.zero⟩]) := by
    unfold findOrPush
    rw [find_eq_none.mpr h]
    rfl
  have hsum : U256.zero.saturatingAdd coin.amount = coin.amount := by
    have hle : U256.zero.toNat + coin.amount.toNat ≤ U256.max.toNat := by
      rw [U256.toNat_zero, Nat.zero_add]
      exact coin.amount.toNat_le_max
    have hnat := U256.toNat_saturatingAdd hle
    rw [U256.toNat_zero, Nat.zero_add] at hnat
    exact U256.toNat_injective hnat
  rw [putOne, hpush, write_append h, hsum]

theorem put_nil {coins : List Coin} (h : (coins.map Coin.denom).Nodup) : put [] coins = coins := by
  have happend : ∀ {balances coins : List Coin}, ((balances ++ coins).map Coin.denom).Nodup →
      put balances coins = balances ++ coins := by
    intro balances coins
    induction coins generalizing balances with
    | nil => intro _; exact (List.append_nil _).symm
    | cons coin coins ih =>
      intro hnd
      have hnew : coin.denom ∉ balances.map Coin.denom := by
        rw [List.map_append, List.nodup_append] at hnd
        exact fun hmem => hnd.2.2 _ hmem _ (List.mem_cons_self ..) rfl
      rw [put, List.foldl_cons, ← put, putOne_of_notMem hnew, ih (by simpa using hnd)]
      simp
  exact happend h

theorem hasRoom_nil_of_nodup {coins : List Coin} (h : (coins.map Coin.denom).Nodup) :
    HasRoom [] coins := by
  intro c hc
  rw [amount_of_find_none rfl, Nat.zero_add]
  induction coins with
  | nil => exact absurd hc List.not_mem_nil
  | cons coin coins ih =>
    rw [List.map_cons, List.nodup_cons] at h
    rw [total]
    by_cases hd : coin.denom = c.denom
    · have hzero : total coins c.denom = 0 := by
        refine total_eq_zero fun c' hc' heq => h.1 ?_
        rw [hd, ← heq]
        exact List.mem_map_of_mem hc'
      rw [if_pos hd, hzero]
      exact coin.amount.toNat_le_max
    · rw [if_neg hd, Nat.zero_add]
      rcases List.mem_cons.mp hc with rfl | hc
      · exact absurd rfl hd
      · exact ih h.2 hc

end Coins

namespace Bank

open Coins

variable [Bech32]

/-! ## The loops -/

theorem takeCoin_eq (coin : Coin) (balances : List Coin) :
    takeCoin coin balances =
      if (find balances coin.denom).isSome ∧ coin.amount.toNat ≤ amount balances coin.denom then
        some (.ok (takeOne balances coin))
      else some (.error .insufficientSourceFunds) := by
  unfold takeCoin takeOne
  cases h : find balances coin.denom with
  | none => rfl
  | some balance =>
    rw [amount_of_find h]
    by_cases hle : coin.amount ≤ balance
    · have hle' : coin.amount.toNat ≤ balance.toNat := hle
      simp only [Option.filter_some, hle, decide_true, if_true, Option.isSome_some, hle', and_self,
        U256.sub_of_le hle]
      rfl
    · have hle' : ¬ coin.amount.toNat ≤ balance.toNat := hle
      simp only [Option.filter_some, hle, decide_false, hle', and_false, if_false]
      rfl

theorem putCoin_eq (coin : Coin) (balances : List Coin) :
    putCoin coin balances =
      if amount balances coin.denom + coin.amount.toNat ≤ U256.max.toNat then
        some (.ok (putOne balances coin))
      else some (.error .destFundOverflow) := by
  have hmax : coin.amount ≤ U256.max := coin.amount.toNat_le_max
  unfold putCoin putOne
  rw [← toNat_findOrPush]
  generalize findOrPush balances coin.denom = found
  obtain ⟨balance, balances⟩ := found
  have hmax' : coin.amount.toNat ≤ U256.max.toNat := hmax
  have hroom : balance ≤ U256.max.saturatingSub coin.amount ↔
      balance.toNat + coin.amount.toNat ≤ U256.max.toNat := by
    rw [U256.le_def, U256.toNat_saturatingSub]
    omega
  simp only [U256.sub_of_le hmax, Option.bind_some, hroom]
  by_cases h : balance.toNat + coin.amount.toNat ≤ U256.max.toNat
  · rw [if_pos h, if_pos h, U256.add_of_le h]
    rfl
  · rw [if_neg h, if_neg h]

/-- The loop of `burn_coins` gets through exactly when the balances cover the coins. -/
theorem forCoins_takeCoin (coins balances : List Coin) :
    forCoins takeCoin coins balances =
      if Covers balances coins then some (.ok (taken balances coins))
      else some (.error .insufficientSourceFunds) := by
  induction coins generalizing balances with
  | nil =>
    rw [if_pos (covers_nil balances)]
    rfl
  | cons coin coins ih =>
    rw [forCoins, takeCoin_eq]
    -- the first coin gets through, and the rest is asked of what it left; or the loop stops at it
    split
    · next hfirst =>
      rw [Option.bind_some]
      show forCoins takeCoin coins (takeOne balances coin) = _
      rw [ih]
      exact if_congr (covers_cons.trans (and_iff_right hfirst)).symm rfl rfl
    · next hfirst =>
      rw [if_neg (fun h => hfirst (covers_cons.mp h).1)]
      rfl

/-- The loop of `mint_coins` gets through exactly when there is room for the coins. -/
theorem forCoins_putCoin (coins balances : List Coin) :
    forCoins putCoin coins balances =
      if HasRoom balances coins then some (.ok (put balances coins))
      else some (.error .destFundOverflow) := by
  induction coins generalizing balances with
  | nil =>
    rw [if_pos (hasRoom_nil balances)]
    rfl
  | cons coin coins ih =>
    rw [forCoins, putCoin_eq]
    split
    · next hfirst =>
      rw [Option.bind_some]
      show forCoins putCoin coins (putOne balances coin) = _
      rw [ih]
      exact if_congr (hasRoom_cons.trans (and_iff_right hfirst)).symm rfl rfl
    · next hfirst =>
      rw [if_neg (fun h => hfirst (hasRoom_cons.mp h).1)]
      rfl

theorem sendCoin_eq (coin : Coin) (lists : List Coin × List Coin) :
    ∃ e, sendCoin coin lists =
      if ((find lists.1 coin.denom).isSome ∧ coin.amount.toNat ≤ amount lists.1 coin.denom) ∧
          amount lists.2 coin.denom + coin.amount.toNat ≤ U256.max.toNat then
        some (.ok (takeOne lists.1 coin, putOne lists.2 coin))
      else some (.error e) := by
  unfold sendCoin
  rw [takeCoin_eq, putCoin_eq]
  split
  · next hsrc =>
    split
    · next hdst => exact ⟨.destFundOverflow, (if_pos ⟨hsrc, hdst⟩).symm⟩
    · next hdst => exact ⟨.destFundOverflow, (if_neg fun h => hdst h.2).symm⟩
  · next hsrc => exact ⟨.insufficientSourceFunds, (if_neg fun h => hsrc h.1).symm⟩

/-- The loop of `send_coins` gets through exactly when the source list covers the coins and the
destination list has room for them. -/
theorem forCoins_sendCoin (coins src dst : List Coin) :
    ∃ e, forCoins sendCoin coins (src, dst) =
      if Covers src coins ∧ HasRoom dst coins then some (.ok (taken src coins, put dst coins))
      else some (.error e) := by
  induction coins generalizing src dst with
  | nil =>
    refine ⟨.destFundOverflow, ?_⟩
    rw [if_pos ⟨covers_nil src, hasRoom_nil dst⟩]
    rfl
  | cons coin coins ih =>
    obtain ⟨e, he⟩ := sendCoin_eq coin (src, dst)
    rw [forCoins, he]
    split
    · next hfirst =>
      obtain ⟨e', he'⟩ := ih (takeOne src coin) (putOne dst coin)
      refine ⟨e', he'.trans (if_congr ?_ rfl rfl)⟩
      rw [covers_cons, hasRoom_cons, and_and_and_comm]
      exact (and_iff_right hfirst).symm
    · next hfirst =>
      refine ⟨e, ?_⟩
      rw [if_neg fun h => hfirst ⟨(covers_cons.mp h.1).1, (hasRoom_cons.mp h.2).1⟩]
      rfl

/-! ## The calls -/

variable [Sha256] [BankHost]

theorem sendCoins_eq (s : InMemoryStore) (source dest : AccountId) (coins : List Coin) :
    ∃ e, sendCoins s source dest coins =
      if Covers (getAllBalances s source) coins ∧ HasRoom (getAllBalances s dest) coins then
        some (.ok (),
          setBalances (setBalances s source (taken (getAllBalances s source) coins)) dest
            (put (getAllBalances s dest) coins))
      else some (.error e, s) := by
  obtain ⟨e, he⟩ := forCoins_sendCoin coins (getAllBalances s source) (getAllBalances s dest)
  refine ⟨e, ?_⟩
  rw [sendCoins, he]
  split <;> rfl

theorem mintCoins_eq (s : InMemoryStore) (account : AccountId) (coins : List Coin) :
    mintCoins s account coins =
      if HasRoom (getAllBalances s account) coins then
        some (.ok (), setBalances s account (put (getAllBalances s account) coins))
      else some (.error .destFundOverflow, s) := by
  rw [mintCoins, forCoins_putCoin]
  split <;> rfl

theorem burnCoins_eq (s : InMemoryStore) (account : AccountId) (coins : List Coin) :
    burnCoins s account coins =
      if Covers (getAllBalances s account) coins then
        some (.ok (), setBalances s account (taken (getAllBalances s account) coins))
      else some (.error .insufficientSourceFunds, s) := by
  rw [burnCoins, forCoins_takeCoin]
  split <;> rfl

theorem getAllBalances_setBalances (s : InMemoryStore) (address a : AccountId)
    (balances : List Coin) :
    getAllBalances (setBalances s address balances) a =
      if a = address then balances else getAllBalances s a := by
  unfold getAllBalances getAllBalancesAtHeight setBalances
  rw [TypedStore.get_set]
  simp only [balanceStore, AccountId.toString_injective.eq_iff]
  by_cases h : a = address
  · rw [if_pos h, if_pos h]
    rfl
  · rw [if_neg h, if_neg h]

end Bank

end Basecoin
