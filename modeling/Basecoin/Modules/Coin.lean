import Basecoin.Store.Typed

/-!
# `modules/src/bank/util.rs`

Coins, and the lists of coins an account's balances are stored as. Nothing keeps such a list free
of repeated denominations but the code that edits it, which always works on the *first* coin of a
denomination; `amount` is that coin's amount.

The coins of an argument are another matter: the keeper works through all of them, so what counts
there is what the coins of a denomination add up to, `total`. It is a natural number, since nothing
keeps it below 2^256.

`U256` is the type of `primitive_types`, whose `+` and `-` panic when they leave the range. Both
are partial here, with `none` for the panic, and where the code has made sure of the range they are
the saturating operations (`add_of_le`, `sub_of_le`), which is the form the lemmas are about.
-/

namespace Basecoin

/-- `bank::Denom`: a newtype around `String`. -/
structure Denom where
  name : String
deriving DecidableEq

/-! ## `primitive_types::U256` -/

structure U256 where
  toNat : Nat
  lt : toNat < 2 ^ 256
deriving DecidableEq

namespace U256

def max : U256 := ⟨2 ^ 256 - 1, by omega⟩

def zero : U256 := ⟨0, by omega⟩

instance : LE U256 := ⟨fun a b => a.toNat ≤ b.toNat⟩

instance (a b : U256) : Decidable (a ≤ b) := inferInstanceAs (Decidable (a.toNat ≤ b.toNat))

@[simp] theorem toNat_zero : zero.toNat = 0 := rfl

theorem toNat_injective : Function.Injective toNat := by
  intro a b h
  cases a
  cases b
  simpa using h

theorem le_def {a b : U256} : a ≤ b ↔ a.toNat ≤ b.toNat := Iff.rfl

/-- `+`; `none` is the overflow panic. -/
def add (a b : U256) : Option U256 :=
  if h : a.toNat + b.toNat < 2 ^ 256 then some ⟨a.toNat + b.toNat, h⟩ else none

def saturatingSub (a b : U256) : U256 := ⟨a.toNat - b.toNat, lt_of_le_of_lt (Nat.sub_le _ _) a.lt⟩

@[simp] theorem toNat_saturatingSub (a b : U256) :
    (a.saturatingSub b).toNat = a.toNat - b.toNat := rfl

def saturatingAdd (a b : U256) : U256 :=
  if h : a.toNat + b.toNat < 2 ^ 256 then ⟨a.toNat + b.toNat, h⟩ else max

/-- `-`; `none` is the overflow panic. -/
def sub (a b : U256) : Option U256 := if b ≤ a then some (a.saturatingSub b) else none

theorem toNat_le_max (a : U256) : a.toNat ≤ max.toNat := Nat.le_pred_of_lt a.lt

theorem sub_of_le {a b : U256} (h : b ≤ a) : a.sub b = some (a.saturatingSub b) := if_pos h

theorem add_of_le {a b : U256} (h : a.toNat + b.toNat ≤ max.toNat) :
    a.add b = some (a.saturatingAdd b) := by
  have hlt : a.toNat + b.toNat < 2 ^ 256 := Nat.lt_of_le_pred (by omega) h
  rw [add, dif_pos hlt, saturatingAdd, dif_pos hlt]

theorem toNat_saturatingAdd {a b : U256} (h : a.toNat + b.toNat ≤ max.toNat) :
    (a.saturatingAdd b).toNat = a.toNat + b.toNat := by
  have hlt : a.toNat + b.toNat < 2 ^ 256 := Nat.lt_of_le_pred (by omega) h
  rw [saturatingAdd, dif_pos hlt]

end U256

/-! ## Coins -/

structure Coin where
  denom : Denom
  amount : U256
deriving DecidableEq

def Coin.newEmpty (denom : Denom) : Coin := { denom, amount := U256.zero }

structure Balances where
  coins : List Coin
deriving DecidableEq

namespace Coins

/-- `iter().find(|c| c.denom == denom)`, the amount of the coin found. -/
def find (balances : List Coin) (denom : Denom) : Option U256 :=
  (balances.find? fun c => c.denom = denom).map Coin.amount

/-- A write through the reference that `iter_mut().find` gives. -/
def write : List Coin → Denom → U256 → List Coin
  | [], _, _ => []
  | c :: cs, denom, amount =>
    if c.denom = denom then { c with amount } :: cs else c :: write cs denom amount

/-- The coin of a denomination, pushed with amount 0 where there is none. -/
def findOrPush (balances : List Coin) (denom : Denom) : U256 × List Coin :=
  match find balances denom with
  | some amount => (amount, balances)
  | none => (U256.zero, balances ++ [Coin.newEmpty denom])

def amount (balances : List Coin) (denom : Denom) : Nat :=
  ((find balances denom).map U256.toNat).getD 0

/-- What the coins of a denomination add up to in an argument list. -/
def total : List Coin → Denom → Nat
  | [], _ => 0
  | c :: cs, denom => (if c.denom = denom then c.amount.toNat else 0) + total cs denom

theorem find_cons (c : Coin) (cs : List Coin) (denom : Denom) :
    find (c :: cs) denom = if c.denom = denom then some c.amount else find cs denom := by
  unfold find
  rw [List.find?_cons]
  by_cases h : c.denom = denom <;> simp [h]

theorem find_write (balances : List Coin) (denom d : Denom) (amount : U256) :
    find (write balances denom amount) d =
      if d = denom then (find balances denom).map (fun _ => amount) else find balances d := by
  induction balances with
  | nil =>
    by_cases h : d = denom
    · rw [if_pos h]
      rfl
    · rw [if_neg h]
      rfl
  | cons c cs ih =>
    rw [write]
    by_cases hc : c.denom = denom
    · rw [if_pos hc, find_cons, find_cons, find_cons, if_pos hc]
      by_cases hd : d = denom
      · simp [hc, hd]
      · simp [hc, hd, Ne.symm hd]
    · rw [if_neg hc, find_cons, ih, find_cons, find_cons, if_neg hc]
      by_cases hd : d = denom
      · simp [hc, hd]
      · simp [hd]

theorem find_append_newEmpty {balances : List Coin} {denom : Denom}
    (h : find balances denom = none) (d : Denom) :
    find (balances ++ [Coin.newEmpty denom]) d =
      if d = denom then some U256.zero else find balances d := by
  induction balances with
  | nil =>
    rw [List.nil_append, find_cons]
    exact if_congr eq_comm rfl rfl
  | cons c cs ih =>
    rw [find_cons] at h
    by_cases hc : c.denom = denom
    · rw [if_pos hc] at h
      simp at h
    · rw [if_neg hc] at h
      rw [List.cons_append, find_cons, find_cons, ih h]
      by_cases hd : d = denom
      · rw [if_pos hd, if_neg (fun he => hc (he.trans hd)), if_pos hd]
      · rw [if_neg hd, if_neg hd]

theorem find_findOrPush (balances : List Coin) (denom d : Denom) :
    find (findOrPush balances denom).2 d =
      if d = denom then some (findOrPush balances denom).1 else find balances d := by
  unfold findOrPush
  cases h : find balances denom with
  | none => exact find_append_newEmpty h d
  | some amount =>
    by_cases hd : d = denom
    · rw [if_pos hd, hd]
      exact h
    · rw [if_neg hd]

theorem toNat_findOrPush (balances : List Coin) (denom : Denom) :
    (findOrPush balances denom).1.toNat = amount balances denom := by
  unfold findOrPush amount
  cases find balances denom <;> rfl

theorem amount_of_find {balances : List Coin} {denom : Denom} {a : U256}
    (h : find balances denom = some a) : amount balances denom = a.toNat := by
  rw [amount, h]
  rfl

theorem amount_of_find_none {balances : List Coin} {denom : Denom}
    (h : find balances denom = none) : amount balances denom = 0 := by
  rw [amount, h]
  rfl

theorem total_eq_zero {coins : List Coin} {denom : Denom} (h : ∀ c ∈ coins, c.denom ≠ denom) :
    total coins denom = 0 := by
  induction coins with
  | nil => rfl
  | cons c cs ih =>
    rw [total, if_neg (h c List.mem_cons_self), ih fun x hx => h x (List.mem_cons_of_mem c hx)]

end Coins

/-! ## Numbering, for codecs that are run -/

instance encodableU256 : Encodable U256 :=
  Encodable.ofLeftInjection U256.toNat
    (fun n => if h : n < 2 ^ 256 then some ⟨n, h⟩ else none) fun a => dif_pos a.lt

instance encodableCoin : Encodable Coin :=
  Encodable.ofLeftInverse (fun c : Coin => (c.denom.name, c.amount)) (fun r => ⟨⟨r.1⟩, r.2⟩)
    fun _ => rfl

instance encodableBalances : Encodable Balances :=
  Encodable.ofLeftInverse Balances.coins Balances.mk fun _ => rfl

end Basecoin
