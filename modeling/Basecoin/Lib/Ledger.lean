import Mathlib.Algebra.BigOperators.Finprod
import Mathlib.Algebra.BigOperators.Pi
import Mathlib.Algebra.Order.Group.Nat
import Mathlib.Algebra.Order.Sub.Basic

/-!
# Ledgers

A ledger gives each account an amount of each asset, and all but finitely many accounts hold
nothing. The supply of an asset is the sum over all accounts. Everything about supplies follows
from `supply_set`, which rewrites one account.

An account is rewritten as a whole, by a function on assets. A debit that is not covered stops at
zero, as subtraction of natural numbers does, so whoever wants to know the supply after it has to
show that it is covered (`supply_debit`). A transfer is a debit and *then* a credit, which is why
`supply_transfer` needs no hypothesis that the two accounts differ. A program that reads both
balances before it writes either one does something else where they are the same.
-/

namespace Lib

/-- What each account holds of each asset. -/
@[ext]
structure Ledger (A D : Type*) where
  balance : A → D → ℕ
  finite : (Function.support balance).Finite

namespace Ledger

variable {A D : Type*}

noncomputable def supply (L : Ledger A D) (d : D) : ℕ := ∑ᶠ a, L.balance a d

def empty : Ledger A D where
  balance := 0
  finite := by
    rw [Function.support_zero]
    exact Set.finite_empty

@[simp] theorem supply_empty (d : D) : (empty : Ledger A D).supply d = 0 := finsum_zero

theorem finite_asset (L : Ledger A D) (d : D) :
    (Function.support fun a => L.balance a d).Finite := by
  refine L.finite.subset fun a ha h => ha ?_
  exact congrFun h d

section Update

variable [DecidableEq A]

def set (L : Ledger A D) (a : A) (f : D → ℕ) : Ledger A D where
  balance := Function.update L.balance a f
  finite := by
    refine (L.finite.insert a).subset fun b hb => ?_
    by_cases hba : b = a
    · exact Set.mem_insert_iff.mpr (Or.inl hba)
    · rw [Function.mem_support, Function.update_of_ne hba] at hb
      exact Set.mem_insert_of_mem _ hb

def credit (L : Ledger A D) (a : A) (f : D → ℕ) : Ledger A D := L.set a (L.balance a + f)

/-- An account gives up `f`, or all it has. -/
def debit (L : Ledger A D) (a : A) (f : D → ℕ) : Ledger A D := L.set a (L.balance a - f)

@[simp] theorem balance_set (L : Ledger A D) (a b : A) (f : D → ℕ) :
    (L.set a f).balance b = if b = a then f else L.balance b := Function.update_apply _ _ _ _

@[simp] theorem set_set (L : Ledger A D) (a : A) (f g : D → ℕ) :
    (L.set a f).set a g = L.set a g := by
  ext b
  by_cases h : b = a <;> simp [h]

/-- Rewriting one account changes the supply by what the account held before and after. -/
theorem supply_set (L : Ledger A D) (a : A) (f : D → ℕ) (d : D) :
    (L.set a f).supply d + L.balance a d = L.supply d + f d := by
  -- one finite set that carries both sums; outside of `a` they have the same terms
  set S := insert a (L.finite_asset d).toFinset with hS
  have hmem : a ∈ S := Finset.mem_insert_self _ _
  have hold : L.supply d = ∑ b ∈ S, L.balance b d :=
    finsum_eq_sum_of_support_subset _ fun b hb => by simp [hS, Function.mem_support.mp hb]
  have hnew : (L.set a f).supply d = ∑ b ∈ S, (L.set a f).balance b d := by
    refine finsum_eq_sum_of_support_subset _ fun b hb => ?_
    rw [Function.mem_support, balance_set] at hb
    by_cases hba : b = a
    · exact hba ▸ hmem
    · rw [if_neg hba] at hb
      simp [hS, hb]
  have hrest : ∑ b ∈ S.erase a, (L.set a f).balance b d = ∑ b ∈ S.erase a, L.balance b d := by
    refine Finset.sum_congr rfl fun b hb => ?_
    rw [balance_set, if_neg (Finset.ne_of_mem_erase hb)]
  rw [hold, hnew, ← Finset.add_sum_erase S _ hmem, ← Finset.add_sum_erase S _ hmem, hrest,
    balance_set, if_pos rfl]
  omega

theorem supply_credit (L : Ledger A D) (a : A) (f : D → ℕ) (d : D) :
    (L.credit a f).supply d = L.supply d + f d := by
  have h := L.supply_set a (L.balance a + f) d
  rw [Pi.add_apply] at h
  unfold credit
  omega

theorem supply_debit (L : Ledger A D) {a : A} {f : D → ℕ} (hf : ∀ d, f d ≤ L.balance a d)
    (d : D) : (L.debit a f).supply d + f d = L.supply d := by
  have h := L.supply_set a (L.balance a - f) d
  have hle := hf d
  rw [Pi.sub_apply] at h
  unfold debit
  omega

/-- Moving assets from one account to another keeps every supply, also where the two accounts
are the same one. -/
theorem supply_transfer (L : Ledger A D) {a b : A} {f : D → ℕ} (hf : ∀ d, f d ≤ L.balance a d)
    (d : D) : ((L.debit a f).credit b f).supply d = L.supply d := by
  rw [supply_credit, supply_debit L hf]

end Update

end Ledger

end Lib
