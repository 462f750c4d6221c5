import Basecoin.Store.Avl.Absence
import Basecoin.Store.Avl.Removal
import Mathlib.Data.Nat.Fib.Basic

/-!
# How deep a balanced tree is

A missing child and a leaf both count as height 0, so a node may have one child of two levels and
miss the other. The thinnest trees are therefore a little thinner than those of a textbook: with
`h` the cached height of the root, `fib h + fib (h + 2)` is at most one more than the number of
keys. Two more levels take at least twice the keys, which bounds every path a proof can have by
twice the logarithm of their number.

The bound is for trees that are balanced, and a removal may leave one that is not: it holds after
every run in which no removal meets the slip of `balance_node` (`KeepsBalance`). A proof has a step
for the node itself and one for each ancestor, so it is as long as the node is deep.
-/

namespace Basecoin.Avl

open Lib Lib.SortedMap Ics23

/-! ## The thinnest trees -/

/-- The fewest keys in a balanced tree of so many levels. -/
def fewest : Nat → Nat
  | 0 => 0
  | 1 => 1
  | 2 => 2
  | 3 => 3
  | n + 4 => fewest (n + 3) + fewest (n + 2) + 1

theorem fewest_le_succ : ∀ n : Nat, fewest n ≤ fewest (n + 1)
  | 0 => by decide
  | 1 => by decide
  | 2 => by decide
  | n + 3 => by
    rw [fewest]
    omega

theorem fewest_mono {a b : Nat} (h : a ≤ b) : fewest a ≤ fewest b :=
  monotone_nat_of_le_succ fewest_le_succ h

/-- A node over a taller child and one near it. -/
theorem fewest_over {a b : Nat} (hnear : Near a b) (hle : b ≤ a) :
    fewest (a + 1) ≤ fewest a + fewest b + 1 := by
  match a, hnear, hle with
  | 0, _, _ => exact Nat.le_add_left 1 _
  | 1, _, _ => exact Nat.add_le_add_right (Nat.le_add_right 1 _) 1
  | 2, _, _ => exact Nat.add_le_add_right (Nat.le_add_right 2 _) 1
  | n + 3, hnear, _ =>
    have hb : n + 2 ≤ b := by
      have htall := hnear.1
      omega
    have hmono := fewest_mono hb
    rw [fewest]
    omega

theorem fewest_node {a b : Nat} (hnear : Near a b) :
    fewest (max a b + 1) ≤ fewest a + fewest b + 1 := by
  rcases le_total b a with hle | hle
  · rw [max_eq_left hle]
    exact fewest_over hnear hle
  · rw [max_eq_right hle, Nat.add_comm (fewest a)]
    exact fewest_over hnear.symm hle

theorem fewest_eq_fib : ∀ h : Nat, fewest (h + 2) + 1 = Nat.fib (h + 1) + Nat.fib (h + 3)
  | 0 => by decide
  | 1 => by decide
  | h + 2 => by
    have h₁ := fewest_eq_fib h
    have h₂ := fewest_eq_fib (h + 1)
    have hfib₁ : Nat.fib (h + 3) = Nat.fib (h + 1) + Nat.fib (h + 2) := Nat.fib_add_two
    have hfib₂ : Nat.fib (h + 5) = Nat.fib (h + 3) + Nat.fib (h + 4) := Nat.fib_add_two
    show fewest (h + 3) + fewest (h + 2) + 1 + 1 = Nat.fib (h + 3) + Nat.fib (h + 5)
    have h₂' : fewest (h + 3) + 1 = Nat.fib (h + 2) + Nat.fib (h + 4) := h₂
    omega

/-- Two levels more take more than twice the keys. -/
theorem two_pow_le_fewest : ∀ n : Nat, 2 ^ n ≤ (fewest n + 1) ^ 2
  | 0 => by decide
  | 1 => by decide
  | 2 => by decide
  | 3 => by decide
  | n + 4 => by
    have ih := two_pow_le_fewest (n + 2)
    have hdouble : 2 * (fewest (n + 2) + 1) ≤ fewest (n + 4) + 1 := by
      have hmono : fewest (n + 2) ≤ fewest (n + 3) := fewest_le_succ (n + 2)
      rw [fewest]
      omega
    calc 2 ^ (n + 4) = 2 ^ 2 * 2 ^ (n + 2) := by ring
      _ ≤ 2 ^ 2 * (fewest (n + 2) + 1) ^ 2 := Nat.mul_le_mul_left _ ih
      _ = (2 * (fewest (n + 2) + 1)) ^ 2 := by ring
      _ ≤ (fewest (n + 4) + 1) ^ 2 := Nat.pow_le_pow_left hdouble 2

/-! ## Keys and paths against levels -/

section Levels

variable {K V : Type*}

theorem fewest_le_size [Sha256] [AsBytes K] [Borrow V] : ∀ {t : NodeRef K V}, Cached t →
    Balanced t → fewest t.levels ≤ t.toList.length := by
  intro t
  induction t with
  | nil => intro _ _; exact Nat.zero_le _
  | node n l r ihl ihr =>
    rintro ⟨hn, hcl, hcr⟩ ⟨hwithin, hl, hr⟩
    have hnode := fewest_node ((withinOne_iff hcl hcr).mp hwithin)
    have hleft := ihl hcl hl
    have hright := ihr hcr hr
    rw [NodeRef.levels_node, NodeRef.toList_node, List.length_append, List.length_cons]
    omega

variable [LinearOrder K]

theorem length_pathTo_le (key : K) : ∀ t : NodeRef K V, (pathTo key t).length ≤ t.levels := by
  intro t
  induction t with
  | nil => exact Nat.zero_le _
  | node n l r ihl ihr =>
    rw [NodeRef.levels_node]
    rcases lt_trichotomy key n.key with hk | rfl | hk
    · rw [pathTo_lt hk, List.length_append, List.length_singleton]
      exact Nat.add_le_add_right (ihl.trans (le_max_left _ _)) 1
    · rw [pathTo_self]
      exact Nat.le_add_left 1 _
    · rw [pathTo_gt hk, List.length_append, List.length_singleton]
      exact Nat.add_le_add_right (ihr.trans (le_max_right _ _)) 1

variable [Sha256] [AsBytes K] [Borrow V]

/-- Every existence proof in an answer is a stored pair's. -/
theorem AvlTree.Valid.parts_of_getProof {t : AvlTree K V} (h : t.Valid) {key : K}
    {c : CommitmentProof} (hproof : t.getProof key = some c) {p : ExistenceProof}
    (hp : p ∈ parts c) : ∃ e ∈ t.root.toList, p = existenceProof t.root e := by
  rw [h.getProof_eq, Option.some.injEq] at hproof
  subst hproof
  unfold proofFor at hp
  cases hv : lookup key t.root.toList with
  | some value =>
    rw [hv] at hp
    exact ⟨(key, value), mem_of_lookup hv, List.mem_singleton.mp hp⟩
  | none =>
    rw [hv] at hp
    rcases List.mem_append.mp hp with hp | hp
    · obtain ⟨e, he, rfl⟩ := Option.map_eq_some_iff.mp (Option.mem_toList.mp hp)
      exact ⟨e, (pred_spec h.ordered he).1, rfl⟩
    · obtain ⟨e, he, rfl⟩ := Option.map_eq_some_iff.mp (Option.mem_toList.mp hp)
      exact ⟨e, (succ_spec h.ordered he).1, rfl⟩

/-- **A balanced tree is shallow, and its proofs are short.** In every run of insertions, and of
removals that do not break the balance, the tree of `n` keys that is reached has a root height `h`
with `fib h + fib (h + 2) ≤ n + 1`, and no path of any proof it answers with has more than
`2 * log₂ (n + 1)` ops. -/
theorem proof_length_le {ops : List (TreeOp K V)} {os : List (Option V)} {t : AvlTree K V}
    (hkeeps : Along AvlTree.exec KeepsBalance AvlTree.new ops)
    (hrun : runSteps AvlTree.exec AvlTree.new ops = some (os, t)) :
    (∀ n l r, t.root = .node n l r →
        Nat.fib n.height + Nat.fib (n.height + 2) ≤ t.getKeys.length + 1) ∧
      ∀ key c, t.getProof key = some c → ∀ p ∈ parts c,
        2 ^ p.path.length ≤ (t.getKeys.length + 1) ^ 2 := by
  have hv := AvlTree.valid_of_run hrun
  have hb : Balanced t.root :=
    (AvlTree.valid_new.staysBalanced_iff balanced_nil ops).mpr hkeeps ops os t
      (List.prefix_refl ops) hrun
  have hsize : fewest t.root.levels ≤ t.getKeys.length := by
    rw [AvlTree.getKeys_eq, List.length_map]
    exact fewest_le_size hv.cached hb
  constructor
  · intro n l r hroot
    have hheight : n.height = t.root.levels - 1 := by
      rw [← hv.cached.ht_eq, hroot, NodeRef.ht_node]
    rw [hheight]
    cases hlev : t.root.levels with
    | zero => rw [hroot] at hlev; simp at hlev
    | succ h =>
      rw [hlev] at hsize
      cases h with
      | zero => exact Nat.le_add_left 1 _
      | succ h =>
        have hfib : fewest (h + 1 + 1) + 1 = Nat.fib (h + 1) + Nat.fib (h + 3) := fewest_eq_fib h
        show Nat.fib (h + 1) + Nat.fib (h + 3) ≤ _
        omega
  · -- every path answered is one of the tree, which has no more ops than levels
    intro key c hproof p hp
    obtain ⟨e, -, rfl⟩ := hv.parts_of_getProof hproof hp
    calc 2 ^ (pathTo e.1 t.root).length ≤ 2 ^ t.root.levels :=
          Nat.pow_le_pow_right (by decide) (length_pathTo_le e.1 t.root)
      _ ≤ (fewest t.root.levels + 1) ^ 2 := two_pow_le_fewest _
      _ ≤ (t.getKeys.length + 1) ^ 2 := Nat.pow_le_pow_left (Nat.add_le_add_right hsize 1) 2

end Levels

section Three

attribute [local instance] elevenSha256 elevenAsBytes

/-- Four insertions, and a removal whose double rotation lifts a leaf. -/
def fourInserts : List (TreeOp Nat Bytes) := [10, 7, 3, 8].map fun key => .insert key []

/-- The removal shortens the left child, and the right one leans. -/
theorem keepsBalance_three : Along AvlTree.exec KeepsBalance AvlTree.new
    (fourInserts ++ [.remove 3]) := by
  have hinserts : Along AvlTree.exec KeepsBalance AvlTree.new fourInserts := by
    refine along_of_forall fun op hop t => ?_
    obtain ⟨key, -, rfl⟩ := List.mem_map.mp hop
    exact trivial
  refine along_append.mpr ⟨hinserts, fun os t hrun => ⟨?_, fun _ _ _ => trivial⟩⟩
  have hkeeps : (runSteps AvlTree.exec AvlTree.new fourInserts).map
      (fun r => decide (KeepsBalance r.2 (.remove 3))) = some true := by decide +kernel
  rw [hrun, Option.map_some, Option.some.injEq] at hkeeps
  exact of_decide_eq_true hkeeps

/-- Three keys are left. -/
theorem proof_length_le_three :
    ∃ os t, runSteps AvlTree.exec AvlTree.new (fourInserts ++ [.remove 3]) = some (os, t) ∧
      t.getKeys.length = 3 ∧
      (∀ n l r, t.root = .node n l r →
        Nat.fib n.height + Nat.fib (n.height + 2) ≤ t.getKeys.length + 1) ∧
      ∀ key c, t.getProof key = some c → ∀ p ∈ parts c,
        2 ^ p.path.length ≤ (t.getKeys.length + 1) ^ 2 := by
  have hlength : (runSteps AvlTree.exec AvlTree.new (fourInserts ++ [.remove 3])).map
      (fun r => r.2.getKeys.length) = some 3 := by decide +kernel
  obtain ⟨⟨os, t⟩, hrun, hthree⟩ := Option.map_eq_some_iff.mp hlength
  exact ⟨os, t, hrun, hthree, proof_length_le keepsBalance_three hrun⟩

end Three

end Basecoin.Avl
