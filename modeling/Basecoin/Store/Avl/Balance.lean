import Basecoin.Store.Avl.Tree
import Mathlib.Tactic.Common

/-!
# What rebalancing can do

`balance_node` is the one place where a tree is rearranged, and every operation ends in it. This
file says once what it can do, `Rebalanced`: nothing, a single or a double rotation, with the
guards under which each fires. The two facts the rest needs follow from that list:

* it keeps the in-order listing (`Rebalanced.toList_eq`);
* it leaves correct caches (`Rebalanced.cached`), because every node it moves is refreshed, the
  lowered one before the lifted one.

`balanceNode_spec` is the totality half: no `expect` fails *when the cached heights are right*.
The guards look at heights only, and a missing child and a leaf both count as 0 there, so the
existence of the grandchild lifted by a double rotation has to be read off the height of its
parent (`exists_right_of_height`).
-/

namespace Basecoin.Avl

variable {K V : Type*}

/-! ## Contents and caches -/

def NodeRef.toList : NodeRef K V → List (K × V)
  | .nil => []
  | .node n l r => l.toList ++ (n.key, n.value) :: r.toList

@[simp] theorem NodeRef.toList_nil : (nil : NodeRef K V).toList = [] := rfl

@[simp] theorem NodeRef.toList_node (n : AvlNode K V) (l r : NodeRef K V) :
    (node n l r).toList = l.toList ++ (n.key, n.value) :: r.toList := rfl

/-- A property of every node of a tree, stated with the node's own children. -/
def NodeRef.Forall (P : AvlNode K V → NodeRef K V → NodeRef K V → Prop) : NodeRef K V → Prop
  | .nil => True
  | .node n l r => P n l r ∧ l.Forall P ∧ r.Forall P

section Cached

variable [Sha256] [AsBytes K] [Borrow V]

/-- A node whose three cached fields are what its key, its value and its children determine. -/
structure Fresh (n : AvlNode K V) (l r : NodeRef K V) : Prop where
  hash : n.hash = localHash n.key n.value
  merkleHash : n.merkleHash = sha256 (l.childHash ++ n.hash.bytes ++ r.childHash)
  height : n.height = nodeHeight l r

/-- No cached field of the tree is stale. -/
def Cached (t : NodeRef K V) : Prop := t.Forall Fresh

@[simp] theorem cached_nil : Cached (.nil : NodeRef K V) := trivial

theorem cached_node {n : AvlNode K V} {l r : NodeRef K V} :
    Cached (.node n l r) ↔ Fresh n l r ∧ Cached l ∧ Cached r := Iff.rfl

/-- A node after `update`: the shape every rearranged node has. -/
def refreshed (n : AvlNode K V) (l r : NodeRef K V) : NodeRef K V := .node (n.update l r) l r

omit [AsBytes K] [Borrow V] in
@[simp] theorem toList_refreshed (n : AvlNode K V) (l r : NodeRef K V) :
    (refreshed n l r).toList = l.toList ++ (n.key, n.value) :: r.toList := by
  simp [refreshed]

omit [AsBytes K] [Borrow V] in
/-- Of two updates the last one counts. -/
theorem refreshed_update (n : AvlNode K V) (l r l' r' : NodeRef K V) :
    refreshed (n.update l r) l' r' = refreshed n l' r' := by
  rw [refreshed, AvlNode.update_update, refreshed]

/-- `update` makes a node fresh as soon as its local hash is right. -/
theorem fresh_update {n : AvlNode K V} (h : n.hash = localHash n.key n.value)
    (l r : NodeRef K V) : Fresh (n.update l r) l r := by
  refine ⟨?_, ?_, ?_⟩ <;> simp [AvlNode.update_eq, h]

theorem cached_refreshed {n : AvlNode K V} {l r : NodeRef K V}
    (h : n.hash = localHash n.key n.value) (hl : Cached l) (hr : Cached r) :
    Cached (refreshed n l r) :=
  cached_node.mpr ⟨fresh_update h l r, hl, hr⟩

/-- On a fresh node `update` has nothing to do. -/
theorem Fresh.refreshed_eq {n : AvlNode K V} {l r : NodeRef K V} (h : Fresh n l r) :
    refreshed n l r = .node n l r := by
  rw [refreshed, AvlNode.update_eq, ← h.merkleHash, ← h.height]

theorem cached_asNodeRef (key : K) (value : V) : Cached (asNodeRef key value) :=
  cached_node.mpr ⟨⟨rfl, rfl, rfl⟩, cached_nil, cached_nil⟩

@[simp] theorem toList_asNodeRef (key : K) (value : V) :
    (asNodeRef key value).toList = [(key, value)] := rfl

end Cached

/-! ## The rotations -/

section Rotations

variable [Sha256]

theorem rotateRight_node (n m : AvlNode K V) (ll lr r : NodeRef K V) :
    rotateRight (.node n (.node m ll lr) r) = some (refreshed m ll (refreshed n lr r)) := rfl

theorem rotateLeft_node (n m : AvlNode K V) (l rl rr : NodeRef K V) :
    rotateLeft (.node n l (.node m rl rr)) = some (refreshed m (refreshed n l rl) rr) := rfl

/-- A right rotation lifts the left child of the root, and panics where there is none. -/
theorem rotateRight_eq_some_iff {t u : NodeRef K V} : rotateRight t = some u ↔
    ∃ n m ll lr r, t = .node n (.node m ll lr) r ∧ u = refreshed m ll (refreshed n lr r) := by
  constructor
  · intro h
    cases t with
    | nil => cases h
    | node n l r =>
      cases l with
      | nil => cases h
      | node m ll lr => exact ⟨n, m, ll, lr, r, rfl, (Option.some.inj h).symm⟩
  · rintro ⟨n, m, ll, lr, r, rfl, rfl⟩
    exact rotateRight_node n m ll lr r

theorem rotateLeft_eq_some_iff {t u : NodeRef K V} : rotateLeft t = some u ↔
    ∃ n m l rl rr, t = .node n l (.node m rl rr) ∧ u = refreshed m (refreshed n l rl) rr := by
  constructor
  · intro h
    cases t with
    | nil => cases h
    | node n l r =>
      cases r with
      | nil => cases h
      | node m rl rr => exact ⟨n, m, l, rl, rr, rfl, (Option.some.inj h).symm⟩
  · rintro ⟨n, m, l, rl, rr, rfl, rfl⟩
    exact rotateLeft_node n m l rl rr

end Rotations

/-! ## The outcomes of `balance_node` -/

section Rebalanced

variable [Sha256]

/-- `Rebalanced t t'`: `t'` is what `balance_node` may leave in place of `t`. -/
inductive Rebalanced : NodeRef K V → NodeRef K V → Prop
  | keep {n : AvlNode K V} {l r : NodeRef K V}
      (hlo : -2 < balanceFactor l r) (hhi : balanceFactor l r < 2) :
      Rebalanced (.node n l r) (.node n l r)
  | right {n m : AvlNode K V} {ll lr r : NodeRef K V}
      (hbf : 2 ≤ balanceFactor (.node m ll lr) r) (hleft : 1 ≤ balanceFactor ll lr) :
      Rebalanced (.node n (.node m ll lr) r) (refreshed m ll (refreshed n lr r))
  | leftRight {n m x : AvlNode K V} {ll xl xr r : NodeRef K V}
      (hbf : 2 ≤ balanceFactor (.node m ll (.node x xl xr)) r)
      (hleft : balanceFactor ll (.node x xl xr) < 1) :
      Rebalanced (.node n (.node m ll (.node x xl xr)) r)
        (refreshed x (refreshed m ll xl) (refreshed n xr r))
  | left {n m : AvlNode K V} {l rl rr : NodeRef K V}
      (hbf : balanceFactor l (.node m rl rr) ≤ -2) (hright : balanceFactor rl rr ≤ -1) :
      Rebalanced (.node n l (.node m rl rr)) (refreshed m (refreshed n l rl) rr)
  | rightLeft {n m x : AvlNode K V} {l xl xr rr : NodeRef K V}
      (hbf : balanceFactor l (.node m (.node x xl xr) rr) ≤ -2)
      (hright : -1 < balanceFactor (.node x xl xr) rr) :
      Rebalanced (.node n l (.node m (.node x xl xr) rr))
        (refreshed x (refreshed n l xl) (refreshed m xr rr))

theorem Rebalanced.toList_eq {t t' : NodeRef K V} (h : Rebalanced t t') :
    t'.toList = t.toList := by
  cases h <;> simp

theorem Rebalanced.cached [AsBytes K] [Borrow V] {t t' : NodeRef K V} (h : Rebalanced t t')
    (hc : Cached t) : Cached t' := by
  cases h with
  | keep => exact hc
  | right =>
    obtain ⟨hn, ⟨hm, hll, hlr⟩, hr⟩ := hc
    exact cached_refreshed hm.hash hll (cached_refreshed hn.hash hlr hr)
  | leftRight =>
    obtain ⟨hn, ⟨hm, hll, hx, hxl, hxr⟩, hr⟩ := hc
    exact cached_refreshed hx.hash (cached_refreshed hm.hash hll hxl)
      (cached_refreshed hn.hash hxr hr)
  | left =>
    obtain ⟨hn, hl, hm, hrl, hrr⟩ := hc
    exact cached_refreshed hm.hash (cached_refreshed hn.hash hl hrl) hrr
  | rightLeft =>
    obtain ⟨hn, hl, hm, ⟨hx, hxl, hxr⟩, hrr⟩ := hc
    exact cached_refreshed hx.hash (cached_refreshed hn.hash hl hxl)
      (cached_refreshed hm.hash hxr hrr)

/-! ## Totality -/

omit [Sha256] in
/-- A node of height at least 2 that does not lean left has a right child: the height comes from
its taller child, and a missing one would count as 0. -/
theorem exists_right_of_height {l r : NodeRef K V} (hh : 2 ≤ nodeHeight l r)
    (hbf : balanceFactor l r < 1) : ∃ x xl xr, r = .node x xl xr := by
  cases r with
  | node x xl xr => exact ⟨x, xl, xr, rfl⟩
  | nil =>
    rw [balanceFactor_eq] at hbf
    cases l with
    | nil => simp [nodeHeight] at hh
    | node y yl yr => simp [nodeHeight] at hh hbf; omega

omit [Sha256] in
theorem exists_left_of_height {l r : NodeRef K V} (hh : 2 ≤ nodeHeight l r)
    (hbf : -1 < balanceFactor l r) : ∃ x xl xr, l = .node x xl xr := by
  cases l with
  | node x xl xr => exact ⟨x, xl, xr, rfl⟩
  | nil =>
    rw [balanceFactor_eq] at hbf
    cases r with
    | nil => simp [nodeHeight] at hh
    | node y yl yr => simp [nodeHeight] at hh hbf; omega

variable [AsBytes K] [Borrow V]

/-- **`balance_node` on a tree with correct caches never panics**, and does one of the five
things `Rebalanced` lists. -/
theorem balanceNode_spec {n : AvlNode K V} {l r : NodeRef K V} (hl : Cached l) (hr : Cached r) :
    ∃ t', balanceNode (.node n l r) = some t' ∧ Rebalanced (.node n l r) t' := by
  by_cases hhi : balanceFactor l r ≥ 2
  · cases l with
    | nil => rw [balanceFactor_eq] at hhi; simp at hhi; omega
    | node m ll lr =>
      have hm : 2 ≤ m.height := by rw [balanceFactor_eq] at hhi; simp at hhi; omega
      simp only [balanceNode, if_pos hhi]
      by_cases hlean : balanceFactor ll lr < 1
      · obtain ⟨x, xl, xr, rfl⟩ := exists_right_of_height (hl.1.height ▸ hm) hlean
        refine ⟨refreshed x (refreshed m ll xl) (refreshed n xr r), ?_, .leftRight hhi hlean⟩
        simp [if_pos hlean, rotateLeft_node, rotateRight_node, refreshed]
      · exact ⟨refreshed m ll (refreshed n lr r), by simp [if_neg hlean, rotateRight_node, refreshed],
          .right hhi (by omega)⟩
  · by_cases hlo : balanceFactor l r ≤ -2
    · cases r with
      | nil => rw [balanceFactor_eq] at hlo; simp at hlo; omega
      | node m rl rr =>
        have hm : 2 ≤ m.height := by rw [balanceFactor_eq] at hlo; simp at hlo; omega
        simp only [balanceNode, if_neg hhi, if_pos hlo]
        by_cases hlean : balanceFactor rl rr > -1
        · obtain ⟨x, xl, xr, rfl⟩ := exists_left_of_height (hr.1.height ▸ hm) hlean
          refine ⟨refreshed x (refreshed n l xl) (refreshed m xr rr), ?_, .rightLeft hlo hlean⟩
          simp [if_pos hlean, rotateLeft_node, rotateRight_node, refreshed]
        · exact ⟨refreshed m (refreshed n l rl) rr, by simp [if_neg hlean, rotateLeft_node, refreshed],
            .left hlo (by omega)⟩
    · exact ⟨.node n l r, by simp only [balanceNode, if_neg hhi, if_neg hlo],
        .keep (by omega) (by omega)⟩

/-- The tail of every descent: from a right local hash and well-cached children it succeeds,
leaves a well-cached node, and lists the children around the pair. -/
theorem updateBalance_spec {n : AvlNode K V} {l r : NodeRef K V}
    (h : n.hash = localHash n.key n.value) (hl : Cached l) (hr : Cached r) :
    ∃ t', updateBalance n l r = some t' ∧ Rebalanced (refreshed n l r) t' ∧ Cached t' ∧
      t'.toList = l.toList ++ (n.key, n.value) :: r.toList := by
  obtain ⟨t', ht', hreb⟩ := balanceNode_spec (n := n.update l r) hl hr
  exact ⟨t', ht', hreb, hreb.cached (cached_refreshed h hl hr), by simp [hreb.toList_eq]⟩

end Rebalanced

end Basecoin.Avl
