import Basecoin.Store.Avl.Refine
import Mathlib.Data.Set.Function

/-!
# The order of insertions shows in the root

The shape of the tree depends on the order in which its keys came. What can be said of every
shape is that a key inserted last sits in a childless node: `insert_rec` puts it there, and
`balance_node` lifts only nodes of height at least 1 (`Rebalanced.leafAt`). In a tree of two keys
or more it is therefore not the root's key, and the root's key and value can be read off the root
hash, as long as SHA-256 has no collision among the strings the trees hash.
-/

namespace Basecoin.Avl

open Lib Lib.SortedMap

variable {K V : Type*}

/-! ## Childless nodes -/

/-- A node of this key has no children. -/
def LeafAt (key : K) (t : NodeRef K V) : Prop :=
  t.Forall fun n l r => n.key = key → l = .nil ∧ r = .nil

theorem leafAt_node {key : K} {n : AvlNode K V} {l r : NodeRef K V} :
    LeafAt key (.node n l r) ↔
      (n.key = key → l = .nil ∧ r = .nil) ∧ LeafAt key l ∧ LeafAt key r := Iff.rfl

theorem leafAt_of_notMem {key : K} : ∀ {t : NodeRef K V}, (∀ e ∈ t.toList, e.1 ≠ key) →
    LeafAt key t := by
  intro t
  induction t with
  | nil => intro _; exact trivial
  | node n l r ihl ihr =>
    intro h
    simp only [NodeRef.toList_node, List.mem_append, List.mem_cons] at h
    refine leafAt_node.mpr ⟨fun hn => ?_, ihl fun e he => h e (.inl he),
      ihr fun e he => h e (.inr (.inr he))⟩
    exact absurd hn (h _ (.inr (.inl rfl)))

theorem LeafAt.ne_of_left {key : K} {n m : AvlNode K V} {ml mr r : NodeRef K V}
    (h : LeafAt key (.node n (.node m ml mr) r)) : n.key ≠ key := by
  intro hn
  have hnil := (h.1 hn).1
  simp at hnil

theorem LeafAt.ne_of_right {key : K} {n m : AvlNode K V} {l ml mr : NodeRef K V}
    (h : LeafAt key (.node n l (.node m ml mr))) : n.key ≠ key := by
  intro hn
  have hnil := (h.1 hn).2
  simp at hnil

section Rebalance

variable [Sha256]

theorem leafAt_refreshed {key : K} {n : AvlNode K V} {l r : NodeRef K V} (hn : n.key ≠ key)
    (hl : LeafAt key l) (hr : LeafAt key r) : LeafAt key (refreshed n l r) := by
  refine leafAt_node.mpr ⟨fun h => ?_, hl, hr⟩
  rw [AvlNode.update_key] at h
  exact absurd h hn

variable [AsBytes K] [Borrow V]

/-- Rebalancing keeps a childless node childless: the nodes it gives new children had some, or
are lifted for their height. -/
theorem Rebalanced.leafAt {key : K} {t t' : NodeRef K V} (h : Rebalanced t t') (hc : Cached t)
    (hk : LeafAt key t) : LeafAt key t' := by
  cases h with
  | keep => exact hk
  | @right n m ll lr r hbf hleft =>
    obtain ⟨-, hkm, hkr⟩ := id hk
    -- the lifted node leans left, so it has a child
    have hm : m.key ≠ key := by
      intro hm
      obtain ⟨rfl, rfl⟩ := hkm.1 hm
      simp [balanceFactor_eq] at hleft
    exact leafAt_refreshed hm hkm.2.1 (leafAt_refreshed hk.ne_of_left hkm.2.2 hkr)
  | @leftRight n m x ll xl xr r hbf hleft =>
    obtain ⟨-, hkm, hkr⟩ := id hk
    obtain ⟨-, ⟨hm, -, hx, -, -⟩, -⟩ := hc
    -- a lifted leaf would leave its parent at height 1
    have hkx : x.key ≠ key := by
      intro hkx
      obtain ⟨rfl, rfl⟩ := hkm.2.2.1 hkx
      have hxh : x.height = 0 := hx.height
      have hmh : m.height = max ll.ht x.height + 1 := by
        rw [hm.height]
        cases ll <;> rfl
      rw [balanceFactor_eq] at hbf hleft
      simp only [NodeRef.ht_node] at hbf hleft
      omega
    exact leafAt_refreshed hkx (leafAt_refreshed (LeafAt.ne_of_right hkm) hkm.2.1 hkm.2.2.2.1)
      (leafAt_refreshed hk.ne_of_left hkm.2.2.2.2 hkr)
  | @left n m l rl rr hbf hright =>
    obtain ⟨-, hkl, hkm⟩ := id hk
    have hm : m.key ≠ key := by
      intro hm
      obtain ⟨rfl, rfl⟩ := hkm.1 hm
      simp [balanceFactor_eq] at hright
    exact leafAt_refreshed hm (leafAt_refreshed hk.ne_of_right hkl hkm.2.1) hkm.2.2
  | @rightLeft n m x l xl xr rr hbf hright =>
    obtain ⟨-, hkl, hkm⟩ := id hk
    obtain ⟨-, -, hm, ⟨hx, -, -⟩, -⟩ := hc
    have hkx : x.key ≠ key := by
      intro hkx
      obtain ⟨rfl, rfl⟩ := hkm.2.1.1 hkx
      have hxh : x.height = 0 := hx.height
      have hmh : m.height = max x.height rr.ht + 1 := hm.height
      rw [balanceFactor_eq] at hbf hright
      simp only [NodeRef.ht_node] at hbf hright
      omega
    exact leafAt_refreshed hkx (leafAt_refreshed hk.ne_of_right hkl hkm.2.1.2.1)
      (leafAt_refreshed (LeafAt.ne_of_left hkm) hkm.2.1.2.2 hkm.2.2)

/-! ## The key inserted last -/

variable [LinearOrder K]

theorem insertRec_leafAt (key : K) (value : V) : ∀ {t : NodeRef K V}, Cached t →
    Sorted t.toList → (∀ e ∈ t.toList, e.1 ≠ key) → ∀ {old : Option V} {t' : NodeRef K V},
    insertRec key value t = some (old, t') → LeafAt key t' := by
  intro t
  induction t with
  | nil =>
    intro _ _ _ old t' h
    obtain ⟨-, rfl⟩ := Prod.mk.inj (Option.some.inj h)
    exact leafAt_node.mpr ⟨fun _ => ⟨rfl, rfl⟩, trivial, trivial⟩
  | node n l r ihl ihr =>
    rintro ⟨hn, hcl, hcr⟩ hs habsent old t' h
    rw [NodeRef.toList_node] at hs
    obtain ⟨hsl, hsr, _, _⟩ := sorted_middle.mp hs
    simp only [NodeRef.toList_node, List.mem_append, List.mem_cons] at habsent
    have hl : ∀ e ∈ l.toList, e.1 ≠ key := fun e he => habsent e (.inl he)
    have hr : ∀ e ∈ r.toList, e.1 ≠ key := fun e he => habsent e (.inr (.inr he))
    have hnk : n.key ≠ key := habsent _ (.inr (.inl rfl))
    simp only [insertRec] at h
    cases hc : compare n.key key with
    | lt =>
      obtain ⟨r', hr', hcr', -⟩ := insertRec_spec key value r hcr hsr
      obtain ⟨t₁, ht₁, hreb, -, -⟩ := updateBalance_spec hn.hash hcl hcr'
      rw [hc] at h
      simp only [hr', Option.bind_some, ht₁, Option.map_some, Option.some.injEq,
        Prod.mk.injEq] at h
      obtain ⟨-, rfl⟩ := h
      -- a rotation lifts nodes with a child, so the new one stays childless
      exact hreb.leafAt (cached_refreshed hn.hash hcl hcr')
        (leafAt_refreshed hnk (leafAt_of_notMem hl) (ihr hcr hsr hr hr'))
    | gt =>
      obtain ⟨l', hl', hcl', -⟩ := insertRec_spec key value l hcl hsl
      obtain ⟨t₁, ht₁, hreb, -, -⟩ := updateBalance_spec hn.hash hcl' hcr
      rw [hc] at h
      simp only [hl', Option.bind_some, ht₁, Option.map_some, Option.some.injEq,
        Prod.mk.injEq] at h
      obtain ⟨-, rfl⟩ := h
      exact hreb.leafAt (cached_refreshed hn.hash hcl' hcr)
        (leafAt_refreshed hnk (ihl hcl hsl hl hl') (leafAt_of_notMem hr))
    | eq => exact absurd (compare_eq_iff_eq.mp hc) hnk

/-- In a tree that holds other keys, a key inserted for the first time is not the root's. -/
theorem AvlTree.Valid.root_insert_ne {t t' : AvlTree K V} (h : t.Valid) {key k₀ : K} {value : V}
    {old : Option V} (hins : t.insert key value = some (old, t')) (habsent : t.get key = none)
    (hother : t.get k₀ ≠ none) {n : AvlNode K V} {l r : NodeRef K V}
    (hroot : t'.root = .node n l r) : n.key ≠ key := by
  have hfresh : ∀ e ∈ t.root.toList, e.1 ≠ key := by
    intro e he heq
    rw [h.get_eq, ← heq, (lookup_eq_some h.ordered).mpr he] at habsent
    simp at habsent
  have hleaf : LeafAt key t'.root := by
    obtain ⟨⟨o, root⟩, hrec, heq⟩ := Option.map_eq_some_iff.mp hins
    obtain ⟨-, rfl⟩ := Prod.mk.inj heq
    exact insertRec_leafAt key value h.cached h.ordered hfresh hrec
  intro hn
  -- otherwise it is the only key
  rw [hroot] at hleaf
  obtain ⟨rfl, rfl⟩ := hleaf.1 hn
  obtain ⟨t₁, ht₁, hv, hlist⟩ := h.insert key value
  obtain ⟨-, rfl⟩ := Prod.mk.inj (Option.some.inj (ht₁.symm.trans hins))
  have hne : k₀ ≠ key := by
    rintro rfl
    exact hother habsent
  have hmem : k₀ ∈ t₁.getKeys := by
    rw [hv.mem_getKeys, h.get_of_insert hv hlist, if_neg hne]
    exact hother
  rw [getKeys_eq, hroot] at hmem
  simp [hn, hne] at hmem

end Rebalance

/-! ## What a root hash determines -/

section Root

variable [Sha256] [AsBytes K] [Borrow V]

/-- The strings hashed for the nodes of a tree. -/
def NodeRef.hashed : NodeRef K V → Set Bytes
  | .nil => ∅
  | .node n l r =>
    {leafPrefix ++ asBytes n.key ++ borrow n.value, l.childHash ++ n.hash.bytes ++ r.childHash} ∪
      (l.hashed ∪ r.hashed)

/-- Without collisions among the strings two trees hash, equal merkle hashes come from equal
pieces, the pair at the root as far as the leaf encoding tells keys from values. -/
theorem pieces_of_merkleHash {S : Set Bytes} (hinj : Set.InjOn sha256 S) {n n' : AvlNode K V}
    {l r l' r' : NodeRef K V} (hc : Cached (.node n l r)) (hc' : Cached (.node n' l' r'))
    (hS : (NodeRef.node n l r).hashed ⊆ S) (hS' : (NodeRef.node n' l' r').hashed ⊆ S)
    (h : n.merkleHash = n'.merkleHash) :
    l.childHash = l'.childHash ∧
      asBytes n.key ++ borrow n.value = asBytes n'.key ++ borrow n'.value ∧
      r.childHash = r'.childHash := by
  rw [hc.1.merkleHash, hc'.1.merkleHash] at h
  have hinner := hinj (hS (.inl (.inr rfl))) (hS' (.inl (.inr rfl))) h
  -- three pieces of 32 bytes each
  obtain ⟨hleft, hright⟩ := List.append_inj hinner (by simp [n.hash.length_eq, n'.hash.length_eq])
  obtain ⟨hleft, hmiddle⟩ := List.append_inj hleft (by simp)
  have hhash : n.hash = n'.hash := Hash.ext hmiddle
  rw [hc.1.hash, hc'.1.hash] at hhash
  have hleaf := hinj (hS (.inl (.inl rfl))) (hS' (.inl (.inl rfl))) hhash
  rw [List.append_assoc, List.append_assoc] at hleaf
  exact ⟨hleft, List.append_cancel_left hleaf, hright⟩

end Root

end Basecoin.Avl
