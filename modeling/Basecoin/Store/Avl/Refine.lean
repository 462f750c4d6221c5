import Basecoin.Store.Avl.Balance
import Basecoin.Lib.Run
import Basecoin.Lib.SortedMap
import Mathlib.Logic.Function.Basic

/-!
# The tree is a finite map, and its caches are never stale

One spec lemma per operation, each giving three things at once: the operation returns (no
`expect` fails), the caches of the result are correct, and the in-order listing changes as the
sorted association list of `Lib.SortedMap` does. Order is not an invariant of the rotations at
all: they keep the listing, so "the keys strictly increase" is a property of the listing alone.

`avl_refines_map` and `avl_cached` are the two results over whole runs from `AvlTree::new`.
-/

namespace Basecoin.Avl

open Lib Lib.SortedMap

variable {K V : Type*} [LinearOrder K]

/-! ## Reading -/

theorem getRec_eq_lookup (key : K) : ∀ (t : NodeRef K V), Sorted t.toList →
    getRec key t = lookup key t.toList := by
  intro t
  induction t with
  | nil => intro _; rfl
  | node n l r ihl ihr =>
    intro hs
    rw [NodeRef.toList_node] at hs ⊢
    obtain ⟨hsl, hsr, _, _⟩ := sorted_middle.mp hs
    simp only [getRec]
    cases hc : compare n.key key with
    | lt =>
      have hlt : n.key < key := compare_lt_iff_lt.mp hc
      rw [lookup_middle_gt hs hlt]
      exact ihr hsr
    | gt =>
      have hgt : key < n.key := compare_gt_iff_gt.mp hc
      rw [lookup_middle_lt hs hgt]
      exact ihl hsl
    | eq =>
      obtain rfl : n.key = key := compare_eq_iff_eq.mp hc
      exact (lookup_middle_eq hs).symm

omit [LinearOrder K] in
theorem getKeysRec_eq : ∀ (t : NodeRef K V) (keys : List K),
    getKeysRec t keys = keys ++ t.toList.map Prod.fst := by
  intro t
  induction t with
  | nil => intro keys; simp [getKeysRec]
  | node n l r ihl ihr => intro keys; simp [getKeysRec, ihl, ihr]

section Write

variable [Sha256] [AsBytes K] [Borrow V]

/-! ## Insertion -/

theorem insertRec_spec (key : K) (value : V) : ∀ (t : NodeRef K V), Cached t → Sorted t.toList →
    ∃ t', insertRec key value t = some (lookup key t.toList, t') ∧ Cached t' ∧
      t'.toList = SortedMap.insert key value t.toList := by
  intro t
  induction t with
  | nil => intro _ _; exact ⟨_, rfl, cached_asNodeRef key value, rfl⟩
  | node n l r ihl ihr =>
    rintro ⟨hn, hcl, hcr⟩ hs
    rw [NodeRef.toList_node] at hs ⊢
    obtain ⟨hsl, hsr, _, _⟩ := sorted_middle.mp hs
    simp only [insertRec]
    cases hc : compare n.key key with
    | lt =>
      have hlt : n.key < key := compare_lt_iff_lt.mp hc
      obtain ⟨r', hr', hcr', hlist⟩ := ihr hcr hsr
      obtain ⟨t', ht', _, hct', hlist'⟩ := updateBalance_spec hn.hash hcl hcr'
      refine ⟨t', ?_, hct', ?_⟩
      · simp [hr', ht', lookup_middle_gt hs hlt]
      · rw [hlist', hlist, insert_middle_gt hs hlt]
    | gt =>
      have hgt : key < n.key := compare_gt_iff_gt.mp hc
      obtain ⟨l', hl', hcl', hlist⟩ := ihl hcl hsl
      obtain ⟨t', ht', _, hct', hlist'⟩ := updateBalance_spec hn.hash hcl' hcr
      refine ⟨t', ?_, hct', ?_⟩
      · simp [hl', ht', lookup_middle_lt hs hgt]
      · rw [hlist', hlist, insert_middle_lt hgt]
    | eq =>
      obtain rfl : n.key = key := compare_eq_iff_eq.mp hc
      -- the node keeps its key and children, and is balanced all the same
      obtain ⟨t', ht', _, hct', hlist'⟩ :=
        updateBalance_spec (n := (n.setValue value).2) (l := l) (r := r) rfl hcl hcr
      refine ⟨t', ?_, hct', ?_⟩
      · rw [lookup_middle_eq hs]
        simp only [AvlNode.setValue] at ht' ⊢
        simp [ht']
      · rw [hlist', insert_middle_eq hs rfl]
        rfl

/-! ## Removal -/

omit [LinearOrder K] in
/-- `remove_leftmost` detaches the first pair of the listing as a childless node. -/
theorem removeLeftmost_spec : ∀ (t : NodeRef K V), Cached t → t ≠ .nil →
    ∃ m t', removeLeftmost t = some (.node m .nil .nil, t') ∧
      m.hash = localHash m.key m.value ∧ Cached t' ∧
      t.toList = (m.key, m.value) :: t'.toList := by
  intro t
  induction t with
  | nil => intro _ hne; exact absurd rfl hne
  | node n l r ihl _ =>
    rintro ⟨hn, hcl, hcr⟩ _
    cases l with
    | nil => exact ⟨n, r, rfl, hn.hash, hcr, rfl⟩
    | node m ll lr =>
      obtain ⟨x, l', hl', hx, hcl', hlist⟩ := ihl hcl (by simp)
      obtain ⟨t', ht', _, hct', hlist'⟩ := updateBalance_spec hn.hash hcl' hcr
      refine ⟨x, t', by simp [removeLeftmost, hl', ht'], hx, hct', ?_⟩
      rw [NodeRef.toList_node, hlist, hlist', List.cons_append]

omit [LinearOrder K] in
theorem removeRightmost_spec : ∀ (t : NodeRef K V), Cached t → t ≠ .nil →
    ∃ m t', removeRightmost t = some (.node m .nil .nil, t') ∧
      m.hash = localHash m.key m.value ∧ Cached t' ∧
      t.toList = t'.toList ++ [(m.key, m.value)] := by
  intro t
  induction t with
  | nil => intro _ hne; exact absurd rfl hne
  | node n l r _ ihr =>
    rintro ⟨hn, hcl, hcr⟩ _
    cases r with
    | nil => exact ⟨n, l, rfl, hn.hash, hcl, by simp⟩
    | node m rl rr =>
      obtain ⟨x, r', hr', hx, hcr', hlist⟩ := ihr hcr (by simp)
      obtain ⟨t', ht', _, hct', hlist'⟩ := updateBalance_spec hn.hash hcl hcr'
      refine ⟨x, t', by simp [removeRightmost, hr', ht'], hx, hct', ?_⟩
      rw [NodeRef.toList_node, hlist, hlist']
      simp

omit [LinearOrder K] in
/-- The substitute lists what is left once the root is gone; when it is a node, its local hash
and its children are right, so `update` is all it needs. -/
theorem removeRootSubstitute_spec {n : AvlNode K V} {l r : NodeRef K V} (hl : Cached l)
    (hr : Cached r) :
    ∃ s, removeRootSubstitute n l r = some (s, .node n .nil .nil) ∧
      s.toList = l.toList ++ r.toList ∧
      ∀ m a b, s = .node m a b → m.hash = localHash m.key m.value ∧ Cached a ∧ Cached b := by
  cases r with
  | nil =>
    refine ⟨l, rfl, by simp, ?_⟩
    rintro m a b rfl
    exact ⟨hl.1.hash, hl.2.1, hl.2.2⟩
  | node y yl yr =>
    cases l with
    | nil =>
      refine ⟨.node y yl yr, rfl, rfl, ?_⟩
      rintro m a b ⟨⟩
      exact ⟨hr.1.hash, hr.2.1, hr.2.2⟩
    | node x xl xr =>
      by_cases hbf : balanceFactor (.node x xl xr) (.node y yl yr) ≤ 0
      · obtain ⟨m, r', hr', hm, hcr', hlist⟩ := removeLeftmost_spec _ hr (by simp)
        refine ⟨.node m (.node x xl xr) r', ?_, by rw [NodeRef.toList_node, hlist], ?_⟩
        · simp [removeRootSubstitute, NodeRef.isNone, if_pos hbf, hr']
        · rintro _ _ _ ⟨⟩
          exact ⟨hm, hl, hcr'⟩
      · obtain ⟨m, l', hl', hm, hcl', hlist⟩ := removeRightmost_spec _ hl (by simp)
        refine ⟨.node m l' (.node y yl yr), ?_, ?_, ?_⟩
        · simp [removeRootSubstitute, NodeRef.isNone, if_neg hbf, hl']
        · rw [NodeRef.toList_node, hlist, List.append_assoc, List.singleton_append]
        · rintro _ _ _ ⟨⟩
          exact ⟨hm, hcl', hr⟩

omit [LinearOrder K] in
theorem removeRoot_spec {n : AvlNode K V} {l r : NodeRef K V} (hl : Cached l) (hr : Cached r) :
    ∃ t', removeRoot (.node n l r) = some (.node n .nil .nil, t') ∧ Cached t' ∧
      t'.toList = l.toList ++ r.toList := by
  obtain ⟨s, hs, hlist, hnode⟩ := removeRootSubstitute_spec (n := n) hl hr
  cases s with
  | nil => exact ⟨.nil, by simp [removeRoot, hs], cached_nil, hlist⟩
  | node m a b =>
    obtain ⟨hm, ha, hb⟩ := hnode m a b rfl
    obtain ⟨t', ht', _, hct', hlist'⟩ := updateBalance_spec hm ha hb
    exact ⟨t', by simp [removeRoot, hs, ht'], hct', by rw [hlist', ← hlist, NodeRef.toList_node]⟩

omit [LinearOrder K] in
/-- The last step of `remove_rec` changes no contents and refreshes what a removal made stale. -/
theorem removeUpdate_spec (removed t : NodeRef K V)
    (hnil : removed = .nil → Cached t)
    (hnode : ∀ m a b, t = .node m a b → m.hash = localHash m.key m.value ∧ Cached a ∧ Cached b) :
    ∃ t', removeUpdate removed t = some (removed, t') ∧ Cached t' ∧ t'.toList = t.toList := by
  cases t with
  | nil => exact ⟨.nil, rfl, cached_nil, rfl⟩
  | node m a b =>
    cases removed with
    | nil => exact ⟨.node m a b, rfl, hnil rfl, rfl⟩
    | node x xl xr =>
      obtain ⟨hm, ha, hb⟩ := hnode m a b rfl
      obtain ⟨t', ht', _, hct', hlist⟩ := updateBalance_spec hm ha hb
      exact ⟨t', by simp [removeUpdate, NodeRef.isNone, ht'], hct', hlist⟩

theorem removeRec_spec (key : K) : ∀ (t : NodeRef K V), Cached t → Sorted t.toList →
    ∃ removed t', removeRec key t = some (removed, t') ∧
      removed.value? = lookup key t.toList ∧ (removed = .nil → t' = t) ∧ Cached t' ∧
      t'.toList = erase key t.toList := by
  intro t
  induction t with
  | nil => intro _ _; exact ⟨.nil, .nil, rfl, rfl, fun _ => rfl, cached_nil, rfl⟩
  | node n l r ihl ihr =>
    rintro ⟨hn, hcl, hcr⟩ hs
    rw [NodeRef.toList_node] at hs
    obtain ⟨hsl, hsr, _, _⟩ := sorted_middle.mp hs
    simp only [removeRec, NodeRef.toList_node]
    cases hc : compare n.key key with
    | lt =>
      have hlt : n.key < key := compare_lt_iff_lt.mp hc
      obtain ⟨removed, r', hr', hval, hsame, hcr', hlist⟩ := ihr hcr hsr
      obtain ⟨t', ht', hct', hlist'⟩ :=
        removeUpdate_spec removed (.node n l r')
          (fun h => by rw [hsame h]; exact ⟨hn, hcl, hcr⟩)
          (by rintro _ _ _ ⟨⟩; exact ⟨hn.hash, hcl, hcr'⟩)
      refine ⟨removed, t', by simp [hr', ht'], by rw [hval, lookup_middle_gt hs hlt], ?_, hct', ?_⟩
      · rintro rfl
        simpa [removeUpdate, NodeRef.isNone, hsame rfl] using ht'.symm
      · rw [hlist', NodeRef.toList_node, hlist, erase_middle_gt hs hlt]
    | gt =>
      have hgt : key < n.key := compare_gt_iff_gt.mp hc
      obtain ⟨removed, l', hl', hval, hsame, hcl', hlist⟩ := ihl hcl hsl
      obtain ⟨t', ht', hct', hlist'⟩ :=
        removeUpdate_spec removed (.node n l' r)
          (fun h => by rw [hsame h]; exact ⟨hn, hcl, hcr⟩)
          (by rintro _ _ _ ⟨⟩; exact ⟨hn.hash, hcl', hcr⟩)
      refine ⟨removed, t', by simp [hl', ht'], by rw [hval, lookup_middle_lt hs hgt], ?_, hct', ?_⟩
      · rintro rfl
        simpa [removeUpdate, NodeRef.isNone, hsame rfl] using ht'.symm
      · rw [hlist', NodeRef.toList_node, hlist, erase_middle_lt hs hgt]
    | eq =>
      obtain rfl : n.key = key := compare_eq_iff_eq.mp hc
      obtain ⟨s, hs', hcs, hlist⟩ := removeRoot_spec (n := n) hcl hcr
      obtain ⟨t', ht', hct', hlist'⟩ :=
        removeUpdate_spec (.node n .nil .nil) s (fun _ => hcs)
          (by rintro m a b rfl; exact ⟨hcs.1.hash, hcs.2.1, hcs.2.2⟩)
      refine ⟨.node n .nil .nil, t', by simp [hs', ht'], ?_, fun h => absurd h (by simp), hct', ?_⟩
      · rw [lookup_middle_eq hs]; rfl
      · rw [hlist', hlist]
        exact (erase_middle_eq hs).symm

/-! ## The tree -/

/-- What every reachable tree satisfies: the keys strictly increase and no cache is stale. -/
structure AvlTree.Valid (t : AvlTree K V) : Prop where
  ordered : Sorted t.root.toList
  cached : Cached t.root

namespace AvlTree

variable {t : AvlTree K V}

theorem valid_new : (new : AvlTree K V).Valid := ⟨List.Pairwise.nil, cached_nil⟩

theorem Valid.get_eq (h : t.Valid) (key : K) : t.get key = lookup key t.root.toList :=
  getRec_eq_lookup key t.root h.ordered

omit [LinearOrder K] [Sha256] [AsBytes K] [Borrow V] in
theorem getKeys_eq (t : AvlTree K V) : t.getKeys = t.root.toList.map Prod.fst := by
  simp [getKeys, getKeysRec_eq]

theorem Valid.getKeys_sorted (h : t.Valid) : t.getKeys.Pairwise (· < ·) := by
  rw [getKeys_eq, List.pairwise_map]
  exact h.ordered

theorem Valid.mem_getKeys (h : t.Valid) {key : K} : key ∈ t.getKeys ↔ t.get key ≠ none := by
  rw [getKeys_eq, h.get_eq, mem_keys_iff]

theorem Valid.insert (h : t.Valid) (key : K) (value : V) :
    ∃ t', t.insert key value = some (t.get key, t') ∧ t'.Valid ∧
      t'.root.toList = SortedMap.insert key value t.root.toList := by
  obtain ⟨root, hroot, hc, hlist⟩ := insertRec_spec key value t.root h.cached h.ordered
  exact ⟨⟨root⟩, by simp [AvlTree.insert, hroot, h.get_eq],
    ⟨hlist ▸ sorted_insert h.ordered, hc⟩, hlist⟩

theorem Valid.remove (h : t.Valid) (key : K) :
    ∃ t', t.remove key = some (t.get key, t') ∧ t'.Valid ∧
      t'.root.toList = erase key t.root.toList := by
  obtain ⟨removed, root, hroot, hval, _, hc, hlist⟩ :=
    removeRec_spec key t.root h.cached h.ordered
  exact ⟨⟨root⟩, by simp [AvlTree.remove, hroot, hval, h.get_eq],
    ⟨hlist ▸ sorted_erase h.ordered, hc⟩, hlist⟩

theorem Valid.get_of_insert {t' : AvlTree K V} (h : t.Valid) (h' : t'.Valid) {key : K} {value : V}
    (hlist : t'.root.toList = SortedMap.insert key value t.root.toList) (k : K) :
    t'.get k = if k = key then some value else t.get k := by
  rw [h'.get_eq, hlist, lookup_insert h.ordered, h.get_eq]

theorem Valid.get_of_erase {t' : AvlTree K V} (h : t.Valid) (h' : t'.Valid) {key : K}
    (hlist : t'.root.toList = erase key t.root.toList) (k : K) :
    t'.get k = if k = key then none else t.get k := by
  rw [h'.get_eq, hlist, lookup_erase, h.get_eq]

end AvlTree

/-! ## Whole runs -/

omit [Sha256] [AsBytes K] [Borrow V] in
/-- The abstract map under the same call: what it held at the key, and the map afterwards. -/
def mapExec (m : K → Option V) : TreeOp K V → Option V × (K → Option V)
  | .insert key value => (m key, Function.update m key (some value))
  | .remove key => (m key, Function.update m key none)

structure AvlTree.Refines (t : AvlTree K V) (m : K → Option V) : Prop where
  valid : t.Valid
  get_eq : ∀ k, t.get k = m k

/-- One call keeps the relation and answers what the map answers. -/
theorem AvlTree.Refines.exec {t : AvlTree K V} {m : K → Option V} (h : t.Refines m)
    (op : TreeOp K V) :
    ∃ t', t.exec op = some ((mapExec m op).1, t') ∧ t'.Refines (mapExec m op).2 := by
  cases op with
  | insert key value =>
    obtain ⟨t', ht', hv', hlist⟩ := h.valid.insert key value
    refine ⟨t', by simp [AvlTree.exec, mapExec, ht', h.get_eq], hv', fun k => ?_⟩
    rw [h.valid.get_of_insert hv' hlist, h.get_eq]
    simp [mapExec, Function.update_apply]
  | remove key =>
    obtain ⟨t', ht', hv', hlist⟩ := h.valid.remove key
    refine ⟨t', by simp [AvlTree.exec, mapExec, ht', h.get_eq], hv', fun k => ?_⟩
    rw [h.valid.get_of_erase hv' hlist, h.get_eq]
    simp [mapExec, Function.update_apply]

theorem AvlTree.Valid.exec {t : AvlTree K V} (h : t.Valid) (op : TreeOp K V) :
    ∃ o t', t.exec op = some (o, t') ∧ t'.Valid := by
  obtain ⟨t', ht', href⟩ := AvlTree.Refines.exec ⟨h, fun _ => rfl⟩ op
  exact ⟨_, t', ht', href.valid⟩

/-- Every run from the empty tree returns, and ends related to the map the same run builds. -/
theorem AvlTree.run_refines (ops : List (TreeOp K V)) :
    ∃ t : AvlTree K V,
      runSteps AvlTree.exec AvlTree.new ops = some ((runTotal mapExec (fun _ => none) ops).1, t) ∧
        t.Refines (runTotal mapExec (fun _ => none) ops).2 :=
  runSteps_refines (P := fun _ _ => True) (R := AvlTree.Refines)
    (fun _ _ op h _ => h.exec op) ops ⟨AvlTree.valid_new, fun _ => rfl⟩ (admissible_true ops _)

/-- **The tree refines a finite map.** For every sequence of calls from the empty tree: no call
panics; each returns the value the map held at its key just before; afterwards `get` is the
map, and `get_keys` lists the map's keys, each once, in increasing order. -/
theorem avl_refines_map (ops : List (TreeOp K V)) :
    ∃ t : AvlTree K V,
      runSteps AvlTree.exec AvlTree.new ops = some ((runTotal mapExec (fun _ => none) ops).1, t) ∧
        (∀ k, t.get k = (runTotal mapExec (fun _ => none) ops).2 k) ∧
        t.getKeys.Pairwise (· < ·) ∧
        ∀ k, k ∈ t.getKeys ↔ (runTotal mapExec (fun _ => none) ops).2 k ≠ none := by
  obtain ⟨t, hrun, href⟩ := AvlTree.run_refines ops
  exact ⟨t, hrun, href.get_eq, href.valid.getKeys_sorted,
    fun k => by rw [href.valid.mem_getKeys, href.get_eq]⟩

/-- Reachable trees are valid: the entry point for every result about them. -/
theorem AvlTree.valid_of_run {ops : List (TreeOp K V)} {os : List (Option V)} {t : AvlTree K V}
    (h : runSteps AvlTree.exec AvlTree.new ops = some (os, t)) : t.Valid := by
  obtain ⟨t', hrun, href⟩ := AvlTree.run_refines ops
  rw [hrun, Option.some.injEq, Prod.mk.injEq] at h
  exact h.2 ▸ href.valid

/-! ## Recomputation from the leaves -/

section Recompute

omit [LinearOrder K]

/-- The merkle hash of a subtree computed from keys, values and shape alone. -/
def recomputeHash : NodeRef K V → Option Hash
  | .nil => none
  | .node n l r =>
    some (sha256 (((recomputeHash l).map Hash.bytes).getD emptyChild
      ++ (localHash n.key n.value).bytes
      ++ ((recomputeHash r).map Hash.bytes).getD emptyChild))

theorem recomputeHash_childHash : ∀ {t : NodeRef K V}, Cached t →
    ((recomputeHash t).map Hash.bytes).getD emptyChild = t.childHash ∧
      recomputeHash t = (AvlTree.mk t).rootHash := by
  intro t
  induction t with
  | nil => intro _; exact ⟨rfl, rfl⟩
  | node n l r ihl ihr =>
    rintro ⟨hn, hl, hr⟩
    have hm : recomputeHash (.node n l r) = some n.merkleHash := by
      rw [recomputeHash, (ihl hl).1, (ihr hr).1, hn.merkleHash, hn.hash]
    exact ⟨by simp [hm], hm⟩

end Recompute

/-- **The cached Merkle data is never stale.** In every tree a sequence of calls builds from the
empty one, every node's `hash`, `merkle_hash` and `height` are what its key, its value and its
children determine (`Fresh`), and the root hash is the one recomputed from the leaves. -/
theorem avl_cached (ops : List (TreeOp K V)) :
    ∃ (os : List (Option V)) (t : AvlTree K V),
      runSteps AvlTree.exec AvlTree.new ops = some (os, t) ∧
        t.root.Forall Fresh ∧ t.rootHash = recomputeHash t.root := by
  obtain ⟨t, hrun, href⟩ := AvlTree.run_refines ops
  exact ⟨_, t, hrun, href.valid.cached, (recomputeHash_childHash href.valid.cached).2.symm⟩

end Write

end Basecoin.Avl
