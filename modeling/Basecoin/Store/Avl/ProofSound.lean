import Basecoin.Store.Avl.Proof
import Basecoin.Store.Avl.Refine
import Mathlib.Order.Bounds.Defs

/-!
# Every proof the tree gives is right

`get_proof_rec` builds up to three paths in one recursion. The proof separates the two questions
it mixes. *Which* keys it answers about is a matter of the in-order listing: the key itself when
it is listed, otherwise `pred` and `succ`. *What* path a listed key gets does not depend on the
question: `pathTo`, from the key's node up to the root. `getProofRec_eq` says that the recursion
is exactly this, and `foldPath_pathTo` that a `pathTo` folds to the root hash of a well-cached
tree.
-/

namespace Basecoin.Avl

open Lib Lib.SortedMap Ics23

variable {K V : Type*}

/-! ## The three shapes of an inner op -/

/-- The op of a node reached from its left child. -/
def fromLeft (n : AvlNode K V) (r : NodeRef K V) : InnerOp :=
  { hash := .sha256, prefixBytes := [], suffixBytes := n.hash.bytes ++ r.childHash }

/-- The op of a node reached from its right child. -/
def fromRight (n : AvlNode K V) (l : NodeRef K V) : InnerOp :=
  { hash := .sha256, prefixBytes := l.childHash ++ n.hash.bytes, suffixBytes := [] }

/-- The op of the key's own node: it is the middle child of itself. -/
def fromSelf (l r : NodeRef K V) : InnerOp :=
  { hash := .sha256, prefixBytes := l.childHash, suffixBytes := r.childHash }

variable [LinearOrder K]

/-- The path of a key, bottom-up. -/
def pathTo (key : K) : NodeRef K V → List InnerOp
  | .nil => []
  | .node n l r =>
    match compare n.key key with
    | .gt => pathTo key l ++ [fromLeft n r]
    | .lt => pathTo key r ++ [fromRight n l]
    | .eq => [fromSelf l r]

theorem pathTo_lt {key : K} {n : AvlNode K V} (h : key < n.key) (l r : NodeRef K V) :
    pathTo key (.node n l r) = pathTo key l ++ [fromLeft n r] := by
  simp only [pathTo, compare_gt_iff_gt.mpr h]

theorem pathTo_gt {key : K} {n : AvlNode K V} (h : n.key < key) (l r : NodeRef K V) :
    pathTo key (.node n l r) = pathTo key r ++ [fromRight n l] := by
  simp only [pathTo, compare_lt_iff_lt.mpr h]

theorem pathTo_self (n : AvlNode K V) (l r : NodeRef K V) :
    pathTo n.key (.node n l r) = [fromSelf l r] := by
  simp only [pathTo, compare_eq_iff_eq.mpr]

theorem hash_of_mem_pathTo {key : K} {op : InnerOp} : ∀ {t : NodeRef K V},
    op ∈ pathTo key t → op.hash = .sha256 := by
  intro t
  induction t with
  | nil => intro h; simp [pathTo] at h
  | node n l r ihl ihr =>
    intro h
    rcases lt_trichotomy key n.key with hk | rfl | hk
    · rw [pathTo_lt hk, List.mem_append, List.mem_singleton] at h
      rcases h with h | rfl
      exacts [ihl h, rfl]
    · rw [pathTo_self, List.mem_singleton] at h
      exact h ▸ rfl
    · rw [pathTo_gt hk, List.mem_append, List.mem_singleton] at h
      rcases h with h | rfl
      exacts [ihr h, rfl]

/-! ## What the recursion builds -/

section Build

variable [AsBytes K] [Borrow V]

def existenceProof (t : NodeRef K V) (e : K × V) : ExistenceProof :=
  { key := asBytes e.1, value := borrow e.2, leaf := some getLeafOp, path := pathTo e.1 t }

def proofFor (key : K) (t : NodeRef K V) : Proof :=
  match lookup key t.toList with
  | some value => .exist (existenceProof t (key, value))
  | none =>
    .nonexist
      { key := asBytes key
        left := (pred key t.toList).map (existenceProof t)
        right := (succ key t.toList).map (existenceProof t) }

theorem existenceProof_lt {n : AvlNode K V} {l r : NodeRef K V} {e : K × V} (h : e.1 < n.key) :
    existenceProof (.node n l r) e = (existenceProof l e).push (fromLeft n r) := by
  simp [existenceProof, ExistenceProof.push, pathTo_lt h]

theorem existenceProof_gt {n : AvlNode K V} {l r : NodeRef K V} {e : K × V} (h : n.key < e.1) :
    existenceProof (.node n l r) e = (existenceProof r e).push (fromRight n l) := by
  simp [existenceProof, ExistenceProof.push, pathTo_gt h]

theorem existenceProof_self (n : AvlNode K V) (l r : NodeRef K V) :
    existenceProof (.node n l r) (n.key, n.value) = getLocalExistenceProof n l r := by
  simp [existenceProof, getLocalExistenceProof, pathTo_self, fromSelf, NodeRef.childHash,
    leftHash, rightHash]

theorem map_existenceProof_left {n : AvlNode K V} {l r : NodeRef K V} {o : Option (K × V)}
    (h : ∀ e, o = some e → e.1 < n.key) :
    o.map (existenceProof (.node n l r)) =
      (o.map (existenceProof l)).map (·.push (fromLeft n r)) := by
  cases o with
  | none => rfl
  | some e => simp [existenceProof_lt (h e rfl)]

theorem map_existenceProof_right {n : AvlNode K V} {l r : NodeRef K V} {o : Option (K × V)}
    (h : ∀ e, o = some e → n.key < e.1) :
    o.map (existenceProof (.node n l r)) =
      (o.map (existenceProof r)).map (·.push (fromRight n l)) := by
  cases o with
  | none => rfl
  | some e => simp [existenceProof_gt (h e rfl)]

/-- **The recursion is `proofFor`.** In particular it never reaches `unreachable!()`. -/
theorem getProofRec_eq (key : K) : ∀ (t : NodeRef K V), Sorted t.toList →
    getProofRec key t = some (proofFor key t) := by
  intro t
  induction t with
  | nil => intro _; rfl
  | node n l r ihl ihr =>
    intro hs
    rw [NodeRef.toList_node] at hs
    obtain ⟨hsl, hsr, hln, hrn⟩ := sorted_middle.mp hs
    rcases lt_trichotomy key n.key with hk | rfl | hk
    · -- the right neighbour is the least one below the node, or the node itself
      have hpred : ∀ e, pred key l.toList = some e → e.1 < n.key :=
        fun e he => hln e (pred_spec hsl he).1
      have hsucc : ∀ e, succ key l.toList = some e → e.1 < n.key :=
        fun e he => hln e (succ_spec hsl he).1
      simp only [getProofRec, compare_gt_iff_gt.mpr hk, ihl hsl, Option.bind_some, proofFor,
        NodeRef.toList_node, lookup_middle_lt hs hk, pred_middle_lt hs hk, succ_middle_lt hs hk]
      cases lookup key l.toList with
      | some value => simp [existenceProof_lt (e := (key, value)) hk, fromLeft,
          NodeRef.childHash, rightHash]
      | none =>
        rw [map_existenceProof_left hpred]
        cases hsc : succ key l.toList with
        | none => simp [pushFound, existenceProof_self, fromLeft, NodeRef.childHash, rightHash]
        | some e =>
          simp [pushFound, existenceProof_lt (hsucc e hsc), fromLeft, NodeRef.childHash,
            rightHash]
    · simp only [getProofRec, compare_eq_iff_eq.mpr, proofFor, NodeRef.toList_node,
        lookup_middle_eq hs, existenceProof_self]
    · have hpred : ∀ e, pred key r.toList = some e → n.key < e.1 :=
        fun e he => hrn e (pred_spec hsr he).1
      have hsucc : ∀ e, succ key r.toList = some e → n.key < e.1 :=
        fun e he => hrn e (succ_spec hsr he).1
      simp only [getProofRec, compare_lt_iff_lt.mpr hk, ihr hsr, Option.bind_some, proofFor,
        NodeRef.toList_node, lookup_middle_gt hs hk, pred_middle_gt hs hk, succ_middle_gt hs hk]
      cases lookup key r.toList with
      | some value => simp [existenceProof_gt (e := (key, value)) hk, fromRight,
          NodeRef.childHash, leftHash]
      | none =>
        -- where the right child has no entry below the key, the left neighbour is the node
        rw [map_existenceProof_right hsucc]
        cases hpr : pred key r.toList with
        | none => simp [pushFound, existenceProof_self, fromRight, NodeRef.childHash, leftHash]
        | some e =>
          simp [pushFound, existenceProof_gt (hpred e hpr), fromRight, NodeRef.childHash,
            leftHash]

end Build

/-! ## Folding a path -/

section Fold

variable [Sha256] [AsBytes K] [Borrow V]

omit [LinearOrder K] [AsBytes K] [Borrow V] in
theorem foldPath_append_singleton (acc : Hash) (path : List InnerOp) (op : InnerOp) :
    foldPath acc (path ++ [op]) =
      sha256 (op.prefixBytes ++ (foldPath acc path).bytes ++ op.suffixBytes) := by
  simp [foldPath]

/-- From the local hash of an entry, its path folds to the merkle hash of the tree. -/
theorem foldPath_pathTo {key : K} {value : V} : ∀ {t : NodeRef K V}, Cached t →
    Sorted t.toList → lookup key t.toList = some value →
    (AvlTree.mk t).rootHash = some (foldPath (localHash key value) (pathTo key t)) := by
  intro t
  induction t with
  | nil => intro _ _ h; simp at h
  | node n l r ihl ihr =>
    rintro ⟨hn, hcl, hcr⟩ hs hv
    rw [NodeRef.toList_node] at hs hv
    obtain ⟨hsl, hsr, _, _⟩ := sorted_middle.mp hs
    -- a root hash is the child hash the parent hashes
    have hchild : ∀ {c : NodeRef K V} {h : Hash}, (AvlTree.mk c).rootHash = some h →
        h.bytes = c.childHash := by
      intro c h hc
      cases c with
      | nil => simp [AvlTree.rootHash] at hc
      | node m a b =>
        simp only [AvlTree.rootHash, Option.some.injEq] at hc
        simp [← hc]
    rcases lt_trichotomy key n.key with hk | rfl | hk
    · rw [lookup_middle_lt hs hk] at hv
      rw [pathTo_lt hk, foldPath_append_singleton, hchild (ihl hcl hsl hv)]
      simp [AvlTree.rootHash, hn.merkleHash, fromLeft]
    · rw [lookup_middle_eq hs, Option.some.injEq] at hv
      simp [pathTo_self, foldPath, AvlTree.rootHash, hn.merkleHash, hn.hash, fromSelf, ← hv]
    · rw [lookup_middle_gt hs hk] at hv
      rw [pathTo_gt hk, foldPath_append_singleton, hchild (ihr hcr hsr hv)]
      simp [AvlTree.rootHash, hn.merkleHash, fromRight]

end Fold

/-! ## Right proofs -/

section Statement

variable [Sha256] [AsBytes K] [Borrow V]

/-- The root an existence proof recomputes: hash the leaf, then fold the path. -/
def existenceRoot (p : ExistenceProof) : Hash :=
  foldPath (sha256 (leafPrefix ++ p.key ++ p.value)) p.path

/-- A right existence proof: it carries the bytes of the pair, hashes as the spec says, and
recomputes the root hash. -/
structure Proves (p : ExistenceProof) (key : K) (value : V) (root : Option Hash) : Prop where
  key_eq : p.key = asBytes key
  value_eq : p.value = borrow value
  leaf_eq : p.leaf = some getLeafOp
  hash_eq : ∀ op ∈ p.path, op.hash = .sha256
  root_eq : root = some (existenceRoot p)

/-- A right non-existence proof: its sides are right existence proofs of the neighbours of the
key, and one is missing exactly when the tree has no key on that side. -/
structure Refutes (q : NonExistenceProof) (key : K) (t : AvlTree K V) : Prop where
  key_eq : q.key = asBytes key
  left_none : q.left = none ↔ ∀ k ∈ t.getKeys, ¬ k < key
  right_none : q.right = none ↔ ∀ k ∈ t.getKeys, ¬ key < k
  left_some : ∀ p, q.left = some p → ∃ k v, IsGreatest {k | k ∈ t.getKeys ∧ k < key} k ∧
    t.get k = some v ∧ Proves p k v t.rootHash
  right_some : ∀ p, q.right = some p → ∃ k v, IsLeast {k | k ∈ t.getKeys ∧ key < k} k ∧
    t.get k = some v ∧ Proves p k v t.rootHash

namespace AvlTree

variable {t : AvlTree K V}

theorem Valid.proves_existenceProof (h : t.Valid) {e : K × V} (he : e ∈ t.root.toList) :
    Proves (existenceProof t.root e) e.1 e.2 t.rootHash :=
  { key_eq := rfl
    value_eq := rfl
    leaf_eq := rfl
    hash_eq := fun _ hop => hash_of_mem_pathTo hop
    root_eq := foldPath_pathTo h.cached h.ordered ((lookup_eq_some h.ordered).mpr he) }

omit [LinearOrder K] [Sha256] [AsBytes K] [Borrow V] in
theorem forall_getKeys {P : K → Prop} :
    (∀ k ∈ t.getKeys, P k) ↔ ∀ e ∈ t.root.toList, P e.1 := by
  rw [getKeys_eq, List.forall_mem_map]

/-- The neighbours the listing gives are the order-theoretic ones. -/
theorem Valid.refutes (h : t.Valid) (key : K) :
    Refutes
      { key := asBytes key
        left := (pred key t.root.toList).map (existenceProof t.root)
        right := (succ key t.root.toList).map (existenceProof t.root) } key t := by
  have hmem : ∀ {e}, e ∈ t.root.toList → e.1 ∈ t.getKeys := by
    intro e he
    rw [getKeys_eq]
    exact List.mem_map_of_mem he
  have hget : ∀ {e}, e ∈ t.root.toList → t.get e.1 = some e.2 := by
    intro e he
    rw [h.get_eq]
    exact (lookup_eq_some h.ordered).mpr he
  refine ⟨rfl, ?_, ?_, ?_, ?_⟩
  · rw [Option.map_eq_none_iff, pred_eq_none, forall_getKeys]
  · rw [Option.map_eq_none_iff, succ_eq_none, forall_getKeys]
  · intro p hp
    obtain ⟨e, he, rfl⟩ := Option.map_eq_some_iff.mp hp
    obtain ⟨hin, hlt, hmax⟩ := pred_spec h.ordered he
    refine ⟨e.1, e.2, ⟨⟨hmem hin, hlt⟩, ?_⟩, hget hin, h.proves_existenceProof hin⟩
    rintro k ⟨hk, hklt⟩
    exact forall_getKeys (P := fun k => k < key → k ≤ e.1) |>.mpr hmax k hk hklt
  · intro p hp
    obtain ⟨e, he, rfl⟩ := Option.map_eq_some_iff.mp hp
    obtain ⟨hin, hlt, hmin⟩ := succ_spec h.ordered he
    refine ⟨e.1, e.2, ⟨⟨hmem hin, hlt⟩, ?_⟩, hget hin, h.proves_existenceProof hin⟩
    rintro k ⟨hk, hklt⟩
    exact forall_getKeys (P := fun k => key < k → e.1 ≤ k) |>.mpr hmin k hk hklt

theorem Valid.getProof_eq (h : t.Valid) (key : K) :
    t.getProof key = some { proof := some (proofFor key t.root) } := by
  rw [getProof, getProofRec_eq key t.root h.ordered, Option.map_some]

theorem Valid.getProof_of_get (h : t.Valid) {key : K} {value : V} (hv : t.get key = some value) :
    ∃ p, t.getProof key = some { proof := some (.exist p) } ∧ Proves p key value t.rootHash := by
  rw [h.get_eq] at hv
  refine ⟨existenceProof t.root (key, value), ?_, h.proves_existenceProof (mem_of_lookup hv)⟩
  rw [h.getProof_eq, proofFor, hv]

theorem Valid.getProof_of_get_none (h : t.Valid) {key : K} (hv : t.get key = none) :
    ∃ q, t.getProof key = some { proof := some (.nonexist q) } ∧ Refutes q key t := by
  rw [h.get_eq] at hv
  refine ⟨_, ?_, h.refutes key⟩
  rw [h.getProof_eq, proofFor, hv]

end AvlTree

/-- **Proofs are right for every key.** In every tree a sequence of calls builds from the empty
one, `get_proof` returns for every key: for a present one an existence proof of exactly what
`get` answers, for an absent one a non-existence proof between its two neighbours, and every
path folds to the root hash. -/
theorem getProof_correct (ops : List (TreeOp K V)) :
    ∃ (os : List (Option V)) (t : AvlTree K V),
      runSteps AvlTree.exec AvlTree.new ops = some (os, t) ∧
        ∀ key,
          (∀ value, t.get key = some value →
            ∃ p, t.getProof key = some { proof := some (.exist p) } ∧
              Proves p key value t.rootHash) ∧
          (t.get key = none →
            ∃ q, t.getProof key = some { proof := some (.nonexist q) } ∧ Refutes q key t) := by
  obtain ⟨t, hrun, href⟩ := AvlTree.run_refines ops
  exact ⟨_, t, hrun, fun key =>
    ⟨fun _ hv => href.valid.getProof_of_get hv, fun hv => href.valid.getProof_of_get_none hv⟩⟩

end Statement

end Basecoin.Avl
