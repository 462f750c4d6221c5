import Basecoin.Store.Avl.ProofSound

/-!
# The two sides of a non-existence proof are adjacent

ICS23 accepts a non-existence proof only when the paths of its two sides leave no room between
them. The rule is stated over the proof spec: an inner op is *of branch `b`* when its prefix and
suffix have the lengths of the children before and after child `b`. A node of this tree is its
own middle child, so the neighbours of an absent key may be an ancestor and a descendant, in
either direction.

The induction of `leftNeighbor_pathTo` follows the search for the key. While both neighbours lie
in the same child the two paths share the op at the root end. The search parts from one of them
at the node it found it in: there the ops are one branch apart, and what is left of the other
path runs along the edge of one child (`rightmost_pathTo`, `leftmost_pathTo`).
-/

namespace Basecoin.Avl

open Lib Lib.SortedMap Ics23

/-! ## The rule, over a proof spec -/

/-- `op` has the lengths the spec dictates for the child `b`. -/
def OfBranch (spec : ProofSpec) (op : InnerOp) (b : Nat) : Prop :=
  ∃ inner, spec.innerSpec = some inner ∧ b ∈ inner.childOrder ∧
    op.prefixBytes.length = inner.childOrder.idxOf b * inner.childSize ∧
    op.suffixBytes.length =
      (inner.childOrder.length - 1 - inner.childOrder.idxOf b) * inner.childSize

/-- Nothing lies to the right of this step. -/
def RightmostStep (op : InnerOp) : Prop :=
  OfBranch getProofSpec op 2 ∨ (OfBranch getProofSpec op 1 ∧ op.suffixBytes = emptyChild)

def LeftmostStep (op : InnerOp) : Prop :=
  OfBranch getProofSpec op 0 ∨ (OfBranch getProofSpec op 1 ∧ op.prefixBytes = emptyChild)

/-- Drop the equal heads of two lists. -/
def dropCommon {α : Type*} [DecidableEq α] : List α → List α → List α × List α
  | a :: as, b :: bs => if a = b then dropCommon as bs else (a :: as, b :: bs)
  | as, bs => (as, bs)

/-- The two paths, read from the root: after the equal ops one step apart, then along the gap. -/
def LeftNeighbor (left right : List InnerOp) : Prop :=
  ∃ a as b bs, dropCommon left.reverse right.reverse = (a :: as, b :: bs) ∧
    (∃ i, OfBranch getProofSpec a i ∧ OfBranch getProofSpec b (i + 1)) ∧
    (∀ op ∈ as, RightmostStep op) ∧ ∀ op ∈ bs, LeftmostStep op

def Adjacent (q : NonExistenceProof) : Prop :=
  match q.left, q.right with
  | some left, some right => LeftNeighbor left.path right.path
  | some left, none => ∀ op ∈ left.path, RightmostStep op
  | none, some right => ∀ op ∈ right.path, LeftmostStep op
  | none, none => False

/-! ## The branches of the three ops -/

theorem ofBranch_iff {op : InnerOp} {b : Nat} :
    OfBranch getProofSpec op b ↔
      b ≤ 2 ∧ op.prefixBytes.length = b * 32 ∧ op.suffixBytes.length = (2 - b) * 32 := by
  unfold OfBranch
  simp only [getProofSpec, Option.some.injEq, exists_eq_left']
  constructor
  · intro ⟨hb, hp, hs⟩
    have hcases : b = 0 ∨ b = 1 ∨ b = 2 := by simpa using hb
    rcases hcases with rfl | rfl | rfl <;> exact ⟨by omega, hp, hs⟩
  · intro ⟨hb, hp, hs⟩
    have hcases : b = 0 ∨ b = 1 ∨ b = 2 := by omega
    rcases hcases with rfl | rfl | rfl <;> exact ⟨by decide, hp, hs⟩

theorem ofBranch_unique {op : InnerOp} {b c : Nat} (hb : OfBranch getProofSpec op b)
    (hc : OfBranch getProofSpec op c) : b = c := by
  have h₁ := (ofBranch_iff.mp hb).2.1
  have h₂ := (ofBranch_iff.mp hc).2.1
  omega

section Ops

variable {K V : Type*}

theorem ofBranch_fromLeft (n : AvlNode K V) (r : NodeRef K V) :
    OfBranch getProofSpec (fromLeft n r) 0 := by
  rw [ofBranch_iff]
  simp [fromLeft, n.hash.length_eq]

theorem ofBranch_fromSelf (l r : NodeRef K V) : OfBranch getProofSpec (fromSelf l r) 1 := by
  rw [ofBranch_iff]
  simp [fromSelf]

theorem ofBranch_fromRight (n : AvlNode K V) (l : NodeRef K V) :
    OfBranch getProofSpec (fromRight n l) 2 := by
  rw [ofBranch_iff]
  simp [fromRight, n.hash.length_eq]

variable [LinearOrder K]

theorem ofBranch_of_mem_pathTo {key : K} {op : InnerOp} : ∀ {t : NodeRef K V},
    op ∈ pathTo key t → ∃ b, OfBranch getProofSpec op b := by
  intro t
  induction t with
  | nil => intro h; simp [pathTo] at h
  | node n l r ihl ihr =>
    intro h
    rcases lt_trichotomy key n.key with hk | rfl | hk
    · rw [pathTo_lt hk, List.mem_append, List.mem_singleton] at h
      rcases h with h | rfl
      · exact ihl h
      · exact ⟨0, ofBranch_fromLeft n r⟩
    · rw [pathTo_self, List.mem_singleton] at h
      exact ⟨1, h ▸ ofBranch_fromSelf l r⟩
    · rw [pathTo_gt hk, List.mem_append, List.mem_singleton] at h
      rcases h with h | rfl
      · exact ihr h
      · exact ⟨2, ofBranch_fromRight n l⟩

end Ops

/-! ## Paths along an edge -/

section Paths

variable {K V : Type*} [LinearOrder K]

omit [LinearOrder K] in
theorem eq_nil_of_toList {t : NodeRef K V} (h : t.toList = []) : t = .nil := by
  cases t with
  | nil => rfl
  | node n l r => simp at h

/-- When the whole tree lies below the key, the greatest entry is reached along the right
edge. -/
theorem rightmost_pathTo {key : K} {e : K × V} : ∀ {t : NodeRef K V}, Sorted t.toList →
    lookup key t.toList = none → succ key t.toList = none → pred key t.toList = some e →
    ∀ op ∈ pathTo e.1 t, RightmostStep op := by
  intro t
  induction t with
  | nil => intro _ _ _ hp; simp [pred] at hp
  | node n l r _ ihr =>
    intro hs habs hsucc hpred op hop
    rw [NodeRef.toList_node] at hs habs hsucc hpred
    obtain ⟨_, hsr, _, hrn⟩ := sorted_middle.mp hs
    have hmem : (n.key, n.value) ∈ l.toList ++ (n.key, n.value) :: r.toList := by simp
    have hk : n.key < key := lt_of_le_of_ne (not_lt.mp (succ_eq_none.mp hsucc _ hmem))
      (lookup_eq_none.mp habs _ hmem)
    rw [lookup_middle_gt hs hk] at habs
    rw [succ_middle_gt hs hk] at hsucc
    rw [pred_middle_gt hs hk] at hpred
    cases hpr : pred key r.toList with
    | none =>
      -- the right child is missing, and the node itself is the greatest entry
      have hr : r = .nil := eq_nil_of_toList (eq_nil_of_no_neighbour habs hpr hsucc)
      rw [hpr, Option.none_or, Option.some.injEq] at hpred
      rw [← hpred, hr, pathTo_self, List.mem_singleton] at hop
      exact hop ▸ Or.inr ⟨ofBranch_fromSelf l .nil, rfl⟩
    | some e' =>
      rw [hpr, Option.some_or, Option.some.injEq] at hpred
      obtain rfl := hpred
      rw [pathTo_gt (hrn e' (pred_spec hsr hpr).1), List.mem_append, List.mem_singleton] at hop
      rcases hop with hop | rfl
      · exact ihr hsr habs hsucc hpr op hop
      · exact Or.inl (ofBranch_fromRight n l)

/-- The mirror image: the smallest entry is reached along the left edge. -/
theorem leftmost_pathTo {key : K} {e : K × V} : ∀ {t : NodeRef K V}, Sorted t.toList →
    lookup key t.toList = none → pred key t.toList = none → succ key t.toList = some e →
    ∀ op ∈ pathTo e.1 t, LeftmostStep op := by
  intro t
  induction t with
  | nil => intro _ _ _ hp; simp [succ] at hp
  | node n l r ihl _ =>
    intro hs habs hpred hsucc op hop
    rw [NodeRef.toList_node] at hs habs hsucc hpred
    obtain ⟨hsl, _, hln, _⟩ := sorted_middle.mp hs
    have hmem : (n.key, n.value) ∈ l.toList ++ (n.key, n.value) :: r.toList := by simp
    have hk : key < n.key := lt_of_le_of_ne (not_lt.mp (pred_eq_none.mp hpred _ hmem))
      (lookup_eq_none.mp habs _ hmem).symm
    rw [lookup_middle_lt hs hk] at habs
    rw [pred_middle_lt hs hk] at hpred
    rw [succ_middle_lt hs hk] at hsucc
    cases hsc : succ key l.toList with
    | none =>
      have hl : l = .nil := eq_nil_of_toList (eq_nil_of_no_neighbour habs hpred hsc)
      rw [hsc, Option.none_or, Option.some.injEq] at hsucc
      rw [← hsucc, hl, pathTo_self, List.mem_singleton] at hop
      exact hop ▸ Or.inr ⟨ofBranch_fromSelf .nil r, rfl⟩
    | some e' =>
      rw [hsc, Option.some_or, Option.some.injEq] at hsucc
      obtain rfl := hsucc
      rw [pathTo_lt (hln e' (succ_spec hsl hsc).1), List.mem_append, List.mem_singleton] at hop
      rcases hop with hop | rfl
      · exact ihl hsl habs hpred hsc op hop
      · exact Or.inl (ofBranch_fromLeft n r)

/-! ## Paths of two neighbours -/

/-- A common op at the root end is dropped. -/
theorem LeftNeighbor.append {left right : List InnerOp} (h : LeftNeighbor left right)
    (op : InnerOp) : LeftNeighbor (left ++ [op]) (right ++ [op]) := by
  unfold LeftNeighbor at h ⊢
  simpa [dropCommon] using h

/-- Where the paths part, the ops differ, and nothing more is dropped. -/
theorem LeftNeighbor.intro {left right : List InnerOp} {a b : InnerOp} {i : Nat}
    (ha : OfBranch getProofSpec a i) (hb : OfBranch getProofSpec b (i + 1))
    (hleft : ∀ op ∈ left, RightmostStep op) (hright : ∀ op ∈ right, LeftmostStep op) :
    LeftNeighbor (left ++ [a]) (right ++ [b]) := by
  have hne : a ≠ b := by
    intro h
    have := ofBranch_unique ha (h ▸ hb)
    omega
  refine ⟨a, left.reverse, b, right.reverse, ?_, ⟨i, ha, hb⟩, ?_, ?_⟩
  · simp [dropCommon, hne]
  · intro op hop
    exact hleft op (List.mem_reverse.mp hop)
  · intro op hop
    exact hright op (List.mem_reverse.mp hop)

theorem leftNeighbor_pathTo {key : K} {a b : K × V} : ∀ {t : NodeRef K V}, Sorted t.toList →
    lookup key t.toList = none → pred key t.toList = some a → succ key t.toList = some b →
    LeftNeighbor (pathTo a.1 t) (pathTo b.1 t) := by
  intro t
  induction t with
  | nil => intro _ _ hp; simp [pred] at hp
  | node n l r ihl ihr =>
    intro hs habs hpred hsucc
    rw [NodeRef.toList_node] at hs habs hsucc hpred
    obtain ⟨hsl, hsr, hln, hrn⟩ := sorted_middle.mp hs
    have hne : n.key ≠ key := lookup_eq_none.mp habs (n.key, n.value) (by simp)
    rcases lt_or_gt_of_ne hne with hk | hk
    · rw [lookup_middle_gt hs hk] at habs
      rw [pred_middle_gt hs hk] at hpred
      rw [succ_middle_gt hs hk] at hsucc
      have hb : n.key < b.1 := hrn b (succ_spec hsr hsucc).1
      rw [pathTo_gt hb]
      cases hpr : pred key r.toList with
      | none =>
        -- the node is the left neighbour; the right one is the smallest of the right child
        rw [hpr, Option.none_or, Option.some.injEq] at hpred
        rw [← hpred, pathTo_self]
        show LeftNeighbor ([] ++ [fromSelf l r]) _
        exact LeftNeighbor.intro (ofBranch_fromSelf l r) (ofBranch_fromRight n l) (by simp)
          (leftmost_pathTo hsr habs hpr hsucc)
      | some e =>
        rw [hpr, Option.some_or, Option.some.injEq] at hpred
        obtain rfl := hpred
        rw [pathTo_gt (hrn e (pred_spec hsr hpr).1)]
        exact (ihr hsr habs hpr hsucc).append _
    · rw [lookup_middle_lt hs hk] at habs
      rw [pred_middle_lt hs hk] at hpred
      rw [succ_middle_lt hs hk] at hsucc
      have ha : a.1 < n.key := hln a (pred_spec hsl hpred).1
      rw [pathTo_lt ha]
      cases hsc : succ key l.toList with
      | none =>
        -- the node is the right neighbour; the left one is the greatest of the left child
        rw [hsc, Option.none_or, Option.some.injEq] at hsucc
        rw [← hsucc, pathTo_self]
        show LeftNeighbor _ ([] ++ [fromSelf l r])
        exact LeftNeighbor.intro (ofBranch_fromLeft n r) (ofBranch_fromSelf l r)
          (rightmost_pathTo hsl habs hsc hpred) (by simp)
      | some e =>
        rw [hsc, Option.some_or, Option.some.injEq] at hsucc
        obtain rfl := hsucc
        rw [pathTo_lt (hln e (succ_spec hsl hsc).1)]
        exact (ihl hsl habs hpred hsc).append _

/-! ## The rule holds -/

variable [Sha256] [AsBytes K] [Borrow V]

theorem AvlTree.Valid.adjacent {t : AvlTree K V} (h : t.Valid) (hne : t.getKeys ≠ []) {key : K}
    (habs : t.get key = none) :
    Adjacent
      { key := asBytes key
        left := (pred key t.root.toList).map (existenceProof t.root)
        right := (succ key t.root.toList).map (existenceProof t.root) } := by
  have hs := h.ordered
  rw [h.get_eq] at habs
  unfold Adjacent
  cases hp : pred key t.root.toList with
  | none =>
    cases hsc : succ key t.root.toList with
    | none =>
      refine absurd ?_ hne
      rw [AvlTree.getKeys_eq, eq_nil_of_no_neighbour habs hp hsc, List.map_nil]
    | some b => exact leftmost_pathTo hs habs hp hsc
  | some a =>
    cases hsc : succ key t.root.toList with
    | none => exact rightmost_pathTo hs habs hsc hp
    | some b => exact leftNeighbor_pathTo hs habs hp hsc

/-- **Non-existence proofs satisfy the adjacency rule** of `get_proof_spec`, for every non-empty
tree a sequence of calls builds and every absent key: each op is of exactly one branch, and the
sides are adjacent. -/
theorem getProof_adjacent (ops : List (TreeOp K V)) :
    ∃ (os : List (Option V)) (t : AvlTree K V),
      runSteps AvlTree.exec AvlTree.new ops = some (os, t) ∧
        (t.getKeys ≠ [] → ∀ key, t.get key = none →
          ∃ q, t.getProof key = some { proof := some (.nonexist q) } ∧
            (∀ p, q.left = some p ∨ q.right = some p →
              ∀ op ∈ p.path, ∃! b, OfBranch getProofSpec op b) ∧
            Adjacent q) := by
  obtain ⟨t, hrun, href⟩ := AvlTree.run_refines ops
  refine ⟨_, t, hrun, ?_⟩
  intro hne key habs
  have hlookup : lookup key t.root.toList = none := href.valid.get_eq key ▸ habs
  refine ⟨_, ?_, ?_, href.valid.adjacent hne habs⟩
  · rw [href.valid.getProof_eq, proofFor, hlookup]
  · intro p hp op hop
    have hpath : ∃ e, existenceProof t.root e = p := by
      rcases hp with hp | hp
      · obtain ⟨e, _, he⟩ := Option.map_eq_some_iff.mp hp
        exact ⟨e, he⟩
      · obtain ⟨e, _, he⟩ := Option.map_eq_some_iff.mp hp
        exact ⟨e, he⟩
    obtain ⟨e, rfl⟩ := hpath
    obtain ⟨b, hb⟩ := ofBranch_of_mem_pathTo hop
    exact ⟨b, hb, fun c hc => ofBranch_unique hc hb⟩

end Paths

end Basecoin.Avl
