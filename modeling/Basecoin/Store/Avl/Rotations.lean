import Basecoin.Store.Avl.Refine

/-!
# Rotations

Every rotation that is started has something to lift. The `expect` calls of `balance_node`,
`rotate_left` and `rotate_right` would fail on a tree whose cached heights lie. `balanceCalls`
lists the trees a call on the tree hands to `balance_node`, in the order it does, and misses none
(`AvlTree.exec_eq_none_iff`); all of them are refreshed over well-cached children (`Balancing`),
and there the guards are right about what exists (`Balancing.lifts`).

And what one rotation does the other undoes. Both refresh the two nodes they move, the lowered one
first, so the two nodes come back refreshed, which they were if no cached field was stale
(`rotations_inverse`).
-/

namespace Basecoin.Avl

open Lib Lib.SortedMap

variable {K V : Type*} [Sha256]

/-! ## The calls of `balance_node`

The trees handed to it, in the order of the calls, collected along the recursions of `Tree.lean`
without changing these. -/

section Calls

variable [LinearOrder K] [AsBytes K] [Borrow V]

/-- `node.update(); Self::balance_node(node_ref)` below a child that was just replaced. -/
def updatedLeft {R : Type*} (n : AvlNode K V) (right : NodeRef K V)
    (result : Option (R × NodeRef K V)) : List (NodeRef K V) :=
  result.toList.map fun r => refreshed n r.2 right

def updatedRight {R : Type*} (n : AvlNode K V) (left : NodeRef K V)
    (result : Option (R × NodeRef K V)) : List (NodeRef K V) :=
  result.toList.map fun r => refreshed n left r.2

/-- The calls in `insert_rec`. -/
def insertCalls (key : K) (value : V) : NodeRef K V → List (NodeRef K V)
  | .nil => []
  | .node n left right =>
    match compare n.key key with
    | .gt => insertCalls key value left ++ updatedLeft n right (insertRec key value left)
    | .lt => insertCalls key value right ++ updatedRight n left (insertRec key value right)
    | .eq => [refreshed (n.setValue value).2 left right]

/-- The calls in `remove_leftmost`. -/
def removeLeftmostCalls : NodeRef K V → List (NodeRef K V)
  | .nil => []
  | .node _ .nil _ => []
  | .node n (.node l ll lr) right =>
    removeLeftmostCalls (.node l ll lr) ++
      updatedLeft n right (removeLeftmost (.node l ll lr))

/-- The calls in `remove_rightmost`. -/
def removeRightmostCalls : NodeRef K V → List (NodeRef K V)
  | .nil => []
  | .node _ _ .nil => []
  | .node n left (.node r rl rr) =>
    removeRightmostCalls (.node r rl rr) ++
      updatedRight n left (removeRightmost (.node r rl rr))

/-- The tree itself, if it is one. -/
def whenNode : NodeRef K V → List (NodeRef K V)
  | .nil => []
  | .node m a b => [refreshed m a b]

/-- The calls in `remove_root`. -/
def removeRootCalls (n : AvlNode K V) (left right : NodeRef K V) : List (NodeRef K V) :=
  (if right.isNone || left.isNone then []
    else if balanceFactor left right ≤ 0 then removeLeftmostCalls right
    else removeRightmostCalls left) ++
  (removeRootSubstitute n left right).toList.flatMap fun r => whenNode r.1

/-- The call at the end of `remove_rec`. -/
def removeUpdateCalls (removed t : NodeRef K V) : List (NodeRef K V) :=
  if removed.isNone then [] else whenNode t

/-- The calls in `remove_rec`. -/
def removeCalls (key : K) : NodeRef K V → List (NodeRef K V)
  | .nil => []
  | .node n left right =>
    match compare n.key key with
    | .gt =>
      removeCalls key left ++ (removeRec key left).toList.flatMap fun r =>
        removeUpdateCalls r.1 (.node n r.2 right)
    | .lt =>
      removeCalls key right ++ (removeRec key right).toList.flatMap fun r =>
        removeUpdateCalls r.1 (.node n left r.2)
    | .eq =>
      removeRootCalls n left right ++ (removeRoot (.node n left right)).toList.flatMap fun r =>
        removeUpdateCalls r.1 r.2

/-- The trees a call hands to `balance_node`. -/
def AvlTree.balanceCalls (self : AvlTree K V) : TreeOp K V → List (NodeRef K V)
  | .insert key value => insertCalls key value self.root
  | .remove key => removeCalls key self.root

end Calls

/-! ## A call fails where one of them does -/

section Panics

theorem updateBalance_eq (n : AvlNode K V) (l r : NodeRef K V) :
    updateBalance n l r = balanceNode (refreshed n l r) := rfl

/-- Some tree of the list is one `balance_node` panics on. -/
def Panics (calls : List (NodeRef K V)) : Prop := ∃ u ∈ calls, balanceNode u = none

theorem panics_append {xs ys : List (NodeRef K V)} :
    Panics (xs ++ ys) ↔ Panics xs ∨ Panics ys := by
  simp only [Panics, List.mem_append, or_and_right, exists_or]

@[simp] theorem not_panics_nil : ¬ Panics ([] : List (NodeRef K V)) := by simp [Panics]

@[simp] theorem panics_singleton {u : NodeRef K V} : Panics [u] ↔ balanceNode u = none := by
  simp [Panics]

theorem removeLeftmost_eq_none_iff (t : NodeRef K V) :
    removeLeftmost t = none ↔ Panics (removeLeftmostCalls t) := by
  induction t with
  | nil => simp [removeLeftmost, removeLeftmostCalls]
  | node n l r ihl _ =>
    cases l with
    | nil => simp [removeLeftmost, removeLeftmostCalls]
    | node m ll lr =>
      rw [removeLeftmost, removeLeftmostCalls, panics_append, ← ihl]
      cases removeLeftmost (.node m ll lr) <;> simp [updatedLeft, updateBalance_eq]

theorem removeRightmost_eq_none_iff (t : NodeRef K V) :
    removeRightmost t = none ↔ Panics (removeRightmostCalls t) := by
  induction t with
  | nil => simp [removeRightmost, removeRightmostCalls]
  | node n l r _ ihr =>
    cases r with
    | nil => simp [removeRightmost, removeRightmostCalls]
    | node m rl rr =>
      rw [removeRightmost, removeRightmostCalls, panics_append, ← ihr]
      cases removeRightmost (.node m rl rr) <;> simp [updatedRight, updateBalance_eq]

theorem removeRootSubstitute_eq_none_iff (n : AvlNode K V) (l r : NodeRef K V) :
    removeRootSubstitute n l r = none ↔
      Panics (if r.isNone || l.isNone then []
        else if balanceFactor l r ≤ 0 then removeLeftmostCalls r else removeRightmostCalls l) := by
  rw [removeRootSubstitute]
  cases r.isNone with
  | true => simp
  | false =>
    cases l.isNone with
    | true => simp
    | false =>
      by_cases hbf : balanceFactor l r ≤ 0
      · simp [hbf, removeLeftmost_eq_none_iff]
      · simp [hbf, removeRightmost_eq_none_iff]

theorem removeRoot_eq_none_iff (n : AvlNode K V) (l r : NodeRef K V) :
    removeRoot (.node n l r) = none ↔ Panics (removeRootCalls n l r) := by
  rw [removeRoot, removeRootCalls, panics_append, ← removeRootSubstitute_eq_none_iff n]
  cases removeRootSubstitute n l r with
  | none => simp
  | some s =>
    obtain ⟨substitute, removed⟩ := s
    cases substitute <;> simp [whenNode, updateBalance_eq]

theorem removeUpdate_eq_none_iff (removed t : NodeRef K V) :
    removeUpdate removed t = none ↔ Panics (removeUpdateCalls removed t) := by
  cases t with
  | nil => simp [removeUpdate, removeUpdateCalls, whenNode]
  | node n l r =>
    rw [removeUpdate, removeUpdateCalls]
    cases removed.isNone <;> simp [whenNode, updateBalance_eq]

/-- A step of `remove_rec`: remove below, then refresh. -/
theorem panics_removeStep (result : Option (NodeRef K V × NodeRef K V))
    (calls : List (NodeRef K V)) (rebuild : NodeRef K V → NodeRef K V)
    (ih : result = none ↔ Panics calls) :
    (result.bind fun r => removeUpdate r.1 (rebuild r.2)) = none ↔
      Panics (calls ++ result.toList.flatMap fun r => removeUpdateCalls r.1 (rebuild r.2)) := by
  rw [panics_append, ← ih]
  cases result with
  | none => simp
  | some r => simp [removeUpdate_eq_none_iff]

variable [LinearOrder K]

theorem removeRec_eq_none_iff (key : K) (t : NodeRef K V) :
    removeRec key t = none ↔ Panics (removeCalls key t) := by
  induction t with
  | nil => simp [removeRec, removeCalls]
  | node n l r ihl ihr =>
    rw [removeRec, removeCalls]
    cases compare n.key key with
    | lt => exact panics_removeStep _ _ (.node n l) ihr
    | gt => exact panics_removeStep _ _ (fun l => .node n l r) ihl
    | eq => exact panics_removeStep _ _ id (removeRoot_eq_none_iff n l r)

variable [AsBytes K] [Borrow V]

theorem insertRec_eq_none_iff (key : K) (value : V) (t : NodeRef K V) :
    insertRec key value t = none ↔ Panics (insertCalls key value t) := by
  induction t with
  | nil => simp [insertRec, insertCalls]
  | node n l r ihl ihr =>
    rw [insertRec, insertCalls]
    cases compare n.key key with
    | lt =>
      dsimp only
      rw [panics_append, ← ihr]
      cases insertRec key value r <;> simp [updatedRight, updateBalance_eq]
    | gt =>
      dsimp only
      rw [panics_append, ← ihl]
      cases insertRec key value l <;> simp [updatedLeft, updateBalance_eq]
    | eq => simp [updateBalance_eq]

/-- `balanceCalls` misses no way to fail: a call on the tree panics exactly when `balance_node`
does on one of the trees listed. -/
theorem AvlTree.exec_eq_none_iff (t : AvlTree K V) (op : TreeOp K V) :
    t.exec op = none ↔ Panics (t.balanceCalls op) := by
  cases op with
  | insert key value =>
    rw [exec, insert, Option.map_eq_none_iff, insertRec_eq_none_iff, balanceCalls]
  | remove key => rw [exec, remove, Option.map_eq_none_iff, removeRec_eq_none_iff, balanceCalls]

end Panics

/-! ## What they are handed -/

section Handed

omit [Sha256] in
/-- No `expect` of `balance_node` fails on this tree: it is a node, the child that a rotation
would lift exists, and so does the grandchild that an inner rotation would. -/
def Lifts : NodeRef K V → Prop
  | .nil => False
  | .node _ l r =>
    (2 ≤ balanceFactor l r →
      ∃ m ll lr, l = .node m ll lr ∧ (balanceFactor ll lr < 1 → lr ≠ .nil)) ∧
    (balanceFactor l r ≤ -2 →
      ∃ m rl rr, r = .node m rl rr ∧ (-1 < balanceFactor rl rr → rl ≠ .nil))

variable [AsBytes K] [Borrow V]

/-- A node refreshed over well-cached children. -/
def Balancing (u : NodeRef K V) : Prop := ∃ n l r, u = refreshed n l r ∧ Cached l ∧ Cached r

/-- A rotation is started on heights, and heights of two come from children. -/
theorem Balancing.lifts {u : NodeRef K V} (h : Balancing u) : Lifts u := by
  obtain ⟨n, l, r, rfl, hl, hr⟩ := h
  refine ⟨fun hbf => ?_, fun hbf => ?_⟩
  · cases l with
    | nil => rw [balanceFactor_eq] at hbf; simp at hbf; omega
    | node m ll lr =>
      have hm : 2 ≤ m.height := by rw [balanceFactor_eq] at hbf; simp at hbf; omega
      refine ⟨m, ll, lr, rfl, fun hlean => ?_⟩
      obtain ⟨x, xl, xr, rfl⟩ := exists_right_of_height (hl.1.height ▸ hm) hlean
      simp
  · cases r with
    | nil => rw [balanceFactor_eq] at hbf; simp at hbf; omega
    | node m rl rr =>
      have hm : 2 ≤ m.height := by rw [balanceFactor_eq] at hbf; simp at hbf; omega
      refine ⟨m, rl, rr, rfl, fun hlean => ?_⟩
      obtain ⟨x, xl, xr, rfl⟩ := exists_left_of_height (hr.1.height ▸ hm) hlean
      simp

/-- On well-cached children `balance_node` returns. -/
theorem Balancing.balanceNode {u : NodeRef K V} (h : Balancing u) :
    ∃ u', balanceNode u = some u' := by
  obtain ⟨n, l, r, rfl, hl, hr⟩ := h
  obtain ⟨u', hu', -⟩ := balanceNode_spec (n := n.update l r) hl hr
  exact ⟨u', hu'⟩

theorem balancing_whenNode {t u : NodeRef K V}
    (ht : ∀ m a b, t = .node m a b → Cached a ∧ Cached b) (hu : u ∈ whenNode t) :
    Balancing u := by
  cases t with
  | nil => exact absurd hu List.not_mem_nil
  | node m a b =>
    obtain rfl := List.mem_singleton.mp hu
    obtain ⟨ha, hb⟩ := ht m a b rfl
    exact ⟨m, a, b, rfl, ha, hb⟩

theorem balancing_removeLeftmost : ∀ {t : NodeRef K V}, Cached t →
    ∀ u ∈ removeLeftmostCalls t, Balancing u := by
  intro t
  induction t with
  | nil => intro _ u hu; exact absurd hu List.not_mem_nil
  | node n l r ihl _ =>
    rintro ⟨-, hcl, hcr⟩ u hu
    cases l with
    | nil => exact absurd hu List.not_mem_nil
    | node m ll lr =>
      obtain ⟨x, l', hl', -, hcl', -⟩ := removeLeftmost_spec _ hcl (by simp)
      rw [removeLeftmostCalls, hl', List.mem_append] at hu
      rcases hu with hu | hu
      · exact ihl hcl u hu
      · obtain rfl := List.mem_singleton.mp hu
        exact ⟨n, l', r, rfl, hcl', hcr⟩

theorem balancing_removeRightmost : ∀ {t : NodeRef K V}, Cached t →
    ∀ u ∈ removeRightmostCalls t, Balancing u := by
  intro t
  induction t with
  | nil => intro _ u hu; exact absurd hu List.not_mem_nil
  | node n l r _ ihr =>
    rintro ⟨-, hcl, hcr⟩ u hu
    cases r with
    | nil => exact absurd hu List.not_mem_nil
    | node m rl rr =>
      obtain ⟨x, r', hr', -, hcr', -⟩ := removeRightmost_spec _ hcr (by simp)
      rw [removeRightmostCalls, hr', List.mem_append] at hu
      rcases hu with hu | hu
      · exact ihr hcr u hu
      · obtain rfl := List.mem_singleton.mp hu
        exact ⟨n, l, r', rfl, hcl, hcr'⟩

theorem balancing_removeRoot {n : AvlNode K V} {l r : NodeRef K V} (hcl : Cached l)
    (hcr : Cached r) : ∀ u ∈ removeRootCalls n l r, Balancing u := by
  intro u hu
  obtain ⟨s, hs, -, hnode⟩ := removeRootSubstitute_spec (n := n) hcl hcr
  rw [removeRootCalls, hs, List.mem_append] at hu
  rcases hu with hu | hu
  · split at hu
    · exact absurd hu List.not_mem_nil
    · split at hu
      · exact balancing_removeLeftmost hcr u hu
      · exact balancing_removeRightmost hcl u hu
  · rw [Option.toList_some, List.flatMap_singleton] at hu
    exact balancing_whenNode (fun m a b h => (hnode m a b h).2) hu

theorem balancing_removeUpdate {removed t u : NodeRef K V}
    (ht : ∀ m a b, t = .node m a b → Cached a ∧ Cached b)
    (hu : u ∈ removeUpdateCalls removed t) : Balancing u := by
  rw [removeUpdateCalls] at hu
  split at hu
  · exact absurd hu List.not_mem_nil
  · exact balancing_whenNode ht hu

variable [LinearOrder K]

theorem balancing_insert (key : K) (value : V) : ∀ {t : NodeRef K V}, Cached t →
    Sorted t.toList → ∀ u ∈ insertCalls key value t, Balancing u := by
  intro t
  induction t with
  | nil => intro _ _ u hu; exact absurd hu List.not_mem_nil
  | node n l r ihl ihr =>
    rintro ⟨-, hcl, hcr⟩ hs u hu
    rw [NodeRef.toList_node] at hs
    obtain ⟨hsl, hsr, _, _⟩ := sorted_middle.mp hs
    rw [insertCalls] at hu
    cases hc : compare n.key key with
    | lt =>
      obtain ⟨r', hr', hcr', -⟩ := insertRec_spec key value r hcr hsr
      rw [hc, hr'] at hu
      rcases List.mem_append.mp hu with hu | hu
      · exact ihr hcr hsr u hu
      · obtain rfl := List.mem_singleton.mp hu
        exact ⟨n, l, r', rfl, hcl, hcr'⟩
    | gt =>
      obtain ⟨l', hl', hcl', -⟩ := insertRec_spec key value l hcl hsl
      rw [hc, hl'] at hu
      rcases List.mem_append.mp hu with hu | hu
      · exact ihl hcl hsl u hu
      · obtain rfl := List.mem_singleton.mp hu
        exact ⟨n, l', r, rfl, hcl', hcr⟩
    | eq =>
      rw [hc] at hu
      obtain rfl := List.mem_singleton.mp hu
      exact ⟨_, l, r, rfl, hcl, hcr⟩

theorem balancing_remove (key : K) : ∀ {t : NodeRef K V}, Cached t → Sorted t.toList →
    ∀ u ∈ removeCalls key t, Balancing u := by
  intro t
  induction t with
  | nil => intro _ _ u hu; exact absurd hu List.not_mem_nil
  | node n l r ihl ihr =>
    rintro ⟨-, hcl, hcr⟩ hs u hu
    rw [NodeRef.toList_node] at hs
    obtain ⟨hsl, hsr, _, _⟩ := sorted_middle.mp hs
    rw [removeCalls] at hu
    cases hc : compare n.key key with
    | lt =>
      obtain ⟨removed, r', hr', -, -, hcr', -⟩ := removeRec_spec key r hcr hsr
      rw [hc, hr'] at hu
      rcases List.mem_append.mp hu with hu | hu
      · exact ihr hcr hsr u hu
      · rw [Option.toList_some, List.flatMap_singleton] at hu
        refine balancing_removeUpdate ?_ hu
        rintro _ _ _ ⟨⟩
        exact ⟨hcl, hcr'⟩
    | gt =>
      obtain ⟨removed, l', hl', -, -, hcl', -⟩ := removeRec_spec key l hcl hsl
      rw [hc, hl'] at hu
      rcases List.mem_append.mp hu with hu | hu
      · exact ihl hcl hsl u hu
      · rw [Option.toList_some, List.flatMap_singleton] at hu
        refine balancing_removeUpdate ?_ hu
        rintro _ _ _ ⟨⟩
        exact ⟨hcl', hcr⟩
    | eq =>
      -- what `remove_root` leaves was balanced in it, and is balanced once more
      obtain ⟨t', ht', hct', -⟩ := removeRoot_spec (n := n) hcl hcr
      rw [hc, ht'] at hu
      rcases List.mem_append.mp hu with hu | hu
      · exact balancing_removeRoot hcl hcr u hu
      · rw [Option.toList_some, List.flatMap_singleton] at hu
        refine balancing_removeUpdate ?_ hu
        rintro m a b rfl
        exact hct'.2

theorem AvlTree.Valid.balancing {t : AvlTree K V} (h : t.Valid) (op : TreeOp K V) :
    ∀ u ∈ t.balanceCalls op, Balancing u := by
  cases op with
  | insert key value => exact balancing_insert key value h.cached h.ordered
  | remove key => exact balancing_remove key h.cached h.ordered

/-- Every tree handed to `balance_node` in this call is one it can deal with. -/
def LiftsInCall (t : AvlTree K V) (op : TreeOp K V) : Prop :=
  ∀ u ∈ t.balanceCalls op, Lifts u ∧ ∃ u', balanceNode u = some u'

theorem AvlTree.Valid.lifts_along {t : AvlTree K V} (h : t.Valid) (ops : List (TreeOp K V)) :
    Along AvlTree.exec LiftsInCall t ops := by
  induction ops generalizing t with
  | nil => exact trivial
  | cons op ops ih =>
    refine ⟨fun u hu => ?_, fun o t₁ hexec => ?_⟩
    · have hbal := h.balancing op u hu
      exact ⟨hbal.lifts, hbal.balanceNode⟩
    · obtain ⟨o', t', hexec', hv⟩ := h.exec op
      obtain ⟨-, rfl⟩ := Prod.mk.inj (Option.some.inj (hexec.symm.trans hexec'))
      exact ih hv

/-- **Rebalancing never panics.** Every sequence of calls from the empty tree returns, and in
every call of it the trees handed to `balance_node` are nodes on which each rotation that is
started, the inner one of a double rotation included, finds the child it lifts. -/
theorem rebalancing_never_panics (ops : List (TreeOp K V)) :
    (∃ os t, runSteps AvlTree.exec AvlTree.new ops = some (os, t)) ∧
      Along AvlTree.exec LiftsInCall (AvlTree.new : AvlTree K V) ops := by
  obtain ⟨t, hrun, -⟩ := AvlTree.run_refines ops
  exact ⟨⟨_, t, hrun⟩, AvlTree.valid_new.lifts_along ops⟩

end Handed

/-! ## Undoing a rotation

A rotation refreshes the two nodes it touches, so it can be undone only where their caches were
right before; then a second refresh gives back what was there. -/

section Inverse

/-- The root has a left child. -/
def NodeRef.HasLeft (t : NodeRef K V) : Prop := ∃ n m ll lr r, t = .node n (.node m ll lr) r

def NodeRef.HasRight (t : NodeRef K V) : Prop := ∃ n m l rl rr, t = .node n l (.node m rl rr)

variable {t u : NodeRef K V}

theorem exists_rotateRight (h : t.HasLeft) : ∃ u, rotateRight t = some u := by
  obtain ⟨n, m, ll, lr, r, rfl⟩ := h
  exact ⟨_, rotateRight_node n m ll lr r⟩

theorem exists_rotateLeft (h : t.HasRight) : ∃ u, rotateLeft t = some u := by
  obtain ⟨n, m, l, rl, rr, rfl⟩ := h
  exact ⟨_, rotateLeft_node n m l rl rr⟩

/-- Lifted and put back, the left child and the root are refreshed, whatever their fields were. -/
theorem rotateLeft_lifted (n m : AvlNode K V) (ll lr r : NodeRef K V) :
    rotateLeft (refreshed m ll (refreshed n lr r)) = some (refreshed n (refreshed m ll lr) r) := by
  have hback := rotateLeft_node (m.update ll (refreshed n lr r)) (n.update lr r) ll lr r
  rwa [refreshed_update, refreshed_update] at hback

theorem rotateRight_lifted (n m : AvlNode K V) (l rl rr : NodeRef K V) :
    rotateRight (refreshed m (refreshed n l rl) rr) = some (refreshed n l (refreshed m rl rr)) := by
  have hback := rotateRight_node (m.update (refreshed n l rl) rr) (n.update l rl) l rl rr
  rwa [refreshed_update, refreshed_update] at hback

theorem toList_rotateRight (h : rotateRight t = some u) : u.toList = t.toList := by
  obtain ⟨n, m, ll, lr, r, rfl, rfl⟩ := rotateRight_eq_some_iff.mp h
  simp

theorem toList_rotateLeft (h : rotateLeft t = some u) : u.toList = t.toList := by
  obtain ⟨n, m, l, rl, rr, rfl, rfl⟩ := rotateLeft_eq_some_iff.mp h
  simp

variable [AsBytes K] [Borrow V]

/-- The lowered node is fresh over its new children, and so the lifted one over it. -/
theorem Cached.of_rotateRight (h : Cached t) (hright : rotateRight t = some u) : Cached u := by
  obtain ⟨n, m, ll, lr, r, rfl, rfl⟩ := rotateRight_eq_some_iff.mp hright
  obtain ⟨hn, ⟨hm, hll, hlr⟩, hr⟩ := h
  have hlowered : Cached (refreshed n lr r) := cached_refreshed hn.hash hlr hr
  exact cached_refreshed hm.hash hll hlowered

theorem Cached.of_rotateLeft (h : Cached t) (hleft : rotateLeft t = some u) : Cached u := by
  obtain ⟨n, m, l, rl, rr, rfl, rfl⟩ := rotateLeft_eq_some_iff.mp hleft
  obtain ⟨hn, hl, hm, hrl, hrr⟩ := h
  have hlowered : Cached (refreshed n l rl) := cached_refreshed hn.hash hl hrl
  exact cached_refreshed hm.hash hlowered hrr

theorem Cached.rotateLeft_rotateRight (h : Cached t) (hright : rotateRight t = some u) :
    rotateLeft u = some t := by
  obtain ⟨n, m, ll, lr, r, rfl, rfl⟩ := rotateRight_eq_some_iff.mp hright
  obtain ⟨hn, ⟨hm, -, -⟩, -⟩ := h
  rw [rotateLeft_lifted, hm.refreshed_eq, hn.refreshed_eq]

theorem Cached.rotateRight_rotateLeft (h : Cached t) (hleft : rotateLeft t = some u) :
    rotateRight u = some t := by
  obtain ⟨n, m, l, rl, rr, rfl, rfl⟩ := rotateLeft_eq_some_iff.mp hleft
  obtain ⟨hn, -, hm, -, -⟩ := h
  rw [rotateRight_lifted, hm.refreshed_eq, hn.refreshed_eq]

/-- **Rotations are inverse to each other.** On a tree no cached field of which is stale: where the
root has a left child, a right rotation returns, and a left rotation gives the tree back as it was,
and the other way round; and whatever a single rotation leaves lists the same pairs in the same
order, with no cached field stale. -/
theorem rotations_inverse (h : Cached t) :
    (t.HasLeft → ∃ u, rotateRight t = some u ∧ rotateLeft u = some t) ∧
    (t.HasRight → ∃ u, rotateLeft t = some u ∧ rotateRight u = some t) ∧
    ∀ u, rotateRight t = some u ∨ rotateLeft t = some u → u.toList = t.toList ∧ Cached u := by
  refine ⟨fun hchild => ?_, fun hchild => ?_, ?_⟩
  · obtain ⟨u, hright⟩ := exists_rotateRight hchild
    exact ⟨u, hright, h.rotateLeft_rotateRight hright⟩
  · obtain ⟨u, hleft⟩ := exists_rotateLeft hchild
    exact ⟨u, hleft, h.rotateRight_rotateLeft hleft⟩
  · rintro u (hright | hleft)
    · exact ⟨toList_rotateRight hright, h.of_rotateRight hright⟩
    · exact ⟨toList_rotateLeft hleft, h.of_rotateLeft hleft⟩

end Inverse

/-! ## The trees of the tests -/

section Five

/-- `build_node` of the tests. -/
def buildNode (key value : Bytes) (left right : NodeRef Bytes Bytes) :
    NodeRef Bytes Bytes :=
  refreshed (AvlNode.new key value) left right

theorem Cached.buildNode {key value : Bytes} {left right : NodeRef Bytes Bytes}
    (hl : Cached left) (hr : Cached right) : Cached (buildNode key value left right) :=
  cached_refreshed rfl hl hr

def beforeRotateRight : NodeRef Bytes Bytes :=
  buildNode [5] [5] (buildNode [3] [3] (asNodeRef [2] [2]) (asNodeRef [4] [4])) (asNodeRef [6] [6])

/-- The test of `rotate_right`, with any digest. -/
example : rotateRight beforeRotateRight = some (buildNode [3] [3] (asNodeRef [2] [2])
    (buildNode [5] [5] (asNodeRef [4] [4]) (asNodeRef [6] [6]))) := rfl

omit [Sha256] in
theorem rotations_inverse_five :
    letI := Sha256.ones
    (∃ u, rotateRight beforeRotateRight = some u ∧ rotateLeft u = some beforeRotateRight ∧
      u.toList = [([2], [2]), ([3], [3]), ([4], [4]), ([5], [5]), ([6], [6])] ∧ Cached u) ∧
    ∃ u, rotateLeft beforeRotateRight = some u ∧ rotateRight u = some beforeRotateRight := by
  let inst := Sha256.ones
  have hcached : Cached beforeRotateRight :=
    .buildNode (.buildNode (cached_asNodeRef _ _) (cached_asNodeRef _ _)) (cached_asNodeRef _ _)
  obtain ⟨hinverse, hinverse', hkeeps⟩ := rotations_inverse hcached
  obtain ⟨u, hright, hback⟩ := hinverse ⟨_, _, _, _, _, rfl⟩
  obtain ⟨hlist, hcached'⟩ := hkeeps u (.inl hright)
  exact ⟨⟨u, hright, hback, hlist, hcached'⟩, hinverse' ⟨_, _, _, _, _, rfl⟩⟩

end Five

end Basecoin.Avl
