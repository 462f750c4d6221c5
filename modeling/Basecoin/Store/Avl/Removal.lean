import Basecoin.Store.Avl.Balanced

/-!
# When a removal unbalances the tree

A removal that makes a subtree shorter can leave its sibling two levels too tall, and unlike after
an insertion that sibling need not lean. `balance_node` then rotates twice where a single rotation
would do. The grandchild it lifts is as tall as its own sibling, and if the side it gives away
there is its shorter one, the node lowered onto that side ends two levels out of balance. The
height of the whole has not changed, so no rotation further up repairs it.

`Breaks` says when a removal comes to that, looking at the tree before it: the path to the node
that goes (`removalPath`), which subtrees on it become shorter (`Shortens`), and their siblings.
`balanced_iff` is the exact statement over runs.
-/

namespace Basecoin.Avl

open Lib Lib.SortedMap

variable {K V : Type*}

/-! ## The path of a removal -/

inductive Side where
  | left
  | right
deriving DecidableEq

/-- The way to the node `remove_leftmost` detaches. -/
def leftmostPath : NodeRef K V → List Side
  | .nil => []
  | .node _ .nil _ => []
  | .node _ (.node m ll lr) _ => .left :: leftmostPath (.node m ll lr)

/-- The way to the node `remove_rightmost` detaches. -/
def rightmostPath : NodeRef K V → List Side
  | .nil => []
  | .node _ _ .nil => []
  | .node _ _ (.node m rl rr) => .right :: rightmostPath (.node m rl rr)

/-- The way from a root that is removed to the node that leaves its place: its own, if it has
only one child. -/
def rootPath (l r : NodeRef K V) : List Side :=
  if r.isNone || l.isNone then []
  else if balanceFactor l r ≤ 0 then .right :: leftmostPath r
  else .left :: rightmostPath l

/-- The way to the node that leaves its place when a key is removed. -/
def removalPath [LinearOrder K] (key : K) : NodeRef K V → List Side
  | .nil => []
  | .node n l r =>
    match compare n.key key with
    | .gt => .left :: removalPath key l
    | .lt => .right :: removalPath key r
    | .eq => rootPath l r

/-- Taking out the node at the end of the path makes the tree a level shorter: it makes the child
on the path shorter, and that was the taller one, or its sibling is and leans. -/
def Shortens : List Side → NodeRef K V → Prop
  | _, .nil => False
  | [], .node _ _ _ => True
  | .left :: path, .node _ l r =>
    Shortens path l ∧ (r.levels < l.levels ∨ l.levels < r.levels ∧ r.rootFactor ≠ 0)
  | .right :: path, .node _ l r =>
    Shortens path r ∧ (l.levels < r.levels ∨ r.levels < l.levels ∧ l.rootFactor ≠ 0)

/-- Somewhere on the path a child becomes shorter whose sibling is taller, does not lean, and has
a child on the near side that leans away. -/
def Breaks : List Side → NodeRef K V → Prop
  | .left :: path, .node _ l r =>
    Breaks path l ∨
      Shortens path l ∧ l.levels < r.levels ∧ r.rootFactor = 0 ∧ r.left.rootFactor = 1
  | .right :: path, .node _ l r =>
    Breaks path r ∨
      Shortens path r ∧ r.levels < l.levels ∧ l.rootFactor = 0 ∧ l.right.rootFactor = -1
  | _, _ => False

instance decidableShortens : ∀ (path : List Side) (t : NodeRef K V), Decidable (Shortens path t)
  | [], .nil => isFalse not_false
  | .left :: _, .nil => isFalse not_false
  | .right :: _, .nil => isFalse not_false
  | [], .node _ _ _ => isTrue trivial
  | .left :: path, .node _ l _ =>
    have := decidableShortens path l
    inferInstanceAs (Decidable (_ ∧ _))
  | .right :: path, .node _ _ r =>
    have := decidableShortens path r
    inferInstanceAs (Decidable (_ ∧ _))

instance decidableBreaks : ∀ (path : List Side) (t : NodeRef K V), Decidable (Breaks path t)
  | .left :: path, .node _ l _ =>
    have := decidableBreaks path l
    inferInstanceAs (Decidable (_ ∨ _))
  | .right :: path, .node _ _ r =>
    have := decidableBreaks path r
    inferInstanceAs (Decidable (_ ∨ _))
  | [], .nil => isFalse not_false
  | [], .node _ _ _ => isFalse not_false
  | .left :: _, .nil => isFalse not_false
  | .right :: _, .nil => isFalse not_false

/-- Where a removal breaks the balance it does not make the tree shorter. -/
theorem Breaks.not_shortens : ∀ {path : List Side} {t : NodeRef K V}, Breaks path t →
    ¬ Shortens path t := by
  intro path
  induction path with
  | nil => intro t h; cases t <;> exact absurd h not_false
  | cons side path ih =>
    intro t h hs
    cases t with
    | nil => exact hs
    | node n l r =>
      cases side with
      | left =>
        rcases h with h | ⟨-, hlt, heven, -⟩
        · exact ih h hs.1
        · rcases hs.2 with hgt | ⟨-, hlean⟩
          · exact absurd hlt (by omega)
          · exact hlean heven
      | right =>
        rcases h with h | ⟨-, hlt, heven, -⟩
        · exact ih h hs.1
        · rcases hs.2 with hgt | ⟨-, hlean⟩
          · exact absurd hlt (by omega)
          · exact hlean heven

/-! ## The effect of a removal

What a call leaves of a balanced subtree: whether it is balanced still, though its root always is,
and whether it lost a level. The path tells, and the parent needs to know no more. -/

section Effect

variable [Sha256] [AsBytes K] [Borrow V]

/-- What taking out the node at the end of the path leaves of a balanced tree. -/
structure Effect (path : List Side) (t t' : NodeRef K V) : Prop where
  cached : Cached t'
  balanced : Balanced t' ↔ ¬ Breaks path t
  root : RootWithinOne t'
  shorter : Shortens path t → t'.levels + 1 = t.levels
  same : ¬ Shortens path t → t'.levels = t.levels

/-- A node with one child is replaced by it. -/
theorem effect_nil {n : AvlNode K V} {l r t' : NodeRef K V} (hc : Cached t') (hb : Balanced t')
    (hlevels : t'.levels + 1 = (NodeRef.node n l r).levels) : Effect [] (.node n l r) t' :=
  { cached := hc
    balanced := iff_of_true hb not_false
    root := hb.root
    shorter := fun _ => hlevels
    same := fun h => absurd trivial h }

omit [Sha256] [AsBytes K] [Borrow V] in
/-- Trees of one level do not lean. -/
theorem rootFactor_of_levels {t : NodeRef K V} (h : t.levels ≤ 1) : t.rootFactor = 0 := by
  cases t with
  | nil => rfl
  | node n l r =>
    cases l with
    | node m ll lr => simp at h
    | nil =>
      cases r with
      | node m rl rr => simp at h
      | nil => rfl

omit [Sha256] [AsBytes K] [Borrow V] in
theorem levels_left_le {t : NodeRef K V} {k : Nat} (h : t.levels ≤ k + 1) :
    t.left.levels ≤ k := by
  cases t with
  | nil => exact Nat.zero_le k
  | node n l r => exact (le_max_left _ _).trans (Nat.le_of_succ_le_succ h)

omit [Sha256] [AsBytes K] [Borrow V] in
theorem levels_right_le {t : NodeRef K V} {k : Nat} (h : t.levels ≤ k + 1) :
    t.right.levels ≤ k := by
  cases t with
  | nil => exact Nat.zero_le k
  | node n l r => exact (le_max_right _ _).trans (Nat.le_of_succ_le_succ h)

/-- Trees of two levels do not lean either: a leaf counts as a missing child. -/
theorem rootFactor_of_levels_two {t : NodeRef K V} (hc : Cached t) (h : t.levels ≤ 2) :
    t.rootFactor = 0 := by
  cases t with
  | nil => rfl
  | node n l r =>
    rw [NodeRef.levels_node] at h
    rw [NodeRef.rootFactor_node, balanceFactor_levels hc.2.1 hc.2.2]
    omega

theorem Effect.of_left_same {path : List Side} {n m : AvlNode K V} {l l' r t' : NodeRef K V}
    (h : Effect path l l') (hs : ¬ Shortens path l) (hreb : Rebalanced (.node n l' r) t')
    (hct : Cached t') (hc : Cached l) (hcr : Cached r) (hr : Balanced r) (hin : WithinOne l r) :
    Effect (.left :: path) (.node m l r) t' := by
  have hlevels := h.same hs
  have hw : WithinOne l' r := by
    rw [withinOne_iff h.cached hcr, hlevels]
    exact (withinOne_iff hc hcr).mp hin
  obtain rfl := hreb.eq_of_withinOne hw
  have hbreaks : Breaks (.left :: path) (.node m l r) ↔ Breaks path l :=
    ⟨fun hb => hb.elim id fun hb => absurd hb.1 hs, .inl⟩
  refine ⟨hct, ?_, hw, fun hsh => absurd hsh.1 hs, fun _ => ?_⟩
  · rw [hbreaks, balanced_node, ← h.balanced]
    exact ⟨fun hb => hb.2.1, fun hb => ⟨hw, hb, hr⟩⟩
  · rw [NodeRef.levels_node, NodeRef.levels_node, hlevels]

theorem Effect.of_right_same {path : List Side} {n m : AvlNode K V} {l r r' t' : NodeRef K V}
    (h : Effect path r r') (hs : ¬ Shortens path r) (hreb : Rebalanced (.node n l r') t')
    (hct : Cached t') (hcl : Cached l) (hc : Cached r) (hl : Balanced l) (hin : WithinOne l r) :
    Effect (.right :: path) (.node m l r) t' := by
  have hlevels := h.same hs
  have hw : WithinOne l r' := by
    rw [withinOne_iff hcl h.cached, hlevels]
    exact (withinOne_iff hcl hc).mp hin
  obtain rfl := hreb.eq_of_withinOne hw
  have hbreaks : Breaks (.right :: path) (.node m l r) ↔ Breaks path r :=
    ⟨fun hb => hb.elim id fun hb => absurd hb.1 hs, .inl⟩
  refine ⟨hct, ?_, hw, fun hsh => absurd hsh.1 hs, fun _ => ?_⟩
  · rw [hbreaks, balanced_node, ← h.balanced]
    exact ⟨fun hb => hb.2.2, fun hb => ⟨hw, hl, hb⟩⟩
  · rw [NodeRef.levels_node, NodeRef.levels_node, hlevels]

omit [Sha256] [AsBytes K] [Borrow V] in
/-- Below a node whose child on the path becomes shorter, nothing breaks. -/
theorem breaks_left {path : List Side} {m : AvlNode K V} {l r : NodeRef K V}
    (hs : Shortens path l) : Breaks (.left :: path) (.node m l r) ↔
      l.levels < r.levels ∧ r.rootFactor = 0 ∧ r.left.rootFactor = 1 :=
  ⟨fun hb => hb.elim (fun hb => absurd hs hb.not_shortens) And.right, fun hb => .inr ⟨hs, hb⟩⟩

omit [Sha256] [AsBytes K] [Borrow V] in
theorem breaks_right {path : List Side} {m : AvlNode K V} {l r : NodeRef K V}
    (hs : Shortens path r) : Breaks (.right :: path) (.node m l r) ↔
      r.levels < l.levels ∧ l.rootFactor = 0 ∧ l.right.rootFactor = -1 :=
  ⟨fun hb => hb.elim (fun hb => absurd hs hb.not_shortens) And.right, fun hb => .inr ⟨hs, hb⟩⟩

/-- A shorter child that is still within one of its sibling: if the sibling is taller, it has two
levels, and then neither it nor its children lean. -/
theorem Effect.of_left_kept {path : List Side} {n m : AvlNode K V} {l l' r : NodeRef K V}
    (h : Effect path l l') (hs : Shortens path l) (hw : WithinOne l' r)
    (hct : Cached (.node n l' r)) (hc : Cached l) (hcr : Cached r) (hr : Balanced r)
    (hin : WithinOne l r) : Effect (.left :: path) (.node m l r) (.node n l' r) := by
  have hlevels := h.shorter hs
  have hl' : Balanced l' := h.balanced.mpr fun hb => hb.not_shortens hs
  have hnear := (withinOne_iff hc hcr).mp hin
  have hnear' := (withinOne_iff h.cached hcr).mp hw
  unfold Near at hnear hnear'
  have hshortens : Shortens (.left :: path) (.node m l r) ↔
      r.levels < l.levels ∨ l.levels < r.levels ∧ r.rootFactor ≠ 0 := and_iff_right hs
  have htwo : l.levels < r.levels → r.levels ≤ 2 := by omega
  refine ⟨hct, iff_of_true ⟨hw, hl', hr⟩ ?_, hw, ?_, ?_⟩
  · -- a grandchild of one level at most does not lean, so nothing breaks
    rw [breaks_left hs]
    rintro ⟨hlt, -, hgrand⟩
    have hzero : r.left.rootFactor = 0 := rootFactor_of_levels (levels_left_le (htwo hlt))
    omega
  · rw [hshortens, NodeRef.levels_node, NodeRef.levels_node]
    rintro (hgt | ⟨hlt, hlean⟩)
    · omega
    · exact absurd (rootFactor_of_levels_two hcr (htwo hlt)) hlean
  · rw [hshortens, NodeRef.levels_node, NodeRef.levels_node]
    intro hno
    omega

theorem Effect.of_right_kept {path : List Side} {n m : AvlNode K V} {l r r' : NodeRef K V}
    (h : Effect path r r') (hs : Shortens path r) (hw : WithinOne l r')
    (hct : Cached (.node n l r')) (hcl : Cached l) (hc : Cached r) (hl : Balanced l)
    (hin : WithinOne l r) : Effect (.right :: path) (.node m l r) (.node n l r') := by
  have hlevels := h.shorter hs
  have hr' : Balanced r' := h.balanced.mpr fun hb => hb.not_shortens hs
  have hnear := (withinOne_iff hcl hc).mp hin
  have hnear' := (withinOne_iff hcl h.cached).mp hw
  unfold Near at hnear hnear'
  have hshortens : Shortens (.right :: path) (.node m l r) ↔
      l.levels < r.levels ∨ r.levels < l.levels ∧ l.rootFactor ≠ 0 := and_iff_right hs
  have htwo : r.levels < l.levels → l.levels ≤ 2 := by omega
  refine ⟨hct, iff_of_true ⟨hw, hl, hr'⟩ ?_, hw, ?_, ?_⟩
  · rw [breaks_right hs]
    rintro ⟨hlt, -, hgrand⟩
    have hzero : l.right.rootFactor = 0 := rootFactor_of_levels (levels_right_le (htwo hlt))
    omega
  · rw [hshortens, NodeRef.levels_node, NodeRef.levels_node]
    rintro (hgt | ⟨hlt, hlean⟩)
    · omega
    · exact absurd (rootFactor_of_levels_two hcl (htwo hlt)) hlean
  · rw [hshortens, NodeRef.levels_node, NodeRef.levels_node]
    intro hno
    omega

/-- A shorter child whose sibling is two levels taller now: the sibling is rotated. -/
theorem Effect.of_left_rotated {path : List Side} {n m : AvlNode K V} {l l' r t' : NodeRef K V}
    (h : Effect path l l') (hs : Shortens path l) (hw : ¬ WithinOne l' r)
    (hreb : Rebalanced (.node n l' r) t') (hct : Cached t') (hc : Cached l) (hcr : Cached r)
    (hr : Balanced r) (hin : WithinOne l r) : Effect (.left :: path) (.node m l r) t' := by
  have hlevels := h.shorter hs
  have hl' : Balanced l' := h.balanced.mpr fun hb => hb.not_shortens hs
  rw [withinOne_iff h.cached hcr] at hw
  rw [withinOne_iff hc hcr] at hin
  unfold Near at hw hin
  have htall : balanceFactor l' r = -2 := by
    rw [balanceFactor_levels h.cached hcr]
    omega
  -- a missing child and a leaf count the same, so a child that is too short by two is there
  have hpresent : l' ≠ .nil := by
    rintro rfl
    rw [NodeRef.levels_nil] at hlevels hw
    omega
  obtain ⟨hbal, hroot, hlevels'⟩ :=
    hreb.of_right_tall hct h.cached hcr hl' hr htall (fun _ => hpresent)
  have hlt : l.levels < r.levels := by omega
  have hshortens : Shortens (.left :: path) (.node m l r) ↔ r.rootFactor ≠ 0 :=
    ⟨fun hsh => hsh.2.elim (fun hgt => absurd hlt (by omega)) And.right,
      fun hlean => ⟨hs, .inr ⟨hlt, hlean⟩⟩⟩
  refine ⟨hct, ?_, hroot, ?_, ?_⟩
  · rw [hbal, breaks_left hs]
    exact not_congr (and_iff_right hlt).symm
  · rw [hshortens, hlevels', NodeRef.levels_node]
    intro hlean
    rw [if_neg hlean]
    omega
  · rw [hshortens, not_not, hlevels', NodeRef.levels_node]
    intro heven
    rw [if_pos heven]
    omega

theorem Effect.of_right_rotated {path : List Side} {n m : AvlNode K V} {l r r' t' : NodeRef K V}
    (h : Effect path r r') (hs : Shortens path r) (hw : ¬ WithinOne l r')
    (hreb : Rebalanced (.node n l r') t') (hct : Cached t') (hcl : Cached l) (hc : Cached r)
    (hl : Balanced l) (hin : WithinOne l r) : Effect (.right :: path) (.node m l r) t' := by
  have hlevels := h.shorter hs
  have hr' : Balanced r' := h.balanced.mpr fun hb => hb.not_shortens hs
  rw [withinOne_iff hcl h.cached] at hw
  rw [withinOne_iff hcl hc] at hin
  unfold Near at hw hin
  have htall : balanceFactor l r' = 2 := by
    rw [balanceFactor_levels hcl h.cached]
    omega
  have hpresent : r' ≠ .nil := by
    rintro rfl
    rw [NodeRef.levels_nil] at hlevels hw
    omega
  obtain ⟨hbal, hroot, hlevels'⟩ :=
    hreb.of_left_tall hct hcl h.cached hl hr' htall (fun _ => hpresent)
  have hlt : r.levels < l.levels := by omega
  have hshortens : Shortens (.right :: path) (.node m l r) ↔ l.rootFactor ≠ 0 :=
    ⟨fun hsh => hsh.2.elim (fun hgt => absurd hlt (by omega)) And.right,
      fun hlean => ⟨hs, .inr ⟨hlt, hlean⟩⟩⟩
  refine ⟨hct, ?_, hroot, ?_, ?_⟩
  · rw [hbal, breaks_right hs]
    exact not_congr (and_iff_right hlt).symm
  · rw [hshortens, hlevels', NodeRef.levels_node]
    intro hlean
    rw [if_neg hlean]
    omega
  · rw [hshortens, not_not, hlevels', NodeRef.levels_node]
    intro heven
    rw [if_pos heven]
    omega

/-- One node further up. -/
theorem Effect.of_left {path : List Side} {n m : AvlNode K V} {l l' r t' : NodeRef K V}
    (h : Effect path l l') (hreb : Rebalanced (.node n l' r) t') (hct : Cached t')
    (hc : Cached l) (hcr : Cached r) (hr : Balanced r) (hin : WithinOne l r) :
    Effect (.left :: path) (.node m l r) t' := by
  by_cases hs : Shortens path l
  · by_cases hw : WithinOne l' r
    · obtain rfl := hreb.eq_of_withinOne hw
      exact h.of_left_kept hs hw hct hc hcr hr hin
    · exact h.of_left_rotated hs hw hreb hct hc hcr hr hin
  · exact h.of_left_same hs hreb hct hc hcr hr hin

theorem Effect.of_right {path : List Side} {n m : AvlNode K V} {l r r' t' : NodeRef K V}
    (h : Effect path r r') (hreb : Rebalanced (.node n l r') t') (hct : Cached t')
    (hcl : Cached l) (hc : Cached r) (hl : Balanced l) (hin : WithinOne l r) :
    Effect (.right :: path) (.node m l r) t' := by
  by_cases hs : Shortens path r
  · by_cases hw : WithinOne l r'
    · obtain rfl := hreb.eq_of_withinOne hw
      exact h.of_right_kept hs hw hct hcl hc hl hin
    · exact h.of_right_rotated hs hw hreb hct hcl hc hl hin
  · exact h.of_right_same hs hreb hct hcl hc hl hin

/-! ## The removal functions -/

theorem removeLeftmost_effect : ∀ {t : NodeRef K V}, Cached t → Balanced t → t ≠ .nil →
    ∀ {removed t' : NodeRef K V}, removeLeftmost t = some (removed, t') →
      Effect (leftmostPath t) t t' := by
  intro t
  induction t with
  | nil => intro _ _ hne; exact absurd rfl hne
  | node n l r ihl _ =>
    rintro ⟨hn, hcl, hcr⟩ ⟨hin, hl, hr⟩ _ removed t' h
    cases l with
    | nil =>
      obtain ⟨-, rfl⟩ := Prod.mk.inj (Option.some.inj h)
      exact effect_nil hcr hr (by simp)
    | node m ll lr =>
      obtain ⟨x, l', hl', -, hcl', -⟩ := removeLeftmost_spec _ hcl (by simp)
      obtain ⟨t₁, ht₁, hreb, hct, -⟩ := updateBalance_spec hn.hash hcl' hcr
      simp only [removeLeftmost, hl', Option.bind_some, ht₁, Option.map_some, Option.some.injEq,
        Prod.mk.injEq] at h
      obtain ⟨-, rfl⟩ := h
      exact (ihl hcl hl (by simp) hl').of_left hreb hct hcl hcr hr hin

theorem removeRightmost_effect : ∀ {t : NodeRef K V}, Cached t → Balanced t → t ≠ .nil →
    ∀ {removed t' : NodeRef K V}, removeRightmost t = some (removed, t') →
      Effect (rightmostPath t) t t' := by
  intro t
  induction t with
  | nil => intro _ _ hne; exact absurd rfl hne
  | node n l r _ ihr =>
    rintro ⟨hn, hcl, hcr⟩ ⟨hin, hl, hr⟩ _ removed t' h
    cases r with
    | nil =>
      obtain ⟨-, rfl⟩ := Prod.mk.inj (Option.some.inj h)
      exact effect_nil hcl hl (by simp)
    | node m rl rr =>
      obtain ⟨x, r', hr', -, hcr', -⟩ := removeRightmost_spec _ hcr (by simp)
      obtain ⟨t₁, ht₁, hreb, hct, -⟩ := updateBalance_spec hn.hash hcl hcr'
      simp only [removeRightmost, hr', Option.bind_some, ht₁, Option.map_some, Option.some.injEq,
        Prod.mk.injEq] at h
      obtain ⟨-, rfl⟩ := h
      exact (ihr hcr hr (by simp) hr').of_right hreb hct hcl hcr hl hin

/-- A node that is refreshed and balanced once more stays as it is: its factor is within one. -/
theorem Effect.updateBalance {path : List Side} {t a b t' : NodeRef K V} {m : AvlNode K V}
    (h : Effect path t (.node m a b)) (ht' : updateBalance m a b = some t') : Effect path t t' := by
  obtain ⟨hm, ha, hb⟩ := h.cached
  obtain ⟨t₁, ht₁, hreb, hct, -⟩ := updateBalance_spec hm.hash ha hb
  obtain rfl : t₁ = t' := Option.some.inj (ht₁.symm.trans ht')
  obtain rfl := hreb.eq_of_withinOne h.root
  exact ⟨hct, h.balanced, h.root, h.shorter, h.same⟩

theorem removeRoot_effect {n : AvlNode K V} {l r removed t' : NodeRef K V} (hcl : Cached l)
    (hcr : Cached r) (hl : Balanced l) (hr : Balanced r) (hin : WithinOne l r)
    (h : removeRoot (.node n l r) = some (removed, t')) :
    Effect (rootPath l r) (.node n l r) t' := by
  cases r with
  | nil =>
    -- the left child takes the place, refreshed
    have heff : Effect [] (.node n l .nil) l := effect_nil hcl hl (by simp)
    cases l with
    | nil =>
      obtain ⟨-, rfl⟩ := Prod.mk.inj (Option.some.inj h)
      exact heff
    | node m a b =>
      obtain ⟨t₁, ht₁, heq⟩ := Option.map_eq_some_iff.mp h
      obtain ⟨-, rfl⟩ := Prod.mk.inj heq
      exact heff.updateBalance ht₁
  | node y yl yr =>
    cases l with
    | nil =>
      have heff : Effect [] (.node n .nil (.node y yl yr)) (.node y yl yr) :=
        effect_nil hcr hr (by simp)
      obtain ⟨t₁, ht₁, heq⟩ := Option.map_eq_some_iff.mp h
      obtain ⟨-, rfl⟩ := Prod.mk.inj heq
      exact heff.updateBalance ht₁
    | node x xl xr =>
      simp only [rootPath, NodeRef.isNone, Bool.or_self, Bool.false_eq_true, if_false]
      simp only [removeRoot, removeRootSubstitute, NodeRef.isNone, Bool.false_eq_true,
        if_false] at h
      by_cases hbf : balanceFactor (.node x xl xr) (.node y yl yr) ≤ 0
      · rw [if_pos hbf] at h ⊢
        obtain ⟨m, r', hr', hm, hcr', -⟩ := removeLeftmost_spec _ hcr (by simp)
        obtain ⟨t₁, ht₁, hreb, hct, -⟩ := updateBalance_spec hm hcl hcr'
        simp only [hr', Option.map_some, Option.bind_some, ht₁, Option.some.injEq,
          Prod.mk.injEq] at h
        obtain ⟨-, rfl⟩ := h
        exact (removeLeftmost_effect hcr hr (by simp) hr').of_right hreb hct hcl hcr hl hin
      · rw [if_neg hbf] at h ⊢
        obtain ⟨m, l', hl', hm, hcl', -⟩ := removeRightmost_spec _ hcl (by simp)
        obtain ⟨t₁, ht₁, hreb, hct, -⟩ := updateBalance_spec hm hcl' hcr
        simp only [hl', Option.map_some, Option.bind_some, ht₁, Option.some.injEq,
          Prod.mk.injEq] at h
        obtain ⟨-, rfl⟩ := h
        exact (removeRightmost_effect hcl hl (by simp) hl').of_left hreb hct hcl hcr hr hin

omit [AsBytes K] [Borrow V] in
theorem removeUpdate_fst {removed t r t' : NodeRef K V}
    (h : removeUpdate removed t = some (r, t')) : r = removed := by
  cases t with
  | nil => exact (Prod.mk.inj (Option.some.inj h)).1.symm
  | node n a b =>
    rw [removeUpdate] at h
    split at h
    · exact (Prod.mk.inj (Option.some.inj h)).1.symm
    · obtain ⟨t₁, -, heq⟩ := Option.map_eq_some_iff.mp h
      exact (Prod.mk.inj heq).1.symm

/-- The last step of `remove_rec`, above a child the removal went through. -/
theorem removeUpdate_rebalanced {n : AvlNode K V} {l r removed t' : NodeRef K V} (hcl : Cached l)
    (hcr : Cached r) (hn : n.hash = localHash n.key n.value)
    (hsame : removed = .nil → WithinOne l r)
    (h : removeUpdate removed (.node n l r) = some (removed, t')) :
    ∃ n', Rebalanced (.node n' l r) t' := by
  cases removed with
  | nil =>
    obtain ⟨-, rfl⟩ := Prod.mk.inj (Option.some.inj h)
    have hin := hsame rfl
    exact ⟨n, .keep (by have := hin.1; omega) (by have := hin.2; omega)⟩
  | node x xl xr =>
    obtain ⟨t₁, ht₁, hreb, -⟩ := updateBalance_spec hn hcl hcr
    simp only [removeUpdate, NodeRef.isNone, Bool.false_eq_true, if_false, ht₁, Option.map_some,
      Option.some.injEq, Prod.mk.injEq, true_and] at h
    obtain rfl := h
    exact ⟨_, hreb⟩

variable [LinearOrder K]

theorem removeRec_effect (key : K) : ∀ {t : NodeRef K V}, Cached t → Sorted t.toList →
    Balanced t → ∀ {removed t' : NodeRef K V}, removeRec key t = some (removed, t') →
      Effect (removalPath key t) t t' := by
  intro t
  induction t with
  | nil =>
    intro _ _ _ removed t' h
    obtain ⟨-, rfl⟩ := Prod.mk.inj (Option.some.inj h)
    exact ⟨cached_nil, iff_of_true balanced_nil not_false, balanced_nil.root,
      fun hs => absurd hs not_false,
      fun _ => rfl⟩
  | node n l r ihl ihr =>
    rintro hct hs ⟨hin, hl, hr⟩ removed t' h
    obtain ⟨_, t₂, ht₂, -, -, hct', -⟩ := removeRec_spec key (.node n l r) hct hs
    obtain rfl : t' = t₂ := (Prod.mk.inj (Option.some.inj (h.symm.trans ht₂))).2
    obtain ⟨hn, hcl, hcr⟩ := hct
    rw [NodeRef.toList_node] at hs
    obtain ⟨hsl, hsr, _, _⟩ := sorted_middle.mp hs
    simp only [removeRec, removalPath] at h ⊢
    cases hc : compare n.key key with
    | lt =>
      obtain ⟨removed', r', hr', -, hsame, hcr', -⟩ := removeRec_spec key r hcr hsr
      have heff := ihr hcr hsr hr hr'
      simp only [hc, hr', Option.bind_some] at h
      obtain rfl : removed = removed' := removeUpdate_fst h
      -- where nothing was removed the node is not balanced again, and its children are as they were
      obtain ⟨n', hreb⟩ := removeUpdate_rebalanced hcl hcr' hn.hash
        (fun hnil => by rw [hsame hnil]; exact hin) h
      exact heff.of_right hreb hct' hcl hcr hl hin
    | gt =>
      obtain ⟨removed', l', hl', -, hsame, hcl', -⟩ := removeRec_spec key l hcl hsl
      have heff := ihl hcl hsl hl hl'
      simp only [hc, hl', Option.bind_some] at h
      obtain rfl : removed = removed' := removeUpdate_fst h
      obtain ⟨n', hreb⟩ := removeUpdate_rebalanced hcl' hcr hn.hash
        (fun hnil => by rw [hsame hnil]; exact hin) h
      exact heff.of_left hreb hct' hcl hcr hr hin
    | eq =>
      obtain ⟨t₁, ht₁, -, -⟩ := removeRoot_spec (n := n) hcl hcr
      have heff := removeRoot_effect hcl hcr hl hr hin ht₁
      simp only [hc, ht₁, Option.bind_some] at h
      cases t₁ with
      | nil =>
        obtain ⟨-, rfl⟩ := Prod.mk.inj (Option.some.inj h)
        exact heff
      | node m a b =>
        obtain ⟨t₃, ht₃, heq⟩ := Option.map_eq_some_iff.mp h
        obtain ⟨-, rfl⟩ := Prod.mk.inj heq
        exact heff.updateBalance ht₃

/-! ## Runs -/

/-- The call does not come to a double rotation that breaks the balance. -/
def KeepsBalance (t : AvlTree K V) : TreeOp K V → Prop
  | .insert _ _ => True
  | .remove key => ¬ Breaks (removalPath key t.root) t.root

instance (t : AvlTree K V) : DecidablePred (KeepsBalance t)
  | .insert _ _ => isTrue trivial
  | .remove key => inferInstanceAs (Decidable (¬ Breaks (removalPath key t.root) t.root))

/-- One call on a balanced tree. -/
theorem AvlTree.Valid.exec_balanced {t t' : AvlTree K V} (h : t.Valid) (hb : Balanced t.root)
    {op : TreeOp K V} {o : Option V} (hexec : t.exec op = some (o, t')) :
    Balanced t'.root ↔ KeepsBalance t op := by
  cases op with
  | insert key value =>
    obtain ⟨⟨old, root⟩, hrec, heq⟩ := Option.map_eq_some_iff.mp hexec
    obtain ⟨-, rfl⟩ := Prod.mk.inj heq
    exact iff_of_true (insertRec_balanced key value h.cached h.ordered hb hrec).1 trivial
  | remove key =>
    obtain ⟨⟨removed, root⟩, hrec, heq⟩ := Option.map_eq_some_iff.mp hexec
    obtain ⟨-, rfl⟩ := Prod.mk.inj heq
    exact (removeRec_effect key h.cached h.ordered hb hrec).balanced

/-- Every tree of a run is balanced, the first one included. -/
def StaysBalanced (t : AvlTree K V) (ops : List (TreeOp K V)) : Prop :=
  ∀ before os t', before <+: ops → runSteps AvlTree.exec t before = some (os, t') →
    Balanced t'.root

theorem staysBalanced_cons {t t₁ : AvlTree K V} {op : TreeOp K V} {o : Option V}
    {ops : List (TreeOp K V)} (hb : Balanced t.root) (hexec : t.exec op = some (o, t₁)) :
    StaysBalanced t (op :: ops) ↔ StaysBalanced t₁ ops := by
  constructor
  · intro h before os t' hpre hrun
    exact h (op :: before) (o :: os) t' (List.cons_prefix_cons.mpr ⟨rfl, hpre⟩)
      (runSteps_cons.mpr ⟨o, t₁, os, hexec, hrun, rfl⟩)
  · intro h before os t' hpre hrun
    cases before with
    | nil =>
      obtain ⟨-, rfl⟩ := Prod.mk.inj (Option.some.inj hrun)
      exact hb
    | cons op' before =>
      obtain ⟨rfl, hpre'⟩ := List.cons_prefix_cons.mp hpre
      obtain ⟨o', t₂, os', hexec', hrun', -⟩ := runSteps_cons.mp hrun
      obtain ⟨-, rfl⟩ := Prod.mk.inj (Option.some.inj (hexec.symm.trans hexec'))
      exact h before os' t' hpre' hrun'

theorem AvlTree.Valid.staysBalanced_iff {t : AvlTree K V} (h : t.Valid) (hb : Balanced t.root)
    (ops : List (TreeOp K V)) :
    StaysBalanced t ops ↔ Along AvlTree.exec KeepsBalance t ops := by
  induction ops generalizing t with
  | nil =>
    refine iff_of_true (fun before os t' hpre hrun => ?_) trivial
    obtain rfl := List.prefix_nil.mp hpre
    obtain ⟨-, rfl⟩ := Prod.mk.inj (Option.some.inj hrun)
    exact hb
  | cons op ops ih =>
    obtain ⟨o, t₁, hexec, hv⟩ := h.exec op
    have hkeeps := h.exec_balanced hb hexec
    have halong : Along AvlTree.exec KeepsBalance t (op :: ops) ↔
        KeepsBalance t op ∧ Along AvlTree.exec KeepsBalance t₁ ops := by
      refine and_congr_right fun _ => ⟨fun hrest => hrest o t₁ hexec, fun hrest o' t' hexec' => ?_⟩
      obtain ⟨-, rfl⟩ := Prod.mk.inj (Option.some.inj (hexec.symm.trans hexec'))
      exact hrest
    rw [staysBalanced_cons hb hexec, halong]
    by_cases hb₁ : Balanced t₁.root
    · rw [ih hv hb₁]
      exact (and_iff_right (hkeeps.mp hb₁)).symm
    · refine iff_of_false (fun hstays => hb₁ ?_) (fun hand => hb₁ (hkeeps.mpr hand.1))
      exact hstays [] [] t₁ List.nil_prefix rfl

/-- **The tree stays balanced exactly as long as no removal breaks it.** Every sequence of calls
from the empty tree returns, and after each of them every node's balance factor is -1, 0 or 1, if
and only if no removal of the sequence makes a subtree shorter whose sibling is a level taller,
does not lean, and has a child on the near side that leans away. -/
theorem balanced_iff (ops : List (TreeOp K V)) :
    (∃ os t, runSteps AvlTree.exec AvlTree.new ops = some (os, t)) ∧
      (StaysBalanced AvlTree.new ops ↔ Along AvlTree.exec KeepsBalance AvlTree.new ops) := by
  obtain ⟨t, hrun, -⟩ := AvlTree.run_refines ops
  exact ⟨⟨_, t, hrun⟩, AvlTree.valid_new.staysBalanced_iff balanced_nil ops⟩

end Effect

/-! ## Eleven keys and a removal -/

section Eleven

local instance elevenSha256 : Sha256 := Sha256.ones

local instance elevenAsBytes : AsBytes Nat := ⟨fun n => [UInt8.ofNat n]⟩

/-- Eleven insertions, and the removal that leaves the node of key 3 with balance factor 2. -/
def elevenCalls : List (TreeOp Nat Bytes) :=
  [10, 7, 3, 8, 0, 4, 6, 2, 9, 1, 5].map (fun key => .insert key []) ++ [.remove 8]

theorem eleven_unbalanced :
    ∃ os t, runSteps AvlTree.exec AvlTree.new elevenCalls = some (os, t) ∧ ¬ Balanced t.root := by
  have hrun : (runSteps AvlTree.exec AvlTree.new elevenCalls).map
      (fun r => decide (Balanced r.2.root)) = some false := by decide +kernel
  obtain ⟨⟨os, t⟩, ht, hb⟩ := Option.map_eq_some_iff.mp hrun
  exact ⟨os, t, ht, of_decide_eq_false hb⟩

end Eleven

end Basecoin.Avl
