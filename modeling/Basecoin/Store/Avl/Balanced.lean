import Basecoin.Store.Avl.Refine

/-!
# Balance factors

A balance factor compares cached heights, in which a missing child and a leaf both count as 0, so
*levels* are counted here instead: factors within one are levels `Near` each other. A rotation
meets a child two levels too tall. If that child leans, the rotation restores balance; if it does
not, `balance_node` rotates twice all the same, and the outcome depends on the grandchild it lifts
(`Rebalanced.of_left_tall` and its mirror image). A child that grew by an insertion always leans,
so insertions keep the tree balanced.
-/

namespace Basecoin.Avl

open Lib Lib.SortedMap

variable {K V : Type*}

/-! ## Levels -/

/-- The levels of a subtree: none when it is missing, one for a leaf. -/
def NodeRef.levels : NodeRef K V → Nat
  | .nil => 0
  | .node _ l r => max l.levels r.levels + 1

@[simp] theorem NodeRef.levels_nil : (nil : NodeRef K V).levels = 0 := rfl

@[simp] theorem NodeRef.levels_node (n : AvlNode K V) (l r : NodeRef K V) :
    (node n l r).levels = max l.levels r.levels + 1 := rfl

/-- `balance_factor` of the root of a subtree, 0 for a missing one. -/
def NodeRef.rootFactor : NodeRef K V → Int
  | .nil => 0
  | .node _ l r => balanceFactor l r

@[simp] theorem NodeRef.rootFactor_nil : (nil : NodeRef K V).rootFactor = 0 := rfl

@[simp] theorem NodeRef.rootFactor_node (n : AvlNode K V) (l r : NodeRef K V) :
    (node n l r).rootFactor = balanceFactor l r := rfl

def NodeRef.left : NodeRef K V → NodeRef K V
  | .nil => .nil
  | .node _ l _ => l

def NodeRef.right : NodeRef K V → NodeRef K V
  | .nil => .nil
  | .node _ _ r => r

/-- Levels within one of each other, where none count as one. -/
def Near (a b : Nat) : Prop := a ≤ max b 1 + 1 ∧ b ≤ max a 1 + 1

theorem near_comm {a b : Nat} : Near a b ↔ Near b a := and_comm

theorem Near.symm {a b : Nat} (h : Near a b) : Near b a := near_comm.mp h

/-- The balance factor of a node with these children is -1, 0 or 1. -/
def WithinOne (l r : NodeRef K V) : Prop := -1 ≤ balanceFactor l r ∧ balanceFactor l r ≤ 1

def RootWithinOne (t : NodeRef K V) : Prop := -1 ≤ t.rootFactor ∧ t.rootFactor ≤ 1

/-- Every node of the tree has balance factor -1, 0 or 1. -/
def Balanced (t : NodeRef K V) : Prop := t.Forall fun _ l r => WithinOne l r

instance (l r : NodeRef K V) : Decidable (WithinOne l r) := inferInstanceAs (Decidable (_ ∧ _))

instance decidableBalanced : ∀ t : NodeRef K V, Decidable (Balanced t)
  | .nil => isTrue trivial
  | .node _ l r =>
    have := decidableBalanced l
    have := decidableBalanced r
    inferInstanceAs (Decidable (WithinOne l r ∧ Balanced l ∧ Balanced r))

theorem balanced_nil : Balanced (.nil : NodeRef K V) := trivial

theorem Balanced.root {t : NodeRef K V} (h : Balanced t) : RootWithinOne t := by
  cases t with
  | nil => simp [RootWithinOne]
  | node n l r => exact h.1

theorem balanced_node {n : AvlNode K V} {l r : NodeRef K V} :
    Balanced (.node n l r) ↔ WithinOne l r ∧ Balanced l ∧ Balanced r := Iff.rfl

section Cached

variable [Sha256]

@[simp] theorem levels_refreshed (n : AvlNode K V) (l r : NodeRef K V) :
    (refreshed n l r).levels = max l.levels r.levels + 1 := rfl

theorem balanced_refreshed {n : AvlNode K V} {l r : NodeRef K V} :
    Balanced (refreshed n l r) ↔ WithinOne l r ∧ Balanced l ∧ Balanced r := Iff.rfl

variable [AsBytes K] [Borrow V]

/-- The height a parent sees is one less than the levels. -/
theorem Cached.ht_eq : ∀ {t : NodeRef K V}, Cached t → t.ht = t.levels - 1 := by
  intro t
  induction t with
  | nil => intro _; rfl
  | node n l r ihl ihr =>
    rintro ⟨hn, hl, hr⟩
    have hl' := ihl hl
    have hr' := ihr hr
    rw [NodeRef.ht_node, hn.height]
    cases l with
    | nil =>
      cases r with
      | nil => rfl
      | node m rl rr => simp [nodeHeight] at hr' ⊢; omega
    | node m ll lr => simp [nodeHeight] at hl' ⊢; omega

theorem balanceFactor_levels {l r : NodeRef K V} (hl : Cached l) (hr : Cached r) :
    balanceFactor l r = ((l.levels - 1 : Nat) : Int) - ((r.levels - 1 : Nat) : Int) := by
  rw [balanceFactor_eq, hl.ht_eq, hr.ht_eq]

theorem withinOne_iff {l r : NodeRef K V} (hl : Cached l) (hr : Cached r) :
    WithinOne l r ↔ Near l.levels r.levels := by
  rw [WithinOne, balanceFactor_levels hl hr, Near]
  omega

end Cached

/-! ## What a rotation leaves

The arithmetic first. A double rotation puts `a` and `b` levels under one lowered node and `c` and
`d` under the other, where `b` and `c` are those under the lifted grandchild and `d` those beside
the child that was too tall. -/

theorem near_of_le {a b : Nat} (hab : a ≤ b + 1) (hba : b ≤ a + 1) : Near a b :=
  ⟨hab.trans (Nat.succ_le_succ (le_max_left b 1)), hba.trans (Nat.succ_le_succ (le_max_left a 1))⟩

theorem near_of_even {a b c d : Nat} (hbc : Near b c) (htall : max a (max b c + 1) = d - 1 + 2)
    (heven : a - 1 = max b c) (hd : d ≠ 0) :
    Near (max a b + 1) (max c d + 1) ∧
      (Near a b ↔ ¬ ((b - 1 : Nat) : Int) - ((c - 1 : Nat) : Int) = -1) ∧ Near c d ∧
      max (max a b + 1) (max c d + 1) = max a (max b c + 1) + 1 := by
  have hd' : max b c = d := by
    rw [max_def] at htall
    split at htall <;> omega
  obtain rfl : a = d + 1 := by omega
  obtain ⟨hb, hc⟩ := Nat.max_le.mp (le_of_eq hd')
  have hsome : b = d ∨ c = d := by omega
  rw [hd', max_eq_left (hb.trans (Nat.le_succ d)), max_eq_right hc, max_self,
    max_eq_left (Nat.le_succ (d + 1))]
  obtain ⟨hbc, hcb⟩ := hbc
  refine ⟨near_of_le (by omega) (by omega), ?_, ?_, rfl⟩
  · rw [Near]
    omega
  · rw [Near]
    omega

/-- Two pairs of levels of `k` and `k + 1`, the first of which reaches `k + 1`. -/
theorem near_of_reaching {a b c d k : Nat} (hbc : Near b c) (hb : b = k + 1) (hc : c ≤ k + 1)
    (ha : k ≤ a ∧ a ≤ k + 1) (hd : k ≤ d ∧ d ≤ k + 1) :
    Near (max a b + 1) (max c d + 1) ∧ Near a b ∧ Near c d ∧
      max (max a b + 1) (max c d + 1) = k + 2 := by
  subst hb
  have hcd : k ≤ max c d ∧ max c d ≤ k + 1 :=
    ⟨hd.1.trans (le_max_right c d), Nat.max_le.mpr ⟨hc, hd.2⟩⟩
  rw [max_eq_right ha.2, max_eq_left (Nat.succ_le_succ hcd.2)]
  refine ⟨near_of_le (Nat.succ_le_succ (Nat.succ_le_succ hcd.1)) (by omega),
    near_of_le (ha.2.trans (Nat.le_succ _)) (Nat.succ_le_succ ha.1), ⟨?_, ?_⟩, rfl⟩
  · exact (hc.trans (Nat.succ_le_succ hd.1)).trans (Nat.succ_le_succ (le_max_left d 1))
  · exact hd.2.trans hbc.1

theorem near_of_lean {a b c d : Nat} (hbc : Near b c) (htall : max a (max b c + 1) = d - 1 + 2)
    (hlean : a - 1 + 1 = max b c) :
    Near (max a b + 1) (max c d + 1) ∧ Near a b ∧ Near c d ∧
      max (max a b + 1) (max c d + 1) = max a (max b c + 1) := by
  have ha : a ≤ max b c := by omega
  rw [max_eq_right (ha.trans (Nat.le_succ _))] at htall ⊢
  have hx : max b c = d - 1 + 1 := Nat.succ.inj htall
  obtain ⟨hb, hc⟩ := Nat.max_le.mp (le_of_eq hx)
  have ha' : d - 1 ≤ a ∧ a ≤ d - 1 + 1 := by omega
  have hd' : d - 1 ≤ d ∧ d ≤ d - 1 + 1 := by omega
  have hsome : b = d - 1 + 1 ∨ c = d - 1 + 1 := by omega
  rw [hx]
  -- the taller side of the grandchild
  rcases hsome with htop | htop
  · exact near_of_reaching hbc htop hc ha' hd'
  · obtain ⟨houter, hinner, hinner', hlevels⟩ := near_of_reaching hbc.symm htop hb hd' ha'
    rw [max_comm d, max_comm b] at houter hlevels
    rw [max_comm] at hlevels
    exact ⟨houter.symm, hinner'.symm, hinner.symm, hlevels⟩

/-- The same for a single rotation of a leaning child. -/
theorem near_of_single {a b d : Nat} (htall : max a b = d - 1 + 2) (hlean : a - 1 = b - 1 + 1) :
    Near a (max b d + 1) ∧ Near b d ∧ max a (max b d + 1) = max a b := by
  have ha : a = d - 1 + 2 := by omega
  have hb : b - 1 = d - 1 := by omega
  have hbd : d - 1 ≤ max b d ∧ max b d ≤ d - 1 + 1 := by omega
  rw [htall, ← ha]
  refine ⟨near_of_le (by omega) (by omega), near_of_le (by omega) (by omega), max_eq_left (by omega)⟩

/-! A cached height is one less than the levels. -/

theorem one_above {a b : Nat} :
    ((a - 1 : Nat) : Int) - ((b - 1 : Nat) : Int) = 1 ↔ a - 1 = b - 1 + 1 := by omega

theorem one_below {a b : Nat} :
    ((b - 1 : Nat) : Int) - ((a - 1 : Nat) : Int) = -1 ↔ a - 1 = b - 1 + 1 := by omega

theorem two_above {y d : Nat} :
    ((y + 1 - 1 : Nat) : Int) - ((d - 1 : Nat) : Int) = 2 ↔ y = d - 1 + 2 := by omega

theorem two_below {y d : Nat} :
    ((d - 1 : Nat) : Int) - ((y + 1 - 1 : Nat) : Int) = -2 ↔ y = d - 1 + 2 := by omega

theorem even_left {a x : Nat} :
    ((a - 1 : Nat) : Int) - ((x + 1 - 1 : Nat) : Int) = 0 ↔ a - 1 = x := by omega

theorem even_right {a x : Nat} :
    ((x + 1 - 1 : Nat) : Int) - ((a - 1 : Nat) : Int) = 0 ↔ a - 1 = x := by omega

theorem lean_left {a x : Nat} :
    ((a - 1 : Nat) : Int) - ((x + 1 - 1 : Nat) : Int) = -1 ↔ a - 1 + 1 = x := by omega

theorem lean_right {a x : Nat} :
    ((x + 1 - 1 : Nat) : Int) - ((a - 1 : Nat) : Int) = 1 ↔ a - 1 + 1 = x := by omega

section Rotations

variable [Sha256] [AsBytes K] [Borrow V]

omit [AsBytes K] [Borrow V] in
theorem Rebalanced.eq_of_withinOne {n : AvlNode K V} {l r t' : NodeRef K V}
    (h : Rebalanced (.node n l r) t') (hin : WithinOne l r) : t' = .node n l r := by
  obtain ⟨hlo, hhi⟩ := hin
  cases h with
  | keep => rfl
  | right hbf => omega
  | leftRight hbf => omega
  | left hbf => omega
  | rightLeft hbf => omega

/-- A left child two levels too tall. If it leans, all is well afterwards, and the whole is as
tall as that child was; if it does not, the whole is a level taller, and the lowered child is out
of balance when what it gained is the shorter side of the lifted grandchild. -/
theorem Rebalanced.of_left_tall {n : AvlNode K V} {l r t' : NodeRef K V}
    (h : Rebalanced (.node n l r) t') (hct : Cached t') (hc : Cached l) (hcr : Cached r)
    (hl : Balanced l) (hr : Balanced r) (htall : balanceFactor l r = 2)
    (hlean : l.rootFactor = 0 → r ≠ .nil) :
    (Balanced t' ↔ ¬ (l.rootFactor = 0 ∧ l.right.rootFactor = -1)) ∧ RootWithinOne t' ∧
      t'.levels = l.levels + if l.rootFactor = 0 then 1 else 0 := by
  have htall' := htall
  rw [balanceFactor_levels hc hcr] at htall'
  cases h with
  | keep hlo hhi => omega
  | left hbf => omega
  | rightLeft hbf => omega
  | @right _ m ll lr _ hbf hleft =>
    obtain ⟨-, hll, hlr⟩ := id hc
    obtain ⟨-, -, hlow⟩ := id hct
    obtain ⟨hin, hbll, hblr⟩ := hl
    have hfactor : balanceFactor ll lr = 1 := le_antisymm hin.2 hleft
    rw [NodeRef.rootFactor_node, hfactor, if_neg (by decide)]
    rw [balanceFactor_levels hll hlr] at hfactor
    rw [NodeRef.levels_node, two_above] at htall'
    obtain ⟨houter, hinner, hlevels⟩ :=
      near_of_single (d := r.levels) htall' (one_above.mp hfactor)
    refine ⟨iff_of_true (balanced_refreshed.mpr ⟨(withinOne_iff hll hlow).mpr houter, hbll,
      balanced_refreshed.mpr ⟨(withinOne_iff hlr hcr).mpr hinner, hblr, hr⟩⟩) (by simp),
      (withinOne_iff hll hlow).mpr houter, ?_⟩
    rw [levels_refreshed, levels_refreshed, hlevels, NodeRef.levels_node, Nat.add_zero]
  | @leftRight _ m x ll xl xr _ hbf hleft =>
    obtain ⟨-, hll, hx⟩ := id hc
    obtain ⟨-, hxl, hxr⟩ := id hx
    obtain ⟨-, hlow, hlow'⟩ := id hct
    obtain ⟨hin, (hbll : Balanced ll), hinx, (hbxl : Balanced xl), (hbxr : Balanced xr)⟩ := hl
    rw [withinOne_iff hxl hxr] at hinx
    have hbal : Balanced (refreshed x (refreshed m ll xl) (refreshed n xr r)) ↔
        Near (max ll.levels xl.levels + 1) (max xr.levels r.levels + 1) ∧
          Near ll.levels xl.levels ∧ Near xr.levels r.levels := by
      rw [balanced_refreshed, balanced_refreshed, balanced_refreshed, withinOne_iff hlow hlow',
        withinOne_iff hll hxl, withinOne_iff hxr hcr]
      simp only [hbll, hbxl, hbxr, hr, and_true, levels_refreshed]
    rw [hbal, levels_refreshed, levels_refreshed, levels_refreshed]
    have hfactor := (balanceFactor_levels hll hx).symm
    rw [NodeRef.levels_node] at htall' hfactor
    rw [NodeRef.levels_node, two_above] at htall'
    -- a child that does not lean is rotated twice too: this is where the balance may be lost
    by_cases hzero : balanceFactor ll (.node x xl xr) = 0
    · have hpresent : r.levels ≠ 0 := by
        cases r with
        | nil => exact absurd rfl (hlean hzero)
        | node => simp
      rw [hzero, even_left] at hfactor
      obtain ⟨houter, hinner, hinner', hlevels⟩ := near_of_even hinx htall' hfactor hpresent
      refine ⟨?_, (withinOne_iff hlow hlow').mpr houter, ?_⟩
      · rw [← balanceFactor_levels hxl hxr] at hinner
        have hlean' : (NodeRef.node m ll (.node x xl xr)).rootFactor = 0 := hzero
        simp only [houter, hinner, hinner', hlean', true_and, and_true]
        rfl
      · rw [if_pos (show (NodeRef.node m ll (.node x xl xr)).rootFactor = 0 from hzero),
          NodeRef.levels_node, NodeRef.levels_node, hlevels]
    · have hone : balanceFactor ll (.node x xl xr) = -1 := by
        have hlo := hin.1
        omega
      rw [hone, lean_left] at hfactor
      obtain ⟨houter, hinner, hinner', hlevels⟩ := near_of_lean hinx htall' hfactor
      refine ⟨iff_of_true ⟨houter, hinner, hinner'⟩ fun h => hzero h.1,
        (withinOne_iff hlow hlow').mpr houter, ?_⟩
      rw [if_neg (show ¬ (NodeRef.node m ll (.node x xl xr)).rootFactor = 0 from hzero),
        NodeRef.levels_node, NodeRef.levels_node, hlevels, Nat.add_zero]

/-- The mirror image. -/
theorem Rebalanced.of_right_tall {n : AvlNode K V} {l r t' : NodeRef K V}
    (h : Rebalanced (.node n l r) t') (hct : Cached t') (hcl : Cached l) (hc : Cached r)
    (hl : Balanced l) (hr : Balanced r) (htall : balanceFactor l r = -2)
    (hlean : r.rootFactor = 0 → l ≠ .nil) :
    (Balanced t' ↔ ¬ (r.rootFactor = 0 ∧ r.left.rootFactor = 1)) ∧ RootWithinOne t' ∧
      t'.levels = r.levels + if r.rootFactor = 0 then 1 else 0 := by
  have htall' := htall
  rw [balanceFactor_levels hcl hc] at htall'
  cases h with
  | keep hlo hhi => omega
  | right hbf => omega
  | leftRight hbf => omega
  | @left _ m _ rl rr hbf hright =>
    obtain ⟨-, hrl, hrr⟩ := id hc
    obtain ⟨-, hlow, -⟩ := id hct
    obtain ⟨hin, hbrl, hbrr⟩ := hr
    have hfactor : balanceFactor rl rr = -1 := le_antisymm hright hin.1
    rw [NodeRef.rootFactor_node, hfactor, if_neg (by decide)]
    rw [balanceFactor_levels hrl hrr] at hfactor
    rw [NodeRef.levels_node, two_below, max_comm] at htall'
    obtain ⟨houter, hinner, hlevels⟩ :=
      near_of_single (d := l.levels) htall' (one_below.mp hfactor)
    rw [max_comm rl.levels] at houter hlevels
    refine ⟨iff_of_true (balanced_refreshed.mpr ⟨(withinOne_iff hlow hrr).mpr houter.symm,
      balanced_refreshed.mpr ⟨(withinOne_iff hcl hrl).mpr hinner.symm, hl, hbrl⟩, hbrr⟩)
      (by simp), (withinOne_iff hlow hrr).mpr houter.symm, ?_⟩
    rw [levels_refreshed, levels_refreshed, max_comm, hlevels, NodeRef.levels_node, Nat.add_zero,
      max_comm]
  | @rightLeft _ m x _ xl xr rr hbf hright =>
    obtain ⟨-, hx, hrr⟩ := id hc
    obtain ⟨-, hxl, hxr⟩ := id hx
    obtain ⟨-, hlow, hlow'⟩ := id hct
    obtain ⟨hin, ⟨hinx, (hbxl : Balanced xl), (hbxr : Balanced xr)⟩, (hbrr : Balanced rr)⟩ := hr
    rw [withinOne_iff hxl hxr] at hinx
    have hbal : Balanced (refreshed x (refreshed n l xl) (refreshed m xr rr)) ↔
        Near (max l.levels xl.levels + 1) (max xr.levels rr.levels + 1) ∧
          Near l.levels xl.levels ∧ Near xr.levels rr.levels := by
      rw [balanced_refreshed, balanced_refreshed, balanced_refreshed, withinOne_iff hlow hlow',
        withinOne_iff hcl hxl, withinOne_iff hxr hrr]
      simp only [hl, hbxl, hbxr, hbrr, and_true, levels_refreshed]
    rw [hbal, levels_refreshed, levels_refreshed, levels_refreshed]
    have hfactor := (balanceFactor_levels hx hrr).symm
    rw [NodeRef.levels_node] at htall' hfactor
    rw [NodeRef.levels_node, max_comm xl.levels, two_below, max_comm _ rr.levels] at htall'
    rw [max_comm xl.levels] at hfactor
    -- the inner rotation leaves its tree balanced but for an even right child whose left one leans
    by_cases hzero : balanceFactor (.node x xl xr) rr = 0
    · have hpresent : l.levels ≠ 0 := by
        cases l with
        | nil => exact absurd rfl (hlean hzero)
        | node => simp
      rw [hzero, even_right] at hfactor
      obtain ⟨houter, hinner, hinner', hlevels⟩ := near_of_even hinx.symm htall' hfactor hpresent
      rw [max_comm rr.levels xr.levels, max_comm xl.levels l.levels] at houter hlevels
      rw [max_comm, max_comm rr.levels, max_comm xr.levels xl.levels] at hlevels
      refine ⟨?_, (withinOne_iff hlow hlow').mpr houter.symm, ?_⟩
      · have hlean' : (NodeRef.node m (.node x xl xr) rr).rootFactor = 0 := hzero
        have hsign : ((xr.levels - 1 : Nat) : Int) - ((xl.levels - 1 : Nat) : Int) = -1 ↔
            balanceFactor xl xr = 1 := by
          rw [balanceFactor_levels hxl hxr]
          omega
        rw [hsign, near_comm] at hinner
        simp only [houter.symm, hinner, hinner'.symm, hlean', true_and]
        rfl
      · rw [if_pos (show (NodeRef.node m (.node x xl xr) rr).rootFactor = 0 from hzero),
          NodeRef.levels_node, NodeRef.levels_node, hlevels]
    · have hone : balanceFactor (.node x xl xr) rr = 1 := by
        have hhi := hin.2
        omega
      rw [hone, lean_right] at hfactor
      obtain ⟨houter, hinner, hinner', hlevels⟩ := near_of_lean hinx.symm htall' hfactor
      rw [max_comm rr.levels xr.levels, max_comm xl.levels l.levels] at houter hlevels
      rw [max_comm, max_comm rr.levels, max_comm xr.levels xl.levels] at hlevels
      refine ⟨iff_of_true ⟨houter.symm, hinner'.symm, hinner.symm⟩ fun h => hzero h.1,
        (withinOne_iff hlow hlow').mpr houter.symm, ?_⟩
      rw [if_neg (show ¬ (NodeRef.node m (.node x xl xr) rr).rootFactor = 0 from hzero),
        NodeRef.levels_node, NodeRef.levels_node, hlevels, Nat.add_zero]

end Rotations

/-! ## Insertion -/

/-- What an insertion may do to the levels of a subtree: nothing, or add one; and a subtree of
three levels or more that grew leans towards where it grew. -/
def Grown (t t' : NodeRef K V) : Prop :=
  t'.levels = t.levels ∨ t'.levels = t.levels + 1 ∧ (t'.rootFactor ≠ 0 ∨ t'.levels ≤ 2)

/-- A side that grew by one and is still near made the whole no taller, or leans. -/
theorem grown_above {a b : Nat} : max (a + 1) b + 1 = max a b + 1 ∨
    max (a + 1) b + 1 = max a b + 1 + 1 ∧
      (((a + 1 - 1 : Nat) : Int) - ((b - 1 : Nat) : Int) ≠ 0 ∨ max (a + 1) b + 1 ≤ 2) := by
  rcases Nat.lt_or_ge a b with hab | hba
  · left
    rw [max_eq_right hab, max_eq_right (Nat.le_of_lt hab)]
  · right
    rw [max_eq_left (Nat.le_succ_of_le hba), max_eq_left hba]
    omega

theorem grown_below {a b : Nat} : max b (a + 1) + 1 = max b a + 1 ∨
    max b (a + 1) + 1 = max b a + 1 + 1 ∧
      (((b - 1 : Nat) : Int) - ((a + 1 - 1 : Nat) : Int) ≠ 0 ∨ max b (a + 1) + 1 ≤ 2) := by
  rw [max_comm b, max_comm b]
  refine grown_above.imp_right fun ⟨hmore, hlean⟩ => ⟨hmore, hlean.imp_left fun hne heq => ?_⟩
  exact hne (Int.sub_eq_zero_of_eq (Int.eq_of_sub_eq_zero heq).symm)

/-- A side that is no longer near after growing was as tall as it could be. -/
theorem eq_of_not_near {a b : Nat} (hin : Near a b) (hw : ¬ Near (a + 1) b) :
    a = max b 1 + 1 := by
  refine le_antisymm hin.1 (not_lt.mp fun hlt => hw ⟨hlt, hin.2.trans ?_⟩)
  exact Nat.succ_le_succ (Nat.max_le.mpr
    ⟨(Nat.le_succ a).trans (le_max_left _ _), le_max_right _ _⟩)

section Insertion

variable [Sha256] [AsBytes K] [Borrow V]

theorem Rebalanced.of_left_grown {n : AvlNode K V} {l l' r t' : NodeRef K V}
    (h : Rebalanced (.node n l' r) t') (hct : Cached t') (hc : Cached l) (hc' : Cached l')
    (hcr : Cached r) (hl' : Balanced l') (hr : Balanced r) (hin : WithinOne l r)
    (hgrown : Grown l l') : Balanced t' ∧ Grown (.node n l r) t' := by
  rw [withinOne_iff hc hcr] at hin
  by_cases hw : WithinOne l' r
  · obtain rfl := h.eq_of_withinOne hw
    refine ⟨⟨hw, hl', hr⟩, ?_⟩
    rcases hgrown with hsame | ⟨hmore, -⟩
    · left
      rw [NodeRef.levels_node, NodeRef.levels_node, hsame]
    · rw [Grown, NodeRef.rootFactor_node, balanceFactor_levels hc' hcr, NodeRef.levels_node,
        NodeRef.levels_node, hmore]
      exact grown_above
  · rw [withinOne_iff hc' hcr] at hw
    rcases hgrown with hsame | ⟨hmore, hlean⟩
    · exact absurd hin (hsame ▸ hw)
    · rw [hmore] at hw
      have htop := eq_of_not_near hin hw
      have htall : balanceFactor l' r = 2 := by
        rw [balanceFactor_levels hc' hcr, hmore, htop]
        omega
      have hne : l'.rootFactor ≠ 0 := hlean.resolve_right (by omega)
      obtain ⟨hbal, -, hlevels⟩ :=
        h.of_left_tall hct hc' hcr hl' hr htall (fun hzero => absurd hzero hne)
      have hbelow : r.levels ≤ l.levels := by
        rw [htop]
        exact (le_max_left _ _).trans (Nat.le_succ _)
      rw [if_neg hne, Nat.add_zero, hmore] at hlevels
      refine ⟨hbal.mpr fun hbad => hne hbad.1, .inl ?_⟩
      rw [hlevels, NodeRef.levels_node, max_eq_left hbelow]

theorem Rebalanced.of_right_grown {n : AvlNode K V} {l r r' t' : NodeRef K V}
    (h : Rebalanced (.node n l r') t') (hct : Cached t') (hcl : Cached l) (hc : Cached r)
    (hc' : Cached r') (hl : Balanced l) (hr' : Balanced r') (hin : WithinOne l r)
    (hgrown : Grown r r') : Balanced t' ∧ Grown (.node n l r) t' := by
  rw [withinOne_iff hcl hc, near_comm] at hin
  by_cases hw : WithinOne l r'
  · obtain rfl := h.eq_of_withinOne hw
    refine ⟨⟨hw, hl, hr'⟩, ?_⟩
    rcases hgrown with hsame | ⟨hmore, -⟩
    · left
      rw [NodeRef.levels_node, NodeRef.levels_node, hsame]
    · rw [Grown, NodeRef.rootFactor_node, balanceFactor_levels hcl hc', NodeRef.levels_node,
        NodeRef.levels_node, hmore]
      exact grown_below
  · rw [withinOne_iff hcl hc', near_comm] at hw
    rcases hgrown with hsame | ⟨hmore, hlean⟩
    · exact absurd hin (hsame ▸ hw)
    · rw [hmore] at hw
      have htop := eq_of_not_near hin hw
      have htall : balanceFactor l r' = -2 := by
        rw [balanceFactor_levels hcl hc', hmore, htop]
        omega
      have hne : r'.rootFactor ≠ 0 := hlean.resolve_right (by omega)
      obtain ⟨hbal, -, hlevels⟩ :=
        h.of_right_tall hct hcl hc' hl hr' htall (fun hzero => absurd hzero hne)
      have hbelow : l.levels ≤ r.levels := by
        rw [htop]
        exact (le_max_left _ _).trans (Nat.le_succ _)
      rw [if_neg hne, Nat.add_zero, hmore] at hlevels
      refine ⟨hbal.mpr fun hbad => hne hbad.1, .inl ?_⟩
      rw [hlevels, NodeRef.levels_node, max_eq_right hbelow]

variable [LinearOrder K]

/-- **An insertion keeps the tree balanced.** -/
theorem insertRec_balanced (key : K) (value : V) : ∀ {t : NodeRef K V}, Cached t →
    Sorted t.toList → Balanced t → ∀ {old : Option V} {t' : NodeRef K V},
    insertRec key value t = some (old, t') → Balanced t' ∧ Grown t t' := by
  intro t
  induction t with
  | nil =>
    intro _ _ _ old t' h
    obtain ⟨-, rfl⟩ := Prod.mk.inj (Option.some.inj h)
    have hzero : balanceFactor (.nil : NodeRef K V) .nil = 0 := rfl
    exact ⟨⟨⟨by omega, by omega⟩, trivial, trivial⟩, .inr ⟨rfl, .inr (Nat.le_succ 1)⟩⟩
  | node n l r ihl ihr =>
    rintro ⟨hn, hcl, hcr⟩ hs ⟨hin, hl, hr⟩ old t' h
    rw [NodeRef.toList_node] at hs
    obtain ⟨hsl, hsr, _, _⟩ := sorted_middle.mp hs
    simp only [insertRec] at h
    cases hc : compare n.key key with
    | lt =>
      obtain ⟨r', hr', hcr', -⟩ := insertRec_spec key value r hcr hsr
      obtain ⟨t₁, ht₁, hreb, hct, -⟩ := updateBalance_spec hn.hash hcl hcr'
      rw [hc] at h
      simp only [hr', Option.bind_some, ht₁, Option.map_some, Option.some.injEq,
        Prod.mk.injEq] at h
      obtain ⟨-, rfl⟩ := h
      obtain ⟨hbr', hgrown⟩ := ihr hcr hsr hr hr'
      exact hreb.of_right_grown hct hcl hcr hcr' hl hbr' hin hgrown
    | gt =>
      obtain ⟨l', hl', hcl', -⟩ := insertRec_spec key value l hcl hsl
      obtain ⟨t₁, ht₁, hreb, hct, -⟩ := updateBalance_spec hn.hash hcl' hcr
      rw [hc] at h
      simp only [hl', Option.bind_some, ht₁, Option.map_some, Option.some.injEq,
        Prod.mk.injEq] at h
      obtain ⟨-, rfl⟩ := h
      obtain ⟨hbl', hgrown⟩ := ihl hcl hsl hl hl'
      exact hreb.of_left_grown hct hcl hcl' hcr hbl' hr hin hgrown
    | eq =>
      obtain ⟨t₁, ht₁, hreb, hct, -⟩ :=
        updateBalance_spec (n := (n.setValue value).2) (l := l) (r := r) rfl hcl hcr
      rw [hc] at h
      simp only [AvlNode.setValue] at ht₁ h
      rw [ht₁, Option.map_some, Option.some.injEq, Prod.mk.injEq] at h
      obtain ⟨-, rfl⟩ := h
      -- the children are as they were, so the call to `balance_node` keeps the node
      obtain rfl := hreb.eq_of_withinOne hin
      exact ⟨⟨hin, hl, hr⟩, .inl rfl⟩

end Insertion

end Basecoin.Avl
