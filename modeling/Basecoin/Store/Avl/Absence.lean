import Basecoin.Store.Avl.Verifier

/-!
# What a verifier learns from a proof of absence

The sides of an accepted non-existence proof are paths of two stored pairs (`Verifier`), and
they are adjacent. `Adjacency` shows that the paths of neighbours are adjacent; here is the
converse, that adjacent paths are those of neighbours in the listing, and that paths along an
edge are those of its ends (`leftNeighbor_iff`, `rightmost_iff`, `leftmost_iff`). What `ics23`
checks of two paths is more lenient, but not on the ops of a tree (`ensureAdjacent_iff`). So
whatever proof is accepted, no stored key lies in the gap it names (`verifiesAbsence_iff_gap`).

That is all that is learnt of the tree. The key that was asked for lies between what the sides call
their keys, and these may be cut anywhere, so a stored key can be proved absent
(`present_and_absent`). Only proofs that begin their leaves as the tree does, for keys of which none
starts another, are bound to be what `get_proof` answers (`accepts_iff_getProof`).
-/

namespace Basecoin.Avl

open Lib Lib.SortedMap Ics23

/-! ## Adjacent paths, taken apart -/

/-- Where two paths part at the root end, the parting ops are one branch apart. -/
theorem LeftNeighbor.parted {x y : List InnerOp} {a b : InnerOp} (hne : a ≠ b)
    (h : LeftNeighbor (x ++ [a]) (y ++ [b])) :
    (∃ i, OfBranch getProofSpec a i ∧ OfBranch getProofSpec b (i + 1)) ∧
      (∀ op ∈ x, RightmostStep op) ∧ ∀ op ∈ y, LeftmostStep op := by
  obtain ⟨a', as, b', bs, hdrop, hbranch, hleft, hright⟩ := h
  simp only [List.reverse_append, List.reverse_singleton, List.singleton_append, dropCommon,
    if_neg hne, Prod.mk.injEq, List.cons.injEq] at hdrop
  obtain ⟨⟨rfl, rfl⟩, rfl, rfl⟩ := hdrop
  exact ⟨hbranch, fun op hop => hleft op (List.mem_reverse.mpr hop),
    fun op hop => hright op (List.mem_reverse.mpr hop)⟩

theorem LeftNeighbor.of_append {x y : List InnerOp} {op : InnerOp}
    (h : LeftNeighbor (x ++ [op]) (y ++ [op])) : LeftNeighbor x y := by
  unfold LeftNeighbor at h ⊢
  simpa [dropCommon] using h

theorem ne_of_branch {a b : InnerOp} {i j : Nat} (ha : OfBranch getProofSpec a i)
    (hb : OfBranch getProofSpec b j) (hij : i ≠ j) : a ≠ b := by
  rintro rfl
  exact hij (ofBranch_unique ha hb)

/-- Paths that part one branch apart are adjacent when they keep to the edges below. -/
theorem leftNeighbor_succ_iff {x y : List InnerOp} {a b : InnerOp} {i : Nat}
    (ha : OfBranch getProofSpec a i) (hb : OfBranch getProofSpec b (i + 1)) :
    LeftNeighbor (x ++ [a]) (y ++ [b]) ↔
      (∀ op ∈ x, RightmostStep op) ∧ ∀ op ∈ y, LeftmostStep op :=
  ⟨fun h => (h.parted (ne_of_branch ha hb i.lt_succ_self.ne)).2,
    fun h => LeftNeighbor.intro ha hb h.1 h.2⟩

/-- Two ops of branches that are not one apart do not part adjacent paths. -/
theorem not_leftNeighbor_of_branch {x y : List InnerOp} {a b : InnerOp} {i j : Nat}
    (ha : OfBranch getProofSpec a i) (hb : OfBranch getProofSpec b j) (hij : i ≠ j)
    (hsucc : j ≠ i + 1) : ¬ LeftNeighbor (x ++ [a]) (y ++ [b]) := by
  intro h
  obtain ⟨⟨k, hak, hbk⟩, -, -⟩ := h.parted (ne_of_branch ha hb hij)
  apply hsucc
  rw [ofBranch_unique ha hak, ofBranch_unique hb hbk]

theorem RightmostStep.not_ofBranch_zero {op : InnerOp} (h : RightmostStep op) :
    ¬ OfBranch getProofSpec op 0 := by
  intro hzero
  rcases h with h | ⟨h, -⟩
  · exact absurd (ofBranch_unique h hzero) (by decide)
  · exact absurd (ofBranch_unique h hzero) (by decide)

theorem LeftmostStep.not_ofBranch_two {op : InnerOp} (h : LeftmostStep op) :
    ¬ OfBranch getProofSpec op 2 := by
  intro htwo
  rcases h with h | ⟨h, -⟩
  · exact absurd (ofBranch_unique h htwo) (by decide)
  · exact absurd (ofBranch_unique h htwo) (by decide)

theorem rightmostStep_fromSelf_iff {K V : Type*} {l r : NodeRef K V} :
    RightmostStep (fromSelf l r) ↔ r.childHash = emptyChild := by
  constructor
  · rintro (h | ⟨-, h⟩)
    · exact absurd (ofBranch_unique h (ofBranch_fromSelf l r)) (by decide)
    · exact h
  · intro h
    exact .inr ⟨ofBranch_fromSelf l r, h⟩

theorem leftmostStep_fromSelf_iff {K V : Type*} {l r : NodeRef K V} :
    LeftmostStep (fromSelf l r) ↔ l.childHash = emptyChild := by
  constructor
  · rintro (h | ⟨-, h⟩)
    · exact absurd (ofBranch_unique h (ofBranch_fromSelf l r)) (by decide)
    · exact h
  · intro h
    exact .inr ⟨ofBranch_fromSelf l r, h⟩

/-! ## From paths to places in the listing

What an edge of the tree is to a path, the first or the last place is to an entry; and adjacent
paths are those of adjacent entries. The inductions are over the tree, with the two entries placed
left, at, or right of the node. -/

section Places

variable {K V : Type*} [LinearOrder K]

/-- No subtree hashes like a missing one. -/
def NoZeroHash (t : NodeRef K V) : Prop :=
  t.Forall fun n _ _ => n.merkleHash.bytes ≠ emptyChild

omit [LinearOrder K] in
theorem NoZeroHash.eq_nil {t : NodeRef K V} (h : NoZeroHash t) (hc : t.childHash = emptyChild) :
    t = .nil := by
  cases t with
  | nil => rfl
  | node n l r => exact absurd hc h.1

omit [LinearOrder K] in
theorem noZeroHash_of_cached [Sha256] [AsBytes K] [Borrow V] {S : Set Bytes}
    (hzero : ∀ x ∈ S, (sha256 x).bytes ≠ emptyChild) :
    ∀ {t : NodeRef K V}, Cached t → t.hashed ⊆ S → NoZeroHash t := by
  intro t
  induction t with
  | nil => intro _ _; exact trivial
  | node n l r ihl ihr =>
    rintro ⟨hn, hcl, hcr⟩ hS
    refine ⟨?_, ihl hcl fun x hx => hS (.inr (.inl hx)), ihr hcr fun x hx => hS (.inr (.inr hx))⟩
    have hroot := hzero _ (hS (.inl (.inr rfl)))
    rwa [← hn.merkleHash] at hroot

/-- A path runs along the right edge exactly when its entry is the last. -/
theorem rightmost_iff {e : K × V} : ∀ {t : NodeRef K V}, Sorted t.toList → NoZeroHash t →
    e ∈ t.toList →
    ((∀ op ∈ pathTo e.1 t, RightmostStep op) ↔ ∀ e' ∈ t.toList, e'.1 ≤ e.1) := by
  intro t
  induction t with
  | nil => intro _ _ he; exact absurd he List.not_mem_nil
  | node n l r _ ihr =>
    intro hs hz he
    rw [NodeRef.toList_node] at hs he ⊢
    obtain ⟨_, hsr, hln, hrn⟩ := sorted_middle.mp hs
    rcases List.mem_append.mp he with he | he
    · -- the step at the root is of branch 0, and the node's own key is greater
      rw [pathTo_lt (hln e he)]
      refine iff_of_false (fun h => ?_) (fun h => ?_)
      · exact (h _ (List.mem_append_right _ (List.mem_singleton_self _))).not_ofBranch_zero
          (ofBranch_fromLeft n r)
      · exact absurd (hln e he) (not_lt_of_ge
          (h _ (List.mem_append_right _ (List.mem_cons_self ..))))
    · rcases List.mem_cons.mp he with rfl | he
      · -- the node is the last when nothing hangs on its right
        rw [pathTo_self, List.forall_mem_singleton, rightmostStep_fromSelf_iff]
        constructor
        · intro h
          rw [NoZeroHash.eq_nil hz.2.2 h]
          intro e' he'
          rcases List.mem_append.mp he' with he' | he'
          · exact le_of_lt (hln e' he')
          · rw [List.mem_singleton.mp he']
        · intro h
          have hr : r = .nil := eq_nil_of_toList (List.eq_nil_iff_forall_not_mem.mpr fun e' he' =>
            absurd (hrn e' he') (not_lt_of_ge
              (h e' (List.mem_append_right _ (List.mem_cons_of_mem _ he')))))
          rw [hr]
          rfl
      · rw [pathTo_gt (hrn e he)]
        constructor
        · intro h e' he'
          have hlast := (ihr hsr hz.2.2 he).mp fun op hop => h op (List.mem_append_left _ hop)
          rcases List.mem_append.mp he' with he' | he'
          · exact le_of_lt ((hln e' he').trans (hrn e he))
          · rcases List.mem_cons.mp he' with rfl | he'
            exacts [le_of_lt (hrn e he), hlast e' he']
        · intro h op hop
          rcases List.mem_append.mp hop with hop | hop
          · exact (ihr hsr hz.2.2 he).mpr (fun e' he' =>
              h e' (List.mem_append_right _ (List.mem_cons_of_mem _ he'))) op hop
          · exact List.mem_singleton.mp hop ▸ .inl (ofBranch_fromRight n l)

/-- The mirror image: one runs along the left edge exactly when its entry is the first. -/
theorem leftmost_iff {e : K × V} : ∀ {t : NodeRef K V}, Sorted t.toList → NoZeroHash t →
    e ∈ t.toList →
    ((∀ op ∈ pathTo e.1 t, LeftmostStep op) ↔ ∀ e' ∈ t.toList, e.1 ≤ e'.1) := by
  intro t
  induction t with
  | nil => intro _ _ he; exact absurd he List.not_mem_nil
  | node n l r ihl _ =>
    intro hs hz he
    rw [NodeRef.toList_node] at hs he ⊢
    obtain ⟨hsl, _, hln, hrn⟩ := sorted_middle.mp hs
    rcases List.mem_append.mp he with he | he
    · rw [pathTo_lt (hln e he)]
      constructor
      · intro h e' he'
        have hfirst := (ihl hsl hz.2.1 he).mp fun op hop => h op (List.mem_append_left _ hop)
        rcases List.mem_append.mp he' with he' | he'
        · exact hfirst e' he'
        · rcases List.mem_cons.mp he' with rfl | he'
          exacts [le_of_lt (hln e he), le_of_lt ((hln e he).trans (hrn e' he'))]
      · intro h op hop
        rcases List.mem_append.mp hop with hop | hop
        · exact (ihl hsl hz.2.1 he).mpr (fun e' he' => h e' (List.mem_append_left _ he')) op hop
        · exact List.mem_singleton.mp hop ▸ .inl (ofBranch_fromLeft n r)
    · rcases List.mem_cons.mp he with rfl | he
      · rw [pathTo_self, List.forall_mem_singleton, leftmostStep_fromSelf_iff]
        constructor
        · intro h
          rw [NoZeroHash.eq_nil hz.2.1 h]
          intro e' he'
          rcases List.mem_cons.mp he' with rfl | he'
          exacts [le_rfl, le_of_lt (hrn e' he')]
        · intro h
          have hl : l = .nil := eq_nil_of_toList (List.eq_nil_iff_forall_not_mem.mpr fun e' he' =>
            absurd (hln e' he') (not_lt_of_ge (h e' (List.mem_append_left _ he'))))
          rw [hl]
          rfl
      · rw [pathTo_gt (hrn e he)]
        refine iff_of_false (fun h => ?_) (fun h => ?_)
        · exact (h _ (List.mem_append_right _ (List.mem_singleton_self _))).not_ofBranch_two
            (ofBranch_fromRight n l)
        · exact absurd (hrn e he) (not_lt_of_ge
            (h _ (List.mem_append_right _ (List.mem_cons_self ..))))

/-- No entry lies between `a` and the greater `b`. -/
def Neighbours (l : List (K × V)) (a b : K × V) : Prop :=
  a.1 < b.1 ∧ ∀ e ∈ l, e.1 ≤ a.1 ∨ b.1 ≤ e.1

/-- Between entries on the same side of a node, the rest of the node does not matter. -/
theorem neighbours_left_iff {l r : List (K × V)} {x a b : K × V} (hs : Sorted (l ++ x :: r))
    (hb : b ∈ l) : Neighbours (l ++ x :: r) a b ↔ Neighbours l a b := by
  obtain ⟨_, _, hlx, hrx⟩ := sorted_middle.mp hs
  refine and_congr_right fun _ => ⟨fun h e he => h e (List.mem_append_left _ he), ?_⟩
  intro h e he
  rcases List.mem_append.mp he with he | he
  · exact h e he
  · rcases List.mem_cons.mp he with rfl | he
    exacts [.inr (le_of_lt (hlx b hb)), .inr (le_of_lt ((hlx b hb).trans (hrx e he)))]

theorem neighbours_right_iff {l r : List (K × V)} {x a b : K × V} (hs : Sorted (l ++ x :: r))
    (ha : a ∈ r) : Neighbours (l ++ x :: r) a b ↔ Neighbours r a b := by
  obtain ⟨_, _, hlx, hrx⟩ := sorted_middle.mp hs
  refine and_congr_right fun _ =>
    ⟨fun h e he => h e (List.mem_append_right _ (List.mem_cons_of_mem _ he)), ?_⟩
  intro h e he
  rcases List.mem_append.mp he with he | he
  · exact .inl (le_of_lt ((hlx e he).trans (hrx a ha)))
  · rcases List.mem_cons.mp he with rfl | he
    exacts [.inl (le_of_lt (hrx a ha)), h e he]

/-- The middle entry follows one before it exactly when that is the last of them. -/
theorem neighbours_middle_right_iff {l r : List (K × V)} {x a : K × V}
    (hs : Sorted (l ++ x :: r)) (ha : a ∈ l) :
    Neighbours (l ++ x :: r) a x ↔ ∀ e ∈ l, e.1 ≤ a.1 := by
  obtain ⟨_, _, hlx, hrx⟩ := sorted_middle.mp hs
  constructor
  · rintro ⟨-, h⟩ e he
    rcases h e (List.mem_append_left _ he) with h | h
    exacts [h, absurd (hlx e he) (not_lt_of_ge h)]
  · intro hlast
    refine ⟨hlx a ha, fun e he => ?_⟩
    rcases List.mem_append.mp he with he | he
    · exact .inl (hlast e he)
    · rcases List.mem_cons.mp he with rfl | he
      exacts [.inr le_rfl, .inr (le_of_lt (hrx e he))]

theorem neighbours_middle_left_iff {l r : List (K × V)} {x b : K × V}
    (hs : Sorted (l ++ x :: r)) (hb : b ∈ r) :
    Neighbours (l ++ x :: r) x b ↔ ∀ e ∈ r, b.1 ≤ e.1 := by
  obtain ⟨_, _, hlx, hrx⟩ := sorted_middle.mp hs
  constructor
  · rintro ⟨-, h⟩ e he
    rcases h e (List.mem_append_right _ (List.mem_cons_of_mem _ he)) with h | h
    exacts [absurd (hrx e he) (not_lt_of_ge h), h]
  · intro hfirst
    refine ⟨hrx b hb, fun e he => ?_⟩
    rcases List.mem_append.mp he with he | he
    · exact .inl (le_of_lt (hlx e he))
    · rcases List.mem_cons.mp he with rfl | he
      exacts [.inl le_rfl, .inr (hfirst e he)]

/-- **Adjacent paths are those of two entries with nothing between.** -/
theorem leftNeighbor_iff {a b : K × V} : ∀ {t : NodeRef K V}, Sorted t.toList →
    NoZeroHash t → a ∈ t.toList → b ∈ t.toList →
    (LeftNeighbor (pathTo a.1 t) (pathTo b.1 t) ↔ Neighbours t.toList a b) := by
  intro t
  induction t with
  | nil => intro _ _ ha _; exact absurd ha List.not_mem_nil
  | node n l r ihl ihr =>
    intro hs hz ha hb
    rw [NodeRef.toList_node] at hs ha hb ⊢
    obtain ⟨hsl, hsr, hln, hrn⟩ := sorted_middle.mp hs
    have hleft := ofBranch_fromLeft n r
    have hself := ofBranch_fromSelf l r
    have hright := ofBranch_fromRight n l
    have hn : (n.key, n.value) ∈ l.toList ++ (n.key, n.value) :: r.toList :=
      List.mem_append_right _ (List.mem_cons_self ..)
    rcases List.mem_append.mp ha with ha | ha
    · rw [pathTo_lt (hln a ha)]
      rcases List.mem_append.mp hb with hb | hb
      · -- both below on the left: the common op is dropped
        rw [pathTo_lt (hln b hb), neighbours_left_iff hs hb, ← ihl hsl hz.2.1 ha hb]
        exact ⟨LeftNeighbor.of_append, fun h => h.append _⟩
      · rcases List.mem_cons.mp hb with rfl | hb
        · -- the node is the right neighbour of the last of its left child
          rw [pathTo_self, neighbours_middle_right_iff hs ha, ← rightmost_iff hsl hz.2.1 ha]
          refine (leftNeighbor_succ_iff (y := []) hleft hself).trans (and_iff_left ?_)
          exact fun op hop => absurd hop List.not_mem_nil
        · -- the node lies between
          rw [pathTo_gt (hrn b hb)]
          refine iff_of_false (fun h => ?_) (fun h => ?_)
          · exact not_leftNeighbor_of_branch hleft hright (by decide) (by decide) h
          · rcases h.2 _ hn with h | h
            exacts [absurd (hln a ha) (not_lt_of_ge h), absurd (hrn b hb) (not_lt_of_ge h)]
    · rcases List.mem_cons.mp ha with rfl | ha
      · rw [pathTo_self]
        rcases List.mem_append.mp hb with hb | hb
        · rw [pathTo_lt (hln b hb)]
          refine iff_of_false (fun h => ?_) (fun h => ?_)
          · exact not_leftNeighbor_of_branch (x := []) hself hleft (by decide) (by decide) h
          · exact lt_asymm h.1 (hln b hb)
        · rcases List.mem_cons.mp hb with rfl | hb
          · -- a path is not adjacent to itself
            rw [pathTo_self]
            refine iff_of_false (fun h => ?_) (fun h => lt_irrefl _ h.1)
            obtain ⟨_, _, _, _, hdrop, -⟩ := LeftNeighbor.of_append (x := []) (y := []) h
            exact absurd hdrop (by simp [dropCommon])
          · -- and the left neighbour of the first of its right child
            rw [pathTo_gt (hrn b hb), neighbours_middle_left_iff hs hb,
              ← leftmost_iff hsr hz.2.2 hb]
            refine (leftNeighbor_succ_iff (x := []) hself hright).trans (and_iff_right ?_)
            exact fun op hop => absurd hop List.not_mem_nil
      · rw [pathTo_gt (hrn a ha)]
        rcases List.mem_append.mp hb with hb | hb
        · rw [pathTo_lt (hln b hb)]
          refine iff_of_false (fun h => ?_) (fun h => ?_)
          · exact not_leftNeighbor_of_branch hright hleft (by decide) (by decide) h
          · exact lt_asymm h.1 ((hln b hb).trans (hrn a ha))
        · rcases List.mem_cons.mp hb with rfl | hb
          · rw [pathTo_self]
            refine iff_of_false (fun h => ?_) (fun h => lt_asymm h.1 (hrn a ha))
            exact not_leftNeighbor_of_branch (y := []) hright hself (by decide) (by decide) h
          · rw [pathTo_gt (hrn b hb), neighbours_right_iff hs ha, ← ihr hsr hz.2.2 ha hb]
            exact ⟨LeftNeighbor.of_append, fun h => h.append _⟩

end Places

/-! ## The checks of `ics23` on the ops of a tree

The checks know an op by the lengths around its child. On ops of `get_proof`'s shape a suffix of two,
one or no child's size tells the branch, so there they come to the notions of the sections above. -/

section Checks

theorem idxOf_childOrder {b : Nat} (hb : b ≤ 2) : innerSpec.childOrder.idxOf b = b := by
  have hcases : b = 0 ∨ b = 1 ∨ b = 2 := by omega
  rcases hcases with rfl | rfl | rfl <;> rfl

/-- On an op of one branch the bounds on the prefix decide nothing: the suffix tells the branch. -/
theorem hasPadding_iff {op : InnerOp} {b c : Nat} (hb : OfBranch getProofSpec op b) :
    HasPadding innerSpec op c ↔ c = b := by
  obtain ⟨hb2, hpre, hsuf⟩ := ofBranch_iff.mp hb
  constructor
  · rintro ⟨hc, -, -, hlength⟩
    have hcases : c = 0 ∨ c = 1 ∨ c = 2 := by simpa [innerSpec, getProofSpec] using hc
    rw [idxOf_childOrder (by omega), hsuf] at hlength
    have hlength' : (2 - b) * 32 = (2 - c) * 32 := hlength
    omega
  · rintro rfl
    have hidx := idxOf_childOrder hb2
    refine ⟨?_, ?_, ?_, ?_⟩
    · have hcases : c = 0 ∨ c = 1 ∨ c = 2 := by omega
      rcases hcases with rfl | rfl | rfl <;> decide
    · rw [hidx, hpre]
      exact le_rfl
    · rw [hidx, hpre]
      exact Nat.le_add_right _ _
    · rw [hidx, hsuf]
      rfl

theorem orderFromPadding_eq {op : InnerOp} {b : Nat} (hb : OfBranch getProofSpec op b) :
    orderFromPadding innerSpec op = some b := by
  have hb2 := (ofBranch_iff.mp hb).1
  have hcases : b = 0 ∨ b = 1 ∨ b = 2 := by omega
  simp only [orderFromPadding, hasPadding_iff hb]
  rcases hcases with rfl | rfl | rfl <;> rfl

theorem rightmostStep_iff {op : InnerOp} (h : NodeOp op) :
    HasPadding innerSpec op 2 ∨ RightBranchesAreEmpty innerSpec op ↔ RightmostStep op := by
  obtain ⟨b, hb⟩ := h.branch
  have hlength := (ofBranch_iff.mp hb).2.2
  rw [hasPadding_iff hb, RightBranchesAreEmpty, orderFromPadding_eq hb, RightmostStep]
  constructor
  · rintro (rfl | ⟨_, ⟨⟩, hlt, hone, hempty⟩)
    · exact .inl hb
    · -- one child after it, which is the branch of the node itself
      have hone' : op.suffixBytes.length = 32 := hone
      have hb1 : b = 1 := by
        have hb2 : b + 1 < 3 := hlt
        omega
      subst hb1
      have hsuffix : (op.suffixBytes.drop (0 * 32)).take 32 = emptyChild := hempty 0 (by decide)
      rw [Nat.zero_mul, List.drop_zero, ← hone', List.take_length] at hsuffix
      exact .inr ⟨hb, hsuffix⟩
  · rintro (hb' | ⟨hb', hsuffix⟩)
    · exact .inl (ofBranch_unique hb' hb)
    · obtain rfl := ofBranch_unique hb' hb
      refine .inr ⟨1, rfl, by decide, by rw [hsuffix]; rfl, fun i hi => ?_⟩
      obtain rfl : i = 0 := Nat.lt_one_iff.mp hi
      rw [hsuffix]
      rfl

theorem leftmostStep_iff {op : InnerOp} (h : NodeOp op) :
    HasPadding innerSpec op 0 ∨ LeftBranchesAreEmpty innerSpec op ↔ LeftmostStep op := by
  obtain ⟨b, hb⟩ := h.branch
  obtain ⟨hb2, hlength, -⟩ := ofBranch_iff.mp hb
  rw [hasPadding_iff hb, LeftBranchesAreEmpty, orderFromPadding_eq hb, LeftmostStep]
  constructor
  · rintro (rfl | ⟨_, ⟨⟩, hpos, -, hempty⟩)
    · exact .inl hb
    · have hblock : ∀ i < b, (op.prefixBytes.drop (i * 32)).take 32 = emptyChild := by
        intro i hi
        have hstart : op.prefixBytes.length - b * innerSpec.childSize +
            i * innerSpec.childSize = i * 32 := by
          rw [hlength]
          exact (congrArg (· + i * 32) (Nat.sub_self (b * 32))).trans (Nat.zero_add _)
        have h := hempty i hi
        rw [hstart] at h
        exact h
      have hcases : b = 1 ∨ b = 2 := by omega
      rcases hcases with rfl | rfl
      · have hpre := hblock 0 (by decide)
        rw [Nat.zero_mul, List.drop_zero, List.take_of_length_le hlength.le] at hpre
        exact .inr ⟨hb, hpre⟩
      · -- two placeholders would be a leaf's zeroes
        refine absurd ?_ h.not_leaf
        have hfirst := hblock 0 (by decide)
        have hsecond := hblock 1 (by decide)
        rw [Nat.zero_mul, List.drop_zero] at hfirst
        rw [Nat.one_mul, List.take_of_length_le (by rw [List.length_drop, hlength])] at hsecond
        have hzeroes : op.prefixBytes = leafPrefix := by
          rw [leafPrefix_eq, ← List.take_append_drop 32 op.prefixBytes, hfirst, hsecond]
        exact hzeroes ▸ List.prefix_rfl
  · rintro (hb' | ⟨hb', hpre⟩)
    · exact .inl (ofBranch_unique hb' hb)
    · obtain rfl := ofBranch_unique hb' hb
      refine .inr ⟨1, rfl, by decide, by rw [hpre]; decide, fun i hi => ?_⟩
      obtain rfl : i = 0 := Nat.lt_one_iff.mp hi
      rw [hpre]
      rfl

theorem ensureRightMost_iff {path : List InnerOp} (h : ∀ op ∈ path, NodeOp op) :
    EnsureRightMost innerSpec path ↔ ∀ op ∈ path, RightmostStep op :=
  forall₂_congr fun op hop => rightmostStep_iff (h op hop)

theorem ensureLeftMost_iff {path : List InnerOp} (h : ∀ op ∈ path, NodeOp op) :
    EnsureLeftMost innerSpec path ↔ ∀ op ∈ path, LeftmostStep op :=
  forall₂_congr fun op hop => leftmostStep_iff (h op hop)

theorem isLeftStep_iff {a b : InnerOp} (ha : NodeOp a) (hb : NodeOp b) :
    IsLeftStep innerSpec a b ↔
      ∃ i, OfBranch getProofSpec a i ∧ OfBranch getProofSpec b (i + 1) := by
  obtain ⟨i, hi⟩ := ha.branch
  obtain ⟨j, hj⟩ := hb.branch
  rw [IsLeftStep, orderFromPadding_eq hi, orderFromPadding_eq hj]
  constructor
  · rintro ⟨_, ⟨⟩, hsucc⟩
    exact ⟨i, hi, Option.some.inj hsucc ▸ hj⟩
  · rintro ⟨k, hk, hk'⟩
    rw [ofBranch_unique hk hi] at hk'
    exact ⟨i, rfl, congrArg some (ofBranch_unique hj hk')⟩

/-- The induction follows the loop: the common ops at the root end first. -/
theorem ensureLeftNeighbor_iff {left : List InnerOp} :
    ∀ {right : List InnerOp}, (∀ op ∈ left, NodeOp op) → (∀ op ∈ right, NodeOp op) →
      (EnsureLeftNeighbor innerSpec left right ↔
        ∃ a as b bs, dropCommon left right = (a :: as, b :: bs) ∧
          (∃ i, OfBranch getProofSpec a i ∧ OfBranch getProofSpec b (i + 1)) ∧
          (∀ op ∈ as, RightmostStep op) ∧ ∀ op ∈ bs, LeftmostStep op) := by
  induction left with
  | nil =>
    intro right _ _
    refine iff_of_false (fun h => h) ?_
    rintro ⟨a, as, b, bs, hdrop, -⟩
    cases right <;> cases hdrop
  | cons a left ih =>
    intro right hleft hright
    cases right with
    | nil =>
      refine iff_of_false (fun h => h) ?_
      rintro ⟨_, _, _, _, hdrop, -⟩
      cases hdrop
    | cons b right =>
      obtain ⟨ha, hleft⟩ := List.forall_mem_cons.mp hleft
      obtain ⟨hb, hright⟩ := List.forall_mem_cons.mp hright
      -- the check compares the bytes around the child only: the hash op is the same in all
      have hsame : a.prefixBytes = b.prefixBytes ∧ a.suffixBytes = b.suffixBytes ↔ a = b := by
        constructor
        · rintro ⟨hpre, hsuf⟩
          have hhash := ha.hash_eq.trans hb.hash_eq.symm
          cases a
          cases b
          exact InnerOp.mk.injEq .. ▸ ⟨hhash, hpre, hsuf⟩
        · rintro rfl
          exact ⟨rfl, rfl⟩
      rw [EnsureLeftNeighbor, dropCommon]
      by_cases hab : a = b
      · rw [if_pos (hsame.mpr hab), if_pos hab]
        exact ih hleft hright
      · rw [if_neg (hsame.not.mpr hab), if_neg hab, isLeftStep_iff ha hb,
          ensureRightMost_iff hleft, ensureLeftMost_iff hright]
        constructor
        · rintro ⟨hstep, hedges⟩
          exact ⟨a, left, b, right, rfl, hstep, hedges⟩
        · rintro ⟨_, _, _, _, ⟨⟩, hstep, hedges⟩
          exact ⟨hstep, hedges⟩

end Checks

/-! ## Accepted proofs of absence -/

/-- The existence proofs in a proof of absence. -/
def sides (q : NonExistenceProof) : List ExistenceProof := q.left.toList ++ q.right.toList

/-- The strings hashed to check some existence proofs. -/
def hashedFor [Sha256] (ps : List ExistenceProof) : Set Bytes :=
  {x | ∃ p ∈ ps, x ∈ proofHashed p}

/-- On the ops of a tree the last match of `verify_non_existence` asks for adjacent paths. -/
theorem ensureAdjacent_iff {q : NonExistenceProof} (h : ∀ p ∈ sides q, ∀ op ∈ p.path, NodeOp op) :
    EnsureAdjacent innerSpec q.left q.right ↔ Adjacent q := by
  obtain ⟨key, left, right⟩ := q
  cases left with
  | none =>
    cases right with
    | none => exact Iff.rfl
    | some right => exact ensureLeftMost_iff (h right (List.mem_singleton_self _))
  | some left =>
    cases right with
    | none => exact ensureRightMost_iff (h left (List.mem_singleton_self _))
    | some right =>
      exact ensureLeftNeighbor_iff
        (fun op hop => h left List.mem_cons_self op (List.mem_reverse.mp hop))
        fun op hop => h right (List.mem_cons_of_mem _ (List.mem_singleton_self _)) op
          (List.mem_reverse.mp hop)

/-- Nothing among the keys lies between the two, or beyond the one. -/
def Gap {K : Type*} [LinearOrder K] (keys : List K) : Option K → Option K → Prop
  | some a, some b => a < b ∧ ∀ k ∈ keys, k ≤ a ∨ b ≤ k
  | some a, none => ∀ k ∈ keys, k ≤ a
  | none, some b => ∀ k ∈ keys, b ≤ k
  | none, none => False

section Absence

variable {K V : Type*} [LinearOrder K] [Sha256] [AsBytes K] [Borrow V]

/-- A side that is the answer of `get_proof` for a key, up to its cut. -/
def SideOf (t : AvlTree K V) : Option ExistenceProof → Option K → Prop
  | some p, some k => p.key ≠ [] ∧ p.value ≠ [] ∧
      ∃ q, t.getProof k = some { proof := some (.exist q) } ∧ SameUpToCut p q
  | none, none => True
  | some _, none => False
  | none, some _ => False

omit [LinearOrder K] in
theorem mem_hashedFor {S : Set Bytes} {ps : List ExistenceProof} {p : ExistenceProof}
    (hp : p ∈ ps) : S ∪ proofHashed p ⊆ S ∪ hashedFor ps :=
  Set.union_subset_union_right _ fun _ hx => ⟨p, hp, hx⟩

theorem sideOf_some_iff {t : AvlTree K V} (h : t.Valid) {p : ExistenceProof} {k : K} :
    SideOf t (some p) (some k) ↔ p.key ≠ [] ∧ p.value ≠ [] ∧
      ∃ value, (k, value) ∈ t.root.toList ∧
        SameUpToCut p (existenceProof t.root (k, value)) := by
  refine and_congr_right fun _ => and_congr_right fun _ => ?_
  constructor
  · rintro ⟨q, hq, hsame⟩
    obtain ⟨value, he, rfl⟩ := h.getProof_eq_exist hq
    exact ⟨value, he, hsame⟩
  · rintro ⟨value, he, hsame⟩
    exact ⟨_, h.getProof_of_mem he, hsame⟩

/-- The existence proofs that pass the checks, as sides. -/
theorem verifyExistence_iff_sideOf {t : AvlTree K V} (h : t.Valid) {p : ExistenceProof}
    {ps : List ExistenceProof} (hp : p ∈ ps)
    (happart : HashesApart (t.root.hashed ∪ hashedFor ps)) :
    VerifyExistence p getProofSpec t.root.childHash p.key p.value ↔
      ∃ k, SideOf t (some p) (some k) := by
  rw [verifyExistence_iff_stored h (happart.mono (mem_hashedFor hp))]
  constructor
  · rintro ⟨-, -, hkey, hvalue, ⟨k, value⟩, he, hsame⟩
    exact ⟨k, (sideOf_some_iff h).mpr ⟨hkey, hvalue, value, he, hsame⟩⟩
  · rintro ⟨k, hside⟩
    obtain ⟨hkey, hvalue, value, he, hsame⟩ := (sideOf_some_iff h).mp hside
    exact ⟨rfl, rfl, hkey, hvalue, (k, value), he, hsame⟩

omit [Sha256] [AsBytes K] [Borrow V] in
theorem neighbours_iff_gap {t : AvlTree K V} {a b : K × V} :
    Neighbours t.root.toList a b ↔ Gap t.getKeys (some a.1) (some b.1) := by
  rw [AvlTree.getKeys_eq]
  exact and_congr_right fun _ => (List.forall_mem_map (P := fun k => k ≤ a.1 ∨ b.1 ≤ k)).symm

/-- Sides that are answers are adjacent exactly when they leave no key in the gap. -/
theorem adjacent_iff_gap {t : AvlTree K V} (h : t.Valid) (hz : NoZeroHash t.root)
    {q : NonExistenceProof} {left right : Option K} (hleft : SideOf t q.left left)
    (hright : SideOf t q.right right) : Adjacent q ↔ Gap t.getKeys left right := by
  obtain ⟨key, l, r⟩ := q
  cases left with
  | none =>
    cases l with
    | some p => exact absurd hleft (fun h => h)
    | none =>
    cases right with
    | none =>
      cases r with
      | some p => exact absurd hright (fun h => h)
      | none => exact Iff.rfl
    | some b =>
      cases r with
      | none => exact absurd hright (fun h => h)
      | some p =>
        obtain ⟨-, -, value, hb, -, hpath, -⟩ := (sideOf_some_iff h).mp hright
        show (∀ op ∈ p.path, LeftmostStep op) ↔ _
        rw [hpath, Gap, AvlTree.forall_getKeys (P := fun k => b ≤ k)]
        exact leftmost_iff h.ordered hz hb
  | some a =>
    cases l with
    | none => exact absurd hleft (fun h => h)
    | some p =>
    obtain ⟨-, -, value, ha, -, hpath, -⟩ := (sideOf_some_iff h).mp hleft
    cases right with
    | none =>
      cases r with
      | some p => exact absurd hright (fun h => h)
      | none =>
        show (∀ op ∈ p.path, RightmostStep op) ↔ _
        rw [hpath, Gap, AvlTree.forall_getKeys (P := fun k => k ≤ a)]
        exact rightmost_iff h.ordered hz ha
    | some b =>
      cases r with
      | none => exact absurd hright (fun h => h)
      | some p' =>
        obtain ⟨-, -, value', hb, -, hpath', -⟩ := (sideOf_some_iff h).mp hright
        show LeftNeighbor p.path p'.path ↔ _
        rw [hpath, hpath']
        exact (leftNeighbor_iff h.ordered hz ha hb).trans neighbours_iff_gap

omit [LinearOrder K] [Sha256] [AsBytes K] [Borrow V] in
theorem sides_forall {q : NonExistenceProof} {P : ExistenceProof → Prop} :
    (∀ p ∈ sides q, P p) ↔
      (∀ p, q.left = some p → P p) ∧ ∀ p, q.right = some p → P p := by
  simp only [sides, List.mem_append, Option.mem_toList, or_imp, forall_and]

omit [Sha256] in
/-- A side, when there is one, is the answer for some key. -/
theorem exists_sideOf_iff {t : AvlTree K V} {o : Option ExistenceProof} :
    (∃ k, SideOf t o k) ↔ ∀ p, o = some p → ∃ k, SideOf t (some p) (some k) := by
  cases o with
  | none => exact iff_of_true ⟨none, trivial⟩ (by simp)
  | some p =>
    constructor
    · rintro ⟨k, hk⟩ p' hp
      cases k with
      | none => exact absurd hk (fun h => h)
      | some k => exact Option.some.inj hp ▸ ⟨k, hk⟩
    · intro h
      obtain ⟨k, hk⟩ := h p rfl
      exact ⟨some k, hk⟩

/-- A side is cut from a path of the tree. -/
theorem nodeOp_of_sideOf {t : AvlTree K V} (h : t.Valid)
    (hzero : ∀ x ∈ t.root.hashed, (sha256 x).bytes ≠ emptyChild) {o : Option ExistenceProof}
    {k : Option K} (hside : SideOf t o k) : ∀ p, o = some p → ∀ op ∈ p.path, NodeOp op := by
  rintro p rfl op hop
  cases k with
  | none => exact absurd hside (fun h => h)
  | some k =>
    obtain ⟨-, -, value, -, hsame⟩ := (sideOf_some_iff h).mp hside
    rw [hsame.path_eq] at hop
    exact nodeOp_of_mem_pathTo hzero h.cached subset_rfl hop

/-- Sides that are answers pass the last match exactly when they leave no key in the gap. -/
theorem ensureAdjacent_iff_gap {t : AvlTree K V} (h : t.Valid)
    (hzero : ∀ x ∈ t.root.hashed, (sha256 x).bytes ≠ emptyChild) {q : NonExistenceProof}
    {left right : Option K} (hleft : SideOf t q.left left) (hright : SideOf t q.right right) :
    (∃ spec ∈ getProofSpec.innerSpec, EnsureAdjacent spec q.left q.right) ↔
      Gap t.getKeys left right := by
  have hops : ∀ p ∈ sides q, ∀ op ∈ p.path, NodeOp op :=
    sides_forall.mpr ⟨nodeOp_of_sideOf h hzero hleft, nodeOp_of_sideOf h hzero hright⟩
  have hz := noZeroHash_of_cached hzero h.cached subset_rfl
  rw [← adjacent_iff_gap h hz hleft hright, ← ensureAdjacent_iff hops]
  constructor
  · rintro ⟨_, ⟨⟩, hadj⟩
    exact hadj
  · intro hadj
    exact ⟨_, rfl, hadj⟩

/-- A gap between stored keys passes the checks, however the sides' strings are cut. -/
theorem verifyNonExistence_of_gap {t : AvlTree K V} (h : t.Valid)
    (hzero : ∀ x ∈ t.root.hashed, (sha256 x).bytes ≠ emptyChild) {q : NonExistenceProof}
    {key : Bytes} (hlt : ∀ p, q.left = some p → p.key < key)
    (hgt : ∀ p, q.right = some p → key < p.key) {left right : Option K}
    (hleft : SideOf t q.left left) (hright : SideOf t q.right right)
    (hgap : Gap t.getKeys left right) :
    VerifyNonExistence q getProofSpec t.root.childHash key := by
  have hside : ∀ {o : Option ExistenceProof} {k : Option K}, SideOf t o k → ∀ p, o = some p →
      VerifyExistence p getProofSpec t.root.childHash p.key p.value := by
    rintro o k hk p rfl
    obtain ⟨k, hk⟩ := exists_sideOf_iff.mp ⟨k, hk⟩ p rfl
    obtain ⟨hkey, hvalue, value, he, hsame⟩ := (sideOf_some_iff h).mp hk
    exact verifyExistence_of_sameUpToCut h hzero hkey hvalue he hsame
  exact ⟨fun p hp => ⟨hside hleft p hp, hlt p hp⟩, fun p hp => ⟨hside hright p hp, hgt p hp⟩,
    (ensureAdjacent_iff_gap h hzero hleft hright).mpr hgap⟩

theorem verifyNonExistence_iff_gap {t : AvlTree K V} (h : t.Valid) {q : NonExistenceProof}
    (happart : HashesApart (t.root.hashed ∪ hashedFor (sides q))) {key : Bytes} :
    VerifyNonExistence q getProofSpec t.root.childHash key ↔
      (∀ p, q.left = some p → p.key < key) ∧ (∀ p, q.right = some p → key < p.key) ∧
        ∃ left right, SideOf t q.left left ∧ SideOf t q.right right ∧
          Gap t.getKeys left right := by
  have hzero : ∀ x ∈ t.root.hashed, (sha256 x).bytes ≠ emptyChild :=
    fun x hx => happart.nonzero x (.inl hx)
  constructor
  · rintro ⟨hl, hr, hadj⟩
    have hside : ∀ p ∈ sides q, ∃ k, SideOf t (some p) (some k) := by
      intro p hp
      have hverify : VerifyExistence p getProofSpec t.root.childHash p.key p.value :=
        sides_forall.mpr ⟨fun p hp => (hl p hp).1, fun p hp => (hr p hp).1⟩ p hp
      exact (verifyExistence_iff_sideOf h hp happart).mp hverify
    obtain ⟨hsidel, hsider⟩ := sides_forall.mp hside
    obtain ⟨left, hleft⟩ := exists_sideOf_iff.mpr hsidel
    obtain ⟨right, hright⟩ := exists_sideOf_iff.mpr hsider
    exact ⟨fun p hp => (hl p hp).2, fun p hp => (hr p hp).2, left, right, hleft, hright,
      (ensureAdjacent_iff_gap h hzero hleft hright).mp hadj⟩
  · rintro ⟨hlt, hgt, left, right, hleft, hright, hgap⟩
    exact verifyNonExistence_of_gap h hzero hlt hgt hleft hright hgap

/-- The proof of a stored key, cut after its first byte. -/
def cutShort (t : AvlTree K V) (key : K) (value : V) : ExistenceProof :=
  { existenceProof t.root (key, value) with
    key := (asBytes key).take 1
    value := (asBytes key).drop 1 ++ borrow value }

omit [Sha256] in
theorem sideOf_cutShort {t : AvlTree K V} {key : K} {value : V}
    (hget : t.getProof key = some { proof := some (.exist (existenceProof t.root (key, value))) })
    (hlong : 2 ≤ (asBytes key).length) : SideOf t (some (cutShort t key value)) (some key) := by
  refine ⟨?_, ?_, _, hget, ?_, rfl, ?_⟩
  · exact List.ne_nil_of_length_pos (by simp [cutShort]; omega)
  · exact List.append_ne_nil_of_left_ne_nil (List.ne_nil_of_length_pos (by simp; omega)) _
  · exact ⟨_, rfl, rfl, rfl, rfl, rfl, List.prefix_rfl⟩
  · show leafPrefix ++ (asBytes key).take 1 ++ ((asBytes key).drop 1 ++ borrow value) =
      leafPrefix ++ asBytes key ++ borrow value
    rw [List.append_assoc, ← List.append_assoc (List.take 1 _), List.take_append_drop,
      List.append_assoc]

omit [LinearOrder K] [Sha256] [AsBytes K] [Borrow V] in
theorem take_one_lt {bytes : Bytes} (h : 2 ≤ bytes.length) : bytes.take 1 < bytes := by
  match bytes, h with
  | a :: b :: rest, _ => exact List.cons_lt_cons_self.mpr (List.nil_lt_cons b rest)

/-- **A stored key can be proved absent.** Nothing in a leaf says where its key ends. So in every
tree without empty values, for every stored key of two bytes or more that the greater keys follow
byte by byte too, the verifier of `ics23` accepts under one root hash what `get_proof` answers for
the key and its value, and a proof that the key is absent. -/
theorem present_and_absent [Verifier] (hverifier : Verifier.Documented getProofSpec)
    {ops : List (TreeOp K V)} {os : List (Option V)} {t : AvlTree K V}
    (hrun : runSteps AvlTree.exec AvlTree.new ops = some (os, t)) {root : Hash}
    (hroot : t.rootHash = some root)
    (hzero : ∀ x ∈ t.root.hashed, (sha256 x).bytes ≠ emptyChild)
    (hfull : ∀ k v, t.get k = some v → borrow v ≠ []) {key : K} {value : V}
    (hget : t.get key = some value) (hlong : 2 ≤ (asBytes key).length)
    (hnext : ∀ k ∈ t.getKeys, key < k → asBytes key < asBytes k) :
    (∃ c, t.getProof key = some c ∧
      verifyMembership c getProofSpec root.bytes (asBytes key) (borrow value) = true) ∧
      ∃ q, verifyNonMembership { proof := some (.nonexist q) } getProofSpec root.bytes
        (asBytes key) = true := by
  have hv := AvlTree.valid_of_run hrun
  have he := hv.get_eq_some_iff.mp hget
  have hproof := hv.getProof_of_mem he
  have hne : asBytes key ≠ [] := List.ne_nil_of_length_pos (by omega)
  simp only [hverifier.nonMembership]
  rw [childHash_of_rootHash hroot]
  constructor
  · exact ⟨_, hproof, (hverifier.membership _ _ _ _).mpr (verifyExistence_of_sameUpToCut hv hzero hne
      (hfull key value hget) he (sameUpToCut_self _ _))⟩
  -- its own proof on the left, cut short, and its successor's on the right
  have hmem : ∀ {e : K × V}, e ∈ t.root.toList → e.1 ∈ t.getKeys := by
    intro e he
    rw [AvlTree.getKeys_eq]
    exact List.mem_map_of_mem he
  cases hs : succ key t.root.toList with
  | none =>
    refine ⟨⟨asBytes key, some (cutShort t key value), none⟩,
      verifyNonExistence_of_gap hv hzero ?_ ?_ (sideOf_cutShort hproof hlong)
        (show SideOf t none none from trivial) ?_⟩
    · rintro p ⟨⟩
      exact take_one_lt hlong
    · rintro p ⟨⟩
    · exact AvlTree.forall_getKeys.mpr fun e he => not_lt.mp (succ_eq_none.mp hs e he)
  | some b =>
    obtain ⟨hb, hkb, hmin⟩ := succ_spec hv.ordered hs
    have hbytes := hnext b.1 (hmem hb) hkb
    have hbne : asBytes b.1 ≠ [] := by
      intro h
      rw [h] at hbytes
      exact List.not_lt_nil _ hbytes
    have hright : SideOf t (some (existenceProof t.root b)) (some b.1) :=
      ⟨hbne, hfull b.1 b.2 (hv.get_eq_some_iff.mpr hb), _, hv.getProof_of_mem hb,
        sameUpToCut_self _ _⟩
    refine ⟨⟨asBytes key, some (cutShort t key value), some (existenceProof t.root b)⟩,
      verifyNonExistence_of_gap hv hzero ?_ ?_ (sideOf_cutShort hproof hlong) hright ?_⟩
    · rintro p ⟨⟩
      exact take_one_lt hlong
    · rintro p ⟨⟩
      exact hbytes
    · refine ⟨hkb, AvlTree.forall_getKeys.mpr fun e he => ?_⟩
      rcases le_or_gt e.1 key with h | h
      exacts [.inl h, .inr (hmin e he h)]

/-! ## What prefix-free keys keep out -/

/-- The existence proofs in an answer. -/
def parts (c : CommitmentProof) : List ExistenceProof :=
  match c.proof with
  | some (.exist p) => [p]
  | some (.nonexist q) => sides q
  | some .batch => []
  | some .compressed => []
  | none => []

/-- It begins its leaf as the tree does, and what it calls its key is some key's bytes. -/
structure NamesKey (K : Type*) [AsBytes K] (p : ExistenceProof) : Prop where
  leaf_eq : p.leaf = some getLeafOp
  key_eq : ∃ k : K, p.key = asBytes k

/-- Neither its key nor its value is empty. -/
def Filled (p : ExistenceProof) : Prop := p.key ≠ [] ∧ p.value ≠ []

/-- A side that names a key is exactly the answer for that key. -/
theorem sideOf_eq_map {t : AvlTree K V} (h : t.Valid) (hfree : PrefixFree K)
    (hkey : Function.Injective (asBytes : K → Bytes)) {o : Option ExistenceProof} {k : Option K}
    (hside : SideOf t o k) (hnames : ∀ p, o = some p → NamesKey K p) :
    ∃ e : Option (K × V), (∀ x ∈ e, x ∈ t.root.toList) ∧ o = e.map (existenceProof t.root) ∧
      k = e.map Prod.fst := by
  cases o with
  | none =>
    cases k with
    | none => exact ⟨none, by simp, rfl, rfl⟩
    | some k => exact absurd hside (fun h => h)
  | some p =>
    cases k with
    | none => exact absurd hside (fun h => h)
    | some k =>
      obtain ⟨-, -, value, he, hsame⟩ := (sideOf_some_iff h).mp hside
      obtain ⟨hleaf, k', hk'⟩ := hnames p rfl
      obtain ⟨-, hp⟩ := hsame.eq_of_prefixFree hfree hkey hleaf hk'
      refine ⟨some (k, value), ?_, by rw [hp]; rfl, rfl⟩
      rintro x ⟨⟩
      exact he

/-- Two entries around a gap are the neighbours of any key in it. -/
theorem neighbours_of_gap {t : AvlTree K V} (h : t.Valid) {key : K} {a b : Option (K × V)}
    (ha : ∀ x ∈ a, x ∈ t.root.toList ∧ x.1 < key) (hb : ∀ x ∈ b, x ∈ t.root.toList ∧ key < x.1)
    (hgap : Gap t.getKeys (a.map Prod.fst) (b.map Prod.fst)) :
    lookup key t.root.toList = none ∧ pred key t.root.toList = a ∧
      succ key t.root.toList = b := by
  have habsent : (∀ e ∈ t.root.toList, e.1 ≠ key) → lookup key t.root.toList = none :=
    lookup_eq_none.mpr
  cases a with
  | none =>
    cases b with
    | none => exact absurd hgap (fun h => h)
    | some b =>
      -- no left side: the right one is the first entry, and all others come after it
      obtain ⟨hbmem, hkb⟩ := hb b rfl
      have habove : ∀ e ∈ t.root.toList, key < e.1 := fun e he =>
        hkb.trans_le ((AvlTree.forall_getKeys (P := fun k => b.1 ≤ k)).mp hgap e he)
      refine ⟨habsent fun e he => ne_of_gt (habove e he),
        pred_eq_none.mpr fun e he => not_lt_of_gt (habove e he),
        (succ_eq_some_iff h.ordered).mpr ⟨hbmem, hkb, fun e he _ => ?_⟩⟩
      exact (AvlTree.forall_getKeys (P := fun k => b.1 ≤ k)).mp hgap e he
  | some a =>
    obtain ⟨hamem, hak⟩ := ha a rfl
    cases b with
    | none =>
      have hbelow : ∀ e ∈ t.root.toList, e.1 < key := fun e he =>
        ((AvlTree.forall_getKeys (P := fun k => k ≤ a.1)).mp hgap e he).trans_lt hak
      refine ⟨habsent fun e he => ne_of_lt (hbelow e he),
        (pred_eq_some_iff h.ordered).mpr ⟨hamem, hak, fun e he _ => ?_⟩,
        succ_eq_none.mpr fun e he => not_lt_of_gt (hbelow e he)⟩
      exact (AvlTree.forall_getKeys (P := fun k => k ≤ a.1)).mp hgap e he
    | some b =>
      obtain ⟨hbmem, hkb⟩ := hb b rfl
      have hside := (AvlTree.forall_getKeys (P := fun k => k ≤ a.1 ∨ b.1 ≤ k)).mp hgap.2
      refine ⟨habsent fun e he => ?_, (pred_eq_some_iff h.ordered).mpr ⟨hamem, hak, ?_⟩,
        (succ_eq_some_iff h.ordered).mpr ⟨hbmem, hkb, ?_⟩⟩
      · rcases hside e he with hle | hle
        exacts [ne_of_lt (hle.trans_lt hak), ne_of_gt (hkb.trans_le hle)]
      · intro e he hek
        exact (hside e he).resolve_right fun hle => lt_asymm hek (hkb.trans_le hle)
      · intro e he hke
        exact (hside e he).resolve_left fun hle => lt_asymm hke (hle.trans_lt hak)

omit [LinearOrder K] [Sha256] [Borrow V] in
/-- Bytes that keep the order of the keys keep them apart. -/
theorem injective_of_lt_iff [LinearOrder K]
    (horder : ∀ k k' : K, asBytes k < asBytes k' ↔ k < k') :
    Function.Injective (asBytes : K → Bytes) := by
  intro k k' h
  have hlt : ∀ {x y : K}, asBytes x = asBytes y → ¬ x < y := fun hxy hlt =>
    List.lt_irrefl _ (hxy ▸ (horder _ _).mpr hlt)
  exact le_antisymm (not_lt.mp (hlt h.symm)) (not_lt.mp (hlt h))

/-- A proof of absence that names keys and passes the checks is the answer for the key asked for. -/
theorem getProof_of_verifyNonExistence {t : AvlTree K V} (h : t.Valid) (hfree : PrefixFree K)
    (horder : ∀ k k' : K, asBytes k < asBytes k' ↔ k < k') {q : NonExistenceProof} {key : K}
    (happart : HashesApart (t.root.hashed ∪ hashedFor (sides q)))
    (hnames : ∀ p ∈ sides q, NamesKey K p)
    (hq : VerifyNonExistence q getProofSpec t.root.childHash (asBytes key)) :
    t.getProof key = some { proof := some (.nonexist { q with key := asBytes key }) } := by
  have hkey := injective_of_lt_iff horder
  obtain ⟨hlt, hgt, left, right, hleft, hright, hgap⟩ :=
    (verifyNonExistence_iff_gap h happart).mp hq
  obtain ⟨hnamesl, hnamesr⟩ := sides_forall.mp hnames
  obtain ⟨a, hamem, hal, rfl⟩ := sideOf_eq_map h hfree hkey hleft hnamesl
  obtain ⟨b, hbmem, hbr, rfl⟩ := sideOf_eq_map h hfree hkey hright hnamesr
  have hbelow : ∀ x ∈ a, x ∈ t.root.toList ∧ x.1 < key := by
    intro x hx
    have hbytes := hlt (existenceProof t.root x) (by rw [hal, hx]; rfl)
    exact ⟨hamem x hx, (horder _ _).mp hbytes⟩
  have habove : ∀ x ∈ b, x ∈ t.root.toList ∧ key < x.1 := by
    intro x hx
    have hbytes := hgt (existenceProof t.root x) (by rw [hbr, hx]; rfl)
    exact ⟨hbmem x hx, (horder _ _).mp hbytes⟩
  obtain ⟨hlookup, hpred, hsucc⟩ := neighbours_of_gap h hbelow habove hgap
  obtain ⟨qkey, ql, qr⟩ := q
  simp only at hal hbr
  rw [h.getProof_eq, proofFor, hlookup, hpred, hsucc, hal, hbr]

/-- An answer without an empty key or value passes the checks. -/
theorem verifyNonExistence_of_getProof {t : AvlTree K V} (h : t.Valid)
    (horder : ∀ k k' : K, asBytes k < asBytes k' ↔ k < k') (hne : t.getKeys ≠ [])
    (hzero : ∀ x ∈ t.root.hashed, (sha256 x).bytes ≠ emptyChild) {q : NonExistenceProof} {key : K}
    (hproof : t.getProof key = some { proof := some (.nonexist { q with key := asBytes key }) })
    (hfilled : ∀ p ∈ sides q, Filled p) :
    VerifyNonExistence q getProofSpec t.root.childHash (asBytes key) := by
  obtain ⟨qkey, ql, qr⟩ := q
  cases hget : t.get key with
  | some value =>
    have heq := (h.getProof_of_mem (h.get_eq_some_iff.mp hget)).symm.trans hproof
    simp at heq
  | none =>
    have hlookup := hget
    rw [h.get_eq] at hlookup
    rw [h.getProof_eq, proofFor, hlookup] at hproof
    simp only [Option.some.injEq, CommitmentProof.mk.injEq, Proof.nonexist.injEq,
      NonExistenceProof.mk.injEq, true_and] at hproof
    obtain ⟨rfl, rfl⟩ := hproof
    have hadj := h.adjacent hne hget
    have hverify : ∀ e ∈ t.root.toList, Filled (existenceProof t.root e) →
        VerifyExistence (existenceProof t.root e) getProofSpec t.root.childHash
          (existenceProof t.root e).key (existenceProof t.root e).value := fun e he hne =>
      verifyExistence_of_sameUpToCut h hzero hne.1 hne.2 he (sameUpToCut_self _ _)
    obtain ⟨hfilledl, hfilledr⟩ := sides_forall.mp hfilled
    refine ⟨fun p hp => ?_, fun p hp => ?_, _, rfl, (ensureAdjacent_iff ?_).mpr hadj⟩
    · obtain ⟨e, he, rfl⟩ := Option.map_eq_some_iff.mp hp
      obtain ⟨hmem, hlt, -⟩ := pred_spec h.ordered he
      exact ⟨hverify e hmem (hfilledl _ hp), (horder _ _).mpr hlt⟩
    · obtain ⟨e, he, rfl⟩ := Option.map_eq_some_iff.mp hp
      obtain ⟨hmem, hlt, -⟩ := succ_spec h.ordered he
      exact ⟨hverify e hmem (hfilledr _ hp), (horder _ _).mpr hlt⟩
    · refine sides_forall.mpr ⟨fun p hp op hop => ?_, fun p hp op hop => ?_⟩
      · obtain ⟨e, -, rfl⟩ := Option.map_eq_some_iff.mp hp
        exact nodeOp_of_mem_pathTo hzero h.cached subset_rfl hop
      · obtain ⟨e, -, rfl⟩ := Option.map_eq_some_iff.mp hp
        exact nodeOp_of_mem_pathTo hzero h.cached subset_rfl hop

end Absence

/-! ## One pair, and a key beside it -/

section OnePair

attribute [local instance] twiceSha256 oneByte

def falseAbsent : NonExistenceProof :=
  { key := asBytes false
    left := none
    right := some (existenceProof onePair.root (true, [98, 99])) }

theorem hashedFor_onePair :
    onePair.root.hashed ∪ hashedFor (sides falseAbsent) ⊆ onePair.root.hashed := by
  refine Set.union_subset subset_rfl ?_
  rintro x ⟨p, hp, hx⟩
  obtain rfl := List.mem_singleton.mp hp
  exact proofHashed_onePair hx

local instance falseVerifier : Verifier := .ofChecks

theorem prefixFree_oneByte : PrefixFree Bool := by
  intro k k' h
  exact h.eq_of_length rfl

end OnePair

section Cut

attribute [local instance] twiceSha256 twiceAsBytes

local instance abVerifier : Verifier := .ofChecks

theorem rootHash_abC : abC.rootHash = some ⟨List.replicate 32 2, List.length_replicate⟩ := rfl

theorem present_and_absent_cut :
    (∃ c, abC.getProof "ab" = some c ∧
      verifyMembership c getProofSpec (List.replicate 32 2) (asBytes "ab") [99] = true) ∧
      ∃ q, verifyNonMembership { proof := some (.nonexist q) } getProofSpec (List.replicate 32 2)
        (asBytes "ab") = true := by
  have hmem : ∀ {k : String} {v : Bytes}, abC.get k = some v → k = "ab" ∧ v = [99] := by
    intro k v h
    have he := (AvlTree.valid_of_run run_abC).get_eq_some_iff.mp h
    exact Prod.mk.inj (List.mem_singleton.mp he)
  have hget : abC.get "ab" = some [99] := by decide
  refine present_and_absent (Verifier.documented_ofChecks _) run_abC rootHash_abC
    (fun x hx => nonzero_cuts x (.inr hx)) (fun k v h => ?_) hget (by decide) (fun k hk hlt => ?_)
  · rw [(hmem h).2]
    decide
  · rw [List.mem_singleton.mp hk] at hlt
    exact absurd hlt (lt_irrefl _)

end Cut

end Basecoin.Avl
