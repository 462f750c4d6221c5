import Basecoin.Store.Avl.Removal

/-!
# Overwriting a key

`insert_rec` refreshes and rebalances every node on the way back from the key, whether or not the
key was there before. A present key changes no height, so what an overwrite comes to is decided
by the tree it starts from: a node on the path that is already out of balance is rotated
(`Rebalanced.keyAt_root_ne`), and if there is none the pair is replaced where it stands
(`insertRec_eq_overwrite`).

Where a key stands is a path from the root, a list of sides. `InPlace` compares two trees position
by position: the same keys, the value at the one key, and hashes that differ on the way to it only.
That a rotation cannot give such a tree is seen at the node that is rotated, which gives its place to
a key on one side of it; the keys strictly increase in the listing, so that is another key.
-/

namespace Basecoin.Avl

open Lib Lib.SortedMap

variable {K V : Type*}

/-! ## Positions -/

/-- The node at the end of a path from the root. -/
def NodeRef.nodeAt : NodeRef K V → List Side → Option (AvlNode K V)
  | .nil, _ => none
  | .node n _ _, [] => some n
  | .node _ l _, .left :: path => l.nodeAt path
  | .node _ _ r, .right :: path => r.nodeAt path

@[simp] theorem NodeRef.nodeAt_nil (path : List Side) :
    (nil : NodeRef K V).nodeAt path = none := rfl

@[simp] theorem NodeRef.nodeAt_root (n : AvlNode K V) (l r : NodeRef K V) :
    (node n l r).nodeAt [] = some n := rfl

@[simp] theorem NodeRef.nodeAt_left (n : AvlNode K V) (l r : NodeRef K V) (path : List Side) :
    (node n l r).nodeAt (.left :: path) = l.nodeAt path := rfl

@[simp] theorem NodeRef.nodeAt_right (n : AvlNode K V) (l r : NodeRef K V) (path : List Side) :
    (node n l r).nodeAt (.right :: path) = r.nodeAt path := rfl

def NodeRef.keyAt (t : NodeRef K V) (path : List Side) : Option K :=
  (t.nodeAt path).map (·.key)

/-- Every key of the one tree stands in the other where it stood. -/
def SamePositions (t t' : NodeRef K V) : Prop := ∀ path, t'.keyAt path = t.keyAt path

/-- The position lies on the way from the root to the key. -/
def OnPath (t : NodeRef K V) (path : List Side) (key : K) : Prop :=
  ∃ below, t.keyAt (path ++ below) = some key

/-- `t'` is `t` with another value at the key, and other hashes between the key and the root. -/
structure InPlace (key : K) (value : V) (t t' : NodeRef K V) : Prop where
  positions : SamePositions t t'
  stored : ∀ path n', t'.nodeAt path = some n' → n'.key = key → n'.value = value
  kept : ∀ path n n', t.nodeAt path = some n → t'.nodeAt path = some n' →
    n'.height = n.height ∧ (n.key ≠ key → n'.value = n.value ∧ n'.hash = n.hash)
  aside : ∀ path, ¬ OnPath t path key → t'.nodeAt path = t.nodeAt path

theorem samePositions_node {n n' : AvlNode K V} {l l' r r' : NodeRef K V} :
    SamePositions (.node n l r) (.node n' l' r') ↔
      n'.key = n.key ∧ SamePositions l l' ∧ SamePositions r r' := by
  constructor
  · intro h
    exact ⟨Option.some.inj (h []), fun path => h (.left :: path), fun path => h (.right :: path)⟩
  · rintro ⟨hkey, hl, hr⟩ path
    cases path with
    | nil => exact congrArg some hkey
    | cons side path =>
      cases side with
      | left => exact hl path
      | right => exact hr path

/-- A key that is listed has a position. -/
theorem exists_keyAt {key : K} : ∀ {t : NodeRef K V}, key ∈ t.toList.map Prod.fst →
    ∃ path, t.keyAt path = some key := by
  intro t
  induction t with
  | nil => intro h; exact absurd h List.not_mem_nil
  | node n l r ihl ihr =>
    intro h
    rw [NodeRef.toList_node, List.map_append, List.map_cons, List.mem_append, List.mem_cons] at h
    rcases h with hl | rfl | hr
    · obtain ⟨path, hpath⟩ := ihl hl
      exact ⟨.left :: path, hpath⟩
    · exact ⟨[], rfl⟩
    · obtain ⟨path, hpath⟩ := ihr hr
      exact ⟨.right :: path, hpath⟩

/-- And a key with a position is listed. -/
theorem mem_of_nodeAt {n : AvlNode K V} : ∀ {t : NodeRef K V} {path : List Side},
    t.nodeAt path = some n → (n.key, n.value) ∈ t.toList := by
  intro t
  induction t with
  | nil => intro path h; cases h
  | node m l r ihl ihr =>
    intro path h
    rw [NodeRef.toList_node, List.mem_append, List.mem_cons]
    cases path with
    | nil =>
      obtain rfl : m = n := Option.some.inj h
      exact .inr (.inl rfl)
    | cons side path =>
      cases side with
      | left => exact .inl (ihl h)
      | right => exact .inr (.inr (ihr h))

/-! ## Heights -/

theorem nodeHeight_congr {l l' r r' : NodeRef K V} (hl : l'.height? = l.height?)
    (hr : r'.height? = r.height?) : nodeHeight l' r' = nodeHeight l r := by
  cases l <;> cases l' <;> cases r <;> cases r' <;>
    simp_all [NodeRef.height?, nodeHeight, NodeRef.ht]

theorem balanceFactor_congr {l l' r r' : NodeRef K V} (hl : l'.height? = l.height?)
    (hr : r'.height? = r.height?) : balanceFactor l' r' = balanceFactor l r := by
  rw [balanceFactor_eq, balanceFactor_eq, NodeRef.ht, NodeRef.ht, NodeRef.ht, NodeRef.ht, hl, hr]

theorem withinOne_congr {l l' r r' : NodeRef K V} (hl : l'.height? = l.height?)
    (hr : r'.height? = r.height?) : WithinOne l' r' ↔ WithinOne l r := by
  rw [WithinOne, balanceFactor_congr hl hr, WithinOne]

variable [LinearOrder K]

/-- Every node from the root down to the key has balance factor -1, 0 or 1. -/
def PathWithinOne (key : K) : NodeRef K V → Prop
  | .nil => True
  | .node n l r =>
    WithinOne l r ∧
      match compare n.key key with
      | .gt => PathWithinOne key l
      | .lt => PathWithinOne key r
      | .eq => True

/-- In a balanced tree that is so for every key. -/
theorem Balanced.pathWithinOne {t : NodeRef K V} (h : Balanced t) (key : K) :
    PathWithinOne key t := by
  induction t with
  | nil => exact trivial
  | node n l r ihl ihr =>
    obtain ⟨hin, hl, hr⟩ := h
    refine ⟨hin, ?_⟩
    cases compare n.key key with
    | lt => exact ihr hr
    | eq => exact trivial
    | gt => exact ihl hl

section Write

variable [Sha256]

/-! ## Where a rotation happens -/

omit [LinearOrder K] in
theorem keyAt_refreshed (n : AvlNode K V) (l r : NodeRef K V) :
    (refreshed n l r).keyAt [] = some n.key :=
  congrArg some (AvlNode.update_key n l r)

/-- A node out of balance gives its place to another key. -/
theorem Rebalanced.keyAt_root_ne {n : AvlNode K V} {l r t' : NodeRef K V}
    (h : Rebalanced (.node n l r) t') (hs : Sorted (NodeRef.node n l r).toList)
    (hout : ¬ WithinOne l r) : t'.keyAt [] ≠ some n.key := by
  rw [NodeRef.toList_node] at hs
  obtain ⟨-, -, hleft, hright⟩ := sorted_middle.mp hs
  cases h with
  | keep hlo hhi => exact absurd ⟨by omega, by omega⟩ hout
  | @right _ m ll lr =>
    rw [keyAt_refreshed, Ne, Option.some.injEq]
    exact (hleft (m.key, m.value) (by simp)).ne
  | @leftRight _ _ x ll xl xr =>
    rw [keyAt_refreshed, Ne, Option.some.injEq]
    exact (hleft (x.key, x.value) (by simp)).ne
  | @left _ m _ rl rr =>
    rw [keyAt_refreshed, Ne, Option.some.injEq]
    exact (hright (m.key, m.value) (by simp)).ne'
  | @rightLeft _ _ x _ xl xr rr =>
    rw [keyAt_refreshed, Ne, Option.some.injEq]
    exact (hright (x.key, x.value) (by simp)).ne'

/-- So a root that is still in its place was in balance. -/
theorem Rebalanced.withinOne_of_keyAt_root {n : AvlNode K V} {l r t' : NodeRef K V}
    (h : Rebalanced (refreshed n l r) t') (hs : Sorted (refreshed n l r).toList)
    (hroot : t'.keyAt [] = some n.key) : WithinOne l r := by
  by_contra hout
  have hmoved := h.keyAt_root_ne hs hout
  rw [AvlNode.update_key] at hmoved
  exact hmoved hroot

variable [AsBytes K] [Borrow V]

/-! ## The tree with the value replaced in place -/

/-- Set the value at the key and refresh the nodes on the way back; no rebalancing. -/
def overwrite (key : K) (value : V) : NodeRef K V → NodeRef K V
  | .nil => .nil
  | .node n l r =>
    match compare n.key key with
    | .gt => refreshed n (overwrite key value l) r
    | .lt => refreshed n l (overwrite key value r)
    | .eq => refreshed (n.setValue value).2 l r

theorem overwrite_lt {n : AvlNode K V} {l r : NodeRef K V} {key : K} {value : V}
    (h : compare n.key key = .lt) :
    overwrite key value (.node n l r) = refreshed n l (overwrite key value r) := by
  rw [overwrite, h]

theorem overwrite_gt {n : AvlNode K V} {l r : NodeRef K V} {key : K} {value : V}
    (h : compare n.key key = .gt) :
    overwrite key value (.node n l r) = refreshed n (overwrite key value l) r := by
  rw [overwrite, h]

theorem overwrite_eq {n : AvlNode K V} {l r : NodeRef K V} {key : K} {value : V}
    (h : compare n.key key = .eq) :
    overwrite key value (.node n l r) = refreshed (n.setValue value).2 l r := by
  rw [overwrite, h]

theorem height?_overwrite (key : K) (value : V) : ∀ {t : NodeRef K V}, Cached t →
    (overwrite key value t).height? = t.height? := by
  intro t
  induction t with
  | nil => intro _; rfl
  | node n l r ihl ihr =>
    rintro ⟨hn, hl, hr⟩
    cases hc : compare n.key key with
    | lt =>
      rw [overwrite_lt hc, refreshed, NodeRef.height?, NodeRef.height?, AvlNode.update_height',
        nodeHeight_congr rfl (ihr hr), hn.height]
    | gt =>
      rw [overwrite_gt hc, refreshed, NodeRef.height?, NodeRef.height?, AvlNode.update_height',
        nodeHeight_congr (ihl hl) rfl, hn.height]
    | eq =>
      rw [overwrite_eq hc, refreshed, NodeRef.height?, NodeRef.height?, AvlNode.update_height',
        hn.height]

theorem cached_overwrite (key : K) (value : V) : ∀ {t : NodeRef K V}, Cached t →
    Cached (overwrite key value t) := by
  intro t
  induction t with
  | nil => intro _; exact cached_nil
  | node n l r ihl ihr =>
    rintro ⟨hn, hl, hr⟩
    cases hc : compare n.key key with
    | lt => exact overwrite_lt hc ▸ cached_refreshed hn.hash hl (ihr hr)
    | gt => exact overwrite_gt hc ▸ cached_refreshed hn.hash (ihl hl) hr
    | eq => exact overwrite_eq hc ▸ cached_refreshed rfl hl hr

/-- The value that is there already changes nothing at all. -/
theorem overwrite_self (key : K) (value : V) : ∀ {t : NodeRef K V}, Cached t → Sorted t.toList →
    lookup key t.toList = some value → overwrite key value t = t := by
  intro t
  induction t with
  | nil => intro _ _ _; rfl
  | node n l r ihl ihr =>
    rintro ⟨hn, hl, hr⟩ hs hkey
    rw [NodeRef.toList_node] at hs hkey
    obtain ⟨hsl, hsr, -, -⟩ := sorted_middle.mp hs
    cases hc : compare n.key key with
    | lt =>
      rw [lookup_middle_gt hs (compare_lt_iff_lt.mp hc)] at hkey
      rw [overwrite_lt hc, ihr hr hsr hkey, hn.refreshed_eq]
    | gt =>
      rw [lookup_middle_lt hs (compare_gt_iff_gt.mp hc)] at hkey
      rw [overwrite_gt hc, ihl hl hsl hkey, hn.refreshed_eq]
    | eq =>
      obtain rfl : n.key = key := compare_eq_iff_eq.mp hc
      rw [lookup_middle_eq hs, Option.some.injEq] at hkey
      have hset : (n.setValue value).2 = n := by
        rw [AvlNode.setValue, ← hkey, ← hn.hash]
      rw [overwrite_eq hc, hset, hn.refreshed_eq]

omit [LinearOrder K] [Sha256] [AsBytes K] [Borrow V] in
theorem InPlace.refl_of_absent {key : K} {value : V} {t : NodeRef K V}
    (h : key ∉ t.toList.map Prod.fst) : InPlace key value t t where
  positions := fun _ => rfl
  stored := fun path n hn hkey =>
    absurd (hkey ▸ List.mem_map_of_mem (f := Prod.fst) (mem_of_nodeAt hn)) h
  kept := fun path n n' hn hn' => by
    obtain rfl : n = n' := Option.some.inj (hn.symm.trans hn')
    exact ⟨rfl, fun _ => ⟨rfl, rfl⟩⟩
  aside := fun _ _ => rfl

omit [LinearOrder K] in
/-- A node above the key, refreshed over the child that was overwritten. -/
theorem InPlace.node {key : K} {value : V} {n : AvlNode K V} {l l' r r' : NodeRef K V}
    (hn : Fresh n l r) (hne : n.key ≠ key) (hl : InPlace key value l l')
    (hr : InPlace key value r r') (hhl : l'.height? = l.height?) (hhr : r'.height? = r.height?)
    (hkey : ∃ path, (NodeRef.node n l r).keyAt path = some key) :
    InPlace key value (.node n l r) (refreshed n l' r') where
  positions := samePositions_node.mpr ⟨AvlNode.update_key n l' r', hl.positions, hr.positions⟩
  stored := fun path n' hn' hk => by
    cases path with
    | nil =>
      obtain rfl : n.update l' r' = n' := Option.some.inj hn'
      exact absurd (hk.symm.trans (AvlNode.update_key n l' r')).symm hne
    | cons side path =>
      cases side with
      | left => exact hl.stored path n' hn' hk
      | right => exact hr.stored path n' hn' hk
  kept := fun path m m' hm hm' => by
    cases path with
    | nil =>
      obtain rfl : n = m := Option.some.inj hm
      obtain rfl : n.update l' r' = m' := Option.some.inj hm'
      rw [AvlNode.update_height', nodeHeight_congr hhl hhr, hn.height]
      exact ⟨rfl, fun _ => ⟨AvlNode.update_value n l' r', AvlNode.update_hash n l' r'⟩⟩
    | cons side path =>
      cases side with
      | left => exact hl.kept path m m' hm hm'
      | right => exact hr.kept path m m' hm hm'
  aside := fun path hoff => by
    cases path with
    | nil => exact absurd hkey hoff
    | cons side path =>
      cases side with
      | left => exact hl.aside path hoff
      | right => exact hr.aside path hoff

omit [LinearOrder K] in
/-- The node of the key itself. -/
theorem InPlace.root {value : V} {n : AvlNode K V} {l r : NodeRef K V} (hn : Fresh n l r)
    (hl : InPlace n.key value l l) (hr : InPlace n.key value r r) :
    InPlace n.key value (.node n l r) (refreshed (n.setValue value).2 l r) where
  positions := samePositions_node.mpr ⟨AvlNode.update_key _ l r, hl.positions, hr.positions⟩
  stored := fun path n' hn' hk => by
    cases path with
    | nil =>
      obtain rfl : (n.setValue value).2.update l r = n' := Option.some.inj hn'
      exact AvlNode.update_value _ l r
    | cons side path =>
      cases side with
      | left => exact hl.stored path n' hn' hk
      | right => exact hr.stored path n' hn' hk
  kept := fun path m m' hm hm' => by
    cases path with
    | nil =>
      obtain rfl : n = m := Option.some.inj hm
      obtain rfl : (n.setValue value).2.update l r = m' := Option.some.inj hm'
      rw [AvlNode.update_height', hn.height]
      exact ⟨rfl, fun hne => absurd rfl hne⟩
    | cons side path =>
      cases side with
      | left => exact hl.kept path m m' hm hm'
      | right => exact hr.kept path m m' hm hm'
  aside := fun path hoff => by
    cases path with
    | nil => exact absurd ⟨[], rfl⟩ hoff
    | cons side path =>
      cases side with
      | left => rfl
      | right => rfl

theorem overwrite_inPlace (key : K) (value : V) : ∀ {t : NodeRef K V}, Cached t →
    Sorted t.toList → key ∈ t.toList.map Prod.fst → InPlace key value t (overwrite key value t) := by
  intro t
  induction t with
  | nil => intro _ _ hkey; exact absurd hkey List.not_mem_nil
  | node n l r ihl ihr =>
    rintro ⟨hn, hl, hr⟩ hs hkey
    have hpath := exists_keyAt hkey
    rw [NodeRef.toList_node] at hs hkey
    obtain ⟨hsl, hsr, hleft, hright⟩ := sorted_middle.mp hs
    -- a key on the other side of the root is not in this child
    have habsentl : n.key ≤ key → key ∉ l.toList.map Prod.fst := fun hle hmem => by
      obtain ⟨e, he, rfl⟩ := List.mem_map.mp hmem
      exact absurd (hleft e he) (not_lt_of_ge hle)
    have habsentr : key ≤ n.key → key ∉ r.toList.map Prod.fst := fun hle hmem => by
      obtain ⟨e, he, rfl⟩ := List.mem_map.mp hmem
      exact absurd (hright e he) (not_lt_of_ge hle)
    rw [List.map_append, List.map_cons, List.mem_append, List.mem_cons] at hkey
    cases hc : compare n.key key with
    | lt =>
      have hlt : n.key < key := compare_lt_iff_lt.mp hc
      have hin : key ∈ r.toList.map Prod.fst :=
        (hkey.resolve_left (habsentl hlt.le)).resolve_left hlt.ne'
      rw [overwrite_lt hc]
      exact InPlace.node hn hlt.ne (.refl_of_absent (habsentl hlt.le)) (ihr hr hsr hin) rfl
        (height?_overwrite key value hr) hpath
    | gt =>
      have hgt : key < n.key := compare_gt_iff_gt.mp hc
      have hin : key ∈ l.toList.map Prod.fst :=
        hkey.resolve_right fun h => h.elim hgt.ne (habsentr hgt.le)
      rw [overwrite_gt hc]
      exact InPlace.node hn hgt.ne' (ihl hl hsl hin) (.refl_of_absent (habsentr hgt.le))
        (height?_overwrite key value hl) rfl hpath
    | eq =>
      obtain rfl : n.key = key := compare_eq_iff_eq.mp hc
      rw [overwrite_eq hc]
      exact InPlace.root hn (.refl_of_absent (habsentl le_rfl)) (.refl_of_absent (habsentr le_rfl))

/-! ## `insert_rec` on a present key -/

/-- With no node out of balance on the path, nothing is rotated. -/
theorem insertRec_eq_overwrite (key : K) (value : V) : ∀ {t : NodeRef K V}, Cached t →
    Sorted t.toList → lookup key t.toList ≠ none → PathWithinOne key t →
    insertRec key value t = some (lookup key t.toList, overwrite key value t) := by
  intro t
  induction t with
  | nil => intro _ _ hkey; exact absurd rfl hkey
  | node n l r ihl ihr =>
    rintro ⟨hn, hl, hr⟩ hs hkey ⟨hin, hrest⟩
    rw [NodeRef.toList_node] at hs hkey ⊢
    obtain ⟨hsl, hsr, -, -⟩ := sorted_middle.mp hs
    rw [insertRec]
    cases hc : compare n.key key with
    | lt =>
      rw [hc] at hrest
      rw [lookup_middle_gt hs (compare_lt_iff_lt.mp hc)] at hkey ⊢
      -- the overwritten child is as tall as it was, so the factor here is the one before
      have hheight := height?_overwrite key value hr
      obtain ⟨t', ht', hreb, -⟩ := updateBalance_spec hn.hash hl (cached_overwrite key value hr)
      obtain rfl := hreb.eq_of_withinOne ((withinOne_congr rfl hheight).mpr hin)
      simp only [ihr hr hsr hkey hrest, Option.bind_some, ht', Option.map_some, overwrite_lt hc,
        refreshed]
    | gt =>
      rw [hc] at hrest
      rw [lookup_middle_lt hs (compare_gt_iff_gt.mp hc)] at hkey ⊢
      have hheight := height?_overwrite key value hl
      obtain ⟨t', ht', hreb, -⟩ := updateBalance_spec hn.hash (cached_overwrite key value hl) hr
      obtain rfl := hreb.eq_of_withinOne ((withinOne_congr hheight rfl).mpr hin)
      simp only [ihl hl hsl hkey hrest, Option.bind_some, ht', Option.map_some, overwrite_gt hc,
        refreshed]
    | eq =>
      obtain rfl : n.key = key := compare_eq_iff_eq.mp hc
      obtain ⟨t', ht', hreb, -⟩ :=
        updateBalance_spec (n := (n.setValue value).2) (l := l) (r := r) rfl hl hr
      obtain rfl := hreb.eq_of_withinOne hin
      rw [lookup_middle_eq hs, overwrite_eq hc]
      simp only [AvlNode.setValue] at ht' ⊢
      rw [ht', Option.map_some, refreshed]

/-- If every key stays where it was, no node on the path was out of balance. -/
theorem pathWithinOne_of_samePositions (key : K) (value : V) : ∀ {t : NodeRef K V}, Cached t →
    Sorted t.toList → lookup key t.toList ≠ none → ∀ {old : Option V} {t' : NodeRef K V},
    insertRec key value t = some (old, t') → SamePositions t t' → PathWithinOne key t := by
  intro t
  induction t with
  | nil => intro _ _ hkey; exact absurd rfl hkey
  | node n l r ihl ihr =>
    rintro ⟨hn, hl, hr⟩ hs hkey old t' h hpos
    rw [NodeRef.toList_node] at hs hkey
    obtain ⟨hsl, hsr, -, -⟩ := sorted_middle.mp hs
    have hroot : t'.keyAt [] = some n.key := hpos []
    rw [insertRec] at h
    cases hc : compare n.key key with
    | lt =>
      have hlt : n.key < key := compare_lt_iff_lt.mp hc
      rw [lookup_middle_gt hs hlt] at hkey
      obtain ⟨r', hr', hcr', hlist⟩ := insertRec_spec key value r hr hsr
      obtain ⟨t₁, ht₁, hreb, -⟩ := updateBalance_spec hn.hash hl hcr'
      simp only [hc, hr', Option.bind_some, ht₁, Option.map_some, Option.some.injEq,
        Prod.mk.injEq] at h
      obtain ⟨-, rfl⟩ := h
      have hs' : Sorted (refreshed n l r').toList := by
        rw [toList_refreshed, hlist, ← insert_middle_gt hs hlt]
        exact sorted_insert hs
      -- the root kept its key, so nothing was rotated here, and below the same question is asked
      have hin' : WithinOne l r' := hreb.withinOne_of_keyAt_root hs' hroot
      obtain rfl := hreb.eq_of_withinOne hin'
      have hrest := ihr hr hsr hkey hr' (samePositions_node.mp hpos).2.2
      rw [insertRec_eq_overwrite key value hr hsr hkey hrest] at hr'
      obtain ⟨-, rfl⟩ := Prod.mk.inj (Option.some.inj hr')
      refine ⟨(withinOne_congr rfl (height?_overwrite key value hr)).mp hin', ?_⟩
      rw [hc]
      exact hrest
    | gt =>
      have hgt : key < n.key := compare_gt_iff_gt.mp hc
      rw [lookup_middle_lt hs hgt] at hkey
      obtain ⟨l', hl', hcl', hlist⟩ := insertRec_spec key value l hl hsl
      obtain ⟨t₁, ht₁, hreb, -⟩ := updateBalance_spec hn.hash hcl' hr
      simp only [hc, hl', Option.bind_some, ht₁, Option.map_some, Option.some.injEq,
        Prod.mk.injEq] at h
      obtain ⟨-, rfl⟩ := h
      have hs' : Sorted (refreshed n l' r).toList := by
        rw [toList_refreshed, hlist, ← insert_middle_lt hgt]
        exact sorted_insert hs
      have hin' : WithinOne l' r := hreb.withinOne_of_keyAt_root hs' hroot
      obtain rfl := hreb.eq_of_withinOne hin'
      have hrest := ihl hl hsl hkey hl' (samePositions_node.mp hpos).2.1
      rw [insertRec_eq_overwrite key value hl hsl hkey hrest] at hl'
      obtain ⟨-, rfl⟩ := Prod.mk.inj (Option.some.inj hl')
      refine ⟨(withinOne_congr (height?_overwrite key value hl) rfl).mp hin', ?_⟩
      rw [hc]
      exact hrest
    | eq =>
      have hk : n.key = key := compare_eq_iff_eq.mp hc
      refine ⟨?_, by rw [hc]; exact trivial⟩
      obtain ⟨t₁, ht₁, hreb, -⟩ :=
        updateBalance_spec (n := (n.setValue value).2) (l := l) (r := r) rfl hl hr
      rw [hc] at h
      simp only [AvlNode.setValue] at ht₁ h
      rw [ht₁, Option.map_some, Option.some.injEq, Prod.mk.injEq] at h
      obtain ⟨-, rfl⟩ := h
      have hs' : Sorted (refreshed (n.setValue value).2 l r).toList := by
        rw [toList_refreshed]
        have hins := sorted_insert (k := key) (v := value) hs
        rw [insert_middle_eq hs hk] at hins
        exact hk ▸ hins
      exact hreb.withinOne_of_keyAt_root hs' hroot

/-- **Overwriting a key leaves the tree in place exactly when its path is balanced.** In every
tree a sequence of calls builds from the empty one, inserting a value at a key that is present
replaces the pair where it stands, changing no key's position and nothing but that value and the
hashes up to the root, and with the value already stored nothing at all, if and only if every node
from the root down to the key has balance factor -1, 0 or 1. -/
theorem overwrite_iff {ops : List (TreeOp K V)} {os : List (Option V)} {t : AvlTree K V}
    (hrun : runSteps AvlTree.exec AvlTree.new ops = some (os, t)) {key : K} {old : V}
    (hkey : t.get key = some old) (value : V) :
    ∃ t', t.insert key value = some (some old, t') ∧
      ((InPlace key value t.root t'.root ∧
          (value = old → t' = t ∧ t'.rootHash = t.rootHash)) ↔
        PathWithinOne key t.root) := by
  have hv := AvlTree.valid_of_run hrun
  have hlookup : lookup key t.root.toList = some old := (hv.get_eq key).symm.trans hkey
  have hpresent : lookup key t.root.toList ≠ none := hlookup ▸ Option.some_ne_none old
  obtain ⟨t', ht', -⟩ := hv.insert key value
  rw [hkey] at ht'
  refine ⟨t', ht', ?_, ?_⟩
  · rintro ⟨hplace, -⟩
    obtain ⟨⟨o, root⟩, hrec, heq⟩ := Option.map_eq_some_iff.mp ht'
    obtain ⟨-, rfl⟩ := Prod.mk.inj heq
    exact pathWithinOne_of_samePositions key value hv.cached hv.ordered hpresent hrec
      hplace.positions
  · intro hpath
    rw [AvlTree.insert, insertRec_eq_overwrite key value hv.cached hv.ordered hpresent hpath,
      Option.map_some, Option.some.injEq, Prod.mk.injEq] at ht'
    obtain ⟨-, rfl⟩ := ht'
    refine ⟨overwrite_inPlace key value hv.cached hv.ordered (mem_keys_iff.mpr hpresent), ?_⟩
    rintro rfl
    rw [overwrite_self key value hv.cached hv.ordered hlookup]
    exact ⟨rfl, rfl⟩

end Write

/-! ## The tree of eleven keys

The removal has left the node of key 3 with balance factor 2; storing at that key the value it
already has rotates it away. -/

section Three

local instance threeSha256 : Sha256 := Sha256.ones

local instance threeAsBytes : AsBytes Nat := ⟨fun n => [UInt8.ofNat n]⟩

theorem run_three :
    ∃ os t t', runSteps AvlTree.exec AvlTree.new elevenCalls = some (os, t) ∧
      t.get 3 = some [] ∧ t.insert 3 [] = some (some [], t') ∧
      t'.root.keyAt [.left] ≠ t.root.keyAt [.left] := by
  have hrun : (runSteps AvlTree.exec AvlTree.new elevenCalls).bind (fun r =>
      (r.2.insert 3 []).map fun i =>
        decide (r.2.get 3 = some [] ∧ i.1 = some [] ∧
          i.2.root.keyAt [.left] ≠ r.2.root.keyAt [.left])) = some true := by decide +kernel
  obtain ⟨⟨os, t⟩, ht, hinsert⟩ := Option.bind_eq_some_iff.mp hrun
  obtain ⟨⟨old, t'⟩, ht', hmoved⟩ := Option.map_eq_some_iff.mp hinsert
  obtain ⟨hget, rfl, hne⟩ := of_decide_eq_true hmoved
  exact ⟨os, t, t', ht, hget, ht', hne⟩

theorem overwrite_iff_three :
    ∃ os t t', runSteps AvlTree.exec AvlTree.new elevenCalls = some (os, t) ∧
      t.insert 3 [] = some (some [], t') ∧
      ((InPlace 3 [] t.root t'.root ∧ (([] : Bytes) = [] → t' = t ∧ t'.rootHash = t.rootHash)) ↔
        PathWithinOne 3 t.root) := by
  obtain ⟨os, t, -, hrun, hget, -⟩ := run_three
  obtain ⟨t', ht', hiff⟩ := overwrite_iff hrun hget []
  exact ⟨os, t, t', hrun, ht', hiff⟩

theorem overwrite_moves_three :
    ∃ os t t', runSteps AvlTree.exec AvlTree.new elevenCalls = some (os, t) ∧
      t.get 3 = some [] ∧ t.insert 3 [] = some (some [], t') ∧
      ¬ SamePositions t.root t'.root ∧ t' ≠ t := by
  obtain ⟨os, t, t', hrun, hget, hinsert, hne⟩ := run_three
  exact ⟨os, t, t', hrun, hget, hinsert, fun h => hne (h [.left]), fun h => hne (by rw [h])⟩

end Three

end Basecoin.Avl
