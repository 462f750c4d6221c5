import Mathlib.Order.Lattice
import Mathlib.Data.List.Basic

/-!
# Finite maps as sorted association lists

The mathematical object behind an ordered container: a list of key-value pairs with strictly
increasing keys. `lookup`, `insert` and `erase` are the map operations, `pred` and `succ` the
nearest entries on either side of a key. The `*_middle_*` lemmas say how each passes through a
list cut at an entry, which is what a search tree needs of its in-order listing.
-/

namespace Lib.SortedMap

variable {K V : Type*}

def Sorted [LT K] (l : List (K × V)) : Prop := l.Pairwise fun a b => a.1 < b.1

variable [LinearOrder K]

def lookup (k : K) : List (K × V) → Option V
  | [] => none
  | (a, b) :: l => if a = k then some b else lookup k l

/-- Put a pair at its place, replacing an entry with the same key. -/
def insert (k : K) (v : V) : List (K × V) → List (K × V)
  | [] => [(k, v)]
  | (a, b) :: l =>
    if k < a then (k, v) :: (a, b) :: l
    else if k = a then (k, v) :: l
    else (a, b) :: insert k v l

def erase (k : K) (l : List (K × V)) : List (K × V) := l.filter fun e => e.1 ≠ k

/-! ## Sortedness of a list cut at an entry -/

theorem sorted_append {l r : List (K × V)} :
    Sorted (l ++ r) ↔ Sorted l ∧ Sorted r ∧ ∀ a ∈ l, ∀ b ∈ r, a.1 < b.1 :=
  List.pairwise_append

theorem sorted_cons {e : K × V} {l : List (K × V)} :
    Sorted (e :: l) ↔ (∀ b ∈ l, e.1 < b.1) ∧ Sorted l := List.pairwise_cons

/-- The four facts a search tree's node reads off its sorted listing. -/
theorem sorted_middle {l r : List (K × V)} {e : K × V} :
    Sorted (l ++ e :: r) ↔
      Sorted l ∧ Sorted r ∧ (∀ a ∈ l, a.1 < e.1) ∧ ∀ b ∈ r, e.1 < b.1 := by
  rw [sorted_append, sorted_cons]
  constructor
  · rintro ⟨hl, ⟨he, hr⟩, hlr⟩
    exact ⟨hl, hr, fun a ha => hlr a ha e List.mem_cons_self, he⟩
  · rintro ⟨hl, hr, hle, her⟩
    refine ⟨hl, ⟨her, hr⟩, fun a ha b hb => ?_⟩
    rcases List.mem_cons.mp hb with rfl | hb
    · exact hle a ha
    · exact lt_trans (hle a ha) (her b hb)

/-! ## `lookup` -/

@[simp] theorem lookup_nil (k : K) : lookup k ([] : List (K × V)) = none := rfl

theorem lookup_cons (k a : K) (b : V) (l : List (K × V)) :
    lookup k ((a, b) :: l) = if a = k then some b else lookup k l := rfl

theorem lookup_eq_none {k : K} {l : List (K × V)} :
    lookup k l = none ↔ ∀ e ∈ l, e.1 ≠ k := by
  induction l with
  | nil => simp
  | cons e l ih =>
    obtain ⟨a, b⟩ := e
    rw [lookup_cons]
    by_cases hak : a = k
    · simp [hak]
    · simp [hak, ih]

theorem lookup_append (k : K) (l r : List (K × V)) :
    lookup k (l ++ r) = (lookup k l).or (lookup k r) := by
  induction l with
  | nil => simp
  | cons e l ih =>
    obtain ⟨a, b⟩ := e
    rw [List.cons_append, lookup_cons, lookup_cons, ih]
    split <;> rfl

theorem mem_of_lookup {k : K} {v : V} {l : List (K × V)} (h : lookup k l = some v) :
    (k, v) ∈ l := by
  induction l with
  | nil => simp at h
  | cons e l ih =>
    obtain ⟨a, b⟩ := e
    rw [lookup_cons] at h
    by_cases hak : a = k
    · rw [if_pos hak, Option.some.injEq] at h
      simp [hak, h]
    · rw [if_neg hak] at h
      exact List.mem_cons_of_mem _ (ih h)

theorem lookup_eq_some {k : K} {v : V} {l : List (K × V)} (hs : Sorted l) :
    lookup k l = some v ↔ (k, v) ∈ l := by
  refine ⟨mem_of_lookup, fun hm => ?_⟩
  induction l with
  | nil => simp at hm
  | cons e l ih =>
    obtain ⟨a, b⟩ := e
    obtain ⟨hlt, hl⟩ := sorted_cons.mp hs
    rw [lookup_cons]
    rcases List.mem_cons.mp hm with heq | hm
    · obtain ⟨rfl, rfl⟩ := Prod.mk.inj heq
      rw [if_pos rfl]
    · rw [if_neg (ne_of_lt (hlt _ hm)), ih hl hm]

/-- A sorted listing is determined by its lookups. -/
theorem ext_lookup {l l' : List (K × V)} (hs : Sorted l) (hs' : Sorted l')
    (h : ∀ k, lookup k l = lookup k l') : l = l' := by
  have hmem : ∀ e, e ∈ l ↔ e ∈ l' := by
    rintro ⟨k, v⟩
    rw [← lookup_eq_some hs, ← lookup_eq_some hs', h k]
  have hnodup : ∀ {m : List (K × V)}, Sorted m → m.Nodup :=
    fun hm => List.Pairwise.imp (fun hlt => ne_of_apply_ne Prod.fst (ne_of_lt hlt)) hm
  refine List.Perm.eq_of_pairwise (fun a b _ _ hab hba => ?_) hs hs'
    ((List.perm_ext_iff_of_nodup (hnodup hs) (hnodup hs')).mpr hmem)
  exact absurd hba (lt_asymm hab)

theorem lookup_map {W : Type*} (f : V → W) (k : K) (l : List (K × V)) :
    lookup k (l.map fun e => (e.1, f e.2)) = (lookup k l).map f := by
  induction l with
  | nil => rfl
  | cons e l ih =>
    obtain ⟨a, b⟩ := e
    rw [List.map_cons, lookup_cons, lookup_cons, ih]
    split <;> rfl

theorem sorted_map {W : Type*} (f : V → W) {l : List (K × V)} :
    Sorted (l.map fun e => (e.1, f e.2)) ↔ Sorted l := List.pairwise_map

theorem mem_keys_iff {k : K} {l : List (K × V)} :
    k ∈ l.map Prod.fst ↔ lookup k l ≠ none := by
  rw [ne_eq, lookup_eq_none, List.mem_map]
  push Not
  exact ⟨fun ⟨e, he, hk⟩ => ⟨e, he, hk⟩, fun ⟨e, he, hk⟩ => ⟨e, he, hk⟩⟩

theorem lookup_middle_lt {k : K} {l r : List (K × V)} {e : K × V}
    (hs : Sorted (l ++ e :: r)) (hk : k < e.1) : lookup k (l ++ e :: r) = lookup k l := by
  obtain ⟨_, _, _, her⟩ := sorted_middle.mp hs
  have hnone : lookup k (e :: r) = none := by
    rw [lookup_eq_none]
    intro b hb
    rcases List.mem_cons.mp hb with rfl | hb
    · exact (ne_of_lt hk).symm
    · exact (ne_of_lt (lt_trans hk (her b hb))).symm
  rw [lookup_append, hnone, Option.or_none]

theorem lookup_middle_gt {k : K} {l r : List (K × V)} {e : K × V}
    (hs : Sorted (l ++ e :: r)) (hk : e.1 < k) : lookup k (l ++ e :: r) = lookup k r := by
  obtain ⟨_, _, hle, _⟩ := sorted_middle.mp hs
  obtain ⟨a, b⟩ := e
  have hnone : lookup k l = none :=
    lookup_eq_none.mpr fun x hx => ne_of_lt (lt_trans (hle x hx) hk)
  rw [lookup_append, hnone, Option.none_or, lookup_cons, if_neg (ne_of_lt hk)]

theorem lookup_middle_eq {l r : List (K × V)} {e : K × V} (hs : Sorted (l ++ e :: r)) :
    lookup e.1 (l ++ e :: r) = some e.2 :=
  (lookup_eq_some hs).mpr (List.mem_append_right _ List.mem_cons_self)

/-! ## `insert` -/

theorem insert_middle_lt {k : K} {v : V} {l r : List (K × V)} {e : K × V} (hk : k < e.1) :
    insert k v (l ++ e :: r) = insert k v l ++ e :: r := by
  induction l with
  | nil => obtain ⟨a, b⟩ := e; simp only [List.nil_append, insert, if_pos hk, List.cons_append]
  | cons x l ih =>
    obtain ⟨c, d⟩ := x
    simp only [List.cons_append, insert]
    split
    · rfl
    · split
      · rfl
      · rw [ih, List.cons_append]

theorem insert_middle_ge {k : K} {v : V} {l r : List (K × V)} (hl : ∀ x ∈ l, x.1 < k) :
    insert k v (l ++ r) = l ++ insert k v r := by
  induction l with
  | nil => rfl
  | cons x l ih =>
    obtain ⟨c, d⟩ := x
    have hc : c < k := hl (c, d) List.mem_cons_self
    simp only [List.cons_append, insert, if_neg (not_lt_of_gt hc), if_neg (ne_of_gt hc)]
    rw [ih fun y hy => hl y (List.mem_cons_of_mem _ hy)]

theorem insert_middle_gt {k : K} {v : V} {l r : List (K × V)} {e : K × V}
    (hs : Sorted (l ++ e :: r)) (hk : e.1 < k) :
    insert k v (l ++ e :: r) = l ++ e :: insert k v r := by
  obtain ⟨_, _, hle, _⟩ := sorted_middle.mp hs
  have hbelow : ∀ x ∈ l ++ [e], x.1 < k := by
    intro x hx
    rcases List.mem_append.mp hx with hx | hx
    · exact lt_trans (hle x hx) hk
    · rwa [List.mem_singleton.mp hx]
  have hassoc : ∀ m : List (K × V), l ++ e :: m = (l ++ [e]) ++ m := by simp
  rw [hassoc r, hassoc (insert k v r), insert_middle_ge hbelow]

theorem insert_middle_eq {k : K} {v : V} {l r : List (K × V)} {e : K × V}
    (hs : Sorted (l ++ e :: r)) (hk : e.1 = k) :
    insert k v (l ++ e :: r) = l ++ (k, v) :: r := by
  obtain ⟨_, _, hle, _⟩ := sorted_middle.mp hs
  obtain ⟨a, b⟩ := e
  obtain rfl : a = k := hk
  rw [insert_middle_ge hle]
  simp only [insert, if_neg (lt_irrefl a), if_pos]

theorem mem_insert {k : K} {v : V} {l : List (K × V)} {e : K × V}
    (h : e ∈ insert k v l) : e = (k, v) ∨ e ∈ l := by
  induction l with
  | nil => simpa [insert] using h
  | cons x l ih =>
    simp only [insert] at h
    split at h
    · simpa using h
    · split at h
      · rcases List.mem_cons.mp h with h | h
        · exact Or.inl h
        · exact Or.inr (List.mem_cons_of_mem _ h)
      · rcases List.mem_cons.mp h with h | h
        · exact Or.inr (h ▸ List.mem_cons_self)
        · exact (ih h).imp_right (List.mem_cons_of_mem _)

theorem sorted_insert {k : K} {v : V} {l : List (K × V)} (hs : Sorted l) :
    Sorted (insert k v l) := by
  induction l with
  | nil => simp [insert, Sorted]
  | cons x l ih =>
    obtain ⟨a, b⟩ := x
    obtain ⟨hlt, hl⟩ := sorted_cons.mp hs
    simp only [insert]
    split
    · rename_i hka
      refine sorted_cons.mpr ⟨fun y hy => ?_, hs⟩
      rcases List.mem_cons.mp hy with rfl | hy
      · exact hka
      · exact lt_trans hka (hlt y hy)
    · split
      · rename_i hka
        exact sorted_cons.mpr ⟨fun y hy => hka ▸ hlt y hy, hl⟩
      · rename_i hka hne
        refine sorted_cons.mpr ⟨fun y hy => ?_, ih hl⟩
        rcases mem_insert hy with rfl | hy
        · exact lt_of_le_of_ne (not_lt.mp hka) (Ne.symm hne)
        · exact hlt y hy

theorem lookup_insert {k : K} {v : V} {l : List (K × V)} (hs : Sorted l) (k' : K) :
    lookup k' (insert k v l) = if k' = k then some v else lookup k' l := by
  induction l with
  | nil => simp [insert, lookup_cons, eq_comm]
  | cons x l ih =>
    obtain ⟨a, b⟩ := x
    obtain ⟨_, hl⟩ := sorted_cons.mp hs
    simp only [insert]
    split
    · rw [lookup_cons]
      simp only [eq_comm]
    · split
      · rename_i hka
        rw [lookup_cons, lookup_cons]
        by_cases hk : k = k'
        · simp [hk]
        · rw [if_neg hk, if_neg (Ne.symm hk), if_neg (hka ▸ hk)]
      · rename_i hne
        rw [lookup_cons, lookup_cons, ih hl]
        by_cases hk : k' = k
        · subst hk; simp [Ne.symm hne]
        · simp [hk]

/-! ## `erase` -/

theorem erase_append (k : K) (l r : List (K × V)) : erase k (l ++ r) = erase k l ++ erase k r :=
  List.filter_append ..

theorem erase_of_absent {k : K} {l : List (K × V)} (h : ∀ e ∈ l, e.1 ≠ k) : erase k l = l :=
  List.filter_eq_self.mpr fun e he => by simpa using h e he

theorem erase_middle_lt {k : K} {l r : List (K × V)} {e : K × V}
    (hs : Sorted (l ++ e :: r)) (hk : k < e.1) :
    erase k (l ++ e :: r) = erase k l ++ e :: r := by
  obtain ⟨_, _, _, her⟩ := sorted_middle.mp hs
  rw [erase_append, erase_of_absent (l := e :: r)]
  intro b hb
  rcases List.mem_cons.mp hb with rfl | hb
  · exact ne_of_gt hk
  · exact ne_of_gt (lt_trans hk (her b hb))

theorem erase_middle_gt {k : K} {l r : List (K × V)} {e : K × V}
    (hs : Sorted (l ++ e :: r)) (hk : e.1 < k) :
    erase k (l ++ e :: r) = l ++ e :: erase k r := by
  obtain ⟨_, _, hle, _⟩ := sorted_middle.mp hs
  rw [erase_append, erase_of_absent fun x hx => ne_of_lt (lt_trans (hle x hx) hk)]
  simp [erase, ne_of_lt hk]

theorem erase_middle_eq {l r : List (K × V)} {e : K × V} (hs : Sorted (l ++ e :: r)) :
    erase e.1 (l ++ e :: r) = l ++ r := by
  obtain ⟨_, _, hle, her⟩ := sorted_middle.mp hs
  rw [erase_append, erase_of_absent fun x hx => ne_of_lt (hle x hx)]
  have hr : erase e.1 r = r := erase_of_absent fun x hx => ne_of_gt (her x hx)
  have hcons : erase e.1 (e :: r) = erase e.1 r := by simp [erase]
  rw [hcons, hr]

theorem sorted_erase {k : K} {l : List (K × V)} (hs : Sorted l) : Sorted (erase k l) :=
  List.Pairwise.filter _ hs

theorem lookup_erase (k k' : K) (l : List (K × V)) :
    lookup k' (erase k l) = if k' = k then none else lookup k' l := by
  induction l with
  | nil => simp [erase]
  | cons x l ih =>
    obtain ⟨a, b⟩ := x
    by_cases hak : a = k
    · have hdrop : erase k ((a, b) :: l) = erase k l := by simp [erase, hak]
      rw [hdrop, ih, lookup_cons]
      by_cases hk : k' = k
      · simp [hk]
      · rw [if_neg hk, if_neg hk, if_neg (fun h => hk (h.symm.trans hak))]
    · have hkeep : erase k ((a, b) :: l) = (a, b) :: erase k l := by simp [erase, hak]
      rw [hkeep, lookup_cons, lookup_cons, ih]
      by_cases hk : k' = k
      · subst hk; simp [hak]
      · simp [hk]

/-! ## Neighbours of a key

Read off the listing by filters, so that a search that goes down a tree need only know on which side
of the node the key lies. -/

/-- The entry with the greatest key below `k`. -/
def pred (k : K) (l : List (K × V)) : Option (K × V) := (l.filter fun e => e.1 < k).getLast?

def succ (k : K) (l : List (K × V)) : Option (K × V) := (l.filter fun e => k < e.1).head?

theorem filter_lt_middle_lt {k : K} {l r : List (K × V)} {e : K × V}
    (hs : Sorted (l ++ e :: r)) (hk : k < e.1) :
    (l ++ e :: r).filter (fun x => x.1 < k) = l.filter fun x => x.1 < k := by
  obtain ⟨_, _, _, her⟩ := sorted_middle.mp hs
  have hnil : (e :: r).filter (fun x => x.1 < k) = [] := by
    rw [List.filter_eq_nil_iff]
    intro b hb
    rcases List.mem_cons.mp hb with rfl | hb
    · simpa using le_of_lt hk
    · simpa using le_of_lt (lt_trans hk (her b hb))
  rw [List.filter_append, hnil, List.append_nil]

theorem filter_lt_middle_gt {k : K} {l r : List (K × V)} {e : K × V}
    (hs : Sorted (l ++ e :: r)) (hk : e.1 < k) :
    (l ++ e :: r).filter (fun x => x.1 < k) = l ++ e :: r.filter fun x => x.1 < k := by
  obtain ⟨_, _, hle, _⟩ := sorted_middle.mp hs
  have hl : l.filter (fun x => x.1 < k) = l :=
    List.filter_eq_self.mpr fun x hx => by simpa using lt_trans (hle x hx) hk
  rw [List.filter_append, hl, List.filter_cons_of_pos (by simpa using hk)]

theorem filter_gt_middle_lt {k : K} {l r : List (K × V)} {e : K × V}
    (hs : Sorted (l ++ e :: r)) (hk : k < e.1) :
    (l ++ e :: r).filter (fun x => k < x.1) = l.filter (fun x => k < x.1) ++ e :: r := by
  obtain ⟨_, _, _, her⟩ := sorted_middle.mp hs
  have hr : r.filter (fun x => k < x.1) = r :=
    List.filter_eq_self.mpr fun x hx => by simpa using lt_trans hk (her x hx)
  rw [List.filter_append, List.filter_cons_of_pos (by simpa using hk), hr]

theorem filter_gt_middle_gt {k : K} {l r : List (K × V)} {e : K × V}
    (hs : Sorted (l ++ e :: r)) (hk : e.1 < k) :
    (l ++ e :: r).filter (fun x => k < x.1) = r.filter fun x => k < x.1 := by
  obtain ⟨_, _, hle, _⟩ := sorted_middle.mp hs
  have hnil : l.filter (fun x => k < x.1) = [] := by
    rw [List.filter_eq_nil_iff]
    intro b hb
    simpa using le_of_lt (lt_trans (hle b hb) hk)
  rw [List.filter_append, hnil, List.nil_append,
    List.filter_cons_of_neg (by simpa using le_of_lt hk)]

theorem pred_middle_lt {k : K} {l r : List (K × V)} {e : K × V}
    (hs : Sorted (l ++ e :: r)) (hk : k < e.1) : pred k (l ++ e :: r) = pred k l := by
  rw [pred, filter_lt_middle_lt hs hk, pred]

theorem pred_middle_gt {k : K} {l r : List (K × V)} {e : K × V}
    (hs : Sorted (l ++ e :: r)) (hk : e.1 < k) :
    pred k (l ++ e :: r) = (pred k r).or (some e) := by
  rw [pred, filter_lt_middle_gt hs hk, pred, List.getLast?_append, List.getLast?_cons]
  cases (r.filter fun x => x.1 < k).getLast? <;> rfl

theorem succ_middle_lt {k : K} {l r : List (K × V)} {e : K × V}
    (hs : Sorted (l ++ e :: r)) (hk : k < e.1) :
    succ k (l ++ e :: r) = (succ k l).or (some e) := by
  rw [succ, filter_gt_middle_lt hs hk, succ, List.head?_append, List.head?_cons]

theorem succ_middle_gt {k : K} {l r : List (K × V)} {e : K × V}
    (hs : Sorted (l ++ e :: r)) (hk : e.1 < k) : succ k (l ++ e :: r) = succ k r := by
  rw [succ, filter_gt_middle_gt hs hk, succ]

theorem pred_eq_none {k : K} {l : List (K × V)} :
    pred k l = none ↔ ∀ e ∈ l, ¬ e.1 < k := by
  simp [pred]

theorem succ_eq_none {k : K} {l : List (K × V)} :
    succ k l = none ↔ ∀ e ∈ l, ¬ k < e.1 := by
  simp [succ]

/-- `pred` is an entry, lies below the key, and nothing lies between. -/
theorem pred_spec {k : K} {l : List (K × V)} (hs : Sorted l) {e : K × V}
    (h : pred k l = some e) : e ∈ l ∧ e.1 < k ∧ ∀ e' ∈ l, e'.1 < k → e'.1 ≤ e.1 := by
  obtain ⟨m, hm⟩ := List.getLast?_eq_some_iff.mp h
  have he : e ∈ l.filter fun x => x.1 < k := by rw [hm]; simp
  obtain ⟨hel, hek⟩ := List.mem_filter.mp he
  refine ⟨hel, by simpa using hek, fun e' he' hlt => ?_⟩
  have hmem : e' ∈ m ++ [e] := hm ▸ List.mem_filter.mpr ⟨he', by simpa using hlt⟩
  have hsm : Sorted (m ++ [e]) := hm ▸ List.Pairwise.filter _ hs
  rcases List.mem_append.mp hmem with hx | hx
  · exact le_of_lt ((sorted_append.mp hsm).2.2 e' hx e (by simp))
  · rw [List.mem_singleton.mp hx]

theorem succ_spec {k : K} {l : List (K × V)} (hs : Sorted l) {e : K × V}
    (h : succ k l = some e) : e ∈ l ∧ k < e.1 ∧ ∀ e' ∈ l, k < e'.1 → e.1 ≤ e'.1 := by
  obtain ⟨m, hm⟩ := List.head?_eq_some_iff.mp h
  have he : e ∈ l.filter fun x => k < x.1 := by rw [hm]; simp
  obtain ⟨hel, hek⟩ := List.mem_filter.mp he
  refine ⟨hel, by simpa using hek, fun e' he' hlt => ?_⟩
  have hmem : e' ∈ e :: m := hm ▸ List.mem_filter.mpr ⟨he', by simpa using hlt⟩
  have hsm : Sorted (e :: m) := hm ▸ List.Pairwise.filter _ hs
  rcases List.mem_cons.mp hmem with rfl | hx
  · exact le_refl _
  · exact le_of_lt ((sorted_cons.mp hsm).1 e' hx)

theorem eq_nil_of_no_neighbour {k : K} {l : List (K × V)} (hk : lookup k l = none)
    (hp : pred k l = none) (hs : succ k l = none) : l = [] := by
  refine List.eq_nil_iff_forall_not_mem.mpr fun e he => ?_
  rcases lt_trichotomy e.1 k with h | h | h
  · exact pred_eq_none.mp hp e he h
  · exact lookup_eq_none.mp hk e he h
  · exact succ_eq_none.mp hs e he h

/-- Two entries of one key are one entry. -/
theorem eq_of_key_eq {l : List (K × V)} (hs : Sorted l) {a b : K × V} (ha : a ∈ l) (hb : b ∈ l)
    (h : a.1 = b.1) : a = b := by
  have hla := (lookup_eq_some hs).mpr ha
  rw [h, (lookup_eq_some hs).mpr hb, Option.some.injEq] at hla
  exact Prod.ext h hla.symm

theorem pred_eq_some_iff {k : K} {l : List (K × V)} (hs : Sorted l) {e : K × V} :
    pred k l = some e ↔ e ∈ l ∧ e.1 < k ∧ ∀ e' ∈ l, e'.1 < k → e'.1 ≤ e.1 := by
  refine ⟨pred_spec hs, ?_⟩
  rintro ⟨he, hek, hmax⟩
  cases hp : pred k l with
  | none => exact absurd hek (pred_eq_none.mp hp e he)
  | some a =>
    obtain ⟨ha, hak, hmax'⟩ := pred_spec hs hp
    rw [eq_of_key_eq hs ha he (le_antisymm (hmax a ha hak) (hmax' e he hek))]

theorem succ_eq_some_iff {k : K} {l : List (K × V)} (hs : Sorted l) {e : K × V} :
    succ k l = some e ↔ e ∈ l ∧ k < e.1 ∧ ∀ e' ∈ l, k < e'.1 → e.1 ≤ e'.1 := by
  refine ⟨succ_spec hs, ?_⟩
  rintro ⟨he, hke, hmin⟩
  cases hp : succ k l with
  | none => exact absurd hke (succ_eq_none.mp hp e he)
  | some a =>
    obtain ⟨ha, hka, hmin'⟩ := succ_spec hs hp
    rw [eq_of_key_eq hs ha he (le_antisymm (hmin' e he hke) (hmin a ha hka))]

end Lib.SortedMap
