import Basecoin.Store.Avl.InsertOrder
import Basecoin.Store.Path

/-!
# What a root hash binds

A merkle hash is taken over three pieces of 32 bytes, so it tells its children and its local hash
apart; a local hash is taken over the key's bytes and the value's bytes with nothing between them.
As long as SHA-256 does not collide, a root hash therefore determines the shape of the tree and,
place by place, the text `key ++ value` (`childHash_eq_iff`), and nothing about where the key
ends. `Resplit` is what is left open: trees of one shape and the same texts, one of them cut at
two different places. Keys none of which starts another leave nothing open
(`prefixFree_iff_not_resplit`).
-/

namespace Basecoin.Avl

open Lib Lib.SortedMap

variable {K V : Type*}

/-! ## Place by place -/

/-- Trees of one shape, related place by place. -/
def Aligned (P : AvlNode K V → AvlNode K V → Prop) : NodeRef K V → NodeRef K V → Prop
  | .nil, .nil => True
  | .node n l r, .node n' l' r' => P n n' ∧ Aligned P l l' ∧ Aligned P r r'
  | .nil, .node _ _ _ => False
  | .node _ _ _, .nil => False

theorem aligned_and {P Q : AvlNode K V → AvlNode K V → Prop} :
    ∀ {t t' : NodeRef K V}, Aligned P t t' → Aligned Q t t' →
      Aligned (fun n n' => P n n' ∧ Q n n') t t' := by
  intro t
  induction t with
  | nil => intro t' hp _; cases t' <;> exact hp
  | node n l r ihl ihr =>
    intro t' hp hq
    cases t' with
    | nil => exact hp
    | node n' l' r' => exact ⟨⟨hp.1, hq.1⟩, ihl hp.2.1 hq.2.1, ihr hp.2.2 hq.2.2⟩

theorem Aligned.imp {P Q : AvlNode K V → AvlNode K V → Prop} (h : ∀ n n', P n n' → Q n n') :
    ∀ {t t' : NodeRef K V}, Aligned P t t' → Aligned Q t t' := by
  intro t
  induction t with
  | nil => intro t' hp; cases t' <;> exact hp
  | node n l r ihl ihr =>
    intro t' hp
    cases t' with
    | nil => exact hp
    | node n' l' r' => exact ⟨h n n' hp.1, ihl hp.2.1, ihr hp.2.2⟩

theorem Aligned.length_eq {P : AvlNode K V → AvlNode K V → Prop} :
    ∀ {t t' : NodeRef K V}, Aligned P t t' → t.toList.length = t'.toList.length := by
  intro t
  induction t with
  | nil =>
    intro t' h
    cases t' with
    | nil => rfl
    | node => exact absurd h (by simp [Aligned])
  | node n l r ihl ihr =>
    intro t' h
    cases t' with
    | nil => exact absurd h (by simp [Aligned])
    | node n' l' r' =>
      rw [NodeRef.toList_node, NodeRef.toList_node, List.length_append, List.length_append,
        List.length_cons, List.length_cons, ihl h.2.1, ihr h.2.2]

/-- What a projection of the pairs says place by place, it says of the listings. -/
theorem Aligned.map_eq {P : AvlNode K V → AvlNode K V → Prop} {α : Type*} {f : K × V → α}
    (hf : ∀ n n', P n n' → f (n.key, n.value) = f (n'.key, n'.value)) :
    ∀ {t t' : NodeRef K V}, Aligned P t t' → t.toList.map f = t'.toList.map f := by
  intro t
  induction t with
  | nil =>
    intro t' h
    cases t' with
    | nil => rfl
    | node => exact absurd h (by simp [Aligned])
  | node n l r ihl ihr =>
    intro t' h
    cases t' with
    | nil => exact absurd h (by simp [Aligned])
    | node n' l' r' =>
      rw [NodeRef.toList_node, NodeRef.toList_node, List.map_append, List.map_append,
        List.map_cons, List.map_cons, ihl h.2.1, ihr h.2.2, hf n n' h.1]

/-- And back, for trees of one shape. -/
theorem Aligned.of_map_eq {P : AvlNode K V → AvlNode K V → Prop} {α : Type*} {f : K × V → α} :
    ∀ {t t' : NodeRef K V}, Aligned P t t' → t.toList.map f = t'.toList.map f →
      Aligned (fun n n' => f (n.key, n.value) = f (n'.key, n'.value)) t t' := by
  intro t
  induction t with
  | nil => intro t' h _; cases t' <;> exact h
  | node n l r ihl ihr =>
    intro t' h heq
    cases t' with
    | nil => exact h
    | node n' l' r' =>
      simp only [NodeRef.toList_node, List.map_append, List.map_cons] at heq
      obtain ⟨hl, hcons⟩ := List.append_inj heq
        (by rw [List.length_map, List.length_map, h.2.1.length_eq])
      obtain ⟨hn, hr⟩ := List.cons.inj hcons
      exact ⟨hn, ihl h.2.1 hl, ihr h.2.2 hr⟩

section Text

variable [AsBytes K] [Borrow V]

/-- The nodes are hashed from one text. -/
def SameText (n n' : AvlNode K V) : Prop :=
  asBytes n.key ++ borrow n.value = asBytes n'.key ++ borrow n'.value

/-- The nodes have keys of as many bytes. -/
def SameSplit (n n' : AvlNode K V) : Prop := (asBytes n.key).length = (asBytes n'.key).length

/-- One shape, the same texts, but some text is cut at two places. -/
def Resplit (t t' : NodeRef K V) : Prop := Aligned SameText t t' ∧ ¬ Aligned SameSplit t t'

theorem sameText_sameSplit {n n' : AvlNode K V} :
    SameText n n' ∧ SameSplit n n' ↔
      asBytes n.key = asBytes n'.key ∧ borrow n.value = borrow n'.value := by
  constructor
  · rintro ⟨htext, hsplit⟩
    exact List.append_inj htext hsplit
  · rintro ⟨hkey, hvalue⟩
    exact ⟨congrArg₂ _ hkey hvalue, congrArg List.length hkey⟩

end Text

/-! ## The texts are what is bound -/

section Bind

variable [Sha256] [AsBytes K] [Borrow V]

/-- Equal merkle hashes: one shape, and the same texts. -/
theorem childHash_eq_iff {S : Set Bytes} (hinj : Set.InjOn sha256 S)
    (hzero : ∀ x ∈ S, (sha256 x).bytes ≠ emptyChild) : ∀ {t t' : NodeRef K V}, Cached t →
    Cached t' → t.hashed ⊆ S → t'.hashed ⊆ S →
    (t.childHash = t'.childHash ↔ Aligned SameText t t') := by
  have hnonzero : ∀ {n : AvlNode K V} {l r : NodeRef K V}, Cached (.node n l r) →
      (NodeRef.node n l r).hashed ⊆ S → n.merkleHash.bytes ≠ emptyChild := by
    intro n l r hc hS
    rw [hc.1.merkleHash]
    exact hzero _ (hS (.inl (.inr rfl)))
  intro t
  induction t with
  | nil =>
    intro t' _ hc' _ hS'
    cases t' with
    | nil => exact iff_of_true rfl trivial
    | node n' l' r' => exact iff_of_false (hnonzero hc' hS').symm (fun h => h)
  | node n l r ihl ihr =>
    intro t' hc hc' hS hS'
    cases t' with
    | nil => exact iff_of_false (hnonzero hc hS) (fun h => h)
    | node n' l' r' =>
      have hleft := ihl hc.2.1 hc'.2.1 (fun x hx => hS (.inr (.inl hx)))
        (fun x hx => hS' (.inr (.inl hx)))
      have hright := ihr hc.2.2 hc'.2.2 (fun x hx => hS (.inr (.inr hx)))
        (fun x hx => hS' (.inr (.inr hx)))
      constructor
      · intro h
        obtain ⟨hl, htext, hr⟩ := pieces_of_merkleHash hinj hc hc' hS hS' (Hash.ext h)
        exact ⟨htext, hleft.mp hl, hright.mp hr⟩
      · rintro ⟨htext, hl, hr⟩
        have hlocal : localHash n.key n.value = localHash n'.key n'.value := by
          rw [localHash, localHash, List.append_assoc, List.append_assoc, htext]
        rw [NodeRef.childHash_node, NodeRef.childHash_node, hc.1.merkleHash, hc'.1.merkleHash,
          hleft.mpr hl, hright.mpr hr, hc.1.hash, hc'.1.hash, hlocal]

theorem rootHash_eq_iff {S : Set Bytes} (hinj : Set.InjOn sha256 S)
    (hzero : ∀ x ∈ S, (sha256 x).bytes ≠ emptyChild) {t t' : AvlTree K V} (hc : Cached t.root)
    (hc' : Cached t'.root) (hS : t.root.hashed ⊆ S) (hS' : t'.root.hashed ⊆ S) :
    t.rootHash = t'.rootHash ↔ Aligned SameText t.root t'.root := by
  obtain ⟨root⟩ := t
  obtain ⟨root'⟩ := t'
  rw [← childHash_eq_iff hinj hzero hc hc' hS hS']
  cases root with
  | nil =>
    cases root' with
    | nil => exact iff_of_true rfl rfl
    | node n' l' r' =>
      refine iff_of_false (by simp [AvlTree.rootHash]) (fun h => ?_)
      rw [NodeRef.childHash_node, hc'.1.merkleHash] at h
      exact hzero _ (hS' (.inl (.inr rfl))) h.symm
  | node n l r =>
    cases root' with
    | nil =>
      refine iff_of_false (by simp [AvlTree.rootHash]) (fun h => ?_)
      rw [NodeRef.childHash_node, hc.1.merkleHash] at h
      exact hzero _ (hS (.inl (.inr rfl))) h
    | node n' l' r' =>
      rw [AvlTree.rootHash, AvlTree.rootHash, Option.some.injEq, NodeRef.childHash_node,
        NodeRef.childHash_node]
      exact ⟨congrArg Hash.bytes, Hash.ext⟩

omit [Sha256] in
theorem leaf_mem_hashed {k : K} {v : V} : ∀ {t : NodeRef K V}, (k, v) ∈ t.toList →
    leafPrefix ++ asBytes k ++ borrow v ∈ t.hashed := by
  intro t
  induction t with
  | nil => intro he; exact absurd he List.not_mem_nil
  | node n l r ihl ihr =>
    intro he
    rcases List.mem_append.mp he with he | he
    · exact .inr (.inl (ihl he))
    · rcases List.mem_cons.mp he with heq | he
      · obtain ⟨rfl, rfl⟩ := Prod.mk.inj heq
        exact .inl (.inl rfl)
      · exact .inr (.inr (ihr he))

/-- The same for a local hash: it binds the text of its pair. -/
theorem localHash_eq_iff {S : Set Bytes} (hinj : Set.InjOn sha256 S) {k k' : K} {v v' : V}
    (h : leafPrefix ++ asBytes k ++ borrow v ∈ S)
    (h' : leafPrefix ++ asBytes k' ++ borrow v' ∈ S) :
    localHash k v = localHash k' v' ↔ asBytes k ++ borrow v = asBytes k' ++ borrow v' := by
  rw [localHash, localHash, hinj.eq_iff h h', List.append_assoc, List.append_assoc,
    List.append_cancel_left_eq]

end Bind

/-! ## What the texts leave open -/

section Contents

variable [LinearOrder K] [Sha256] [AsBytes K] [Borrow V]

/-- The contents a verifier sees: the value's bytes under each key. -/
def AvlTree.SameContents (t t' : AvlTree K V) : Prop :=
  ∀ k, (t.get k).map borrow = (t'.get k).map borrow

omit [AsBytes K] [Sha256] in
/-- Trees of one shape have the same contents when they agree place by place. -/
theorem AvlTree.sameContents_iff {P : AvlNode K V → AvlNode K V → Prop} {t t' : AvlTree K V}
    (hs : Sorted t.root.toList) (hs' : Sorted t'.root.toList) (h : Aligned P t.root t'.root) :
    t.SameContents t' ↔
      Aligned (fun n n' => n.key = n'.key ∧ borrow n.value = borrow n'.value) t.root t'.root := by
  have hget : ∀ {u : AvlTree K V}, Sorted u.root.toList → ∀ k, (u.get k).map borrow =
      lookup k (u.root.toList.map fun e => (e.1, borrow e.2)) := by
    intro u hu k
    rw [lookup_map, ← getRec_eq_lookup k u.root hu]
    rfl
  constructor
  · intro hsame
    have hlist := ext_lookup ((sorted_map borrow).mpr hs) ((sorted_map borrow).mpr hs') fun k => by
      rw [← hget hs, ← hget hs', hsame k]
    refine (h.of_map_eq hlist).imp fun n n' hn => ?_
    exact Prod.mk.inj hn
  · intro halign k
    rw [hget hs, hget hs', halign.map_eq fun n n' hn => Prod.ext hn.1 hn.2]

omit [Sha256] in
/-- Under one root hash, the contents agree unless some text is cut at two places. -/
theorem AvlTree.sameContents_iff_not_resplit (hkey : Function.Injective (asBytes : K → Bytes))
    {t t' : AvlTree K V} (hs : Sorted t.root.toList) (hs' : Sorted t'.root.toList)
    (h : Aligned SameText t.root t'.root) : t.SameContents t' ↔ ¬ Resplit t.root t'.root := by
  rw [AvlTree.sameContents_iff hs hs' h, Resplit, and_iff_right h, not_not]
  constructor
  · exact Aligned.imp fun n n' hn => congrArg (fun k => (asBytes k).length) hn.1
  · intro hsplit
    refine (aligned_and h hsplit).imp fun n n' hn => ?_
    obtain ⟨hk, hv⟩ := sameText_sameSplit.mp hn
    exact ⟨hkey hk, hv⟩

/-- **The root hash binds the contents up to where keys end.** For any two trees that sequences
of calls build from the empty one, where SHA-256 neither collides nor gives zeroes on what the two
hash: an equal root hash means equal contents if and only if the trees are not of one shape with
the same texts and some text cut at two places; and an equal local hash means the same pair if and
only if the two pairs are not one text cut at two places. -/
theorem rootHash_binds_iff (hkey : Function.Injective (asBytes : K → Bytes))
    {ops ops' : List (TreeOp K V)} {os os' : List (Option V)} {t t' : AvlTree K V}
    (hrun : runSteps AvlTree.exec AvlTree.new ops = some (os, t))
    (hrun' : runSteps AvlTree.exec AvlTree.new ops' = some (os', t'))
    (hinj : Set.InjOn sha256 (t.root.hashed ∪ t'.root.hashed))
    (hzero : ∀ x ∈ t.root.hashed ∪ t'.root.hashed, (sha256 x).bytes ≠ emptyChild) :
    ((t.rootHash = t'.rootHash → t.SameContents t') ↔ ¬ Resplit t.root t'.root) ∧
      ∀ k v k' v', t.get k = some v → t'.get k' = some v' →
        ((localHash k v = localHash k' v' → k = k' ∧ borrow v = borrow v') ↔
          ¬ (asBytes k ++ borrow v = asBytes k' ++ borrow v' ∧
            (asBytes k).length ≠ (asBytes k').length)) := by
  have hv := AvlTree.valid_of_run hrun
  have hv' := AvlTree.valid_of_run hrun'
  constructor
  · rw [rootHash_eq_iff hinj hzero hv.cached hv'.cached Set.subset_union_left
      Set.subset_union_right]
    by_cases htext : Aligned SameText t.root t'.root
    · rw [AvlTree.sameContents_iff_not_resplit hkey hv.ordered hv'.ordered htext]
      exact forall_prop_of_true htext
    · exact iff_of_true (fun h => absurd h htext) (fun h => htext h.1)
  · intro k v k' v' hk hk'
    have hmem : (k, v) ∈ t.root.toList := mem_of_lookup (hv.get_eq k ▸ hk)
    have hmem' : (k', v') ∈ t'.root.toList := mem_of_lookup (hv'.get_eq k' ▸ hk')
    rw [localHash_eq_iff hinj (.inl (leaf_mem_hashed hmem))
      (.inr (leaf_mem_hashed hmem'))]
    constructor
    · rintro h ⟨htext, hlen⟩
      exact hlen (congrArg (fun k => (asBytes k).length) (h htext).1)
    · intro h htext
      have hlen : (asBytes k).length = (asBytes k').length := by
        by_contra hlen
        exact h ⟨htext, hlen⟩
      obtain ⟨hbytes, hvalue⟩ := List.append_inj htext hlen
      exact ⟨hkey hbytes, hvalue⟩

end Contents

/-! ## Keys none of which starts another -/

section PrefixFree

/-- No key's bytes start another key's. -/
def PrefixFree (K : Type*) [AsBytes K] : Prop :=
  ∀ k k' : K, asBytes k <+: asBytes k' → asBytes k = asBytes k'

variable [AsBytes K]

/-- Two cuts of one text are a key and a longer one that it starts. -/
theorem PrefixFree.length_eq (h : PrefixFree K) {k k' : K} {v v' : Bytes}
    (htext : asBytes k ++ v = asBytes k' ++ v') : (asBytes k).length = (asBytes k').length := by
  rcases List.append_eq_append_iff.mp htext with ⟨x, hk, -⟩ | ⟨x, hk, -⟩
  · exact congrArg List.length (h k k' ⟨x, hk.symm⟩)
  · exact congrArg List.length (h k' k ⟨x, hk.symm⟩).symm

/-- Prefix-free keys leave nothing open, and only they do. -/
theorem prefixFree_iff_not_resplit [LinearOrder K] [Sha256] :
    PrefixFree K ↔ ∀ (ops ops' : List (TreeOp K Bytes)) os os' t t',
      runSteps AvlTree.exec AvlTree.new ops = some (os, t) →
      runSteps AvlTree.exec AvlTree.new ops' = some (os', t') → ¬ Resplit t.root t'.root := by
  constructor
  · rintro hfree ops ops' os os' t t' - - ⟨htext, hsplit⟩
    exact hsplit (htext.imp fun n n' hn => hfree.length_eq hn)
  · rintro h k k' ⟨x, hx⟩
    by_contra hne
    -- the longer key alone, and the shorter one with the rest as its value
    refine h [.insert k x] [.insert k' []] _ _ _ _ rfl rfl ⟨⟨?_, trivial, trivial⟩, ?_⟩
    · exact hx.trans (List.append_nil _).symm
    · rintro ⟨hlen, -, -⟩
      exact hne (List.IsPrefix.eq_of_length ⟨x, hx⟩ hlen)

end PrefixFree

/-! ## One text, cut twice -/

section Twice

local instance twiceAsBytes : AsBytes String := ⟨stringBytes⟩

/-- A digest that tells strings of 67 bytes from all others. -/
local instance twiceSha256 : Sha256 :=
  ⟨fun x => ⟨List.replicate 32 (if x.length = 67 then 1 else 2), List.length_replicate⟩⟩

def aBc : AvlTree String Bytes := ⟨asNodeRef "a" [98, 99]⟩

def abC : AvlTree String Bytes := ⟨asNodeRef "ab" [99]⟩

theorem run_aBc :
    runSteps AvlTree.exec AvlTree.new [.insert "a" [98, 99]] = some ([none], aBc) := rfl

theorem run_abC :
    runSteps AvlTree.exec AvlTree.new [.insert "ab" [99]] = some ([none], abC) := rfl

theorem hashed_cuts : aBc.root.hashed ∪ abC.root.hashed =
    {leafPrefix ++ [97, 98, 99], emptyChild ++ List.replicate 32 1 ++ emptyChild} := by
  have hleft : aBc.root.hashed =
      {leafPrefix ++ [97, 98, 99], emptyChild ++ List.replicate 32 1 ++ emptyChild} ∪ (∅ ∪ ∅) :=
    rfl
  have hright : abC.root.hashed =
      {leafPrefix ++ [97, 98, 99], emptyChild ++ List.replicate 32 1 ++ emptyChild} ∪ (∅ ∪ ∅) :=
    rfl
  rw [hleft, hright, Set.union_self, Set.union_self, Set.union_empty]

theorem injOn_cuts : Set.InjOn sha256 (aBc.root.hashed ∪ abC.root.hashed) := by
  rw [hashed_cuts]
  rintro x (rfl | rfl) y (rfl | rfl) h
  · rfl
  · exact absurd h (by decide)
  · exact absurd h (by decide)
  · rfl

theorem nonzero_cuts : ∀ x ∈ aBc.root.hashed ∪ abC.root.hashed, (sha256 x).bytes ≠ emptyChild := by
  rw [hashed_cuts]
  rintro x (rfl | rfl) <;> decide

/-- The two trees are covered: their root hash does not bind. -/
theorem rootHash_binds_iff_cuts :
    (aBc.rootHash = abC.rootHash → aBc.SameContents abC) ↔ ¬ Resplit aBc.root abC.root :=
  (rootHash_binds_iff stringBytes_injective run_aBc run_abC injOn_cuts nonzero_cuts).1

/-- The pairs `"a" ↦ "bc"` and `"ab" ↦ "c"` have one leaf hash, and the trees that hold them alone
one root hash. -/
theorem cuts_not_bound :
    Function.Injective (asBytes : String → Bytes) ∧
      runSteps AvlTree.exec AvlTree.new [.insert "a" [98, 99]] = some ([none], aBc) ∧
      runSteps AvlTree.exec AvlTree.new [.insert "ab" [99]] = some ([none], abC) ∧
      Set.InjOn sha256 (aBc.root.hashed ∪ abC.root.hashed) ∧
      (∀ x ∈ aBc.root.hashed ∪ abC.root.hashed, (sha256 x).bytes ≠ emptyChild) ∧
      aBc.rootHash = abC.rootHash ∧ aBc.get "a" ≠ abC.get "a" := by
  refine ⟨stringBytes_injective, run_aBc, run_abC, injOn_cuts, nonzero_cuts, rfl, ?_⟩
  decide

end Twice

end Basecoin.Avl
