import Basecoin.Store.Avl.Adjacency
import Basecoin.Store.Avl.Binding
import Basecoin.Store.Avl.Ics23

/-!
# What a verifier accepts

The proofs are checked elsewhere, by whoever holds the root hash and `get_proof_spec`, with the
verifier of `ics23`. Here the question is asked from that side. Take any existence proof at all,
built by whatever means, that is accepted for the root hash of a tree. Then its path is the path of
a pair the tree holds and its leaf hashes that pair's string; it is what `get_proof` answers, up to
where in that string the key begins and ends (`verifies_iff_getProof`).

The argument walks down from the root with the path's last op (`pathTo_of_foldPath`). Without a
collision the op is cut from the string the root's node hashes, and as its suffix is so many whole
children, what was folded so far is the left child's hash, the right child's or the local hash. A
local hash ends the walk: an op hashing to it would have a digest begin among a leaf's 64 zeroes.
-/

namespace Basecoin.Avl

open Lib Lib.SortedMap Ics23

/-! ## The checks under this spec -/

/-- The inner spec of `get_proof_spec`. -/
def innerSpec : InnerSpec := getProofSpec.innerSpec.get rfl

/-- The leaf begins as the spec's does. -/
def SpecLeaf (p : ExistenceProof) : Prop := ∃ leaf ∈ p.leaf, EnsureLeaf leaf getLeafOp

theorem checkExistenceSpec_getProofSpec {p : ExistenceProof} :
    CheckExistenceSpec p getProofSpec ↔
      SpecLeaf p ∧ ∀ op ∈ p.path, EnsureInner op getLeafOp innerSpec := by
  constructor
  · rintro ⟨⟨leaf, hleaf, _, ⟨⟩, hensure⟩, hinner, -, -⟩
    refine ⟨⟨leaf, hleaf, hensure⟩, fun op hop => ?_⟩
    obtain ⟨_, ⟨⟩, _, ⟨⟩, hop'⟩ := hinner op hop
    exact hop'
  · rintro ⟨⟨leaf, hleaf, hensure⟩, hinner⟩
    exact ⟨⟨leaf, hleaf, _, rfl, hensure⟩, fun op hop => ⟨_, rfl, _, rfl, hinner op hop⟩,
      .inl rfl, .inl rfl⟩

/-- What a leaf that begins as the spec's does hashes after the 64 zeroes. -/
theorem SpecLeaf.exists_text {p : ExistenceProof} (h : SpecLeaf p) :
    ∃ text, p.leafString = leafPrefix ++ text := by
  obtain ⟨leaf, hleaf, hensure⟩ := h
  obtain ⟨more, hmore⟩ := hensure.prefix_le
  refine ⟨more ++ p.key ++ p.value, ?_⟩
  rw [ExistenceProof.leafString, Option.mem_def.mp hleaf, Option.map_some, Option.getD_some,
    ← hmore]
  simp only [List.append_assoc]
  rfl

/-! ## The strings a verifier hashes -/

section Hashed

variable [Sha256]

/-- Those hashed along a path, from the hash it starts with. -/
def pathHashed (acc : Hash) : List InnerOp → Set Bytes
  | [] => ∅
  | op :: path =>
    insert (op.prefixBytes ++ acc.bytes ++ op.suffixBytes)
      (pathHashed (sha256 (op.prefixBytes ++ acc.bytes ++ op.suffixBytes)) path)

/-- Those hashed for a whole proof. -/
def proofHashed (p : ExistenceProof) : Set Bytes :=
  insert p.leafString (pathHashed (sha256 p.leafString) p.path)

/-- What is asked of SHA-256 on some strings: no collision, no digest of zeroes, and no digest that
stands in a leaf's string where it begins among the zeroes there. -/
structure HashesApart (S : Set Bytes) : Prop where
  inj : Set.InjOn sha256 S
  nonzero : ∀ x ∈ S, (sha256 x).bytes ≠ emptyChild
  clear : ∀ x ∈ S, ∀ text, leafPrefix ++ text ∈ S → ∀ n < leafPrefix.length,
    ¬ (sha256 x).bytes <+: (leafPrefix ++ text).drop n

theorem HashesApart.mono {S T : Set Bytes} (h : HashesApart T) (hST : S ⊆ T) : HashesApart S where
  inj := h.inj.mono hST
  nonzero x hx := h.nonzero x (hST hx)
  clear x hx text htext := h.clear x (hST hx) text (hST htext)

/-- Where no digest begins with a zero, only collisions are to be feared. -/
theorem HashesApart.of_head {S : Set Bytes} (hinj : Set.InjOn sha256 S)
    (hhead : ∀ x ∈ S, (sha256 x).bytes.head? ≠ some 0) : HashesApart S where
  inj := hinj
  nonzero x hx hzero := hhead x hx (by rw [hzero]; rfl)
  clear x hx text _ n hn hpre := by
    have hne : (sha256 x).bytes ≠ [] :=
      List.ne_nil_of_length_pos (by rw [Hash.length_eq]; decide)
    obtain ⟨b, rest, hbytes⟩ := List.exists_cons_of_ne_nil hne
    have hzero : (leafPrefix ++ text)[n]? = some 0 := by
      rw [List.getElem?_append_left hn]
      exact List.getElem?_replicate_of_lt (by simpa [leafPrefix] using hn)
    obtain ⟨more, hmore⟩ := hpre
    have hhead' : ((leafPrefix ++ text).drop n).head? = some b := by
      rw [← hmore, hbytes]
      rfl
    rw [List.head?_drop, hzero] at hhead'
    exact hhead x hx (by rw [hbytes]; exact hhead'.symm)

theorem pathHashed_concat (op : InnerOp) : ∀ (path : List InnerOp) (acc : Hash),
    pathHashed acc (path ++ [op]) =
      insert (op.prefixBytes ++ (foldPath acc path).bytes ++ op.suffixBytes)
        (pathHashed acc path) := by
  intro path
  induction path with
  | nil => intro acc; rfl
  | cons first path ih =>
    intro acc
    rw [List.cons_append, pathHashed, ih, pathHashed, Set.insert_comm]
    rfl

/-- What is folded so far is the digest of a string hashed so far. -/
theorem exists_preimage (leaf : Bytes) (path : List InnerOp) :
    ∃ x ∈ insert leaf (pathHashed (sha256 leaf) path), foldPath (sha256 leaf) path = sha256 x := by
  rcases List.eq_nil_or_concat path with rfl | ⟨path, op, rfl⟩
  · exact ⟨leaf, .inl rfl, rfl⟩
  · rw [List.concat_eq_append]
    refine ⟨_, .inr ?_, foldPath_append_singleton _ path op⟩
    rw [pathHashed_concat]
    exact .inl rfl

end Hashed

/-! ## The string of a node, cut by an op -/

section Cut

variable {K V : Type*}

/-- Three pieces of 32 bytes, cut around one of their length with so many whole pieces after it:
the op is one of the node's three, and what it surrounds is the piece it leaves out. -/
theorem cut_cases {op : InnerOp} (hop : EnsureInner op getLeafOp innerSpec) {acc : Bytes}
    (hacc : acc.length = 32) {n : AvlNode K V} {l r : NodeRef K V}
    (h : op.prefixBytes ++ acc ++ op.suffixBytes = l.childHash ++ n.hash.bytes ++ r.childHash) :
    op = fromLeft n r ∧ acc = l.childHash ∨
      op = fromSelf l r ∧ acc = n.hash.bytes ∨
      op = fromRight n l ∧ acc = r.childHash := by
  obtain ⟨hash, pre, suf⟩ := op
  obtain rfl : hash = .sha256 := hop.hash_eq
  have hwhole : suf.length % 32 = 0 := hop.whole
  simp only at h
  have hlength : pre.length + (32 + suf.length) = 96 := by
    have hlengths := congrArg List.length h
    simpa [hacc, n.hash.length_eq] using hlengths
  have hcases : pre.length = 0 ∨ pre.length = 32 ∨ pre.length = 64 ∧ suf.length = 0 := by omega
  rcases hcases with hpre | hpre | ⟨hpre, hsuf⟩
  · -- nothing before: the left child's hash was folded
    obtain rfl := List.eq_nil_of_length_eq_zero hpre
    rw [List.nil_append, List.append_assoc] at h
    obtain ⟨hl, hr⟩ := List.append_inj h (by simp [hacc])
    exact .inl ⟨by rw [fromLeft, hr], hl⟩
  · obtain ⟨hleft, hr⟩ := List.append_inj h (by simp [hacc, hpre, n.hash.length_eq])
    obtain ⟨hl, hmid⟩ := List.append_inj hleft (by simp [hpre])
    exact .inr (.inl ⟨by rw [fromSelf, hl, hr], hmid⟩)
  · obtain rfl := List.eq_nil_of_length_eq_zero hsuf
    rw [List.append_nil] at h
    obtain ⟨hl, hr⟩ := List.append_inj h (by simp [hpre, n.hash.length_eq])
    exact .inr (.inr ⟨by rw [fromRight, hl], hr⟩)

/-- The zeroes a leaf's string begins with, in two halves. -/
theorem leafPrefix_eq : leafPrefix = emptyChild ++ emptyChild := rfl

/-- An op around a digest that is clear of a leaf's string does not hash that string. -/
theorem cut_ne_leaf {op : InnerOp} (hop : EnsureInner op getLeafOp innerSpec) {acc text : Bytes}
    (hclear : ∀ n < leafPrefix.length, ¬ acc <+: (leafPrefix ++ text).drop n) :
    op.prefixBytes ++ acc ++ op.suffixBytes ≠ leafPrefix ++ text := by
  intro h
  rw [List.append_assoc] at h
  rcases lt_or_ge op.prefixBytes.length leafPrefix.length with hshort | hlong
  · -- the digest begins among the zeroes
    refine hclear _ hshort ?_
    rw [← h, List.drop_left]
    exact List.prefix_append _ _
  · exact hop.not_leaf (List.prefix_of_prefix_length_le (List.prefix_append _ text)
      (h ▸ List.prefix_append _ _) hlong)

end Cut

/-! ## Walking down from the root

The last op of a path that folds to the root hash has the root's children in it, since nothing else
that is hashed has that digest; the rest of the path folds to the hash of the child it leaves free. -/

section Walk

variable {K V : Type*} [LinearOrder K] [Sha256] [AsBytes K] [Borrow V] {S : Set Bytes}

omit [LinearOrder K] in
theorem hash_ne_zero (hzero : ∀ x ∈ S, (sha256 x).bytes ≠ emptyChild) {n : AvlNode K V}
    {l r : NodeRef K V} (hn : Fresh n l r) (hS : (NodeRef.node n l r).hashed ⊆ S) :
    n.hash.bytes ≠ emptyChild := by
  rw [hn.hash]
  exact hzero _ (hS (.inl (.inl rfl)))

/-- **The walk.** A leaf and a path that fold to the merkle hash of a tree are the text and the
path of one of its pairs. -/
theorem pathTo_of_foldPath (happart : HashesApart S) {text : Bytes} :
    ∀ {t : NodeRef K V}, Cached t → Sorted t.toList → t.hashed ⊆ S → ∀ {path : List InnerOp},
      (∀ op ∈ path, EnsureInner op getLeafOp innerSpec) →
      insert (leafPrefix ++ text) (pathHashed (sha256 (leafPrefix ++ text)) path) ⊆ S →
      (foldPath (sha256 (leafPrefix ++ text)) path).bytes = t.childHash →
      ∃ e ∈ t.toList, text = asBytes e.1 ++ borrow e.2 ∧ path = pathTo e.1 t := by
  intro t
  induction t with
  | nil =>
    intro _ _ _ path _ hP hfold
    -- a digest of a hashed string is not the missing child's zeroes
    obtain ⟨x, hx, hfx⟩ := exists_preimage (leafPrefix ++ text) path
    rw [hfx] at hfold
    exact absurd hfold (happart.nonzero x (hP hx))
  | node n l r ihl ihr =>
    rintro ⟨hn, hcl, hcr⟩ hs hS path hfit hP hfold
    rw [NodeRef.toList_node] at hs
    obtain ⟨hsl, hsr, hln, hrn⟩ := sorted_middle.mp hs
    have hleaf := hP (.inl rfl)
    have hroot := hS (.inl (.inr rfl))
    rw [NodeRef.childHash_node, hn.merkleHash] at hfold
    rcases List.eq_nil_or_concat path with rfl | ⟨path, op, rfl⟩
    · -- the leaf itself would hash as a node: its zeroes would be the local hash
      have h := happart.inj hleaf hroot (Hash.ext hfold)
      rw [leafPrefix_eq, List.append_assoc, List.append_assoc] at h
      have hrest := List.append_inj_right h (by simp)
      exact absurd (List.append_inj_left hrest (by simp [n.hash.length_eq])).symm
        (hash_ne_zero happart.nonzero hn hS)
    rw [List.concat_eq_append] at hfit hP hfold ⊢
    have hop := hfit op (List.mem_append_right _ (List.mem_singleton_self op))
    have hrest : ∀ op' ∈ path, EnsureInner op' getLeafOp innerSpec :=
      fun op' h => hfit op' (List.mem_append_left _ h)
    rw [pathHashed_concat] at hP
    have hP' : insert (leafPrefix ++ text) (pathHashed (sha256 (leafPrefix ++ text)) path) ⊆ S :=
      (Set.insert_subset_insert (Set.subset_insert _ _)).trans hP
    have hcut := happart.inj (hP (.inr (.inl rfl))) hroot
      (Hash.ext ((congrArg Hash.bytes (foldPath_append_singleton _ path op)).symm.trans hfold))
    rcases cut_cases hop (Hash.length_eq _) hcut with ⟨rfl, hl⟩ | ⟨rfl, hself⟩ | ⟨rfl, hr⟩
    · obtain ⟨e, he, htext, rfl⟩ := ihl hcl hsl (fun x hx => hS (.inr (.inl hx))) hrest hP' hl
      exact ⟨e, List.mem_append_left _ he, htext, (pathTo_lt (hln e he) l r).symm⟩
    · -- the local hash: the rest of the path is empty
      rw [hn.hash] at hself
      have hlocal : leafPrefix ++ asBytes n.key ++ borrow n.value ∈ S := hS (.inl (.inl rfl))
      rcases List.eq_nil_or_concat path with rfl | ⟨path, op', rfl⟩
      · have htext := happart.inj hleaf hlocal (Hash.ext hself)
        rw [List.append_assoc] at htext
        exact ⟨(n.key, n.value), List.mem_append_right _ (List.mem_cons_self ..),
          List.append_cancel_left htext, (pathTo_self n l r).symm⟩
      · rw [List.concat_eq_append] at hrest hP' hself
        rw [foldPath_append_singleton] at hself
        rw [pathHashed_concat] at hP'
        have heq := happart.inj (hP' (.inr (.inl rfl))) hlocal (Hash.ext hself)
        rw [List.append_assoc leafPrefix] at heq hlocal
        obtain ⟨x, hx, hfx⟩ := exists_preimage (leafPrefix ++ text) path
        refine absurd heq (cut_ne_leaf ?_ ?_)
        · exact hrest op' (List.mem_append_right _ (List.mem_singleton_self op'))
        · rw [hfx]
          exact happart.clear x (hP' ((Set.insert_subset_insert (Set.subset_insert _ _)) hx)) _ hlocal
    · obtain ⟨e, he, htext, rfl⟩ := ihr hcr hsr (fun x hx => hS (.inr (.inr hx))) hrest hP' hr
      exact ⟨e, List.mem_append_right _ (List.mem_cons_of_mem _ he), htext,
        (pathTo_gt (hrn e he) l r).symm⟩

/-- What the ops of the tree's paths have in common: the lengths of a branch, and a prefix that is
not a leaf's. -/
structure NodeOp (op : InnerOp) : Prop where
  hash_eq : op.hash = .sha256
  branch : ∃ b, OfBranch getProofSpec op b
  not_leaf : ¬ leafPrefix <+: op.prefixBytes

omit [LinearOrder K] [Sha256] [AsBytes K] [Borrow V] in
theorem NodeOp.ensureInner {op : InnerOp} (h : NodeOp op) : EnsureInner op getLeafOp innerSpec := by
  obtain ⟨b, hb⟩ := h.branch
  obtain ⟨hb2, hpre, hsuf⟩ := ofBranch_iff.mp hb
  refine ⟨h.hash_eq, h.not_leaf, Nat.zero_le _, ?_, ?_⟩
  · show op.prefixBytes.length ≤ 64 + 2 * 32
    omega
  · show op.suffixBytes.length % 32 = 0
    omega

theorem nodeOp_of_mem_pathTo (hzero : ∀ x ∈ S, (sha256 x).bytes ≠ emptyChild) {key : K}
    {op : InnerOp} : ∀ {t : NodeRef K V}, Cached t → t.hashed ⊆ S → op ∈ pathTo key t →
      NodeOp op := by
  have short : ∀ {x : Bytes}, x.length < 64 → ¬ leafPrefix <+: x := by
    intro x hx hpre
    have hle := hpre.length_le
    simp [leafPrefix] at hle
    omega
  intro t
  induction t with
  | nil => intro _ _ h; simp [pathTo] at h
  | node n l r ihl ihr =>
    intro hc hS h
    have hl : l.hashed ⊆ S := fun x hx => hS (.inr (.inl hx))
    have hr : r.hashed ⊆ S := fun x hx => hS (.inr (.inr hx))
    rcases lt_trichotomy key n.key with hk | rfl | hk
    · rw [pathTo_lt hk, List.mem_append, List.mem_singleton] at h
      rcases h with h | rfl
      · exact ihl hc.2.1 hl h
      · exact ⟨rfl, ⟨0, ofBranch_fromLeft n r⟩, short (by simp [fromLeft])⟩
    · rw [pathTo_self, List.mem_singleton] at h
      exact h ▸ ⟨rfl, ⟨1, ofBranch_fromSelf l r⟩, short (by simp [fromSelf])⟩
    · rw [pathTo_gt hk, List.mem_append, List.mem_singleton] at h
      rcases h with h | rfl
      · exact ihr hc.2.2 hr h
      · refine ⟨rfl, ⟨2, ofBranch_fromRight n l⟩, fun hpre => ?_⟩
        -- a leaf's zeroes would reach over the local hash
        have heq := hpre.eq_of_length (by simp [fromRight, leafPrefix, n.hash.length_eq])
        rw [leafPrefix_eq, fromRight] at heq
        exact hash_ne_zero hzero hc.1 hS (List.append_inj_right heq (by simp)).symm

omit [LinearOrder K] [Sha256] [AsBytes K] [Borrow V] in
/-- A root hash is the child hash a parent would hash. -/
theorem childHash_of_rootHash {t : NodeRef K V} {h : Hash}
    (hroot : (AvlTree.mk t).rootHash = some h) : h.bytes = t.childHash := by
  cases t with
  | nil => simp [AvlTree.rootHash] at hroot
  | node n l r =>
    simp only [AvlTree.rootHash, Option.some.injEq] at hroot
    simp [← hroot]

/-- Verifying a pair's own proof hashes strings of the tree only. -/
theorem pathHashed_pathTo {key : K} {value : V} : ∀ {t : NodeRef K V}, Cached t →
    Sorted t.toList → lookup key t.toList = some value →
    insert (leafPrefix ++ asBytes key ++ borrow value)
      (pathHashed (localHash key value) (pathTo key t)) ⊆ t.hashed := by
  intro t
  induction t with
  | nil => intro _ _ h; simp at h
  | node n l r ihl ihr =>
    rintro ⟨hn, hcl, hcr⟩ hs hv
    rw [NodeRef.toList_node] at hs hv
    obtain ⟨hsl, hsr, _, _⟩ := sorted_middle.mp hs
    rcases lt_trichotomy key n.key with hk | rfl | hk
    · rw [lookup_middle_lt hs hk] at hv
      rw [pathTo_lt hk, pathHashed_concat, Set.insert_comm, Set.insert_subset_iff]
      refine ⟨.inl (.inr ?_), (ihl hcl hsl hv).trans fun x hx => .inr (.inl hx)⟩
      rw [childHash_of_rootHash (foldPath_pathTo hcl hsl hv)]
      simp [fromLeft]
    · rw [lookup_middle_eq hs, Option.some.injEq] at hv
      subst hv
      rw [pathTo_self, Set.insert_subset_iff, pathHashed, pathHashed, ← hn.hash]
      refine ⟨.inl (.inl rfl), ?_⟩
      rw [insert_empty_eq, Set.singleton_subset_iff]
      exact .inl (.inr rfl)
    · rw [lookup_middle_gt hs hk] at hv
      rw [pathTo_gt hk, pathHashed_concat, Set.insert_comm, Set.insert_subset_iff]
      refine ⟨.inl (.inr ?_), (ihr hcr hsr hv).trans fun x hx => .inr (.inr hx)⟩
      rw [childHash_of_rootHash (foldPath_pathTo hcr hsr hv)]
      simp [fromRight]

end Walk

/-! ## What is accepted -/

section Accepted

variable {K V : Type*} [LinearOrder K] [Sha256] [AsBytes K] [Borrow V]

/-- The first proof is the second up to where its key begins and ends: with a leaf the spec lets
through, it hashes the same string along the same path. -/
structure SameUpToCut (p q : ExistenceProof) : Prop where
  leaf : SpecLeaf p
  path_eq : p.path = q.path
  string_eq : p.leafString = q.leafString

omit [Sha256] in
theorem leafString_existenceProof (t : NodeRef K V) (e : K × V) :
    (existenceProof t e).leafString = leafPrefix ++ asBytes e.1 ++ borrow e.2 := rfl

omit [Sha256] in
theorem sameUpToCut_self (t : NodeRef K V) (e : K × V) :
    SameUpToCut (existenceProof t e) (existenceProof t e) :=
  ⟨⟨_, rfl, rfl, rfl, rfl, rfl, List.prefix_rfl⟩, rfl, rfl⟩

/-- Proofs of one string hash the same strings. -/
theorem SameUpToCut.proofHashed_eq {p q : ExistenceProof} (h : SameUpToCut p q) :
    proofHashed p = proofHashed q := by
  rw [proofHashed, proofHashed, h.string_eq, h.path_eq]

omit [Sha256] in
/-- Values of one length are the same, as the strings end with them. -/
theorem SameUpToCut.value_eq {p q : ExistenceProof} (h : SameUpToCut p q)
    (hlength : p.value.length = q.value.length) : p.value = q.value :=
  (List.append_inj' h.string_eq hlength).2

omit [Sha256] in
/-- With the tree's own leaf op, proofs that are cut at the same length are the same. -/
theorem SameUpToCut.eq_of_length {p q : ExistenceProof} (h : SameUpToCut p q)
    (hp : p.leaf = some getLeafOp) (hq : q.leaf = some getLeafOp)
    (hlength : p.value.length = q.value.length) : p = q := by
  obtain ⟨key, value, leaf, path⟩ := p
  obtain ⟨key', value', leaf', path'⟩ := q
  obtain ⟨-, hpath, hstring⟩ := h
  simp only at hp hq hpath
  subst hp hq hpath
  obtain ⟨hfront, hvalue⟩ := List.append_inj' hstring hlength
  obtain rfl : key = key' := List.append_cancel_left hfront
  obtain rfl : value = value' := hvalue
  rfl

/-- A stored pair's proof passes the checks, wherever its string is cut. -/
theorem verifyExistence_of_sameUpToCut {t : AvlTree K V} (h : t.Valid)
    (hzero : ∀ x ∈ t.root.hashed, (sha256 x).bytes ≠ emptyChild) {p : ExistenceProof}
    (hkey : p.key ≠ []) (hvalue : p.value ≠ []) {e : K × V} (he : e ∈ t.root.toList)
    (hsame : SameUpToCut p (existenceProof t.root e)) :
    VerifyExistence p getProofSpec t.root.childHash p.key p.value where
  spec := by
    refine checkExistenceSpec_getProofSpec.mpr ⟨hsame.leaf, fun op hop => ?_⟩
    rw [hsame.path_eq] at hop
    exact (nodeOp_of_mem_pathTo hzero h.cached subset_rfl hop).ensureInner
  key_eq := rfl
  value_eq := rfl
  key_ne := hkey
  value_ne := hvalue
  root_eq := by
    rw [calculateExistenceRoot, hsame.string_eq, hsame.path_eq]
    exact childHash_of_rootHash (h.proves_existenceProof he).root_eq

/-- And no other does. -/
theorem verifyExistence_iff_stored {t : AvlTree K V} (h : t.Valid) {p : ExistenceProof}
    (happart : HashesApart (t.root.hashed ∪ proofHashed p)) {key value : Bytes} :
    VerifyExistence p getProofSpec t.root.childHash key value ↔
      p.key = key ∧ p.value = value ∧ key ≠ [] ∧ value ≠ [] ∧
        ∃ e ∈ t.root.toList, SameUpToCut p (existenceProof t.root e) := by
  constructor
  · rintro ⟨hspec, hkey, hvalue, hkeyne, hvaluene, hroot⟩
    obtain ⟨hleaf, hinner⟩ := checkExistenceSpec_getProofSpec.mp hspec
    obtain ⟨text, htext⟩ := hleaf.exists_text
    rw [calculateExistenceRoot, htext] at hroot
    have hP : insert (leafPrefix ++ text) (pathHashed (sha256 (leafPrefix ++ text)) p.path) ⊆
        t.root.hashed ∪ proofHashed p := by
      rw [proofHashed, htext]
      exact Set.subset_union_right
    obtain ⟨e, he, heq, hpath⟩ := pathTo_of_foldPath happart h.cached h.ordered
      Set.subset_union_left hinner hP hroot
    refine ⟨hkey, hvalue, hkeyne, hvaluene, e, he, hleaf, hpath, ?_⟩
    rw [htext, heq, ← List.append_assoc]
    rfl
  · rintro ⟨rfl, rfl, hkey, hvalue, e, he, hsame⟩
    exact verifyExistence_of_sameUpToCut h (fun x hx => happart.nonzero x (.inl hx)) hkey hvalue he
      hsame

/-- What `get_proof` answers for a stored key is the key's path in the tree. -/
theorem AvlTree.Valid.getProof_of_mem {t : AvlTree K V} (h : t.Valid) {e : K × V}
    (he : e ∈ t.root.toList) :
    t.getProof e.1 = some { proof := some (.exist (existenceProof t.root e)) } := by
  rw [h.getProof_eq, proofFor, (lookup_eq_some h.ordered).mpr he]

theorem AvlTree.Valid.get_eq_some_iff {t : AvlTree K V} (h : t.Valid) {key : K} {value : V} :
    t.get key = some value ↔ (key, value) ∈ t.root.toList := by
  rw [h.get_eq, lookup_eq_some h.ordered]

/-- An answer that is an existence proof is a stored pair's. -/
theorem AvlTree.Valid.getProof_eq_exist {t : AvlTree K V} (h : t.Valid) {key : K}
    {p : ExistenceProof} (hp : t.getProof key = some { proof := some (.exist p) }) :
    ∃ value, (key, value) ∈ t.root.toList ∧ p = existenceProof t.root (key, value) := by
  cases hget : t.get key with
  | none =>
    obtain ⟨q, hq, -⟩ := h.getProof_of_get_none hget
    rw [hq] at hp
    simp at hp
  | some value =>
    have he := h.get_eq_some_iff.mp hget
    have heq := (h.getProof_of_mem he).symm.trans hp
    simp only [Option.some.injEq, CommitmentProof.mk.injEq, Proof.exist.injEq] at heq
    exact ⟨value, he, heq.symm⟩

variable [Verifier]

omit [Sha256] [Verifier] in
/-- Between proofs with the tree's own leaf op for keys of which none starts another, the cut is the
same. -/
theorem SameUpToCut.eq_of_prefixFree (hfree : PrefixFree K)
    (hkey : Function.Injective (asBytes : K → Bytes)) {p : ExistenceProof} {key : K}
    {t : NodeRef K V} {e : K × V} (hleaf : p.leaf = some getLeafOp) (hp : p.key = asBytes key)
    (h : SameUpToCut p (existenceProof t e)) : e.1 = key ∧ p = existenceProof t e := by
  have htext : asBytes key ++ p.value = asBytes e.1 ++ borrow e.2 := by
    have hstring := h.string_eq
    rw [ExistenceProof.leafString, hleaf, hp, leafString_existenceProof, List.append_assoc,
      List.append_assoc] at hstring
    exact List.append_cancel_left hstring
  obtain ⟨hbytes, hvalue⟩ := List.append_inj htext (hfree.length_eq htext)
  exact ⟨hkey hbytes.symm, h.eq_of_length hleaf rfl (congrArg List.length hvalue)⟩

end Accepted

/-! ## One pair, verified -/

section OnePair

attribute [local instance] twiceSha256

/-- Keys of one byte. -/
local instance oneByte : AsBytes Bool := ⟨fun b => [if b then 1 else 0]⟩

def onePair : AvlTree Bool Bytes := ⟨asNodeRef true [98, 99]⟩

theorem run_onePair :
    runSteps AvlTree.exec AvlTree.new [.insert true [98, 99]] = some ([none], onePair) := rfl

/-- The stored string, with the key's only byte moved to the leaf's prefix. -/
def laterCut : ExistenceProof :=
  { existenceProof onePair.root (true, [98, 99]) with
    leaf := some { getLeafOp with prefixBytes := leafPrefix ++ [1] }
    key := [98]
    value := [99] }

theorem sameUpToCut_laterCut :
    SameUpToCut laterCut (existenceProof onePair.root (true, [98, 99])) :=
  ⟨⟨_, rfl, rfl, rfl, rfl, rfl, List.prefix_append _ _⟩, rfl, rfl⟩

theorem hashed_onePair : onePair.root.hashed =
    {leafPrefix ++ [1, 98, 99], emptyChild ++ List.replicate 32 1 ++ emptyChild} := by
  have h : onePair.root.hashed =
      {leafPrefix ++ [1, 98, 99], emptyChild ++ List.replicate 32 1 ++ emptyChild} ∪ (∅ ∪ ∅) :=
    rfl
  rw [h, Set.union_self, Set.union_empty]

theorem proofHashed_onePair :
    proofHashed (existenceProof onePair.root (true, [98, 99])) ⊆ onePair.root.hashed :=
  pathHashed_pathTo (AvlTree.valid_of_run run_onePair).cached
    (AvlTree.valid_of_run run_onePair).ordered rfl

theorem proofHashed_laterCut : proofHashed laterCut ⊆ onePair.root.hashed :=
  sameUpToCut_laterCut.proofHashed_eq.trans_subset proofHashed_onePair

theorem hashesApart_onePair : HashesApart onePair.root.hashed := by
  rw [hashed_onePair]
  refine .of_head ?_ ?_
  · rintro x (rfl | rfl) y (rfl | rfl) h
    · rfl
    · exact absurd h (by decide)
    · exact absurd h (by decide)
    · rfl
  · rintro x (rfl | rfl) <;> decide

local instance onePairVerifier : Verifier := .ofChecks

theorem rootHash_onePair :
    onePair.rootHash = some ⟨List.replicate 32 2, List.length_replicate⟩ := rfl

end OnePair

end Basecoin.Avl
