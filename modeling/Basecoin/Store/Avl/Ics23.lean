import Basecoin.Store.Avl.Proof
import Mathlib.Tactic.MkIffOfInductiveProp

/-!
# The verifier of `ics23`, a parameter

The proofs this tree builds are checked by `verify_membership` and `verify_non_membership` of the
`ics23` crate, as the tree's own tests do. That code is third-party, so it is a parameter here
(`Verifier`), and what is known of it is a hypothesis (`Verifier.Documented`): on a single
existence or non-existence proof, the two answer as the checks below say. Nothing is assumed of
batches and compressed proofs.

The checks are those of the crate, each under the name of the function that makes it, over the
fields of any spec. They leave more open than a tree needs. A leaf may begin with more than the
spec's prefix, and an inner op may have any prefix up to a bound that does not begin like a leaf's,
as long as its suffix is so many whole children. The key that a non-existence proof carries is not
read at all.
-/

namespace Basecoin.Ics23

/-- `verify_membership` and `verify_non_membership`, over SHA-256. -/
class Verifier where
  verifyMembership (proof : CommitmentProof) (spec : ProofSpec) (root key value : Bytes) : Bool
  verifyNonMembership (proof : CommitmentProof) (spec : ProofSpec) (root key : Bytes) : Bool

export Verifier (verifyMembership verifyNonMembership)

/-! ## What is checked of one path -/

/-- `ensure_leaf`: the operations are the spec's, and the prefix begins with the spec's. -/
@[mk_iff] structure EnsureLeaf (leaf spec : LeafOp) : Prop where
  hash_eq : leaf.hash = spec.hash
  prehashKey_eq : leaf.prehashKey = spec.prehashKey
  prehashValue_eq : leaf.prehashValue = spec.prehashValue
  length_eq : leaf.length = spec.length
  prefix_le : spec.prefixBytes <+: leaf.prefixBytes

/-- `ensure_inner`: the suffix is so many whole children, and the prefix has a bounded length and
does not begin like a leaf's. -/
@[mk_iff] structure EnsureInner (op : InnerOp) (leafSpec : LeafOp) (spec : InnerSpec) : Prop where
  hash_eq : op.hash = spec.hash
  not_leaf : ¬ leafSpec.prefixBytes <+: op.prefixBytes
  min_le : spec.minPrefixLength ≤ op.prefixBytes.length
  le_max : op.prefixBytes.length ≤
    spec.maxPrefixLength + (spec.childOrder.length - 1) * spec.childSize
  whole : op.suffixBytes.length % spec.childSize = 0

/-- `check_existence_spec`. -/
@[mk_iff] structure CheckExistenceSpec (p : ExistenceProof) (spec : ProofSpec) : Prop where
  leaf : ∃ leaf ∈ p.leaf, ∃ leafSpec ∈ spec.leafSpec, EnsureLeaf leaf leafSpec
  inner : ∀ op ∈ p.path, ∃ leafSpec ∈ spec.leafSpec, ∃ innerSpec ∈ spec.innerSpec,
    EnsureInner op leafSpec innerSpec
  deep : spec.minDepth = 0 ∨ spec.minDepth ≤ p.path.length
  shallow : spec.maxDepth = 0 ∨ p.path.length ≤ spec.maxDepth

/-- The string whose hash the fold of a path starts with. -/
def ExistenceProof.leafString (p : ExistenceProof) : Bytes :=
  (p.leaf.map LeafOp.prefixBytes).getD [] ++ p.key ++ p.value

/-- `calculate_existence_root`, for a spec that hashes by SHA-256 and neither hashes nor measures
the key and the value before. -/
def calculateExistenceRoot [Sha256] (p : ExistenceProof) : Hash :=
  foldPath (sha256 p.leafString) p.path

/-- `verify_existence`. An empty key or value has no leaf hash. -/
@[mk_iff] structure VerifyExistence [Sha256] (p : ExistenceProof) (spec : ProofSpec)
    (root key value : Bytes) : Prop where
  spec : CheckExistenceSpec p spec
  key_eq : p.key = key
  value_eq : p.value = value
  key_ne : key ≠ []
  value_ne : value ≠ []
  root_eq : (calculateExistenceRoot p).bytes = root

/-! ## What is checked of two paths -/

/-- `has_padding`, with the lengths of `get_padding`. -/
def HasPadding (spec : InnerSpec) (op : InnerOp) (branch : Nat) : Prop :=
  branch ∈ spec.childOrder ∧
    spec.childOrder.idxOf branch * spec.childSize + spec.minPrefixLength ≤
      op.prefixBytes.length ∧
    op.prefixBytes.length ≤
      spec.childOrder.idxOf branch * spec.childSize + spec.maxPrefixLength ∧
    op.suffixBytes.length =
      (spec.childOrder.length - 1 - spec.childOrder.idxOf branch) * spec.childSize

instance (spec : InnerSpec) (op : InnerOp) : DecidablePred (HasPadding spec op) :=
  fun _ => inferInstanceAs (Decidable (_ ∧ _ ∧ _ ∧ _))

/-- `order_from_padding`: the first branch whose lengths the op has. -/
def orderFromPadding (spec : InnerSpec) (op : InnerOp) : Option Nat :=
  (List.range spec.childOrder.length).find? fun branch => decide (HasPadding spec op branch)

/-- `left_branches_are_empty`: the prefix ends with a placeholder for each branch before. -/
def LeftBranchesAreEmpty (spec : InnerSpec) (op : InnerOp) : Prop :=
  ∃ branch ∈ orderFromPadding spec op, 0 < branch ∧
    branch * spec.childSize ≤ op.prefixBytes.length ∧
    ∀ i < branch, (op.prefixBytes.drop
      (op.prefixBytes.length - branch * spec.childSize + i * spec.childSize)).take
        spec.childSize = spec.emptyChild

/-- `right_branches_are_empty`. The suffix is asked to have the size of one child. -/
def RightBranchesAreEmpty (spec : InnerSpec) (op : InnerOp) : Prop :=
  ∃ branch ∈ orderFromPadding spec op, branch + 1 < spec.childOrder.length ∧
    op.suffixBytes.length = spec.childSize ∧
    ∀ i < spec.childOrder.length - 1 - branch,
      (op.suffixBytes.drop (i * spec.childSize)).take spec.childSize = spec.emptyChild

/-- `ensure_left_most`. -/
def EnsureLeftMost (spec : InnerSpec) (path : List InnerOp) : Prop :=
  ∀ op ∈ path, HasPadding spec op 0 ∨ LeftBranchesAreEmpty spec op

/-- `ensure_right_most`. -/
def EnsureRightMost (spec : InnerSpec) (path : List InnerOp) : Prop :=
  ∀ op ∈ path, HasPadding spec op (spec.childOrder.length - 1) ∨ RightBranchesAreEmpty spec op

/-- `is_left_step`. -/
def IsLeftStep (spec : InnerSpec) (left right : InnerOp) : Prop :=
  ∃ branch ∈ orderFromPadding spec left, orderFromPadding spec right = some (branch + 1)

/-- The loop of `ensure_left_neighbor`, on paths read from the root: past the ops of one prefix and
suffix there is a step to the left, and below it the edges. -/
def EnsureLeftNeighbor (spec : InnerSpec) : List InnerOp → List InnerOp → Prop
  | a :: left, b :: right =>
    if a.prefixBytes = b.prefixBytes ∧ a.suffixBytes = b.suffixBytes then
      EnsureLeftNeighbor spec left right
    else IsLeftStep spec a b ∧ EnsureRightMost spec left ∧ EnsureLeftMost spec right
  | [], _ => False
  | _ :: _, [] => False

/-- The last match of `verify_non_existence`. -/
def EnsureAdjacent (spec : InnerSpec) : Option ExistenceProof → Option ExistenceProof → Prop
  | some left, none => EnsureRightMost spec left.path
  | none, some right => EnsureLeftMost spec right.path
  | some left, some right => EnsureLeftNeighbor spec left.path.reverse right.path.reverse
  | none, none => False

/-- `verify_non_existence`, for a spec that compares keys as they are. -/
@[mk_iff] structure VerifyNonExistence [Sha256] (q : NonExistenceProof) (spec : ProofSpec)
    (root key : Bytes) : Prop where
  left : ∀ p ∈ q.left, VerifyExistence p spec root p.key p.value ∧ p.key < key
  right : ∀ p ∈ q.right, VerifyExistence p spec root p.key p.value ∧ key < p.key
  adjacent : ∃ innerSpec ∈ spec.innerSpec, EnsureAdjacent innerSpec q.left q.right

/-! ## What is known of the verifier -/

/-- Under this spec, single proofs are accepted that pass the checks, and no others. -/
structure Verifier.Documented [Sha256] [Verifier] (spec : ProofSpec) : Prop where
  membership : ∀ p root key value,
    verifyMembership { proof := some (.exist p) } spec root key value = true ↔
      VerifyExistence p spec root key value
  nonMembership : ∀ q root key,
    verifyNonMembership { proof := some (.nonexist q) } spec root key = true ↔
      VerifyNonExistence q spec root key

/-! ## A verifier that makes the checks -/

section Decide

instance (leaf spec : LeafOp) : Decidable (EnsureLeaf leaf spec) :=
  decidable_of_iff _ (ensureLeaf_iff leaf spec).symm

instance (op : InnerOp) (leafSpec : LeafOp) (spec : InnerSpec) :
    Decidable (EnsureInner op leafSpec spec) :=
  decidable_of_iff _ (ensureInner_iff op leafSpec spec).symm

instance (p : ExistenceProof) (spec : ProofSpec) : Decidable (CheckExistenceSpec p spec) :=
  decidable_of_iff _ (checkExistenceSpec_iff p spec).symm

instance [Sha256] (p : ExistenceProof) (spec : ProofSpec) (root key value : Bytes) :
    Decidable (VerifyExistence p spec root key value) :=
  decidable_of_iff _ (verifyExistence_iff p spec root key value).symm

instance (spec : InnerSpec) : DecidablePred (LeftBranchesAreEmpty spec) :=
  fun _ => inferInstanceAs (Decidable (∃ branch ∈ orderFromPadding spec _, _))

instance (spec : InnerSpec) : DecidablePred (RightBranchesAreEmpty spec) :=
  fun _ => inferInstanceAs (Decidable (∃ branch ∈ orderFromPadding spec _, _))

instance (spec : InnerSpec) : DecidablePred (EnsureLeftMost spec) :=
  fun path => inferInstanceAs (Decidable (∀ op ∈ path, _ ∨ _))

instance (spec : InnerSpec) : DecidablePred (EnsureRightMost spec) :=
  fun path => inferInstanceAs (Decidable (∀ op ∈ path, _ ∨ _))

instance (spec : InnerSpec) (left right : InnerOp) : Decidable (IsLeftStep spec left right) :=
  inferInstanceAs (Decidable (∃ branch ∈ orderFromPadding spec left, _))

instance decidableEnsureLeftNeighbor (spec : InnerSpec) :
    ∀ left right, Decidable (EnsureLeftNeighbor spec left right)
  | a :: left, b :: right =>
    have := decidableEnsureLeftNeighbor spec left right
    inferInstanceAs (Decidable (if a.prefixBytes = b.prefixBytes ∧ a.suffixBytes = b.suffixBytes then
      EnsureLeftNeighbor spec left right
    else IsLeftStep spec a b ∧ EnsureRightMost spec left ∧ EnsureLeftMost spec right))
  | [], _ => isFalse fun h => h
  | _ :: _, [] => isFalse fun h => h

instance (spec : InnerSpec) : ∀ left right, Decidable (EnsureAdjacent spec left right)
  | some left, none => inferInstanceAs (Decidable (EnsureRightMost spec left.path))
  | none, some right => inferInstanceAs (Decidable (EnsureLeftMost spec right.path))
  | some left, some right =>
    inferInstanceAs (Decidable (EnsureLeftNeighbor spec left.path.reverse right.path.reverse))
  | none, none => isFalse fun h => h

instance [Sha256] (q : NonExistenceProof) (spec : ProofSpec) (root key : Bytes) :
    Decidable (VerifyNonExistence q spec root key) :=
  decidable_of_iff _ (verifyNonExistence_iff q spec root key).symm

/-- It refuses what is not a single proof. -/
@[reducible] def Verifier.ofChecks [Sha256] : Verifier where
  verifyMembership proof spec root key value :=
    match proof.proof with
    | some (.exist p) => decide (VerifyExistence p spec root key value)
    | some (.nonexist _) => false
    | some .batch => false
    | some .compressed => false
    | none => false
  verifyNonMembership proof spec root key :=
    match proof.proof with
    | some (.nonexist q) => decide (VerifyNonExistence q spec root key)
    | some (.exist _) => false
    | some .batch => false
    | some .compressed => false
    | none => false

theorem Verifier.documented_ofChecks [Sha256] (spec : ProofSpec) :
    @Verifier.Documented _ .ofChecks spec :=
  letI := Verifier.ofChecks
  { membership := fun _ _ _ _ => decide_eq_true_iff
    nonMembership := fun _ _ _ => decide_eq_true_iff }

end Decide

end Basecoin.Ics23
