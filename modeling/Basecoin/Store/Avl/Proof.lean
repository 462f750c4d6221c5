import Basecoin.Store.Avl.Tree

/-!
# `avl/proof.rs`, and `get_proof` of `avl/tree.rs`

The messages of the `ics23` crate are third-party, so `Ics23` holds only the fields and variants
this repository fills in or reads. Two `Proof` variants are never built here and only occur in
`unreachable!()` arms: they stay, without their payloads, so that those arms exist in the model
and "is never taken" is a statement about it (`none` is the panic).

A node has a value, so its hash is over three parts: the hash of the left child, the one of its own
key and value, and the one of the right child. A proof starts from a node's own leaf, closes it
between the two children in a first step, and each ancestor adds one step, in which the hash so far
is an outer part. Where the key is absent the recursion ends at an empty child; the way back meets
the neighbours, first on either side, and from there on both proofs grow together (`pushFound`).
-/

namespace Basecoin

/-! ## The messages of `ics23` -/

namespace Ics23

/-- `HashOp`, the two operations this tree names. -/
inductive HashOp where
  | noHash
  | sha256
deriving DecidableEq

/-- `LengthOp`, the one operation this tree names. -/
inductive LengthOp where
  | noPrefix
deriving DecidableEq

/-- `LeafOp`; `prefixBytes` is the field `prefix`. -/
structure LeafOp where
  hash : HashOp
  prehashKey : HashOp
  prehashValue : HashOp
  length : LengthOp
  prefixBytes : Bytes
deriving DecidableEq

structure InnerOp where
  hash : HashOp
  prefixBytes : Bytes
  suffixBytes : Bytes
deriving DecidableEq

structure InnerSpec where
  childOrder : List Nat
  childSize : Nat
  minPrefixLength : Nat
  maxPrefixLength : Nat
  emptyChild : Bytes
  hash : HashOp
deriving DecidableEq

structure ProofSpec where
  leafSpec : Option LeafOp
  innerSpec : Option InnerSpec
  maxDepth : Nat
  minDepth : Nat
  prehashKeyBeforeComparison : Bool
deriving DecidableEq

structure ExistenceProof where
  key : Bytes
  value : Bytes
  leaf : Option LeafOp
  path : List InnerOp
deriving DecidableEq

/-- `proof.path.push(inner)`. -/
def ExistenceProof.push (proof : ExistenceProof) (inner : InnerOp) : ExistenceProof :=
  { proof with path := proof.path ++ [inner] }

structure NonExistenceProof where
  key : Bytes
  left : Option ExistenceProof
  right : Option ExistenceProof
deriving DecidableEq

inductive Proof where
  | exist (proof : ExistenceProof)
  | nonexist (proof : NonExistenceProof)
  | batch
  | compressed
deriving DecidableEq

structure CommitmentProof where
  proof : Option Proof
deriving DecidableEq

/-- Fold a path over a hash: every op is `SHA256(prefix ++ acc ++ suffix)`. -/
def foldPath [Sha256] (acc : Hash) (path : List InnerOp) : Hash :=
  path.foldl (fun acc op => sha256 (op.prefixBytes ++ acc.bytes ++ op.suffixBytes)) acc

end Ics23

/-! ## `proof.rs` -/

namespace Avl

open Ics23

def getLeafOp : LeafOp :=
  { hash := .sha256
    prehashKey := .noHash
    prehashValue := .noHash
    length := .noPrefix
    prefixBytes := leafPrefix }

def getProofSpec : ProofSpec :=
  { leafSpec := some getLeafOp
    innerSpec := some
      { childOrder := [0, 1, 2]
        childSize := 32
        minPrefixLength := 0
        maxPrefixLength := 64
        emptyChild := emptyChild
        hash := .sha256 }
    maxDepth := 0
    minDepth := 0
    prehashKeyBeforeComparison := false }

/-! ## `get_proof` -/

variable {K V : Type*} [AsBytes K] [Borrow V]

def getLocalExistenceProof (n : AvlNode K V) (left right : NodeRef K V) : ExistenceProof :=
  { key := asBytes n.key
    value := borrow n.value
    leaf := some getLeafOp
    path :=
      [{ hash := .sha256
         prefixBytes := (leftHash left).getD emptyChild
         suffixBytes := (rightHash right).getD emptyChild }] }

/-- Both `Nonexist` arms begin so: extend the neighbours that were already found. -/
def pushFound (proof : NonExistenceProof) (inner : InnerOp) : NonExistenceProof :=
  { proof with
    right := proof.right.map (·.push inner)
    left := proof.left.map (·.push inner) }

variable [LinearOrder K]

/-- `get_proof_rec`; `none` is an `unreachable!()` arm. -/
def getProofRec (key : K) : NodeRef K V → Option Proof
  | .nil => some (.nonexist { key := asBytes key, left := none, right := none })
  | .node n left right =>
    match compare n.key key with
    | .gt =>
      let inner : InnerOp :=
        { hash := .sha256
          prefixBytes := []
          suffixBytes := n.hash.bytes ++ (rightHash right).getD emptyChild }
      (getProofRec key left).bind fun proof =>
        match proof with
        | .exist proof => some (.exist (proof.push inner))
        | .nonexist proof =>
          let proof := pushFound proof inner
          -- found the right-neighbor
          if proof.right.isNone then
            some (.nonexist { proof with right := some (getLocalExistenceProof n left right) })
          else some (.nonexist proof)
        | .batch => none
        | .compressed => none
    | .lt =>
      let inner : InnerOp :=
        { hash := .sha256
          prefixBytes := (leftHash left).getD emptyChild ++ n.hash.bytes
          suffixBytes := [] }
      (getProofRec key right).bind fun proof =>
        match proof with
        | .exist proof => some (.exist (proof.push inner))
        | .nonexist proof =>
          let proof := pushFound proof inner
          -- found the left-neighbor
          if proof.left.isNone then
            some (.nonexist { proof with left := some (getLocalExistenceProof n left right) })
          else some (.nonexist proof)
        | .batch => none
        | .compressed => none
    | .eq => some (.exist (getLocalExistenceProof n left right))

def AvlTree.getProof (self : AvlTree K V) (key : K) : Option CommitmentProof :=
  (getProofRec key self.root).map fun proof => { proof := some proof }

end Avl

end Basecoin
