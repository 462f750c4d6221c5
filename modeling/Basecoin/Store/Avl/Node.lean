import Mathlib.Order.Lattice
import Mathlib.Data.List.Basic

/-!
# `avl/node.rs`, `avl/as_bytes.rs` and the constants of `avl/proof.rs`

The node of the Merkle AVL tree and the cached data it carries. `AvlNode<K, V>` boxes its two
children in the same struct; here a node is the record of its own five fields and the children
stand beside it in `NodeRef`, so that the tree is a plain inductive type and every recursion
below is structural. What a Rust method reads through `self.left` and `self.right` is passed
explicitly.

SHA-256 is not part of this repository: it is a parameter, the class `Sha256`, of which only
the output length is fixed. Heights are `u32` in the source; a height is at most the number of
nodes in memory, so they are natural numbers here and `balance_factor`'s `as i32` casts are the
embedding into the integers.
-/

namespace Basecoin

abbrev Bytes := List UInt8

/-- `tendermint::Hash::Sha256`: thirty-two bytes. -/
structure Hash where
  bytes : Bytes
  length_eq : bytes.length = 32
deriving DecidableEq

@[ext] theorem Hash.ext {a b : Hash} (h : a.bytes = b.bytes) : a = b := by
  cases a; cases b; simpa using h

/-- The `sha2::Sha256` digest. -/
class Sha256 where
  sha256 : Bytes → Hash

export Sha256 (sha256)

/-- A stand-in digest to run the model with: the same 32 bytes for every input. -/
@[reducible] def Sha256.ones : Sha256 := ⟨fun _ => ⟨List.replicate 32 1, by simp⟩⟩

class AsBytes (K : Type*) where
  asBytes : K → Bytes

export AsBytes (asBytes)

/-- `Borrow<[u8]>`, the bound on the values. -/
class Borrow (V : Type*) where
  borrow : V → Bytes

export Borrow (borrow)

instance : AsBytes Bytes := ⟨id⟩
instance : Borrow Bytes := ⟨id⟩

namespace Avl

/-- `LEAF_PREFIX`: 64 bytes of zeroes. -/
def leafPrefix : Bytes := List.replicate 64 0

/-- `EMPTY_CHILD`: 32 bytes of zeroes. -/
def emptyChild : Bytes := List.replicate 32 0

@[simp] theorem length_emptyChild : emptyChild.length = 32 := by simp [emptyChild]

/-- A node's own fields; see the module docstring for the children. -/
structure AvlNode (K V : Type*) where
  key : K
  value : V
  hash : Hash
  merkleHash : Hash
  height : Nat
deriving DecidableEq

/-- `NodeRef<K, V> = Option<Box<AvlNode<K, V>>>`. -/
inductive NodeRef (K V : Type*) where
  | nil
  | node (node : AvlNode K V) (left right : NodeRef K V)
deriving DecidableEq

variable {K V : Type*}

/-! ## Reading the children -/

namespace NodeRef

/-- `.as_ref().map(|n| n.height)`: the body of `left_height` and `right_height`. -/
def height? : NodeRef K V → Option Nat
  | nil => none
  | node n _ _ => some n.height

/-- `as_ref()?.merkle_hash.as_bytes()`: the body of `left_hash` and `right_hash`. -/
def merkleHash? : NodeRef K V → Option Bytes
  | nil => none
  | node n _ _ => some n.merkleHash.bytes

def isNone : NodeRef K V → Bool
  | nil => true
  | node _ _ _ => false

end NodeRef

def leftHeight (left : NodeRef K V) : Option Nat := left.height?
def rightHeight (right : NodeRef K V) : Option Nat := right.height?
def leftHash (left : NodeRef K V) : Option Bytes := left.merkleHash?
def rightHash (right : NodeRef K V) : Option Bytes := right.merkleHash?

/-- `balance_factor`: left height minus right height, a missing child counting as 0. -/
def balanceFactor (left right : NodeRef K V) : Int :=
  match leftHeight left, rightHeight right with
  | none, none => 0
  | none, some h => -(h : Int)
  | some h, none => (h : Int)
  | some hl, some hr => (hl : Int) - (hr : Int)

/-! ## `AvlNode` methods -/

section Methods

variable [Sha256] [AsBytes K] [Borrow V]

def localHash (key : K) (value : V) : Hash :=
  sha256 (leafPrefix ++ asBytes key ++ borrow value)

namespace AvlNode

/-- `AvlNode::new`; the two child fields of the source start as `None`. -/
def new (key : K) (value : V) : AvlNode K V :=
  let hash := sha256 (leafPrefix ++ asBytes key ++ borrow value)
  let merkleHash := sha256 (emptyChild ++ hash.bytes ++ emptyChild)
  { key, value, hash, merkleHash, height := 0 }

/-- `set_value`: the value replaced, and the node with the new value and its local hash. -/
def setValue (self : AvlNode K V) (value : V) : V × AvlNode K V :=
  let hash := localHash self.key value
  (self.value, { self with hash, value })

def updateHeight (self : AvlNode K V) (left right : NodeRef K V) : AvlNode K V :=
  match right, left with
  | .nil, .nil => { self with height := 0 }
  | .nil, .node l _ _ => { self with height := l.height + 1 }
  | .node r _ _, .nil => { self with height := r.height + 1 }
  | .node r _ _, .node l _ _ => { self with height := max l.height r.height + 1 }

def updateHashes (self : AvlNode K V) (left right : NodeRef K V) : AvlNode K V :=
  { self with
    merkleHash := sha256 ((leftHash left).getD emptyChild ++ self.hash.bytes
      ++ (rightHash right).getD emptyChild) }

def update (self : AvlNode K V) (left right : NodeRef K V) : AvlNode K V :=
  (self.updateHashes left right).updateHeight left right

end AvlNode

def asNodeRef (key : K) (value : V) : NodeRef K V := .node (AvlNode.new key value) .nil .nil

end Methods

/-! ## What `update` computes

The two cached fields as functions of the children, and `update` as the record that sets them;
no proof below unfolds the methods again. -/

/-- The merkle hash of a subtree, `EMPTY_CHILD` when it is missing. -/
def NodeRef.childHash (t : NodeRef K V) : Bytes := t.merkleHash?.getD emptyChild

/-- The height a parent sees: 0 for a missing child, as for a leaf. -/
def NodeRef.ht (t : NodeRef K V) : Nat := t.height?.getD 0

def nodeHeight : NodeRef K V → NodeRef K V → Nat
  | .nil, .nil => 0
  | left, right => max left.ht right.ht + 1

@[simp] theorem NodeRef.childHash_nil : (nil : NodeRef K V).childHash = emptyChild := rfl

@[simp] theorem NodeRef.childHash_node (n : AvlNode K V) (l r : NodeRef K V) :
    (node n l r).childHash = n.merkleHash.bytes := rfl

@[simp] theorem NodeRef.ht_nil : (nil : NodeRef K V).ht = 0 := rfl

@[simp] theorem NodeRef.ht_node (n : AvlNode K V) (l r : NodeRef K V) :
    (node n l r).ht = n.height := rfl

@[simp] theorem NodeRef.length_childHash (t : NodeRef K V) : t.childHash.length = 32 := by
  cases t with
  | nil => exact length_emptyChild
  | node n l r => exact n.merkleHash.length_eq

theorem balanceFactor_eq (left right : NodeRef K V) :
    balanceFactor left right = (left.ht : Int) - right.ht := by
  cases left <;> cases right <;>
    simp [balanceFactor, leftHeight, rightHeight, NodeRef.height?]

section Update

variable [Sha256]

theorem AvlNode.update_eq (n : AvlNode K V) (left right : NodeRef K V) :
    n.update left right =
      { n with
        merkleHash := sha256 (left.childHash ++ n.hash.bytes ++ right.childHash)
        height := nodeHeight left right } := by
  cases left <;> cases right <;>
    simp [update, updateHashes, updateHeight, nodeHeight, NodeRef.childHash, leftHash,
      rightHash]

@[simp] theorem AvlNode.update_key (n : AvlNode K V) (l r : NodeRef K V) :
    (n.update l r).key = n.key := by rw [update_eq]

@[simp] theorem AvlNode.update_value (n : AvlNode K V) (l r : NodeRef K V) :
    (n.update l r).value = n.value := by rw [update_eq]

@[simp] theorem AvlNode.update_hash (n : AvlNode K V) (l r : NodeRef K V) :
    (n.update l r).hash = n.hash := by rw [update_eq]

@[simp] theorem AvlNode.update_height' (n : AvlNode K V) (l r : NodeRef K V) :
    (n.update l r).height = nodeHeight l r := by rw [update_eq]

@[simp] theorem AvlNode.update_update (n : AvlNode K V) (l r l' r' : NodeRef K V) :
    (n.update l r).update l' r' = n.update l' r' := by simp only [update_eq]

end Update

end Avl

end Basecoin
