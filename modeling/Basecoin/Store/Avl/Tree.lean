import Basecoin.Store.Avl.Node

/-!
# `avl/tree.rs`

The operations of `AvlTree`, function by function. `&mut NodeRef` parameters become a returned
subtree; an `expect` that fails is `none`, so every function that can reach one answers an
`Option`. `take`, `replace` and `swap` leave nothing behind, because the moved-from places are
overwritten before anything reads them; where a child *is* read after a `take` (the two
branches of `remove_root`), the model returns the node with its children as the source leaves
them.

`get_proof` is in `Basecoin.Store.Avl.Proof`.
-/

namespace Basecoin.Avl

variable {K V : Type*} [LinearOrder K]

structure AvlTree (K V : Type*) where
  root : NodeRef K V
deriving DecidableEq

/-! ## Reading -/

/-- The search loop of `AvlTree::get`, on the subtree `node_ref` points at. -/
def getRec (key : K) : NodeRef K V → Option V
  | .nil => none
  | .node n left right =>
    match compare n.key key with
    | .gt => getRec key left
    | .lt => getRec key right
    | .eq => some n.value

omit [LinearOrder K] in
/-- `get_keys_rec`: push the keys of the subtree, in order, onto `keys`. -/
def getKeysRec : NodeRef K V → List K → List K
  | .nil, keys => keys
  | .node n left right, keys => getKeysRec right (getKeysRec left keys ++ [n.key])

section Write

variable [Sha256] [AsBytes K] [Borrow V]

/-! ## Rotations -/

def rotateRight : NodeRef K V → Option (NodeRef K V)
  | .nil => none
  | .node _ .nil _ => none
  | .node node (.node left leftLeft leftRight) right =>
    -- node.left <- left.right; node.update()
    let node := node.update leftRight right
    -- left.right <- node; left.update()
    let lowered := NodeRef.node node leftRight right
    some (.node (left.update leftLeft lowered) leftLeft lowered)

def rotateLeft : NodeRef K V → Option (NodeRef K V)
  | .nil => none
  | .node _ _ .nil => none
  | .node node left (.node right rightLeft rightRight) =>
    -- node.right <- right.left; node.update()
    let node := node.update left rightLeft
    -- right.left <- node; right.update()
    let lowered := NodeRef.node node left rightLeft
    some (.node (right.update lowered rightRight) lowered rightRight)

def balanceNode : NodeRef K V → Option (NodeRef K V)
  | .nil => none
  | .node n left right =>
    if balanceFactor left right ≥ 2 then
      match left with
      | .nil => none
      | .node l ll lr =>
        if balanceFactor ll lr < 1 then
          (rotateLeft (.node l ll lr)).bind fun left => rotateRight (.node n left right)
        else rotateRight (.node n (.node l ll lr) right)
    else if balanceFactor left right ≤ -2 then
      match right with
      | .nil => none
      | .node r rl rr =>
        if balanceFactor rl rr > -1 then
          (rotateRight (.node r rl rr)).bind fun right => rotateLeft (.node n left right)
        else rotateLeft (.node n left (.node r rl rr))
    else some (.node n left right)

/-- `node.update(); Self::balance_node(node_ref)`, the tail of every recursive descent. -/
def updateBalance (n : AvlNode K V) (left right : NodeRef K V) : Option (NodeRef K V) :=
  balanceNode (.node (n.update left right) left right)

/-! ## Insertion -/

/-- `insert_rec`: the value replaced, and the subtree with the pair in it. -/
def insertRec (key : K) (value : V) : NodeRef K V → Option (Option V × NodeRef K V)
  | .nil => some (none, asNodeRef key value)
  | .node n left right =>
    match compare n.key key with
    | .gt =>
      (insertRec key value left).bind fun (old, left) =>
        (updateBalance n left right).map fun t => (old, t)
    | .lt =>
      (insertRec key value right).bind fun (old, right) =>
        (updateBalance n left right).map fun t => (old, t)
    | .eq =>
      let (old, n) := n.setValue value
      (updateBalance n left right).map fun t => (some old, t)

/-! ## Removal -/

/-- `remove_leftmost`: the detached leftmost node, and the subtree without it. -/
def removeLeftmost : NodeRef K V → Option (NodeRef K V × NodeRef K V)
  | .nil => some (.nil, .nil)
  | .node n .nil right => some (.node n .nil .nil, right)
  | .node n (.node l ll lr) right =>
    (removeLeftmost (.node l ll lr)).bind fun (removed, left) =>
      (updateBalance n left right).map fun t => (removed, t)

/-- `remove_rightmost`: the detached rightmost node, and the subtree without it. -/
def removeRightmost : NodeRef K V → Option (NodeRef K V × NodeRef K V)
  | .nil => some (.nil, .nil)
  | .node n left .nil => some (.node n .nil .nil, left)
  | .node n left (.node r rl rr) =>
    (removeRightmost (.node r rl rr)).bind fun (removed, right) =>
      (updateBalance n left right).map fun t => (removed, t)

/-- The substitute `remove_root` chooses, beside the removed root as its children are left. -/
def removeRootSubstitute (n : AvlNode K V) (left right : NodeRef K V) :
    Option (NodeRef K V × NodeRef K V) :=
  if right.isNone then some (left, .node n .nil right)
  else if left.isNone then some (right, .node n left .nil)
  else if balanceFactor left right ≤ 0 then
    (removeLeftmost right).map fun (leftmost, right) =>
      match leftmost with
      | .node m _ _ => (.node m left right, .node n .nil .nil)
      | .nil => (.nil, .node n left right)
  else
    (removeRightmost left).map fun (rightmost, left) =>
      match rightmost with
      | .node m _ _ => (.node m left right, .node n .nil .nil)
      | .nil => (.nil, .node n left right)

/-- `remove_root`: the removed root, and what replaces it. -/
def removeRoot : NodeRef K V → Option (NodeRef K V × NodeRef K V)
  | .nil => some (.nil, .nil)
  | .node n left right =>
    (removeRootSubstitute n left right).bind fun (substitute, removed) =>
      match substitute with
      | .nil => some (removed, .nil)
      | .node m l r => (updateBalance m l r).map fun t => (removed, t)

/-- The last step of `remove_rec`: nothing to refresh when nothing was removed. -/
def removeUpdate (removed : NodeRef K V) : NodeRef K V → Option (NodeRef K V × NodeRef K V)
  | .nil => some (removed, .nil)
  | .node n left right =>
    if removed.isNone then some (removed, .node n left right)
    else (updateBalance n left right).map fun t => (removed, t)

/-- `remove_rec`: the removed node (if the key is there), and the subtree without it. -/
def removeRec (key : K) : NodeRef K V → Option (NodeRef K V × NodeRef K V)
  | .nil => some (.nil, .nil)
  | .node n left right =>
    match compare n.key key with
    | .gt =>
      (removeRec key left).bind fun (removed, left) => removeUpdate removed (.node n left right)
    | .lt =>
      (removeRec key right).bind fun (removed, right) => removeUpdate removed (.node n left right)
    | .eq =>
      (removeRoot (.node n left right)).bind fun (removed, t) => removeUpdate removed t

end Write

/-! ## The public interface -/

/-- `.map(|node| node.value)`. -/
def NodeRef.value? : NodeRef K V → Option V
  | .nil => none
  | .node n _ _ => some n.value

namespace AvlTree

def new : AvlTree K V := ⟨.nil⟩

def rootHash (self : AvlTree K V) : Option Hash :=
  match self.root with
  | .nil => none
  | .node n _ _ => some n.merkleHash

def get (self : AvlTree K V) (key : K) : Option V := getRec key self.root

def getKeys (self : AvlTree K V) : List K := getKeysRec self.root []

variable [Sha256] [AsBytes K] [Borrow V]

def insert (self : AvlTree K V) (key : K) (value : V) : Option (Option V × AvlTree K V) :=
  (insertRec key value self.root).map fun (old, root) => (old, ⟨root⟩)

def remove (self : AvlTree K V) (key : K) : Option (Option V × AvlTree K V) :=
  (removeRec key self.root).map fun (removed, root) => (removed.value?, ⟨root⟩)

end AvlTree

inductive TreeOp (K V : Type*) where
  | insert (key : K) (value : V)
  | remove (key : K)

/-- The call on the tree: what it returns, and the tree afterwards; `none` is a panic. -/
def AvlTree.exec [Sha256] [AsBytes K] [Borrow V] (self : AvlTree K V) :
    TreeOp K V → Option (Option V × AvlTree K V)
  | .insert key value => self.insert key value
  | .remove key => self.remove key

end Basecoin.Avl
