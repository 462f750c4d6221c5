import Basecoin.Store.Path
import Basecoin.Store.Avl.ProofSound

/-!
# `impls/in_memory.rs`

A `State` is an AVL tree from paths to bytes. Every tree a store ever holds comes from
`AvlTree::new` by `insert` and `remove`, so the type carries the invariant those keep and the
two operations are total on it: no panic of the tree is reachable from a store. `Infallible` is
the store's error type; a `Result` over it is its `Ok`.

A store is three copies: `pending` is written, `apply` makes it `staged`, `reset` goes back to what
is staged, and `commit` pushes a copy onto the vector. Heights count commits from 1, and the states
of heights that were pruned are gone from the vector while the count goes on, which is what
`PrunedVec` keeps track of. The one panic that is left is its `drain`, at a height beyond the last
(`PrunedVec.prune_eq`).
-/

namespace Basecoin

open Avl Ics23 Lib

variable [Sha256]

/-! ## `State` -/

/-- `State = AvlTree<Path, Vec<u8>>`, with what every reachable tree satisfies. -/
structure State where
  tree : AvlTree Path Bytes
  valid : tree.Valid

namespace State

@[ext] theorem ext {s t : State} (h : s.tree = t.tree) : s = t := by
  cases s
  cases t
  subst h
  rfl

def new : State := ⟨AvlTree.new, AvlTree.valid_new⟩

def get (s : State) (path : Path) : Option Bytes := s.tree.get path

def getKeys (s : State) : List Path := s.tree.getKeys

def rootHash (s : State) : Option Hash := s.tree.rootHash

theorem isSome_insert (s : State) (path : Path) (value : Bytes) :
    (s.tree.insert path value).isSome := by
  obtain ⟨t, ht, _⟩ := s.valid.insert path value
  rw [ht, Option.isSome_some]

theorem isSome_remove (s : State) (path : Path) : (s.tree.remove path).isSome := by
  obtain ⟨t, ht, _⟩ := s.valid.remove path
  rw [ht, Option.isSome_some]

theorem isSome_getProof (s : State) (path : Path) : (s.tree.getProof path).isSome := by
  rw [s.valid.getProof_eq path, Option.isSome_some]

theorem valid_insert (s : State) (path : Path) (value : Bytes) :
    ((s.tree.insert path value).get (s.isSome_insert path value)).2.Valid := by
  obtain ⟨t, ht, hv, _⟩ := s.valid.insert path value
  simp only [ht, Option.get_some]
  exact hv

theorem valid_remove (s : State) (path : Path) :
    ((s.tree.remove path).get (s.isSome_remove path)).2.Valid := by
  obtain ⟨t, ht, hv, _⟩ := s.valid.remove path
  simp only [ht, Option.get_some]
  exact hv

/-- `insert`: the value replaced, and the state afterwards. -/
def insert (s : State) (path : Path) (value : Bytes) : Option Bytes × State :=
  (((s.tree.insert path value).get (s.isSome_insert path value)).1,
    ⟨((s.tree.insert path value).get (s.isSome_insert path value)).2, s.valid_insert path value⟩)

/-- `remove`; no caller reads the value it returns. -/
def remove (s : State) (path : Path) : State :=
  ⟨((s.tree.remove path).get (s.isSome_remove path)).2, s.valid_remove path⟩

def getProof (s : State) (path : Path) : CommitmentProof :=
  (s.tree.getProof path).get (s.isSome_getProof path)

@[simp] theorem get_new (path : Path) : (new : State).get path = none := rfl

@[simp] theorem insert_fst (s : State) (path : Path) (value : Bytes) :
    (s.insert path value).1 = s.get path := by
  obtain ⟨t, ht, _⟩ := s.valid.insert path value
  simp only [insert, ht, Option.get_some]
  rfl

@[simp] theorem get_insert (s : State) (path : Path) (value : Bytes) (p : Path) :
    (s.insert path value).2.get p = if p = path then some value else s.get p := by
  obtain ⟨t, ht, hv, hlist⟩ := s.valid.insert path value
  have htree : (s.insert path value).2.tree = t := by simp only [insert, ht, Option.get_some]
  rw [get, htree]
  exact s.valid.get_of_insert hv hlist p

@[simp] theorem get_remove (s : State) (path p : Path) :
    (s.remove path).get p = if p = path then none else s.get p := by
  obtain ⟨t, ht, hv, hlist⟩ := s.valid.remove path
  have htree : (s.remove path).tree = t := by simp only [remove, ht, Option.get_some]
  rw [get, htree]
  exact s.valid.get_of_erase hv hlist p

theorem getKeys_sorted (s : State) : s.getKeys.Pairwise (· < ·) := s.valid.getKeys_sorted

theorem mem_getKeys (s : State) {p : Path} : p ∈ s.getKeys ↔ s.get p ≠ none :=
  s.valid.mem_getKeys

end State

/-! ## `PrunedVec` -/

/-- `PrunedVec<T>`: the elements still held, and how many were given up. -/
structure PrunedVec (T : Type*) where
  vec : List T
  pruned : Nat

namespace PrunedVec

variable {T : Type*}

def default : PrunedVec T := ⟨[], 0⟩

def push (self : PrunedVec T) (value : T) : PrunedVec T :=
  { self with vec := self.vec ++ [value] }

def get (self : PrunedVec T) (index : Nat) : Option T :=
  -- `index.checked_sub(self.pruned)?`
  if index < self.pruned then none else self.vec[index - self.pruned]?

def last (self : PrunedVec T) : Option T := self.vec.getLast?

def currentLength (self : PrunedVec T) : Nat := self.vec.length

def prunedLength (self : PrunedVec T) : Nat := self.pruned

def originalLength (self : PrunedVec T) : Nat := self.currentLength + self.prunedLength

/-- `prune`; `none` when `drain` is given a range beyond the end. -/
def prune (self : PrunedVec T) (index : Nat) : Option (PrunedVec T) :=
  if index > self.pruned then
    if index - self.pruned ≤ self.vec.length then
      some { vec := self.vec.drop (index - self.pruned), pruned := index }
    else none
  else some self

omit [Sha256] in
/-- Both cases at once, where pruning does not reach past the end. -/
theorem prune_eq (self : PrunedVec T) (index : Nat) :
    self.prune index = if index ≤ self.originalLength then
      some { vec := self.vec.drop (index - self.pruned), pruned := max self.pruned index }
    else none := by
  unfold prune originalLength currentLength prunedLength
  by_cases hgt : index > self.pruned
  · have hreach : index - self.pruned ≤ self.vec.length ↔ index ≤ self.vec.length + self.pruned := by
      omega
    rw [if_pos hgt, max_eq_right (le_of_lt hgt)]
    exact if_congr hreach rfl rfl
  · have hle : index ≤ self.pruned := Nat.le_of_not_lt hgt
    rw [if_neg hgt, if_pos (Nat.le_add_left_of_le hle), Nat.sub_eq_zero_of_le hle, List.drop_zero,
      max_eq_left hle]

end PrunedVec

/-! ## `InMemoryStore` -/

structure InMemoryStore where
  store : PrunedVec State
  staged : State
  pending : State

namespace InMemoryStore

def default : InMemoryStore :=
  { store := PrunedVec.default, staged := State.new, pending := State.new }

def getState (self : InMemoryStore) : Height → Option State
  | .pending => some self.pending
  | .latest => self.store.last
  | .stable height => if height = 0 then none else self.store.get (height - 1)

def set (self : InMemoryStore) (path : Path) (value : Bytes) : Option Bytes × InMemoryStore :=
  ((self.pending.insert path value).1,
    { self with pending := (self.pending.insert path value).2 })

def get (self : InMemoryStore) (height : Height) (path : Path) : Option Bytes :=
  (self.getState height).bind fun v => v.get path

def delete (self : InMemoryStore) (path : Path) : InMemoryStore :=
  { self with pending := self.pending.remove path }

def apply (self : InMemoryStore) : InMemoryStore := { self with staged := self.pending }

def reset (self : InMemoryStore) : InMemoryStore := { self with pending := self.staged }

/-- `prune`; `none` when the vector's `drain` panics. -/
def prune (self : InMemoryStore) (height : RawHeight) : Option (RawHeight × InMemoryStore) :=
  (self.store.prune height).map fun store => (height, { self with store })

def currentHeight (self : InMemoryStore) : RawHeight := self.store.originalLength

def getKeys (self : InMemoryStore) (keyPrefix : Path) : List Path :=
  self.pending.getKeys.filter fun key => (asBytes keyPrefix).isPrefixOf (asBytes key)

/-- A root hash as bytes, zeroes for an absent one. -/
def rootBytes (root : Option Hash) : Bytes := (root.map Hash.bytes).getD (List.replicate 32 0)

def rootHash (self : InMemoryStore) : Bytes :=
  rootBytes ((self.getState .latest).bind State.rootHash)

/-- `commit`: apply, push the staged state, answer the new root hash. -/
def commit (self : InMemoryStore) : Bytes × InMemoryStore :=
  let self := self.apply
  let self := { self with store := self.store.push self.staged }
  (self.rootHash, self)

theorem commit_fst (s : InMemoryStore) : s.commit.1 = rootBytes s.pending.rootHash := by
  simp [commit, apply, rootHash, getState, PrunedVec.last, PrunedVec.push]

def getProof (self : InMemoryStore) (height : Height) (key : Path) : Option CommitmentProof :=
  (self.getState height).map fun v => v.getProof key

/-- The keys listed are the pending keys whose text extends the text of the argument. -/
theorem mem_getKeys (s : InMemoryStore) (q p : Path) :
    p ∈ s.getKeys q ↔ s.pending.get p ≠ none ∧ q.toString.toList <+: p.toString.toList := by
  rw [getKeys, List.mem_filter, State.mem_getKeys, List.isPrefixOf_iff_prefix, Path.asBytes_eq,
    Path.asBytes_eq, stringBytes_prefix_iff]

theorem getKeys_sorted (s : InMemoryStore) (keyPrefix : Path) :
    (s.getKeys keyPrefix).Pairwise (· < ·) := s.pending.getKeys_sorted.filter _

/-- Only the pending copy differs. -/
structure SameBase (s s' : InMemoryStore) : Prop where
  staged : s'.staged = s.staged
  store : s'.store = s.store

theorem SameBase.refl (s : InMemoryStore) : s.SameBase s := ⟨rfl, rfl⟩

theorem SameBase.trans {s t u : InMemoryStore} (h₁ : s.SameBase t)
    (h₂ : t.SameBase u) : s.SameBase u :=
  ⟨h₂.staged.trans h₁.staged, h₂.store.trans h₁.store⟩

end InMemoryStore

end Basecoin
