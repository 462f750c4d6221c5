import Basecoin.Store.InMemory
import Basecoin.Lib.Run

/-!
# `PrunedVec` is an append-only sequence with a lower bound

Every index of the vector is shifted by what was pruned: `get` subtracts it and answers `None` below
it, `prune` drains up to it and keeps it as the new shift. So the vector stands for all that was
ever pushed, of which what lies below the bound is not read (`Holds`). A `prune` beyond the end is
a range `drain` does not have, and panics; that is the one call that does not keep this
(`behaves_iff`).

The bound is exclusive: what was pruned up to an index is gone below it, and the element at the index
itself is still read. A `prune` to an index that lies below the bound already does nothing.
-/

namespace Basecoin

open Lib

/-- A call on a `PrunedVec`. -/
inductive VecOp (T : Type*) where
  | push (value : T)
  | prune (index : Nat)
deriving DecidableEq

variable {T : Type*}

def VecOp.pushed? : VecOp T → Option T
  | push value => some value
  | prune _ => none

/-- What the calls push, in order. -/
def pushed (ops : List (VecOp T)) : List T := ops.filterMap VecOp.pushed?

theorem pushed_append (ops ops' : List (VecOp T)) : pushed (ops ++ ops') = pushed ops ++ pushed ops' :=
  List.filterMap_append

namespace PrunedVec

/-- One call; `none` is a panic. -/
def exec (self : PrunedVec T) : VecOp T → Option (Unit × PrunedVec T)
  | .push value => some ((), self.push value)
  | .prune index => (self.prune index).map fun self => ((), self)

/-- The vector holds what was pushed from its bound on. -/
structure Holds (ops : List (VecOp T)) (v : PrunedVec T) : Prop where
  vec : v.vec = (pushed ops).drop v.pruned
  pruned_le : v.pruned ≤ (pushed ops).length

variable {ops : List (VecOp T)} {self self' : PrunedVec T}

theorem holds_default : Holds [] (default : PrunedVec T) := ⟨rfl, Nat.le_refl 0⟩

theorem Holds.originalLength_eq (h : Holds ops self) :
    self.originalLength = (pushed ops).length := by
  rw [originalLength, currentLength, prunedLength, h.vec, List.length_drop]
  exact Nat.sub_add_cancel h.pruned_le

theorem Holds.get_eq (h : Holds ops self) (j : Nat) :
    self.get j = if self.prunedLength ≤ j then (pushed ops)[j]? else none := by
  rw [get, prunedLength, h.vec, List.getElem?_drop]
  by_cases hj : j < self.pruned
  · rw [if_pos hj, if_neg (Nat.not_le_of_lt hj)]
  · have hle : self.pruned ≤ j := Nat.le_of_not_lt hj
    rw [if_neg hj, if_pos hle, Nat.add_sub_cancel' hle]

/-- One call. -/
theorem Holds.exec {op : VecOp T} {u : Unit} (h : Holds ops self)
    (hrun : self.exec op = some (u, self')) : Holds (ops ++ [op]) self' := by
  cases op with
  | push value =>
    obtain ⟨-, rfl⟩ := Prod.mk.inj (Option.some.inj hrun)
    have hpushed : pushed (ops ++ [.push value]) = pushed ops ++ [value] := pushed_append _ _
    refine ⟨?_, ?_⟩
    · rw [hpushed, push, List.drop_append_of_le_length h.pruned_le, h.vec]
    · rw [hpushed, List.length_append]
      exact Nat.le_add_right_of_le h.pruned_le
  | prune index =>
    obtain ⟨v, hprune, heq⟩ := Option.map_eq_some_iff.mp hrun
    obtain ⟨-, rfl⟩ := Prod.mk.inj heq
    have hpushed : pushed (ops ++ [.prune index]) = pushed ops :=
      (pushed_append _ _).trans (List.append_nil _)
    rw [prune_eq, h.originalLength_eq] at hprune
    split at hprune
    · next hle =>
      obtain rfl := Option.some.inj hprune
      refine ⟨?_, ?_⟩
      · dsimp only
        rw [hpushed, h.vec, List.drop_drop]
        congr 1
        omega
      · rw [hpushed]
        exact max_le h.pruned_le hle
    · cases hprune

theorem isSome_exec_iff (h : Holds ops self) (op : VecOp T) :
    (self.exec op).isSome ↔ ∀ index, op = .prune index → index ≤ (pushed ops).length := by
  cases op with
  | push value =>
    refine iff_of_true rfl fun index heq => ?_
    cases heq
  | prune index =>
    rw [exec, Option.isSome_map, prune_eq, h.originalLength_eq]
    constructor
    · intro hsome index' heq
      obtain rfl := VecOp.prune.inj heq
      by_contra hbeyond
      rw [if_neg hbeyond] at hsome
      cases hsome
    · intro hle
      rw [if_pos (hle index rfl)]
      rfl

/-- No call prunes beyond the end. -/
def PrunesInside (ops : List (VecOp T)) : Prop :=
  ∀ before index after, ops = before ++ .prune index :: after → index ≤ (pushed before).length

/-- The calls return, and leave this vector. -/
def Leaves (ops : List (VecOp T)) (self : PrunedVec T) : Prop :=
  ∃ units, runSteps exec default ops = some (units, self)

theorem holds_of_leaves (h : Leaves ops self) : Holds ops self := by
  obtain ⟨units, hrun⟩ := h
  have hholds : Holds ([] ++ ops) self :=
    runSteps_history (fun _ _ _ _ _ hs hstep => hs.exec hstep) holds_default hrun
  rwa [List.nil_append] at hholds

theorem exists_leaves_iff : (∃ self, Leaves ops self) ↔ PrunesInside ops := by
  have hstep : ∀ (before : List (VecOp T)) v op (u : Unit) v', Holds before v →
      v.exec op = some (u, v') → Holds (before ++ [op]) v' :=
    fun _ _ _ _ _ hs hexec => hs.exec hexec
  have hiff : ∀ (before : List (VecOp T)) v op, Holds before v → ((v.exec op).isSome ↔
      ∀ index, op = .prune index → index ≤ (pushed before).length) :=
    fun _ _ op hs => isSome_exec_iff hs op
  have hsome : (runSteps exec (default : PrunedVec T) ops).isSome ↔ _ :=
    runSteps_isSome_iff hstep hiff holds_default
  constructor
  · rintro ⟨self, units, hrun⟩ before index after hsplit
    exact hsome.mp (hrun ▸ rfl) before _ after hsplit index rfl
  · intro h
    obtain ⟨⟨units, self⟩, hrun⟩ := Option.isSome_iff_exists.mp (hsome.mpr
      fun before op after hsplit index heq => h before index after (heq ▸ hsplit))
    exact ⟨self, units, hrun⟩

/-- The bound does not fall; after a `prune` nothing below its index is read, and one at or below
the bound does nothing. -/
structure Advances (v v' : PrunedVec T) (op : VecOp T) : Prop where
  bound : v.prunedLength ≤ v'.prunedLength
  hidden : ∀ index, op = .prune index → ∀ j < index, v'.get j = none
  idle : ∀ index, op = .prune index → index ≤ v.prunedLength → v' = v

theorem advances_exec {op : VecOp T} {u : Unit} (hrun : self.exec op = some (u, self')) :
    Advances self self' op := by
  cases op with
  | push value =>
    obtain ⟨-, rfl⟩ := Prod.mk.inj (Option.some.inj hrun)
    refine ⟨Nat.le_refl _, fun index heq => ?_, fun index heq => ?_⟩
    · cases heq
    · cases heq
  | prune index =>
    obtain ⟨v, hprune, heq⟩ := Option.map_eq_some_iff.mp hrun
    obtain ⟨-, rfl⟩ := Prod.mk.inj heq
    refine ⟨?_, fun index' heq j hj => ?_, fun index' heq hle => ?_⟩
    · rw [prune_eq] at hprune
      split at hprune
      · obtain rfl := Option.some.inj hprune
        exact le_max_left _ _
      · cases hprune
    · obtain rfl := VecOp.prune.inj heq
      rw [prune_eq] at hprune
      split at hprune
      · obtain rfl := Option.some.inj hprune
        exact if_pos (lt_of_lt_of_le hj (le_max_right _ _))
      · cases hprune
    · obtain rfl := VecOp.prune.inj heq
      rw [prunedLength] at hle
      rw [prune, if_neg (Nat.not_lt_of_le hle)] at hprune
      exact (Option.some.inj hprune).symm

/-- **When a `PrunedVec` is an append-only sequence with a lower bound.** For every list of calls
on an empty vector: no call panics, the vector left by them reads each element that was pushed from
the bound on and nothing else, its length is the number of pushes, and each call advances it, if
and only if no call prunes beyond the end. -/
theorem behaves_iff (ops : List (VecOp T)) :
    (∃ self, Leaves ops self ∧
      self.originalLength = (pushed ops).length ∧
      self.prunedLength ≤ self.originalLength ∧
      (∀ j, self.get j = if self.prunedLength ≤ j ∧ j < self.originalLength
        then (pushed ops)[j]? else none) ∧
      ∀ before op after, ops = before ++ op :: after → ∃ self₁ self₂,
        Leaves before self₁ ∧ self₁.exec op = some ((), self₂) ∧ Advances self₁ self₂ op) ↔
      PrunesInside ops := by
  constructor
  · rintro ⟨self, hleaves, -⟩
    exact exists_leaves_iff.mp ⟨self, hleaves⟩
  · intro hinside
    obtain ⟨self, hleaves⟩ := exists_leaves_iff.mpr hinside
    have hholds := holds_of_leaves hleaves
    refine ⟨self, hleaves, hholds.originalLength_eq, ?_, fun j => ?_, ?_⟩
    · rw [hholds.originalLength_eq]
      exact hholds.pruned_le
    · rw [hholds.get_eq, hholds.originalLength_eq]
      by_cases hj : j < (pushed ops).length
      · exact if_congr (and_iff_left hj).symm rfl rfl
      · rw [List.getElem?_eq_none (Nat.le_of_not_lt hj), ite_self, ite_self]
    · rintro before op after rfl
      obtain ⟨units, hrun⟩ := hleaves
      obtain ⟨self₁, units₁, _, hbefore, hafter, -⟩ := runSteps_append.mp hrun
      obtain ⟨_, self₂, _, hop, -, -⟩ := runSteps_cons.mp hafter
      exact ⟨self₁, self₂, ⟨units₁, hbefore⟩, hop, advances_exec hop⟩

/-- An empty vector, pruned at 1, panics; so does the store around it. -/
theorem prune_beyond_panics :
    letI := Sha256.ones
    ¬ PrunesInside [(.prune 1 : VecOp Nat)] ∧ (default : PrunedVec Nat).prune 1 = none ∧
      InMemoryStore.default.prune 1 = none := by
  refine ⟨fun h => ?_, rfl, rfl⟩
  exact absurd (h [] 1 [] rfl) (by decide)

end PrunedVec

end Basecoin
