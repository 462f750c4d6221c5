import Basecoin.Lib.Run
import Basecoin.Store.InMemory

/-!
# `context.rs`, `impls/shared.rs`

The trait `Store` has bodies of its own for `apply`, `reset` and `prune`. `SharedStore` forwards
each method to the store behind its lock, but for `prune`, which it leaves to the trait: so it
answers the height and prunes nothing. It behaves as the store it shares as long as that store
would prune nothing either (`runSteps_shared_iff`).

A trait is a structure of its methods, whose defaults are the bodies the trait gives, so that a
method which an implementation leaves out is left out here too. The stores of a program are cells,
and a shared store is the address of one: a clone of it is the same address, and what is written
through the one is read through the other. For the in-memory store it can be said what "nothing to
prune" comes to, which is a bound on the height (`prunesNothing_iff`).
-/

namespace Basecoin

open Lib

/-! ## `trait Store` -/

/-- `trait Store`, for a type of stores `S`: a method that takes `&mut self` leaves a store, `none`
is a panic, and the bodies the trait gives are the defaults. -/
structure Store (S Error : Type*) where
  set : S → Path → Bytes → Option (Except Error (Option Bytes) × S)
  get : S → Height → Path → Option (Option Bytes)
  delete : S → Path → Option S
  commit : S → Option (Except Error Bytes × S)
  apply : S → Option (Except Error Unit × S) := fun self => some (.ok (), self)
  reset : S → Option S := fun self => some self
  prune : S → RawHeight → Option (Except Error RawHeight × S) := fun self height =>
    some (.ok height, self)
  currentHeight : S → Option RawHeight
  getKeys : S → Path → Option (List Path)

namespace Store

variable {S Error : Type*}

/-- A call of a method. -/
inductive Call where
  | set (path : Path) (value : Bytes)
  | get (height : Height) (path : Path)
  | delete (path : Path)
  | commit
  | apply
  | reset
  | prune (height : RawHeight)
  | currentHeight
  | getKeys (keyPrefix : Path)

/-- What a call returns. -/
inductive Answer (Error : Type*) where
  | set (result : Except Error (Option Bytes))
  | get (value : Option Bytes)
  | commit (result : Except Error Bytes)
  | apply (result : Except Error Unit)
  | prune (result : Except Error RawHeight)
  | currentHeight (height : RawHeight)
  | getKeys (keys : List Path)
  | unit

def call (store : Store S Error) (self : S) : Call → Option (Answer Error × S)
  | .set path value => (store.set self path value).map (Prod.map .set id)
  | .get height path => (store.get self height path).map fun value => (.get value, self)
  | .delete path => (store.delete self path).map fun self => (.unit, self)
  | .commit => (store.commit self).map (Prod.map .commit id)
  | .apply => (store.apply self).map (Prod.map .apply id)
  | .reset => (store.reset self).map fun self => (.unit, self)
  | .prune height => (store.prune self height).map (Prod.map .prune id)
  | .currentHeight => (store.currentHeight self).map fun height => (.currentHeight height, self)
  | .getKeys keyPrefix => (store.getKeys self keyPrefix).map fun keys => (.getKeys keys, self)

/-- A call that prunes finds nothing to prune. -/
def PrunesNothing (store : Store S Error) (self : S) : Call → Prop
  | .prune height => store.prune self height = some (.ok height, self)
  | _ => True

end Store

/-! ## `SharedStore` -/

/-- What the locks of the program hold: a store at each address. -/
abbrev Cells (S : Type*) := Nat → S

/-- `SharedStore<S>`: the address behind the `Arc`. A clone has the same one. -/
structure SharedStore (S : Type*) where
  cell : Nat

namespace SharedStore

variable {S Error α : Type*}

/-- A method that reads, under `read_access`. -/
def readAccess (self : SharedStore S) (cells : Cells S) (f : S → Option α) : Option α :=
  f (cells self.cell)

/-- A method that writes, under `write_access`. -/
def writeAccess (self : SharedStore S) (cells : Cells S) (f : S → Option (α × S)) :
    Option (α × Cells S) :=
  (f (cells self.cell)).map fun r => (r.1, Function.update cells self.cell r.2)

/-- The same, for a method that returns nothing. -/
def writeAccessUnit (self : SharedStore S) (cells : Cells S) (f : S → Option S) :
    Option (Cells S) :=
  (f (cells self.cell)).map fun s => Function.update cells self.cell s

/-- `impl Store for SharedStore<S>`; it has no `prune`. -/
def store (self : SharedStore S) (inner : Store S Error) : Store (Cells S) Error where
  set cells path value := self.writeAccess cells fun s => inner.set s path value
  get cells height path := self.readAccess cells fun s => inner.get s height path
  delete cells path := self.writeAccessUnit cells fun s => inner.delete s path
  commit cells := self.writeAccess cells inner.commit
  apply cells := self.writeAccess cells inner.apply
  reset cells := self.writeAccessUnit cells inner.reset
  currentHeight cells := self.readAccess cells inner.currentHeight
  getKeys cells keyPrefix := self.readAccess cells fun s => inner.getKeys s keyPrefix

/-! ## Against the store behind the lock -/

variable (self : SharedStore S) (inner : Store S Error) (cells : Cells S)

theorem writeAccess_cell (wrap : α → Store.Answer Error) (f : S → Option (α × S)) :
    ((self.writeAccess cells f).map (Prod.map wrap id)).map (Prod.map id fun c => c self.cell) =
      (f (cells self.cell)).map (Prod.map wrap id) := by
  rw [writeAccess]
  cases f (cells self.cell) with
  | none => rfl
  | some r =>
    rw [Option.map_some, Option.map_some, Option.map_some, Option.map_some, Prod.map, Prod.map]
    exact congrArg (fun s => some (wrap r.1, s)) (Function.update_self ..)

theorem writeAccessUnit_cell (f : S → Option S) :
    ((self.writeAccessUnit cells f).map fun c => ((.unit, c) : Store.Answer Error × Cells S)).map
        (Prod.map id fun c => c self.cell) =
      (f (cells self.cell)).map fun s => (.unit, s) := by
  rw [writeAccessUnit]
  cases f (cells self.cell) with
  | none => rfl
  | some s => exact congrArg (fun s => some (Store.Answer.unit, s)) (Function.update_self ..)

theorem readAccess_cell (wrap : α → Store.Answer Error) (f : S → Option α) :
    ((self.readAccess cells f).map fun a => (wrap a, cells)).map
        (Prod.map id fun c => c self.cell) =
      (f (cells self.cell)).map fun a => (wrap a, cells self.cell) := by
  rw [readAccess, Option.map_map]
  rfl

/-- A call answers and leaves what it does on the store behind the lock, unless it prunes something
there. -/
theorem call_cell_iff (c : Store.Call) :
    ((self.store inner).call cells c).map (Prod.map id fun cells => cells self.cell) =
      inner.call (cells self.cell) c ↔ inner.PrunesNothing (cells self.cell) c := by
  cases c with
  | prune height =>
    show some (Store.Answer.prune (.ok height), cells self.cell) = _ ↔ _
    rw [Store.call, Store.PrunesNothing]
    cases inner.prune (cells self.cell) height with
    | none => simp
    | some r =>
      obtain ⟨result, s⟩ := r
      simp only [Option.map_some, Prod.map, id, Option.some.injEq, Prod.mk.injEq,
        Store.Answer.prune.injEq]
      exact and_congr eq_comm eq_comm
  | set path value =>
    exact iff_of_true (self.writeAccess_cell cells .set fun s => inner.set s path value) trivial
  | get height path =>
    exact iff_of_true (self.readAccess_cell cells .get fun s => inner.get s height path) trivial
  | delete path =>
    exact iff_of_true (self.writeAccessUnit_cell cells fun s => inner.delete s path) trivial
  | commit => exact iff_of_true (self.writeAccess_cell cells .commit inner.commit) trivial
  | apply => exact iff_of_true (self.writeAccess_cell cells .apply inner.apply) trivial
  | reset => exact iff_of_true (self.writeAccessUnit_cell cells inner.reset) trivial
  | currentHeight =>
    exact iff_of_true (self.readAccess_cell cells .currentHeight inner.currentHeight) trivial
  | getKeys keyPrefix =>
    exact iff_of_true (self.readAccess_cell cells .getKeys fun s => inner.getKeys s keyPrefix) trivial

/-- So do runs, at every point of them. -/
theorem runSteps_shared_iff (calls : List Store.Call) :
    (∀ before after, calls = before ++ after →
      (runSteps (self.store inner).call cells before).map (Prod.map id fun cells => cells self.cell) =
        runSteps inner.call (cells self.cell) before) ↔
      Along inner.call inner.PrunesNothing (cells self.cell) calls :=
  runSteps_map_iff (f := fun cells : Cells S => cells self.cell)
    fun cells c => self.call_cell_iff inner cells c

end SharedStore

/-! ## An `InMemoryStore` behind the lock -/

section InMemory

variable [Sha256]

namespace InMemoryStore

/-- `impl Store for InMemoryStore`. -/
def asStore : Store InMemoryStore Empty where
  set self path value := some (.ok (self.set path value).1, (self.set path value).2)
  get self height path := some (self.get height path)
  delete self path := some (self.delete path)
  commit self := some (.ok self.commit.1, self.commit.2)
  apply self := some (.ok (), self.apply)
  reset self := some self.reset
  prune self height := (self.prune height).map fun r => (.ok r.1, r.2)
  currentHeight self := some self.currentHeight
  getKeys self keyPrefix := some (self.getKeys keyPrefix)

/-- There is a state for the height, which `get` reads. -/
def Readable (self : InMemoryStore) (height : RawHeight) : Prop :=
  (self.getState (.stable height)).isSome

variable {s : InMemoryStore} {h : RawHeight}

theorem readable_iff {k : RawHeight} :
    s.Readable k ↔ s.store.prunedLength < k ∧ k ≤ s.currentHeight := by
  unfold Readable getState currentHeight PrunedVec.get PrunedVec.originalLength
    PrunedVec.currentLength PrunedVec.prunedLength
  dsimp only
  by_cases hzero : k = 0
  · rw [if_pos hzero, hzero]
    simp
  · rw [if_neg hzero]
    by_cases hpruned : k - 1 < s.store.pruned
    · rw [if_pos hpruned]
      grind
    · rw [if_neg hpruned, getElem?_def]
      grind

/-- Up to a height that was committed, no state is left exactly if all were pruned. -/
theorem unreadable_iff (hle : h ≤ s.currentHeight) :
    (∀ k ≤ h, ¬ s.Readable k) ↔ h ≤ s.store.prunedLength := by
  constructor
  · intro hnone
    refine Nat.le_of_not_lt fun hlt => ?_
    exact hnone h (Nat.le_refl h) (readable_iff.mpr ⟨hlt, hle⟩)
  · intro hpruned k hk hreadable
    exact absurd (readable_iff.mp hreadable).1 (Nat.not_lt_of_le (hk.trans hpruned))

theorem prunesNothing_iff : asStore.PrunesNothing s (.prune h) ↔ h ≤ s.store.prunedLength := by
  unfold Store.PrunesNothing asStore prune PrunedVec.prune PrunedVec.prunedLength
  dsimp only
  by_cases hgt : h > s.store.pruned
  · refine iff_of_false (fun heq => ?_) (Nat.not_le_of_lt hgt)
    rw [if_pos hgt] at heq
    by_cases hlen : h - s.store.pruned ≤ s.store.vec.length
    · rw [if_pos hlen] at heq
      have hpruned := congrArg (fun s => s.store.pruned) (Prod.mk.inj (Option.some.inj heq)).2
      exact absurd hpruned (Nat.ne_of_gt hgt)
    · rw [if_neg hlen] at heq
      cases heq
  · rw [if_neg hgt]
    exact iff_of_true rfl (Nat.le_of_not_lt hgt)

theorem prunedLength_call {s' : InMemoryStore} {c : Store.Call} {answer : Store.Answer Empty}
    (hnothing : asStore.PrunesNothing s c) (hcall : asStore.call s c = some (answer, s')) :
    s'.store.prunedLength = s.store.prunedLength := by
  cases c with
  | prune height =>
    have hprune : asStore.prune s height = some (.ok height, s) := hnothing
    rw [Store.call, hprune] at hcall
    obtain ⟨-, rfl⟩ := Prod.mk.inj (Option.some.inj hcall)
    rfl
  | _ =>
    obtain ⟨-, rfl⟩ := Prod.mk.inj (Option.some.inj hcall)
    rfl

end InMemoryStore

/-- Nothing is ever pruned through the lock. -/
theorem SharedStore.prunedLength_call (self : SharedStore InMemoryStore)
    {cells cells' : Cells InMemoryStore} {c : Store.Call} {answer : Store.Answer Empty}
    (h : (self.store InMemoryStore.asStore).call cells c = some (answer, cells')) :
    (cells' self.cell).store.prunedLength = (cells self.cell).store.prunedLength := by
  by_cases hnothing : InMemoryStore.asStore.PrunesNothing (cells self.cell) c
  · have hcall := (self.call_cell_iff InMemoryStore.asStore cells c).mpr hnothing
    rw [h] at hcall
    exact InMemoryStore.prunedLength_call hnothing hcall.symm
  · cases c with
    | prune height =>
      obtain ⟨-, rfl⟩ := Prod.mk.inj (Option.some.inj h)
      rfl
    | _ => exact absurd trivial hnothing

/-- **When sharing a store does not change it.** At every point of a list of calls, a shared store
has answered and its lock holds what the store itself would have answered and become, exactly if
that store had nothing to prune at any `prune` of the list. An `InMemoryStore` has nothing to prune
up to a height exactly if that much was pruned before. And after any calls on a shared one, a
`prune` to a committed height answers that height; nothing up to it is readable then exactly if that
much was pruned before the store was shared. -/
theorem shared_iff {S Error : Type*} (inner : Store S Error) (shared : SharedStore S)
    (cells : Cells S) (calls : List Store.Call) :
    ((∀ before after, calls = before ++ after →
      (runSteps (shared.store inner).call cells before).map
          (Prod.map id fun cells => cells shared.cell) =
        runSteps inner.call (cells shared.cell) before) ↔
      Along inner.call inner.PrunesNothing (cells shared.cell) calls) ∧
    (∀ (s : InMemoryStore) (h : RawHeight),
      InMemoryStore.asStore.PrunesNothing s (.prune h) ↔ h ≤ s.store.prunedLength) ∧
    ∀ (shared : SharedStore InMemoryStore) (cells cells' : Cells InMemoryStore)
      (calls : List Store.Call) (answers : List (Store.Answer Empty)) (h : RawHeight),
      runSteps (shared.store InMemoryStore.asStore).call cells calls = some (answers, cells') →
      h ≤ (cells' shared.cell).currentHeight →
        ∃ cells'', (shared.store InMemoryStore.asStore).prune cells' h = some (.ok h, cells'') ∧
          ((∀ k ≤ h, ¬ (cells'' shared.cell).Readable k) ↔
            h ≤ (cells shared.cell).store.prunedLength) := by
  refine ⟨shared.runSteps_shared_iff inner cells calls,
    fun s h => InMemoryStore.prunesNothing_iff, ?_⟩
  intro shared cells cells' calls answers h hrun hle
  have hpruned : (cells' shared.cell).store.prunedLength =
      (cells shared.cell).store.prunedLength := by
    have hstep : ∀ (c : Cells InMemoryStore) call answer c',
        (c shared.cell).store.prunedLength = (cells shared.cell).store.prunedLength →
        (shared.store InMemoryStore.asStore).call c call = some (answer, c') →
        (c' shared.cell).store.prunedLength = (cells shared.cell).store.prunedLength :=
      fun c call answer c' hc hcall => (shared.prunedLength_call hcall).trans hc
    exact runSteps_invariant hstep rfl hrun
  refine ⟨cells', rfl, ?_⟩
  rw [InMemoryStore.unreadable_iff hle, hpruned]

omit [Sha256] in
/-- A write, a commit and its pruning: the shared store answers the height, and still reads it. -/
theorem shared_prune_reads :
    letI := Sha256.ones
    let path := Path.ofString "a"
    let calls : List Store.Call := [.set path [7], .commit, .prune 1, .get (.stable 1) path]
    let shared : SharedStore InMemoryStore := ⟨0⟩
    let replies := fun (r : List (Store.Answer Empty) × Cells InMemoryStore) => r.1.drop 2
    ((runSteps (shared.store InMemoryStore.asStore).call (fun _ => InMemoryStore.default) calls).map
        replies = some [.prune (.ok 1), .get (some [7])]) ∧
      (runSteps InMemoryStore.asStore.call InMemoryStore.default calls).map
        (fun r => r.1.drop 2) = some [.prune (.ok 1), .get none] := by
  refine ⟨rfl, rfl⟩

end InMemory

end Basecoin
