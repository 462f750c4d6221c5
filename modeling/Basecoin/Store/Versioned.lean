import Basecoin.Store.InMemory
import Basecoin.Lib.Versioned

/-!
# `InMemoryStore` is a versioned map with rollback

Two refinements, one above the other. Over whole trees the store is exactly the `Versioned`
machine of `Lib.Versioned` (`Refines.exec`): its three copies are the working, the saved and the
committed snapshots, the history being kept from the pruning offset on. Forgetting the shape of
the trees (`Versioned.map`) turns that machine into one over plain maps, because an edit of a
tree is an edit of the map it holds. `inMemoryStore_refines` reads the composition off through
the store's own queries.
-/

namespace Basecoin

open Avl Lib

/-! ## The operations of a run -/

/-- The two edits of the pending copy. -/
inductive PathEdit where
  | set (path : Path) (value : Bytes)
  | delete (path : Path)
deriving DecidableEq

def PathEdit.path : PathEdit → Path
  | set path _ => path
  | delete path => path

abbrev StoreOp := Change PathEdit

inductive StoreReply where
  | previous (value : Option Bytes)
  | root (hash : Bytes)
  | height (height : RawHeight)
  | done
deriving DecidableEq

def PathEdit.onMap (m : Path → Option Bytes) : PathEdit → Path → Option Bytes
  | .set path value => Function.update m path (some value)
  | .delete path => Function.update m path none

/-- `prune(h)` is only called with `h` at most the current height. -/
def PruneInRange {T : Type*} (v : Versioned T) : StoreOp → Prop
  | .prune h => h ≤ v.committed.length
  | _ => True

variable [Sha256]

def PathEdit.onState (s : State) : PathEdit → State
  | .set path value => (s.insert path value).2
  | .delete path => s.remove path

/-- The call on the store; `none` is a panic. -/
def InMemoryStore.exec (self : InMemoryStore) : StoreOp → Option (StoreReply × InMemoryStore)
  | .edit (.set path value) =>
    let (old, self) := self.set path value
    some (.previous old, self)
  | .edit (.delete path) => some (.done, self.delete path)
  | .apply => some (.done, self.apply)
  | .reset => some (.done, self.reset)
  | .commit =>
    let (root, self) := self.commit
    some (.root root, self)
  | .prune h => (self.prune h).map fun (h, self) => (.height h, self)

/-! ## Refinement over trees -/

/-- What the versioned tree answers to a call. -/
def treeReply (v : Versioned State) : StoreOp → StoreReply
  | .edit (.set path _) => .previous (v.working.get path)
  | .commit => .root (InMemoryStore.rootBytes v.working.rootHash)
  | .prune h => .height h
  | _ => .done

/-- The versioned tree as a machine with replies. -/
def treeStep (v : Versioned State) (op : StoreOp) : StoreReply × Versioned State :=
  (treeReply v op, v.change PathEdit.onState op)

/-- A store and the versioned tree it stands for: the history is kept from the offset on. -/
structure InMemoryStore.Refines (s : InMemoryStore) (v : Versioned State) : Prop where
  pending : s.pending = v.working
  staged : s.staged = v.saved
  vec : s.store.vec = v.committed.drop v.pruned
  pruned : s.store.pruned = v.pruned
  pruned_le : v.pruned ≤ v.committed.length

namespace InMemoryStore

variable {s : InMemoryStore} {v : Versioned State}

theorem refines_default : default.Refines (Versioned.init State.new) :=
  ⟨rfl, rfl, rfl, rfl, le_refl _⟩

theorem Refines.currentHeight_eq (h : s.Refines v) : s.currentHeight = v.committed.length := by
  simp only [currentHeight, PrunedVec.originalLength, PrunedVec.currentLength,
    PrunedVec.prunedLength, h.vec, h.pruned, List.length_drop]
  exact Nat.sub_add_cancel h.pruned_le

theorem Refines.getState_stable (h : s.Refines v) (k : Nat) :
    s.getState (.stable k) = v.atHeight k := by
  simp only [getState, PrunedVec.get, Versioned.atHeight, h.vec, h.pruned, List.getElem?_drop]
  by_cases hk : v.pruned < k
  · have h₀ : ¬ k = 0 := by omega
    have h₁ : ¬ k - 1 < v.pruned := by omega
    have h₂ : v.pruned + (k - 1 - v.pruned) = k - 1 := by omega
    rw [if_neg h₀, if_neg h₁, if_pos hk, h₂]
  · rw [if_neg hk]
    by_cases h₀ : k = 0
    · rw [if_pos h₀]
    · have h₁ : k - 1 < v.pruned := by omega
      rw [if_neg h₀, if_pos h₁]

theorem Refines.getState_latest (h : s.Refines v) :
    s.getState .latest = v.atHeight v.committed.length := by
  simp only [getState, PrunedVec.last, Versioned.atHeight, h.vec]
  have hle := h.pruned_le
  by_cases hlt : v.pruned < v.committed.length
  · rw [if_pos hlt, List.getLast?_drop, if_neg (by omega), List.getLast?_eq_getElem?]
  · rw [if_neg hlt, List.drop_eq_nil_of_le (by omega), List.getLast?_nil]

theorem Refines.commit_snd (h : s.Refines v) :
    s.commit.2.Refines (v.change PathEdit.onState .commit) := by
  refine ⟨h.pending, h.pending, ?_, h.pruned, ?_⟩
  · simp [commit, apply, PrunedVec.push, Versioned.change, h.vec, h.pending,
      List.drop_append_of_le_length h.pruned_le]
  · have := h.pruned_le
    simp only [Versioned.change, List.length_append, List.length_singleton]
    omega

/-- **One call.** From related states a call succeeds, answers what the versioned tree answers,
and ends in related states. -/
theorem Refines.exec (h : s.Refines v) {op : StoreOp} (hop : PruneInRange v op) :
    ∃ s', s.exec op = some (treeReply v op, s') ∧ s'.Refines (v.change PathEdit.onState op) := by
  cases op with
  | edit e =>
    cases e with
    | set path value =>
      refine ⟨(s.set path value).2, ?_, ⟨?_, h.staged, h.vec, h.pruned, h.pruned_le⟩⟩
      · simp [InMemoryStore.exec, set, treeReply, h.pending]
      · simp [set, Versioned.change, PathEdit.onState, h.pending]
    | delete path =>
      refine ⟨s.delete path, rfl, ⟨?_, h.staged, h.vec, h.pruned, h.pruned_le⟩⟩
      simp [delete, Versioned.change, PathEdit.onState, h.pending]
  | apply => exact ⟨s.apply, rfl, ⟨h.pending, h.pending, h.vec, h.pruned, h.pruned_le⟩⟩
  | reset => exact ⟨s.reset, rfl, ⟨h.staged, h.staged, h.vec, h.pruned, h.pruned_le⟩⟩
  | commit =>
    refine ⟨s.commit.2, ?_, h.commit_snd⟩
    simp only [InMemoryStore.exec, commit_fst, treeReply, h.pending]
  | prune k =>
    have hk : k ≤ v.committed.length := hop
    have hlen : k ≤ s.store.originalLength := le_of_le_of_eq hk h.currentHeight_eq.symm
    refine ⟨{ s with store := ⟨s.store.vec.drop (k - s.store.pruned), max s.store.pruned k⟩ }, ?_,
      ⟨h.pending, h.staged, ?_, ?_, ?_⟩⟩
    · rw [InMemoryStore.exec, prune, PrunedVec.prune_eq, if_pos hlen]
      rfl
    · have hsum : v.pruned + (k - v.pruned) = max v.pruned k := by omega
      simp only [Versioned.change, h.vec, h.pruned, List.drop_drop, hsum]
    · simp only [Versioned.change, h.pruned]
    · exact max_le h.pruned_le hk

/-- A whole run: as long as prunes stay in range, nothing panics. -/
theorem run_refines (ops : List StoreOp)
    (hops : Admissible treeStep PruneInRange (Versioned.init State.new) ops) :
    ∃ s, runSteps InMemoryStore.exec default ops =
        some ((runTotal treeStep (Versioned.init State.new) ops).1, s) ∧
      s.Refines (runTotal treeStep (Versioned.init State.new) ops).2 :=
  runSteps_refines (R := Refines) (fun _ _ _ h hop => h.exec hop) ops refines_default hops

end InMemoryStore

/-! ## Refinement over maps -/

/-- The versioned tree after a run, without the replies. -/
theorem runTotal_treeStep (v : Versioned State) (ops : List StoreOp) :
    (runTotal treeStep v ops).2 = v.runChanges PathEdit.onState ops := by
  induction ops generalizing v with
  | nil => rfl
  | cons op ops ih => exact ih _

theorem get_onState (s : State) (e : PathEdit) : (e.onState s).get = e.onMap s.get := by
  cases e with
  | set path value =>
    funext p
    rw [PathEdit.onState, State.get_insert, PathEdit.onMap, Function.update_apply]
  | delete path =>
    funext p
    rw [PathEdit.onState, State.get_remove, PathEdit.onMap, Function.update_apply]

/-- A run of the versioned tree, seen as maps, is the run of the versioned map. -/
theorem map_get_runChanges (v : Versioned State) (ops : List StoreOp) :
    (v.runChanges PathEdit.onState ops).map State.get =
      (v.map State.get).runChanges PathEdit.onMap ops :=
  Versioned.map_runChanges get_onState v ops

def mapAfter (ops : List StoreOp) : Versioned (Path → Option Bytes) :=
  (Versioned.init fun _ => none).runChanges PathEdit.onMap ops

/-- Every prune of the run is in range when it is called. -/
def PrunesInRange (ops : List StoreOp) : Prop :=
  ∀ before h after, ops = before ++ .prune h :: after → h ≤ before.count .commit

/-- What the store's queries say, against a versioned map. -/
structure Observes (s : InMemoryStore) (m : Versioned (Path → Option Bytes)) : Prop where
  pending : ∀ p, s.get .pending p = m.working p
  /-- The map committed as height `h`, unless it was pruned or never committed. -/
  stable : ∀ h p, s.get (.stable h) p = (m.atHeight h).bind (· p)
  latest : ∀ p, s.get .latest p = s.get (.stable s.currentHeight) p
  height : s.currentHeight = m.committed.length
  pruned : s.store.prunedLength = m.pruned
  /-- `reset` brings back the saved map. -/
  reset : ∀ p, s.reset.get .pending p = m.saved p
  /-- `commit` appends the working map as the next height and answers that height's root. -/
  commit : ∃ st, s.commit.2.getState (.stable (s.currentHeight + 1)) = some st ∧
    s.commit.1 = InMemoryStore.rootBytes st.rootHash ∧ ∀ p, st.get p = m.working p
  keys_sorted : ∀ q, (s.getKeys q).Pairwise (· < ·)
  mem_keys : ∀ q p, p ∈ s.getKeys q ↔
    m.working p ≠ none ∧ q.toString.toList <+: p.toString.toList

theorem InMemoryStore.Refines.observes {s : InMemoryStore} {v : Versioned State}
    (h : s.Refines v) : Observes s (v.map State.get) := by
  have hstable : ∀ k p, s.get (.stable k) p = (v.atHeight k).bind fun st => st.get p := by
    intro k p
    rw [get, h.getState_stable]
  refine
    { pending := ?_
      stable := ?_
      latest := ?_
      height := by rw [h.currentHeight_eq, Versioned.map, List.length_map]
      pruned := h.pruned
      reset := ?_
      commit := ?_
      keys_sorted := fun q => s.getKeys_sorted q
      mem_keys := ?_ }
  · intro p
    rw [get, getState, h.pending]
    rfl
  · intro k p
    rw [hstable, Versioned.atHeight_map, Option.bind_map]
    rfl
  · intro p
    rw [get, h.getState_latest, hstable, h.currentHeight_eq]
  · intro p
    rw [get, getState, InMemoryStore.reset, h.staged]
    rfl
  · refine ⟨v.working, ?_, by rw [commit_fst, h.pending], fun p => rfl⟩
    rw [h.commit_snd.getState_stable, h.currentHeight_eq, Versioned.atHeight, if_pos]
    · simp [Versioned.change]
    · exact Nat.lt_succ_of_le h.pruned_le
  · intro q p
    rw [s.mem_getKeys q p, h.pending]
    rfl

omit [Sha256] in
/-- Ranges of prunes, as a run meets them. -/
theorem pruneInRange_of_prunesInRange {T : Type*} {edit : T → PathEdit → T} {t : T}
    {ops before after : List StoreOp} {op : StoreOp} (h : PrunesInRange ops)
    (hsplit : ops = before ++ op :: after) :
    PruneInRange ((Versioned.init t).runChanges edit before) op := by
  cases op with
  | prune k =>
    show k ≤ _
    rw [Versioned.length_committed_runChanges]
    exact le_trans (h before k after hsplit) (Nat.le_add_left _ _)
  | _ => trivial

theorem admissible_of_prunesInRange {ops : List StoreOp} (h : PrunesInRange ops) :
    Admissible treeStep PruneInRange (Versioned.init State.new) ops := by
  refine admissible_iff.mpr fun before op after hsplit => ?_
  rw [runTotal_treeStep]
  exact pruneInRange_of_prunesInRange h hsplit

/-- **`InMemoryStore` refines a versioned map with rollback.** Take any run of calls from the
default store whose prunes stay within the current height, cut anywhere into `ops` and `more`.
No call panics; at the cut the store answers every query as the versioned map of `ops` does, and
its height is the number of commits; and at the end every height of the cut that was not pruned
meanwhile still answers the map committed then. -/
theorem inMemoryStore_refines (ops more : List StoreOp) (h : PrunesInRange (ops ++ more)) :
    ∃ replies replies' s s',
      runSteps InMemoryStore.exec InMemoryStore.default ops = some (replies, s) ∧
        runSteps InMemoryStore.exec s more = some (replies', s') ∧
        Observes s (mapAfter ops) ∧
        s.currentHeight = ops.count .commit ∧
        s.currentHeight ≤ s'.currentHeight ∧
        ∀ k p, k ≤ s.currentHeight → s'.store.prunedLength < k →
          s'.get (.stable k) p = ((mapAfter ops).committed[k - 1]?).bind (· p) := by
  obtain ⟨s', hrun, href⟩ := InMemoryStore.run_refines _ (admissible_of_prunesInRange h)
  obtain ⟨s, replies, replies', h₁, h₂, _⟩ := runSteps_append.mp hrun
  have hops : PrunesInRange ops := by
    intro before k after heq
    exact h before k (after ++ more) (by rw [heq]; simp)
  obtain ⟨s₁, hrun₁, href₁⟩ := InMemoryStore.run_refines _ (admissible_of_prunesInRange hops)
  rw [hrun₁, Option.some.injEq, Prod.mk.injEq] at h₁
  obtain ⟨rfl, rfl⟩ := h₁
  have hobs := href₁.observes
  have hobs' := href.observes
  rw [runTotal_treeStep, map_get_runChanges] at hobs hobs'
  have hcount : s₁.currentHeight = ops.count .commit := by
    rw [hobs.height, Versioned.length_committed_runChanges]
    simp [Versioned.map, Versioned.init]
  rw [Versioned.runChanges_append] at hobs'
  refine ⟨_, replies', s₁, s', hrun₁, h₂, hobs, hcount, ?_, ?_⟩
  · rw [hobs.height, hobs'.height]
    exact (Versioned.prefix_committed_runChanges _ _).length_le
  · intro k p hk hpk
    rw [hobs.height] at hk
    rw [hobs'.pruned] at hpk
    rw [hobs'.stable, Versioned.atHeight_runChanges (Nat.zero_lt_of_lt hpk) hk hpk]
    rfl

omit [Sha256] in
/-- A write, a commit and its pruning, then a reset. -/
theorem inMemoryStore_refines_pruned :
    letI := Sha256.ones
    ∃ replies replies' s s',
      runSteps InMemoryStore.exec InMemoryStore.default
          [.edit (.set (Path.ofString "a/b") [7]), .commit, .prune 1] = some (replies, s) ∧
        runSteps InMemoryStore.exec s [.reset] = some (replies', s') ∧
        Observes s (mapAfter [.edit (.set (Path.ofString "a/b") [7]), .commit, .prune 1]) ∧
        s.currentHeight = 1 ∧
        s.currentHeight ≤ s'.currentHeight ∧
        ∀ k p, k ≤ s.currentHeight → s'.store.prunedLength < k →
          s'.get (.stable k) p =
            ((mapAfter [.edit (.set (Path.ofString "a/b") [7]), .commit,
              .prune 1]).committed[k - 1]?).bind (· p) := by
  let inst := Sha256.ones
  refine inMemoryStore_refines [.edit (.set (Path.ofString "a/b") [7]), .commit, .prune 1]
    [.reset] ?_
  intro before h after heq
  rcases before with _ | ⟨a, _ | ⟨b, _ | ⟨c, before⟩⟩⟩ <;> simp at heq
  · obtain ⟨rfl, rfl, rfl, -⟩ := heq
    simp
  · obtain ⟨-, -, -, hreset⟩ := heq
    rcases before with _ | ⟨d, before⟩ <;> simp at hreset

end Basecoin
