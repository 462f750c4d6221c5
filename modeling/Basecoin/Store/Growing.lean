import Mathlib.Data.List.Sort
import Basecoin.Store.Shared
import Basecoin.Store.Versioned

/-!
# `impls/growing.rs`

`GrowingStore` deletes a path by setting it to the empty value, and filters that value out of what it
reads. A call of it is a call of the store inside in which a `delete` is such a `set`
(`exec_of_refines`), so after a run that store holds for each path the mark of its last edit
(`mapAfter_marked`), and without its marks what an `InMemoryStore` holds (`unmarked_mapAfter`). Two
methods read through the wrong getter. `set` answers what the store inside held, unfiltered, so the
mark of a deleted path comes out (`indistinguishable_iff`); `is_deleted` and `deleted_keys` look for
the mark behind the getter that has filtered it out, and never find one (`knowsDeleted_iff`).
-/

namespace Basecoin

open Lib

/-! ## Runs of the edits of any store -/

def PathEdit.toCall : PathEdit → Store.Call
  | set path value => .set path value
  | delete path => .delete path

def StoreOp.toCall : StoreOp → Store.Call
  | .edit e => e.toCall
  | .apply => .apply
  | .reset => .reset
  | .commit => .commit
  | .prune height => .prune height

/-- The call, on any store. -/
def Store.exec {S Error : Type*} (store : Store S Error) (self : S) (op : StoreOp) :
    Option (Store.Answer Error × S) :=
  store.call self (StoreOp.toCall op)

/-! ## `GrowingStore` -/

/-- `GrowingStore<S>`. -/
structure GrowingStore (S : Type*) where
  store : S

/-- `into_iter().filter(..).collect()`, by a test that may panic. -/
def filterKeys (test : Path → Option Bool) : List Path → Option (List Path)
  | [] => some []
  | k :: ks => (test k).bind fun keep =>
    (filterKeys test ks).map fun rest => if keep then k :: rest else rest

theorem filterKeys_eq {test : Path → Option Bool} {keep : Path → Bool} :
    ∀ {ks : List Path}, (∀ k, test k = some (keep k)) → filterKeys test ks = some (ks.filter keep)
  | [], _ => rfl
  | k :: ks, h => by
    rw [filterKeys, h k, Option.bind_some, filterKeys_eq h, Option.map_some, List.filter_cons]

namespace GrowingStore

section Methods

variable {S Error : Type*} (inner : Store S Error) (self : GrowingStore S)

/-- `set`; the empty value is a panic. -/
def set (path : Path) (value : Bytes) : Option (Except Error (Option Bytes) × GrowingStore S) :=
  if value.isEmpty then none
  else (inner.set self.store path value).map fun r => (r.1, ⟨r.2⟩)

def get (height : Height) (path : Path) : Option (Option Bytes) :=
  -- ignore if path is deleted
  (inner.get self.store height path).map fun value => value.filter fun v => !v.isEmpty

/-- `delete`, with its `expect`. -/
def delete (path : Path) : Option (GrowingStore S) :=
  -- set value to empty vec to denote the path is deleted.
  match inner.set self.store path [] with
  | some (.ok _, store) => some ⟨store⟩
  | _ => none

def getKeys (keyPrefix : Path) : Option (List Path) :=
  (inner.getKeys self.store keyPrefix).bind fun keys =>
    -- ignore the deleted paths
    filterKeys (fun k => (self.get inner .pending k).map fun value =>
      (value.filter fun v => !v.isEmpty).isSome) keys

/-- `impl Store for GrowingStore<S>`. -/
def asStore : Store (GrowingStore S) Error where
  set self path value := self.set inner path value
  get self height path := self.get inner height path
  delete self path := self.delete inner path
  commit self := (inner.commit self.store).map fun r => (r.1, ⟨r.2⟩)
  apply self := (inner.apply self.store).map fun r => (r.1, ⟨r.2⟩)
  reset self := (inner.reset self.store).map fun store => ⟨store⟩
  prune self height := (inner.prune self.store height).map fun r => (r.1, ⟨r.2⟩)
  currentHeight self := inner.currentHeight self.store
  getKeys self keyPrefix := self.getKeys inner keyPrefix

def isDeleted (path : Path) : Option Bool :=
  (self.get inner .pending path).map fun value => (value.filter fun v => v.isEmpty).isSome

def deletedKeys (keyPrefix : Path) : Option (List Path) :=
  (inner.getKeys self.store keyPrefix).bind fun keys =>
    filterKeys (fun k => (self.get inner .pending k).map fun value =>
      (value.filter fun v => v.isEmpty).isSome) keys

end Methods

end GrowingStore

/-! ## The last edit of each path

All that a store of either kind holds for a path is a function of the last edit of it that is in
effect, so two stores are compared by what they make of that one edit. -/

namespace PathEdit

/-- What the store inside a `GrowingStore` holds after it. -/
def mark : PathEdit → Bytes
  | set _ value => value
  | delete _ => []

/-- What a `GrowingStore` does to the store inside instead. -/
def marked : PathEdit → PathEdit
  | set path value => set path value
  | delete path => set path []

def record (m : Path → Option PathEdit) (e : PathEdit) : Path → Option PathEdit :=
  Function.update m e.path (some e)

/-- A value that is set is not empty, which would be the mark. -/
def NonEmpty : PathEdit → Prop
  | set _ value => value ≠ []
  | delete _ => True

theorem onMap_marked (m : Path → Option Bytes) (e : PathEdit) :
    onMap m e.marked = Function.update m e.path (some e.mark) := by
  cases e <;> rfl

end PathEdit

/-- The last edit of each path after a run, and what a `reset` or a height goes back to. -/
def editsAfter (ops : List StoreOp) : Versioned (Path → Option PathEdit) :=
  (Versioned.init fun _ => none).runChanges PathEdit.record ops

/-- The last edit still in effect on the path is a `delete`. -/
def Deleted (ops : List StoreOp) (path : Path) : Prop :=
  (editsAfter ops).working path = some (.delete path)

/-- Without a prune there is none out of range. -/
theorem prunesInRange_of_forall {ops : List StoreOp} (h : ∀ height, .prune height ∉ ops) :
    PrunesInRange ops := by
  rintro before height after rfl
  exact absurd (List.mem_append_right _ List.mem_cons_self) (h height)

def NonEmptyValues (ops : List StoreOp) : Prop := ∀ e, .edit e ∈ ops → e.NonEmpty

/-- A map of edits, as one of what they leave. -/
def seenAs (f : PathEdit → Option Bytes) (m : Path → Option PathEdit) (p : Path) : Option Bytes :=
  (m p).bind f

theorem seenAs_record (f : PathEdit → Option Bytes) (m : Path → Option PathEdit) (e : PathEdit) :
    seenAs f (PathEdit.record m e) = Function.update (seenAs f m) e.path (f e) := by
  funext p
  rw [seenAs, PathEdit.record, Function.update_apply, Function.update_apply]
  split <;> rfl

/-- What the store inside holds for each path is the mark of its last edit. -/
theorem mapAfter_marked (ops : List StoreOp) :
    mapAfter (ops.map (Change.map PathEdit.marked)) =
      (editsAfter ops).map (seenAs fun e => some e.mark) := by
  have hedit : ∀ m e, seenAs (fun e => some e.mark) (PathEdit.record m e) =
      PathEdit.onMap (seenAs (fun e => some e.mark) m) e.marked := by
    intro m e
    rw [seenAs_record, PathEdit.onMap_marked]
  have hinit : (Versioned.init fun _ => none : Versioned (Path → Option Bytes)) =
      (Versioned.init fun _ => none).map (seenAs fun e => some e.mark) := rfl
  rw [mapAfter, Versioned.runChanges_map, hinit]
  exact (Versioned.map_runChanges hedit _ ops).symm

/-- The marks left out. -/
def unmarked (m : Path → Option Bytes) (p : Path) : Option Bytes := (m p).filter fun v => !v.isEmpty

/-- Leaving the marks out changes what is there exactly where it is a mark. -/
theorem eq_filter_iff (value : Option Bytes) :
    value = value.filter (fun v => !v.isEmpty) ↔ value ≠ some [] := by
  match value with
  | none => exact iff_of_true rfl nofun
  | some [] => exact iff_of_false nofun fun h => h rfl
  | some (b :: bs) => exact iff_of_true rfl nofun

theorem unmarked_onMap (m : Path → Option Bytes) {e : PathEdit} (he : e.NonEmpty) :
    unmarked (PathEdit.onMap m e.marked) = PathEdit.onMap (unmarked m) e := by
  funext p
  rw [PathEdit.onMap_marked, unmarked, Function.update_apply]
  cases e with
  | set path value =>
    have hkeep : (some value).filter (fun v => !v.isEmpty) = some value := by
      cases value with
      | nil => exact absurd rfl he
      | cons b value => rfl
    rw [PathEdit.onMap, Function.update_apply, apply_ite (Option.filter fun v : Bytes => !v.isEmpty),
      PathEdit.mark, hkeep]
    rfl
  | delete path =>
    rw [PathEdit.onMap, Function.update_apply, apply_ite (Option.filter fun v : Bytes => !v.isEmpty)]
    rfl

/-- Without its marks, what the store inside holds is what an `InMemoryStore` holds. -/
theorem unmarked_mapAfter {ops : List StoreOp} (h : NonEmptyValues ops) :
    (mapAfter (ops.map (Change.map PathEdit.marked))).map unmarked = mapAfter ops := by
  rw [mapAfter, Versioned.runChanges_map]
  exact Versioned.map_runChanges_of_forall (fun m _ he => unmarked_onMap m he) _ h

/-- What stands recorded for a path is an edit of that path, and no empty value is set. -/
theorem record_working {ops : List StoreOp} (h : NonEmptyValues ops) {p : Path} {e : PathEdit}
    (he : (editsAfter ops).working p = some e) : e.path = p ∧ e.NonEmpty := by
  have hall : ∀ p e, (editsAfter ops).working p = some e → e.path = p ∧ e.NonEmpty :=
    Versioned.working_runChanges (P := fun m : Path → Option PathEdit =>
        ∀ p e, m p = some e → e.path = p ∧ e.NonEmpty) (Q := PathEdit.NonEmpty)
      (fun m e hm hne p e' he' => by
        rw [PathEdit.record, Function.update_apply] at he'
        split at he'
        · next hp =>
          obtain rfl := Option.some.inj he'
          exact ⟨hp.symm, hne⟩
        · exact hm p e' he')
      h (fun p e he => by cases he) (fun p e he => by cases he)
  exact hall p e he

/-- The mark of a path is the empty value exactly where the path is deleted. -/
theorem deleted_iff_mark {ops : List StoreOp} (h : NonEmptyValues ops) (p : Path) :
    Deleted ops p ↔ seenAs (fun e => some e.mark) (editsAfter ops).working p = some [] := by
  rw [Deleted, seenAs]
  constructor
  · intro hdel
    rw [hdel]
    rfl
  · intro hmark
    obtain ⟨e, he, heq⟩ := Option.bind_eq_some_iff.mp hmark
    obtain ⟨rfl, hne⟩ := record_working h he
    cases e with
    | set path value => exact absurd (Option.some.inj heq) hne
    | delete path => exact he

/-! ## Over an `InMemoryStore` -/

variable [Sha256]

/-- The answer of the trait's method, for what the store replies. -/
def StoreReply.toAnswer : StoreOp → StoreReply → Store.Answer Empty
  | _, .previous value => .set (.ok value)
  | _, .root hash => .commit (.ok hash)
  | _, .height h => .prune (.ok h)
  | .apply, .done => .apply (.ok ())
  | _, .done => .unit

/-- The versioned tree, its edits rewritten, as a machine that answers as a store does. -/
def answerStep (g : PathEdit → PathEdit) (v : Versioned State) (op : StoreOp) :
    Store.Answer Empty × Versioned State :=
  ((treeReply v op).toAnswer op, v.change (fun s e => (g e).onState s) op)

theorem runTotal_answerStep (g : PathEdit → PathEdit) (v : Versioned State) (ops : List StoreOp) :
    (runTotal (answerStep g) v ops).2 = v.runChanges PathEdit.onState (ops.map (Change.map g)) := by
  rw [Versioned.runChanges_map]
  induction ops generalizing v with
  | nil => rfl
  | cons op ops ih => exact ih _

theorem map_runTotal_answerStep (g : PathEdit → PathEdit) (ops : List StoreOp) :
    (runTotal (answerStep g) (Versioned.init State.new) ops).2.map State.get =
      mapAfter (ops.map (Change.map g)) := by
  rw [runTotal_answerStep, map_get_runChanges]
  rfl

/-- What a `set` answers, in a run. -/
theorem set_answer (g : PathEdit → PathEdit) {ops before after : List StoreOp} {path : Path}
    {value : Bytes} (hsplit : ops = before ++ .edit (.set path value) :: after) :
    (runTotal (answerStep g) (Versioned.init State.new) ops).1[before.length]? =
      some (.set (.ok ((mapAfter (before.map (Change.map g))).working path))) := by
  rw [hsplit, runTotal_getElem?, ← map_runTotal_answerStep g before]
  rfl

theorem admissible_answerStep (g : PathEdit → PathEdit) {ops : List StoreOp}
    (h : PrunesInRange ops) {Q : PathEdit → Prop} (hQ : ∀ e, .edit e ∈ ops → Q e) :
    Admissible (answerStep g) (fun v op => PruneInRange v op ∧ ∀ e, op = .edit e → Q e)
      (Versioned.init State.new) ops := by
  refine admissible_iff.mpr fun before op after hsplit => ⟨?_, fun e he => hQ e ?_⟩
  · rw [runTotal_answerStep, Versioned.runChanges_map]
    exact pruneInRange_of_prunesInRange h hsplit
  · rw [hsplit, he]
    exact List.mem_append_right _ List.mem_cons_self

theorem InMemoryStore.exec_asStore (s : InMemoryStore) (op : StoreOp) :
    asStore.exec s op = (s.exec op).map (Prod.map (StoreReply.toAnswer op) id) := by
  cases op with
  | edit e => cases e <;> rfl
  | prune height =>
    show ((s.prune height).map _).map _ = ((s.prune height).map _).map _
    rw [Option.map_map, Option.map_map]
    rfl
  | _ => rfl

theorem InMemoryStore.Refines.exec_asStore {s : InMemoryStore} {v : Versioned State} {op : StoreOp}
    (h : s.Refines v) (hop : PruneInRange v op) :
    ∃ s', asStore.exec s op = some ((answerStep id v op).1, s') ∧
      s'.Refines (answerStep id v op).2 := by
  obtain ⟨s', hexec, hs'⟩ := h.exec hop
  refine ⟨s', ?_, hs'⟩
  rw [InMemoryStore.exec_asStore, hexec]
  rfl

/-- The calls on an `InMemoryStore`. -/
theorem exists_run_inMemory {ops : List StoreOp} (h : PrunesInRange ops) :
    ∃ s, runSteps InMemoryStore.asStore.exec InMemoryStore.default ops =
        some ((runTotal (answerStep id) (Versioned.init State.new) ops).1, s) ∧
      Observes s (mapAfter ops) := by
  have hadmissible := admissible_answerStep id h (Q := fun _ => True) fun _ _ => trivial
  have hrefines : ∃ s, runSteps InMemoryStore.asStore.exec InMemoryStore.default ops =
        some ((runTotal (answerStep id) (Versioned.init State.new) ops).1, s) ∧
      s.Refines (runTotal (answerStep id) (Versioned.init State.new) ops).2 :=
    runSteps_refines (fun _ _ _ hs hop => hs.exec_asStore hop.1) ops InMemoryStore.refines_default
      hadmissible
  obtain ⟨s, hrun, href⟩ := hrefines
  refine ⟨s, hrun, ?_⟩
  have hobs := href.observes
  rwa [map_runTotal_answerStep, Change.map_id, List.map_id] at hobs

namespace GrowingStore

/-- `GrowingStore<InMemoryStore>`. -/
abbrev overInMemory : Store (GrowingStore InMemoryStore) Empty := asStore InMemoryStore.asStore

/-- **One call.** It is the call of the store inside, a `delete` made into its `set`. -/
theorem exec_of_refines {g : GrowingStore InMemoryStore} {v : Versioned State} {op : StoreOp}
    (h : g.store.Refines v) (hop : PruneInRange v op) (hne : ∀ e, op = .edit e → e.NonEmpty) :
    ∃ g', overInMemory.exec g op = some ((answerStep PathEdit.marked v op).1, g') ∧
      g'.store.Refines (answerStep PathEdit.marked v op).2 := by
  have hop' : PruneInRange v (op.map PathEdit.marked) := by
    cases op with
    | prune height => exact hop
    | _ => trivial
  obtain ⟨s, hexec, href⟩ := h.exec hop'
  cases op with
  | edit e =>
    cases e with
    | set path value =>
      have hvalue : value.isEmpty = false := List.isEmpty_eq_false_iff.mpr (hne _ rfl)
      obtain ⟨hreply, rfl⟩ := Prod.mk.inj (Option.some.inj hexec)
      refine ⟨⟨(g.store.set path value).2⟩, ?_, href⟩
      have hset : g.set InMemoryStore.asStore path value =
          some (.ok (g.store.set path value).1, ⟨(g.store.set path value).2⟩) := by
        rw [set, hvalue]
        rfl
      show (g.set InMemoryStore.asStore path value).map _ = _
      rw [hset]
      exact congrArg (fun r => some (StoreReply.toAnswer (.edit (.set path value)) r, _)) hreply
    | delete path =>
      -- a deletion writes the empty value
      obtain ⟨-, rfl⟩ := Prod.mk.inj (Option.some.inj hexec)
      exact ⟨⟨(g.store.set path []).2⟩, rfl, href⟩
  | apply =>
    obtain ⟨-, rfl⟩ := Prod.mk.inj (Option.some.inj hexec)
    exact ⟨⟨g.store.apply⟩, rfl, href⟩
  | reset =>
    obtain ⟨-, rfl⟩ := Prod.mk.inj (Option.some.inj hexec)
    exact ⟨⟨g.store.reset⟩, rfl, href⟩
  | commit =>
    obtain ⟨hreply, rfl⟩ := Prod.mk.inj (Option.some.inj hexec)
    refine ⟨⟨g.store.commit.2⟩, ?_, href⟩
    exact congrArg (fun r => some (StoreReply.toAnswer .commit r, _)) hreply
  | prune height =>
    obtain ⟨⟨k, s'⟩, hprune, heq⟩ := Option.map_eq_some_iff.mp hexec
    obtain ⟨hreply, rfl⟩ := Prod.mk.inj heq
    refine ⟨⟨s'⟩, ?_, href⟩
    show (((g.store.prune height).map _).map _).map _ = _
    rw [hprune]
    exact congrArg (fun r => some (StoreReply.toAnswer (.prune height) r, _)) hreply

/-- The calls on a `GrowingStore`. -/
theorem exists_run {ops : List StoreOp} (hne : NonEmptyValues ops) (h : PrunesInRange ops) :
    ∃ g, runSteps overInMemory.exec ⟨InMemoryStore.default⟩ ops =
        some ((runTotal (answerStep PathEdit.marked) (Versioned.init State.new) ops).1, g) ∧
      Observes g.store (mapAfter (ops.map (Change.map PathEdit.marked))) := by
  have hstep : ∀ (g : GrowingStore InMemoryStore) v op, g.store.Refines v →
      (PruneInRange v op ∧ ∀ e, op = .edit e → e.NonEmpty) →
      ∃ g', overInMemory.exec g op = some ((answerStep PathEdit.marked v op).1, g') ∧
        g'.store.Refines (answerStep PathEdit.marked v op).2 :=
    fun _ _ _ hg hop => exec_of_refines hg hop.1 hop.2
  have hadmissible := admissible_answerStep PathEdit.marked h hne
  have hdefault : (⟨InMemoryStore.default⟩ : GrowingStore InMemoryStore).store.Refines
      (Versioned.init State.new) := InMemoryStore.refines_default
  obtain ⟨g, hrun, href⟩ := runSteps_refines hstep ops hdefault hadmissible
  refine ⟨g, hrun, ?_⟩
  have hobs := href.observes
  rwa [map_runTotal_answerStep] at hobs

/-! ## Against an `InMemoryStore` -/

section Reads

variable {t s : InMemoryStore} {m : Versioned (Path → Option Bytes)}

theorem get_of_observes (ht : Observes t m) (hs : Observes s (m.map unmarked)) (height : Height)
    (path : Path) : (t.get height path).filter (fun v => !v.isEmpty) = s.get height path := by
  have hstable : ∀ h, (t.get (.stable h) path).filter (fun v => !v.isEmpty) =
      s.get (.stable h) path := by
    intro h
    rw [ht.stable, hs.stable, Versioned.atHeight_map]
    cases m.atHeight h <;> rfl
  cases height with
  | pending =>
    rw [ht.pending, hs.pending]
    rfl
  | stable h => exact hstable h
  | latest =>
    have hheight : t.currentHeight = s.currentHeight := by
      rw [ht.height, hs.height, Versioned.map, List.length_map]
    rw [ht.latest, hs.latest, hheight]
    exact hstable _

theorem getKeys_of_observes (ht : Observes t m) (hs : Observes s (m.map unmarked))
    (keyPrefix : Path) :
    getKeys InMemoryStore.asStore ⟨t⟩ keyPrefix = some (s.getKeys keyPrefix) := by
  have hkeep : ∀ k, ((get InMemoryStore.asStore ⟨t⟩ .pending k).map fun value =>
      (value.filter fun v => !v.isEmpty).isSome) = some (s.get .pending k).isSome := by
    intro k
    have hget := get_of_observes ht hs .pending k
    show some (((t.get .pending k).filter _).filter _).isSome = _
    rw [Option.filter_filter, ← hget]
    simp only [Bool.and_self]
  show filterKeys _ (t.getKeys keyPrefix) = _
  rw [filterKeys_eq hkeep, Option.some.injEq]
  refine ((ht.keys_sorted keyPrefix).filter _).eq_of_mem_iff (hs.keys_sorted keyPrefix) fun p => ?_
  rw [List.mem_filter, ht.mem_keys, hs.mem_keys, hs.pending]
  constructor
  · rintro ⟨⟨-, hunder⟩, hlive⟩
    exact ⟨Option.isSome_iff_ne_none.mp hlive, hunder⟩
  · rintro ⟨hlive, hunder⟩
    refine ⟨⟨fun hnone => hlive ?_, hunder⟩, Option.isSome_iff_ne_none.mpr hlive⟩
    exact congrArg (Option.filter fun v => !v.isEmpty) hnone

end Reads

/-- The two stores, after the same calls: each `set` was answered alike, and what can be read is
the same. -/
structure Indistinguishable (ops : List StoreOp) (answers answers' : List (Store.Answer Empty))
    (g : GrowingStore InMemoryStore) (s : InMemoryStore) : Prop where
  set : ∀ before path value after, ops = before ++ .edit (.set path value) :: after →
    answers[before.length]? = answers'[before.length]?
  get : ∀ height path, overInMemory.get g height path = InMemoryStore.asStore.get s height path
  getKeys : ∀ keyPrefix, overInMemory.getKeys g keyPrefix =
    InMemoryStore.asStore.getKeys s keyPrefix

/-- No path is set while it is deleted. -/
def SetsNoDeleted (ops : List StoreOp) : Prop :=
  ∀ before path value after, ops = before ++ .edit (.set path value) :: after → ¬ Deleted before path

/-- **A store that marks deletions against one that deletes.** Take any calls that set no empty value
and prune within the height. Both stores run them, and they cannot be told apart exactly if no path
was set again while it was deleted: such a `set` answers the mark. -/
theorem indistinguishable_iff (ops : List StoreOp) (hne : NonEmptyValues ops)
    (hprune : PrunesInRange ops) :
    ∃ answers g answers' s,
      runSteps overInMemory.exec ⟨InMemoryStore.default⟩ ops = some (answers, g) ∧
        runSteps InMemoryStore.asStore.exec InMemoryStore.default ops = some (answers', s) ∧
        (Indistinguishable ops answers answers' g s ↔ SetsNoDeleted ops) := by
  obtain ⟨g, hrun, hobs⟩ := exists_run hne hprune
  obtain ⟨s, hrun', hobs'⟩ := exists_run_inMemory hprune
  rw [← unmarked_mapAfter hne] at hobs'
  refine ⟨_, g, _, s, hrun, hrun', ?_⟩
  have hanswer : ∀ before path value after, ops = before ++ .edit (.set path value) :: after →
      ((runTotal (answerStep PathEdit.marked) (Versioned.init State.new) ops).1[before.length]? =
        (runTotal (answerStep id) (Versioned.init State.new) ops).1[before.length]? ↔
          ¬ Deleted before path) := by
    intro before path value after hsplit
    have hbefore : NonEmptyValues before := fun e he =>
      hne e (hsplit ▸ List.mem_append_left _ he)
    rw [set_answer _ hsplit, set_answer _ hsplit, Change.map_id, List.map_id,
      ← unmarked_mapAfter hbefore, deleted_iff_mark hbefore, ← ne_eq, ← eq_filter_iff,
      mapAfter_marked, Option.some.injEq, Store.Answer.set.injEq, Except.ok.injEq]
    rfl
  constructor
  · intro hall before path value after hsplit
    exact (hanswer before path value after hsplit).mp (hall.set before path value after hsplit)
  · intro hsets
    refine ⟨fun before path value after hsplit => ?_, fun height path => ?_, fun keyPrefix => ?_⟩
    · exact (hanswer before path value after hsplit).mpr (hsets before path value after hsplit)
    · exact congrArg some (get_of_observes hobs hobs' height path)
    · exact getKeys_of_observes hobs hobs' keyPrefix

/-- A path is set, deleted and set again. -/
def setAgain : List StoreOp :=
  [.edit (.set (Path.ofString "a") [1]), .edit (.delete (Path.ofString "a")),
    .edit (.set (Path.ofString "a") [2])]

omit [Sha256] in
theorem nonEmptyValues_setAgain : NonEmptyValues setAgain := by
  intro e he
  simp only [setAgain, List.mem_cons, List.not_mem_nil, or_false, Change.edit.injEq] at he
  rcases he with rfl | rfl | rfl
  · exact List.cons_ne_nil _ _
  · trivial
  · exact List.cons_ne_nil _ _

omit [Sha256] in
theorem prunesInRange_setAgain : PrunesInRange setAgain :=
  prunesInRange_of_forall fun height => by simp [setAgain]

omit [Sha256] in
/-- The second `set` answers the empty value, where the other store answers `None`. -/
theorem set_answers_mark :
    letI := Sha256.ones
    NonEmptyValues setAgain ∧ PrunesInRange setAgain ∧ ∃ answers g answers' s,
      runSteps overInMemory.exec ⟨InMemoryStore.default⟩ setAgain = some (answers, g) ∧
        runSteps InMemoryStore.asStore.exec InMemoryStore.default setAgain = some (answers', s) ∧
        answers = [.set (.ok none), .unit, .set (.ok (some []))] ∧
        answers' = [.set (.ok none), .unit, .set (.ok none)] ∧
        ¬ Indistinguishable setAgain answers answers' g s := by
  let inst := Sha256.ones
  obtain ⟨g, hrun, -⟩ := exists_run nonEmptyValues_setAgain prunesInRange_setAgain
  obtain ⟨s, hrun', -⟩ := exists_run_inMemory prunesInRange_setAgain
  have hanswers : (runSteps overInMemory.exec ⟨InMemoryStore.default⟩ setAgain).map Prod.fst =
      some [.set (.ok none), .unit, .set (.ok (some []))] := rfl
  have hanswers' : (runSteps InMemoryStore.asStore.exec InMemoryStore.default setAgain).map Prod.fst =
      some [.set (.ok none), .unit, .set (.ok none)] := rfl
  rw [hrun, Option.map_some, Option.some.injEq] at hanswers
  rw [hrun', Option.map_some, Option.some.injEq] at hanswers'
  refine ⟨nonEmptyValues_setAgain, prunesInRange_setAgain, _, g, _, s, hrun, hrun', hanswers,
    hanswers', fun halike => ?_⟩
  have hset := halike.set (setAgain.take 2) (Path.ofString "a") [2] [] rfl
  dsimp only at hanswers hanswers'
  rw [hanswers, hanswers'] at hset
  cases hset

omit [Sha256] in
theorem indistinguishable_iff_setAgain :
    letI := Sha256.ones
    ∃ answers g answers' s,
      runSteps overInMemory.exec ⟨InMemoryStore.default⟩ setAgain = some (answers, g) ∧
        runSteps InMemoryStore.asStore.exec InMemoryStore.default setAgain = some (answers', s) ∧
        (Indistinguishable setAgain answers answers' g s ↔ SetsNoDeleted setAgain) := by
  let inst := Sha256.ones
  exact indistinguishable_iff setAgain nonEmptyValues_setAgain prunesInRange_setAgain

/-! ## What is deleted -/

theorem isDeleted_eq (t : InMemoryStore) (path : Path) :
    isDeleted InMemoryStore.asStore ⟨t⟩ path = some false := by
  show some (((t.get .pending path).filter _).filter _).isSome = _
  rw [Option.filter_filter]
  cases t.get .pending path with
  | none => rfl
  | some value => cases value <;> rfl

theorem deletedKeys_eq (t : InMemoryStore) (keyPrefix : Path) :
    deletedKeys InMemoryStore.asStore ⟨t⟩ keyPrefix = some [] := by
  have htest : ∀ k, ((get InMemoryStore.asStore ⟨t⟩ .pending k).map fun value =>
      (value.filter fun v => v.isEmpty).isSome) = some false := isDeleted_eq t
  show filterKeys _ (t.getKeys keyPrefix) = _
  rw [filterKeys_eq htest, List.filter_false]

/-- At a path and a prefix, the store knows what the calls have deleted. -/
structure KnowsDeleted (ops : List StoreOp) (g : GrowingStore InMemoryStore)
    (path keyPrefix : Path) : Prop where
  isDeleted : ∃ b, g.isDeleted InMemoryStore.asStore path = some b ∧ (b = true ↔ Deleted ops path)
  deletedKeys : ∃ deleted, g.deletedKeys InMemoryStore.asStore keyPrefix = some deleted ∧
    ∀ p, p ∈ deleted ↔ Deleted ops p ∧ keyPrefix.toString.toList <+: p.toString.toList
  /-- The keys listed and the deleted ones make up the keys of the store inside. -/
  partition : ∃ live deleted, g.getKeys InMemoryStore.asStore keyPrefix = some live ∧
    g.deletedKeys InMemoryStore.asStore keyPrefix = some deleted ∧
    (live ++ deleted).Perm (g.store.getKeys keyPrefix)

/-- Nothing deleted is listed, so the keys make up those inside if no mark is among these. -/
theorem getKeys_perm_iff {t s : InMemoryStore} {m : Versioned (Path → Option Bytes)}
    (ht : Observes t m) (hs : Observes s (m.map unmarked)) (keyPrefix : Path) :
    (s.getKeys keyPrefix).Perm (t.getKeys keyPrefix) ↔
      ∀ p, keyPrefix.toString.toList <+: p.toString.toList → m.working p ≠ some [] := by
  rw [List.perm_ext_iff_of_nodup (hs.keys_sorted keyPrefix).nodup (ht.keys_sorted keyPrefix).nodup]
  refine forall_congr' fun p => ?_
  rw [ht.mem_keys, hs.mem_keys, and_congr_left_iff]
  refine imp_congr_right fun _ => ?_
  have hworking : (m.map unmarked).working p = (m.working p).filter fun v => !v.isEmpty := rfl
  rw [hworking]
  match m.working p with
  | none => exact iff_of_true Iff.rfl nofun
  | some [] => exact iff_of_false (fun h => h.mpr nofun rfl) fun h => h rfl
  | some (b :: bs) => exact iff_of_true (iff_of_true nofun nofun) nofun

/-- **A `GrowingStore` knows nothing it deleted.** After any calls that set no empty value and prune
within the height, it tells the deleted paths exactly where there is none to tell. -/
theorem knowsDeleted_iff (ops : List StoreOp) (hne : NonEmptyValues ops)
    (hprune : PrunesInRange ops) :
    ∃ answers g, runSteps overInMemory.exec ⟨InMemoryStore.default⟩ ops = some (answers, g) ∧
      ∀ path keyPrefix, KnowsDeleted ops g path keyPrefix ↔
        ¬ Deleted ops path ∧
          ∀ p, keyPrefix.toString.toList <+: p.toString.toList → ¬ Deleted ops p := by
  obtain ⟨g, hrun, hobs⟩ := exists_run hne hprune
  obtain ⟨s, -, hobs'⟩ := exists_run_inMemory hprune
  rw [← unmarked_mapAfter hne] at hobs'
  have hmark : ∀ p, ¬ Deleted ops p ↔
      (mapAfter (ops.map (Change.map PathEdit.marked))).working p ≠ some [] := by
    intro p
    rw [deleted_iff_mark hne, mapAfter_marked]
    rfl
  refine ⟨_, g, hrun, fun path keyPrefix => ⟨fun hknows => ?_, fun hnone => ?_⟩⟩
  · obtain ⟨b, hb, hdeleted⟩ := hknows.isDeleted
    obtain rfl := Option.some.inj ((isDeleted_eq g.store path).symm.trans hb)
    obtain ⟨deleted, hkeys, hmem⟩ := hknows.deletedKeys
    obtain rfl := Option.some.inj ((deletedKeys_eq g.store keyPrefix).symm.trans hkeys)
    refine ⟨fun hdel => Bool.false_ne_true (hdeleted.mpr hdel), fun p hunder hdel => ?_⟩
    exact List.not_mem_nil ((hmem p).mpr ⟨hdel, hunder⟩)
  · refine ⟨⟨false, isDeleted_eq g.store path, ?_⟩, ⟨[], deletedKeys_eq g.store keyPrefix, ?_⟩,
      ⟨s.getKeys keyPrefix, [], getKeys_of_observes hobs hobs' keyPrefix,
        deletedKeys_eq g.store keyPrefix, ?_⟩⟩
    · exact iff_of_false Bool.false_ne_true hnone.1
    · exact fun p => iff_of_false List.not_mem_nil fun hp => hnone.2 p hp.2 hp.1
    · rw [List.append_nil, getKeys_perm_iff hobs hobs']
      exact fun p hunder => (hmark p).mp (hnone.2 p hunder)

/-- A path is set and deleted. -/
def setDeleted : List StoreOp :=
  [.edit (.set (Path.ofString "a") [1]), .edit (.delete (Path.ofString "a"))]

omit [Sha256] in
theorem nonEmptyValues_setDeleted : NonEmptyValues setDeleted :=
  fun e he => nonEmptyValues_setAgain e (List.mem_of_mem_take (i := 2) he)

omit [Sha256] in
theorem prunesInRange_setDeleted : PrunesInRange setDeleted :=
  prunesInRange_of_forall fun height => by simp [setDeleted]

omit [Sha256] in
/-- The path is neither deleted nor among the deleted ones, and its key is in neither list. -/
theorem deleted_unknown :
    letI := Sha256.ones
    NonEmptyValues setDeleted ∧ PrunesInRange setDeleted ∧ Deleted setDeleted (Path.ofString "a") ∧
      ∃ answers g,
        runSteps overInMemory.exec ⟨InMemoryStore.default⟩ setDeleted = some (answers, g) ∧
          g.isDeleted InMemoryStore.asStore (Path.ofString "a") = some false ∧
          g.getKeys InMemoryStore.asStore (Path.ofString "a") = some [] ∧
          g.deletedKeys InMemoryStore.asStore (Path.ofString "a") = some [] ∧
          g.store.getKeys (Path.ofString "a") = [Path.ofString "a"] ∧
          ¬ KnowsDeleted setDeleted g (Path.ofString "a") (Path.ofString "a") := by
  let inst := Sha256.ones
  have hdeleted : Deleted setDeleted (Path.ofString "a") := rfl
  have hreads : (runSteps overInMemory.exec ⟨InMemoryStore.default⟩ setDeleted).map (fun r =>
      (r.2.getKeys InMemoryStore.asStore (Path.ofString "a"),
        r.2.store.getKeys (Path.ofString "a"))) = some (some [], [Path.ofString "a"]) := by
    decide +kernel
  obtain ⟨⟨answers, g⟩, hrun, hkeys⟩ := Option.map_eq_some_iff.mp hreads
  obtain ⟨hlive, hinner⟩ := Prod.mk.inj hkeys
  have hfalse : g.isDeleted InMemoryStore.asStore (Path.ofString "a") = some false :=
    isDeleted_eq g.store _
  refine ⟨nonEmptyValues_setDeleted, prunesInRange_setDeleted, hdeleted, answers, g, hrun, hfalse,
    hlive, deletedKeys_eq g.store _, hinner, fun hknows => ?_⟩
  obtain ⟨b, hb, hiff⟩ := hknows.isDeleted
  obtain rfl := Option.some.inj (hfalse.symm.trans hb)
  exact Bool.false_ne_true (hiff.mpr hdeleted)

omit [Sha256] in
theorem knowsDeleted_iff_setDeleted :
    letI := Sha256.ones
    ∃ answers g,
      runSteps overInMemory.exec ⟨InMemoryStore.default⟩ setDeleted = some (answers, g) ∧
        ∀ path keyPrefix, KnowsDeleted setDeleted g path keyPrefix ↔
          ¬ Deleted setDeleted path ∧
            ∀ p, keyPrefix.toString.toList <+: p.toString.toList → ¬ Deleted setDeleted p := by
  let inst := Sha256.ones
  exact knowsDeleted_iff setDeleted nonEmptyValues_setDeleted prunesInRange_setDeleted

end GrowingStore

end Basecoin
