import Basecoin.Lib.Loop
import Basecoin.Store.Shared
import Basecoin.Store.Versioned

/-!
# `impls/revertible.rs`

`RevertibleStore` logs what undoes each `set`, and `reset` replays the log from its end. Two slips
meet there. `delete` logs nothing, so what it removes stays removed; and `reset` replays a logged
`set` by the method that logs, so where there is a value to replace the entry comes back, and the
loop never ends. What is left is a loop that ends exactly if every value replaced was deleted
later (`reset_ends_iff`), and then restores every path exactly if no path that had a value was
touched (`reset_restores_iff`).

The loop has no bound in the source and gets none here: `Ends` of `Lib/Loop.lean` relates a state to
the one a loop stops in, pass by pass, and not to end is to be related to none. Both conditions are
on the edits since the last apply and the map before them, of which the log is a function
(`editLog`), so neither asks anything of the loop itself.
-/

namespace Basecoin

open Lib

inductive RevertOp where
  | delete (path : Path)
  | set (path : Path) (value : Bytes)

/-- What undoes a `set` that answered `old`. -/
def RevertOp.of (path : Path) : Option Bytes → RevertOp
  -- None implies this was an insert op, so we record the revert op as delete op
  | none => .delete path
  -- Some old value implies this was an update op, so we record the revert op as a set op
  -- with the old value
  | some old => .set path old

/-- `RevertibleStore<S>`; the log has its last entry first. -/
structure RevertibleStore (S : Type*) where
  store : S
  opLog : List RevertOp

namespace RevertibleStore

section Methods

variable {S Error : Type*} (inner : Store S Error) (self : RevertibleStore S)

def new (store : S) : RevertibleStore S := ⟨store, []⟩

def set (path : Path) (value : Bytes) :
    Option (Except Error (Option Bytes) × RevertibleStore S) :=
  match inner.set self.store path value with
  | none => none
  | some (.error e, store) => some (.error e, { self with store })
  | some (.ok old, store) => some (.ok old, { store, opLog := RevertOp.of path old :: self.opLog })

def get (height : Height) (path : Path) : Option (Option Bytes) := inner.get self.store height path

def delete (path : Path) : Option (RevertibleStore S) :=
  (inner.delete self.store path).map fun store => { self with store }

/-- `apply`; the store inside is not told. -/
def apply : Except Error Unit × RevertibleStore S := (.ok (), { self with opLog := [] })

def commit : Option (Except Error Bytes × RevertibleStore S) :=
  match self.apply with
  | (.error e, self) => some (.error e, self)
  | (.ok _, self) => (inner.commit self.store).map fun r => (r.1, { self with store := r.2 })

/-- One pass of the loop of `reset`: take the last entry, and undo. -/
def resetPass : Option (Pass (RevertibleStore S)) :=
  match self.opLog with
  | [] => some (.done self)
  | .delete path :: rest => (delete inner { self with opLog := rest } path).map .again
  | .set path value :: rest =>
    -- `self.set` logs again
    match set inner { self with opLog := rest } path value with
    | some (.ok _, self) => some (.again self)
    | _ => none

/-- `reset` returns, and leaves this store. -/
def Resets (self' : RevertibleStore S) : Prop := Ends (resetPass inner) self self'

def currentHeight : Option RawHeight := inner.currentHeight self.store

def getKeys (keyPrefix : Path) : Option (List Path) := inner.getKeys self.store keyPrefix

/-- A `set` or a `delete`. -/
def edit : PathEdit → Option (Store.Answer Error × RevertibleStore S)
  | .set path value => (self.set inner path value).map (Prod.map .set id)
  | .delete path => (self.delete inner path).map fun self => (.unit, self)

end Methods

end RevertibleStore

/-! ## Undoing edits of a map -/

/-- The map after the edits. -/
def editMap (m : Path → Option Bytes) (edits : List PathEdit) : Path → Option Bytes :=
  edits.foldl PathEdit.onMap m

/-- What one edit of the map logs. -/
def logOf (m : Path → Option Bytes) : PathEdit → List RevertOp
  | .set path _ => [RevertOp.of path (m path)]
  | .delete _ => []

/-- The log of the edits, the last entry first. -/
def editLog (m : Path → Option Bytes) : List PathEdit → List RevertOp
  | [] => []
  | e :: edits => editLog (PathEdit.onMap m e) edits ++ logOf m e

/-- The map that is left when the log has been replayed; `none` where that never ends. -/
def unwind (m : Path → Option Bytes) : List RevertOp → Option (Path → Option Bytes)
  | [] => some m
  | .delete path :: rest => unwind (Function.update m path none) rest
  | .set path _ :: rest => if m path = none then unwind m rest else none

theorem unwind_append (m : Path → Option Bytes) (log rest : List RevertOp) :
    unwind m (log ++ rest) = (unwind m log).bind fun m' => unwind m' rest := by
  induction log generalizing m with
  | nil => rfl
  | cons op log ih =>
    cases op with
    | delete path => exact ih _
    | set path value =>
      rw [List.cons_append, unwind, unwind]
      split
      · exact ih m
      · rfl

/-- Every value that is replaced is deleted later. -/
def ReplacedDeleted (m : Path → Option Bytes) (edits : List PathEdit) : Prop :=
  ∀ before path value after, edits = before ++ .set path value :: after →
    editMap m before path ≠ none → .delete path ∈ after

theorem replacedDeleted_cons_iff {m : Path → Option Bytes} {e : PathEdit} {edits : List PathEdit} :
    ReplacedDeleted m (e :: edits) ↔
      (∀ path value, e = .set path value → m path ≠ none → .delete path ∈ edits) ∧
        ReplacedDeleted (PathEdit.onMap m e) edits := by
  constructor
  · intro h
    refine ⟨fun path value he => h [] path value edits (by rw [he]; rfl), ?_⟩
    intro before path value after hsplit
    exact h (e :: before) path value after (by rw [hsplit, List.cons_append])
  · rintro ⟨hfirst, hrest⟩ before path value after hsplit
    cases before with
    | nil =>
      obtain ⟨rfl, rfl⟩ := List.cons.inj hsplit
      exact hfirst path value rfl
    | cons e' before =>
      obtain ⟨rfl, htail⟩ := List.cons.inj hsplit
      exact hrest before path value after htail

/-- Of a path that has a value, the first edit deletes it or replaces it. -/
theorem delete_mem_of_touched {edits : List PathEdit} :
    ∀ {m : Path → Option Bytes} {path : Path}, m path ≠ none → ReplacedDeleted m edits →
      path ∈ edits.map PathEdit.path → .delete path ∈ edits := by
  induction edits with
  | nil => intro m path _ _ hmem; cases hmem
  | cons e edits ih =>
    intro m path hvalue h hmem
    rw [replacedDeleted_cons_iff] at h
    by_cases hpath : e.path = path
    · cases e with
      | set q value =>
        obtain rfl : q = path := hpath
        exact List.mem_cons_of_mem _ (h.1 q value rfl hvalue)
      | delete q =>
        obtain rfl : q = path := hpath
        exact List.mem_cons_self
    · have hkeep : PathEdit.onMap m e path = m path := by
        cases e <;> exact Function.update_of_ne (Ne.symm hpath) _ _
      have hlater : path ∈ edits.map PathEdit.path :=
        (List.mem_cons.mp hmem).resolve_left (Ne.symm hpath)
      exact List.mem_cons_of_mem _ (ih (hkeep ▸ hvalue) h.2 hlater)

/-- The map without the paths that were touched. -/
def untouched (m : Path → Option Bytes) (edits : List PathEdit) (p : Path) : Option Bytes :=
  if p ∈ edits.map PathEdit.path then none else m p

theorem untouched_cons_self (m : Path → Option Bytes) (e : PathEdit) (edits : List PathEdit) :
    untouched m (e :: edits) e.path = none :=
  if_pos List.mem_cons_self

theorem untouched_cons_of_ne (m : Path → Option Bytes) {e : PathEdit} (edits : List PathEdit)
    {p : Path} (hp : p ≠ e.path) :
    untouched (PathEdit.onMap m e) edits p = untouched m (e :: edits) p := by
  have hkeep : PathEdit.onMap m e p = m p := by
    cases e <;> exact Function.update_of_ne hp _ _
  have hmem : p ∈ (e :: edits).map PathEdit.path ↔ p ∈ edits.map PathEdit.path := by
    rw [List.map_cons, List.mem_cons, or_iff_right hp]
  rw [untouched, untouched, hkeep, if_congr hmem rfl rfl]

/-- With a path cleared, nothing the first edit does to it shows. -/
theorem untouched_cons_eq (m : Path → Option Bytes) {e : PathEdit} {edits : List PathEdit}
    (hnone : untouched (PathEdit.onMap m e) edits e.path = none) :
    untouched (PathEdit.onMap m e) edits = untouched m (e :: edits) := by
  funext p
  by_cases hp : p = e.path
  · rw [hp, hnone, untouched_cons_self]
  · exact untouched_cons_of_ne m edits hp

/-- To undo the first edit, with the others undone. -/
theorem unwind_logOf_iff {m m' : Path → Option Bytes} {e : PathEdit} {edits : List PathEdit}
    (h : ReplacedDeleted (PathEdit.onMap m e) edits) :
    unwind (untouched (PathEdit.onMap m e) edits) (logOf m e) = some m' ↔
      (∀ path value, e = .set path value → m path ≠ none → .delete path ∈ edits) ∧
        m' = untouched m (e :: edits) := by
  cases e with
  | delete path =>
    have hnone : untouched (PathEdit.onMap m (.delete path)) edits path = none := by
      simp [untouched, PathEdit.onMap]
    rw [logOf, unwind, Option.some.injEq, untouched_cons_eq m hnone, eq_comm]
    refine ⟨fun heq => ⟨fun q v hq => ?_, heq⟩, And.right⟩
    cases hq
  | set path value =>
    have hset : PathEdit.onMap m (.set path value) path ≠ none := by
      simp [PathEdit.onMap]
    cases hm : m path with
    | none =>
      -- the entry is a `delete`
      have hmap : Function.update (untouched (PathEdit.onMap m (.set path value)) edits) path none =
          untouched m (.set path value :: edits) := by
        funext p
        by_cases hp : p = path
        · rw [hp, Function.update_self]
          exact (untouched_cons_self m (.set path value) edits).symm
        · rw [Function.update_of_ne hp]
          exact untouched_cons_of_ne m edits hp
      rw [logOf, hm, RevertOp.of, unwind, unwind, hmap, Option.some.injEq, eq_comm]
      refine ⟨fun heq => ⟨fun q v hq hne => ?_, heq⟩, And.right⟩
      cases hq
      exact absurd hm hne
    | some old =>
      -- the entry is a `set`, replayed only where nothing is left to replace
      have hnone_iff : untouched (PathEdit.onMap m (.set path value)) edits path = none ↔
          .delete path ∈ edits := by
        rw [untouched, ite_eq_left_iff]
        constructor
        · intro hcleared
          refine delete_mem_of_touched hset h ?_
          by_contra hmem
          exact hset (hcleared hmem)
        · exact fun hmem hnot => absurd (List.mem_map_of_mem hmem) hnot
      rw [logOf, hm, RevertOp.of, unwind]
      constructor
      · intro heq
        split at heq
        · next hnone =>
          obtain rfl := Option.some.inj heq
          refine ⟨fun q v hq _ => ?_, untouched_cons_eq m hnone⟩
          cases hq
          exact hnone_iff.mp hnone
        · cases heq
      · rintro ⟨hmem, rfl⟩
        have hnone := hnone_iff.mpr (hmem path value rfl (hm ▸ Option.some_ne_none old))
        rw [if_pos hnone, unwind, untouched_cons_eq m hnone]

/-- **Replaying the log.** It comes to an end exactly if every value that was replaced is deleted
later, and leaves the map without the paths that were touched. -/
theorem unwind_editLog_iff {edits : List PathEdit} :
    ∀ {m m' : Path → Option Bytes}, unwind (editMap m edits) (editLog m edits) = some m' ↔
      ReplacedDeleted m edits ∧ m' = untouched m edits := by
  induction edits with
  | nil =>
    intro m m'
    have hall : ReplacedDeleted m [] := fun before path value after hsplit => by
      cases before <;> cases hsplit
    rw [editLog, unwind, Option.some.injEq, eq_comm]
    exact ⟨fun heq => ⟨hall, heq⟩, And.right⟩
  | cons e edits ih =>
    intro m m'
    have hmap : editMap m (e :: edits) = editMap (PathEdit.onMap m e) edits := rfl
    rw [editLog, hmap, unwind_append, Option.bind_eq_some_iff, replacedDeleted_cons_iff]
    constructor
    · rintro ⟨m₁, hlater, hfirst⟩
      obtain ⟨hrest, rfl⟩ := ih.mp hlater
      obtain ⟨hhead, hm'⟩ := (unwind_logOf_iff hrest).mp hfirst
      exact ⟨⟨hhead, hrest⟩, hm'⟩
    · rintro ⟨⟨hhead, hrest⟩, hm'⟩
      exact ⟨_, ih.mpr ⟨hrest, rfl⟩, (unwind_logOf_iff hrest).mpr ⟨hhead, hm'⟩⟩

/-! ## Over an `InMemoryStore` -/

variable [Sha256]

namespace InMemoryStore

/-- The values at `Height::Pending`. -/
def pendingMap (s : InMemoryStore) (path : Path) : Option Bytes := s.get .pending path

theorem pendingMap_set (s : InMemoryStore) (path : Path) (value : Bytes) :
    (s.set path value).2.pendingMap = Function.update s.pendingMap path (some value) := by
  funext p
  rw [Function.update_apply]
  exact State.get_insert s.pending path value p

theorem pendingMap_delete (s : InMemoryStore) (path : Path) :
    (s.delete path).pendingMap = Function.update s.pendingMap path none := by
  funext p
  rw [Function.update_apply]
  exact State.get_remove s.pending path p

theorem set_fst (s : InMemoryStore) (path : Path) (value : Bytes) :
    (s.set path value).1 = s.pendingMap path :=
  State.insert_fst s.pending path value

end InMemoryStore

namespace RevertibleStore

variable {r : RevertibleStore InMemoryStore} {path : Path} {value : Bytes} {rest : List RevertOp}

/-- **One edit.** -/
theorem edit_inMemory (r : RevertibleStore InMemoryStore) (e : PathEdit) :
    ∃ answer r', r.edit InMemoryStore.asStore e = some (answer, r') ∧
      r'.store.pendingMap = PathEdit.onMap r.store.pendingMap e ∧
      r'.opLog = logOf r.store.pendingMap e ++ r.opLog := by
  cases e with
  | set path value =>
    refine ⟨_, _, rfl, r.store.pendingMap_set path value, ?_⟩
    rw [logOf, ← InMemoryStore.set_fst r.store path value]
    rfl
  | delete path => exact ⟨_, _, rfl, r.store.pendingMap_delete path, rfl⟩

/-- The edits, from any store. -/
theorem exists_run_edits (edits : List PathEdit) :
    ∀ r : RevertibleStore InMemoryStore, ∃ answers r',
      runSteps (edit InMemoryStore.asStore) r edits = some (answers, r') ∧
        r'.store.pendingMap = editMap r.store.pendingMap edits ∧
        r'.opLog = editLog r.store.pendingMap edits ++ r.opLog := by
  induction edits with
  | nil => exact fun r => ⟨[], r, rfl, rfl, rfl⟩
  | cons e edits ih =>
    intro r
    obtain ⟨answer, r₁, hstep, hmap, hlog⟩ := edit_inMemory r e
    obtain ⟨answers, r', hrun, hmap', hlog'⟩ := ih r₁
    refine ⟨answer :: answers, r', runSteps_cons.mpr ⟨answer, r₁, answers, hstep, hrun, rfl⟩, ?_, ?_⟩
    · rw [hmap', hmap]
      rfl
    · rw [hlog', hmap, hlog, editLog, List.append_assoc]

/-- A pass over a logged `set` logs another. -/
theorem resetPass_of_set (h : r.opLog = .set path value :: rest) :
    ∃ r₁, r.resetPass InMemoryStore.asStore = some (.again r₁) ∧
      r₁.store.pendingMap = Function.update r.store.pendingMap path (some value) ∧
      r₁.opLog = RevertOp.of path (r.store.pendingMap path) :: rest := by
  refine ⟨⟨(r.store.set path value).2, RevertOp.of path (r.store.set path value).1 :: rest⟩, ?_,
    r.store.pendingMap_set path value, by rw [InMemoryStore.set_fst]⟩
  rw [resetPass, h]
  rfl

theorem resetPass_of_delete (h : r.opLog = .delete path :: rest) :
    ∃ r₁, r.resetPass InMemoryStore.asStore = some (.again r₁) ∧
      r₁.store.pendingMap = Function.update r.store.pendingMap path none ∧ r₁.opLog = rest := by
  refine ⟨⟨r.store.delete path, rest⟩, ?_, r.store.pendingMap_delete path, rfl⟩
  rw [resetPass, h]
  rfl

/-- The last entry of the log replaces a value. -/
def Replaces (path : Path) (rest : List RevertOp) (r : RevertibleStore InMemoryStore) : Prop :=
  (∃ value, r.opLog = .set path value :: rest) ∧ r.store.pendingMap path ≠ none

/-- Where there is a value to replace, each pass leaves the same log to replay. -/
theorem not_resets_of_set (h : r.opLog = .set path value :: rest)
    (hvalue : r.store.pendingMap path ≠ none) (r' : RevertibleStore InMemoryStore) :
    ¬ r.Resets InMemoryStore.asStore r' := by
  have hreplaces : Replaces path rest r := ⟨⟨value, h⟩, hvalue⟩
  refine not_ends ?_ hreplaces r'
  rintro s ⟨⟨v, hlog⟩, hne⟩
  obtain ⟨s₁, hpass, hmap, hlog₁⟩ := resetPass_of_set hlog
  obtain ⟨old, hold⟩ := Option.ne_none_iff_exists'.mp hne
  refine ⟨s₁, hpass, ⟨old, ?_⟩, ?_⟩
  · rw [hlog₁, hold]
    rfl
  · rw [hmap, Function.update_self]
    exact Option.some_ne_none v

/-- Where there is none, the entry that comes back is a `delete`: two passes change nothing. -/
theorem resets_iff_of_set (h : r.opLog = .set path value :: rest)
    (hnone : r.store.pendingMap path = none) :
    ∃ r₂ : RevertibleStore InMemoryStore, r₂.store.pendingMap = r.store.pendingMap ∧
      r₂.opLog = rest ∧
      ∀ r', r.Resets InMemoryStore.asStore r' ↔ r₂.Resets InMemoryStore.asStore r' := by
  obtain ⟨r₁, hpass₁, hmap₁, hlog₁⟩ := resetPass_of_set h
  rw [hnone, RevertOp.of] at hlog₁
  obtain ⟨r₂, hpass₂, hmap₂, hlog₂⟩ := resetPass_of_delete hlog₁
  refine ⟨r₂, ?_, hlog₂, fun r' => ?_⟩
  · rw [hmap₂, hmap₁, Function.update_idem, ← hnone, Function.update_eq_self]
  · exact (ends_iff_of_again hpass₁).trans (ends_iff_of_again hpass₂)

/-- What `reset` leaves when it returns. -/
theorem unwind_of_resets {r' : RevertibleStore InMemoryStore} (log : List RevertOp) :
    ∀ {r : RevertibleStore InMemoryStore}, r.opLog = log → r.Resets InMemoryStore.asStore r' →
      r'.opLog = [] ∧ unwind r.store.pendingMap log = some r'.store.pendingMap := by
  induction log with
  | nil =>
    intro r hlog h
    have hpass : r.resetPass InMemoryStore.asStore = some (.done r) := by rw [resetPass, hlog]
    obtain rfl := (ends_iff_of_done hpass).mp h
    exact ⟨hlog, rfl⟩
  | cons op rest ih =>
    intro r hlog h
    cases op with
    | delete path =>
      obtain ⟨r₁, hpass, hmap, hlog₁⟩ := resetPass_of_delete hlog
      have hrest := ih hlog₁ ((ends_iff_of_again hpass).mp h)
      rwa [hmap] at hrest
    | set path value =>
      by_cases hnone : r.store.pendingMap path = none
      · obtain ⟨r₂, hmap, hlog₂, hiff⟩ := resets_iff_of_set hlog hnone
        have hrest := ih hlog₂ ((hiff r').mp h)
        rw [hmap] at hrest
        rwa [unwind, if_pos hnone]
      · exact absurd h (not_resets_of_set hlog hnone r')

/-- Where the log unwinds, `reset` returns. -/
theorem exists_resets {m' : Path → Option Bytes} (log : List RevertOp) :
    ∀ {r : RevertibleStore InMemoryStore}, r.opLog = log →
      unwind r.store.pendingMap log = some m' → ∃ r', r.Resets InMemoryStore.asStore r' := by
  induction log with
  | nil =>
    intro r hlog _
    have hpass : r.resetPass InMemoryStore.asStore = some (.done r) := by rw [resetPass, hlog]
    exact ⟨r, (ends_iff_of_done hpass).mpr rfl⟩
  | cons op rest ih =>
    intro r hlog h
    cases op with
    | delete path =>
      obtain ⟨r₁, hpass, hmap, hlog₁⟩ := resetPass_of_delete hlog
      obtain ⟨r', hends⟩ := ih hlog₁ (by rw [hmap]; exact h)
      exact ⟨r', (ends_iff_of_again hpass).mpr hends⟩
    | set path value =>
      rw [unwind] at h
      split at h
      · next hnone =>
        obtain ⟨r₂, hmap, hlog₂, hiff⟩ := resets_iff_of_set hlog hnone
        obtain ⟨r', hends⟩ := ih hlog₂ (by rw [hmap]; exact h)
        exact ⟨r', (hiff r').mpr hends⟩
      · cases h

/-- From an empty log, the edits and then a `reset`. -/
theorem resets_after_edits {r r' : RevertibleStore InMemoryStore} {edits : List PathEdit}
    (hmap : r'.store.pendingMap = editMap r.store.pendingMap edits)
    (hlog : r'.opLog = editLog r.store.pendingMap edits) :
    (ReplacedDeleted r.store.pendingMap edits → ∃ r'', r'.Resets InMemoryStore.asStore r'') ∧
      ∀ r'', r'.Resets InMemoryStore.asStore r'' → r''.opLog = [] ∧
        ReplacedDeleted r.store.pendingMap edits ∧
        r''.store.pendingMap = untouched r.store.pendingMap edits := by
  constructor
  · intro h
    exact exists_resets _ hlog (by rw [hmap]; exact unwind_editLog_iff.mpr ⟨h, rfl⟩)
  · intro r'' h
    obtain ⟨hempty, hunwind⟩ := unwind_of_resets _ hlog h
    rw [hmap] at hunwind
    exact ⟨hempty, unwind_editLog_iff.mp hunwind⟩

/-- **Does the loop of `reset` end?** After any edits of a new store: exactly if every value they
replace is deleted later. -/
theorem reset_ends_iff (s : InMemoryStore) (edits : List PathEdit) :
    ∃ answers r, runSteps (edit InMemoryStore.asStore) (new s) edits = some (answers, r) ∧
      ((∃ r', r.Resets InMemoryStore.asStore r' ∧ r'.opLog = []) ↔
        ReplacedDeleted s.pendingMap edits) := by
  obtain ⟨answers, r, hrun, hmap, hlog⟩ := exists_run_edits edits (new s)
  rw [new, List.append_nil] at hlog
  obtain ⟨hends, hleft⟩ := resets_after_edits hmap hlog
  refine ⟨answers, r, hrun, ?_, ?_⟩
  · rintro ⟨r', hreset, -⟩
    exact (hleft r' hreset).2.1
  · intro h
    obtain ⟨r', hreset⟩ := hends h
    exact ⟨r', hreset, (hleft r' hreset).1⟩

omit [Sha256] in
/-- A path is set, and set again. -/
theorem reset_never_ends :
    letI := Sha256.ones
    ∃ answers r, runSteps (edit InMemoryStore.asStore) (new InMemoryStore.default)
        [.set (Path.ofString "a") [1], .set (Path.ofString "a") [2]] = some (answers, r) ∧
      ¬ ∃ r', r.Resets InMemoryStore.asStore r' ∧ r'.opLog = [] := by
  let inst := Sha256.ones
  obtain ⟨answers, r, hrun, hmap, hlog⟩ := exists_run_edits
    [.set (Path.ofString "a") [1], .set (Path.ofString "a") [2]] (new InMemoryStore.default)
  refine ⟨answers, r, hrun, ?_⟩
  rintro ⟨r', hreset, -⟩
  have hvalue : r.store.pendingMap (Path.ofString "a") = some [2] := by
    rw [hmap]
    rfl
  exact not_resets_of_set hlog (hvalue ▸ Option.some_ne_none _) r' hreset

/-! ## What a `reset` brings back -/

/-- What an `apply` or a `commit` has just left. -/
inductive Settled : RevertibleStore InMemoryStore → Prop
  | apply {r r' : RevertibleStore InMemoryStore} {done : Except Empty Unit}
      (h : r.apply = (done, r')) : Settled r'
  | commit {r r' : RevertibleStore InMemoryStore} {root : Except Empty Bytes}
      (h : r.commit InMemoryStore.asStore = some (root, r')) : Settled r'

theorem Settled.opLog_eq (h : Settled r) : r.opLog = [] := by
  cases h with
  | apply h =>
    obtain ⟨-, rfl⟩ := Prod.mk.inj h
    rfl
  | commit h =>
    obtain ⟨-, rfl⟩ := Prod.mk.inj (Option.some.inj h)
    rfl

omit [Sha256] in
theorem untouched_eq_self_iff {m : Path → Option Bytes} {edits : List PathEdit} :
    untouched m edits = m ↔ ∀ e ∈ edits, m e.path = none := by
  constructor
  · intro h e he
    rw [← h]
    exact if_pos (List.mem_map_of_mem he)
  · intro h
    funext p
    rw [untouched, ite_eq_right_iff]
    intro hmem
    obtain ⟨e, he, rfl⟩ := List.mem_map.mp hmem
    exact (h e he).symm

/-- **Does `reset` restore every path?** After any edits since an `apply` or a `commit`: exactly if
none is of a path that had a value, or `reset` does not return. -/
theorem reset_restores_iff (h : Settled r) (edits : List PathEdit) :
    ∃ answers r', runSteps (edit InMemoryStore.asStore) r edits = some (answers, r') ∧
      ((∀ r'', r'.Resets InMemoryStore.asStore r'' → ∀ path,
          r''.get InMemoryStore.asStore .pending path = r.get InMemoryStore.asStore .pending path) ↔
        (∀ e ∈ edits, r.store.pendingMap e.path = none) ∨
          ¬ ReplacedDeleted r.store.pendingMap edits) := by
  obtain ⟨answers, r', hrun, hmap, hlog⟩ := exists_run_edits edits r
  rw [h.opLog_eq, List.append_nil] at hlog
  obtain ⟨hends, hleft⟩ := resets_after_edits hmap hlog
  have hget : ∀ r'' : RevertibleStore InMemoryStore,
      (∀ path, r''.get InMemoryStore.asStore .pending path =
        r.get InMemoryStore.asStore .pending path) ↔ r''.store.pendingMap = r.store.pendingMap :=
    fun r'' => ⟨fun hall => funext fun path => Option.some.inj (hall path),
      fun heq path => congrArg some (congrFun heq path)⟩
  refine ⟨answers, r', hrun, fun hrestores => ?_, fun hcond r'' hreset => ?_⟩
  · by_cases hdeleted : ReplacedDeleted r.store.pendingMap edits
    · obtain ⟨r'', hreset⟩ := hends hdeleted
      have hsame := (hget r'').mp (hrestores r'' hreset)
      rw [(hleft r'' hreset).2.2] at hsame
      exact .inl (untouched_eq_self_iff.mp hsame)
    · exact .inr hdeleted
  · obtain ⟨-, hdeleted, hmap''⟩ := hleft r'' hreset
    have huntouched := hcond.resolve_right (not_not_intro hdeleted)
    exact (hget r'').mpr (hmap''.trans (untouched_eq_self_iff.mpr huntouched))

/-- A store with one value, settled. -/
def oneSettled : RevertibleStore InMemoryStore :=
  let written := new (InMemoryStore.default.set (Path.ofString "a") [1]).2
  (written.apply : Except Empty Unit × RevertibleStore InMemoryStore).2

omit [Sha256] in
/-- The value is deleted, and `reset` does not bring it back. -/
theorem reset_forgets_delete :
    letI := Sha256.ones
    Settled oneSettled ∧ ∃ answers r' r'',
      runSteps (edit InMemoryStore.asStore) oneSettled [.delete (Path.ofString "a")] =
          some (answers, r') ∧
        r'.Resets InMemoryStore.asStore r'' ∧
        oneSettled.get InMemoryStore.asStore .pending (Path.ofString "a") = some (some [1]) ∧
        r''.get InMemoryStore.asStore .pending (Path.ofString "a") = some none := by
  let inst := Sha256.ones
  exact ⟨.apply rfl, _, _, _, rfl, ⟨1, rfl⟩, rfl, rfl⟩

omit [Sha256] in
theorem reset_restores_iff_oneSettled :
    letI := Sha256.ones
    ∃ answers r', runSteps (edit InMemoryStore.asStore) oneSettled [.delete (Path.ofString "a")] =
        some (answers, r') ∧
      ((∀ r'', r'.Resets InMemoryStore.asStore r'' → ∀ path,
          r''.get InMemoryStore.asStore .pending path =
            oneSettled.get InMemoryStore.asStore .pending path) ↔
        (∀ e ∈ [PathEdit.delete (Path.ofString "a")], oneSettled.store.pendingMap e.path = none) ∨
          ¬ ReplacedDeleted oneSettled.store.pendingMap [.delete (Path.ofString "a")]) := by
  let inst := Sha256.ones
  exact reset_restores_iff (.apply rfl) [.delete (Path.ofString "a")]

end RevertibleStore

end Basecoin
