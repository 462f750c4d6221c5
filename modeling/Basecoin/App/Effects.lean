import Basecoin.App.Blocks
import Basecoin.Store.Versioned

/-!
# What is in effect

`deliver_tx` and `commit` apply, reset and commit the stores of all modules together, so what the
stores hold is one versioned value. Which requests it shows can be told from their answers: genesis
documents, headers and the transactions that succeeded, less what the reset of a failing
transaction took back (`changesOf`). A relation between what the stores hold and the edits in
effect, which the handlers of the modules keep, holds pending, staged and at every committed
height (`Tracked.run`).

The responses are enough for this, and no handler is looked into: a transaction whose code is 0 is an
edit that was applied, one that was turned away is none, and any other is a reset. That a transaction
can also take back what came *before* it is then a matter of the versioned list of edits, in which a
reset returns to what was applied.
-/

namespace Basecoin

open Lib

variable [Sha256] [Bech32] {M G : Type}

/-! ## The stores as one value -/

def World.pending (w : World M) (ref : StoreRef) : State := (w.stores ref).pending

/-- The version that is read at a height. -/
def versionAt {T : Type*} (v : Versioned T) : Height → Option T
  | .pending => some v.working
  | .latest => v.atHeight v.committed.length
  | .stable k => v.atHeight k

omit [Sha256] [Bech32] in
theorem rel_versionAt {T U : Type*} {r : T → U → Prop} {v : Versioned T} {u : Versioned U}
    (h : v.Agree r u) (height : Height) : Option.Rel r (versionAt v height) (versionAt u height) := by
  cases height with
  | pending => exact .some h.working
  | latest =>
    show Option.Rel r (v.atHeight _) (u.atHeight _)
    rw [h.length_committed]
    exact h.atHeight _
  | stable k => exact h.atHeight k

/-- A change of what the stores hold puts something else in its place. -/
def replace (_ held : StoreRef → State) : StoreRef → State := held

/-- The registered stores together are one versioned value. -/
def BaseCoinApp.Shows (app : BaseCoinApp M G) (v : Versioned (StoreRef → State)) : Prop :=
  ∀ ref ∈ handles app.modules, (app.world.stores ref).Refines (v.map (· ref))

namespace BaseCoinApp

variable {app : BaseCoinApp M G} {v : Versioned (StoreRef → State)} {w : World M}

/-- Handlers edit what is pending. -/
theorem Shows.edited (h : app.Shows v) (hw : app.world.SameBase w) :
    Shows { app with world := w } (v.change replace (.edit w.pending)) := by
  intro ref href
  have hr := h ref href
  exact ⟨rfl, (hw ref).staged.trans hr.staged, (congrArg PrunedVec.vec (hw ref).store).trans hr.vec,
    (congrArg PrunedVec.pruned (hw ref).store).trans hr.pruned, hr.pruned_le⟩

theorem Shows.applied (h : app.Shows v) (hw : app.world.SameBase w) (store : InMemoryStore) :
    Shows { app with world := applyModules app.modules w, store }
      ((v.change replace (.edit w.pending)).change replace .apply) := by
  intro ref href
  have hr := h.edited hw ref href
  show ((applyModules app.modules w).stores ref).Refines _
  rw [stores_applyModules _ _ href]
  exact ⟨hr.pending, hr.pending, hr.vec, hr.pruned, hr.pruned_le⟩

theorem Shows.reset (h : app.Shows v) (hw : app.world.SameBase w) (store : InMemoryStore) :
    Shows { app with world := resetModules app.modules w, store } (v.change replace .reset) := by
  intro ref href
  have hr := h.edited hw ref href
  show ((resetModules app.modules w).stores ref).Refines _
  rw [stores_resetModules _ _ href]
  exact ⟨hr.staged, hr.staged, hr.vec, hr.pruned, hr.pruned_le⟩

theorem Shows.commit (h : app.Shows v) (hown : (handles app.modules).Nodup) :
    app.commit.2.Shows (v.change replace .commit) := by
  intro ref href
  have hcommitted : (v.map (· ref)).change PathEdit.onState .commit =
      (v.change replace .commit).map (· ref) := by
    simp [Versioned.change, Versioned.map]
  show ((commitModules app.modules app.store app.world).2.stores ref).Refines _
  rw [stores_commitModules hown href, ← hcommitted]
  exact (h ref href).commit_snd

theorem Shows.pending_eq (h : app.Shows v) {ref : StoreRef} (href : ref ∈ handles app.modules) :
    app.world.pending ref = v.working ref := (h ref href).pending

theorem Shows.getState (h : app.Shows v) {ref : StoreRef} (href : ref ∈ handles app.modules)
    (height : Height) :
    (app.world.stores ref).getState height = (versionAt v height).map (· ref) := by
  have hr := h ref href
  cases height with
  | pending => exact congrArg some hr.pending
  | latest =>
    have hlength : (v.map (· ref)).committed.length = v.committed.length := List.length_map _
    rw [hr.getState_latest, hlength, Versioned.atHeight_map]
    rfl
  | stable k => rw [hr.getState_stable, Versioned.atHeight_map]; rfl

/-- Where nothing was applied or committed. -/
theorem Built.shows (h : app.Built) :
    app.Shows ⟨app.world.pending, fun _ => State.new, [], 0⟩ := by
  intro ref href
  obtain ⟨m, hm, rfl⟩ := List.mem_map.mp href
  have hbase := h.stores m hm
  exact ⟨rfl, hbase.staged, congrArg PrunedVec.vec hbase.store,
    congrArg PrunedVec.pruned hbase.store, le_refl 0⟩

end BaseCoinApp

/-! ## What a request changes -/

/-- What a request does to the stores, unless it is undone. -/
inductive ChainEdit where
  | genesis (appStateBytes : Bytes)
  | block (header : Header)
  | tx (tx : Bytes)
deriving DecidableEq

variable [Host G]

/-- A transaction that succeeds is applied; one that fails, unless it is turned away, resets. -/
def txChanges (tx : Bytes) (response : ResponseDeliverTx) : List (Change ChainEdit) :=
  match BaseCoinApp.admitTx tx with
  | .error _ => []
  | .ok _ => if response.code = 0 then [.edit (.tx tx), .apply] else [.reset]

/-- The changes a request stands for, given its answer. -/
def changesOf : Request → Response → List (Change ChainEdit)
  | .initChain bytes, _ => [.edit (.genesis bytes)]
  | .beginBlock header, _ => header.toList.map fun header => .edit (.block header)
  | .deliverTx tx, .deliverTx response => txChanges tx response
  | .deliverTx _, _ => []
  | .commit, _ => [.commit]

omit [Sha256] in
theorem txChanges_turnedAway {tx : Bytes} (h : TurnedAway tx) (response : ResponseDeliverTx) :
    txChanges tx response = [] := by
  obtain ⟨r, hr⟩ := h
  rw [txChanges, hr]

omit [Sha256] in
theorem txChanges_admitted {tx : Bytes} {signer : AccountId} {messages : List Any}
    (h : BaseCoinApp.admitTx tx = .ok (signer, messages)) (response : ResponseDeliverTx) :
    txChanges tx response = if response.code = 0 then [.edit (.tx tx), .apply] else [.reset] := by
  rw [txChanges, h]

def changes : List Request → List Response → List (Change ChainEdit)
  | request :: requests, response :: responses =>
    changesOf request response ++ changes requests responses
  | _, _ => []

/-- What is in effect after the requests so far, and was at each commit. -/
def inEffect (requests : List Request) (responses : List Response) : Versioned (List ChainEdit) :=
  Versioned.edits (changes requests responses)

/-- What is in effect where a height is read. -/
def editsAt (requests : List Request) (responses : List Response) :
    Height → Option (List ChainEdit) := versionAt (inEffect requests responses)

/-- As many snapshots as commits. -/
theorem count_changesOf {app app' : BaseCoinApp M G} {request : Request} {response : Response}
    (h : app.step request = some (response, app')) :
    (changesOf request response).count .commit = [request].count .commit := by
  cases answers_of_step h with
  | initChain => rfl
  | @beginBlock header => cases header <;> rfl
  | @deliverTx tx response =>
    show (txChanges tx response).count .commit = 0
    unfold txChanges
    cases BaseCoinApp.admitTx tx with
    | error => rfl
    | ok =>
      show (if response.code = 0 then _ else _ : List (Change ChainEdit)).count .commit = 0
      split <;> rfl
  | commit => rfl

theorem count_changes {requests : List Request} : ∀ {app app' : BaseCoinApp M G}
    {responses : List Response}, runSteps BaseCoinApp.step app requests = some (responses, app') →
      (changes requests responses).count .commit = requests.count .commit := by
  induction requests with
  | nil => exact fun _ => rfl
  | cons request requests ih =>
    intro app app' responses h
    obtain ⟨response, app₁, rest, hstep, hrest, rfl⟩ := runSteps_cons.mp h
    rw [changes, List.count_append, count_changesOf hstep, ih hrest, ← List.count_append]
    rfl

theorem length_inEffect {app app' : BaseCoinApp M G} {requests : List Request}
    {responses : List Response}
    (h : runSteps BaseCoinApp.step app requests = some (responses, app')) :
    (inEffect requests responses).committed.length = requests.count .commit := by
  rw [inEffect, Versioned.edits, Versioned.length_committed_runChanges, count_changes h]
  exact Nat.zero_add _

/-! ## What holds at every version -/

/-- What the handlers keep, of what the stores hold and the edits made so far. -/
structure Tracked (ms : List (IdentifiedModule M G))
    (r : (StoreRef → State) → List ChainEdit → Prop) : Prop where
  /-- Only registered stores are looked at. -/
  reads : ∀ {held held' es}, (∀ ref ∈ handles ms, held' ref = held ref) → r held es → r held' es
  genesis : ∀ {bytes appState w w' es}, Host.readGenesis bytes = some appState →
    r w.pending es → (initModules appState ms).run w = some ((), w') →
      r w'.pending (es ++ [.genesis bytes])
  block : ∀ {header w w' events es}, r w.pending es →
    (beginModules header ms []).run w = some (events, w') → r w'.pending (es ++ [.block header])
  tx : ∀ {tx signer messages w w' events es}, BaseCoinApp.admitTx tx = .ok (signer, messages) →
    r w.pending es → (deliverMsgs ms signer messages []).run w = some (.ok events, w') →
      r w'.pending (es ++ [.tx tx])

theorem initChain_reads {app app' : BaseCoinApp M G} {bytes : Bytes} {response : ResponseInitChain}
    (h : app.initChain bytes = some (response, app')) :
    ∃ appState w, Host.readGenesis bytes = some appState ∧
      (initModules appState app.modules).run app.world = some ((), w) ∧
      app' = { app with world := w } := by
  obtain ⟨appState, hread, h₁⟩ := Option.bind_eq_some_iff.mp h
  obtain ⟨⟨_, w⟩, hrun, h₂⟩ := Option.map_eq_some_iff.mp h₁
  obtain rfl := (Prod.mk.inj h₂).2
  exact ⟨appState, w, hread, hrun, rfl⟩

namespace Tracked

variable {r : (StoreRef → State) → List ChainEdit → Prop} {app app' : BaseCoinApp M G}
  {v : Versioned (StoreRef → State)} {u : Versioned (List ChainEdit)}

/-- One request: what its answer says it changed is what it changed. -/
theorem step (h : Tracked app.modules r) (hown : (handles app.modules).Nodup) (hshows : app.Shows v)
    (hagree : v.Agree r u) {request : Request} {response : Response}
    (hstep : app.step request = some (response, app')) :
    ∃ v', app'.Shows v' ∧
      v'.Agree r (u.runChanges Versioned.record (changesOf request response)) := by
  have hpending : r app.world.pending u.working :=
    h.reads (fun _ href => hshows.pending_eq href) hagree.working
  cases answers_of_step hstep with
  | initChain hinit =>
    obtain ⟨appState, w, hread, hrun, rfl⟩ := initChain_reads hinit
    exact ⟨_, hshows.edited fun ref => (initModules appState app.modules).frame hrun ref,
      hagree.edited (h.genesis hread hpending hrun)⟩
  | beginBlock hbegin =>
    obtain ⟨header, events, w, rfl, hrun, rfl⟩ := beginBlock_run hbegin
    exact ⟨_, hshows.edited fun ref => (beginModules header app.modules []).frame hrun ref,
      hagree.edited (h.block hpending hrun)⟩
  | @deliverTx tx response _ hdeliver =>
    show ∃ v', app'.Shows v' ∧ v'.Agree r (u.runChanges Versioned.record (txChanges tx response))
    rcases deliverTx_run hdeliver with
      ⟨haway, rfl⟩ | ⟨signer, messages, result, w, hadm, hrun, hend⟩
    · rw [txChanges_turnedAway haway]
      exact ⟨v, hshows, hagree⟩
    · -- the code tells which: applied after a success, reset after a failure
      have hbase : app.world.SameBase w := (deliverMsgs _ signer messages []).frame hrun
      rw [txChanges_admitted hadm]
      rcases hend with ⟨⟨events, rfl⟩, hcode, rfl⟩ | ⟨-, hcode, rfl⟩
      · rw [if_pos hcode]
        have hedited : (v.change replace (.edit w.pending)).Agree r
            (u.change Versioned.record (.edit (.tx tx))) :=
          hagree.edited (h.tx hadm hpending hrun)
        have happlied : ((v.change replace (.edit w.pending)).change replace .apply).Agree r
            ((u.change Versioned.record (.edit (.tx tx))).change Versioned.record .apply) :=
          hedited.apply
        exact ⟨_, hshows.applied hbase _, happlied⟩
      · rw [if_neg hcode]
        have hreset : (v.change replace .reset).Agree r (u.change Versioned.record .reset) :=
          hagree.reset
        exact ⟨_, hshows.reset hbase _, hreset⟩
  | commit =>
    have hcommit : (v.change replace .commit).Agree r (u.change Versioned.record .commit) :=
      hagree.commit
    exact ⟨_, hshows.commit hown, hcommit⟩

theorem runs (h : Tracked app.modules r) (hown : (handles app.modules).Nodup)
    {requests : List Request} : ∀ {app₁ : BaseCoinApp M G} {v : Versioned (StoreRef → State)}
    {u : Versioned (List ChainEdit)} {responses : List Response}, app₁.modules = app.modules →
      app₁.Shows v → v.Agree r u →
      runSteps BaseCoinApp.step app₁ requests = some (responses, app') →
      ∃ v', app'.Shows v' ∧
        v'.Agree r (u.runChanges Versioned.record (changes requests responses)) := by
  induction requests with
  | nil =>
    intro app₁ v u responses _ hshows hagree hrun
    obtain ⟨rfl, rfl⟩ := Prod.mk.inj (Option.some.inj hrun)
    exact ⟨v, hshows, hagree⟩
  | cons request requests ih =>
    intro app₁ v u responses hmods hshows hagree hrun
    obtain ⟨response, app₂, rest, hstep, hrest, rfl⟩ := runSteps_cons.mp hrun
    obtain ⟨v₂, hshows₂, hagree₂⟩ := step (hmods ▸ h) (hmods ▸ hown) hshows hagree hstep
    rw [changes, Versioned.runChanges_append]
    exact ih ((modules_step hstep).trans hmods) hshows₂ hagree₂ hrest

/-- **The rule of edits in effect.** What the handlers keep holds at every version of the stores of
an application, with the edits that its requests and their answers say are in effect there. -/
theorem run (h : Tracked app.modules r) (h₀ : app.Built) (hnew : r (fun _ => State.new) [])
    (hstart : r app.world.pending []) {requests : List Request} {responses : List Response}
    (hrun : runSteps BaseCoinApp.step app requests = some (responses, app')) :
    ∃ v, app'.Shows v ∧ v.Agree r (inEffect requests responses) :=
  h.runs h₀.own rfl h₀.shows ⟨hstart, hnew, .nil, rfl⟩ hrun

end Tracked

end Basecoin
