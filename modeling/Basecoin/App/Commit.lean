import Basecoin.App.Steps
import Basecoin.Lib.Run

/-!
# Every app hash commits to all modules at one height

Only `commit` moves a history: `init_chain` and `begin_block` run handlers, which edit pending
copies, and `deliver_tx` then applies or resets (`Outcome.sameHistory`). A commit appends one state
to every module's history and one to the main one, and the main one holds, under each module's
identifier, the root of the state its module appended (`get_nextMain`). `Lockstep` states
this of all heights at once; the runs keep it because histories only grow.

The modules share the stores with each other, so the rule needs that no two of them have the same
one for their own (`handles`), and that no handler moves a history, which every `Handler` carries.
-/

namespace Basecoin

open Lib

/-! ## Histories -/

namespace InMemoryStore

variable [Sha256]

/-- The states committed so far, oldest first. -/
def history (s : InMemoryStore) : List State := s.store.vec

/-- The root of the state committed as height `k`. -/
def rootAt (s : InMemoryStore) (k : RawHeight) : Bytes :=
  rootBytes ((s.getState (.stable k)).bind State.rootHash)

theorem history_commit (s : InMemoryStore) : s.commit.2.history = s.history ++ [s.pending] := rfl

theorem rootHash_commit (s : InMemoryStore) :
    s.commit.2.rootHash = rootBytes s.pending.rootHash := s.commit_fst

theorem currentHeight_eq {s : InMemoryStore} (h : s.store.pruned = 0) :
    s.currentHeight = s.history.length := by
  simp [currentHeight, PrunedVec.originalLength, PrunedVec.currentLength,
    PrunedVec.prunedLength, h, history]

theorem getState_stable {s : InMemoryStore} (h : s.store.pruned = 0) {k : Nat} (hk : 1 ≤ k) :
    s.getState (.stable k) = s.history[k - 1]? := by
  have hk₀ : ¬ k = 0 := by omega
  simp [getState, hk₀, PrunedVec.get, h, history]

end InMemoryStore

section Lockstep

variable [Sha256] [Bech32] {M G : Type}

def BaseCoinApp.moduleHistory (app : BaseCoinApp M G) (m : IdentifiedModule M G) : List State :=
  (app.world.stores m.module.store).history

/-! ## What a commit appends -/

/-- The state the next commit appends to the main history. -/
def BaseCoinApp.nextMain (app : BaseCoinApp M G) : State :=
  (commitModules app.modules app.store app.world).1.pending

theorem history_commit (app : BaseCoinApp M G) :
    app.commit.2.store.history = app.store.history ++ [app.nextMain] := by
  show (commitModules app.modules app.store app.world).1.history ++ [app.nextMain] = _
  rw [InMemoryStore.history, (commitModules_sameBase _ _ _).store]
  rfl

theorem data_commit (app : BaseCoinApp M G) :
    app.commit.1.data = InMemoryStore.rootBytes app.nextMain.rootHash :=
  InMemoryStore.commit_fst _

theorem moduleHistory_commit {app : BaseCoinApp M G} (hown : (handles app.modules).Nodup)
    {m : IdentifiedModule M G} (hm : m ∈ app.modules) :
    app.commit.2.moduleHistory m =
      app.moduleHistory m ++ [(app.world.stores m.module.store).pending] := by
  show ((commitModules app.modules app.store app.world).2.stores m.module.store).history = _
  rw [stores_commitModules hown (mem_handles hm), InMemoryStore.history_commit]
  rfl

/-- Under a module's identifier the new main state holds the root of the state its module
appends. -/
theorem get_nextMain {app : BaseCoinApp M G} (hown : (handles app.modules).Nodup)
    {m : IdentifiedModule M G} (hm : m ∈ app.modules) :
    app.nextMain.get (Path.ofIdentifier m.id) =
      some (InMemoryStore.rootBytes (app.world.stores m.module.store).pending.rootHash) := by
  rw [BaseCoinApp.nextMain, get_commitModules hown app.unique hm,
    stores_commitModules hown (mem_handles hm), InMemoryStore.rootHash_commit]

/-! ## The other requests leave the histories alone -/

theorem store_foldl_modify {f : InMemoryStore → InMemoryStore} (hf : ∀ s, (f s).store = s.store)
    (ms : List (IdentifiedModule M G)) (w : World M) (r : StoreRef) :
    ((ms.foldl (fun w m => w.modify m.module.store f) w).stores r).store = (w.stores r).store := by
  induction ms generalizing w with
  | nil => rfl
  | cons m ms ih =>
    rw [List.foldl_cons, ih]
    by_cases hr : r = m.module.store
    · subst hr
      rw [World.modify_self, hf]
    · rw [World.modify_other _ _ hr]

/-- No history moved, neither in content nor by pruning. -/
structure SameHistory (app app' : BaseCoinApp M G) : Prop where
  main : app'.store.store = app.store.store
  stores : ∀ ref, (app'.world.stores ref).store = (app.world.stores ref).store

theorem Outcome.sameHistory {app app' : BaseCoinApp M G} (h : Outcome app app') :
    SameHistory app app' := by
  cases h with
  | edited hw => exact ⟨rfl, fun ref => (hw ref).store⟩
  | applied hw =>
    refine ⟨rfl, fun ref => ?_⟩
    exact (store_foldl_modify (f := InMemoryStore.apply) (fun _ => rfl) _ _ _).trans (hw ref).store
  | reset hw =>
    refine ⟨rfl, fun ref => ?_⟩
    exact (store_foldl_modify (f := InMemoryStore.reset) (fun _ => rfl) _ _ _).trans (hw ref).store

/-! ## Lockstep -/

/-- `hashes` are the answers of all commits so far, in order. Main store and module stores have
one unpruned state for each; the main one has that hash for its root, and under every identifier
the root of the module's state of the same height. -/
structure Lockstep (app : BaseCoinApp M G) (hashes : List Bytes) : Prop where
  own : (handles app.modules).Nodup
  unpruned : app.store.store.pruned = 0
  roots : app.store.history.map (fun st => InMemoryStore.rootBytes st.rootHash) = hashes
  modules_unpruned : ∀ m ∈ app.modules, (app.world.stores m.module.store).store.pruned = 0
  recorded : ∀ m ∈ app.modules,
    app.store.history.map (fun st => st.get (Path.ofIdentifier m.id)) =
      (app.moduleHistory m).map fun st => some (InMemoryStore.rootBytes st.rootHash)

theorem Lockstep.outcome {app app' : BaseCoinApp M G} {hashes : List Bytes}
    (h : Lockstep app hashes) (hout : Outcome app app') : Lockstep app' hashes := by
  have hhist := hout.sameHistory
  have hmain : app'.store.history = app.store.history := by
    rw [InMemoryStore.history, hhist.main, InMemoryStore.history]
  have hmodule : ∀ m, app'.moduleHistory m = app.moduleHistory m := by
    intro m
    rw [BaseCoinApp.moduleHistory, InMemoryStore.history, hhist.stores]
    rfl
  refine ⟨hout.modules ▸ h.own, hhist.main ▸ h.unpruned, hmain ▸ h.roots, ?_, ?_⟩
  · intro m hm
    rw [hhist.stores]
    exact h.modules_unpruned m (hout.modules ▸ hm)
  · intro m hm
    rw [hmain, hmodule]
    exact h.recorded m (hout.modules ▸ hm)

theorem Lockstep.commit {app : BaseCoinApp M G} {hashes : List Bytes} (h : Lockstep app hashes) :
    Lockstep app.commit.2 (hashes ++ [app.commit.1.data]) := by
  refine ⟨h.own, ?_, ?_, ?_, ?_⟩
  · show (commitModules app.modules app.store app.world).1.store.pruned = 0
    rw [(commitModules_sameBase _ _ _).store]
    exact h.unpruned
  · rw [history_commit, data_commit, List.map_append, h.roots]
    rfl
  · intro m hm
    show ((commitModules app.modules app.store app.world).2.stores m.module.store).store.pruned = 0
    rw [stores_commitModules h.own (mem_handles hm)]
    exact h.modules_unpruned m hm
  · intro m hm
    have hm' : m ∈ app.modules := hm
    rw [history_commit, moduleHistory_commit h.own hm', List.map_append, List.map_append,
      h.recorded m hm', List.map_singleton, List.map_singleton, get_nextMain h.own hm']

/-! ## Over runs -/

def Response.commitHash? : Response → Option Bytes
  | .commit response => some response.data
  | _ => none

def commitHashes (responses : List Response) : List Bytes :=
  responses.filterMap Response.commitHash?

variable [Host G]

theorem Lockstep.run {requests : List Request} : ∀ {app app' : BaseCoinApp M G}
    {hashes : List Bytes} {responses : List Response}, Lockstep app hashes →
    runSteps BaseCoinApp.step app requests = some (responses, app') →
    Lockstep app' (hashes ++ commitHashes responses) ∧
      (commitHashes responses).length = requests.count .commit ∧
      app.store.history <+: app'.store.history ∧
      app'.modules = app.modules ∧
      ∀ m ∈ app.modules, app.moduleHistory m <+: app'.moduleHistory m := by
  induction requests with
  | nil =>
    intro app app' hashes responses h hrun
    simp only [runSteps_nil, Option.some.injEq, Prod.mk.injEq] at hrun
    obtain ⟨rfl, rfl⟩ := hrun
    refine ⟨?_, rfl, List.prefix_refl _, rfl, fun _ _ => List.prefix_refl _⟩
    simpa [commitHashes] using h
  | cons request requests ih =>
    intro app app' hashes responses h hrun
    obtain ⟨response, app₁, rest, hstep, hrest, rfl⟩ := runSteps_cons.mp hrun
    rcases outcome_step hstep with ⟨rfl, rfl, rfl⟩ | ⟨hne, hresponse, hout⟩
    · -- a commit: one more hash, and every history one state longer
      obtain ⟨hlock, hcount, hmain, hmods, hmodule⟩ := ih h.commit hrest
      refine ⟨?_, ?_, ?_, hmods, ?_⟩
      · simpa [commitHashes, Response.commitHash?] using hlock
      · simpa [commitHashes, Response.commitHash?] using hcount
      · exact (history_commit app ▸ List.prefix_append _ _).trans hmain
      · intro m hm
        exact (moduleHistory_commit h.own hm ▸ List.prefix_append _ _).trans (hmodule m hm)
    · -- any other request: no hash, and the histories as they were
      obtain ⟨hlock, hcount, hmain, hmods, hmodule⟩ := ih (h.outcome hout) hrest
      have hhist := hout.sameHistory
      have hnone : Response.commitHash? response = none := by
        cases response with
        | commit r => exact absurd rfl (hresponse r)
        | _ => rfl
      have hhashes : commitHashes (response :: rest) = commitHashes rest := by
        simp [commitHashes, hnone]
      refine ⟨hhashes ▸ hlock, ?_, ?_, hmods.trans hout.modules, ?_⟩
      · rw [hhashes, hcount, List.count_cons_of_ne hne]
      · rw [InMemoryStore.history, ← hhist.main]
        exact hmain
      · intro m hm
        rw [BaseCoinApp.moduleHistory, InMemoryStore.history, ← hhist.stores]
        exact hmodule m (hout.modules ▸ hm)

omit [Host G] in
/-- An application as it is built: its modules have stores of their own, and nothing has been
applied or committed anywhere (a module may have edited its pending copy while it was made). -/
structure BaseCoinApp.Built (app : BaseCoinApp M G) : Prop where
  own : (handles app.modules).Nodup
  main : InMemoryStore.default.SameBase app.store
  stores : ∀ m ∈ app.modules, InMemoryStore.default.SameBase (app.world.stores m.module.store)

omit [Host G] in
theorem BaseCoinApp.Built.lockstep {app : BaseCoinApp M G} (h : app.Built) : Lockstep app [] := by
  have hmodule : ∀ m ∈ app.modules, (app.world.stores m.module.store).store = PrunedVec.default :=
    fun m hm => (h.stores m hm).store
  have hmain : app.store.store = PrunedVec.default := h.main.store
  refine ⟨h.own, by rw [hmain]; rfl, ?_, fun m hm => by rw [hmodule m hm]; rfl, fun m hm => ?_⟩
  · rw [InMemoryStore.history, hmain]
    rfl
  · rw [BaseCoinApp.moduleHistory, InMemoryStore.history, InMemoryStore.history, hmain,
      hmodule m hm]
    rfl

omit [Host G] in
theorem Lockstep.atHeight {app : BaseCoinApp M G} {hashes : List Bytes} (h : Lockstep app hashes)
    {k : Nat} (hk : 1 ≤ k) (hle : k ≤ hashes.length) :
    hashes[k - 1]? = some (app.store.rootAt k) ∧
      ∀ m ∈ app.modules, app.store.get (.stable k) (Path.ofIdentifier m.id) =
        some ((app.world.stores m.module.store).rootAt k) := by
  have hlen : app.store.history.length = hashes.length := by rw [← h.roots, List.length_map]
  have hlt : k - 1 < app.store.history.length := by omega
  have hst := List.getElem?_eq_getElem hlt
  refine ⟨?_, fun m hm => ?_⟩
  · rw [InMemoryStore.rootAt, InMemoryStore.getState_stable h.unpruned hk, ← h.roots,
      List.getElem?_map, hst]
    rfl
  · have hrec := congrArg (fun l => l[k - 1]?) (h.recorded m hm)
    simp only [List.getElem?_map, hst, Option.map_some] at hrec
    rw [InMemoryStore.get, InMemoryStore.getState_stable h.unpruned hk, hst, InMemoryStore.rootAt,
      InMemoryStore.getState_stable (h.modules_unpruned m hm) hk]
    show State.get _ _ = _
    obtain ⟨st, hst', hroot⟩ := Option.map_eq_some_iff.mp hrec.symm
    rw [← BaseCoinApp.moduleHistory, hst', ← hroot]
    rfl

omit [Host G] in
theorem Lockstep.heights {app : BaseCoinApp M G} {hashes : List Bytes} (h : Lockstep app hashes) :
    app.store.currentHeight = hashes.length ∧
      ∀ m ∈ app.modules, (app.world.stores m.module.store).currentHeight = hashes.length := by
  have hlen : app.store.history.length = hashes.length := by rw [← h.roots, List.length_map]
  refine ⟨(InMemoryStore.currentHeight_eq h.unpruned).trans hlen, fun m hm => ?_⟩
  have hrec := congrArg List.length (h.recorded m hm)
  rw [List.length_map, List.length_map] at hrec
  rw [InMemoryStore.currentHeight_eq (h.modules_unpruned m hm), ← hlen, hrec]
  rfl

/-- **Every app hash commits to all modules at the same height.** Take any run of requests on an
application whose modules have stores of their own. With `n` commits so far, every store is at
height `n`. For every height `k` up to `n`: the `k`-th commit answered the main store's root at
`k`; the main store at `k` maps each identifier to its module's root at `k`; and no further run
changes what any of the stores holds at `k`. -/
theorem commit_lockstep {app₀ app app' : BaseCoinApp M G} {requests more : List Request}
    {responses responses' : List Response} (h₀ : app₀.Built)
    (hrun : runSteps BaseCoinApp.step app₀ requests = some (responses, app))
    (hmore : runSteps BaseCoinApp.step app more = some (responses', app')) :
    app.store.currentHeight = requests.count .commit ∧
      (∀ m ∈ app₀.modules,
        (app.world.stores m.module.store).currentHeight = requests.count .commit) ∧
      ∀ k, 1 ≤ k → k ≤ requests.count .commit →
        (commitHashes responses)[k - 1]? = some (app.store.rootAt k) ∧
        (∀ m ∈ app₀.modules, app.store.get (.stable k) (Path.ofIdentifier m.id) =
          some ((app.world.stores m.module.store).rootAt k)) ∧
        app'.store.getState (.stable k) = app.store.getState (.stable k) ∧
        ∀ m ∈ app₀.modules, (app'.world.stores m.module.store).getState (.stable k) =
          (app.world.stores m.module.store).getState (.stable k) := by
  obtain ⟨hlock, hcount, -, hmods, -⟩ := h₀.lockstep.run hrun
  obtain ⟨hlock', -, hmain', hmods', hmodule'⟩ := hlock.run hmore
  rw [List.nil_append] at hlock hlock'
  obtain ⟨hheight, hheights⟩ := hlock.heights
  rw [hcount] at hheight hheights
  refine ⟨hheight, fun m hm => hheights m (hmods ▸ hm), fun k hk hle => ?_⟩
  obtain ⟨hhash, hrec⟩ := hlock.atHeight hk (hcount ▸ hle)
  refine ⟨hhash, fun m hm => hrec m (hmods ▸ hm), ?_, fun m hm => ?_⟩
  · have hlt : k - 1 < app.store.history.length := by
      rw [← InMemoryStore.currentHeight_eq hlock.unpruned, hheight]
      omega
    obtain ⟨t, ht⟩ := hmain'
    rw [InMemoryStore.getState_stable hlock'.unpruned hk,
      InMemoryStore.getState_stable hlock.unpruned hk, ← ht, List.getElem?_append_left hlt]
  · have hm₁ : m ∈ app.modules := hmods ▸ hm
    have hm₂ : m ∈ app'.modules := hmods' ▸ hm₁
    have hlt : k - 1 < (app.moduleHistory m).length := by
      rw [BaseCoinApp.moduleHistory,
        ← InMemoryStore.currentHeight_eq (hlock.modules_unpruned m hm₁), hheights m hm₁]
      omega
    obtain ⟨t, ht⟩ := hmodule' m hm₁
    rw [InMemoryStore.getState_stable (hlock'.modules_unpruned m hm₂) hk,
      InMemoryStore.getState_stable (hlock.modules_unpruned m hm₁) hk,
      ← BaseCoinApp.moduleHistory, ← BaseCoinApp.moduleHistory, ← ht,
      List.getElem?_append_left hlt]

end Lockstep

section TwoModules

local instance twoModulesBech32 : Bech32 := Bech32.any

local instance twoModulesSha256 : Sha256 := Sha256.ones

/-- Every transaction carries one message, of one byte. -/
local instance twoModulesHost : Host Unit :=
  { decodeTx := fun bytes => .ok
      { signerInfos := [⟨some (.single [])⟩], messages := [⟨"/set", bytes⟩] }
    accountId := fun _ _ => AccountId.fromStr aliceAddress
    readGenesis := fun _ => some ()
    debugError := Error.toString }

def setPath : Path := Path.ofString "set"

/-- The second module writes the bytes of a message. -/
def setDeliver (message : Any) : Handler Unit (Except Error (List Event)) :=
  Handler.onStore 1 (fun s => some (.ok [], (s.set setPath message.value).2)) (by
    intro s _ s' h
    obtain ⟨-, rfl⟩ := Prod.mk.inj (Option.some.inj h)
    exact ⟨rfl, rfl⟩)

/-- Two modules, of which the first handles nothing. -/
def twoModulesApp : BaseCoinApp Unit Unit :=
  { store := InMemoryStore.default
    modules := [⟨"auth", { store := 0 }⟩,
      ⟨"bank", { store := 1, deliver := fun message _ => setDeliver message }⟩]
    unique := by decide
    world := { stores := fun _ => InMemoryStore.default, mem := () } }

/-- After a transaction. -/
def setApp : BaseCoinApp Unit Unit := ((twoModulesApp.deliverTx [7]).get rfl).2

/-- And after another, past the first commit. -/
def setAgainApp : BaseCoinApp Unit Unit := ((setApp.commit.2.deliverTx [8]).get rfl).2

/-- A write and a commit, then another write and another commit: the first height keeps the first
value. -/
theorem commit_lockstep_two :
    (setApp.commit.2.world.stores 1).get (.stable 1) setPath = some [7] ∧
      (setAgainApp.commit.2.world.stores 1).get (.stable 2) setPath = some [8] ∧
      setApp.commit.2.store.currentHeight = 1 ∧
      (∀ m ∈ twoModulesApp.modules,
        (setApp.commit.2.world.stores m.module.store).currentHeight = 1) ∧
      ∀ k, 1 ≤ k → k ≤ 1 →
        [setApp.commit.1.data][k - 1]? = some (setApp.commit.2.store.rootAt k) ∧
        (∀ m ∈ twoModulesApp.modules,
          setApp.commit.2.store.get (.stable k) (Path.ofIdentifier m.id) =
            some ((setApp.commit.2.world.stores m.module.store).rootAt k)) ∧
        setAgainApp.commit.2.store.getState (.stable k) =
          setApp.commit.2.store.getState (.stable k) ∧
        ∀ m ∈ twoModulesApp.modules,
          (setAgainApp.commit.2.world.stores m.module.store).getState (.stable k) =
            (setApp.commit.2.world.stores m.module.store).getState (.stable k) := by
  have hbuilt : twoModulesApp.Built := ⟨by decide, .refl _, fun _ _ => .refl _⟩
  have hrun : runSteps BaseCoinApp.step twoModulesApp [.deliverTx [7], .commit] =
      some ([.deliverTx ((twoModulesApp.deliverTx [7]).get rfl).1, .commit setApp.commit.1],
        setApp.commit.2) := rfl
  have hmore : runSteps BaseCoinApp.step setApp.commit.2 [.deliverTx [8], .commit] =
      some ([.deliverTx ((setApp.commit.2.deliverTx [8]).get rfl).1,
        .commit setAgainApp.commit.1], setAgainApp.commit.2) := rfl
  exact ⟨rfl, rfl, commit_lockstep hbuilt hrun hmore⟩

end TwoModules

end Basecoin
