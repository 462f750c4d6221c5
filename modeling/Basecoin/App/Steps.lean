import Basecoin.App.Abci

/-!
# What a request can do

First the loops over the modules: `deliver_tx` and `commit` act on the stores through the
modules' handles. Resetting or applying twice is doing it once, so those loops act on each
registered store whatever handles it has; committing twice is not, and `stores_commitModules`
is about modules with stores of their own.

Then the requests. What each method does is said once (`initChain_run`, `beginBlock_run`,
`deliverTx_run`), and a step is one of them (`answers_of_step`). `Outcome` lists what every request
but `commit` can leave behind: handlers edit pending copies, and `deliver_tx` may apply or reset
afterwards. Results about runs go through `outcome_step` or `answers_of_step`.
-/

namespace Basecoin

variable [Sha256] [Bech32] {M G : Type}

def handles (ms : List (IdentifiedModule M G)) : List StoreRef := ms.map fun m => m.module.store

@[simp] theorem handles_cons (m : IdentifiedModule M G) (ms : List (IdentifiedModule M G)) :
    handles (m :: ms) = m.module.store :: handles ms := rfl

theorem mem_handles {ms : List (IdentifiedModule M G)} {m : IdentifiedModule M G} (h : m ∈ ms) :
    m.module.store ∈ handles ms := List.mem_map_of_mem h

/-! ## Resetting and applying -/

/-- An action that is its own square is done once, however often a handle occurs. -/
theorem stores_foldl_modify {f : InMemoryStore → InMemoryStore} (hf : ∀ s, f (f s) = f s)
    (ms : List (IdentifiedModule M G)) (w : World M) (r : StoreRef) :
    (ms.foldl (fun w m => w.modify m.module.store f) w).stores r =
      if r ∈ handles ms then f (w.stores r) else w.stores r := by
  induction ms generalizing w with
  | nil => simp [handles]
  | cons m ms ih =>
    rw [List.foldl_cons, ih]
    by_cases hr : r = m.module.store
    · subst hr
      simp [hf]
    · simp [World.modify_other _ _ hr, hr]

theorem stores_resetModules (ms : List (IdentifiedModule M G)) (w : World M) {r : StoreRef}
    (hr : r ∈ handles ms) : (resetModules ms w).stores r = (w.stores r).reset := by
  rw [resetModules, stores_foldl_modify (f := InMemoryStore.reset) (fun _ => rfl), if_pos hr]

theorem stores_applyModules (ms : List (IdentifiedModule M G)) (w : World M) {r : StoreRef}
    (hr : r ∈ handles ms) : (applyModules ms w).stores r = (w.stores r).apply := by
  rw [applyModules, stores_foldl_modify (f := InMemoryStore.apply) (fun _ => rfl), if_pos hr]

/-! ## Committing -/

theorem stores_commitModules_of_notMem {ms : List (IdentifiedModule M G)} {r : StoreRef}
    (hr : r ∉ handles ms) (state : InMemoryStore) (w : World M) :
    (commitModules ms state w).2.stores r = w.stores r := by
  induction ms generalizing state w with
  | nil => rfl
  | cons m ms ih =>
    rw [handles_cons, List.mem_cons, not_or] at hr
    rw [commitModules, ih hr.2, World.modify_other _ _ hr.1]

/-- Modules with stores of their own: each store is committed once. -/
theorem stores_commitModules {ms : List (IdentifiedModule M G)} (hnd : (handles ms).Nodup)
    {r : StoreRef} (hr : r ∈ handles ms) (state : InMemoryStore) (w : World M) :
    (commitModules ms state w).2.stores r = (w.stores r).commit.2 := by
  induction ms generalizing state w with
  | nil => simp [handles] at hr
  | cons m ms ih =>
    rw [handles_cons, List.nodup_cons] at hnd
    rw [handles_cons, List.mem_cons] at hr
    rcases hr with rfl | hr
    · rw [commitModules, stores_commitModules_of_notMem hnd.1, World.modify_self]
    · have hne : r ≠ m.module.store := by
        intro h
        exact hnd.1 (h ▸ hr)
      rw [commitModules, ih hnd.2 hr, World.modify_other _ _ hne]

theorem pending_commitModules {ms : List (IdentifiedModule M G)} {r : StoreRef}
    (hr : r ∈ handles ms) (state : InMemoryStore) (w : World M) :
    ((commitModules ms state w).2.stores r).pending =
      ((commitModules ms state w).2.stores r).staged := by
  induction ms generalizing state w with
  | nil => simp [handles] at hr
  | cons m ms ih =>
    rw [commitModules]
    by_cases hlater : r ∈ handles ms
    · exact ih hlater _ _
    · rw [handles_cons, List.mem_cons] at hr
      obtain rfl : r = m.module.store := hr.resolve_right hlater
      rw [stores_commitModules_of_notMem hlater, World.modify_self]
      rfl

theorem commitModules_sameBase (ms : List (IdentifiedModule M G)) (state : InMemoryStore)
    (w : World M) : state.SameBase (commitModules ms state w).1 := by
  induction ms generalizing state w with
  | nil => exact .refl _
  | cons m ms ih =>
    have hset : ∀ path value, state.SameBase (state.set path value).2 := fun _ _ => ⟨rfl, rfl⟩
    exact (hset _ _).trans (ih _ _)

/-- What the loop leaves at a path of the main store that no identifier names. -/
theorem get_commitModules_of_notMem {ms : List (IdentifiedModule M G)} {path : Path}
    (hpath : ∀ m ∈ ms, path ≠ Path.ofIdentifier m.id) (state : InMemoryStore) (w : World M) :
    (commitModules ms state w).1.pending.get path = state.pending.get path := by
  induction ms generalizing state w with
  | nil => rfl
  | cons m ms ih =>
    rw [commitModules, ih (fun m' hm' => hpath m' (List.mem_cons_of_mem _ hm')),
      InMemoryStore.set, State.get_insert, if_neg (hpath m List.mem_cons_self)]

/-- Under each identifier the loop records the root its module's store has afterwards. -/
theorem get_commitModules {ms : List (IdentifiedModule M G)} (hnd : (handles ms).Nodup)
    (hid : (ms.map IdentifiedModule.id).Nodup) {m : IdentifiedModule M G} (hm : m ∈ ms)
    (state : InMemoryStore) (w : World M) :
    (commitModules ms state w).1.pending.get (Path.ofIdentifier m.id) =
      some ((commitModules ms state w).2.stores m.module.store).rootHash := by
  induction ms generalizing state w with
  | nil => simp at hm
  | cons m' ms ih =>
    rw [handles_cons, List.nodup_cons] at hnd
    rw [List.map_cons, List.nodup_cons] at hid
    rw [commitModules]
    rcases List.mem_cons.mp hm with rfl | hm
    · have hother : ∀ m' ∈ ms, Path.ofIdentifier m.id ≠ Path.ofIdentifier m'.id := by
        intro m' hm' h
        have hmem : m'.id ∈ ms.map IdentifiedModule.id := List.mem_map_of_mem hm'
        exact hid.1 (Path.ofIdentifier_injective h ▸ hmem)
      rw [get_commitModules_of_notMem hother, stores_commitModules_of_notMem hnd.1,
        InMemoryStore.set, State.get_insert, if_pos rfl]
    · exact ih hnd.2 hid.2 hm _ _

/-! ## The outcomes of a request -/

/-- Two worlds whose stores differ in their pending copies only. -/
def World.SameBase (w w' : World M) : Prop := ∀ ref, (w.stores ref).SameBase (w'.stores ref)

/-- What a request other than `commit` leaves: edited pending copies, which `deliver_tx` may
then apply or reset, main store included. -/
inductive Outcome (app : BaseCoinApp M G) : BaseCoinApp M G → Prop
  | edited {w : World M} (h : app.world.SameBase w) : Outcome app { app with world := w }
  | applied {w : World M} (h : app.world.SameBase w) :
      Outcome app
        { app with world := applyModules app.modules w, store := app.store.apply }
  | reset {w : World M} (h : app.world.SameBase w) :
      Outcome app
        { app with world := resetModules app.modules w, store := app.store.reset }

theorem Outcome.modules {app app' : BaseCoinApp M G} (h : Outcome app app') :
    app'.modules = app.modules := by
  cases h <;> rfl

variable [Host G]

/-- The transaction is answered before any message is dispatched: its bytes do not decode, it
has no usable signer, or it has no message. -/
def TurnedAway (tx : Bytes) : Prop := ∃ response, BaseCoinApp.admitTx tx = .error response

/-- Both halves of `deliver_tx`: what the messages come to, and what is done with it. -/
theorem deliverTx_run {app app' : BaseCoinApp M G} {tx : Bytes} {response : ResponseDeliverTx}
    (h : app.deliverTx tx = some (response, app')) :
    (TurnedAway tx ∧ app' = app) ∨
      ∃ signer messages result w, BaseCoinApp.admitTx tx = .ok (signer, messages) ∧
        (deliverMsgs app.modules signer messages []).run app.world = some (result, w) ∧
        (((∃ events, result = .ok events) ∧ response.code = 0 ∧
            app' = { app with world := applyModules app.modules w, store := app.store.apply }) ∨
          ((∃ e, result = .error e) ∧ response.code ≠ 0 ∧
            app' = { app with world := resetModules app.modules w, store := app.store.reset })) := by
  unfold BaseCoinApp.deliverTx at h
  cases hadm : BaseCoinApp.admitTx tx with
  | error r =>
    rw [hadm] at h
    obtain ⟨-, rfl⟩ := Prod.mk.inj (Option.some.inj h)
    exact Or.inl ⟨⟨r, hadm⟩, rfl⟩
  | ok admitted =>
    obtain ⟨signer, messages⟩ := admitted
    rw [hadm] at h
    obtain ⟨⟨result, w⟩, hrun, hresult⟩ := Option.map_eq_some_iff.mp h
    refine Or.inr ⟨signer, messages, result, w, rfl, hrun, ?_⟩
    cases result with
    | ok events =>
      obtain ⟨rfl, rfl⟩ := Prod.mk.inj hresult
      exact Or.inl ⟨⟨events, rfl⟩, rfl, rfl⟩
    | error e =>
      obtain ⟨rfl, rfl⟩ := Prod.mk.inj hresult
      exact Or.inr ⟨⟨e, rfl⟩, by simp [ResponseDeliverTx.fromError], rfl⟩

/-- The same, as far as the stores tell. -/
theorem deliverTx_cases {app app' : BaseCoinApp M G} {tx : Bytes} {response : ResponseDeliverTx}
    (h : app.deliverTx tx = some (response, app')) :
    (TurnedAway tx ∧ app' = app) ∨
      ∃ w : World M, ¬ TurnedAway tx ∧ app.world.SameBase w ∧
        ((response.code = 0 ∧
            app' = { app with world := applyModules app.modules w, store := app.store.apply }) ∨
          (response.code ≠ 0 ∧
            app' = { app with world := resetModules app.modules w, store := app.store.reset })) := by
  rcases deliverTx_run h with haway | ⟨signer, messages, result, w, hadm, hrun, hend⟩
  · exact Or.inl haway
  · refine Or.inr ⟨w, fun ⟨r, hr⟩ => ?_, (deliverMsgs _ signer messages []).frame hrun,
      hend.imp And.right And.right⟩
    rw [hadm] at hr
    cases hr

theorem outcome_deliverTx {app app' : BaseCoinApp M G} {tx : Bytes}
    {response : ResponseDeliverTx} (h : app.deliverTx tx = some (response, app')) :
    Outcome app app' := by
  rcases deliverTx_cases h with ⟨-, rfl⟩ | ⟨w, -, hw, ⟨-, rfl⟩ | ⟨-, rfl⟩⟩
  · exact .edited fun _ => .refl _
  · exact .applied hw
  · exact .reset hw

theorem initChain_run {app app' : BaseCoinApp M G} {bytes : Bytes} {response : ResponseInitChain}
    (h : app.initChain bytes = some (response, app')) :
    ∃ appState w, (initModules appState app.modules).run app.world = some ((), w) ∧
      app' = { app with world := w } := by
  obtain ⟨appState, -, h₁⟩ := Option.bind_eq_some_iff.mp h
  obtain ⟨⟨_, w⟩, hrun, h₂⟩ := Option.map_eq_some_iff.mp h₁
  obtain rfl := (Prod.mk.inj h₂).2
  exact ⟨appState, w, hrun, rfl⟩

omit [Host G] in
theorem beginBlock_run {app app' : BaseCoinApp M G} {header : Option Header}
    {response : ResponseBeginBlock} (h : app.beginBlock header = some (response, app')) :
    ∃ header' events w, header = some header' ∧
      (beginModules header' app.modules []).run app.world = some (events, w) ∧
      app' = { app with world := w } := by
  obtain ⟨header', hheader, h₁⟩ := Option.bind_eq_some_iff.mp h
  obtain ⟨⟨events, w⟩, hrun, h₂⟩ := Option.map_eq_some_iff.mp h₁
  obtain rfl := (Prod.mk.inj h₂).2
  exact ⟨header', events, w, hheader, hrun, rfl⟩

theorem outcome_initChain {app app' : BaseCoinApp M G} {bytes : Bytes}
    {response : ResponseInitChain} (h : app.initChain bytes = some (response, app')) :
    Outcome app app' := by
  obtain ⟨appState, w, hrun, rfl⟩ := initChain_run h
  exact .edited fun ref => (initModules appState app.modules).frame hrun ref

omit [Host G] in
theorem outcome_beginBlock {app app' : BaseCoinApp M G} {header : Option Header}
    {response : ResponseBeginBlock} (h : app.beginBlock header = some (response, app')) :
    Outcome app app' := by
  obtain ⟨header', events, w, -, hrun, rfl⟩ := beginBlock_run h
  exact .edited fun ref => (beginModules header' app.modules []).frame hrun ref

/-- The method that a request calls. -/
inductive Answers (app : BaseCoinApp M G) : Request → Response → BaseCoinApp M G → Prop
  | initChain {bytes : Bytes} {response : ResponseInitChain} {app' : BaseCoinApp M G}
      (h : app.initChain bytes = some (response, app')) :
      Answers app (.initChain bytes) (.initChain response) app'
  | beginBlock {header : Option Header} {response : ResponseBeginBlock} {app' : BaseCoinApp M G}
      (h : app.beginBlock header = some (response, app')) :
      Answers app (.beginBlock header) (.beginBlock response) app'
  | deliverTx {tx : Bytes} {response : ResponseDeliverTx} {app' : BaseCoinApp M G}
      (h : app.deliverTx tx = some (response, app')) :
      Answers app (.deliverTx tx) (.deliverTx response) app'
  | commit : Answers app .commit (.commit app.commit.1) app.commit.2

theorem answers_of_step {app app' : BaseCoinApp M G} {request : Request} {response : Response}
    (h : app.step request = some (response, app')) : Answers app request response app' := by
  cases request with
  | initChain bytes =>
    obtain ⟨r, hinit, heq⟩ := Option.map_eq_some_iff.mp h
    obtain ⟨rfl, rfl⟩ := Prod.mk.inj heq
    exact .initChain hinit
  | beginBlock header =>
    obtain ⟨r, hbegin, heq⟩ := Option.map_eq_some_iff.mp h
    obtain ⟨rfl, rfl⟩ := Prod.mk.inj heq
    exact .beginBlock hbegin
  | deliverTx tx =>
    obtain ⟨r, hdeliver, heq⟩ := Option.map_eq_some_iff.mp h
    obtain ⟨rfl, rfl⟩ := Prod.mk.inj heq
    exact .deliverTx hdeliver
  | commit =>
    obtain ⟨rfl, rfl⟩ := Prod.mk.inj (Option.some.inj h)
    exact .commit

/-- **What one request does**: it commits, or it has one of the three outcomes. -/
theorem outcome_step {app app' : BaseCoinApp M G} {request : Request} {response : Response}
    (h : app.step request = some (response, app')) :
    (request = .commit ∧ response = .commit app.commit.1 ∧ app' = app.commit.2) ∨
      (request ≠ .commit ∧ (∀ r, response ≠ .commit r) ∧ Outcome app app') := by
  cases answers_of_step h with
  | initChain hinit => exact Or.inr ⟨by simp, by simp, outcome_initChain hinit⟩
  | beginBlock hbegin => exact Or.inr ⟨by simp, by simp, outcome_beginBlock hbegin⟩
  | deliverTx hdeliver => exact Or.inr ⟨by simp, by simp, outcome_deliverTx hdeliver⟩
  | commit => exact Or.inl ⟨rfl, rfl, rfl⟩

theorem modules_step {app app' : BaseCoinApp M G} {request : Request} {response : Response}
    (h : app.step request = some (response, app')) : app'.modules = app.modules := by
  rcases outcome_step h with ⟨-, -, rfl⟩ | ⟨-, -, hout⟩
  · rfl
  · exact hout.modules

end Basecoin
