import Basecoin.App.Chain

/-!
# Runs of blocks

Consensus drives the application block by block: `begin_block` with the header of the next height,
transactions, `commit`. A history is some blocks committed so and perhaps one in progress. What is
to hold of every history is stated once between blocks and once within one, and shown of the four
kinds of request (`BlockInvariant`).

Three layers lead there. The loops of the application, over the modules and over the messages of a
transaction, preserve what each module preserves (`triple_deliverMsg`, `keeps_deliverMsgs`): a
module that answers `NotHandled` may not have changed what the next one relies on. A transaction
adds the end of the loop to that, where everything is applied or everything is reset
(`deliverTx_keeps`). And a history is a list of requests with its blocks numbered from 1, so a
header's height is the number of blocks before it and one.
-/

namespace Basecoin

open Lib

variable [Sha256] [Bech32] {M G : Type}

/-! ## What the loops preserve -/

section Loops

variable {P : World M → Prop}

/-- Modules are asked one after the other for as long as they answer `NotHandled`. -/
theorem triple_deliverMsg {Q : Except Error (List Event) → World M → Prop} {message : Any}
    {signer : AccountId} (hnext : ∀ w, Q (.error .notHandled) w ↔ P w) :
    ∀ {ms : List (IdentifiedModule M G)},
      (∀ m ∈ ms, Handler.Triple P (m.module.deliver message signer) Q) →
        Handler.Triple P (deliverMsg message signer ms) Q
  | [], _ => Handler.triple_pure fun w hw => (hnext w).mpr hw
  | m :: ms, h => by
    refine Handler.triple_bind (h m List.mem_cons_self) fun result => ?_
    match result with
    | .ok _ => exact Handler.triple_pure fun w hw => hw
    | .error .notHandled =>
      intro w a w' hw hrun
      exact triple_deliverMsg hnext (fun m' hm' => h m' (List.mem_cons_of_mem _ hm')) w a w'
        ((hnext w).mp hw) hrun
    | .error (.custom _) => exact Handler.triple_pure fun w hw => hw
    | .error (.bank _) => exact Handler.triple_pure fun w hw => hw
    | .error (.ibc _) => exact Handler.triple_pure fun w hw => hw
    | .error (.gov _) => exact Handler.triple_pure fun w hw => hw

theorem keeps_deliverMsg {undone : Prop} {message : Any} {signer : AccountId}
    {ms : List (IdentifiedModule M G)}
    (h : ∀ m ∈ ms, (m.module.deliver message signer).Keeps undone P) :
    (deliverMsg message signer ms).Keeps undone P :=
  triple_deliverMsg
    (fun _ => ⟨fun hw => hw fun _ he _ => (Except.error.inj he).symm, fun hw _ => hw⟩) h

theorem keeps_deliverMsgs {undone : Prop} {modules : List (IdentifiedModule M G)}
    {signer : AccountId} :
    ∀ {messages : List Any} {events : List Event},
      (∀ message ∈ messages, ∀ m ∈ modules, (m.module.deliver message signer).Keeps undone P) →
        (deliverMsgs modules signer messages events).Keeps undone P
  | [], _, _ => (Handler.preserves_pure _).keeps
  | message :: messages, _, h => by
    refine Handler.triple_bind (keeps_deliverMsg (h message List.mem_cons_self)) fun result => ?_
    cases result with
    | ok =>
      intro w a w' hw hrun
      exact keeps_deliverMsgs (fun message' hm => h message' (List.mem_cons_of_mem _ hm)) w a w'
        (hw fun e he => by cases he) hrun
    | error => exact Handler.triple_pure fun w hw => hw

/-- The first message fails, or the others are next. -/
theorem run_deliverMsgs_cons_iff {modules : List (IdentifiedModule M G)} {signer : AccountId}
    {message : Any} {messages : List Any} {events : List Event} {w w' : World M}
    {result : Except Error (List Event)} :
    (deliverMsgs modules signer (message :: messages) events).run w = some (result, w') ↔
      (∃ e, (deliverMsg message signer modules).run w = some (.error e, w') ∧ result = .error e) ∨
        ∃ new w₁, (deliverMsg message signer modules).run w = some (.ok new, w₁) ∧
          (deliverMsgs modules signer messages (events ++ new)).run w₁ = some (result, w') := by
  rw [deliverMsgs, Handler.run_bind]
  cases (deliverMsg message signer modules).run w with
  | none => simp
  | some r =>
    obtain ⟨first, w₁⟩ := r
    cases first with
    | error e =>
      simp only [Option.bind_some, Handler.run_pure, Option.some.injEq, Prod.mk.injEq,
        Except.error.injEq, reduceCtorEq, false_and, exists_false, or_false]
      constructor
      · rintro ⟨rfl, rfl⟩
        exact ⟨e, ⟨rfl, rfl⟩, rfl⟩
      · rintro ⟨e', ⟨rfl, rfl⟩, rfl⟩
        exact ⟨rfl, rfl⟩
    | ok new =>
      simp only [Option.bind_some, Option.some.injEq, Prod.mk.injEq, Except.ok.injEq, reduceCtorEq,
        false_and, exists_false, false_or]
      constructor
      · exact fun h => ⟨new, w₁, ⟨rfl, rfl⟩, h⟩
      · rintro ⟨new', w₂, ⟨rfl, rfl⟩, h⟩
        exact h

/-- What comes first in messages that succeed, succeeds. -/
theorem exists_run_deliverMsgs_of_append {modules : List (IdentifiedModule M G)} {signer : AccountId}
    {messages later : List Any} :
    ∀ {events events' : List Event} {w w' : World M},
      (deliverMsgs modules signer (messages ++ later) events).run w = some (.ok events', w') →
        ∃ events₁ w₁,
          (deliverMsgs modules signer messages events).run w = some (.ok events₁, w₁) := by
  induction messages with
  | nil => exact fun {events} _ {w} _ _ => ⟨events, w, rfl⟩
  | cons message messages ih =>
    intro events events' w w' h
    rcases run_deliverMsgs_cons_iff.mp h with ⟨e, -, heq⟩ | ⟨new, w₂, hfirst, hrest⟩
    · cases heq
    · obtain ⟨events₁, w₁, hrun⟩ := ih hrest
      exact ⟨events₁, w₁, run_deliverMsgs_cons_iff.mpr (.inr ⟨new, w₂, hfirst, hrun⟩)⟩

/-- Messages fail at the first that does. -/
theorem exists_failure {modules : List (IdentifiedModule M G)} {signer : AccountId}
    {messages : List Any} {e : Error} :
    ∀ {events : List Event} {w w' : World M},
      (deliverMsgs modules signer messages events).run w = some (.error e, w') →
        ∃ before message after events₁ w₁, messages = before ++ message :: after ∧
          (deliverMsgs modules signer before events).run w = some (.ok events₁, w₁) ∧
          (deliverMsg message signer modules).run w₁ = some (.error e, w') := by
  induction messages with
  | nil => intro events w w' h; cases h
  | cons message messages ih =>
    intro events w w' h
    rcases run_deliverMsgs_cons_iff.mp h with ⟨e', hfirst, heq⟩ | ⟨new, w₂, hfirst, hrest⟩
    · obtain rfl := Except.error.inj heq
      exact ⟨[], message, messages, events, w, rfl, rfl, hfirst⟩
    · obtain ⟨before, failing, after, events₁, w₁, rfl, hrun, hfails⟩ := ih hrest
      exact ⟨message :: before, failing, after, events₁, w₁, rfl,
        run_deliverMsgs_cons_iff.mpr (.inr ⟨new, w₂, hfirst, hrun⟩), hfails⟩

theorem preserves_initModules {appState : G} :
    ∀ {ms : List (IdentifiedModule M G)}, (∀ m ∈ ms, (m.module.init appState).Preserves P) →
      (initModules appState ms).Preserves P
  | [], _ => Handler.preserves_pure _
  | _ :: _, h => Handler.triple_bind (h _ List.mem_cons_self) fun _ =>
    preserves_initModules fun m' hm' => h m' (List.mem_cons_of_mem _ hm')

theorem mem_foldl_modify (f : InMemoryStore → InMemoryStore) (ms : List (IdentifiedModule M G))
    (w : World M) : (ms.foldl (fun w m => w.modify m.module.store f) w).mem = w.mem := by
  induction ms generalizing w with
  | nil => rfl
  | cons m ms ih => rw [List.foldl_cons, ih, World.mem_modify]

theorem mem_commitModules (ms : List (IdentifiedModule M G)) (state : InMemoryStore) (w : World M) :
    (commitModules ms state w).2.mem = w.mem := by
  induction ms generalizing state w with
  | nil => rfl
  | cons m ms ih => rw [commitModules, ih, World.mem_modify]

end Loops

/-! ## Counting commits -/

/-- The application has these modules, and every store as many states as there were commits. -/
structure Committed (ms : List (IdentifiedModule M G)) (n : Nat) (app : BaseCoinApp M G) : Prop where
  modules : app.modules = ms
  lockstep : ∃ hashes, Lockstep app hashes ∧ hashes.length = n

namespace Committed

variable {ms : List (IdentifiedModule M G)} {n : Nat} {app app' : BaseCoinApp M G}

theorem outcome (h : Committed ms n app) (hout : Outcome app app') : Committed ms n app' := by
  obtain ⟨hashes, hlock, hlen⟩ := h.lockstep
  exact ⟨hout.modules.trans h.modules, hashes, hlock.outcome hout, hlen⟩

theorem commit (h : Committed ms n app) : Committed ms (n + 1) app.commit.2 := by
  obtain ⟨hashes, hlock, hlen⟩ := h.lockstep
  exact ⟨h.modules, _, hlock.commit, by rw [List.length_append, hlen, List.length_singleton]⟩

theorem height (h : Committed ms n app) {m : IdentifiedModule M G} (hm : m ∈ ms) :
    (app.world.stores m.module.store).currentHeight = n := by
  obtain ⟨hashes, hlock, hlen⟩ := h.lockstep
  rw [hlock.heights.2 m (h.modules ▸ hm), hlen]

theorem handles_nodup (h : Committed ms n app) : (handles ms).Nodup := by
  obtain ⟨hashes, hlock, -⟩ := h.lockstep
  exact h.modules ▸ hlock.own

end Committed

theorem BaseCoinApp.Built.committed {app : BaseCoinApp M G} (h : app.Built) :
    Committed app.modules 0 app :=
  ⟨rfl, [], h.lockstep, rfl⟩

/-! ## Transactions -/

section Transactions

variable [Host G]

/-- What a transaction leaves, and what its handlers kept on the way there. -/
theorem deliverTx_keeps {app app' : BaseCoinApp M G} {tx : Bytes} {response : ResponseDeliverTx}
    (h : app.deliverTx tx = some (response, app')) :
    (TurnedAway tx ∧ app' = app) ∨
      ∃ signer messages w, BaseCoinApp.admitTx tx = .ok (signer, messages) ∧
        app.world.SameBase w ∧
        (∀ (undone : Prop) (P : World M → Prop), (∀ message ∈ messages, ∀ m ∈ app.modules,
          (m.module.deliver message signer).Keeps undone P) →
            P app.world → (response.code ≠ 0 → ¬ undone) → P w) ∧
        ((response.code = 0 ∧
            app' = { app with world := applyModules app.modules w, store := app.store.apply }) ∨
          (response.code ≠ 0 ∧
            app' = { app with world := resetModules app.modules w, store := app.store.reset })) := by
  rcases deliverTx_run h with haway | ⟨signer, messages, result, w, hadm, hrun, hend⟩
  · exact .inl haway
  · refine .inr ⟨signer, messages, w, hadm, (deliverMsgs _ signer messages []).frame hrun,
      fun undone P hP hw hfate => ?_, hend.imp And.right And.right⟩
    refine keeps_deliverMsgs hP _ _ _ hw hrun fun e he hundone => ?_
    rcases hend with ⟨⟨events, hok⟩, -⟩ | ⟨-, hfail, -⟩
    · cases hok.symm.trans he
    · exact absurd hundone (hfate hfail)

end Transactions

/-! ## Histories -/

structure Block where
  header : Header
  txs : List Bytes

namespace Block

/-- The requests of a block before its commit. -/
def opening (self : Block) : List Request :=
  .beginBlock (some self.header) :: self.txs.map .deliverTx

def requests (self : Block) : List Request := self.opening ++ [.commit]

end Block

/-- The genesis requests, the committed blocks, and the block in progress, numbered from 1. -/
structure History where
  genesis : List Bytes
  blocks : List Block
  current : Option Block
  numbered : ∀ i b, (blocks ++ current.toList)[i]? = some b → b.header.height = i + 1

namespace History

def requests (self : History) : List Request :=
  self.genesis.map .initChain ++
    (self.blocks.flatMap Block.requests ++ self.current.toList.flatMap Block.opening)

/-- One statement between blocks and one within a block, at the end of the history. -/
def Holds (self : History) (Before : List Block → BaseCoinApp M G → Prop)
    (During : List Block → Header → BaseCoinApp M G → Prop) (app : BaseCoinApp M G) : Prop :=
  match self.current with
  | none => Before self.blocks app
  | some b => During self.blocks b.header app

omit [Sha256] [Bech32] in
theorem count_opening (b : Block) : b.opening.count .commit = 0 := by
  rw [List.count_eq_zero, Block.opening]
  simp

omit [Sha256] [Bech32] in
/-- There is a commit for each committed block. -/
theorem count_requests (self : History) : self.requests.count .commit = self.blocks.length := by
  have hgenesis : (self.genesis.map Request.initChain).count .commit = 0 := by
    rw [List.count_eq_zero]
    simp
  have hblocks : ∀ blocks : List Block,
      (blocks.flatMap Block.requests).count .commit = blocks.length := by
    intro blocks
    induction blocks with
    | nil => rfl
    | cons b blocks ih =>
      rw [List.flatMap_cons, List.count_append, ih, Block.requests, List.count_append,
        count_opening, List.length_cons, List.count_singleton_self, Nat.zero_add, Nat.add_comm]
  have hcurrent : (self.current.toList.flatMap Block.opening).count .commit = 0 := by
    cases self.current with
    | none => rfl
    | some b => rw [Option.toList_some, List.flatMap_singleton, count_opening]
  rw [requests, List.count_append, List.count_append, hgenesis, hblocks, hcurrent, Nat.zero_add,
    Nat.add_zero]

end History

/-! ## The rule -/

omit [Sha256] [Bech32] in
theorem getElem?_append_of_eq_some {bs bs' : List Block} {i : Nat} {b : Block}
    (h : bs[i]? = some b) : (bs ++ bs')[i]? = some b := by
  rw [List.getElem?_append_left (List.getElem?_eq_some_iff.mp h).1, h]

variable [Host G]

/-- What the requests of a history keep, each where it meets the condition. -/
structure BlockInvariant (P : BaseCoinApp M G → Request → Prop)
    (Before : List Block → BaseCoinApp M G → Prop)
    (During : List Block → Header → BaseCoinApp M G → Prop) : Prop where
  initChain : ∀ {app bytes response app'}, Before [] app → P app (.initChain bytes) →
    app.initChain bytes = some (response, app') → Before [] app'
  beginBlock : ∀ {blocks header app response app'}, Before blocks app →
    header.height = blocks.length + 1 → P app (.beginBlock (some header)) →
      app.beginBlock (some header) = some (response, app') → During blocks header app'
  deliverTx : ∀ {blocks header app tx response app'}, During blocks header app →
    P app (.deliverTx tx) → app.deliverTx tx = some (response, app') → During blocks header app'
  commit : ∀ {blocks header txs app}, During blocks header app →
    Before (blocks ++ [⟨header, txs⟩]) app.commit.2

namespace BlockInvariant

variable {P : BaseCoinApp M G → Request → Prop} {Before : List Block → BaseCoinApp M G → Prop}
  {During : List Block → Header → BaseCoinApp M G → Prop} {app app' : BaseCoinApp M G}
  {responses : List Response}

theorem run_genesis (h : BlockInvariant P Before During) {genesis : List Bytes}
    (hcond : Along BaseCoinApp.step P app (genesis.map .initChain)) (hbefore : Before [] app)
    (hrun : runSteps BaseCoinApp.step app (genesis.map .initChain) = some (responses, app')) :
    Before [] app' := by
  refine hcond.invariant_map (fun s bytes o s' hs hP hstep => ?_) hbefore hrun
  cases answers_of_step hstep with
  | initChain hinit => exact h.initChain hs hP hinit

theorem run_opening (h : BlockInvariant P Before During) {blocks : List Block} {b : Block}
    (hheight : b.header.height = blocks.length + 1)
    (hcond : Along BaseCoinApp.step P app b.opening) (hbefore : Before blocks app)
    (hrun : runSteps BaseCoinApp.step app b.opening = some (responses, app')) :
    During blocks b.header app' := by
  obtain ⟨response, app₁, responses', hstep, htxs, -⟩ := runSteps_cons.mp hrun
  have hduring : During blocks b.header app₁ := by
    cases answers_of_step hstep with
    | beginBlock hbegin => exact h.beginBlock hbefore hheight hcond.1 hbegin
  refine (hcond.2 _ _ hstep).invariant_map (fun s tx o s' hs hP hstep => ?_) hduring htxs
  cases answers_of_step hstep with
  | deliverTx hdeliver => exact h.deliverTx hs hP hdeliver

theorem run_blocks (h : BlockInvariant P Before During) {blocks : List Block}
    (hnumbered : ∀ i b, blocks[i]? = some b → b.header.height = i + 1)
    (hcond : Along BaseCoinApp.step P app (blocks.flatMap Block.requests)) (hbefore : Before [] app)
    (hrun : runSteps BaseCoinApp.step app (blocks.flatMap Block.requests) =
      some (responses, app')) : Before blocks app' := by
  induction blocks using List.reverseRecOn generalizing responses app' with
  | nil =>
    obtain ⟨-, rfl⟩ := Prod.mk.inj (Option.some.inj hrun)
    exact hbefore
  | append_singleton blocks b ih =>
    rw [List.flatMap_append, List.flatMap_singleton] at hcond hrun
    obtain ⟨hfirst, hlast⟩ := along_append.mp hcond
    obtain ⟨app₁, responses₁, responses₂, hrun₁, hrun₂, -⟩ := runSteps_append.mp hrun
    have hbefore₁ := ih (fun i b' hb' => hnumbered i b' (getElem?_append_of_eq_some hb'))
      hfirst hrun₁
    have hheight : b.header.height = blocks.length + 1 :=
      hnumbered blocks.length b List.getElem?_concat_length
    obtain ⟨app₂, responses₃, response, hopening, hcommit, -⟩ := runSteps_concat.mp hrun₂
    have hduring := h.run_opening hheight (along_append.mp (hlast _ _ hrun₁)).1 hbefore₁ hopening
    cases answers_of_step hcommit with
    | commit => exact h.commit hduring

/-- **The block rule.** What the four kinds of request keep, every history keeps. -/
theorem run (h : BlockInvariant P Before During) {history : History}
    (hcond : Along BaseCoinApp.step P app history.requests) (hbefore : Before [] app)
    (hrun : runSteps BaseCoinApp.step app history.requests = some (responses, app')) :
    history.Holds Before During app' := by
  obtain ⟨hgenesis, hblocks⟩ := along_append.mp hcond
  obtain ⟨app₁, _, _, hrun₁, hrun₂, -⟩ := runSteps_append.mp hrun
  obtain ⟨app₂, _, _, hrun₃, hrun₄, -⟩ := runSteps_append.mp hrun₂
  obtain ⟨hcommitted, hcurrent⟩ := along_append.mp (hblocks _ _ hrun₁)
  have hbefore₂ := h.run_blocks
    (fun i b hb => history.numbered i b (getElem?_append_of_eq_some hb)) hcommitted
    (h.run_genesis hgenesis hbefore hrun₁) hrun₃
  replace hcurrent := hcurrent _ _ hrun₃
  unfold History.Holds
  cases hnow : history.current with
  | none =>
    rw [hnow] at hrun₄
    obtain ⟨-, rfl⟩ := Prod.mk.inj (Option.some.inj hrun₄)
    exact hbefore₂
  | some b =>
    have hheight : b.header.height = history.blocks.length + 1 := by
      refine history.numbered history.blocks.length b ?_
      rw [hnow]
      exact List.getElem?_concat_length
    rw [hnow, Option.toList_some, List.flatMap_singleton] at hrun₄ hcurrent
    exact h.run_opening hheight hcurrent hbefore₂ hrun₄

end BlockInvariant

end Basecoin
