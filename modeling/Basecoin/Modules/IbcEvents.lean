import Basecoin.Lib.Run
import Basecoin.Modules.Context
import Mathlib.Data.List.Forall2

/-!
# `process_message`, and whose events it reports

The context of the ibc module collects events in a list that outlives the message. Handling a core
message ends by draining it; handling a transfer drains the list of a clone of the transfer module,
made for the message, which nothing fills. What either kind emits goes into the context, so a
transfer reports nothing, and what it emitted waits there for the next core message that succeeds
(`reports_own_iff`).

A message that fails leaves its events in the context too, and whatever resets the stores does not
reach the list. So what the next core message reports depends on all messages since the last one
that drained, of any transaction. What `ibc-rs` does with a message does not: it cannot read the
list, and `handling` is its part of it, message by message.
-/

namespace Basecoin

open Lib

/-- A call into `ibc-rs`: how it ends, what it emitted through the context it was given first, and
what it leaves of everything else. -/
structure IbcCall (W IbcEvent : Type) where
  result : Except String Unit
  emitted : List IbcEvent
  rest : W

/-- What `ibc-rs` does with messages; `W` is all that its calls reach apart from lists of events,
which they cannot read. `none` is a panic. -/
class IbcHandlers (W : Type) (MsgEnvelope MsgTransfer IbcEvent : outParam Type) where
  /-- `MsgEnvelope::try_from` and `MsgTransfer::try_from`. -/
  msgEnvelope : Any → Option MsgEnvelope
  msgTransfer : Any → Option MsgTransfer
  dispatch : MsgEnvelope → W → Option (IbcCall W IbcEvent)
  sendTransfer : MsgTransfer → W → Option (IbcCall W IbcEvent)

/-- `IbcContext`, with its events apart from the rest. -/
structure IbcContext (W IbcEvent : Type) where
  events : List IbcEvent
  rest : W

/-- `IbcTransferModule`, the events. -/
structure IbcTransferModule (IbcEvent : Type) where
  events : List IbcEvent

/-- `Ibc`; its router holds a transfer module, which is only ever cloned. -/
structure Ibc (W IbcEvent : Type) where
  ctx : IbcContext W IbcEvent
  transfer : IbcTransferModule IbcEvent

namespace IbcContext

variable {W IbcEvent : Type}

def emitIbcEvent (self : IbcContext W IbcEvent) (event : IbcEvent) : IbcContext W IbcEvent :=
  { self with events := self.events ++ [event] }

/-- What a call leaves of the context. -/
def after (self : IbcContext W IbcEvent) (call : IbcCall W IbcEvent) : IbcContext W IbcEvent :=
  { call.emitted.foldl emitIbcEvent self with rest := call.rest }

theorem events_foldl_emit (emitted : List IbcEvent) (self : IbcContext W IbcEvent) :
    (emitted.foldl emitIbcEvent self).events = self.events ++ emitted := by
  induction emitted generalizing self with
  | nil => simp
  | cons event emitted ih => simp [ih, emitIbcEvent]

@[simp] theorem events_after (self : IbcContext W IbcEvent) (call : IbcCall W IbcEvent) :
    (self.after call).events = self.events ++ call.emitted := events_foldl_emit _ _

end IbcContext

namespace Ibc

variable [Bech32] {W MsgEnvelope MsgTransfer IbcEvent : Type}

omit [Bech32] in
def new (rest : W) : Ibc W IbcEvent := { ctx := { events := [], rest }, transfer := { events := [] } }

variable [IbcHandlers W MsgEnvelope MsgTransfer IbcEvent]

def processMessage (self : Ibc W IbcEvent) (message : Any) :
    Option (Except Error (List IbcEvent) × Ibc W IbcEvent) :=
  match IbcHandlers.msgEnvelope W message with
  | some msg => (IbcHandlers.dispatch msg self.ctx.rest).map fun call =>
    let ctx := self.ctx.after call
    match call.result with
    | .error e => (.error (.ibc e), { self with ctx })
    | .ok () => (.ok ctx.events, { self with ctx := { ctx with events := [] } })
  | none =>
    match IbcHandlers.msgTransfer W message with
    | some transferMsg =>
      let transferModule := self.transfer
      (IbcHandlers.sendTransfer transferMsg self.ctx.rest).map fun call =>
        let ctx := self.ctx.after call
        match call.result with
        | .error e => (.error (.custom e), { self with ctx })
        | .ok () => (.ok transferModule.events, { self with ctx })
    | none => some (.error .notHandled, self)

/-! ## What each message is -/

/-- The kind of a message, whether its handling succeeds, and what it emits. -/
structure Handling (IbcEvent : Type) where
  isTransfer : Bool
  succeeded : Bool
  emitted : List IbcEvent

omit [Bech32] in
/-- The same calls without any list of events: these never depend on one. -/
def handling (rest : W) (message : Any) : Option (Handling IbcEvent × W) :=
  match IbcHandlers.msgEnvelope W message with
  | some msg => (IbcHandlers.dispatch msg rest).map fun call =>
    (⟨false, call.result.isOk, call.emitted⟩, call.rest)
  | none =>
    match IbcHandlers.msgTransfer W message with
    | some transferMsg => (IbcHandlers.sendTransfer transferMsg rest).map fun call =>
      (⟨true, call.result.isOk, call.emitted⟩, call.rest)
    | none => some (⟨false, false, []⟩, rest)

omit [Bech32] [IbcHandlers W MsgEnvelope MsgTransfer IbcEvent] in
/-- A core message that succeeds ends by draining the events of the context. -/
def Handling.Drains (h : Handling IbcEvent) : Prop := h.isTransfer = false ∧ h.succeeded = true

/-- What one message does to the events: it reports all that has gathered and leaves none, or
reports the clone's list, or fails, and then leaves what it emitted. -/
theorem processMessage_cases {self self' : Ibc W IbcEvent} {message : Any}
    {response : Except Error (List IbcEvent)}
    (hrun : self.processMessage message = some (response, self')) :
    ∃ h, handling self.ctx.rest message = some (h, self'.ctx.rest) ∧
      self'.transfer = self.transfer ∧
      ((h.Drains ∧ response = .ok (self.ctx.events ++ h.emitted) ∧ self'.ctx.events = []) ∨
        (¬ h.Drains ∧ self'.ctx.events = self.ctx.events ++ h.emitted ∧
          ((h.isTransfer = true ∧ h.succeeded = true ∧ response = .ok self.transfer.events) ∨
            (h.succeeded = false ∧ ∃ e, response = .error e)))) := by
  unfold processMessage at hrun
  unfold handling
  cases henvelope : IbcHandlers.msgEnvelope W message with
  | some msg =>
    -- a core message: the list of the context is drained, but on success only
    rw [henvelope] at hrun
    obtain ⟨call, hcall, heq⟩ := Option.map_eq_some_iff.mp hrun
    simp only [hcall, Option.map_some]
    obtain ⟨result, emitted, rest⟩ := call
    cases result with
    | error e =>
      obtain ⟨rfl, rfl⟩ := Prod.mk.inj heq
      refine ⟨_, rfl, rfl, .inr ⟨fun hdrains => Bool.false_ne_true hdrains.2, ?_, .inr ⟨rfl, _, rfl⟩⟩⟩
      exact IbcContext.events_after _ _
    | ok =>
      obtain ⟨rfl, rfl⟩ := Prod.mk.inj heq
      refine ⟨_, rfl, rfl, .inl ⟨⟨rfl, rfl⟩, ?_, rfl⟩⟩
      rw [IbcContext.events_after]
  | none =>
    rw [henvelope] at hrun
    dsimp only at hrun ⊢
    cases htransfer : IbcHandlers.msgTransfer W message with
    | some transferMsg =>
      -- a transfer: the list reported is that of the clone, and the context keeps its own
      rw [htransfer] at hrun
      obtain ⟨call, hcall, heq⟩ := Option.map_eq_some_iff.mp hrun
      simp only [hcall, Option.map_some]
      obtain ⟨result, emitted, rest⟩ := call
      have hnot : ∀ succeeded, ¬ Handling.Drains (⟨true, succeeded, emitted⟩ : Handling IbcEvent) :=
        fun _ hdrains => Bool.false_ne_true hdrains.1.symm
      cases result with
      | error e =>
        obtain ⟨rfl, rfl⟩ := Prod.mk.inj heq
        refine ⟨_, rfl, rfl, .inr ⟨hnot _, ?_, .inr ⟨rfl, _, rfl⟩⟩⟩
        exact IbcContext.events_after _ _
      | ok =>
        obtain ⟨rfl, rfl⟩ := Prod.mk.inj heq
        refine ⟨_, rfl, rfl, .inr ⟨hnot _, ?_, .inl ⟨rfl, rfl, rfl⟩⟩⟩
        exact IbcContext.events_after _ _
    | none =>
      rw [htransfer] at hrun
      obtain ⟨rfl, rfl⟩ := Prod.mk.inj (Option.some.inj hrun)
      refine ⟨_, rfl, rfl, .inr ⟨fun hdrains => Bool.false_ne_true hdrains.2, ?_,
        .inr ⟨rfl, _, rfl⟩⟩⟩
      exact (List.append_nil _).symm

/-! ## Over sequences of messages -/

omit [Bech32] [IbcHandlers W MsgEnvelope MsgTransfer IbcEvent] in
/-- No transfer that succeeds emits an event, and no event is left behind for a later drain: what
is not drained at once, because the message failed or was a transfer, meets none. -/
def Handling.Clean (handlings : List (Handling IbcEvent)) : Prop :=
  (∀ h ∈ handlings, h.isTransfer = true → h.succeeded = true → h.emitted = []) ∧
    handlings.Pairwise fun earlier later =>
      later.Drains → earlier.Drains ∨ earlier.emitted = []

omit [Bech32] [IbcHandlers W MsgEnvelope MsgTransfer IbcEvent] in
theorem Handling.clean_cons {h : Handling IbcEvent} {handlings : List (Handling IbcEvent)} :
    Clean (h :: handlings) ↔
      (h.isTransfer = true → h.succeeded = true → h.emitted = []) ∧
        (h.Drains ∨ h.emitted = [] ∨ ∀ later ∈ handlings, ¬ later.Drains) ∧ Clean handlings := by
  simp only [Clean, List.forall_mem_cons, List.pairwise_cons]
  constructor
  · rintro ⟨⟨howns, hrest⟩, hfirst, hpairs⟩
    refine ⟨howns, ?_, hrest, hpairs⟩
    by_cases hlater : ∀ later ∈ handlings, ¬ later.Drains
    · exact .inr (.inr hlater)
    · push Not at hlater
      obtain ⟨later, hmem, hdrains⟩ := hlater
      exact (hfirst later hmem hdrains).imp_right .inl
  · rintro ⟨howns, hleft, hrest, hpairs⟩
    refine ⟨⟨howns, hrest⟩, fun later hmem hdrains => ?_, hpairs⟩
    rcases hleft with hdrained | hnone | hlater
    · exact .inl hdrained
    · exact .inr hnone
    · exact absurd hdrains (hlater later hmem)

/-- A successful message reports what was emitted for it. -/
def ReportsOwn (response : Except Error (List IbcEvent)) (h : Handling IbcEvent) : Prop :=
  ∀ events, response = .ok events → events = h.emitted

/-- A drain reports what a message emitted exactly if nothing had gathered before it. -/
theorem reportsOwn_gathered_iff {gathered : List IbcEvent} {h : Handling IbcEvent} :
    ReportsOwn (.ok (gathered ++ h.emitted)) h ↔ gathered = [] := by
  constructor
  · intro hreports
    exact List.append_left_eq_self.mp (hreports _ rfl)
  · rintro hempty events hok
    rw [← Except.ok.inj hok, hempty, List.nil_append]

/-- From any point: what has gathered so far must not be there to drain either. -/
theorem reports_own_from {messages : List Any} : ∀ {self self' : Ibc W IbcEvent}
    {responses : List (Except Error (List IbcEvent))}, self.transfer.events = [] →
    runSteps processMessage self messages = some (responses, self') →
    ∃ handlings, runSteps handling self.ctx.rest messages = some (handlings, self'.ctx.rest) ∧
      (List.Forall₂ ReportsOwn responses handlings ↔
        Handling.Clean handlings ∧ (self.ctx.events ≠ [] → ∀ h ∈ handlings, ¬ h.Drains)) := by
  induction messages with
  | nil =>
    intro self self' responses _ hrun
    simp only [runSteps_nil, Option.some.injEq, Prod.mk.injEq] at hrun
    obtain ⟨rfl, rfl⟩ := hrun
    exact ⟨[], rfl, by simp [Handling.Clean]⟩
  | cons message messages ih =>
    intro self self' responses hclone hrun
    obtain ⟨response, self₁, responses', hstep, hrest, rfl⟩ := runSteps_cons.mp hrun
    obtain ⟨h, hhandling, htransfer, hcases⟩ := processMessage_cases hstep
    obtain ⟨handlings, hhandlings, hiff⟩ := ih (htransfer ▸ hclone) hrest
    refine ⟨h :: handlings, runSteps_cons.mpr ⟨_, _, _, hhandling, hhandlings, rfl⟩, ?_⟩
    rw [List.forall₂_cons, hiff, Handling.clean_cons, List.forall_mem_cons]
    rcases hcases with ⟨hdrains, rfl, hevents⟩ | ⟨hnot, hevents, hfate⟩
    · -- the list was reported with the message's own events, and is empty now
      have hcore : ¬ h.isTransfer = true :=
        fun htrue => Bool.false_ne_true (hdrains.1.symm.trans htrue)
      rw [reportsOwn_gathered_iff]
      constructor
      · rintro ⟨hempty, hclean, -⟩
        exact ⟨⟨fun htrue => absurd htrue hcore, .inl hdrains, hclean⟩, fun hne => absurd hempty hne⟩
      · rintro ⟨⟨-, -, hclean⟩, hgathered⟩
        refine ⟨?_, hclean, fun hne => absurd hevents hne⟩
        by_contra hne
        exact (hgathered hne).1 hdrains
    · -- what it emitted, if anything, waits with what was there
      have hown : ReportsOwn response h ↔
          (h.isTransfer = true → h.succeeded = true → h.emitted = []) := by
        rcases hfate with ⟨htrue, hok, rfl⟩ | ⟨hfailed, e, rfl⟩
        · rw [hclone]
          exact ⟨fun hreports _ _ => (hreports _ rfl).symm,
            fun hnone events heq => (Except.ok.inj heq).symm.trans (hnone htrue hok).symm⟩
        · refine iff_of_true ?_ fun _ hok => absurd (hfailed.symm.trans hok) Bool.false_ne_true
          intro events heq
          cases heq
      have hwaits : self₁.ctx.events = [] ↔ self.ctx.events = [] ∧ h.emitted = [] := by
        rw [hevents, List.append_eq_nil_iff]
      rw [hown]
      constructor
      · rintro ⟨howns, hclean, hlater⟩
        refine ⟨⟨howns, .inr ?_, hclean⟩, fun hne => ⟨hnot, hlater fun h₁ => hne (hwaits.mp h₁).1⟩⟩
        by_cases hnone : h.emitted = []
        · exact .inl hnone
        · exact .inr (hlater fun h₁ => hnone (hwaits.mp h₁).2)
      · rintro ⟨⟨howns, hleft, hclean⟩, hgathered⟩
        refine ⟨howns, hclean, fun hne => ?_⟩
        rcases hleft with hdrains | hnone | hlater
        · exact absurd hdrains hnot
        · exact (hgathered fun h₁ => hne (hwaits.mpr ⟨h₁, hnone⟩)).2
        · exact hlater

/-- **When messages report their own events.** For every sequence of messages given to a new ibc
module: each message that succeeds reports exactly what was emitted while it was handled if and
only if the handlings are clean. What they are does not depend on the events. -/
theorem reports_own_iff {rest : W} {messages : List Any} {ibc : Ibc W IbcEvent}
    {responses : List (Except Error (List IbcEvent))}
    (hrun : runSteps processMessage (Ibc.new rest) messages = some (responses, ibc)) :
    ∃ handlings, runSteps handling rest messages = some (handlings, ibc.ctx.rest) ∧
      (List.Forall₂ ReportsOwn responses handlings ↔ Handling.Clean handlings) := by
  obtain ⟨handlings, hhandlings, hiff⟩ := reports_own_from rfl hrun
  refine ⟨handlings, hhandlings, hiff.trans (and_iff_left ?_)⟩
  exact fun hne => absurd rfl hne

end Ibc

/-! ## A transfer, then a client update -/

section TransferFirst

local instance transferFirstBech32 : Bech32 := Bech32.any

/-- Every call succeeds and emits one event. -/
local instance transferFirstHandlers : IbcHandlers Unit Unit Unit String :=
  { msgEnvelope := fun message =>
      if message.typeUrl = "/ibc.core.client.v1.MsgUpdateClient" then some () else none
    msgTransfer := fun message =>
      if message.typeUrl = "/ibc.applications.transfer.v1.MsgTransfer" then some () else none
    dispatch := fun _ _ => some ⟨.ok (), ["update_client"], ()⟩
    sendTransfer := fun _ _ => some ⟨.ok (), ["send_packet"], ()⟩ }

def transferThenUpdate : List Any :=
  [⟨"/ibc.applications.transfer.v1.MsgTransfer", []⟩, ⟨"/ibc.core.client.v1.MsgUpdateClient", []⟩]

/-- The run. -/
theorem run_transferThenUpdate :
    runSteps Ibc.processMessage (Ibc.new ()) transferThenUpdate =
      some ([.ok [], .ok ["send_packet", "update_client"]],
        { ctx := { events := [], rest := () }, transfer := { events := [] } }) := rfl

theorem reports_own_iff_transfer :
    ∃ handlings, runSteps Ibc.handling () transferThenUpdate = some (handlings, ()) ∧
      (List.Forall₂ Ibc.ReportsOwn [.ok [], .ok ["send_packet", "update_client"]] handlings ↔
        Ibc.Handling.Clean handlings) :=
  Ibc.reports_own_iff run_transferThenUpdate

/-- The transfer reports nothing, and its event comes with the update. -/
theorem transfer_reported_late :
    runSteps Ibc.processMessage (Ibc.new ()) transferThenUpdate =
      some ([.ok [], .ok ["send_packet", "update_client"]],
        { ctx := { events := [], rest := () }, transfer := { events := [] } }) ∧
    runSteps Ibc.handling () transferThenUpdate =
      some ([⟨true, true, ["send_packet"]⟩, ⟨false, true, ["update_client"]⟩], ()) ∧
    ¬ Ibc.ReportsOwn (.ok []) (⟨true, true, ["send_packet"]⟩ : Ibc.Handling String) ∧
    ¬ Ibc.ReportsOwn (.ok ["send_packet", "update_client"])
      (⟨false, true, ["update_client"]⟩ : Ibc.Handling String) := by
  refine ⟨rfl, rfl, fun h => ?_, fun h => ?_⟩
  · exact absurd (h _ rfl) (by decide)
  · exact absurd (h _ rfl) (by decide)

end TransferFirst

end Basecoin
