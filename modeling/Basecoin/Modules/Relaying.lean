import Basecoin.Modules.IbcContext

/-!
# What an IBC context says of its history

The calls in effect at a point of a run are those that no later reset took back. The counters count
them, the connections of a client list them, and a packet is unreceived exactly if none of them
stored its receipt (`context_history`); what relayers ask about packets and acknowledgements is
answered for the sequences they give, and else for all of the channel (`relayer_queries`). What a
transaction or a block applied stays, whatever a later reset takes back (`continues_of_applied`).

A counter starts at zero with the context, but a reset before the first apply takes that back with
the rest, and then there is no counter to count with (`started`). Connections and receipts need no
beginning: nothing deletes them, so they are what the calls in effect added. Commitments and
acknowledgements are deleted again, so of those the queries say what is there, not what was.
-/

namespace Basecoin

open Lib

namespace IbcStore

variable [IdentifierText]
  {AnyClientState AnyConsensusState Timestamp ConnectionEnd ChannelEnd : Type}
  [IbcContextHost AnyClientState AnyConsensusState Timestamp ConnectionEnd ChannelEnd]

/-! ## The queries of relayers -/

section Queries

variable [Sha256]

def unreceivedPackets (s : InMemoryStore) (channelEndPath : ChannelEndPath)
    (sequences : List Sequence) : Except HostError (List Sequence) :=
  .ok (((sequences.map fun seq =>
      (⟨channelEndPath.portId, channelEndPath.channelId, seq⟩ : ReceiptPath)).filter
    fun receiptPath => (packetReceiptStore.get s .pending receiptPath).isNone).map
      fun receiptPath => receiptPath.sequence)

def unreceivedAcks (s : InMemoryStore) (channelEndPath : ChannelEndPath)
    (sequences : List Sequence) : Except HostError (List Sequence) :=
  let collectedPaths : List CommitmentPath :=
    if sequences.length = 0 then
      -- if sequences is empty, return all the acks
      listed s (sequencesPath "commitments" channelEndPath) asCommitment
    else
      sequences.map fun seq => ⟨channelEndPath.portId, channelEndPath.channelId, seq⟩
  .ok ((collectedPaths.filter fun commitmentPath =>
    (packetCommitmentStore.get s .pending commitmentPath).isSome).map
      fun commitmentPath => commitmentPath.sequence)

end Queries

/-! ## Which paths a call is about -/

namespace Call

section Paths

omit [IbcContextHost AnyClientState AnyConsensusState Timestamp ConnectionEnd ChannelEnd]

/-- The paths whose values a call may change. -/
def paths : Call AnyClientState AnyConsensusState Timestamp ConnectionEnd ChannelEnd → List HostPath
  | .storeClientState path _ => [.clientState path]
  | .storeConsensusState clientId height _ =>
    [.clientConsensusState (Clients.consensusPath clientId height)]
  | .deleteConsensusState path => [.clientConsensusState path]
  | .storeUpdateMeta clientId height _ _ =>
    [.clientUpdateTime ⟨clientId, height.revisionNumber, height.revisionHeight⟩,
      .clientUpdateHeight ⟨clientId, height.revisionNumber, height.revisionHeight⟩]
  | .deleteUpdateMeta clientId height =>
    [.clientUpdateTime ⟨clientId, height.revisionNumber, height.revisionHeight⟩,
      .clientUpdateHeight ⟨clientId, height.revisionNumber, height.revisionHeight⟩]
  | .increaseClientCounter => [.nextClientSequence]
  | .storeConnection path _ => [.connection path]
  | .storeConnectionToClient path _ => [.clientConnection path]
  | .increaseConnectionCounter => [.nextConnectionSequence]
  | .storePacketCommitment path _ => [.commitment path]
  | .deletePacketCommitment path => [.commitment path]
  | .storePacketReceipt path => [.receipt path]
  | .storePacketAcknowledgement path _ => [.ack path]
  | .deletePacketAcknowledgement path => [.ack path]
  | .storeChannel path _ => [.channelEnd path]
  | .storeNextSequenceSend path _ => [.seqSend path]
  | .storeNextSequenceRecv path _ => [.seqRecv path]
  | .storeNextSequenceAck path _ => [.seqAck path]
  | .increaseChannelCounter => [.nextChannelSequence]
  | .apply => []
  | .reset => []
  | .commit => []
  | .prune _ => []

/-- The connection that a call adds to a client. -/
def connects (clientId : ClientId) :
    Call AnyClientState AnyConsensusState Timestamp ConnectionEnd ChannelEnd → Option ConnectionId
  | .storeConnectionToClient path connId => if path.clientId = clientId then some connId else none
  | _ => none

end Paths

end Call

/-- A call changes no path that it is not about. -/
theorem Contents.after_of_notMem {path : HostPath} (c : Contents)
    (call : Call AnyClientState AnyConsensusState Timestamp ConnectionEnd ChannelEnd)
    (h : path ∉ call.paths) : c.after call path = c path := by
  have hne : ∀ p, p ∈ call.paths → path ≠ p := fun p hp heq => h (heq ▸ hp)
  cases call with
  | storeUpdateMeta clientId height hostTimestamp hostHeight =>
    have htime := hne _ List.mem_cons_self
    have hheight := hne _ (List.mem_cons_of_mem _ List.mem_cons_self)
    exact (Function.update_of_ne hheight _ _).trans (Function.update_of_ne htime _ _)
  | deleteUpdateMeta clientId height =>
    have htime := hne _ List.mem_cons_self
    have hheight := hne _ (List.mem_cons_of_mem _ List.mem_cons_self)
    exact (Function.update_of_ne hheight _ _).trans (Function.update_of_ne htime _ _)
  | apply => rfl
  | reset => rfl
  | commit => rfl
  | prune height => rfl
  | _ => exact Function.update_of_ne (hne _ List.mem_cons_self) _ _

/-! ## The calls in effect -/

/-- The calls that no later reset took back, in their order. -/
def effects
    (calls : List (Call AnyClientState AnyConsensusState Timestamp ConnectionEnd ChannelEnd)) :
    List (Call AnyClientState AnyConsensusState Timestamp ConnectionEnd ChannelEnd) :=
  (start.inEffect (calls.map Call.toChange)).working.2

omit [IbcContextHost AnyClientState AnyConsensusState Timestamp ConnectionEnd ChannelEnd] in
/-- No reset came before the counters that a context starts with were applied. -/
def started
    (calls : List (Call AnyClientState AnyConsensusState Timestamp ConnectionEnd ChannelEnd)) :
    Bool :=
  Versioned.keepsStart (calls.map Call.toChange)

section Effects

variable {calls : List (Call AnyClientState AnyConsensusState Timestamp ConnectionEnd ChannelEnd)}

theorem working_contentsAfter : (contentsAfter calls).working = (effects calls).foldl Contents.after
    (if started calls then Contents.fresh else Contents.empty) := by
  have hstart := Versioned.inEffect_start start (calls.map Call.toChange)
  rw [contentsAfter, Versioned.runChanges_eq_inEffect]
  show List.foldl _ _ _ = _
  rw [hstart]
  rfl

omit [IbcContextHost AnyClientState AnyConsensusState Timestamp ConnectionEnd ChannelEnd]
  [IdentifierText] in
theorem iterate_increase (n m : Nat) :
    (Option.map fun k : UInt64 => k + 1)^[n] (some (UInt64.ofNat m)) =
      some (UInt64.ofNat (m + n)) := by
  induction n generalizing m with
  | zero => rfl
  | succ n ih =>
    have hone : UInt64.ofNat m + 1 = UInt64.ofNat (m + 1) := by
      rw [UInt64.ofNat_add]
      rfl
    rw [Function.iterate_succ_apply, Option.map_some, hone, ih, Nat.add_right_comm]
    rfl

/-- A counter, as a reading of the contents: what each of its calls does to it, and the others not. -/
theorem working_counter (read : Contents → Option UInt64)
    {hit : Call AnyClientState AnyConsensusState Timestamp ConnectionEnd ChannelEnd → Bool}
    (hfresh : read Contents.fresh = some 0) (hempty : read Contents.empty = none)
    (hhit : ∀ c call, hit call = true →
      read (Contents.after c call) = (read c).map fun k => k + 1)
    (hmiss : ∀ c call, hit call = false → read (Contents.after c call) = read c) (n : UInt64) :
    read (contentsAfter calls).working = some n ↔
      started calls ∧ n = UInt64.ofNat ((effects calls).countP hit) := by
  rw [working_contentsAfter, Versioned.foldl_edit_countP read hhit hmiss]
  -- with a counter to begin with it is counted up from zero, and without one it stays missing
  cases started calls with
  | true =>
    have hzero : some (0 : UInt64) = some (UInt64.ofNat 0) := rfl
    rw [if_pos rfl, hfresh, hzero, iterate_increase, Nat.zero_add, Option.some_inj]
    exact ⟨fun h => ⟨rfl, h.symm⟩, fun h => h.2.symm⟩
  | false =>
    have hnone : ∀ k, (Option.map fun k : UInt64 => k + 1)^[k] none = none := fun k =>
      Function.iterate_fixed rfl k
    rw [if_neg Bool.false_ne_true, hempty, hnone]
    exact iff_of_false (fun h => by cases h) fun h => Bool.false_ne_true h.1

theorem working_clientCounter (n : UInt64) :
    (contentsAfter calls).working .nextClientSequence = some n ↔ started calls ∧
      n = UInt64.ofNat ((effects calls).countP (· matches .increaseClientCounter)) := by
  refine working_counter (fun c => c .nextClientSequence) rfl rfl ?_ ?_ n
  · intro c call hcall
    cases call with
    | increaseClientCounter => rfl
    | _ => cases hcall
  · intro c call hcall
    refine c.after_of_notMem call fun hmem => ?_
    cases call with
    | increaseClientCounter => cases hcall
    | _ => simp [Call.paths] at hmem

theorem working_connectionCounter (n : UInt64) :
    (contentsAfter calls).working .nextConnectionSequence = some n ↔ started calls ∧
      n = UInt64.ofNat ((effects calls).countP (· matches .increaseConnectionCounter)) := by
  refine working_counter (fun c => c .nextConnectionSequence) rfl rfl ?_ ?_ n
  · intro c call hcall
    cases call with
    | increaseConnectionCounter => rfl
    | _ => cases hcall
  · intro c call hcall
    refine c.after_of_notMem call fun hmem => ?_
    cases call with
    | increaseConnectionCounter => cases hcall
    | _ => simp [Call.paths] at hmem

theorem working_channelCounter (n : UInt64) :
    (contentsAfter calls).working .nextChannelSequence = some n ↔ started calls ∧
      n = UInt64.ofNat ((effects calls).countP (· matches .increaseChannelCounter)) := by
  refine working_counter (fun c => c .nextChannelSequence) rfl rfl ?_ ?_ n
  · intro c call hcall
    cases call with
    | increaseChannelCounter => rfl
    | _ => cases hcall
  · intro c call hcall
    refine c.after_of_notMem call fun hmem => ?_
    cases call with
    | increaseChannelCounter => cases hcall
    | _ => simp [Call.paths] at hmem

/-- The connections of a client. -/
def Contents.connIds (c : Contents) (clientId : ClientId) : List ConnectionId :=
  (c (.clientConnection ⟨clientId⟩) : Option (List ConnectionId)).getD []

theorem Contents.connIds_after (clientId : ClientId) (c : Contents)
    (call : Call AnyClientState AnyConsensusState Timestamp ConnectionEnd ChannelEnd) :
    (c.after call).connIds clientId = c.connIds clientId ++ (call.connects clientId).toList := by
  by_cases hmem : .clientConnection ⟨clientId⟩ ∈ call.paths
  · cases call with
    | storeConnectionToClient path connId =>
      obtain rfl := HostPath.clientConnection.inj (List.mem_singleton.mp hmem)
      have hids : c.after (.storeConnectionToClient ⟨clientId⟩ connId) (.clientConnection ⟨clientId⟩) =
          some (c.connIds clientId ++ [connId]) := Function.update_self _ _ _
      have hconnects : (Call.storeConnectionToClient ⟨clientId⟩ connId : Call AnyClientState
          AnyConsensusState Timestamp ConnectionEnd ChannelEnd).connects clientId =
        some connId := if_pos rfl
      rw [connIds, hids, hconnects]
      rfl
    | _ => simp [Call.paths] at hmem
  · have hsame : (c.after call).connIds clientId = c.connIds clientId := by
      rw [connIds, c.after_of_notMem call hmem]
      rfl
    have hnone : call.connects clientId = none := by
      cases call with
      | storeConnectionToClient path connId =>
        refine if_neg fun heq => hmem ?_
        rw [← heq]
        exact List.mem_singleton_self _
      | _ => rfl
    rw [hsame, hnone]
    exact (List.append_nil _).symm

/-- They are those that were added to the client, in their order. -/
theorem working_connIds (clientId : ClientId) :
    Contents.connIds (contentsAfter calls).working clientId =
      (effects calls).filterMap (Call.connects clientId) := by
  have hadded := Versioned.foldl_edit_filterMap (fun c : Contents => c.connIds clientId)
    (Contents.connIds_after clientId) (effects calls)
  rw [working_contentsAfter]
  refine (hadded _).trans ?_
  cases started calls with
  | true => rfl
  | false => rfl

theorem Contents.after_receipt_iff (path : ReceiptPath) (c : Contents)
    (call : Call AnyClientState AnyConsensusState Timestamp ConnectionEnd ChannelEnd) :
    c.after call (.receipt path) = some () ↔
      c (.receipt path) = some () ∨ call = .storePacketReceipt path := by
  by_cases hmem : .receipt path ∈ call.paths
  · cases call with
    | storePacketReceipt path' =>
      obtain rfl := HostPath.receipt.inj (List.mem_singleton.mp hmem)
      exact iff_of_true (Function.update_self _ _ _) (.inr rfl)
    | _ => simp [Call.paths] at hmem
  · have hne : call ≠ .storePacketReceipt path := by
      rintro rfl
      exact hmem (List.mem_singleton_self _)
    rw [c.after_of_notMem call hmem]
    exact (or_iff_left hne).symm

/-- Receipts are not deleted, so there is one for each call that stored one. -/
theorem working_receipt (path : ReceiptPath) :
    (contentsAfter calls).working (.receipt path) = some () ↔
      .storePacketReceipt path ∈ effects calls := by
  have hmakes := Versioned.foldl_edit_iff (fun c : Contents => c (.receipt path) = some ())
    (Contents.after_receipt_iff path) (effects calls)
  have hbase : ¬ (if started calls then Contents.fresh else Contents.empty) (.receipt path) =
      some () := by
    cases started calls with
    | true => exact fun h => by cases h
    | false => exact fun h => by cases h
  rw [working_contentsAfter]
  exact (hmakes _).trans ((or_iff_right hbase).trans exists_eq_right)

end Effects

/-! ## What a context says -/

section Runs

variable [Sha256] [BuildProfile]
  {calls : List (Call AnyClientState AnyConsensusState Timestamp ConnectionEnd ChannelEnd)}
  {results : List (Except HostError Unit)} {s : InMemoryStore}

omit [BuildProfile] in
theorem Holds.unreceivedPackets_eq {v : Versioned Contents} (h : Holds s v)
    (channelEndPath : ChannelEndPath) (sequences : List Sequence) :
    unreceivedPackets s channelEndPath sequences = .ok (sequences.filter fun seq =>
      (v.working (.receipt ⟨channelEndPath.portId, channelEndPath.channelId, seq⟩)).isNone) := by
  have hget : ∀ path : ReceiptPath,
      packetReceiptStore.get s .pending path = v.working (.receipt path) := fun path =>
    h.get (.receipt path) packetReceiptStore rfl rfl
  rw [unreceivedPackets, List.filter_map, List.map_map]
  simp only [Function.comp_def, hget, List.map_id']
  rfl

/-- The stores of a run hold the contents of its calls. -/
theorem holds_run
    (h : runSteps call (Ibc.newContext InMemoryStore.default) calls = some (results, s)) :
    Holds s (contentsAfter calls) := by
  have hrel := runSteps_rel (R := Holds) (fun _ _ c h => h.call c) calls Holds.fresh
  -- the run of the store did not panic, so neither did that of the dictionary
  rw [h] at hrel
  cases hrun : runSteps step start calls with
  | none =>
    rw [hrun] at hrel
    cases hrel
  | some r =>
    rw [hrun] at hrel
    cases hrel with
    | some hr =>
      have hcontents : r.2 = contentsAfter calls := runSteps_step hrun
      exact hcontents ▸ hr.2

/-! What the readings of a run's store say of its calls, one after the other. -/

section History

variable (hrun : runSteps call (Ibc.newContext InMemoryStore.default) calls = some (results, s))

include hrun

theorem clientCounter_run (n : UInt64) : clientCounter s = .ok n ↔ started calls ∧
    n = UInt64.ofNat ((effects calls).countP (· matches .increaseClientCounter)) :=
  (((holds_run hrun).answers (pathsOnly_run hrun)).clientCounter n).trans (working_clientCounter n)

theorem connectionCounter_run (n : UInt64) : connectionCounter s = .ok n ↔ started calls ∧
    n = UInt64.ofNat ((effects calls).countP (· matches .increaseConnectionCounter)) :=
  (((holds_run hrun).answers (pathsOnly_run hrun)).connectionCounter n).trans
    (working_connectionCounter n)

theorem channelCounter_run (n : UInt64) : channelCounter s = .ok n ↔ started calls ∧
    n = UInt64.ofNat ((effects calls).countP (· matches .increaseChannelCounter)) :=
  (((holds_run hrun).answers (pathsOnly_run hrun)).channelCounter n).trans (working_channelCounter n)

theorem clientConnectionEnds_run (clientId : ClientId) : clientConnectionEnds s clientId =
    .ok ((effects calls).filterMap (Call.connects clientId)) :=
  (((holds_run hrun).answers (pathsOnly_run hrun)).clientConnectionEnds clientId _).mpr
    (working_connIds clientId)

theorem getPacketReceipt_run (path : ReceiptPath) : getPacketReceipt s path = .ok .ok ↔
    .storePacketReceipt path ∈ effects calls :=
  (((holds_run hrun).answers (pathsOnly_run hrun)).getPacketReceipt path).trans
    (working_receipt path)

theorem unreceivedPackets_run (channelEndPath : ChannelEndPath) (sequences : List Sequence) :
    ∃ unreceived : List Sequence, unreceivedPackets s channelEndPath sequences = .ok unreceived ∧
      unreceived.Sublist sequences ∧ ∀ seq, seq ∈ unreceived ↔ seq ∈ sequences ∧
        .storePacketReceipt ⟨channelEndPath.portId, channelEndPath.channelId, seq⟩ ∉
          effects calls := by
  refine ⟨_, (holds_run hrun).unreceivedPackets_eq channelEndPath sequences,
    List.filter_sublist, fun seq => ?_⟩
  rw [List.mem_filter, ← working_receipt]
  refine and_congr_right fun _ => ?_
  cases (contentsAfter calls).working
    (.receipt ⟨channelEndPath.portId, channelEndPath.channelId, seq⟩) with
  | none => exact iff_of_true rfl fun h => by cases h
  | some value => exact iff_of_false Bool.false_ne_true fun h => h rfl

end History

/-- **What a context says of its history.** After any run of a fresh context, in terms of the calls
that no reset took back: each counter is the number of times it was increased, modulo `2 ^ 64`, or
is missing if a reset came before the context was first applied; the connections of a client are
those that were stored for it, in order; there is a receipt for exactly the packets whose receipt
was stored; and of the sequences it is given, `unreceived_packets` leaves those out, and no other. -/
theorem context_history
    (hrun : runSteps call (Ibc.newContext InMemoryStore.default) calls = some (results, s)) :
    (∀ n, clientCounter s = .ok n ↔ started calls ∧
      n = UInt64.ofNat ((effects calls).countP (· matches .increaseClientCounter))) ∧
    (∀ n, connectionCounter s = .ok n ↔ started calls ∧
      n = UInt64.ofNat ((effects calls).countP (· matches .increaseConnectionCounter))) ∧
    (∀ n, channelCounter s = .ok n ↔ started calls ∧
      n = UInt64.ofNat ((effects calls).countP (· matches .increaseChannelCounter))) ∧
    (∀ clientId, clientConnectionEnds s clientId =
      .ok ((effects calls).filterMap (Call.connects clientId))) ∧
    (∀ path, getPacketReceipt s path = .ok .ok ↔ .storePacketReceipt path ∈ effects calls) ∧
    ∀ channelEndPath sequences, ∃ unreceived : List Sequence,
      unreceivedPackets s channelEndPath sequences = .ok unreceived ∧
        unreceived.Sublist sequences ∧ ∀ seq, seq ∈ unreceived ↔ seq ∈ sequences ∧
          .storePacketReceipt ⟨channelEndPath.portId, channelEndPath.channelId, seq⟩ ∉
            effects calls :=
  ⟨clientCounter_run hrun, connectionCounter_run hrun, channelCounter_run hrun,
    clientConnectionEnds_run hrun, getPacketReceipt_run hrun, unreceivedPackets_run hrun⟩

omit [Sha256] [BuildProfile] in
/-- Of the calls in effect at a point where the store is applied or committed, none is ever lost. -/
theorem prefix_effects
    {before after : List (Call AnyClientState AnyConsensusState Timestamp ConnectionEnd ChannelEnd)}
    {c : Call AnyClientState AnyConsensusState Timestamp ConnectionEnd ChannelEnd}
    (hc : c = .apply ∨ c = .commit) : effects before <+: effects (before ++ c :: after) ∧
      (started before → started (before ++ c :: after)) := by
  have hchange : c.toChange = .apply ∨ c.toChange = .commit := by
    rcases hc with rfl | rfl
    · exact .inl rfl
    · exact .inr rfl
  rw [effects, effects, started, started, List.map_append, List.map_cons]
  exact ⟨Versioned.prefix_inEffect start (before.map Call.toChange) hchange _,
    Versioned.keepsStart_append hchange _ _⟩

omit [BuildProfile] in
/-- Nothing that a store says of packets received, of connections or of what was counted is lost
in another: a packet received is not unreceived again, the connections that a client has stay at
the front of its list, and the counters count on from what they are. -/
structure Continues (s s' : InMemoryStore) : Prop where
  receipts : ∀ path, getPacketReceipt s path = .ok .ok → getPacketReceipt s' path = .ok .ok
  unreceived : ∀ path, getPacketReceipt s path = .ok .ok → ∀ sequences unreceived,
    unreceivedPackets s' ⟨path.portId, path.channelId⟩ sequences = .ok unreceived →
      path.sequence ∉ unreceived
  connections : ∀ clientId connIds, clientConnectionEnds s clientId = .ok connIds →
    ∃ more, clientConnectionEnds s' clientId = .ok (connIds ++ more)
  clientCounter : ∀ n, clientCounter s = .ok n →
    ∃ k : Nat, IbcStore.clientCounter s' = .ok (n + UInt64.ofNat k)
  connectionCounter : ∀ n, connectionCounter s = .ok n →
    ∃ k : Nat, IbcStore.connectionCounter s' = .ok (n + UInt64.ofNat k)
  channelCounter : ∀ n, channelCounter s = .ok n →
    ∃ k : Nat, IbcStore.channelCounter s' = .ok (n + UInt64.ofNat k)

/-- What is applied or committed is continued by whatever follows, resets included. -/
theorem continues_of_applied
    {before after : List (Call AnyClientState AnyConsensusState Timestamp ConnectionEnd ChannelEnd)}
    {c : Call AnyClientState AnyConsensusState Timestamp ConnectionEnd ChannelEnd}
    {results' : List (Except HostError Unit)} {s' : InMemoryStore} (hc : c = .apply ∨ c = .commit)
    (hbefore : runSteps call (Ibc.newContext InMemoryStore.default) before = some (results, s))
    (hafter : runSteps call s (c :: after) = some (results', s')) : Continues s s' := by
  have hrun := runSteps_append.mpr ⟨s, results, results', hbefore, hafter, rfl⟩
  obtain ⟨⟨more, hmore⟩, hstarted⟩ := prefix_effects hc
  -- counters of the longer history, from what each says of either history
  have hcount : ∀ {read : InMemoryStore → Except HostError UInt64}
      {hit : Call AnyClientState AnyConsensusState Timestamp ConnectionEnd ChannelEnd → Bool},
      (∀ n, read s = .ok n ↔
        started before ∧ n = UInt64.ofNat ((effects before).countP hit)) →
      (∀ n, read s' = .ok n ↔ started (before ++ c :: after) ∧
        n = UInt64.ofNat ((effects (before ++ c :: after)).countP hit)) →
      ∀ n, read s = .ok n → ∃ k : Nat, read s' = .ok (n + UInt64.ofNat k) := by
    intro read hit h h' n hn
    obtain ⟨hstart, rfl⟩ := (h n).mp hn
    refine ⟨more.countP hit, (h' _).mpr ⟨hstarted hstart, ?_⟩⟩
    rw [← hmore, List.countP_append, UInt64.ofNat_add]
  have hmem : ∀ path, getPacketReceipt s path = .ok .ok →
      .storePacketReceipt path ∈ effects (before ++ c :: after) := by
    intro path hpath
    rw [← hmore]
    exact List.mem_append_left more ((getPacketReceipt_run hbefore path).mp hpath)
  exact {
    receipts := fun path hpath => (getPacketReceipt_run hrun path).mpr (hmem path hpath)
    unreceived := by
      intro path hpath sequences unreceived heq hseq
      obtain ⟨unreceived', heq', -, hiff⟩ :=
        unreceivedPackets_run hrun ⟨path.portId, path.channelId⟩ sequences
      obtain rfl := Except.ok.inj (heq.symm.trans heq')
      exact ((hiff path.sequence).mp hseq).2 (hmem path hpath)
    connections := by
      intro clientId connIds h
      obtain rfl := Except.ok.inj (h.symm.trans (clientConnectionEnds_run hbefore clientId))
      refine ⟨more.filterMap (Call.connects clientId), ?_⟩
      rw [clientConnectionEnds_run hrun, ← hmore, List.filterMap_append]
    clientCounter := hcount (clientCounter_run hbefore) (clientCounter_run hrun)
    connectionCounter := hcount (connectionCounter_run hbefore) (connectionCounter_run hrun)
    channelCounter := hcount (channelCounter_run hbefore) (channelCounter_run hrun) }

/-! ## With and without sequences -/

section Filtered

omit [IbcContextHost AnyClientState AnyConsensusState Timestamp ConnectionEnd ChannelEnd]
  [IdentifierText] [Sha256] [BuildProfile]

variable {K V β : Type} {g : K → Option V} {out : K → V → β}

/-- Reading those of some keys under which there is a value. -/
theorem mapM_filter_isSome {e : K → HostError} (l : List K) :
    ((l.filter fun k => (g k).isSome).mapM fun k => (okOr (e k) (g k)).map (out k)) =
      .ok (l.filterMap fun k => (g k).map (out k)) := by
  rw [mapM_eq_ok_iff]
  induction l with
  | nil => rfl
  | cons k l ih =>
    cases hk : g k with
    | none => simp [hk, ih]
    | some v =>
      simp only [List.filter_cons, List.filterMap_cons, hk, Option.isSome_some, Option.map_some,
        if_true, List.map_cons, ih]
      rfl

theorem map_filter_isSome {γ : Type} {name : β → γ} {f : K → γ} (hname : ∀ k v, name (out k v) = f k)
    (l : List K) : (l.filter fun k => (g k).isSome).map f =
      (l.filterMap fun k => (g k).map (out k)).map name := by
  induction l with
  | nil => rfl
  | cons k l ih =>
    cases hk : g k with
    | none => simp [hk, ih]
    | some v => simp [hk, ih, hname]

end Filtered

omit [BuildProfile] in
/-- Of no given sequences, the unreceived acknowledgements are the packets committed. -/
theorem unreceivedAcks_nil (channelEndPath : ChannelEndPath) :
    unreceivedAcks s channelEndPath [] =
      (packetCommitments s channelEndPath).map (List.map PacketState.seq) := by
  have hread : packetCommitments s channelEndPath = .ok _ := mapM_filter_isSome _
  rw [hread]
  refine congrArg Except.ok (map_filter_isSome ?_ _)
  exact fun _ _ => rfl

omit [BuildProfile] in
/-- The sequences of a channel whose packets are committed. -/
theorem lists_unreceivedAcks (hs : PathsOnly s) (channelEndPath : ChannelEndPath) :
    Lists (unreceivedAcks s channelEndPath []) fun seq => ∃ data, getPacketCommitment s
      ⟨channelEndPath.portId, channelEndPath.channelId, seq⟩ = .ok data := by
  have hinj : ∀ e e' : PacketState,
      (e.portId = channelEndPath.portId ∧ e.chanId = channelEndPath.channelId ∧
        getPacketCommitment s ⟨e.portId, e.chanId, e.seq⟩ = .ok e.data) →
      (e'.portId = channelEndPath.portId ∧ e'.chanId = channelEndPath.channelId ∧
        getPacketCommitment s ⟨e'.portId, e'.chanId, e'.seq⟩ = .ok e'.data) →
      e.seq = e'.seq → e = e' := by
    rintro ⟨seq, portId, chanId, data⟩ ⟨seq', portId', chanId', data'⟩ ⟨rfl, rfl, hdata⟩
      ⟨rfl, rfl, hdata'⟩ rfl
    obtain rfl := Except.ok.inj (hdata.symm.trans hdata')
    rfl
  rw [unreceivedAcks_nil]
  obtain ⟨seqs, heq, hnodup, hmem⟩ := (lists_packetCommitments hs channelEndPath).map hinj
  refine ⟨seqs, heq, hnodup, fun seq => (hmem seq).trans ?_⟩
  constructor
  · rintro ⟨⟨seq, portId, chanId, data⟩, ⟨rfl, rfl, hdata⟩, rfl⟩
    exact ⟨data, hdata⟩
  · rintro ⟨data, hdata⟩
    exact ⟨⟨seq, _, _, data⟩, ⟨rfl, rfl, hdata⟩, rfl⟩

omit [BuildProfile] in
/-- Among the acknowledgements of a channel, the one of a sequence is found. -/
theorem find_ack {channelEndPath : ChannelEndPath} {all : List PacketState}
    (hall : ∀ e, e ∈ all ↔ e.portId = channelEndPath.portId ∧
      e.chanId = channelEndPath.channelId ∧
        getPacketAcknowledgement s ⟨e.portId, e.chanId, e.seq⟩ = .ok e.data) (seq : Sequence) :
    ((packetAckStore.get s .pending
      ⟨channelEndPath.portId, channelEndPath.channelId, seq⟩).map fun data : Bytes =>
        (⟨seq, channelEndPath.portId, channelEndPath.channelId, data⟩ : PacketState)) =
      all.find? fun e => e.seq == seq := by
  have hread : ∀ e ∈ all, e.seq = seq → ∃ data, packetAckStore.get s .pending
      ⟨channelEndPath.portId, channelEndPath.channelId, seq⟩ = some data ∧
        e = ⟨seq, channelEndPath.portId, channelEndPath.channelId, data⟩ := by
    rintro ⟨_, portId, chanId, data⟩ he rfl
    obtain ⟨rfl, rfl, hdata⟩ := (hall _).mp he
    exact ⟨data, okOr_eq_ok_iff.mp hdata, rfl⟩
  cases hget : packetAckStore.get s .pending
      ⟨channelEndPath.portId, channelEndPath.channelId, seq⟩ with
  | none =>
    refine (List.find?_eq_none.mpr fun e he hseq => ?_).symm
    obtain ⟨data, hdata, -⟩ := hread e he (eq_of_beq hseq)
    cases hget.symm.trans hdata
  | some data =>
    have hmem : (⟨seq, channelEndPath.portId, channelEndPath.channelId, data⟩ : PacketState) ∈ all :=
      (hall _).mpr ⟨rfl, rfl, okOr_eq_ok_iff.mpr hget⟩
    have hsome : (all.find? fun e => e.seq == seq).isSome :=
      List.find?_isSome.mpr ⟨_, hmem, beq_self_eq_true seq⟩
    obtain ⟨e, hfind⟩ := Option.isSome_iff_exists.mp hsome
    have hseq : (e.seq == seq) = true :=
      List.find?_some (p := fun e : PacketState => e.seq == seq) hfind
    obtain ⟨data', hdata', rfl⟩ := hread e (List.mem_of_find?_eq_some hfind) (eq_of_beq hseq)
    obtain rfl := Option.some.inj (hget.symm.trans hdata')
    rw [hfind, Option.map_some]

/-- **Given sequences restrict the answer.** In every store of a context, and for every channel:
of no sequences, `unreceived_acks` lists each sequence whose packet is committed once, and
`packet_acknowledgements` each acknowledgement once; given sequences, either answers in their order
those of it that are among them, and nothing else. -/
theorem relayer_queries
    (hrun : runSteps call (Ibc.newContext InMemoryStore.default) calls = some (results, s))
    (channelEndPath : ChannelEndPath) :
    (∃ all, unreceivedAcks s channelEndPath [] = .ok all ∧ all.Nodup ∧
      (∀ seq, seq ∈ all ↔ ∃ data, getPacketCommitment s
        ⟨channelEndPath.portId, channelEndPath.channelId, seq⟩ = .ok data) ∧
      ∀ sequences, sequences ≠ [] →
        unreceivedAcks s channelEndPath sequences = .ok (sequences.filter (· ∈ all))) ∧
    ∃ all, packetAcknowledgements s channelEndPath [] = .ok all ∧ all.Nodup ∧
      (∀ e, e ∈ all ↔ e.portId = channelEndPath.portId ∧ e.chanId = channelEndPath.channelId ∧
        getPacketAcknowledgement s ⟨e.portId, e.chanId, e.seq⟩ = .ok e.data) ∧
      ∀ sequences, sequences ≠ [] → packetAcknowledgements s channelEndPath sequences =
        .ok (sequences.filterMap fun seq => all.find? fun e => e.seq == seq) := by
  have hs := pathsOnly_run hrun
  obtain ⟨seqs, hseqs, hseqsNodup, hseqsMem⟩ := lists_unreceivedAcks hs channelEndPath
  obtain ⟨acks, hacks, hacksNodup, hacksMem⟩ := lists_packetAcknowledgements hs channelEndPath
  refine ⟨⟨seqs, hseqs, hseqsNodup, hseqsMem, fun sequences hne => ?_⟩,
    ⟨acks, hacks, hacksNodup, hacksMem, fun sequences hne => ?_⟩⟩
  · have hlength : ¬ sequences.length = 0 := fun h => hne (List.length_eq_zero_iff.mp h)
    have hmem : ∀ seq, (packetCommitmentStore.get s .pending
        ⟨channelEndPath.portId, channelEndPath.channelId, seq⟩).isSome = decide (seq ∈ seqs) := by
      intro seq
      refine Bool.eq_iff_iff.mpr (Option.isSome_iff_exists.trans ?_)
      rw [decide_eq_true_iff, hseqsMem]
      exact exists_congr fun data => okOr_eq_ok_iff.symm
    rw [unreceivedAcks, if_neg hlength, List.filter_map, List.map_map]
    simp only [Function.comp_def, hmem, List.map_id']
  · have hlength : ¬ sequences.length = 0 := fun h => hne (List.length_eq_zero_iff.mp h)
    rw [packetAcknowledgements, if_neg hlength]
    refine (mapM_filter_isSome _).trans (congrArg Except.ok ?_)
    rw [List.filterMap_map]
    exact List.filterMap_congr fun seq _ => find_ack hacksMem seq

end Runs

end IbcStore

/-! ## A packet received, and one taken back -/

section Received

open IbcStore

attribute [local instance] twoChannelsSha256 twoChannelsText twoChannelsBuildProfile twoChannelsHost

def watchedChannel : ChannelEndPath := ⟨transferPort, ⟨"channel-42", by decide⟩⟩

/-- A client with a connection, and a packet received. -/
def receivedCalls : List (Call Nat Nat Nat Nat Nat) :=
  [.increaseClientCounter,
    .storeConnectionToClient ⟨⟨"07-tendermint-42", by decide⟩⟩ ⟨"connection-42", by decide⟩,
    .storePacketReceipt ⟨watchedChannel.portId, watchedChannel.channelId, 1⟩]

/-- A second packet, in a transaction that fails. -/
def takenBack : List (Call Nat Nat Nat Nat Nat) :=
  [.apply, .storePacketReceipt ⟨watchedChannel.portId, watchedChannel.channelId, 2⟩, .reset]

theorem context_history_takenBack :
    ∃ results s, runSteps call (Ibc.newContext InMemoryStore.default)
        (receivedCalls ++ takenBack) = some (results, s) ∧
      clientCounter s = .ok 1 ∧
      (∃ unreceived, unreceivedPackets s watchedChannel [1, 2] = .ok unreceived ∧
        ∀ seq, seq ∈ unreceived ↔ seq ∈ [1, 2] ∧
          .storePacketReceipt ⟨watchedChannel.portId, watchedChannel.channelId, seq⟩ ∉
            effects (receivedCalls ++ takenBack)) := by
  have hruns : (runSteps call (Ibc.newContext InMemoryStore.default)
    (receivedCalls ++ takenBack)).isSome := rfl
  obtain ⟨⟨results, s⟩, hrun⟩ := Option.isSome_iff_exists.mp hruns
  obtain ⟨hcounter, -, -, -, -, hunreceived⟩ := context_history hrun
  obtain ⟨unreceived, heq, -, hmem⟩ := hunreceived watchedChannel [1, 2]
  exact ⟨results, s, hrun, (hcounter 1).mpr ⟨rfl, rfl⟩, unreceived, heq, hmem⟩

def watchedPacket (seq : Sequence) : CommitmentPath :=
  ⟨watchedChannel.portId, watchedChannel.channelId, seq⟩

def watchedAck (seq : Sequence) : AckPath := ⟨watchedChannel.portId, watchedChannel.channelId, seq⟩

/-- A channel whose name begins like the watched one's. -/
def otherChannel : ChannelEndPath := ⟨transferPort, ⟨"channel-420", by decide⟩⟩

/-- A packet sent and one acknowledged on each channel; the first packet's commitment is deleted. -/
def relayedCalls : List (Call Nat Nat Nat Nat Nat) :=
  [.storePacketCommitment (watchedPacket 1) [7],
    .storePacketCommitment (watchedPacket 3) [8],
    .storePacketCommitment ⟨otherChannel.portId, otherChannel.channelId, 2⟩ [9],
    .storePacketAcknowledgement (watchedAck 5) [10],
    .storePacketAcknowledgement ⟨otherChannel.portId, otherChannel.channelId, 7⟩ [11],
    .deletePacketCommitment (watchedPacket 1)]

/-- Another packet sent, in a transaction that fails. -/
def relayedBack : List (Call Nat Nat Nat Nat Nat) :=
  [.apply, .storePacketCommitment (watchedPacket 4) [12], .reset]

theorem relayer_queries_takenBack :
    ∃ results s, runSteps call (Ibc.newContext InMemoryStore.default)
        (relayedCalls ++ relayedBack) = some (results, s) ∧
      (∃ all, unreceivedAcks s watchedChannel [] = .ok all ∧ all.Nodup ∧ 3 ∈ all ∧
        (∀ seq, seq ∈ all ↔ ∃ data, getPacketCommitment s (watchedPacket seq) = .ok data) ∧
        unreceivedAcks s watchedChannel [4, 3, 2, 1] = .ok ([4, 3, 2, 1].filter (· ∈ all))) ∧
      ∃ all, packetAcknowledgements s watchedChannel [] = .ok all ∧ all.Nodup ∧
        ⟨5, watchedChannel.portId, watchedChannel.channelId, [10]⟩ ∈ all ∧
        (∀ e, e ∈ all ↔ e.portId = watchedChannel.portId ∧ e.chanId = watchedChannel.channelId ∧
          getPacketAcknowledgement s ⟨e.portId, e.chanId, e.seq⟩ = .ok e.data) ∧
        packetAcknowledgements s watchedChannel [5, 7] =
          .ok ([5, 7].filterMap fun seq => all.find? fun e => e.seq == seq) := by
  have hruns : (runSteps call (Ibc.newContext InMemoryStore.default)
    (relayedCalls ++ relayedBack)).isSome := rfl
  obtain ⟨⟨results, s⟩, hrun⟩ := Option.isSome_iff_exists.mp hruns
  have hanswers := (holds_run hrun).answers (pathsOnly_run hrun)
  have hpacket := (hanswers.getPacketCommitment (watchedPacket 3) [8]).mpr rfl
  have hack := (hanswers.getPacketAcknowledgement (watchedAck 5) [10]).mpr rfl
  obtain ⟨⟨seqs, hseqs, hseqsNodup, hseqsMem, hseqsGiven⟩,
    acks, hacks, hacksNodup, hacksMem, hacksGiven⟩ := relayer_queries hrun watchedChannel
  exact ⟨results, s, hrun,
    ⟨seqs, hseqs, hseqsNodup, (hseqsMem 3).mpr ⟨_, hpacket⟩, hseqsMem,
      hseqsGiven _ (List.cons_ne_nil _ _)⟩,
    acks, hacks, hacksNodup, (hacksMem _).mpr ⟨rfl, rfl, hack⟩, hacksMem,
      hacksGiven _ (List.cons_ne_nil _ _)⟩

end Received

end Basecoin
