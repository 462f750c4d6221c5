import Basecoin.Modules.IbcQueries
import Basecoin.Store.Versioned

/-!
# An IBC context is a dictionary with rollback

What the validation contexts of `modules/src/ibc` read, one entry at a time, against what the
execution contexts stored. The abstract context has a value of its own type under each path
(`Contents`); a call changes the value under the paths it names and no other. Forgetting the bytes
turns a store that refines a versioned tree into one that simulates a versioned dictionary
(`Holds.call`), so a context panics and replies as the dictionary does, and reads from it
(`context_refines`).

The dictionary is typed: what may be under a path is determined by the path (`Value`), and so is the
codec (`codecAt`). A call of the block cycle is a change of versions, every other call an edit of the
working copy (`Call.toChange`). The only calls with an outcome of their own are the three that
increase a counter, which may find none or overflow, and a pruning beyond the last height.
-/

namespace Basecoin

open Lib

/-- `Receipt`. -/
inductive Receipt where
  | ok
deriving DecidableEq

namespace IbcStore

variable [IdentifierText]
  {AnyClientState AnyConsensusState Timestamp ConnectionEnd ChannelEnd : Type}

/-- What is stored under a path of each kind. -/
def Value [IbcContextHost AnyClientState AnyConsensusState Timestamp ConnectionEnd ChannelEnd] :
    HostPath → Type
  | .nextClientSequence => UInt64
  | .nextConnectionSequence => UInt64
  | .nextChannelSequence => UInt64
  | .clientState _ => AnyClientState
  | .clientConsensusState _ => AnyConsensusState
  | .clientUpdateTime _ => Timestamp
  | .clientUpdateHeight _ => IbcHeight
  | .clientConnection _ => List ConnectionId
  | .connection _ => ConnectionEnd
  | .channelEnd _ => ChannelEnd
  | .seqSend _ => Sequence
  | .seqRecv _ => Sequence
  | .seqAck _ => Sequence
  | .commitment _ => PacketCommitment
  | .receipt _ => Unit
  | .ack _ => AcknowledgementCommitment

variable [IbcContextHost AnyClientState AnyConsensusState Timestamp ConnectionEnd ChannelEnd]

/-! ## Reading -/

section Reading

variable [Sha256]

/-- The three counters, which differ in the counter. -/
def counter (s : InMemoryStore) (key name : String) : Except HostError UInt64 :=
  okOr (.missingState name) (Ibc.counterStore.get s .pending key)

def clientCounter (s : InMemoryStore) : Except HostError UInt64 :=
  counter s IbcHost.nextClientSequence "client counter"

def connectionCounter (s : InMemoryStore) : Except HostError UInt64 :=
  counter s IbcHost.nextConnectionSequence "connection counter"

def channelCounter (s : InMemoryStore) : Except HostError UInt64 :=
  counter s IbcHost.nextChannelSequence "channel counter"

def clientUpdateMeta (s : InMemoryStore) (clientId : ClientId) (height : IbcHeight) :
    Except HostError (Timestamp × IbcHeight) := do
  let processedTimestamp ← okOr
    (.missingState ("update time for client_id " ++ clientId.id ++ " at height " ++
      height.toString))
    (Clients.clientProcessedTimes.get s .pending
      ⟨clientId, height.revisionNumber, height.revisionHeight⟩)
  let processedHeight ← okOr
    (.missingState ("update height for client_id " ++ clientId.id ++ " at height " ++
      height.toString))
    (Clients.clientProcessedHeights.get s .pending
      ⟨clientId, height.revisionNumber, height.revisionHeight⟩)
  pure (processedTimestamp, processedHeight)

def getNextSequenceSend (s : InMemoryStore) (seqSendPath : SeqSendPath) :
    Except HostError Sequence :=
  okOr (.missingState "sequence send") (sendSequenceStore.get s .pending seqSendPath)

def getNextSequenceRecv (s : InMemoryStore) (seqRecvPath : SeqRecvPath) :
    Except HostError Sequence :=
  okOr (.missingState "sequence recv") (recvSequenceStore.get s .pending seqRecvPath)

def getNextSequenceAck (s : InMemoryStore) (seqAckPath : SeqAckPath) :
    Except HostError Sequence :=
  okOr (.missingState "sequence ack") (ackSequenceStore.get s .pending seqAckPath)

def getPacketReceipt (s : InMemoryStore) (receiptPath : ReceiptPath) : Except HostError Receipt :=
  okOr (.missingState "packet receipt")
    (if packetReceiptStore.isPathSet s .pending receiptPath then some .ok else none)

def clientConnectionEnds (s : InMemoryStore) (clientId : ClientId) :
    Except HostError (List ConnectionId) :=
  .ok ((connectionIdsStore.get s .pending ⟨clientId⟩).getD [])

end Reading

/-! ## The abstract context -/

def codecAt : (path : HostPath) → Codec (Value path)
  | .nextClientSequence => IbcHost.counterCodec
  | .nextConnectionSequence => IbcHost.counterCodec
  | .nextChannelSequence => IbcHost.counterCodec
  | .clientState _ => IbcContextHost.clientStateCodec
  | .clientConsensusState _ => IbcContextHost.consensusStateCodec
  | .clientUpdateTime _ => IbcContextHost.timestampCodec
  | .clientUpdateHeight _ => IbcContextHost.heightCodec
  | .clientConnection _ => IbcContextHost.connectionIdsCodec
  | .connection _ => IbcContextHost.connectionEndCodec
  | .channelEnd _ => IbcContextHost.channelEndCodec
  | .seqSend _ => IbcContextHost.sequenceCodec
  | .seqRecv _ => IbcContextHost.sequenceCodec
  | .seqAck _ => IbcContextHost.sequenceCodec
  | .commitment _ => binCodec
  | .receipt _ => nullCodec
  | .ack _ => binCodec

/-- Under each path a value of its kind, or nothing. -/
abbrev Contents := ∀ path : HostPath, Option (Value path)

namespace Contents

def store (c : Contents) (path : HostPath) (value : Value path) : Contents :=
  Function.update c path (some value)

def delete (c : Contents) (path : HostPath) : Contents := Function.update c path none

def modify (c : Contents) (path : HostPath) (f : Option (Value path) → Option (Value path)) :
    Contents :=
  Function.update c path (f (c path))

def empty : Contents := fun _ => none

/-- What a context starts with. -/
def fresh : Contents :=
  ((empty.store .nextClientSequence (0 : UInt64)).store .nextConnectionSequence (0 : UInt64)).store
    .nextChannelSequence (0 : UInt64)

/-- The contents after a call that does not panic. -/
def after (c : Contents) :
    Call AnyClientState AnyConsensusState Timestamp ConnectionEnd ChannelEnd → Contents
  | .storeClientState path clientState => c.store (.clientState path) clientState
  | .storeConsensusState clientId height consensusState =>
    c.store (.clientConsensusState (Clients.consensusPath clientId height)) consensusState
  | .deleteConsensusState path => c.delete (.clientConsensusState path)
  | .storeUpdateMeta clientId height hostTimestamp hostHeight =>
    (c.store (.clientUpdateTime ⟨clientId, height.revisionNumber, height.revisionHeight⟩)
        hostTimestamp).store
      (.clientUpdateHeight ⟨clientId, height.revisionNumber, height.revisionHeight⟩) hostHeight
  | .deleteUpdateMeta clientId height =>
    (c.delete (.clientUpdateTime ⟨clientId, height.revisionNumber, height.revisionHeight⟩)).delete
      (.clientUpdateHeight ⟨clientId, height.revisionNumber, height.revisionHeight⟩)
  | .increaseClientCounter => c.modify .nextClientSequence (Option.map fun n : UInt64 => n + 1)
  | .storeConnection path connectionEnd => c.store (.connection path) connectionEnd
  | .storeConnectionToClient path connId =>
    c.modify (.clientConnection path) fun connIds : Option (List ConnectionId) =>
      some (connIds.getD [] ++ [connId])
  | .increaseConnectionCounter => c.modify .nextConnectionSequence (Option.map fun n : UInt64 => n + 1)
  | .storePacketCommitment path commitment => c.store (.commitment path) commitment
  | .deletePacketCommitment path => c.delete (.commitment path)
  | .storePacketReceipt path => c.store (.receipt path) ()
  | .storePacketAcknowledgement path ackCommitment => c.store (.ack path) ackCommitment
  | .deletePacketAcknowledgement path => c.delete (.ack path)
  | .storeChannel path channelEnd => c.store (.channelEnd path) channelEnd
  | .storeNextSequenceSend path seq => c.store (.seqSend path) seq
  | .storeNextSequenceRecv path seq => c.store (.seqRecv path) seq
  | .storeNextSequenceAck path seq => c.store (.seqAck path) seq
  | .increaseChannelCounter => c.modify .nextChannelSequence (Option.map fun n : UInt64 => n + 1)
  | .apply => c
  | .reset => c
  | .commit => c
  | .prune _ => c

/-- What an `increase_*_counter` answers. -/
def increased (name : String) (n : Option UInt64) : Except HostError Unit :=
  (okOr (.missingState name) n).map fun _ => ()

def reply (c : Contents) :
    Call AnyClientState AnyConsensusState Timestamp ConnectionEnd ChannelEnd →
      Except HostError Unit
  | .increaseClientCounter => increased "client counter" (c .nextClientSequence)
  | .increaseConnectionCounter => increased "connection counter" (c .nextConnectionSequence)
  | .increaseChannelCounter => increased "channel counter" (c .nextChannelSequence)
  | _ => .ok ()

end Contents

/-- Which calls are those of the block cycle. -/
def Call.toChange :
    Call AnyClientState AnyConsensusState Timestamp ConnectionEnd ChannelEnd →
      Change (Call AnyClientState AnyConsensusState Timestamp ConnectionEnd ChannelEnd)
  | .apply => .apply
  | .reset => .reset
  | .commit => .commit
  | .prune height => .prune height
  | c => .edit c

section Step

variable [BuildProfile]

omit [IbcContextHost AnyClientState AnyConsensusState Timestamp ConnectionEnd ChannelEnd] in
/-- Adding one overflows, and is checked. -/
def overflows (n : Option UInt64) : Bool :=
  BuildProfile.overflowChecks && n.any fun n => n.toNat + 1 == UInt64.size

def panics (v : Versioned Contents) :
    Call AnyClientState AnyConsensusState Timestamp ConnectionEnd ChannelEnd → Bool
  | .increaseClientCounter => overflows (v.working .nextClientSequence)
  | .increaseConnectionCounter => overflows (v.working .nextConnectionSequence)
  | .increaseChannelCounter => overflows (v.working .nextChannelSequence)
  | .prune height => v.committed.length < height
  | _ => false

/-- One call on the abstract context; `none` is a panic. -/
def step (v : Versioned Contents)
    (c : Call AnyClientState AnyConsensusState Timestamp ConnectionEnd ChannelEnd) :
    Option (Except HostError Unit × Versioned Contents) :=
  if panics v c then none
  else some (Contents.reply v.working c, v.change Contents.after c.toChange)

end Step

/-- The abstract context that `IbcContext::new` makes. The counters are written and not yet
applied. -/
def start : Versioned Contents := ⟨Contents.fresh, Contents.empty, [], 0⟩

/-! ## Forgetting the bytes -/

section Simulation

variable [Sha256]

/-- The contents of a tree. -/
def contentsOf (st : State) : Contents := fun path =>
  (st.get (Path.ofString path.toString)).bind (codecAt path).decode

section Trees

variable {K : Type} {path : HostPath} (T : TypedStore K (Value path)) {key : K}

theorem contentsOf_insert (st : State) (value : Value path) (hdisplay : T.display key = path.toString)
    (hcodec : T.codec = codecAt path) :
    contentsOf (st.insert (T.path key) (T.codec.encode value)).2 =
      (contentsOf st).store path value := by
  funext p
  rw [contentsOf, State.get_insert, TypedStore.path, hdisplay, hcodec, Contents.store]
  by_cases hp : p = path
  · subst hp
    rw [if_pos rfl, Option.bind_some, Codec.decode_encode, Function.update_self]
  · have hne : Path.ofString p.toString ≠ Path.ofString path.toString := fun h =>
      hp (HostPath.toString_injective (Path.ofString_injective h))
    rw [if_neg hne, Function.update_of_ne hp]
    rfl

theorem contentsOf_remove (st : State) (hdisplay : T.display key = path.toString) :
    contentsOf (st.remove (T.path key)) = (contentsOf st).delete path := by
  funext p
  rw [contentsOf, State.get_remove, TypedStore.path, hdisplay, Contents.delete]
  by_cases hp : p = path
  · subst hp
    rw [if_pos rfl, Option.bind_none, Function.update_self]
  · have hne : Path.ofString p.toString ≠ Path.ofString path.toString := fun h =>
      hp (HostPath.toString_injective (Path.ofString_injective h))
    rw [if_neg hne, Function.update_of_ne hp]
    rfl

end Trees

/-- A store and the dictionary it holds. -/
def Holds (s : InMemoryStore) (v : Versioned Contents) : Prop :=
  ∃ w : Versioned State, s.Refines w ∧ w.map contentsOf = v

namespace Holds

variable {s : InMemoryStore} {v : Versioned Contents}

section Typed

variable {K : Type} (path : HostPath) (T : TypedStore K (Value path)) {key : K}

theorem get (h : Holds s v) (hdisplay : T.display key = path.toString)
    (hcodec : T.codec = codecAt path) : T.get s .pending key = v.working path := by
  obtain ⟨w, href, rfl⟩ := h
  show (s.pending.get (T.path key)).bind T.codec.decode = contentsOf w.working path
  rw [href.pending, TypedStore.path, hdisplay, hcodec]
  rfl

theorem set (h : Holds s v) (value : Value path) (hdisplay : T.display key = path.toString)
    (hcodec : T.codec = codecAt path) :
    Holds (T.set s key value).2 { v with working := Contents.store v.working path value } := by
  obtain ⟨w, href, rfl⟩ := h
  refine ⟨{ w with working := (w.working.insert (T.path key) (T.codec.encode value)).2 },
    ⟨?_, href.staged, href.vec, href.pruned, href.pruned_le⟩, ?_⟩
  · rw [TypedStore.set, InMemoryStore.set, href.pending]
  · rw [Versioned.map, contentsOf_insert T w.working value hdisplay hcodec]
    rfl

theorem delete (h : Holds s v) (hdisplay : T.display key = path.toString) :
    Holds (T.delete s key) { v with working := Contents.delete v.working path } := by
  obtain ⟨w, href, rfl⟩ := h
  refine ⟨{ w with working := w.working.remove (T.path key) },
    ⟨?_, href.staged, href.vec, href.pruned, href.pruned_le⟩, ?_⟩
  · rw [TypedStore.delete, InMemoryStore.delete, href.pending]
  · rw [Versioned.map, contentsOf_remove T w.working hdisplay]
    rfl

theorem modify {f : Option (Value path) → Option (Value path)} {value : Value path} (h : Holds s v)
    (hdisplay : T.display key = path.toString) (hcodec : T.codec = codecAt path)
    (hf : f (v.working path) = some value) :
    Holds (T.set s key value).2 { v with working := Contents.modify v.working path f } := by
  rw [Contents.modify, hf]
  exact h.set path T value hdisplay hcodec

end Typed

theorem change (h : Holds s v) {s' : InMemoryStore} {c : StoreOp}
    {d : Change (Call AnyClientState AnyConsensusState Timestamp ConnectionEnd ChannelEnd)}
    (hop : ∀ w : Versioned State, w.committed.length = v.committed.length → PruneInRange w c)
    (hchange : ∀ w : Versioned State, (w.change PathEdit.onState c).map contentsOf =
      (w.map contentsOf).change Contents.after d)
    (hexec : (s.exec c).map Prod.snd = some s') : Holds s' (v.change Contents.after d) := by
  obtain ⟨w, href, rfl⟩ := h
  obtain ⟨s₁, hs₁, href₁⟩ := href.exec (hop w (List.length_map _).symm)
  rw [hs₁] at hexec
  obtain rfl := Option.some.inj hexec
  exact ⟨_, href₁, hchange w⟩

theorem modify_none {path : HostPath} {f : Option (Value path) → Option (Value path)}
    (h : Holds s v) (hvalue : v.working path = none) (hf : f none = none) :
    Holds s { v with working := Contents.modify v.working path f } := by
  have hmodify : Contents.modify v.working path f = v.working := by
    rw [Contents.modify, hvalue, hf, ← hvalue, Function.update_eq_self]
  rw [hmodify]
  exact h

theorem fresh : Holds (Ibc.newContext InMemoryStore.default) start := by
  have hempty : Holds InMemoryStore.default (Versioned.init Contents.empty) :=
    ⟨_, InMemoryStore.refines_default, rfl⟩
  have hclient := hempty.set .nextClientSequence Ibc.counterStore (0 : UInt64)
    IbcContextHost.nextClientSequence_eq rfl
  have hconnection := hclient.set .nextConnectionSequence Ibc.counterStore (0 : UInt64)
    IbcContextHost.nextConnectionSequence_eq rfl
  exact hconnection.set .nextChannelSequence Ibc.counterStore (0 : UInt64)
    IbcContextHost.nextChannelSequence_eq rfl

variable [BuildProfile]

/-- The one call of the block cycle that may panic. -/
theorem prune (h : Holds s v) (height : RawHeight) :
    Option.Rel (fun r r' => r.1 = r'.1 ∧ Holds r.2 r'.2)
      (IbcStore.call s
        (.prune height : Call AnyClientState AnyConsensusState Timestamp ConnectionEnd ChannelEnd))
      (step v (.prune height)) := by
  have hlen : s.store.originalLength = v.committed.length := by
    obtain ⟨w, href, rfl⟩ := h
    exact href.currentHeight_eq.trans (List.length_map _).symm
  show Option.Rel _ ((s.prune height).map _)
    (if decide (v.committed.length < height) = true then none else _)
  by_cases hle : height ≤ v.committed.length
  · have hno : ¬ decide (v.committed.length < height) = true := by simpa using hle
    have hprune := (PrunedVec.prune_eq s.store height).trans (if_pos (hlen ▸ hle))
    rw [if_neg hno, InMemoryStore.prune, hprune]
    refine .some ⟨rfl, h.change (c := .prune height) (d := .prune height) (fun w hw => ?_)
      (fun _ => rfl) ?_⟩
    · exact le_of_le_of_eq hle hw.symm
    · rw [InMemoryStore.exec, InMemoryStore.prune, hprune]
      rfl
  · have hyes : decide (v.committed.length < height) = true := by simpa using hle
    have hprune := (PrunedVec.prune_eq s.store height).trans (if_neg (hlen ▸ hle))
    rw [if_pos hyes, InMemoryStore.prune, hprune]
    exact .none

/-- The three `increase_*_counter`. -/
theorem increaseCounter {key name : String} {n : Option UInt64} {next : Contents}
    (hget : Ibc.counterStore.get s .pending key = n)
    (hnone : n = none → Holds s { v with working := next })
    (hset : ∀ m, n = some m →
      Holds (Ibc.counterStore.set s key (m + 1)).2 { v with working := next }) :
    Option.Rel (fun r r' => r.1 = r'.1 ∧ Holds r.2 r'.2) (increaseCounter s key name)
      (if overflows n then none
        else some (Contents.increased name n, { v with working := next })) := by
  rw [IbcStore.increaseCounter, hget]
  cases n with
  | none =>
    have hno : ¬ overflows none = true := by simp [overflows]
    rw [if_neg hno]
    exact .some ⟨rfl, hnone rfl⟩
  | some m =>
    have hiff : overflows (some m) = true ↔
        BuildProfile.overflowChecks = true ∧ m.toNat + 1 = UInt64.size := by
      simp [overflows]
    by_cases hover : BuildProfile.overflowChecks = true ∧ m.toNat + 1 = UInt64.size
    · rw [if_pos (hiff.mpr hover)]
      dsimp only
      rw [if_pos hover]
      exact .none
    · rw [if_neg (mt hiff.mp hover)]
      dsimp only
      rw [if_neg hover]
      exact .some ⟨rfl, hset m rfl⟩

/-- **One call.** It panics in a store exactly if it does in the dictionary, replies the same, and
leaves the one in the other. -/
theorem call (h : Holds s v)
    (c : Call AnyClientState AnyConsensusState Timestamp ConnectionEnd ChannelEnd) :
    Option.Rel (fun r r' => r.1 = r'.1 ∧ Holds r.2 r'.2) (IbcStore.call s c) (step v c) := by
  -- each call by the typed store of its kind, whose keys print as the paths of the kind
  cases c with
  | storeClientState path clientState =>
    exact .some ⟨rfl, h.set (.clientState path) clientStateStore clientState rfl rfl⟩
  | storeConsensusState clientId height consensusState =>
    exact .some ⟨rfl, h.set (.clientConsensusState _) Clients.consensusStateStore
      consensusState (HostPath.toString_clientConsensusState _).symm rfl⟩
  | deleteConsensusState path =>
    exact .some ⟨rfl, h.delete (.clientConsensusState path) Clients.consensusStateStore
      (HostPath.toString_clientConsensusState _).symm⟩
  | storeUpdateMeta clientId height hostTimestamp hostHeight =>
    have htime := h.set (.clientUpdateTime _) Clients.clientProcessedTimes hostTimestamp
      (HostPath.toString_clientUpdateTime
        ⟨clientId, height.revisionNumber, height.revisionHeight⟩).symm rfl
    exact .some ⟨rfl, htime.set (.clientUpdateHeight _) Clients.clientProcessedHeights
      hostHeight (HostPath.toString_clientUpdateHeight _).symm rfl⟩
  | deleteUpdateMeta clientId height =>
    have htime := h.delete (.clientUpdateTime _) Clients.clientProcessedTimes
      (HostPath.toString_clientUpdateTime
        ⟨clientId, height.revisionNumber, height.revisionHeight⟩).symm
    exact .some ⟨rfl, htime.delete (.clientUpdateHeight _) Clients.clientProcessedHeights
      (HostPath.toString_clientUpdateHeight _).symm⟩
  | increaseClientCounter =>
    have hkey : Ibc.counterStore.display IbcHost.nextClientSequence =
      HostPath.nextClientSequence.toString := IbcContextHost.nextClientSequence_eq
    refine increaseCounter (h.get .nextClientSequence Ibc.counterStore hkey rfl)
      (fun hnone => h.modify_none hnone rfl) fun m hm => ?_
    exact h.modify .nextClientSequence Ibc.counterStore hkey rfl (congrArg (Option.map _) hm)
  | storeConnection path connectionEnd =>
    exact .some ⟨rfl, h.set (.connection path) connectionEndStore connectionEnd rfl rfl⟩
  | storeConnectionToClient path connId =>
    have hdisplay : connectionIdsStore.display path =
      (HostPath.clientConnection path).toString := rfl
    have hget : connectionIdsStore.get s .pending path = v.working (.clientConnection path) :=
      h.get (.clientConnection path) connectionIdsStore hdisplay rfl
    have hids := h.modify (.clientConnection path) connectionIdsStore
      (f := fun connIds : Option (List ConnectionId) => some (connIds.getD [] ++ [connId]))
      hdisplay rfl rfl
    rw [← hget] at hids
    exact .some ⟨rfl, hids⟩
  | increaseConnectionCounter =>
    have hkey : Ibc.counterStore.display IbcHost.nextConnectionSequence =
      HostPath.nextConnectionSequence.toString := IbcContextHost.nextConnectionSequence_eq
    refine increaseCounter (h.get .nextConnectionSequence Ibc.counterStore hkey rfl)
      (fun hnone => h.modify_none hnone rfl) fun m hm => ?_
    exact h.modify .nextConnectionSequence Ibc.counterStore hkey rfl (congrArg (Option.map _) hm)
  | storePacketCommitment path commitment =>
    exact .some ⟨rfl, h.set (.commitment path) packetCommitmentStore commitment rfl rfl⟩
  | deletePacketCommitment path =>
    exact .some ⟨rfl, h.delete (.commitment path) packetCommitmentStore rfl⟩
  | storePacketReceipt path =>
    exact .some ⟨rfl, h.set (.receipt path) packetReceiptStore () rfl rfl⟩
  | storePacketAcknowledgement path ackCommitment =>
    exact .some ⟨rfl, h.set (.ack path) packetAckStore ackCommitment rfl rfl⟩
  | deletePacketAcknowledgement path =>
    exact .some ⟨rfl, h.delete (.ack path) packetAckStore rfl⟩
  | storeChannel path channelEnd =>
    exact .some ⟨rfl, h.set (.channelEnd path) channelEndStore channelEnd rfl rfl⟩
  | storeNextSequenceSend path seq =>
    exact .some ⟨rfl, h.set (.seqSend path) sendSequenceStore seq rfl rfl⟩
  | storeNextSequenceRecv path seq =>
    exact .some ⟨rfl, h.set (.seqRecv path) recvSequenceStore seq rfl rfl⟩
  | storeNextSequenceAck path seq =>
    exact .some ⟨rfl, h.set (.seqAck path) ackSequenceStore seq rfl rfl⟩
  | increaseChannelCounter =>
    have hkey : Ibc.counterStore.display IbcHost.nextChannelSequence =
      HostPath.nextChannelSequence.toString := IbcContextHost.nextChannelSequence_eq
    refine increaseCounter (h.get .nextChannelSequence Ibc.counterStore hkey rfl)
      (fun hnone => h.modify_none hnone rfl) fun m hm => ?_
    exact h.modify .nextChannelSequence Ibc.counterStore hkey rfl (congrArg (Option.map _) hm)
  | apply =>
    exact .some ⟨rfl, h.change (c := .apply) (d := .apply) (fun _ _ => trivial)
      (fun _ => rfl) rfl⟩
  | reset =>
    exact .some ⟨rfl, h.change (c := .reset) (d := .reset) (fun _ _ => trivial)
      (fun _ => rfl) rfl⟩
  | commit =>
    refine .some ⟨rfl, h.change (c := .commit) (d := .commit) (fun _ _ => trivial)
      (fun w => ?_) rfl⟩
    simp only [Versioned.change, Versioned.map, List.map_append, List.map_singleton]
  | prune height => exact h.prune height

end Holds

/-! ## What a context answers -/

/-- The value under a path at a height, as a query of that height decodes it. -/
def valueAt (s : InMemoryStore) (height : Height) (path : HostPath) : Option (Value path) :=
  (s.get height (Path.ofString path.toString)).bind (codecAt path).decode

/-- Every reading of a context answers the value under its own path, and an error only where there
is none. -/
structure Answers (s : InMemoryStore) (v : Versioned Contents) : Prop where
  clientCounter : ∀ n, clientCounter s = .ok n ↔ v.working .nextClientSequence = some n
  connectionCounter : ∀ n,
    connectionCounter s = .ok n ↔ v.working .nextConnectionSequence = some n
  channelCounter : ∀ n, channelCounter s = .ok n ↔ v.working .nextChannelSequence = some n
  clientState : ∀ clientId value,
    clientState s clientId = .ok value ↔ v.working (.clientState ⟨clientId⟩) = some value
  /-- Nothing is stored at a height of zero, for which there is another error. -/
  consensusState : ∀ path value,
    consensusState s path = .ok value ↔ v.working (.clientConsensusState path) = some value
  clientUpdateMeta : ∀ clientId (height : IbcHeight) time processed,
    clientUpdateMeta s clientId height = .ok (time, processed) ↔
      v.working (.clientUpdateTime ⟨clientId, height.revisionNumber, height.revisionHeight⟩) =
        some time ∧
      v.working (.clientUpdateHeight ⟨clientId, height.revisionNumber, height.revisionHeight⟩) =
        some processed
  clientConnectionEnds : ∀ clientId connIds, clientConnectionEnds s clientId = .ok connIds ↔
    (v.working (.clientConnection ⟨clientId⟩) : Option (List ConnectionId)).getD [] = connIds
  connectionEnd : ∀ connId value,
    connectionEnd s connId = .ok value ↔ v.working (.connection ⟨connId⟩) = some value
  channelEnd : ∀ path value,
    channelEnd s path = .ok value ↔ v.working (.channelEnd path) = some value
  getNextSequenceSend : ∀ path seq,
    getNextSequenceSend s path = .ok seq ↔ v.working (.seqSend path) = some seq
  getNextSequenceRecv : ∀ path seq,
    getNextSequenceRecv s path = .ok seq ↔ v.working (.seqRecv path) = some seq
  getNextSequenceAck : ∀ path seq,
    getNextSequenceAck s path = .ok seq ↔ v.working (.seqAck path) = some seq
  getPacketCommitment : ∀ path commitment,
    getPacketCommitment s path = .ok commitment ↔ v.working (.commitment path) = some commitment
  getPacketReceipt : ∀ path, getPacketReceipt s path = .ok .ok ↔ v.working (.receipt path) = some ()
  getPacketAcknowledgement : ∀ path ackCommitment,
    getPacketAcknowledgement s path = .ok ackCommitment ↔
      v.working (.ack path) = some ackCommitment
  /-- A height answers the contents committed as that height, unless it was pruned. -/
  stable : ∀ height path, valueAt s (.stable height) path = (v.atHeight height).bind (· path)
  height : s.currentHeight = v.committed.length

omit [Sha256] in
theorem Entry.written : ∀ {path : HostPath} {value : Bytes}, Entry path value →
    Written (codecAt path) value
  | .clientConsensusState _, _, h => h.2
  | .nextClientSequence, _, h => h
  | .nextConnectionSequence, _, h => h
  | .nextChannelSequence, _, h => h
  | .clientState _, _, h => h
  | .clientUpdateTime _, _, h => h
  | .clientUpdateHeight _, _, h => h
  | .clientConnection _, _, h => h
  | .connection _, _, h => h
  | .channelEnd _, _, h => h
  | .seqSend _, _, h => h
  | .seqRecv _, _, h => h
  | .seqAck _, _, h => h
  | .commitment _, _, h => h
  | .receipt _, _, h => h
  | .ack _, _, h => h

/-- What is under a path, if anything, is an entry of the path. -/
theorem PathsOnly.entry {s : InMemoryStore} (hs : PathsOnly s) {path : HostPath} {value : Bytes}
    (h : s.pending.get (Path.ofString path.toString) = some value) : Entry path value := by
  obtain ⟨path', hpath, hentry⟩ := hs.pending _ _ h
  obtain rfl := HostPath.toString_injective (Path.ofString_injective hpath)
  exact hentry

namespace Holds

variable {s : InMemoryStore} {v : Versioned Contents}

theorem working_eq (h : Holds s v) (path : HostPath) :
    v.working path = (s.pending.get (Path.ofString path.toString)).bind (codecAt path).decode := by
  obtain ⟨w, href, rfl⟩ := h
  rw [href.pending]
  rfl

/-- A value is there where bytes are. -/
theorem isSome_iff (h : Holds s v) (hs : PathsOnly s) (path : HostPath) :
    (s.pending.get (Path.ofString path.toString)).isSome ↔ (v.working path).isSome := by
  rw [h.working_eq]
  cases hget : s.pending.get (Path.ofString path.toString) with
  | none => exact Iff.rfl
  | some bytes =>
    obtain ⟨value, rfl⟩ := (hs.entry hget).written
    rw [Option.bind_some, Codec.decode_encode]
    exact Iff.rfl

theorem isPathSet_iff (h : Holds s v) (hs : PathsOnly s) (path : ReceiptPath) :
    packetReceiptStore.isPathSet s .pending path ↔ v.working (.receipt path) = some () := by
  have hiff := h.isSome_iff hs (.receipt path)
  rw [TypedStore.isPathSet]
  refine hiff.trans ⟨fun hsome => ?_, fun heq => heq ▸ rfl⟩
  obtain ⟨value, hvalue⟩ := Option.isSome_iff_exists.mp hsome
  exact hvalue

theorem stable (h : Holds s v) (height : RawHeight) (path : HostPath) :
    valueAt s (.stable height) path = (v.atHeight height).bind (· path) := by
  obtain ⟨w, href, rfl⟩ := h
  rw [valueAt, InMemoryStore.get, href.getState_stable, Versioned.atHeight_map, Option.bind_map,
    Option.bind_assoc]
  rfl

theorem reads {K : Type} (h : Holds s v) (path : HostPath) (T : TypedStore K (Value path)) {key : K}
    {e : HostError} {value : Value path} (hdisplay : T.display key = path.toString)
    (hcodec : T.codec = codecAt path) :
    okOr e (T.get s .pending key) = .ok value ↔ v.working path = some value := by
  rw [okOr_eq_ok_iff, h.get path T hdisplay hcodec]

theorem consensusState_iff (h : Holds s v) (hs : PathsOnly s) (path : ClientConsensusStatePath)
    (value : AnyConsensusState) : consensusState s path = .ok value ↔
      v.working (.clientConsensusState path) = some value := by
  have hdisplay : Clients.consensusStateStore.display path =
    (HostPath.clientConsensusState path).toString :=
      (HostPath.toString_clientConsensusState path).symm
  rw [consensusState, okOr_bind_eq_ok_iff]
  constructor
  · rintro ⟨_, -, hread⟩
    exact (h.reads (.clientConsensusState path) Clients.consensusStateStore hdisplay rfl).mp hread
  · intro hvalue
    have hsome := (h.isSome_iff hs (.clientConsensusState path)).mpr (Option.isSome_of_eq_some hvalue)
    obtain ⟨bytes, hbytes⟩ := Option.isSome_iff_exists.mp hsome
    obtain ⟨hzero, -⟩ := hs.entry hbytes
    exact ⟨_, dif_pos hzero,
      (h.reads (.clientConsensusState path) Clients.consensusStateStore hdisplay rfl).mpr hvalue⟩

theorem clientUpdateMeta_iff (h : Holds s v) (clientId : ClientId) (height : IbcHeight)
    (time : Timestamp) (processed : IbcHeight) :
    clientUpdateMeta s clientId height = .ok (time, processed) ↔
      v.working (.clientUpdateTime ⟨clientId, height.revisionNumber, height.revisionHeight⟩) =
        some time ∧
      v.working (.clientUpdateHeight ⟨clientId, height.revisionNumber, height.revisionHeight⟩) =
        some processed := by
  have htime : Clients.clientProcessedTimes.get s .pending
      ⟨clientId, height.revisionNumber, height.revisionHeight⟩ = v.working (.clientUpdateTime _) :=
    h.get (.clientUpdateTime _) Clients.clientProcessedTimes
      (HostPath.toString_clientUpdateTime _).symm rfl
  have hheight : Clients.clientProcessedHeights.get s .pending
      ⟨clientId, height.revisionNumber, height.revisionHeight⟩ = v.working (.clientUpdateHeight _) :=
    h.get (.clientUpdateHeight _) Clients.clientProcessedHeights
      (HostPath.toString_clientUpdateHeight _).symm rfl
  rw [clientUpdateMeta, okOr_bind_eq_ok_iff]
  constructor
  · rintro ⟨t, ht, hrest⟩
    obtain ⟨p, hp, heq⟩ := okOr_bind_eq_ok_iff.mp hrest
    obtain ⟨rfl, rfl⟩ := Prod.mk.inj (Except.ok.inj heq)
    exact ⟨htime.symm.trans ht, hheight.symm.trans hp⟩
  · rintro ⟨ht, hp⟩
    exact ⟨time, htime.trans ht, okOr_bind_eq_ok_iff.mpr ⟨processed, hheight.trans hp, rfl⟩⟩

theorem answers (h : Holds s v) (hs : PathsOnly s) : Answers s v where
  clientCounter _ :=
    h.reads .nextClientSequence Ibc.counterStore IbcContextHost.nextClientSequence_eq rfl
  connectionCounter _ :=
    h.reads .nextConnectionSequence Ibc.counterStore IbcContextHost.nextConnectionSequence_eq rfl
  channelCounter _ :=
    h.reads .nextChannelSequence Ibc.counterStore IbcContextHost.nextChannelSequence_eq rfl
  clientState clientId _ := h.reads (.clientState ⟨clientId⟩) clientStateStore rfl rfl
  consensusState := h.consensusState_iff hs
  clientUpdateMeta := h.clientUpdateMeta_iff
  clientConnectionEnds clientId connIds := by
    have hget : connectionIdsStore.get s .pending ⟨clientId⟩ =
        v.working (.clientConnection ⟨clientId⟩) :=
      h.get (.clientConnection ⟨clientId⟩) connectionIdsStore rfl rfl
    rw [IbcStore.clientConnectionEnds, hget]
    exact ⟨Except.ok.inj, congrArg Except.ok⟩
  connectionEnd connId _ := h.reads (.connection ⟨connId⟩) connectionEndStore rfl rfl
  channelEnd path _ := h.reads (.channelEnd path) channelEndStore rfl rfl
  getNextSequenceSend path _ := h.reads (.seqSend path) sendSequenceStore rfl rfl
  getNextSequenceRecv path _ := h.reads (.seqRecv path) recvSequenceStore rfl rfl
  getNextSequenceAck path _ := h.reads (.seqAck path) ackSequenceStore rfl rfl
  getPacketCommitment path _ := h.reads (.commitment path) packetCommitmentStore rfl rfl
  getPacketReceipt path := by
    rw [IbcStore.getPacketReceipt, okOr_eq_ok_iff, ← h.isPathSet_iff hs,
      Option.ite_none_right_eq_some]
    exact and_iff_left rfl
  getPacketAcknowledgement path _ := h.reads (.ack path) packetAckStore rfl rfl
  stable := h.stable
  height := by
    obtain ⟨w, href, rfl⟩ := h
    exact href.currentHeight_eq.trans (List.length_map _).symm

end Holds

/-- What the calls of a run make of the abstract context. -/
def contentsAfter
    (calls : List (Call AnyClientState AnyConsensusState Timestamp ConnectionEnd ChannelEnd)) :
    Versioned Contents :=
  start.runChanges Contents.after (calls.map Call.toChange)

variable [BuildProfile]

omit [Sha256] in
theorem runSteps_step
    {calls : List (Call AnyClientState AnyConsensusState Timestamp ConnectionEnd ChannelEnd)}
    {v v' : Versioned Contents} {results : List (Except HostError Unit)}
    (h : runSteps step v calls = some (results, v')) :
    v' = v.runChanges Contents.after (calls.map Call.toChange) := by
  induction calls generalizing v results with
  | nil =>
    obtain ⟨-, rfl⟩ := Prod.mk.inj (Option.some.inj h)
    rfl
  | cons c calls ih =>
    obtain ⟨result, v₁, results', hstep, hrun, -⟩ := runSteps_cons.mp h
    obtain ⟨-, hsome⟩ := Option.ite_none_left_eq_some.mp hstep
    obtain ⟨-, rfl⟩ := Prod.mk.inj (Option.some.inj hsome)
    exact ih hrun

end Simulation

end IbcStore

end Basecoin
