import Basecoin.Modules.Clients
import Basecoin.Modules.HostPaths
import Basecoin.Modules.Ibc

/-!
# `modules/src/ibc`: the store of an IBC context

What `ExecutionContext` and `ClientExecutionContext` store and delete, each kind of value through a
typed store of its own over the one key space. Whatever they do, there is nothing in it but values
under paths of their kind (`pathsOnly_run`).

A `Call` is one method of the contexts, or one of the store operations that the application makes
around them: so a run of calls is what happens to the store over any number of blocks, including
the writes that a failed transaction takes back. Apart from a pruning beyond the last height, only
the three counters can fail or panic. `IbcContext::new` writes them and nothing deletes them, but a
`reset` before anything is applied takes them back, and that there is room for their successor in 64
bits nothing guarantees (`increaseCounter`).

`Entry` says which codec a value under a path of each kind was written with. It is what turns "there
are some bytes under this key" into "the typed store finds a value" everywhere after this module.
-/

namespace Basecoin

open Lib

/-- Newtypes around bytes. -/
abbrev PacketCommitment := Bytes

abbrev AcknowledgementCommitment := Bytes

/-- What `ibc-rs` and the codecs do for an IBC context. -/
class IbcContextHost [IdentifierText]
    (AnyClientState AnyConsensusState Timestamp ConnectionEnd ChannelEnd : outParam Type)
    extends IbcHost where
  nextClientSequence_eq : nextClientSequence = HostPath.nextClientSequence.toString
  nextConnectionSequence_eq : nextConnectionSequence = HostPath.nextConnectionSequence.toString
  nextChannelSequence_eq : nextChannelSequence = HostPath.nextChannelSequence.toString
  /-- `Path::from_str`, of the paths that a context stores at. -/
  parsePath : String → Option HostPath
  /-- It inverts printing. -/
  parsePath_toString : ∀ path : HostPath, parsePath path.toString = some path
  clientStateCodec : Codec AnyClientState
  consensusStateCodec : Codec AnyConsensusState
  timestampCodec : Codec Timestamp
  heightCodec : Codec IbcHeight
  connectionEndCodec : Codec ConnectionEnd
  connectionIdsCodec : Codec (List ConnectionId)
  channelEndCodec : Codec ChannelEnd
  sequenceCodec : Codec Sequence
  /-- The error of `IbcHeight::new`, by `Display` and by `Debug`. -/
  invalidHeight : String
  debugInvalidHeight : String
  /-- `Debug` of what errors name. -/
  debugClientId : ClientId → String
  debugConnectionId : ConnectionId → String
  debugHeight : IbcHeight → String
  debugSequence : Sequence → String

namespace IbcStore

variable [IdentifierText]
  {AnyClientState AnyConsensusState Timestamp ConnectionEnd ChannelEnd : Type}
  [IbcContextHost AnyClientState AnyConsensusState Timestamp ConnectionEnd ChannelEnd]

/-- The contexts of the clients read with the same parser. -/
instance : ClientHost AnyConsensusState Timestamp where
  parsePath text := (IbcContextHost.parsePath text).map HostPath.toIbcPath
  consensusStateCodec := IbcContextHost.consensusStateCodec
  timestampCodec := IbcContextHost.timestampCodec
  heightCodec := IbcContextHost.heightCodec

/-! ## The typed stores -/

def clientStateStore : TypedStore ClientStatePath AnyClientState :=
  { display := fun path => (HostPath.clientState path).toString
    codec := IbcContextHost.clientStateCodec }

def connectionEndStore : TypedStore ConnectionPath ConnectionEnd :=
  { display := fun path => (HostPath.connection path).toString
    codec := IbcContextHost.connectionEndCodec }

def connectionIdsStore : TypedStore ClientConnectionPath (List ConnectionId) :=
  { display := fun path => (HostPath.clientConnection path).toString
    codec := IbcContextHost.connectionIdsCodec }

def channelEndStore : TypedStore ChannelEndPath ChannelEnd :=
  { display := fun path => (HostPath.channelEnd path).toString
    codec := IbcContextHost.channelEndCodec }

def sendSequenceStore : TypedStore SeqSendPath Sequence :=
  { display := fun path => (HostPath.seqSend path).toString
    codec := IbcContextHost.sequenceCodec }

def recvSequenceStore : TypedStore SeqRecvPath Sequence :=
  { display := fun path => (HostPath.seqRecv path).toString
    codec := IbcContextHost.sequenceCodec }

def ackSequenceStore : TypedStore SeqAckPath Sequence :=
  { display := fun path => (HostPath.seqAck path).toString
    codec := IbcContextHost.sequenceCodec }

def packetCommitmentStore : TypedStore CommitmentPath PacketCommitment :=
  { display := fun path => (HostPath.commitment path).toString, codec := binCodec }

def packetReceiptStore : TypedStore ReceiptPath Unit :=
  { display := fun path => (HostPath.receipt path).toString, codec := nullCodec }

def packetAckStore : TypedStore AckPath AcknowledgementCommitment :=
  { display := fun path => (HostPath.ack path).toString, codec := binCodec }

variable [Sha256] [BuildProfile]

/-! ## Storing and deleting -/

def storeClientState (s : InMemoryStore) (clientStatePath : ClientStatePath)
    (clientState : AnyClientState) : InMemoryStore :=
  (clientStateStore.set s clientStatePath clientState).2

/-- The three `increase_*_counter`, which differ in the counter. -/
def increaseCounter (s : InMemoryStore) (key name : String) :
    Option (Except HostError Unit × InMemoryStore) :=
  match Ibc.counterStore.get s .pending key with
  | none => some (.error (.missingState name), s)
  | some currentSequence =>
    -- `current_sequence + 1`
    if BuildProfile.overflowChecks = true ∧ currentSequence.toNat + 1 = UInt64.size then none
    else some (.ok (), (Ibc.counterStore.set s key (currentSequence + 1)).2)

def increaseClientCounter (s : InMemoryStore) : Option (Except HostError Unit × InMemoryStore) :=
  increaseCounter s IbcHost.nextClientSequence "client counter"

def increaseConnectionCounter (s : InMemoryStore) :
    Option (Except HostError Unit × InMemoryStore) :=
  increaseCounter s IbcHost.nextConnectionSequence "connection counter"

def increaseChannelCounter (s : InMemoryStore) : Option (Except HostError Unit × InMemoryStore) :=
  increaseCounter s IbcHost.nextChannelSequence "channel counter"

def storeConnection (s : InMemoryStore) (connectionPath : ConnectionPath)
    (connectionEnd : ConnectionEnd) : InMemoryStore :=
  (connectionEndStore.set s connectionPath connectionEnd).2

def storeConnectionToClient (s : InMemoryStore) (clientConnectionPath : ClientConnectionPath)
    (connId : ConnectionId) : InMemoryStore :=
  let connIds := (connectionIdsStore.get s .pending clientConnectionPath).getD []
  (connectionIdsStore.set s clientConnectionPath (connIds ++ [connId])).2

def storePacketCommitment (s : InMemoryStore) (commitmentPath : CommitmentPath)
    (commitment : PacketCommitment) : InMemoryStore :=
  (packetCommitmentStore.set s commitmentPath commitment).2

def deletePacketCommitment (s : InMemoryStore) (key : CommitmentPath) : InMemoryStore :=
  packetCommitmentStore.delete s key

def storePacketReceipt (s : InMemoryStore) (receiptPath : ReceiptPath) : InMemoryStore :=
  (packetReceiptStore.set s receiptPath ()).2

def storePacketAcknowledgement (s : InMemoryStore) (ackPath : AckPath)
    (ackCommitment : AcknowledgementCommitment) : InMemoryStore :=
  (packetAckStore.set s ackPath ackCommitment).2

def deletePacketAcknowledgement (s : InMemoryStore) (ackPath : AckPath) : InMemoryStore :=
  packetAckStore.delete s ackPath

def storeChannel (s : InMemoryStore) (channelEndPath : ChannelEndPath) (channelEnd : ChannelEnd) :
    InMemoryStore :=
  (channelEndStore.set s channelEndPath channelEnd).2

def storeNextSequenceSend (s : InMemoryStore) (seqSendPath : SeqSendPath) (seq : Sequence) :
    InMemoryStore :=
  (sendSequenceStore.set s seqSendPath seq).2

def storeNextSequenceRecv (s : InMemoryStore) (seqRecvPath : SeqRecvPath) (seq : Sequence) :
    InMemoryStore :=
  (recvSequenceStore.set s seqRecvPath seq).2

def storeNextSequenceAck (s : InMemoryStore) (seqAckPath : SeqAckPath) (seq : Sequence) :
    InMemoryStore :=
  (ackSequenceStore.set s seqAckPath seq).2

/-! ## Runs -/

/-- What is done to the store of a context, the calls of the block cycle included. A consensus
state is stored at a height of `ibc-rs`. -/
inductive Call (AnyClientState AnyConsensusState Timestamp ConnectionEnd ChannelEnd : Type) where
  | storeClientState (path : ClientStatePath) (clientState : AnyClientState)
  | storeConsensusState (clientId : ClientId) (height : IbcHeight)
      (consensusState : AnyConsensusState)
  | deleteConsensusState (path : ClientConsensusStatePath)
  | storeUpdateMeta (clientId : ClientId) (height : IbcHeight) (hostTimestamp : Timestamp)
      (hostHeight : IbcHeight)
  | deleteUpdateMeta (clientId : ClientId) (height : IbcHeight)
  | increaseClientCounter
  | storeConnection (path : ConnectionPath) (connectionEnd : ConnectionEnd)
  | storeConnectionToClient (path : ClientConnectionPath) (connId : ConnectionId)
  | increaseConnectionCounter
  | storePacketCommitment (path : CommitmentPath) (commitment : PacketCommitment)
  | deletePacketCommitment (path : CommitmentPath)
  | storePacketReceipt (path : ReceiptPath)
  | storePacketAcknowledgement (path : AckPath) (ackCommitment : AcknowledgementCommitment)
  | deletePacketAcknowledgement (path : AckPath)
  | storeChannel (path : ChannelEndPath) (channelEnd : ChannelEnd)
  | storeNextSequenceSend (path : SeqSendPath) (seq : Sequence)
  | storeNextSequenceRecv (path : SeqRecvPath) (seq : Sequence)
  | storeNextSequenceAck (path : SeqAckPath) (seq : Sequence)
  | increaseChannelCounter
  | apply
  | reset
  | commit
  | prune (height : RawHeight)

/-- One call; `none` is a panic. -/
def call (s : InMemoryStore) :
    Call AnyClientState AnyConsensusState Timestamp ConnectionEnd ChannelEnd →
      Option (Except HostError Unit × InMemoryStore)
  | .storeClientState path clientState => some (.ok (), storeClientState s path clientState)
  | .storeConsensusState clientId height consensusState =>
    some (.ok (), Clients.storeConsensusState s (Clients.consensusPath clientId height) consensusState)
  | .deleteConsensusState path => some (.ok (), Clients.deleteConsensusState s path)
  | .storeUpdateMeta clientId height hostTimestamp hostHeight =>
    some (.ok (), Clients.storeUpdateMeta s clientId height hostTimestamp hostHeight)
  | .deleteUpdateMeta clientId height => some (.ok (), Clients.deleteUpdateMeta s clientId height)
  | .increaseClientCounter => increaseClientCounter s
  | .storeConnection path connectionEnd => some (.ok (), storeConnection s path connectionEnd)
  | .storeConnectionToClient path connId => some (.ok (), storeConnectionToClient s path connId)
  | .increaseConnectionCounter => increaseConnectionCounter s
  | .storePacketCommitment path commitment => some (.ok (), storePacketCommitment s path commitment)
  | .deletePacketCommitment path => some (.ok (), deletePacketCommitment s path)
  | .storePacketReceipt path => some (.ok (), storePacketReceipt s path)
  | .storePacketAcknowledgement path ackCommitment =>
    some (.ok (), storePacketAcknowledgement s path ackCommitment)
  | .deletePacketAcknowledgement path => some (.ok (), deletePacketAcknowledgement s path)
  | .storeChannel path channelEnd => some (.ok (), storeChannel s path channelEnd)
  | .storeNextSequenceSend path seq => some (.ok (), storeNextSequenceSend s path seq)
  | .storeNextSequenceRecv path seq => some (.ok (), storeNextSequenceRecv s path seq)
  | .storeNextSequenceAck path seq => some (.ok (), storeNextSequenceAck s path seq)
  | .increaseChannelCounter => increaseChannelCounter s
  | .apply => some (.ok (), s.apply)
  | .reset => some (.ok (), s.reset)
  | .commit => some (.ok (), s.commit.2)
  | .prune height => (s.prune height).map fun r => (.ok (), r.2)

/-! ## What is in a reachable store -/

section Entries

omit [Sha256] [BuildProfile]

/-- The codec under which a value was written. -/
def Written {V : Type} (codec : Codec V) (value : Bytes) : Prop := ∃ v, value = codec.encode v

/-- What is written under a path of each kind. -/
def Entry : HostPath → Bytes → Prop
  | .nextClientSequence => Written IbcHost.counterCodec
  | .nextConnectionSequence => Written IbcHost.counterCodec
  | .nextChannelSequence => Written IbcHost.counterCodec
  | .clientState _ => Written IbcContextHost.clientStateCodec
  | .clientConsensusState path => fun value =>
    path.revisionHeight ≠ 0 ∧ Written IbcContextHost.consensusStateCodec value
  | .clientUpdateTime _ => Written IbcContextHost.timestampCodec
  | .clientUpdateHeight _ => Written IbcContextHost.heightCodec
  | .clientConnection _ => Written IbcContextHost.connectionIdsCodec
  | .connection _ => Written IbcContextHost.connectionEndCodec
  | .channelEnd _ => Written IbcContextHost.channelEndCodec
  | .seqSend _ => Written IbcContextHost.sequenceCodec
  | .seqRecv _ => Written IbcContextHost.sequenceCodec
  | .seqAck _ => Written IbcContextHost.sequenceCodec
  | .commitment _ => Written binCodec
  | .receipt _ => Written nullCodec
  | .ack _ => Written binCodec

end Entries

/-- Both copies hold entries under paths of a context, and nothing else; a `reset` makes the staged
one the pending one. -/
structure PathsOnly (s : InMemoryStore) : Prop where
  pending : ∀ key value, s.pending.get key = some value →
    ∃ path : HostPath, key = Path.ofString path.toString ∧ Entry path value
  staged : ∀ key value, s.staged.get key = some value →
    ∃ path : HostPath, key = Path.ofString path.toString ∧ Entry path value

namespace PathsOnly

variable {s s' : InMemoryStore}

omit [BuildProfile] in
theorem default : PathsOnly InMemoryStore.default where
  pending _ _ h := by cases h
  staged _ _ h := by cases h

omit [BuildProfile] in
theorem set {K V : Type} (T : TypedStore K V) {key : K} {value : V} (path : HostPath)
    (hs : PathsOnly s) (hpath : T.display key = path.toString)
    (hentry : Entry path (T.codec.encode value)) : PathsOnly (T.set s key value).2 where
  pending k v h := by
    rw [TypedStore.set, InMemoryStore.set, State.get_insert] at h
    split at h
    · next hk =>
      obtain rfl := Option.some.inj h
      exact ⟨path, hk.trans (congrArg Path.ofString hpath), hentry⟩
    · exact hs.pending k v h
  staged := hs.staged

omit [BuildProfile] in
theorem delete {K V : Type} (T : TypedStore K V) (key : K) (hs : PathsOnly s) :
    PathsOnly (T.delete s key) where
  pending k v h := by
    rw [TypedStore.delete, InMemoryStore.delete, State.get_remove] at h
    split at h
    · cases h
    · exact hs.pending k v h
  staged := hs.staged

omit [BuildProfile] in
theorem newContext (hs : PathsOnly s) : PathsOnly (Ibc.newContext s) :=
  ((hs.set Ibc.counterStore .nextClientSequence IbcContextHost.nextClientSequence_eq ⟨0, rfl⟩).set
    Ibc.counterStore .nextConnectionSequence IbcContextHost.nextConnectionSequence_eq ⟨0, rfl⟩).set
    Ibc.counterStore .nextChannelSequence IbcContextHost.nextChannelSequence_eq ⟨0, rfl⟩

theorem increaseCounter {key name : String} {result : Except HostError Unit} (path : HostPath)
    (hs : PathsOnly s) (hpath : key = path.toString)
    (hentry : ∀ n, Entry path (IbcHost.counterCodec.encode n))
    (h : increaseCounter s key name = some (result, s')) : PathsOnly s' := by
  unfold IbcStore.increaseCounter at h
  cases hget : Ibc.counterStore.get s .pending key with
  | none =>
    rw [hget] at h
    obtain ⟨-, rfl⟩ := Prod.mk.inj (Option.some.inj h)
    exact hs
  | some currentSequence =>
    rw [hget] at h
    dsimp only at h
    split at h
    · cases h
    · obtain ⟨-, rfl⟩ := Prod.mk.inj (Option.some.inj h)
      exact hs.set Ibc.counterStore path hpath (hentry _)

end PathsOnly

theorem pathsOnly_call {s s' : InMemoryStore}
    {c : Call AnyClientState AnyConsensusState Timestamp ConnectionEnd ChannelEnd}
    {result : Except HostError Unit} (hs : PathsOnly s) (h : call s c = some (result, s')) :
    PathsOnly s' := by
  cases c with
  | storeClientState path clientState =>
    obtain ⟨-, rfl⟩ := Prod.mk.inj (Option.some.inj h)
    exact hs.set clientStateStore (.clientState path) rfl ⟨clientState, rfl⟩
  | storeConsensusState clientId height consensusState =>
    obtain ⟨-, rfl⟩ := Prod.mk.inj (Option.some.inj h)
    exact hs.set Clients.consensusStateStore
      (.clientConsensusState (Clients.consensusPath clientId height))
      (HostPath.toString_clientConsensusState _).symm ⟨height.ne_zero, consensusState, rfl⟩
  | deleteConsensusState path =>
    obtain ⟨-, rfl⟩ := Prod.mk.inj (Option.some.inj h)
    exact hs.delete Clients.consensusStateStore path
  | storeUpdateMeta clientId height hostTimestamp hostHeight =>
    -- two records, under two paths of one height
    obtain ⟨-, rfl⟩ := Prod.mk.inj (Option.some.inj h)
    refine (hs.set Clients.clientProcessedTimes (.clientUpdateTime _)
      (HostPath.toString_clientUpdateTime _).symm ⟨hostTimestamp, rfl⟩).set
      Clients.clientProcessedHeights (.clientUpdateHeight _)
      (HostPath.toString_clientUpdateHeight _).symm ⟨hostHeight, rfl⟩
  | deleteUpdateMeta clientId height =>
    obtain ⟨-, rfl⟩ := Prod.mk.inj (Option.some.inj h)
    exact (hs.delete Clients.clientProcessedTimes _).delete Clients.clientProcessedHeights _
  | increaseClientCounter =>
    -- a counter that is missing is reported, and then nothing is written
    exact hs.increaseCounter .nextClientSequence IbcContextHost.nextClientSequence_eq
      (fun n => ⟨n, rfl⟩) h
  | storeConnection path connectionEnd =>
    obtain ⟨-, rfl⟩ := Prod.mk.inj (Option.some.inj h)
    exact hs.set connectionEndStore (.connection path) rfl ⟨connectionEnd, rfl⟩
  | storeConnectionToClient path connId =>
    obtain ⟨-, rfl⟩ := Prod.mk.inj (Option.some.inj h)
    exact hs.set connectionIdsStore (.clientConnection path) rfl ⟨_, rfl⟩
  | increaseConnectionCounter =>
    exact hs.increaseCounter .nextConnectionSequence IbcContextHost.nextConnectionSequence_eq
      (fun n => ⟨n, rfl⟩) h
  | storePacketCommitment path commitment =>
    obtain ⟨-, rfl⟩ := Prod.mk.inj (Option.some.inj h)
    exact hs.set packetCommitmentStore (.commitment path) rfl ⟨commitment, rfl⟩
  | deletePacketCommitment path =>
    obtain ⟨-, rfl⟩ := Prod.mk.inj (Option.some.inj h)
    exact hs.delete packetCommitmentStore path
  | storePacketReceipt path =>
    obtain ⟨-, rfl⟩ := Prod.mk.inj (Option.some.inj h)
    exact hs.set packetReceiptStore (.receipt path) rfl ⟨(), rfl⟩
  | storePacketAcknowledgement path ackCommitment =>
    obtain ⟨-, rfl⟩ := Prod.mk.inj (Option.some.inj h)
    exact hs.set packetAckStore (.ack path) rfl ⟨ackCommitment, rfl⟩
  | deletePacketAcknowledgement path =>
    obtain ⟨-, rfl⟩ := Prod.mk.inj (Option.some.inj h)
    exact hs.delete packetAckStore path
  | storeChannel path channelEnd =>
    obtain ⟨-, rfl⟩ := Prod.mk.inj (Option.some.inj h)
    exact hs.set channelEndStore (.channelEnd path) rfl ⟨channelEnd, rfl⟩
  | storeNextSequenceSend path seq =>
    obtain ⟨-, rfl⟩ := Prod.mk.inj (Option.some.inj h)
    exact hs.set sendSequenceStore (.seqSend path) rfl ⟨seq, rfl⟩
  | storeNextSequenceRecv path seq =>
    obtain ⟨-, rfl⟩ := Prod.mk.inj (Option.some.inj h)
    exact hs.set recvSequenceStore (.seqRecv path) rfl ⟨seq, rfl⟩
  | storeNextSequenceAck path seq =>
    obtain ⟨-, rfl⟩ := Prod.mk.inj (Option.some.inj h)
    exact hs.set ackSequenceStore (.seqAck path) rfl ⟨seq, rfl⟩
  | increaseChannelCounter =>
    exact hs.increaseCounter .nextChannelSequence IbcContextHost.nextChannelSequence_eq
      (fun n => ⟨n, rfl⟩) h
  | apply =>
    obtain ⟨-, rfl⟩ := Prod.mk.inj (Option.some.inj h)
    exact ⟨hs.pending, hs.pending⟩
  | reset =>
    obtain ⟨-, rfl⟩ := Prod.mk.inj (Option.some.inj h)
    exact ⟨hs.staged, hs.staged⟩
  | commit =>
    obtain ⟨-, rfl⟩ := Prod.mk.inj (Option.some.inj h)
    exact ⟨hs.pending, hs.pending⟩
  | prune height =>
    obtain ⟨r, hprune, hr⟩ := Option.map_eq_some_iff.mp h
    obtain ⟨store, -, rfl⟩ := Option.map_eq_some_iff.mp hprune
    obtain ⟨-, rfl⟩ := Prod.mk.inj hr
    exact ⟨hs.pending, hs.staged⟩

/-- Every store of a context, from a fresh one on. -/
theorem pathsOnly_run
    {calls : List (Call AnyClientState AnyConsensusState Timestamp ConnectionEnd ChannelEnd)}
    {results : List (Except HostError Unit)} {s : InMemoryStore}
    (h : runSteps call (Ibc.newContext InMemoryStore.default) calls = some (results, s)) :
    PathsOnly s :=
  runSteps_invariant (fun _ _ _ _ hs hc => pathsOnly_call hs hc) PathsOnly.default.newContext h

end IbcStore

end Basecoin
