import Basecoin.Modules.ClientPaths

/-!
# The paths an IBC context stores at

The paths of `ibc-rs` (`ibc::core::host::types::path`) that `modules/src/ibc` writes to, in their
ICS-24 form. They are lists of names without a slash (`ofString_toString`), so what prints in front
of a path is known from its names (`toString_prefix_iff`).

The identifiers are those that `ibc-rs` accepts: characters of its alphabet and a length between
the bounds of the type, which each of them carries (`ValidIdentifier`). That there is no slash in
them is a consequence, and the only one the listings need. A parser needs more: `read` builds an
identifier out of every piece of text it takes for one, so it checks what `FromStr` checks, and
then it is a left inverse of printing (`read_toString`). Printing is injective because of it.
-/

namespace Basecoin

/-! ## Identifiers -/

variable [IdentifierText]

@[ext]
structure ConnectionId where
  id : String
  valid : ValidIdentifier 10 64 id

instance : DecidableEq ConnectionId := fun a b =>
  decidable_of_iff (a.id = b.id) ConnectionId.ext_iff.symm

@[ext]
structure PortId where
  id : String
  valid : ValidIdentifier 2 128 id

instance : DecidableEq PortId := fun a b =>
  decidable_of_iff (a.id = b.id) PortId.ext_iff.symm

@[ext]
structure ChannelId where
  id : String
  valid : ValidIdentifier 8 64 id

instance : DecidableEq ChannelId := fun a b =>
  decidable_of_iff (a.id = b.id) ChannelId.ext_iff.symm

theorem ConnectionId.noSlash (connectionId : ConnectionId) : '/' ∉ connectionId.id.toList :=
  connectionId.valid.noSlash

theorem PortId.noSlash (portId : PortId) : '/' ∉ portId.id.toList := portId.valid.noSlash

theorem ChannelId.noSlash (channelId : ChannelId) : '/' ∉ channelId.id.toList :=
  channelId.valid.noSlash

/-- `Sequence`: a newtype around `u64`. -/
abbrev Sequence := UInt64

/-! ## Paths -/

structure ClientStatePath where
  clientId : ClientId
deriving DecidableEq

structure ClientConnectionPath where
  clientId : ClientId
deriving DecidableEq

structure ConnectionPath where
  connectionId : ConnectionId
deriving DecidableEq

structure ChannelEndPath where
  portId : PortId
  channelId : ChannelId
deriving DecidableEq

structure SeqSendPath where
  portId : PortId
  channelId : ChannelId
deriving DecidableEq

structure SeqRecvPath where
  portId : PortId
  channelId : ChannelId
deriving DecidableEq

structure SeqAckPath where
  portId : PortId
  channelId : ChannelId
deriving DecidableEq

@[ext]
structure CommitmentPath where
  portId : PortId
  channelId : ChannelId
  sequence : Sequence
deriving DecidableEq

structure ReceiptPath where
  portId : PortId
  channelId : ChannelId
  sequence : Sequence
deriving DecidableEq

@[ext]
structure AckPath where
  portId : PortId
  channelId : ChannelId
  sequence : Sequence
deriving DecidableEq

/-- `ibc::core::host::types::path::Path`, the kinds that a context stores at. -/
inductive HostPath where
  | nextClientSequence
  | nextConnectionSequence
  | nextChannelSequence
  | clientState (path : ClientStatePath)
  | clientConsensusState (path : ClientConsensusStatePath)
  | clientUpdateTime (path : ClientUpdateTimePath)
  | clientUpdateHeight (path : ClientUpdateHeightPath)
  | clientConnection (path : ClientConnectionPath)
  | connection (path : ConnectionPath)
  | channelEnd (path : ChannelEndPath)
  | seqSend (path : SeqSendPath)
  | seqRecv (path : SeqRecvPath)
  | seqAck (path : SeqAckPath)
  | commitment (path : CommitmentPath)
  | receipt (path : ReceiptPath)
  | ack (path : AckPath)
deriving DecidableEq

namespace HostPath

/-- The names of a path, in ICS-24. -/
def ids : HostPath → List Identifier
  | nextClientSequence => ["nextClientSequence"]
  | nextConnectionSequence => ["nextConnectionSequence"]
  | nextChannelSequence => ["nextChannelSequence"]
  | clientState path => ["clients", path.clientId.id, "clientState"]
  | clientConsensusState path =>
    ["clients", path.clientId.id, "consensusStates",
      displayHeight path.revisionNumber path.revisionHeight]
  | clientUpdateTime path =>
    ["clients", path.clientId.id, "consensusStates",
      displayHeight path.revisionNumber path.revisionHeight, "processedTime"]
  | clientUpdateHeight path =>
    ["clients", path.clientId.id, "consensusStates",
      displayHeight path.revisionNumber path.revisionHeight, "processedHeight"]
  | clientConnection path => ["clients", path.clientId.id, "connections"]
  | connection path => ["connections", path.connectionId.id]
  | channelEnd path => ["channelEnds", "ports", path.portId.id, "channels", path.channelId.id]
  | seqSend path => ["nextSequenceSend", "ports", path.portId.id, "channels", path.channelId.id]
  | seqRecv path => ["nextSequenceRecv", "ports", path.portId.id, "channels", path.channelId.id]
  | seqAck path => ["nextSequenceAck", "ports", path.portId.id, "channels", path.channelId.id]
  | commitment path =>
    ["commitments", "ports", path.portId.id, "channels", path.channelId.id, "sequences",
      path.sequence.toNat.repr]
  | receipt path =>
    ["receipts", "ports", path.portId.id, "channels", path.channelId.id, "sequences",
      path.sequence.toNat.repr]
  | ack path =>
    ["acks", "ports", path.portId.id, "channels", path.channelId.id, "sequences",
      path.sequence.toNat.repr]

/-- `Display`. -/
def toString (path : HostPath) : String := Path.toString ⟨path.ids⟩

theorem ids_ne_nil (path : HostPath) : path.ids ≠ [] := by
  cases path with
  | _ => exact List.cons_ne_nil _ _

theorem slash_notMem_ids (path : HostPath) : ∀ id ∈ path.ids, '/' ∉ id.toList := by
  have hdigits : ∀ n : Nat, '/' ∉ Nat.toDigits 10 n := fun n => by
    rw [← String.toList_ofList (l := Nat.toDigits 10 n)]
    exact notMem_repr rfl n
  cases path with
  | _ => simp [ids, ClientId.noSlash, ConnectionId.noSlash, PortId.noSlash, ChannelId.noSlash,
      slash_notMem_displayHeight, hdigits]

theorem ofString_toString (path : HostPath) : Path.ofString path.toString = ⟨path.ids⟩ :=
  Path.ofString_toString path.ids_ne_nil path.slash_notMem_ids

/-- The three kinds that `client_contexts.rs` prints for itself. -/
theorem toString_clientConsensusState (path : ClientConsensusStatePath) :
    (clientConsensusState path).toString = path.toString := by
  rw [← Path.toString_ofString path.toString, ofString_consensusState]
  rfl

theorem toString_clientUpdateTime (path : ClientUpdateTimePath) :
    (clientUpdateTime path).toString = path.toString := by
  rw [← Path.toString_ofString path.toString, ofString_updateTime]
  rfl

theorem toString_clientUpdateHeight (path : ClientUpdateHeightPath) :
    (clientUpdateHeight path).toString = path.toString := by
  rw [← Path.toString_ofString path.toString, ofString_updateHeight]
  rfl

/-- As much of a path as the contexts of the clients tell apart. -/
def toIbcPath : HostPath → IbcPath
  | clientConsensusState path => .clientConsensusState path
  | clientUpdateTime path => .clientUpdateTime path
  | clientUpdateHeight path => .clientUpdateHeight path
  | path => .other path.toString

/-- Names joined by slashes start the text of a path when they are its first names, the last of
them perhaps cut short. -/
theorem toString_prefix_iff (path : HostPath) {init : List Identifier} {last : Identifier}
    (h : ∀ id ∈ init ++ [last], '/' ∉ id.toList) :
    (Path.toString ⟨init ++ [last]⟩).toList <+: path.toString.toList ↔
      ∃ id rest, path.ids = init ++ id :: rest ∧ last.toList <+: id.toList := by
  have hlast : '/' ∉ last.toList := h last (List.mem_append_right _ (List.mem_singleton_self _))
  have hinit : ∀ x ∈ init.map String.toList, '/' ∉ x := fun x hx => by
    obtain ⟨id, hid, rfl⟩ := List.mem_map.mp hx
    exact h id (List.mem_append_left _ hid)
  have hids : ∀ x ∈ path.ids.map String.toList, '/' ∉ x := fun x hx => by
    obtain ⟨id, hid, rfl⟩ := List.mem_map.mp hx
    exact path.slash_notMem_ids id hid
  have hne : path.ids.map String.toList ≠ [] := fun hnil =>
    path.ids_ne_nil (List.map_eq_nil_iff.mp hnil)
  rw [toString, Path.toString, Path.toString, String.toList_ofList, String.toList_ofList,
    List.map_append, List.map_singleton, Lib.intercalate_prefix_iff hinit hlast hids hne]
  -- the pieces of the text are the names of the path, so both sides speak of the same split
  constructor
  · rintro ⟨y, rest, heq, hpre⟩
    obtain ⟨ids₁, ids₂, hsplit, hids₁, hids₂⟩ := List.map_eq_append_iff.mp heq
    obtain ⟨id, ids₃, rfl, rfl, -⟩ := List.map_eq_cons_iff.mp hids₂
    have hinj : Function.Injective String.toList := fun _ _ => String.toList_injective
    obtain rfl := List.map_injective_iff.mpr hinj hids₁
    exact ⟨id, ids₃, hsplit, hpre⟩
  · rintro ⟨id, rest, heq, hpre⟩
    exact ⟨id.toList, rest.map String.toList, by rw [heq, List.map_append, List.map_cons], hpre⟩

end HostPath

/-! ## A parser -/

namespace HostPath

/-- `FromStr` of an identifier. -/
def readId {Id : Type} {min max : Nat} (mk : ∀ id : String, ValidIdentifier min max id → Id)
    (id : String) : Option Id :=
  if h : ValidIdentifier min max id then some (mk id h) else none

/-- The counters. -/
def readCounter (kind : Identifier) : Option HostPath :=
  if kind = "nextClientSequence" then some .nextClientSequence
  else if kind = "nextConnectionSequence" then some .nextConnectionSequence
  else if kind = "nextChannelSequence" then some .nextChannelSequence
  else none

/-- The records of a height of a client. -/
def readRecord (clientId : ClientId) (height : Identifier) (record : List Identifier) :
    Option HostPath :=
  (readHeight height).bind fun (revisionNumber, revisionHeight) =>
    match record with
    | [] => some (.clientConsensusState ⟨clientId, revisionNumber, revisionHeight⟩)
    | ["processedTime"] => some (.clientUpdateTime ⟨clientId, revisionNumber, revisionHeight⟩)
    | ["processedHeight"] => some (.clientUpdateHeight ⟨clientId, revisionNumber, revisionHeight⟩)
    | _ => none

/-- The kinds under a client. -/
def readClient (clientId : ClientId) (kind : Identifier) : List Identifier → Option HostPath
  | [] =>
    if kind = "clientState" then some (.clientState ⟨clientId⟩)
    else if kind = "connections" then some (.clientConnection ⟨clientId⟩)
    else none
  | height :: record => if kind = "consensusStates" then readRecord clientId height record else none

/-- The kinds of a channel. -/
def readChannel (kind : Identifier) (portId : PortId) (channelId : ChannelId) : Option HostPath :=
  if kind = "channelEnds" then some (.channelEnd ⟨portId, channelId⟩)
  else if kind = "nextSequenceSend" then some (.seqSend ⟨portId, channelId⟩)
  else if kind = "nextSequenceRecv" then some (.seqRecv ⟨portId, channelId⟩)
  else if kind = "nextSequenceAck" then some (.seqAck ⟨portId, channelId⟩)
  else none

/-- The kinds of a packet. -/
def readPacket (kind : Identifier) (portId : PortId) (channelId : ChannelId)
    (sequence : Sequence) : Option HostPath :=
  if kind = "commitments" then some (.commitment ⟨portId, channelId, sequence⟩)
  else if kind = "receipts" then some (.receipt ⟨portId, channelId, sequence⟩)
  else if kind = "acks" then some (.ack ⟨portId, channelId, sequence⟩)
  else none

/-- The kinds, from the names. -/
def readIds : List Identifier → Option HostPath
  | [kind] => readCounter kind
  | [kind, id] =>
    if kind = "connections" then (readId ConnectionId.mk id).map fun id => .connection ⟨id⟩
    else none
  | kind :: id :: kind' :: rest =>
    if kind = "clients" then (readId ClientId.mk id).bind fun id => readClient id kind' rest
    else
      (readId PortId.mk kind').bind fun port =>
        match rest with
        | [_, channel] => (readId ChannelId.mk channel).bind fun channel =>
          readChannel kind port channel
        | [_, channel, _, sequence] => (readId ChannelId.mk channel).bind fun channel =>
          readPacket kind port channel (readUInt64 sequence.toList)
        | _ => none
  | [] => none

/-- A parser of these paths, to run the model with. -/
def read (text : String) : Option HostPath := readIds (Path.ofString text).ids

theorem readId_of {Id : Type} {min max : Nat} {mk : ∀ id : String, ValidIdentifier min max id → Id}
    {id : String} (h : ValidIdentifier min max id) : readId mk id = some (mk id h) := dif_pos h

theorem readIds_client (clientId : ClientId) (kind : Identifier) (rest : List Identifier) :
    readIds ("clients" :: clientId.id :: kind :: rest) = readClient clientId kind rest := by
  rw [readIds, if_pos rfl, readId_of clientId.valid, Option.bind_some]

theorem readIds_record (clientId : ClientId) (revisionNumber revisionHeight : UInt64)
    (record : List Identifier) :
    readIds ("clients" :: clientId.id :: "consensusStates" ::
        displayHeight revisionNumber revisionHeight :: record) =
      readRecord clientId (displayHeight revisionNumber revisionHeight) record := by
  rw [readIds_client, readClient, if_pos rfl]

theorem readIds_channel {kind : Identifier} (hkind : kind ≠ "clients") (portId : PortId)
    (channelId : ChannelId) :
    readIds [kind, "ports", portId.id, "channels", channelId.id] =
      readChannel kind portId channelId := by
  rw [readIds, if_neg hkind, readId_of portId.valid, Option.bind_some]
  dsimp only
  rw [readId_of channelId.valid, Option.bind_some]

theorem readIds_packet {kind : Identifier} (hkind : kind ≠ "clients") (portId : PortId)
    (channelId : ChannelId) (sequence : Sequence) :
    readIds [kind, "ports", portId.id, "channels", channelId.id, "sequences",
        sequence.toNat.repr] = readPacket kind portId channelId sequence := by
  rw [readIds, if_neg hkind, readId_of portId.valid, Option.bind_some]
  dsimp only
  rw [readId_of channelId.valid, Option.bind_some, Nat.repr, String.toList_ofList,
    readUInt64_toDigits]

/-- It inverts printing. -/
theorem read_toString (path : HostPath) : read path.toString = some path := by
  rw [read, ofString_toString]
  cases path with
  | nextClientSequence => rfl
  | nextConnectionSequence => rfl
  | nextChannelSequence => rfl
  | clientState path => exact readIds_client path.clientId "clientState" []
  | clientConsensusState path => exact (readIds_record ..).trans (by simp [readRecord])
  | clientUpdateTime path => exact (readIds_record ..).trans (by simp [readRecord])
  | clientUpdateHeight path => exact (readIds_record ..).trans (by simp [readRecord])
  | clientConnection path => exact readIds_client path.clientId "connections" []
  | connection path => exact congrArg (Option.map _) (readId_of path.connectionId.valid)
  | channelEnd path => exact readIds_channel (by decide) path.portId path.channelId
  | seqSend path => exact readIds_channel (by decide) path.portId path.channelId
  | seqRecv path => exact readIds_channel (by decide) path.portId path.channelId
  | seqAck path => exact readIds_channel (by decide) path.portId path.channelId
  | commitment path => exact readIds_packet (by decide) path.portId path.channelId path.sequence
  | receipt path => exact readIds_packet (by decide) path.portId path.channelId path.sequence
  | ack path => exact readIds_packet (by decide) path.portId path.channelId path.sequence

theorem toString_injective : Function.Injective toString := by
  intro p q h
  have hp := read_toString p
  rw [h, read_toString] at hp
  exact (Option.some.inj hp).symm

end HostPath

end Basecoin
