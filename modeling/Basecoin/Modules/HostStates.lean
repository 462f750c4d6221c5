import Basecoin.Modules.Ibc

/-!
# `modules/src/ibc/impls.rs`: what the host knows of itself

The height of the host is its store's; its consensus states are filled in at the beginning of each
block, in a map that every clone of the module shares. `Memory` is what the modules remember
outside their stores.

Nothing of it is in a store, so neither `reset` nor `commit` touches it, and what a transaction
leaves there stays when the transaction fails. The map is written by `begin_block` alone and the
counter by governance alone. A `HostHeight` is never zero, so before its first commit the host has
no height to answer, and `host_timestamp` fails the same way (`hostTimestamp_of` needs both the
height and the state that belongs to it).
-/

namespace Basecoin

/-- `TmConsensusState`, the one variant of `AnyConsensusState`. -/
structure TmConsensusState where
  timestamp : Int
  root : Bytes
  nextValidatorsHash : Bytes
deriving DecidableEq

/-- What the modules keep outside their stores: the map behind `IbcContext::consensus_states`,
`Governance::proposal_counter`, and whatever else. -/
structure Memory (R : Type) where
  consensusStates : RawHeight → Option TmConsensusState
  proposalCounter : UInt64
  rest : R

/-- An `IbcHeight` of the host: its revision number is `CHAIN_REVISION_NUMBER`, and its revision
height, like every height of a store, is a natural number here. -/
structure HostHeight where
  revisionHeight : RawHeight
  ne_zero : revisionHeight ≠ 0
deriving DecidableEq

/-- What `ibc-rs` computes for the host. -/
class HostClock (Timestamp : outParam Type) where
  /-- `Timestamp::try_from` of a `tendermint::Time`. -/
  timestamp : Int → Except String Timestamp
  /-- `ClientError::InvalidHeight`, as text. -/
  invalidHeight : String
  /-- `ClientError::MissingLocalConsensusState`, as text. -/
  missingLocalConsensusState : HostHeight → String

namespace Ibc

variable [Sha256] [Bech32] {R G Timestamp : Type} [HostClock Timestamp]

/-! ## The host's own state -/

omit [Bech32] in
/-- `IbcHeight::new(CHAIN_REVISION_NUMBER, self.store.current_height())`. -/
def hostHeight (s : InMemoryStore) : Except HostError HostHeight :=
  if h : s.currentHeight = 0 then .error (.invalidState HostClock.invalidHeight)
  else .ok ⟨s.currentHeight, h⟩

omit [Sha256] [Bech32] in
def hostConsensusState (mem : Memory R) (height : HostHeight) :
    Except HostError TmConsensusState :=
  match mem.consensusStates height.revisionHeight with
  | none => .error (.missingState (HostClock.missingLocalConsensusState height))
  | some consensusState => .ok consensusState

omit [Bech32] in
def hostTimestamp (s : InMemoryStore) (mem : Memory R) : Except HostError Timestamp := do
  let hostHeight ← hostHeight s
  let hostConsState ← hostConsensusState mem hostHeight
  match HostClock.timestamp hostConsState.timestamp with
  | .error e => .error (.invalidState e)
  | .ok timestamp => .ok timestamp

omit [Bech32] in
theorem hostTimestamp_of {s : InMemoryStore} {mem : Memory R} {height : HostHeight}
    {consensusState : TmConsensusState} {timestamp : Timestamp}
    (hheight : hostHeight s = .ok height)
    (hstate : hostConsensusState mem height = .ok consensusState)
    (htime : HostClock.timestamp consensusState.timestamp = .ok timestamp) :
    hostTimestamp s mem = .ok timestamp := by
  simp only [hostTimestamp, hheight, hstate, htime, bind, Except.bind]

/-- `ConsensusStateType::new`, from the header of a block. -/
def headerConsensusState (header : Header) : TmConsensusState :=
  { timestamp := header.time
    root := header.appHash
    nextValidatorsHash := header.nextValidatorsHash }

omit [Bech32] in
def beginBlock (header : Header) : Handler (Memory R) (List Event) := do
  Handler.onMem fun mem =>
    some
      { mem with
        consensusStates := Function.update mem.consensusStates header.height
          (some (headerConsensusState header)) }
  pure []

end Ibc

end Basecoin
