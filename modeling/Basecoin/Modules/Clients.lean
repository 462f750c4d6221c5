import Basecoin.Lib.Run
import Basecoin.Lib.Search
import Basecoin.Modules.ClientPaths

/-!
# `modules/src/ibc/client_contexts.rs`

The consensus states of the clients and the two searches among them. A store that is written
through the contexts of `ibc-rs` has nothing but their entries in it (`entriesOnly_run`), so the
keys listed under a client are its three kinds of record (`EntriesOnly.mem_getKeys_cases`).

Both searches walk over that listing and parse each key. A record of the update time or the update
height does not parse as a consensus state, and is passed over: `next_consensus_state` looks for
the first height it is *greater* than, and `prev_consensus_state` takes the key just before the
first that is not greater than its own. What either of them finds is in `ClientSearch`. Here are
the listing and what is stored: that the records of one height come together is a property of
clients as `ibc-rs` updates them (`Together`), which `storeUpdate` keeps.
-/

namespace Basecoin

open Lib

/-- What `ibc-rs` and the codecs do for the context. -/
class ClientHost [IdentifierText] (AnyConsensusState Timestamp : outParam Type) where
  /-- `Path::from_str`. -/
  parsePath : String → Option IbcPath
  consensusStateCodec : Codec AnyConsensusState
  timestampCodec : Codec Timestamp
  heightCodec : Codec IbcHeight

namespace Clients

variable [Sha256] [IdentifierText] {AnyConsensusState Timestamp : Type}
  [ClientHost AnyConsensusState Timestamp]

/-! ## The context -/

section Context

omit [Sha256]

def consensusStateStore : TypedStore ClientConsensusStatePath AnyConsensusState :=
  { display := ClientConsensusStatePath.toString, codec := ClientHost.consensusStateCodec }

def clientProcessedTimes : TypedStore ClientUpdateTimePath Timestamp :=
  { display := ClientUpdateTimePath.toString, codec := ClientHost.timestampCodec }

def clientProcessedHeights : TypedStore ClientUpdateHeightPath IbcHeight :=
  { display := ClientUpdateHeightPath.toString, codec := ClientHost.heightCodec }

end Context

def storeConsensusState (s : InMemoryStore) (consensusStatePath : ClientConsensusStatePath)
    (consensusState : AnyConsensusState) : InMemoryStore :=
  (consensusStateStore.set s consensusStatePath consensusState).2

def deleteConsensusState (s : InMemoryStore) (consensusStatePath : ClientConsensusStatePath) :
    InMemoryStore :=
  consensusStateStore.delete s consensusStatePath

def storeUpdateMeta (s : InMemoryStore) (clientId : ClientId) (height : IbcHeight)
    (hostTimestamp : Timestamp) (hostHeight : IbcHeight) : InMemoryStore :=
  let s := (clientProcessedTimes.set s
    ⟨clientId, height.revisionNumber, height.revisionHeight⟩ hostTimestamp).2
  (clientProcessedHeights.set s
    ⟨clientId, height.revisionNumber, height.revisionHeight⟩ hostHeight).2

def deleteUpdateMeta (s : InMemoryStore) (clientId : ClientId) (height : IbcHeight) :
    InMemoryStore :=
  let s := clientProcessedTimes.delete s
    ⟨clientId, height.revisionNumber, height.revisionHeight⟩
  clientProcessedHeights.delete s ⟨clientId, height.revisionNumber, height.revisionHeight⟩

omit [Sha256] in
/-- `if let Ok(Path::ClientConsensusState(path)) = path.try_into()`. -/
def asConsensusState (path : Path) : Option ClientConsensusStatePath :=
  match ClientHost.parsePath path.toString with
  | some (.clientConsensusState path) => some path
  | _ => none

/-- What both searches do with the path they settle on. -/
def consensusStateOr (s : InMemoryStore) (clientId : ClientId) (height : IbcHeight)
    (path : ClientConsensusStatePath) : Except HostError (Option AnyConsensusState) :=
  match consensusStateStore.get s .pending path with
  | none => .error (.missingState
      ("consensus state for client_id " ++ clientId.id ++ " at height " ++ height.toString))
  | some consensusState => .ok (some consensusState)

omit [Sha256] in
/-- What `next_consensus_state` gives to `find_map`; `none` is the `unwrap` on a height of zero. -/
def nextFound (height : IbcHeight) (path : Path) : Option (Option ClientConsensusStatePath) :=
  match asConsensusState path with
  | none => some none
  | some path => (IbcHeight.new path.revisionNumber path.revisionHeight).map fun stored =>
    if height > stored then some path else none

def nextConsensusState (s : InMemoryStore) (clientId : ClientId) (height : IbcHeight) :
    Option (Except HostError (Option AnyConsensusState)) :=
  let keys := s.getKeys (consensusStatesPath clientId)
  (keys.findSomeM? (nextFound height)).map fun
    | some path => consensusStateOr s clientId height path
    | none => .ok none

omit [Sha256] in
/-- What `prev_consensus_state` gives to `position`; `none` is the same `unwrap`. -/
def prevFound (height : IbcHeight) (path : Path) : Option Bool :=
  match asConsensusState path with
  | none => some false
  | some path => (IbcHeight.new path.revisionNumber path.revisionHeight).map fun stored =>
    decide (height ≥ stored)

/-- `prev_consensus_state`; `none` is a panic of the test, or the `unreachable!()`. -/
def prevConsensusState (s : InMemoryStore) (clientId : ClientId) (height : IbcHeight) :
    Option (Except HostError (Option AnyConsensusState)) :=
  let keys := s.getKeys (consensusStatesPath clientId)
  (position (prevFound height) keys).bind fun
    | none => some (.ok none)
    | some pos =>
      if 0 < pos then
        (keys[pos - 1]?.bind asConsensusState).map fun prevPath =>
          consensusStateOr s clientId height prevPath
      else some (.ok none)

/-! ## Runs -/

/-- What is done to an IBC store. Stored heights are heights of `ibc-rs`; `set` and `delete` are
the other contexts' writes, to paths of their own. -/
inductive Call [IdentifierText] (AnyConsensusState Timestamp : Type) where
  | storeConsensusState (clientId : ClientId) (height : IbcHeight)
      (consensusState : AnyConsensusState)
  | deleteConsensusState (clientId : ClientId) (height : IbcHeight)
  | storeUpdateMeta (clientId : ClientId) (height : IbcHeight) (hostTimestamp : Timestamp)
      (hostHeight : IbcHeight)
  | deleteUpdateMeta (clientId : ClientId) (height : IbcHeight)
  | set (path : OtherPath) (value : Bytes)
  | delete (path : OtherPath)
  | apply
  | reset
  | commit
  | prune (height : RawHeight)

/-- `ClientConsensusStatePath::new`, from a height. -/
def consensusPath (clientId : ClientId) (height : IbcHeight) : ClientConsensusStatePath :=
  ⟨clientId, height.revisionNumber, height.revisionHeight⟩

def call (s : InMemoryStore) : Call AnyConsensusState Timestamp → Option (Unit × InMemoryStore)
  | .storeConsensusState clientId height consensusState =>
    some ((), storeConsensusState s (consensusPath clientId height) consensusState)
  | .deleteConsensusState clientId height =>
    some ((), deleteConsensusState s (consensusPath clientId height))
  | .storeUpdateMeta clientId height hostTimestamp hostHeight =>
    some ((), storeUpdateMeta s clientId height hostTimestamp hostHeight)
  | .deleteUpdateMeta clientId height => some ((), deleteUpdateMeta s clientId height)
  | .set path value => some ((), (s.set (Path.ofString path.text) value).2)
  | .delete path => some ((), s.delete (Path.ofString path.text))
  | .apply => some ((), s.apply)
  | .reset => some ((), s.reset)
  | .commit => some ((), s.commit.2)
  | .prune height => (s.prune height).map fun r => ((), r.2)

/-! ## What is in a reachable store -/

/-- What the calls write, and where. -/
inductive Entry : Path → Bytes → Prop where
  | consensusState (clientId : ClientId) (height : IbcHeight)
      (consensusState : AnyConsensusState) :
    Entry (recordPath clientId [height.toString])
      (ClientHost.consensusStateCodec.encode consensusState)
  | updateTime (clientId : ClientId) (height : IbcHeight) (time : Timestamp) :
    Entry (recordPath clientId [height.toString, "processedTime"])
      (ClientHost.timestampCodec.encode time)
  | updateHeight (clientId : ClientId) (height processedHeight : IbcHeight) :
    Entry (recordPath clientId [height.toString, "processedHeight"])
      (ClientHost.heightCodec.encode processedHeight)
  | other (path : OtherPath) (value : Bytes) : Entry (Path.ofString path.text) value

/-- Both copies hold entries only; a `reset` makes the staged one the pending one. -/
structure EntriesOnly (s : InMemoryStore) : Prop where
  pending : ∀ path value, s.pending.get path = some value → Entry path value
  staged : ∀ path value, s.staged.get path = some value → Entry path value

theorem EntriesOnly.default : EntriesOnly InMemoryStore.default where
  pending _ _ h := by cases h
  staged _ _ h := by cases h

theorem EntriesOnly.set {s : InMemoryStore} {path : Path} {value : Bytes} (hs : EntriesOnly s)
    (hentry : Entry path value) : EntriesOnly (s.set path value).2 where
  pending p v h := by
    rw [InMemoryStore.set, State.get_insert] at h
    split at h
    · next hp =>
      obtain rfl := Option.some.inj h
      exact hp ▸ hentry
    · exact hs.pending p v h
  staged := hs.staged

theorem EntriesOnly.delete {s : InMemoryStore} (path : Path) (hs : EntriesOnly s) :
    EntriesOnly (s.delete path) where
  pending p v h := by
    rw [InMemoryStore.delete, State.get_remove] at h
    split at h
    · cases h
    · exact hs.pending p v h
  staged := hs.staged

section Paths

omit [Sha256]

theorem path_consensusState (clientId : ClientId) (height : IbcHeight) :
    consensusStateStore.path (consensusPath clientId height) =
      recordPath clientId [height.toString] := ofString_consensusState _

theorem path_updateTime (clientId : ClientId) (height : IbcHeight) :
    clientProcessedTimes.path ⟨clientId, height.revisionNumber, height.revisionHeight⟩ =
      recordPath clientId [height.toString, "processedTime"] := ofString_updateTime _

theorem path_updateHeight (clientId : ClientId) (height : IbcHeight) :
    clientProcessedHeights.path ⟨clientId, height.revisionNumber, height.revisionHeight⟩ =
      recordPath clientId [height.toString, "processedHeight"] := ofString_updateHeight _

end Paths

theorem entriesOnly_call {s s' : InMemoryStore} {c : Call AnyConsensusState Timestamp} {o : Unit}
    (hs : EntriesOnly s) (h : call s c = some (o, s')) : EntriesOnly s' := by
  -- a call writes an entry of its own kind, deletes one, or moves the copies
  cases c with
  | storeConsensusState clientId height consensusState =>
    obtain ⟨-, rfl⟩ := Prod.mk.inj (Option.some.inj h)
    refine hs.set ?_
    rw [path_consensusState]
    exact .consensusState clientId height consensusState
  | deleteConsensusState clientId height =>
    obtain ⟨-, rfl⟩ := Prod.mk.inj (Option.some.inj h)
    exact hs.delete _
  | storeUpdateMeta clientId height hostTimestamp hostHeight =>
    obtain ⟨-, rfl⟩ := Prod.mk.inj (Option.some.inj h)
    refine (hs.set ?_).set ?_
    · rw [path_updateTime]
      exact .updateTime clientId height hostTimestamp
    · rw [path_updateHeight]
      exact .updateHeight clientId height hostHeight
  | deleteUpdateMeta clientId height =>
    obtain ⟨-, rfl⟩ := Prod.mk.inj (Option.some.inj h)
    exact (hs.delete _).delete _
  | set path value =>
    obtain ⟨-, rfl⟩ := Prod.mk.inj (Option.some.inj h)
    exact hs.set (.other path value)
  | delete path =>
    obtain ⟨-, rfl⟩ := Prod.mk.inj (Option.some.inj h)
    exact hs.delete _
  | apply =>
    obtain ⟨-, rfl⟩ := Prod.mk.inj (Option.some.inj h)
    exact ⟨hs.pending, hs.pending⟩
  | reset =>
    obtain ⟨-, rfl⟩ := Prod.mk.inj (Option.some.inj h)
    exact ⟨hs.staged, hs.staged⟩
  | commit =>
    obtain ⟨-, rfl⟩ := Prod.mk.inj (Option.some.inj h)
    exact ⟨hs.pending, hs.pending⟩
  | prune height =>
    obtain ⟨r, hprune, hr⟩ := Option.map_eq_some_iff.mp h
    obtain ⟨store, -, rfl⟩ := Option.map_eq_some_iff.mp hprune
    obtain ⟨-, rfl⟩ := Prod.mk.inj hr
    exact ⟨hs.pending, hs.staged⟩

theorem entriesOnly_run {calls : List (Call AnyConsensusState Timestamp)} {responses : List Unit}
    {s : InMemoryStore} (h : runSteps call InMemoryStore.default calls = some (responses, s)) :
    EntriesOnly s :=
  runSteps_invariant (fun _ _ _ _ hs hc => entriesOnly_call hs hc) EntriesOnly.default h

/-! ## The listing -/

section Listing

omit [Sha256] in
/-- What lies under the consensus states of a client is one of the three records. -/
theorem Entry.record {clientId : ClientId} {record : List Identifier} {value : Bytes}
    (hne : record ≠ []) (h : Entry (recordPath clientId record) value) :
    (∃ (height : IbcHeight) (consensusState : AnyConsensusState), record = [height.toString] ∧
      value = ClientHost.consensusStateCodec.encode consensusState) ∨
    (∃ (height : IbcHeight) (time : Timestamp), record = [height.toString, "processedTime"] ∧
      value = ClientHost.timestampCodec.encode time) ∨
    ∃ height processedHeight : IbcHeight, record = [height.toString, "processedHeight"] ∧
      value = ClientHost.heightCodec.encode processedHeight := by
  generalize hpath : recordPath clientId record = path at h
  cases h with
  | consensusState clientId' height consensusState =>
    exact .inl ⟨height, consensusState, (recordPath_inj.mp hpath).2, rfl⟩
  | updateTime clientId' height time =>
    exact .inr (.inl ⟨height, time, (recordPath_inj.mp hpath).2, rfl⟩)
  | updateHeight clientId' height processedHeight =>
    exact .inr (.inr ⟨height, processedHeight, (recordPath_inj.mp hpath).2, rfl⟩)
  | other path value => exact absurd hpath.symm (ofString_ne_recordPath path clientId hne)

theorem mem_getKeys {s : InMemoryStore} {clientId : ClientId} {path : Path} :
    path ∈ s.getKeys (consensusStatesPath clientId) ↔ s.pending.get path ≠ none ∧
      (consensusStatesText clientId).toList <+: path.toString.toList := by
  rw [InMemoryStore.mem_getKeys, consensusStatesPath, Path.toString_ofString]

theorem recordPath_mem_getKeys {s : InMemoryStore} {clientId : ClientId}
    {record : List Identifier} (hne : record ≠ []) :
    recordPath clientId record ∈ s.getKeys (consensusStatesPath clientId) ↔
      s.pending.get (recordPath clientId record) ≠ none := by
  rw [mem_getKeys, consensusStates_prefix_iff hne]
  exact and_iff_left rfl

/-- The listing of a client is its three kinds of record. -/
theorem EntriesOnly.mem_getKeys_cases {s : InMemoryStore} (hs : EntriesOnly s)
    {clientId : ClientId} {path : Path} (h : path ∈ s.getKeys (consensusStatesPath clientId)) :
    ∃ height : IbcHeight, path = recordPath clientId [height.toString] ∨
      path = recordPath clientId [height.toString, "processedTime"] ∨
      path = recordPath clientId [height.toString, "processedHeight"] := by
  obtain ⟨hget, hprefix⟩ := mem_getKeys.mp h
  obtain ⟨value, hvalue⟩ := Option.ne_none_iff_exists'.mp hget
  cases hs.pending path value hvalue with
  | consensusState clientId' height consensusState =>
    obtain rfl := (consensusStates_prefix_iff (List.cons_ne_nil _ _)).mp hprefix
    exact ⟨height, .inl rfl⟩
  | updateTime clientId' height time =>
    obtain rfl := (consensusStates_prefix_iff (List.cons_ne_nil _ _)).mp hprefix
    exact ⟨height, .inr (.inl rfl)⟩
  | updateHeight clientId' height processedHeight =>
    obtain rfl := (consensusStates_prefix_iff (List.cons_ne_nil _ _)).mp hprefix
    exact ⟨height, .inr (.inr rfl)⟩
  | other path value =>
    -- no other context's path prints under the consensus states of a client
    rw [Path.toString_ofString] at hprefix
    exact absurd hprefix (path.apart clientId)

end Listing

/-! ## Stored heights -/

/-- The consensus state of a client at a height. -/
def consensusStateAt (s : InMemoryStore) (clientId : ClientId) (height : IbcHeight) :
    Option AnyConsensusState :=
  consensusStateStore.get s .pending (consensusPath clientId height)

/-- Consensus states and their update metadata are stored for the same heights. -/
structure Together (s : InMemoryStore) : Prop where
  time : ∀ clientId (height : IbcHeight),
    (clientProcessedTimes.get s .pending
      ⟨clientId, height.revisionNumber, height.revisionHeight⟩).isSome ↔
      (consensusStateAt s clientId height).isSome
  height : ∀ clientId (height : IbcHeight),
    (clientProcessedHeights.get s .pending
      ⟨clientId, height.revisionNumber, height.revisionHeight⟩).isSome ↔
      (consensusStateAt s clientId height).isSome

def storedHeights (s : InMemoryStore) (clientId : ClientId) : Set IbcHeight :=
  fun height => (consensusStateAt s clientId height).isSome

section Stored

variable {s : InMemoryStore}

/-- What is under one of the three keys decodes: only its own typed store writes there. -/
theorem EntriesOnly.isSome_consensusState (hs : EntriesOnly s) {clientId : ClientId}
    {height : IbcHeight} (h : s.pending.get (recordPath clientId [height.toString]) ≠ none) :
    (consensusStateAt s clientId height).isSome := by
  obtain ⟨value, hvalue⟩ := Option.ne_none_iff_exists'.mp h
  rcases (hs.pending _ _ hvalue).record (List.cons_ne_nil _ _) with
    ⟨_, consensusState, -, rfl⟩ | ⟨_, _, hrecord, -⟩ | ⟨_, _, hrecord, -⟩
  · rw [← path_consensusState] at hvalue
    exact Option.isSome_of_eq_some (consensusStateStore.get_of_encode hvalue)
  · simp at hrecord
  · simp at hrecord

theorem EntriesOnly.isSome_updateTime (hs : EntriesOnly s) {clientId : ClientId}
    {height : IbcHeight}
    (h : s.pending.get (recordPath clientId [height.toString, "processedTime"]) ≠ none) :
    (clientProcessedTimes.get s .pending
      ⟨clientId, height.revisionNumber, height.revisionHeight⟩).isSome := by
  obtain ⟨value, hvalue⟩ := Option.ne_none_iff_exists'.mp h
  rcases (hs.pending _ _ hvalue).record (List.cons_ne_nil _ _) with
    ⟨_, _, hrecord, -⟩ | ⟨_, time, -, rfl⟩ | ⟨_, _, hrecord, -⟩
  · simp at hrecord
  · rw [← path_updateTime] at hvalue
    exact Option.isSome_of_eq_some (clientProcessedTimes.get_of_encode hvalue)
  · simp at hrecord

theorem EntriesOnly.isSome_updateHeight (hs : EntriesOnly s) {clientId : ClientId}
    {height : IbcHeight}
    (h : s.pending.get (recordPath clientId [height.toString, "processedHeight"]) ≠ none) :
    (clientProcessedHeights.get s .pending
      ⟨clientId, height.revisionNumber, height.revisionHeight⟩).isSome := by
  obtain ⟨value, hvalue⟩ := Option.ne_none_iff_exists'.mp h
  rcases (hs.pending _ _ hvalue).record (List.cons_ne_nil _ _) with
    ⟨_, _, hrecord, -⟩ | ⟨_, _, hrecord, -⟩ | ⟨_, processedHeight, -, rfl⟩
  · simp at hrecord
  · simp at hrecord
  · rw [← path_updateHeight] at hvalue
    exact Option.isSome_of_eq_some (clientProcessedHeights.get_of_encode hvalue)

theorem EntriesOnly.mem_storedHeights (hs : EntriesOnly s) {clientId : ClientId}
    {height : IbcHeight} :
    height ∈ storedHeights s clientId ↔
      recordPath clientId [height.toString] ∈ s.getKeys (consensusStatesPath clientId) := by
  rw [recordPath_mem_getKeys (List.cons_ne_nil _ _)]
  constructor
  · intro h
    rw [← path_consensusState]
    exact consensusStateStore.ne_none_of_isSome_get h
  · intro h
    exact hs.isSome_consensusState h

theorem Together.updateTime_mem_getKeys (htogether : Together s) {clientId : ClientId}
    {height : IbcHeight} (h : height ∈ storedHeights s clientId) :
    recordPath clientId [height.toString, "processedTime"] ∈
      s.getKeys (consensusStatesPath clientId) := by
  rw [recordPath_mem_getKeys (List.cons_ne_nil _ _), ← path_updateTime]
  exact clientProcessedTimes.ne_none_of_isSome_get ((htogether.time clientId height).mpr h)

/-- Whatever is listed belongs to a stored height, and does not come before its consensus state. -/
theorem EntriesOnly.exists_stored_le (hs : EntriesOnly s) (htogether : Together s)
    {clientId : ClientId} {path : Path} (h : path ∈ s.getKeys (consensusStatesPath clientId)) :
    ∃ height ∈ storedHeights s clientId, recordPath clientId [height.toString] ≤ path := by
  have hget := (mem_getKeys.mp h).1
  obtain ⟨height, rfl | rfl | rfl⟩ := hs.mem_getKeys_cases h
  · exact ⟨height, hs.isSome_consensusState hget, le_refl _⟩
  · exact ⟨height, (htogether.time clientId height).mp (hs.isSome_updateTime hget),
      le_of_lt recordPath_lt_record⟩
  · exact ⟨height, (htogether.height clientId height).mp (hs.isSome_updateHeight hget),
      le_of_lt recordPath_lt_record⟩

/-- A client update stores all three records. -/
def storeUpdate (s : InMemoryStore) (clientId : ClientId) (height : IbcHeight)
    (consensusState : AnyConsensusState) (hostTimestamp : Timestamp) (hostHeight : IbcHeight) :
    InMemoryStore :=
  storeUpdateMeta (storeConsensusState s (consensusPath clientId height) consensusState)
    clientId height hostTimestamp hostHeight

theorem get_storeUpdate (s : InMemoryStore) (clientId : ClientId) (height : IbcHeight)
    (consensusState : AnyConsensusState) (hostTimestamp : Timestamp) (hostHeight : IbcHeight)
    (path : Path) :
    (storeUpdate s clientId height consensusState hostTimestamp hostHeight).pending.get path =
      if path = recordPath clientId [height.toString, "processedHeight"] then
        some (ClientHost.heightCodec.encode hostHeight)
      else if path = recordPath clientId [height.toString, "processedTime"] then
        some (ClientHost.timestampCodec.encode hostTimestamp)
      else if path = recordPath clientId [height.toString] then
        some (ClientHost.consensusStateCodec.encode consensusState)
      else s.pending.get path := by
  rw [storeUpdate, storeUpdateMeta, storeConsensusState]
  simp only [TypedStore.set, InMemoryStore.set, State.get_insert, path_consensusState,
    path_updateTime, path_updateHeight]
  rfl

/-- What a client update leaves of each kind of record. -/
theorem consensusStateAt_storeUpdate (s : InMemoryStore) (clientId c : ClientId)
    (height h : IbcHeight) (consensusState : AnyConsensusState) (hostTimestamp : Timestamp)
    (hostHeight : IbcHeight) :
    consensusStateAt (storeUpdate s clientId height consensusState hostTimestamp hostHeight) c h =
      if c = clientId ∧ h = height then some consensusState else consensusStateAt s c h := by
  refine consensusStateStore.get_of_pending ?_
  rw [path_consensusState, get_storeUpdate]
  simp [recordPath_inj, IbcHeight.toString_injective.eq_iff, consensusStateStore]

theorem updateTime_storeUpdate (s : InMemoryStore) (clientId c : ClientId)
    (height h : IbcHeight) (consensusState : AnyConsensusState) (hostTimestamp : Timestamp)
    (hostHeight : IbcHeight) :
    clientProcessedTimes.get (storeUpdate s clientId height consensusState hostTimestamp hostHeight)
        .pending ⟨c, h.revisionNumber, h.revisionHeight⟩ =
      if c = clientId ∧ h = height then some hostTimestamp
      else clientProcessedTimes.get s .pending ⟨c, h.revisionNumber, h.revisionHeight⟩ := by
  refine clientProcessedTimes.get_of_pending ?_
  rw [path_updateTime, get_storeUpdate]
  simp [recordPath_inj, IbcHeight.toString_injective.eq_iff, clientProcessedTimes]

theorem updateHeight_storeUpdate (s : InMemoryStore) (clientId c : ClientId)
    (height h : IbcHeight) (consensusState : AnyConsensusState) (hostTimestamp : Timestamp)
    (hostHeight : IbcHeight) :
    clientProcessedHeights.get
        (storeUpdate s clientId height consensusState hostTimestamp hostHeight) .pending
        ⟨c, h.revisionNumber, h.revisionHeight⟩ =
      if c = clientId ∧ h = height then some hostHeight
      else clientProcessedHeights.get s .pending ⟨c, h.revisionNumber, h.revisionHeight⟩ := by
  refine clientProcessedHeights.get_of_pending ?_
  rw [path_updateHeight, get_storeUpdate]
  simp [recordPath_inj, IbcHeight.toString_injective.eq_iff, clientProcessedHeights]

theorem together_default : Together (InMemoryStore.default : InMemoryStore) where
  time _ _ := by
    rw [consensusStateAt, TypedStore.get_default, TypedStore.get_default, Option.isSome_none,
      Option.isSome_none]
  height _ _ := by
    rw [consensusStateAt, TypedStore.get_default, TypedStore.get_default, Option.isSome_none,
      Option.isSome_none]

theorem Together.storeUpdate (htogether : Together s) (clientId : ClientId) (height : IbcHeight)
    (consensusState : AnyConsensusState) (hostTimestamp : Timestamp) (hostHeight : IbcHeight) :
    Together (storeUpdate s clientId height consensusState hostTimestamp hostHeight) where
  time c h := by
    rw [consensusStateAt_storeUpdate, updateTime_storeUpdate]
    split
    · exact Iff.rfl
    · exact htogether.time c h
  height c h := by
    rw [consensusStateAt_storeUpdate, updateHeight_storeUpdate]
    split
    · exact Iff.rfl
    · exact htogether.height c h

end Stored

end Clients

end Basecoin
