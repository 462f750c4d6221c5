import Basecoin.Lib.Listing
import Basecoin.Modules.IbcStore

/-!
# `modules/src/ibc/impls.rs`: listing what is stored

Each list query of `QueryContext` takes the keys under a prefix, keeps those that parse as the kind
it is asked for, and reads each of them. In a store of a context a key that parses as a path is the
path's own (`Kind.mem_listed`), so the query lists exactly what is stored of the kind and under the
prefix (`Kind.lists`); the prefixes are those of one client or channel.

`get_keys` compares text and knows nothing of names. So under the prefix of `channel-1` alone there
would be the keys of `channel-10` too. They are kept out because the prefix of a packet query goes
on, to `/sequences`, and the name before it is then whole (`HostPath.toString_prefix_iff`, of which
only the last name may be cut short). The queries over everything of a kind use a single name for a
prefix, and there the parser does the selecting: `connections` is also in the paths of the clients,
but not at their beginning.

Of the parser, which is `ibc-rs`'s, it is asked that it inverts printing. What it does with texts
that are not paths of a context does not matter, since there are none in the store.

The queries differ in what they make of an entry, and in the errors they could give and never do.
`Kind.lists` is the rule for all of them. `Kind.lists_values` and `Kind.lists_filtered` are the two
forms it takes: an entry is read for its value, or first tested for being there at all.
-/

namespace Basecoin

open Lib

structure IdentifiedConnectionEnd [IdentifierText] (ConnectionEnd : Type) where
  connectionId : ConnectionId
  connectionEnd : ConnectionEnd

structure IdentifiedChannelEnd [IdentifierText] (ChannelEnd : Type) where
  portId : PortId
  channelId : ChannelId
  channelEnd : ChannelEnd

structure PacketState [IdentifierText] where
  seq : Sequence
  portId : PortId
  chanId : ChannelId
  data : Bytes
deriving DecidableEq

/-- `ok_or_else` and `map_err`, with the error they give. -/
def okOr {α : Type} (e : HostError) : Option α → Except HostError α
  | none => .error e
  | some a => .ok a

theorem okOr_eq_ok_iff {α : Type} {e : HostError} {x : Option α} {a : α} :
    okOr e x = .ok a ↔ x = some a := by
  cases x with
  | none => exact iff_of_false (fun h => by cases h) (fun h => by cases h)
  | some b =>
    constructor
    · intro h
      exact congrArg some (Except.ok.inj h)
    · intro h
      exact congrArg Except.ok (Option.some.inj h)

theorem okOr_bind_eq_ok_iff {α β : Type} {e : HostError} {x : Option α} {f : α → Except HostError β}
    {b : β} : (okOr e x >>= f) = .ok b ↔ ∃ a, x = some a ∧ f a = .ok b := by
  cases x with
  | none => exact iff_of_false (fun h => by cases h) (fun ⟨a, h, _⟩ => by cases h)
  | some a =>
    constructor
    · intro h
      exact ⟨a, rfl, h⟩
    · rintro ⟨a', ha, h⟩
      obtain rfl := Option.some.inj ha
      exact h

namespace IbcStore

variable [Sha256] [IdentifierText]
  {AnyClientState AnyConsensusState Timestamp ConnectionEnd ChannelEnd : Type}
  [IbcContextHost AnyClientState AnyConsensusState Timestamp ConnectionEnd ChannelEnd]

/-! ## Reading one entry -/

def clientState (s : InMemoryStore) (clientId : ClientId) : Except HostError AnyClientState :=
  okOr (.missingState ("client state for client_id " ++ clientId.id))
    (clientStateStore.get s .pending ⟨clientId⟩)

def consensusState (s : InMemoryStore) (clientConsStatePath : ClientConsensusStatePath) :
    Except HostError AnyConsensusState := do
  let height ← okOr
    (.invalidState ("consensus state height: " ++ IbcContextHost.debugInvalidHeight))
    (IbcHeight.new clientConsStatePath.revisionNumber clientConsStatePath.revisionHeight)
  okOr (.missingState ("consensus state for client_id " ++ clientConsStatePath.clientId.id ++
      " at height " ++ height.toString))
    (Clients.consensusStateStore.get s .pending clientConsStatePath)

def connectionEnd (s : InMemoryStore) (connId : ConnectionId) : Except HostError ConnectionEnd :=
  okOr (.missingState ("connection end: " ++ connId.id))
    (connectionEndStore.get s .pending ⟨connId⟩)

def channelEnd (s : InMemoryStore) (channelEndPath : ChannelEndPath) :
    Except HostError ChannelEnd :=
  okOr (.missingState ("port: " ++ channelEndPath.portId.id ++ ", channel_id: " ++
      channelEndPath.channelId.id))
    (channelEndStore.get s .pending channelEndPath)

def getPacketCommitment (s : InMemoryStore) (commitmentPath : CommitmentPath) :
    Except HostError PacketCommitment :=
  okOr (.missingState "packet commitment") (packetCommitmentStore.get s .pending commitmentPath)

def getPacketAcknowledgement (s : InMemoryStore) (ackPath : AckPath) :
    Except HostError AcknowledgementCommitment :=
  okOr (.missingState ("packet ack: " ++ IbcContextHost.debugSequence ackPath.sequence))
    (packetAckStore.get s .pending ackPath)

/-! ## Listing -/

/-- The keys under a prefix that parse as a path of the kind that is selected. -/
def listed {K : Type} (s : InMemoryStore) (keyPrefix : Path) (select : HostPath → Option K) :
    List K :=
  (s.getKeys keyPrefix).filterMap fun path =>
    (IbcContextHost.parsePath path.toString).bind select

section Select

omit [Sha256]

/-- `if let Ok(IbcPath::ClientState(path)) = path.try_into()`, and so on. -/
def asClientState : HostPath → Option ClientStatePath
  | .clientState path => some path
  | _ => none

def asClientConsensusState : HostPath → Option ClientConsensusStatePath
  | .clientConsensusState path => some path
  | _ => none

def asConnection : HostPath → Option ConnectionPath
  | .connection path => some path
  | _ => none

def asChannelEnd : HostPath → Option ChannelEndPath
  | .channelEnd path => some path
  | _ => none

def asCommitment : HostPath → Option CommitmentPath
  | .commitment path => some path
  | _ => none

def asAck : HostPath → Option AckPath
  | .ack path => some path
  | _ => none

end Select

def clientStates (s : InMemoryStore) : Except HostError (List (ClientId × AnyClientState)) :=
  (listed s (Path.ofString "clients") asClientState).mapM fun clientStatePath => do
    let clientState ← okOr
      (.missingState ("client state: " ++ IbcContextHost.debugClientId clientStatePath.clientId))
      (clientStateStore.get s .pending clientStatePath)
    pure (clientStatePath.clientId, clientState)

def consensusStates (s : InMemoryStore) (clientId : ClientId) :
    Except HostError (List (IbcHeight × AnyConsensusState)) :=
  (listed s (consensusStatesPath clientId) asClientConsensusState).mapM fun consensusPath => do
    let height ← okOr (.invalidState IbcContextHost.invalidHeight)
      (IbcHeight.new consensusPath.revisionNumber consensusPath.revisionHeight)
    let clientState ← okOr
      (.missingState ("consensus state for client " ++ clientId.id ++ " at height " ++
        IbcContextHost.debugHeight height))
      (Clients.consensusStateStore.get s .pending consensusPath)
    pure (height, clientState)

def consensusStateHeights (s : InMemoryStore) (clientId : ClientId) :
    Except HostError (List IbcHeight) :=
  (listed s (consensusStatesPath clientId) asClientConsensusState).mapM fun consensusPath =>
    okOr (.invalidState IbcContextHost.invalidHeight)
      (IbcHeight.new consensusPath.revisionNumber consensusPath.revisionHeight)

/-- `consensus_state_heights` of `ExtClientValidationContext`. -/
def extConsensusStateHeights (s : InMemoryStore) (clientId : ClientId) :
    Except HostError (List IbcHeight) :=
  ((s.getKeys (consensusStatesPath clientId)).filterMap Clients.asConsensusState).mapM
    fun consensusPath =>
      okOr (.invalidState ("consensus state height: " ++ IbcContextHost.debugInvalidHeight))
        (IbcHeight.new consensusPath.revisionNumber consensusPath.revisionHeight)

def connectionEnds (s : InMemoryStore) :
    Except HostError (List (IdentifiedConnectionEnd ConnectionEnd)) :=
  (listed s (Path.ofString "connections") asConnection).mapM fun connectionPath => do
    let connectionEnd ← okOr
      (.missingState
        ("connection: " ++ IbcContextHost.debugConnectionId connectionPath.connectionId))
      (connectionEndStore.get s .pending connectionPath)
    pure { connectionId := connectionPath.connectionId, connectionEnd }

def channelEnds (s : InMemoryStore) : Except HostError (List (IdentifiedChannelEnd ChannelEnd)) :=
  (listed s (Path.ofString "channelEnds") asChannelEnd).mapM fun channelPath => do
    let channelEnd ← okOr
      (.missingState ("port: " ++ channelPath.portId.id ++ ", channel_id: " ++
        channelPath.channelId.id))
      (channelEndStore.get s .pending channelPath)
    pure { portId := channelPath.portId, channelId := channelPath.channelId, channelEnd }

omit [Sha256] in
/-- `format!("{kind}/ports/{}/channels/{}/sequences", ..)`. -/
def sequencesPath (kind : Identifier) (channelEndPath : ChannelEndPath) : Path :=
  Path.ofString (kind ++ "/ports/" ++ channelEndPath.portId.id ++ "/channels/" ++
    channelEndPath.channelId.id ++ "/sequences")

def packetCommitments (s : InMemoryStore) (channelEndPath : ChannelEndPath) :
    Except HostError (List PacketState) :=
  ((listed s (sequencesPath "commitments" channelEndPath) asCommitment).filter fun commitmentPath =>
    (packetCommitmentStore.get s .pending commitmentPath).isSome).mapM fun commitmentPath =>
      (getPacketCommitment s commitmentPath).map fun packet =>
        { seq := commitmentPath.sequence
          portId := commitmentPath.portId
          chanId := commitmentPath.channelId
          data := packet }

def packetAcknowledgements (s : InMemoryStore) (channelEndPath : ChannelEndPath)
    (sequences : List Sequence) : Except HostError (List PacketState) :=
  let collectedPaths :=
    if sequences.length = 0 then
      -- if sequences is empty, return all the acks
      listed s (sequencesPath "acks" channelEndPath) asAck
    else
      sequences.map fun seq => ⟨channelEndPath.portId, channelEndPath.channelId, seq⟩
  (collectedPaths.filter fun ackPath => (packetAckStore.get s .pending ackPath).isSome).mapM
    fun ackPath =>
      (getPacketAcknowledgement s ackPath).map fun packet =>
        { seq := ackPath.sequence
          portId := ackPath.portId
          chanId := ackPath.channelId
          data := packet }

/-! ## Kinds of entry

Each query asks for one kind of path under a prefix, of which the listing also has others. A kind is
told by what the parser makes of a text, so all that is read is read under paths of that kind. -/

/-- A kind of entry: its typed store, its paths, and how they are told from the others. -/
structure Kind (K V : Type) where
  store : TypedStore K V
  path : K → HostPath
  select : HostPath → Option K
  display_eq : ∀ k, store.display k = (path k).toString
  select_eq_some_iff : ∀ p k, select p = some k ↔ p = path k
  written : ∀ k value, Entry (path k) value → Written store.codec value

section Kinds

omit [Sha256]

def clientStateKind : Kind ClientStatePath AnyClientState where
  store := clientStateStore
  path := .clientState
  select := asClientState
  display_eq _ := rfl
  select_eq_some_iff p k := by cases p <;> simp [asClientState]
  written _ _ h := h

def consensusStateKind : Kind ClientConsensusStatePath AnyConsensusState where
  store := Clients.consensusStateStore
  path := .clientConsensusState
  select := asClientConsensusState
  display_eq path := (HostPath.toString_clientConsensusState path).symm
  select_eq_some_iff p k := by cases p <;> simp [asClientConsensusState]
  written _ _ h := h.2

def connectionKind : Kind ConnectionPath ConnectionEnd where
  store := connectionEndStore
  path := .connection
  select := asConnection
  display_eq _ := rfl
  select_eq_some_iff p k := by cases p <;> simp [asConnection]
  written _ _ h := h

def channelEndKind : Kind ChannelEndPath ChannelEnd where
  store := channelEndStore
  path := .channelEnd
  select := asChannelEnd
  display_eq _ := rfl
  select_eq_some_iff p k := by cases p <;> simp [asChannelEnd]
  written _ _ h := h

def commitmentKind : Kind CommitmentPath PacketCommitment where
  store := packetCommitmentStore
  path := .commitment
  select := asCommitment
  display_eq _ := rfl
  select_eq_some_iff p k := by cases p <;> simp [asCommitment]
  written _ _ h := h

def ackKind : Kind AckPath AcknowledgementCommitment where
  store := packetAckStore
  path := .ack
  select := asAck
  display_eq _ := rfl
  select_eq_some_iff p k := by cases p <;> simp [asAck]
  written _ _ h := h

end Kinds

namespace Kind

variable {K V : Type} (kind : Kind K V) {s : InMemoryStore}

omit [Sha256] in
theorem path_eq (k : K) : kind.store.path k = Path.ofString (kind.path k).toString :=
  congrArg Path.ofString (kind.display_eq k)

/-- Under the key of a kind is a value of the kind, or nothing. -/
theorem exists_get_iff (hs : PathsOnly s) (k : K) :
    s.pending.get (kind.store.path k) ≠ none ↔ ∃ v, kind.store.get s .pending k = some v := by
  constructor
  · intro h
    obtain ⟨value, hvalue⟩ := Option.ne_none_iff_exists'.mp h
    obtain ⟨path, hpath, hentry⟩ := hs.pending _ _ hvalue
    rw [kind.path_eq] at hpath
    obtain rfl := HostPath.toString_injective (Path.ofString_injective hpath)
    obtain ⟨v, rfl⟩ := kind.written k value hentry
    exact ⟨v, kind.store.get_of_encode hvalue⟩
  · rintro ⟨v, hv⟩
    exact kind.store.ne_none_of_isSome_get (Option.isSome_of_eq_some hv)

/-- The paths that are listed are those of the kind that are stored and under the prefix. -/
theorem mem_listed (hs : PathsOnly s) {keyPrefix : Path} {k : K} :
    k ∈ listed s keyPrefix kind.select ↔ (∃ v, kind.store.get s .pending k = some v) ∧
      keyPrefix.toString.toList <+: (kind.path k).toString.toList := by
  rw [listed, List.mem_filterMap, ← kind.exists_get_iff hs]
  constructor
  · rintro ⟨key, hkey, hselect⟩
    obtain ⟨hget, hpre⟩ := (s.mem_getKeys keyPrefix key).mp hkey
    obtain ⟨value, hvalue⟩ := Option.ne_none_iff_exists'.mp hget
    obtain ⟨path, rfl, -⟩ := hs.pending _ _ hvalue
    rw [Path.toString_ofString] at hpre hselect
    rw [IbcContextHost.parsePath_toString, Option.bind_some] at hselect
    obtain rfl := (kind.select_eq_some_iff path k).mp hselect
    exact ⟨kind.path_eq k ▸ hget, hpre⟩
  · rintro ⟨hget, hpre⟩
    refine ⟨kind.store.path k, (s.mem_getKeys _ _).mpr ⟨hget, ?_⟩, ?_⟩
    · rw [kind.path_eq, Path.toString_ofString]
      exact hpre
    · rw [kind.path_eq, Path.toString_ofString, IbcContextHost.parsePath_toString,
        Option.bind_some]
      exact (kind.select_eq_some_iff _ k).mpr rfl

theorem nodup_listed (hs : PathsOnly s) (keyPrefix : Path) :
    (listed s keyPrefix kind.select).Nodup := by
  unfold listed
  have hkeys : (s.getKeys keyPrefix).Pairwise (· ≠ ·) :=
    (s.getKeys_sorted keyPrefix).imp fun hlt => ne_of_lt hlt
  refine List.pairwise_filterMap.mpr (hkeys.imp_of_mem ?_)
  intro key key' hkey hkey' hne k hk k' hk'
  -- a key that parses as `k` is the key of `k`, so two of them are one
  rintro rfl
  have hown : ∀ key ∈ s.getKeys keyPrefix,
      (IbcContextHost.parsePath key.toString).bind kind.select = some k →
        key = kind.store.path k := by
    intro key hkey hselect
    obtain ⟨value, hvalue⟩ :=
      Option.ne_none_iff_exists'.mp ((s.mem_getKeys keyPrefix key).mp hkey).1
    obtain ⟨path, rfl, -⟩ := hs.pending _ _ hvalue
    rw [Path.toString_ofString, IbcContextHost.parsePath_toString, Option.bind_some] at hselect
    rw [(kind.select_eq_some_iff path k).mp hselect, kind.path_eq]
  exact hne ((hown key hkey hk).trans (hown key' hkey' hk').symm)

/-- **The listing rule.** The keys under a prefix, read one by one, list the entries of the kind
that belong under it. -/
theorem lists {β : Type} (hs : PathsOnly s) {keyPrefix : Path} {belongs : K → Prop}
    (hpre : ∀ k, keyPrefix.toString.toList <+: (kind.path k).toString.toList ↔ belongs k)
    {f : K → Except HostError β} {entry : β → Prop}
    (hok : ∀ k v, kind.store.get s .pending k = some v → ∃ b, f k = .ok b)
    (hinj : ∀ k k' b, belongs k → belongs k' → f k = .ok b → f k' = .ok b → k = k')
    (hentry : ∀ b, entry b ↔
      ∃ k v, belongs k ∧ kind.store.get s .pending k = some v ∧ f k = .ok b) :
    Lists ((listed s keyPrefix kind.select).mapM f) entry := by
  -- no entry is missed and none is read twice, and every read succeeds
  have hmem : ∀ k, k ∈ listed s keyPrefix kind.select ↔
      (∃ v, kind.store.get s .pending k = some v) ∧ belongs k := fun k => by
    rw [kind.mem_listed hs, hpre]
  refine lists_mapM (kind.nodup_listed hs keyPrefix) (fun k hk => ?_)
    (fun k hk k' hk' b => ?_) fun b => ?_
  · obtain ⟨⟨v, hv⟩, -⟩ := (hmem k).mp hk
    exact hok k v hv
  · exact hinj k k' b ((hmem k).mp hk).2 ((hmem k').mp hk').2
  · rw [hentry]
    constructor
    · rintro ⟨k, v, hbelongs, hv, hf⟩
      exact ⟨k, (hmem k).mpr ⟨⟨v, hv⟩, hbelongs⟩, hf⟩
    · rintro ⟨k, hk, hf⟩
      obtain ⟨⟨v, hv⟩, hbelongs⟩ := (hmem k).mp hk
      exact ⟨k, v, hbelongs, hv, hf⟩

/-- Where each key is read for its value alone. -/
theorem lists_values {β : Type} (hs : PathsOnly s) {keyPrefix : Path} {belongs : K → Prop}
    (hpre : ∀ k, keyPrefix.toString.toList <+: (kind.path k).toString.toList ↔ belongs k)
    {e : K → HostError} {out : K → V → β} {entry : β → Prop}
    (hout : ∀ k v k' v', out k v = out k' v' → k = k')
    (hentry : ∀ b, entry b ↔
      ∃ k v, belongs k ∧ kind.store.get s .pending k = some v ∧ out k v = b) :
    Lists ((listed s keyPrefix kind.select).mapM fun k =>
      okOr (e k) (kind.store.get s .pending k) >>= fun v => pure (out k v)) entry := by
  refine kind.lists hs hpre (fun k v hv => ⟨_, okOr_bind_eq_ok_iff.mpr ⟨v, hv, rfl⟩⟩)
    (fun k k' b _ _ hf hf' => ?_) fun b => ?_
  · obtain ⟨v, -, hb⟩ := okOr_bind_eq_ok_iff.mp hf
    obtain ⟨v', -, hb'⟩ := okOr_bind_eq_ok_iff.mp hf'
    exact hout k v k' v' (Except.ok.inj (hb.trans hb'.symm))
  · rw [hentry]
    constructor
    · rintro ⟨k, v, hbelongs, hv, rfl⟩
      exact ⟨k, v, hbelongs, hv, okOr_bind_eq_ok_iff.mpr ⟨v, hv, rfl⟩⟩
    · rintro ⟨k, v, hbelongs, -, hf⟩
      obtain ⟨v', hv', hb⟩ := okOr_bind_eq_ok_iff.mp hf
      exact ⟨k, v', hbelongs, hv', Except.ok.inj hb⟩

/-- Reading a path that is listed finds a value, so filtering by that keeps them all. -/
theorem lists_filtered {β : Type} (hs : PathsOnly s) {keyPrefix : Path} {belongs : K → Prop}
    (hpre : ∀ k, keyPrefix.toString.toList <+: (kind.path k).toString.toList ↔ belongs k)
    {e : K → HostError} {out : K → V → β} {entry : β → Prop}
    (hout : ∀ k v k' v', out k v = out k' v' → k = k')
    (hentry : ∀ b, entry b ↔
      ∃ k v, belongs k ∧ kind.store.get s .pending k = some v ∧ out k v = b) :
    Lists (((listed s keyPrefix kind.select).filter fun k =>
      (kind.store.get s .pending k).isSome).mapM fun k =>
        (okOr (e k) (kind.store.get s .pending k)).map (out k)) entry := by
  have hfilter : ((listed s keyPrefix kind.select).filter fun k =>
      (kind.store.get s .pending k).isSome) = listed s keyPrefix kind.select :=
    List.filter_eq_self.mpr fun k hk => by
      obtain ⟨⟨v, hv⟩, -⟩ := (kind.mem_listed hs).mp hk
      exact Option.isSome_of_eq_some hv
  have hmap : (fun k => (okOr (e k) (kind.store.get s .pending k)).map (out k)) = fun k =>
      okOr (e k) (kind.store.get s .pending k) >>= fun v => pure (out k v) := by
    funext k
    cases kind.store.get s .pending k with
    | none => rfl
    | some v => rfl
  rw [hfilter, hmap]
  exact kind.lists_values hs hpre hout hentry

end Kind

/-! ## What the prefixes hold -/

section Prefixes

omit [Sha256]

/-- Under one name, every path of a kind that starts with it. -/
theorem prefix_name {name : Identifier} (hname : '/' ∉ name.toList) {path : HostPath}
    {rest : List Identifier} (h : path.ids = name :: rest) :
    (Path.ofString name).toString.toList <+: path.toString.toList := by
  have hids : ∀ id ∈ [] ++ [name], '/' ∉ id.toList := fun id hid => by
    obtain rfl := List.mem_singleton.mp hid
    exact hname
  have hpre := (path.toString_prefix_iff hids).mpr ⟨name, rest, h, List.prefix_refl _⟩
  rw [Path.toString_ofString]
  rwa [List.nil_append, show Path.toString ⟨[name]⟩ = name from Path.toString_ofIdentifier name]
    at hpre

theorem prefix_consensusStates (clientId : ClientId) (path : ClientConsensusStatePath) :
    (consensusStatesPath clientId).toString.toList <+:
      (HostPath.clientConsensusState path).toString.toList ↔ path.clientId = clientId := by
  rw [consensusStatesPath, Path.toString_ofString]
  exact (consensusStates_prefix_iff (List.cons_ne_nil _ [])).trans eq_comm

/-- The sequences of a channel are under the prefix of that channel, and of no other. -/
theorem prefix_sequences {kind : Identifier} (hkind : '/' ∉ kind.toList)
    (channelEndPath : ChannelEndPath) {path : HostPath} {portId : PortId} {channelId : ChannelId}
    {sequence : Identifier}
    (h : path.ids = [kind, "ports", portId.id, "channels", channelId.id, "sequences", sequence]) :
    (sequencesPath kind channelEndPath).toString.toList <+: path.toString.toList ↔
      portId = channelEndPath.portId ∧ channelId = channelEndPath.channelId := by
  have hids : ∀ id ∈ [kind, "ports", channelEndPath.portId.id, "channels",
      channelEndPath.channelId.id] ++ ["sequences"], '/' ∉ id.toList := by
    simp [hkind, PortId.noSlash, ChannelId.noSlash]
  have htext : (sequencesPath kind channelEndPath).toString = Path.toString
      ⟨[kind, "ports", channelEndPath.portId.id, "channels", channelEndPath.channelId.id] ++
        ["sequences"]⟩ := by
    rw [sequencesPath, Path.toString_ofString]
    refine String.toList_injective ?_
    simp [Path.toString, List.intercalate]
  rw [htext, path.toString_prefix_iff hids, h]
  constructor
  · rintro ⟨id, rest, heq, -⟩
    simp only [List.cons_append, List.nil_append, List.cons.injEq, true_and] at heq
    obtain ⟨hport, hchannel, -⟩ := heq
    exact ⟨PortId.ext hport, ChannelId.ext hchannel⟩
  · rintro ⟨rfl, rfl⟩
    exact ⟨"sequences", [sequence], rfl, List.prefix_refl _⟩

end Prefixes

/-! ## Each of the queries -/

section Queries

variable {s : InMemoryStore}

theorem lists_clientStates (hs : PathsOnly s) :
    Lists (clientStates s) fun e => clientState s e.1 = .ok e.2 := by
  refine clientStateKind.lists_values hs
    (fun k => iff_of_true (prefix_name (by decide) rfl) trivial) (fun k v k' v' h => ?_)
    fun b => okOr_eq_ok_iff.trans ?_
  · exact congrArg ClientStatePath.mk (Prod.mk.inj h).1
  · constructor
    · intro h
      exact ⟨⟨b.1⟩, b.2, trivial, h, rfl⟩
    · rintro ⟨k, v, -, h, rfl⟩
      exact h

theorem lists_connectionEnds (hs : PathsOnly s) :
    Lists (connectionEnds s) fun e => connectionEnd s e.connectionId = .ok e.connectionEnd := by
  refine connectionKind.lists_values hs
    (fun k => iff_of_true (prefix_name (by decide) rfl) trivial) (fun k v k' v' h => ?_)
    fun b => okOr_eq_ok_iff.trans ?_
  · exact congrArg ConnectionPath.mk (IdentifiedConnectionEnd.mk.inj h).1
  · constructor
    · intro h
      exact ⟨⟨b.connectionId⟩, b.connectionEnd, trivial, h, rfl⟩
    · rintro ⟨k, v, -, h, rfl⟩
      exact h

theorem lists_channelEnds (hs : PathsOnly s) :
    Lists (channelEnds s) fun e => channelEnd s ⟨e.portId, e.channelId⟩ = .ok e.channelEnd := by
  refine channelEndKind.lists_values hs
    (fun k => iff_of_true (prefix_name (by decide) rfl) trivial) (fun k v k' v' h => ?_)
    fun b => okOr_eq_ok_iff.trans ?_
  · obtain ⟨hport, hchannel, -⟩ := IdentifiedChannelEnd.mk.inj h
    exact congrArg₂ ChannelEndPath.mk hport hchannel
  · constructor
    · intro h
      exact ⟨⟨b.portId, b.channelId⟩, b.channelEnd, trivial, h, rfl⟩
    · rintro ⟨k, v, -, h, rfl⟩
      exact h

/-- A consensus state is stored at a height. -/
theorem exists_height_of_get (hs : PathsOnly s) {path : ClientConsensusStatePath}
    {value : AnyConsensusState} (h : Clients.consensusStateStore.get s .pending path = some value) :
    ∃ height : IbcHeight, path = Clients.consensusPath path.clientId height := by
  obtain ⟨bytes, hbytes⟩ := Option.ne_none_iff_exists'.mp
    ((consensusStateKind.exists_get_iff hs path).mpr ⟨value, h⟩)
  obtain ⟨path', hpath, hentry⟩ := hs.pending _ _ hbytes
  rw [consensusStateKind.path_eq] at hpath
  obtain rfl := HostPath.toString_injective (Path.ofString_injective hpath)
  exact ⟨⟨path.revisionNumber, path.revisionHeight, hentry.1⟩, rfl⟩

theorem consensusState_eq_ok_iff {clientId : ClientId} {height : IbcHeight}
    {value : AnyConsensusState} :
    consensusState s (Clients.consensusPath clientId height) = .ok value ↔
      Clients.consensusStateStore.get s .pending (Clients.consensusPath clientId height) =
        some value := by
  rw [consensusState, okOr_bind_eq_ok_iff]
  constructor
  · rintro ⟨_, -, h⟩
    exact okOr_eq_ok_iff.mp h
  · intro h
    exact ⟨height, height.new_self, okOr_eq_ok_iff.mpr h⟩

omit [Sha256] in
theorem eq_consensusPath {clientId : ClientId} {path : ClientConsensusStatePath}
    {height : IbcHeight} (hclient : path.clientId = clientId)
    (h : IbcHeight.new path.revisionNumber path.revisionHeight = some height) :
    path = Clients.consensusPath clientId height := by
  obtain ⟨hnumber, hheight⟩ := IbcHeight.new_eq_some_iff.mp h
  cases path
  cases hclient
  cases hnumber
  cases hheight
  rfl

theorem lists_consensusStates (hs : PathsOnly s) (clientId : ClientId) :
    Lists (consensusStates s clientId) fun e =>
      consensusState s (Clients.consensusPath clientId e.1) = .ok e.2 := by
  refine consensusStateKind.lists hs (fun k => prefix_consensusStates clientId k) (fun k v hv => ?_)
    (fun k k' b hk hk' hf hf' => ?_) fun b => ?_
  · obtain ⟨height, heq⟩ := exists_height_of_get hs hv
    refine ⟨(height, v), okOr_bind_eq_ok_iff.mpr ⟨height, ?_, okOr_bind_eq_ok_iff.mpr ⟨v, hv, rfl⟩⟩⟩
    rw [heq]
    exact height.new_self
  · obtain ⟨height, hheight, hrest⟩ := okOr_bind_eq_ok_iff.mp hf
    obtain ⟨height', hheight', hrest'⟩ := okOr_bind_eq_ok_iff.mp hf'
    obtain ⟨v, -, hb⟩ := okOr_bind_eq_ok_iff.mp hrest
    obtain ⟨v', -, hb'⟩ := okOr_bind_eq_ok_iff.mp hrest'
    obtain rfl : height = height' := congrArg Prod.fst (Except.ok.inj (hb.trans hb'.symm))
    rw [eq_consensusPath hk hheight, eq_consensusPath hk' hheight']
  · rw [consensusState_eq_ok_iff]
    constructor
    · intro h
      exact ⟨_, b.2, rfl, h, okOr_bind_eq_ok_iff.mpr
        ⟨b.1, b.1.new_self, okOr_bind_eq_ok_iff.mpr ⟨b.2, h, rfl⟩⟩⟩
    · rintro ⟨k, v, hk, -, hf⟩
      obtain ⟨height, hheight, hrest⟩ := okOr_bind_eq_ok_iff.mp hf
      obtain ⟨v', hv', hb⟩ := okOr_bind_eq_ok_iff.mp hrest
      obtain rfl := Except.ok.inj hb
      rw [← eq_consensusPath hk hheight]
      exact hv'

/-- The heights, whatever the error for a height of zero. -/
theorem lists_heights (hs : PathsOnly s) (clientId : ClientId) (e : HostError) :
    Lists ((listed s (consensusStatesPath clientId) asClientConsensusState).mapM fun path =>
        okOr e (IbcHeight.new path.revisionNumber path.revisionHeight)) fun height =>
      ∃ value, consensusState s (Clients.consensusPath clientId height) = .ok value := by
  refine consensusStateKind.lists hs (fun k => prefix_consensusStates clientId k) (fun k v hv => ?_)
    (fun k k' b hk hk' hf hf' => ?_) fun b => ?_
  · obtain ⟨height, heq⟩ := exists_height_of_get hs hv
    refine ⟨height, okOr_eq_ok_iff.mpr ?_⟩
    rw [heq]
    exact height.new_self
  · rw [eq_consensusPath hk (okOr_eq_ok_iff.mp hf), eq_consensusPath hk' (okOr_eq_ok_iff.mp hf')]
  · constructor
    · rintro ⟨v, h⟩
      exact ⟨_, v, rfl, consensusState_eq_ok_iff.mp h, okOr_eq_ok_iff.mpr b.new_self⟩
    · rintro ⟨k, v, hk, hv, hf⟩
      rw [eq_consensusPath hk (okOr_eq_ok_iff.mp hf)] at hv
      exact ⟨v, consensusState_eq_ok_iff.mpr hv⟩

omit [Sha256] in
/-- `client_contexts.rs` selects the same paths. -/
theorem asConsensusState_eq (path : Path) : Clients.asConsensusState path =
    (IbcContextHost.parsePath path.toString).bind asClientConsensusState := by
  have hparse : ClientHost.parsePath path.toString =
      (IbcContextHost.parsePath path.toString).map HostPath.toIbcPath := rfl
  rw [Clients.asConsensusState, hparse]
  cases IbcContextHost.parsePath path.toString with
  | none => rfl
  | some path => cases path <;> rfl

theorem extConsensusStateHeights_eq (clientId : ClientId) : extConsensusStateHeights s clientId =
    (listed s (consensusStatesPath clientId) asClientConsensusState).mapM fun path =>
      okOr (.invalidState ("consensus state height: " ++ IbcContextHost.debugInvalidHeight))
        (IbcHeight.new path.revisionNumber path.revisionHeight) := by
  rw [extConsensusStateHeights, listed]
  exact congrArg (List.mapM _) (List.filterMap_congr fun path _ => asConsensusState_eq path)

theorem lists_packetCommitments (hs : PathsOnly s) (channelEndPath : ChannelEndPath) :
    Lists (packetCommitments s channelEndPath) fun e => e.portId = channelEndPath.portId ∧
      e.chanId = channelEndPath.channelId ∧
        getPacketCommitment s ⟨e.portId, e.chanId, e.seq⟩ = .ok e.data := by
  refine commitmentKind.lists_filtered hs
    (fun k => prefix_sequences (by decide) channelEndPath rfl) (fun k v k' v' h => ?_) fun b => ?_
  · obtain ⟨hseq, hport, hchannel, -⟩ := PacketState.mk.inj h
    exact CommitmentPath.ext hport hchannel hseq
  · constructor
    · rintro ⟨hport, hchannel, h⟩
      exact ⟨⟨b.portId, b.chanId, b.seq⟩, b.data, ⟨hport, hchannel⟩, okOr_eq_ok_iff.mp h, rfl⟩
    · rintro ⟨k, v, ⟨hport, hchannel⟩, h, rfl⟩
      exact ⟨hport, hchannel, okOr_eq_ok_iff.mpr h⟩

theorem lists_packetAcknowledgements (hs : PathsOnly s) (channelEndPath : ChannelEndPath) :
    Lists (packetAcknowledgements s channelEndPath []) fun e => e.portId = channelEndPath.portId ∧
      e.chanId = channelEndPath.channelId ∧
        getPacketAcknowledgement s ⟨e.portId, e.chanId, e.seq⟩ = .ok e.data := by
  refine ackKind.lists_filtered hs (fun k => prefix_sequences (by decide) channelEndPath rfl)
    (fun k v k' v' h => ?_) fun b => ?_
  · obtain ⟨hseq, hport, hchannel, -⟩ := PacketState.mk.inj h
    exact AckPath.ext hport hchannel hseq
  · constructor
    · rintro ⟨hport, hchannel, h⟩
      exact ⟨⟨b.portId, b.chanId, b.seq⟩, b.data, ⟨hport, hchannel⟩, okOr_eq_ok_iff.mp h, rfl⟩
    · rintro ⟨k, v, ⟨hport, hchannel⟩, h, rfl⟩
      exact ⟨hport, hchannel, okOr_eq_ok_iff.mpr h⟩

end Queries

/-- **List queries are sound and complete.** In every store of a context, from a fresh one on, each
list query succeeds and answers each entry that is stored once, with its value, and nothing else:
all client states; the consensus states of the client that is asked for, and their heights by both
implementations; all connections; all channels; and the packet commitments and, of no given
sequences, the acknowledgements of the channel that is asked for. -/
theorem list_queries_exact [BuildProfile]
    {calls : List (Call AnyClientState AnyConsensusState Timestamp ConnectionEnd ChannelEnd)}
    {results : List (Except HostError Unit)} {s : InMemoryStore}
    (hrun : runSteps call (Ibc.newContext InMemoryStore.default) calls = some (results, s)) :
    (Lists (clientStates s) fun e => clientState s e.1 = .ok e.2) ∧
    (∀ clientId,
      (Lists (consensusStates s clientId) fun e =>
        consensusState s (Clients.consensusPath clientId e.1) = .ok e.2) ∧
      (Lists (consensusStateHeights s clientId) fun height =>
        ∃ value, consensusState s (Clients.consensusPath clientId height) = .ok value) ∧
      (Lists (extConsensusStateHeights s clientId) fun height =>
        ∃ value, consensusState s (Clients.consensusPath clientId height) = .ok value)) ∧
    (Lists (connectionEnds s) fun e => connectionEnd s e.connectionId = .ok e.connectionEnd) ∧
    (Lists (channelEnds s) fun e => channelEnd s ⟨e.portId, e.channelId⟩ = .ok e.channelEnd) ∧
    ∀ channelEndPath : ChannelEndPath,
      (Lists (packetCommitments s channelEndPath) fun e => e.portId = channelEndPath.portId ∧
        e.chanId = channelEndPath.channelId ∧
          getPacketCommitment s ⟨e.portId, e.chanId, e.seq⟩ = .ok e.data) ∧
      (Lists (packetAcknowledgements s channelEndPath []) fun e =>
        e.portId = channelEndPath.portId ∧ e.chanId = channelEndPath.channelId ∧
          getPacketAcknowledgement s ⟨e.portId, e.chanId, e.seq⟩ = .ok e.data) := by
  have hs := pathsOnly_run hrun
  refine ⟨lists_clientStates hs, fun clientId => ⟨lists_consensusStates hs clientId,
    lists_heights hs clientId _, ?_⟩, lists_connectionEnds hs, lists_channelEnds hs,
    fun channelEndPath => ⟨lists_packetCommitments hs channelEndPath,
      lists_packetAcknowledgements hs channelEndPath⟩⟩
  rw [extConsensusStateHeights_eq]
  exact lists_heights hs clientId _

end IbcStore

/-! ## Two channels -/

section TwoChannels

open IbcStore

local instance twoChannelsSha256 : Sha256 := Sha256.ones

local instance twoChannelsBuildProfile : BuildProfile := ⟨true⟩

local instance twoChannelsText : IdentifierText := .ascii

instance : Encodable ConnectionId :=
  Encodable.ofLeftInjection ConnectionId.id (HostPath.readId ConnectionId.mk) fun c =>
    HostPath.readId_of c.valid

/-- Values are numbers, and paths are read by `HostPath.read`. -/
local instance twoChannelsHost : IbcContextHost Nat Nat Nat Nat Nat where
  queryPath := "store/ibc/key"
  validPath text := (HostPath.read text).isSome
  nextClientSequence := HostPath.nextClientSequence.toString
  nextConnectionSequence := HostPath.nextConnectionSequence.toString
  nextChannelSequence := HostPath.nextChannelSequence.toString
  counterCodec := Codec.ofEncodable _
  nextClientSequence_eq := rfl
  nextConnectionSequence_eq := rfl
  nextChannelSequence_eq := rfl
  parsePath := HostPath.read
  parsePath_toString := HostPath.read_toString
  clientStateCodec := Codec.ofEncodable _
  consensusStateCodec := Codec.ofEncodable _
  timestampCodec := Codec.ofEncodable _
  heightCodec := Codec.ofEncodable _
  connectionEndCodec := Codec.ofEncodable _
  connectionIdsCodec := Codec.ofEncodable _
  channelEndCodec := Codec.ofEncodable _
  sequenceCodec := Codec.ofEncodable _
  invalidHeight := "invalid height"
  debugInvalidHeight := "InvalidHeight"
  debugClientId clientId := clientId.id
  debugConnectionId connectionId := connectionId.id
  debugHeight := IbcHeight.toString
  debugSequence sequence := sequence.toNat.repr

def transferPort : PortId := ⟨"transfer", by decide⟩

/-- A packet sent on each of two channels, one of which is named as the other begins. -/
def twoChannels : List (Call Nat Nat Nat Nat Nat) :=
  [.storePacketCommitment ⟨transferPort, ⟨"channel-1", by decide⟩, 1⟩ [7],
    .storePacketCommitment ⟨transferPort, ⟨"channel-10", by decide⟩, 1⟩ [8]]

theorem list_queries_exact_twoChannels :
    ∃ results s, runSteps call (Ibc.newContext InMemoryStore.default) twoChannels =
        some (results, s) ∧
      Lists (packetCommitments s ⟨transferPort, ⟨"channel-1", by decide⟩⟩) fun e =>
        e.portId = transferPort ∧ e.chanId = ⟨"channel-1", by decide⟩ ∧
          getPacketCommitment s ⟨e.portId, e.chanId, e.seq⟩ = .ok e.data := by
  have hruns : (runSteps call (Ibc.newContext InMemoryStore.default) twoChannels).isSome := rfl
  obtain ⟨⟨results, s⟩, hrun⟩ := Option.isSome_iff_exists.mp hruns
  obtain ⟨-, -, -, -, hpackets⟩ := list_queries_exact hrun
  exact ⟨results, s, hrun, (hpackets _).1⟩

end TwoChannels

end Basecoin
