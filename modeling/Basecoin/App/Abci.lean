import Basecoin.App.Builder
import Basecoin.Modules.Auth

/-!
# `app/src/abci/v0_37/impls.rs`

The ABCI methods that read or change state. A loop over the modules is a fold; what it does to
the stores it does through the modules' handles. Decoding transactions, reading genesis JSON
and formatting errors are other crates' work and come in through `Host`.

Left out are the methods that only answer a default, and the fields of requests and responses
that are passed through unread.

`BaseCoinApp.step` is one request of a consensus engine, and its runs (`runSteps`) are those that the
files of `App` speak of. An engine sends requests in a certain order; nothing here assumes it, since
the methods do not check it, and files that need blocks say so (`Blocks.lean`).
-/

namespace Basecoin

/-! ## Requests and responses -/

inductive SignerPublicKey where
  | single (key : Bytes)
  | legacyAminoMultisig
  | any
deriving DecidableEq

/-- `cosmrs::tx::SignerInfo`, the field that is read. -/
structure SignerInfo where
  publicKey : Option SignerPublicKey
deriving DecidableEq

/-- `cosmrs::Tx`: `auth_info.signer_infos` and `body.messages`. -/
structure Tx where
  signerInfos : List SignerInfo
  messages : List Any
deriving DecidableEq

/-- `RequestQuery`; the height is an `i64`. -/
structure RequestQuery where
  data : Bytes
  path : String
  height : Int64
  prove : Bool
deriving DecidableEq

structure ResponseInfo where
  data : String
  version : String
  appVersion : Nat
  lastBlockHeight : Int
  lastBlockAppHash : Bytes
deriving DecidableEq

structure ResponseInitChain where
  appHash : Bytes
deriving DecidableEq

structure ResponseQuery where
  code : Nat := 0
  log : String := ""
  key : Bytes := []
  value : Bytes := []
  proofOps : Option (List ProofOp) := none
  height : Int := 0
deriving DecidableEq

structure ResponseDeliverTx where
  code : Nat := 0
  log : String := ""
  events : List Event := []
deriving DecidableEq

structure ResponseCommit where
  data : Bytes
  retainHeight : Nat := 0
deriving DecidableEq

structure ResponseBeginBlock where
  events : List Event
deriving DecidableEq

def ResponseQuery.fromError (code : Nat) (log : String) : ResponseQuery := { code, log }

def ResponseDeliverTx.fromError (code : Nat) (log : String) : ResponseDeliverTx := { code, log }

variable [Sha256] [Bech32]

/-- What the other crates do for the ABCI methods. -/
class Host (G : outParam Type) where
  /-- `Tx::try_from`. -/
  decodeTx : Bytes → Except String Tx
  /-- `PublicKey::account_id`. -/
  accountId : Bytes → String → Option AccountId
  /-- `String::from_utf8`, then `serde_json::from_str`. -/
  readGenesis : Bytes → Option G
  /-- `{e:?}` of an error. -/
  debugError : Error → String

variable {M G : Type}

/-! ## Loops over the modules -/

def resetModules (modules : List (IdentifiedModule M G)) (w : World M) : World M :=
  modules.foldl (fun w m => w.modify m.module.store InMemoryStore.reset) w

def applyModules (modules : List (IdentifiedModule M G)) (w : World M) : World M :=
  modules.foldl (fun w m => w.modify m.module.store InMemoryStore.apply) w

/-- The loop of `commit`: commit the module's store, record its root in the main store. -/
def commitModules : List (IdentifiedModule M G) → InMemoryStore → World M →
    InMemoryStore × World M
  | [], state, w => (state, w)
  | m :: ms, state, w =>
    let w := w.modify m.module.store fun s => s.commit.2
    let state := (state.set (Path.ofIdentifier m.id) (w.stores m.module.store).rootHash).2
    commitModules ms state w

def initModules (appState : G) : List (IdentifiedModule M G) → Handler M Unit
  | [] => pure ()
  | m :: ms => do
    m.module.init appState
    initModules appState ms

def beginModules (header : Header) : List (IdentifiedModule M G) → List Event →
    Handler M (List Event)
  | [], events => pure events
  | m :: ms, events => do
    let new ← m.module.beginBlock header
    beginModules header ms (events ++ new)

/-- The loop of `deliver_tx` over the messages, which ends at the first error. -/
def deliverMsgs (modules : List (IdentifiedModule M G)) (signer : AccountId) :
    List Any → List Event → Handler M (Except Error (List Event))
  | [], events => pure (.ok events)
  | message :: messages, events => do
    match ← deliverMsg message signer modules with
    | .ok new => deliverMsgs modules signer messages (events ++ new)
    | .error e => pure (.error e)

/-! ## The methods -/

namespace BaseCoinApp

variable [Host G]

omit [Host G] in
def info (app : BaseCoinApp M G) : ResponseInfo :=
  { data := "basecoin-rs"
    version := "0.1.0"
    appVersion := 1
    lastBlockHeight := app.store.currentHeight
    lastBlockAppHash := app.store.rootHash }

/-- `init_chain`; `none` when the genesis state cannot be read or a module panics on it. -/
def initChain (app : BaseCoinApp M G) (appStateBytes : Bytes) :
    Option (ResponseInitChain × BaseCoinApp M G) :=
  (Host.readGenesis appStateBytes).bind fun appState =>
    ((initModules appState app.modules).run app.world).map fun r =>
      ({ appHash := app.store.rootHash }, { app with world := r.2 })

/-- `begin_block`; a missing header is an `unwrap` on `None`. -/
def beginBlock (app : BaseCoinApp M G) (header : Option Header) :
    Option (ResponseBeginBlock × BaseCoinApp M G) :=
  header.bind fun header =>
    ((beginModules header app.modules []).run app.world).map fun r =>
      ({ events := r.1 }, { app with world := r.2 })

/-- The first half of `deliver_tx`: the signer and the messages, or the answer to a transaction
that is turned away before any message is looked at. -/
def admitTx (tx : Bytes) : Except ResponseDeliverTx (AccountId × List Any) :=
  match Host.decodeTx tx with
  | .error err => .error (.fromError 1 ("failed to decode incoming tx bytes: " ++ err))
  | .ok tx =>
    match tx.signerInfos.head? with
    | some ⟨some (.single pubkey)⟩ =>
      match Host.accountId pubkey accountPrefix with
      | some signer =>
        if tx.messages.isEmpty then .error (.fromError 2 "Empty Tx")
        else .ok (signer, tx.messages)
      | none => .error (.fromError 2 "Invalid signer")
    | _ => .error (.fromError 2 "Empty signers")

def deliverTx (app : BaseCoinApp M G) (tx : Bytes) :
    Option (ResponseDeliverTx × BaseCoinApp M G) :=
  match admitTx tx with
  | .error response => some (response, app)
  | .ok (signer, messages) =>
    ((deliverMsgs app.modules signer messages []).run app.world).map fun r =>
      match r.1 with
      | .ok events =>
        -- persists changes from all the messages in this tx
        ({ log := "success", events },
          { app with world := applyModules app.modules r.2, store := app.store.apply })
      | .error e =>
        -- reset changes from other messages in this tx
        (.fromError 2 ("deliver failed with error: " ++ e.toString),
          { app with world := resetModules app.modules r.2, store := app.store.reset })

omit [Host G] in
def commit (app : BaseCoinApp M G) : ResponseCommit × BaseCoinApp M G :=
  let (state, world) := commitModules app.modules app.store app.world
  let (data, state) := state.commit
  ({ data }, { app with store := state, world })

/-- The loop of `query` over the modules. -/
def queryModules [ProofEncoding] (app : BaseCoinApp M G) (request : RequestQuery) (height : Height) :
    List (IdentifiedModule M G) → Option ResponseQuery
  | [] => some (.fromError 1 "query msg not handled")
  | m :: ms =>
    (m.module.query request.data (some (Path.ofString request.path)) height request.prove
      app.world).bind fun result =>
      match result with
      | .ok result =>
        let response (proofOps : Option (List ProofOp)) : ResponseQuery :=
          { log := "exists", key := request.data, value := result.data, proofOps,
            height := app.store.currentHeight }
        if request.prove then
          -- `unwrap` on the main store's proof
          (app.store.getProof height (Path.ofIdentifier m.id)).map fun proof =>
            response (some (result.proof.getD [] ++
              [{ fieldType := "", key := stringBytes m.id, data := encodeProof proof }]))
        else some (response none)
      | .error .notHandled => queryModules app request height ms
      | .error e => some (.fromError 1 ("query error: " ++ Host.debugError e))

/-- `query`; `none` is a panic. -/
def query [ProofEncoding] (app : BaseCoinApp M G) (request : RequestQuery) : Option ResponseQuery :=
  -- `request.height as u64`
  app.queryModules request (Height.ofRaw request.height.toUInt64.toNat) app.modules

end BaseCoinApp

/-! ## Runs -/

/-- The requests that change state. -/
inductive Request where
  | initChain (appStateBytes : Bytes)
  | beginBlock (header : Option Header)
  | deliverTx (tx : Bytes)
  | commit
deriving DecidableEq

inductive Response where
  | initChain (response : ResponseInitChain)
  | beginBlock (response : ResponseBeginBlock)
  | deliverTx (response : ResponseDeliverTx)
  | commit (response : ResponseCommit)
deriving DecidableEq

/-- One request; `none` is a panic. -/
def BaseCoinApp.step [Host G] (app : BaseCoinApp M G) :
    Request → Option (Response × BaseCoinApp M G)
  | .initChain bytes => (app.initChain bytes).map fun r => (.initChain r.1, r.2)
  | .beginBlock header => (app.beginBlock header).map fun r => (.beginBlock r.1, r.2)
  | .deliverTx tx => (app.deliverTx tx).map fun r => (.deliverTx r.1, r.2)
  | .commit => some (.commit app.commit.1, app.commit.2)

end Basecoin
