import Basecoin.Modules.Context
import Basecoin.Store.Typed

/-!
# `modules/src/ibc/impls.rs`: the module over its store

What the module does without `ibc-rs`: its context writes three counters when it is made, and a
query answers the bytes of a path with the proof of the same path at the same height. Handling
messages is `ibc-rs`'s `dispatch` over the context; together with the consensus states that
`begin_block` keeps in memory it is a parameter of `module`.

The counters are written when the context is made, so they are pending until a transaction is
applied or the first block committed. A query checks the path it is asked for only by parsing it:
whether the parser's paths are those that are stored is a matter of `ibc-rs`, and `validPath` is all
of it that is used here.
-/

namespace Basecoin

/-- What `ibc-rs` fixes and the module refers to. -/
class IbcHost where
  /-- `IBC_QUERY_PATH`. -/
  queryPath : String
  /-- `IbcPath::from_str`, as the strings it accepts. -/
  validPath : String → Bool
  /-- `Display` of `NextClientSequencePath`, `NextConnectionSequencePath` and
  `NextChannelSequencePath`. -/
  nextClientSequence : String
  nextConnectionSequence : String
  nextChannelSequence : String
  /-- `JsonCodec<u64>`. -/
  counterCodec : Codec UInt64

namespace Ibc

variable [Sha256] [Bech32] [IbcHost]

omit [Sha256] [Bech32] in
/-- The typed stores of the counters, which differ in their only key. -/
def counterStore : TypedStore String UInt64 :=
  { display := id, codec := IbcHost.counterCodec }

omit [Bech32] in
/-- `IbcContext::new`, as what it does to the store. -/
def newContext (s : InMemoryStore) : InMemoryStore :=
  let s := (counterStore.set s IbcHost.nextClientSequence 0).2
  let s := (counterStore.set s IbcHost.nextConnectionSequence 0).2
  (counterStore.set s IbcHost.nextChannelSequence 0).2

omit [Bech32] in
theorem newContext_sameBase (s : InMemoryStore) : s.SameBase (newContext s) := ⟨rfl, rfl⟩

variable [ProofEncoding]

omit [Bech32] [IbcHost] in
/-- `get_proof`; encoding into a vector cannot fail. -/
def getProof (s : InMemoryStore) (height : Height) (path : Path) : Option Bytes :=
  (s.getProof height path).map encodeProof

def query (s : InMemoryStore) (data : Bytes) (path : Option Path) (height : Height)
    (prove : Bool) : Except Error QueryResult :=
  match path with
  | none => .error .notHandled
  | some path =>
    if path.toString ≠ IbcHost.queryPath then .error .notHandled
    else
      match fromUtf8 data with
      | none => .error (.custom "Invalid domain path")
      | some text =>
        let path := Path.ofString text
        if IbcHost.validPath path.toString = false then .error (.custom "Invalid IBC path")
        else
          let answer (proof : Option (List ProofOp)) : Except Error QueryResult :=
            match s.get height path with
            | none => .error (.custom "Data not found")
            | some data => .ok { data, proof }
          if prove then
            match getProof s height path with
            | none => .error (.custom "Proof not found")
            | some proof =>
              answer (some [{ fieldType := "", key := stringBytes path.toString, data := proof }])
          else answer none

/-- `Ibc`, as a module over the store behind `store`. -/
def module {M G : Type} (store : StoreRef)
    (deliver : Any → AccountId → Handler M (Except Error (List Event)))
    (beginBlock : Header → Handler M (List Event)) : Module M G where
  store := store
  deliver := deliver
  beginBlock := beginBlock
  query data path height prove w := some (query (w.stores store) data path height prove)

end Ibc

end Basecoin
