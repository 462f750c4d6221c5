import Basecoin.Store.InMemory

/-!
# `modules/src/context.rs`, `types.rs` and `error.rs`

What a module is to the application. The stores are shared: a module holds a handle to its own
store and its keepers hold handles to other modules' stores, so the handlers act on a `World`,
the stores behind the handles and whatever else the modules remember.

A handler can panic (`none`) and can do one more thing wrong in principle: through a handle it
could commit, apply or reset a store. No module of the repository does, and `Handler` carries
that as a field: between its start and its end no store's staged copy or history moves.
-/

namespace Basecoin

/-! ## Values of other crates -/

/-- `cosmrs::AccountId`, with what is known of it: a printed account parses as itself, and an
accepted string prints as it was. -/
class Bech32 where
  AccountId : Type
  decEq : DecidableEq AccountId
  fromStr : String → Option AccountId
  toString : AccountId → String
  fromStr_toString : ∀ a, fromStr (toString a) = some a
  toString_fromStr : ∀ {s a}, fromStr s = some a → toString a = s

/-- Some strings as addresses, to run the model with. -/
@[reducible] def Bech32.ofValid (valid : String → Bool) : Bech32 where
  AccountId := { s // valid s = true }
  decEq := inferInstance
  fromStr s := if h : valid s = true then some ⟨s, h⟩ else none
  toString := Subtype.val
  fromStr_toString a := dif_pos a.property
  toString_fromStr h := by
    split at h
    · rw [← Option.some.inj h]
    · cases h

/-- Every string an address. -/
@[reducible] def Bech32.any : Bech32 := .ofValid fun _ => true

/-- The two addresses of `tests/fixtures/tx.json`, to run the model with. -/
def aliceAddress : String := "cosmos12xpmzmfpf7tn57xg93rne2hc2q26lcfql5efws"

def bobAddress : String := "cosmos1t2e0nyjhwn3revunvf2uperhftvhzu4euuzva9"

def AccountId [Bech32] : Type := Bech32.AccountId

structure Any where
  typeUrl : String
  value : Bytes
deriving DecidableEq

structure Event where
  kind : String
  attributes : List (String × String)
deriving DecidableEq

/-- Whether the build panics where an integer overflows, or wraps. -/
class BuildProfile where
  overflowChecks : Bool

/-- `HostError` of `ibc-rs`, the variants that can arise. -/
inductive HostError where
  | invalidState (description : String)
  | missingState (description : String)
  | other (description : String)
deriving DecidableEq

/-- `tendermint::block::Header`, the fields the modules read. -/
structure Header where
  height : Nat
  time : Int
  appHash : Bytes
  nextValidatorsHash : Bytes
deriving DecidableEq

structure ProofOp where
  fieldType : String
  key : Bytes
  data : Bytes
deriving DecidableEq

/-- `CommitmentProof::encode`. -/
class ProofEncoding where
  encodeProof : Ics23.CommitmentProof → Bytes

export ProofEncoding (encodeProof)

structure QueryResult where
  data : Bytes
  proof : Option (List ProofOp)
deriving DecidableEq

section Errors

variable [Bech32]

namespace AccountId

instance : DecidableEq AccountId := Bech32.decEq

def fromStr (s : String) : Option AccountId := Bech32.fromStr s

def toString (a : AccountId) : String := Bech32.toString a

@[simp] theorem fromStr_toString (a : AccountId) : fromStr a.toString = some a :=
  Bech32.fromStr_toString a

theorem fromStr_eq_some {s : String} {a : AccountId} (h : fromStr s = some a) :
    a.toString = s := Bech32.toString_fromStr h

theorem toString_injective : Function.Injective (toString : AccountId → String) := by
  intro a b h
  have ha := fromStr_toString a
  rw [h, fromStr_toString] at ha
  exact (Option.some.inj ha).symm

end AccountId

inductive BankError where
  | msgDecodeFailure
  | msgValidationFailure (reason : String)
  | nonExistentAccount (account : AccountId)
  | insufficientSourceFunds
  | destFundOverflow
  | store (reason : String)
deriving DecidableEq

/-- `error::Error`; an IBC or governance error is kept as its text. -/
inductive Error where
  | notHandled
  | custom (reason : String)
  | bank (e : BankError)
  | ibc (text : String)
  | gov (text : String)
deriving DecidableEq

def BankError.toString : BankError → String
  | msgDecodeFailure => "failed to decode message"
  | msgValidationFailure reason => "failed to validate message: `" ++ reason ++ "`"
  | nonExistentAccount account => "account `" ++ account.toString ++ "` doesn't exist"
  | insufficientSourceFunds => "insufficient funds in sender account"
  | destFundOverflow => "receiver account funds overflow"
  | store reason => "Store error: `" ++ reason ++ "`"

def Error.toString : Error → String
  | notHandled => "no module could handle specified message"
  | custom reason => "custom error: `" ++ reason ++ "`"
  | bank e => "bank module error: `" ++ e.toString ++ "`"
  | ibc text => "IBC module error: `" ++ text ++ "`"
  | gov text => "Governance module error: `" ++ text ++ "`"

end Errors

/-! ## Shared stores -/

/-- A `SharedStore<InMemoryStore>`: the address behind the `Arc`. -/
abbrev StoreRef := Nat

variable [Sha256]

/-- The stores behind all handles, and the memory of the modules. -/
structure World (M : Type) where
  stores : StoreRef → InMemoryStore
  mem : M

def World.modify {M : Type} (w : World M) (ref : StoreRef) (f : InMemoryStore → InMemoryStore) :
    World M :=
  { w with stores := Function.update w.stores ref (f (w.stores ref)) }

@[simp] theorem World.modify_self {M : Type} (w : World M) (ref : StoreRef)
    (f : InMemoryStore → InMemoryStore) : (w.modify ref f).stores ref = f (w.stores ref) := by
  simp [modify]

theorem World.modify_other {M : Type} (w : World M) {ref r : StoreRef}
    (f : InMemoryStore → InMemoryStore) (h : r ≠ ref) :
    (w.modify ref f).stores r = w.stores r := by
  simp [modify, h]

@[simp] theorem World.mem_modify {M : Type} (w : World M) (ref : StoreRef)
    (f : InMemoryStore → InMemoryStore) : (w.modify ref f).mem = w.mem := rfl

/-! ## Handlers -/

/-- What a module's handler may do to the world. -/
structure Handler (M α : Type) where
  run : World M → Option (α × World M)
  frame : ∀ {w a w'}, run w = some (a, w') → ∀ ref, (w.stores ref).SameBase (w'.stores ref)

namespace Handler

variable {M α β : Type}

def pure (a : α) : Handler M α where
  run w := some (a, w)
  frame h ref := by
    obtain ⟨-, rfl⟩ := Prod.mk.inj (Option.some.inj h)
    exact .refl _

def bind (x : Handler M α) (f : α → Handler M β) : Handler M β where
  run w := (x.run w).bind fun r => (f r.1).run r.2
  frame {w b w''} h ref := by
    obtain ⟨⟨a, w'⟩, hx, hf⟩ := Option.bind_eq_some_iff.mp h
    exact (x.frame hx ref).trans ((f a).frame hf ref)

instance : Monad (Handler M) where
  pure := Handler.pure
  bind := Handler.bind

def panic : Handler M α where
  run _ := none
  frame h := by simp at h

def read (f : World M → α) : Handler M α where
  run w := some (f w, w)
  frame h ref := by
    obtain ⟨-, rfl⟩ := Prod.mk.inj (Option.some.inj h)
    exact .refl _

/-- Act on what the modules remember, possibly panicking. -/
def onMem (f : M → Option M) : Handler M Unit where
  run w := (f w.mem).map fun mem => ((), { w with mem })
  frame h ref := by
    obtain ⟨mem, -, heq⟩ := Option.map_eq_some_iff.mp h
    obtain ⟨-, rfl⟩ := Prod.mk.inj heq
    exact .refl _

/-- Act on one store, possibly panicking, by an action that keeps its base. -/
def onStore (ref : StoreRef) (f : InMemoryStore → Option (α × InMemoryStore))
    (hf : ∀ {s a s'}, f s = some (a, s') → s.SameBase s') : Handler M α where
  run w := (f (w.stores ref)).map fun r => (r.1, w.modify ref fun _ => r.2)
  frame {w a w'} h r := by
    obtain ⟨⟨b, s'⟩, hs, heq⟩ := Option.map_eq_some_iff.mp h
    obtain ⟨-, rfl⟩ := Prod.mk.inj heq
    by_cases hr : r = ref
    · subst hr
      rw [World.modify_self]
      exact hf hs
    · rw [World.modify_other _ _ hr]
      exact .refl _

@[simp] theorem run_pure (a : α) (w : World M) :
    (Pure.pure a : Handler M α).run w = some (a, w) := rfl

@[simp] theorem run_bind (x : Handler M α) (f : α → Handler M β) (w : World M) :
    (x >>= f).run w = (x.run w).bind fun r => (f r.1).run r.2 := rfl

@[simp] theorem run_panic (w : World M) : (panic : Handler M α).run w = none := rfl

@[simp] theorem run_onMem (f : M → Option M) (w : World M) :
    (onMem f).run w = (f w.mem).map fun mem => ((), { w with mem }) := rfl

@[simp] theorem run_read (f : World M → α) (w : World M) : (read f).run w = some (f w, w) := rfl

/-! ### Triples -/

/-- Where `P` holds before and the handler returns, `Q` holds of the answer and the world after. -/
def Triple (P : World M → Prop) (x : Handler M α) (Q : α → World M → Prop) : Prop :=
  ∀ w a w', P w → x.run w = some (a, w') → Q a w'

def Preserves (x : Handler M α) (P : World M → Prop) : Prop := Triple P x fun _ => P

variable {P : World M → Prop}

theorem triple_pure {Q : α → World M → Prop} {a : α} (h : ∀ w, P w → Q a w) :
    Triple P (Pure.pure a) Q := by
  intro w b w' hw hrun
  obtain ⟨rfl, rfl⟩ := Prod.mk.inj (Option.some.inj hrun)
  exact h w hw

theorem triple_bind {x : Handler M α} {f : α → Handler M β} {Q : α → World M → Prop}
    {S : β → World M → Prop} (hx : Triple P x Q) (hf : ∀ a, Triple (Q a) (f a) S) :
    Triple P (x >>= f) S := by
  intro w b w' hw hrun
  obtain ⟨⟨a, w₁⟩, h₁, h₂⟩ := Option.bind_eq_some_iff.mp hrun
  exact hf a _ _ _ (hx _ _ _ hw h₁) h₂

theorem triple_post {x : Handler M α} {Q Q' : α → World M → Prop} (hx : Triple P x Q)
    (h : ∀ a w, Q a w → Q' a w) : Triple P x Q' := fun w a w' hw hrun =>
  h a w' (hx w a w' hw hrun)

theorem triple_panic {Q : α → World M → Prop} : Triple P panic Q := by
  intro w a w' _ hrun
  cases hrun

theorem preserves_pure (a : α) : (Pure.pure a : Handler M α).Preserves P := triple_pure fun _ hw => hw

theorem preserves_read (f : World M → α) : (read f).Preserves P := by
  intro w a w' hw hrun
  obtain ⟨-, rfl⟩ := Prod.mk.inj (Option.some.inj hrun)
  exact hw

/-- A call on one store does what its function does there. -/
theorem triple_onStore {x : Handler M α} {ref : StoreRef} {Q : α → World M → Prop}
    {f : InMemoryStore → Option (α × InMemoryStore)}
    (hx : ∀ w, x.run w = (f (w.stores ref)).map fun r => (r.1, w.modify ref fun _ => r.2))
    (h : ∀ w a s', P w → f (w.stores ref) = some (a, s') → Q a (w.modify ref fun _ => s')) :
    Triple P x Q := by
  intro w a w' hw hrun
  rw [hx] at hrun
  obtain ⟨⟨b, s'⟩, hs, heq⟩ := Option.map_eq_some_iff.mp hrun
  obtain ⟨rfl, rfl⟩ := Prod.mk.inj heq
  exact h w b s' hw hs

theorem preserves_onMem {f : M → Option M}
    (h : ∀ w mem, P w → f w.mem = some mem → P { w with mem }) : (onMem f).Preserves P := by
  intro w a w' hw hrun
  obtain ⟨mem, hmem, heq⟩ := Option.map_eq_some_iff.mp hrun
  obtain ⟨-, rfl⟩ := Prod.mk.inj heq
  exact h w mem hw hmem

end Handler

/-! ## `Module` -/

variable [Bech32]

/-- What holds before a message is handled holds after, unless that fails. Where failures are
undone only a message that is not handled counts as one that was; where they are not, all do. -/
def Handler.Keeps {M α : Type} (undone : Prop) (P : World M → Prop)
    (x : Handler M (Except Error α)) : Prop :=
  Triple P x fun result w => (∀ e, result = .error e → undone → e = .notHandled) → P w

theorem Handler.Preserves.keeps {M α : Type} {undone : Prop} {P : World M → Prop}
    {x : Handler M (Except Error α)} (h : x.Preserves P) : x.Keeps undone P :=
  triple_post h fun _ _ hw _ => hw

/-- The trait `Module`, with its default methods. `G` is the type of a genesis document; a
query reads the world, and `none` is its panic. -/
structure Module (M G : Type) where
  store : StoreRef
  deliver : Any → AccountId → Handler M (Except Error (List Event)) :=
    fun _ _ => pure (.error .notHandled)
  init : G → Handler M Unit := fun _ => pure ()
  query : Bytes → Option Path → Height → Bool → World M → Option (Except Error QueryResult) :=
    fun _ _ _ _ _ => some (.error .notHandled)
  beginBlock : Header → Handler M (List Event) := fun _ => pure []

structure IdentifiedModule (M G : Type) where
  id : Identifier
  module : Module M G

end Basecoin
