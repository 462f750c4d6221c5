import Basecoin.Modules.Context
import Mathlib.Data.List.Nodup

/-!
# `app/src/builder.rs`

The application is its main store, the registered modules in order, and the world their handles
point into. `add_module` asserts that identifiers are unique, so an application carries that as
a field. `module_store` is the only source of module stores, and gives a fresh one unless the
identifier is taken; the main store is never handed out.

A module's store is behind a lock that the builder, the application and the module share. Here the
lock is an address into the world, and `module_store` is what hands out addresses in order. Two
modules hold the same one only where the second asks under the identifier of the first.
-/

namespace Basecoin

variable [Sha256] [Bech32] {M G : Type}

/-- `Builder`; `next` is the first address not yet handed out. -/
structure Builder (M G : Type) where
  store : InMemoryStore
  modules : List (IdentifiedModule M G)
  unique : (modules.map IdentifiedModule.id).Nodup
  stores : StoreRef → InMemoryStore
  next : StoreRef

structure BaseCoinApp (M G : Type) where
  store : InMemoryStore
  modules : List (IdentifiedModule M G)
  unique : (modules.map IdentifiedModule.id).Nodup
  world : World M

namespace Builder

def new (store : InMemoryStore) : Builder M G :=
  { store
    modules := []
    unique := List.nodup_nil
    stores := fun _ => InMemoryStore.default
    next := 0 }

/-- `module_store`: a share of the module's store, or a new store. -/
def moduleStore (self : Builder M G) (prefixId : Identifier) : StoreRef × Builder M G :=
  match self.modules.find? fun m => m.id = prefixId with
  | some m => (m.module.store, self)
  | none => (self.next, { self with next := self.next + 1 })

def isUniqueId (self : Builder M G) (prefixId : Identifier) : Bool :=
  !self.modules.any fun m => m.id = prefixId

theorem nodup_of_isUniqueId {self : Builder M G} {id : Identifier} {module : Module M G}
    (h : self.isUniqueId id = true) :
    ((self.modules ++ [IdentifiedModule.mk id module]).map IdentifiedModule.id).Nodup := by
  rw [List.map_append, List.map_singleton, List.nodup_append]
  refine ⟨self.unique, List.nodup_singleton _, ?_⟩
  intro a ha b hb
  obtain ⟨m, hm, rfl⟩ := List.mem_map.mp ha
  rw [List.mem_singleton.mp hb]
  have hne : ∀ m ∈ self.modules, m.id ≠ id := by simpa [isUniqueId] using h
  exact hne m hm

/-- `add_module`; `none` is the failed assertion. -/
def addModule (self : Builder M G) (prefixId : Identifier) (module : Module M G) :
    Option (Builder M G) :=
  if h : self.isUniqueId prefixId = true then
    some
      { self with
        modules := self.modules ++ [IdentifiedModule.mk prefixId module]
        unique := nodup_of_isUniqueId h }
  else none

/-- `build`; the modules bring their memory. -/
def build (self : Builder M G) (mem : M) : BaseCoinApp M G :=
  { store := self.store
    modules := self.modules
    unique := self.unique
    world := { stores := self.stores, mem } }

end Builder

/-- `deliver_msg`: offer a message to the modules in order; the first that does not answer
`NotHandled` decides. -/
def deliverMsg (message : Any) (signer : AccountId) :
    List (IdentifiedModule M G) → Handler M (Except Error (List Event))
  | [] => pure (.error .notHandled)
  | m :: ms => do
    match ← m.module.deliver message signer with
    | .ok events => pure (.ok events)
    | .error .notHandled => deliverMsg message signer ms
    | .error e => pure (.error e)

end Basecoin
