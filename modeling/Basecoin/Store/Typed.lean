import Basecoin.Store.InMemory
import Mathlib.Data.Nat.Digits.Lemmas
import Mathlib.Logic.Equiv.List

/-!
# `types/store.rs` and `utils/codec.rs`

A `TypedStore` is a store seen through a key type that prints and a codec for its values. The
codecs of the source are `serde_json` and `prost`; what is relied on is that they round-trip,
which `Codec` carries. Reads and writes are keyed by the printed text alone, so `get_set` needs
nothing about the keys but how they print.

Several typed stores share one key space, each for a kind of value. They do not get in each other's
way where their keys print apart (`get_set_of_ne`, `get_delete_of_ne`), and where the same text is
a key of two of them, what one writes the other reads and may not decode. Bytes that do not decode
read as nothing. That a text and a path are the same thing is `path_text_lossless`: from a text to
a path, to bytes, and back.
-/

namespace Basecoin

/-- `Codec`, for values that always encode. -/
structure Codec (V : Type*) where
  encode : V → Bytes
  decode : Bytes → Option V
  decode_encode : ∀ v, decode (encode v) = some v

theorem Codec.encode_injective {V : Type*} (c : Codec V) : Function.Injective c.encode := by
  intro v w h
  have hv := c.decode_encode v
  rw [h, c.decode_encode, Option.some.injEq] at hv
  exact hv.symm

/-- `NullCodec`: a path that is set holds one zero byte. -/
def nullCodec : Codec Unit where
  encode _ := [0]
  decode bytes := if bytes = [0] then some () else none
  decode_encode _ := rfl

/-- `BinCodec`, for a newtype around bytes. -/
def binCodec : Codec Bytes where
  encode := id
  decode := some
  decode_encode _ := rfl

/-- A codec for any countable type: the base-256 digits of the value's number. It stands for the
real ones where the model is run. -/
def Codec.ofEncodable (V : Type*) [Encodable V] : Codec V where
  encode v := (Nat.digits 256 (Encodable.encode v)).map UInt8.ofNat
  decode bytes := Encodable.decode (Nat.ofDigits 256 (bytes.map UInt8.toNat))
  decode_encode v := by
    have hmap : ((Nat.digits 256 (Encodable.encode v)).map UInt8.ofNat).map UInt8.toNat
        = Nat.digits 256 (Encodable.encode v) := by
      rw [List.map_map]
      conv_rhs => rw [← List.map_id (Nat.digits 256 (Encodable.encode v))]
      refine List.map_congr_left fun d hd => ?_
      have hlt : d < 256 := Nat.digits_lt_base (by omega) hd
      simp [Nat.mod_eq_of_lt hlt]
    rw [hmap, Nat.ofDigits_digits, Encodable.encodek]

/-- Strings are countable: the code points, moved past zero, are the digits of a number. -/
instance encodableString : Encodable String :=
  Encodable.ofLeftInverse
    (fun s => Nat.ofDigits 0x110001 (s.toList.map fun c => c.toNat + 1))
    (fun n => String.ofList ((Nat.digits 0x110001 n).map fun d => Char.ofNat (d - 1))) (by
      intro s
      have hlt : ∀ c : Char, c.toNat < 0x110000 := fun c =>
        c.valid.elim (fun h => h.trans (by decide)) And.right
      have hdigits : Nat.digits 0x110001 (Nat.ofDigits 0x110001
          (s.toList.map fun c => c.toNat + 1)) = s.toList.map fun c => c.toNat + 1 := by
        refine Nat.digits_ofDigits 0x110001 (by decide) _ (fun d hd => ?_) fun hne => ?_
        · obtain ⟨c, -, rfl⟩ := List.mem_map.mp hd
          exact Nat.succ_lt_succ (hlt c)
        · rw [List.getLast_map]
          exact Nat.succ_ne_zero _
      have hid : (fun d => Char.ofNat (d - 1)) ∘ (fun c : Char => c.toNat + 1) = id := by
        funext c
        simp
      rw [hdigits, List.map_map, hid, List.map_id, String.ofList_toList])

instance encodableUInt8 : Encodable UInt8 :=
  Encodable.ofLeftInverse UInt8.toNat UInt8.ofNat fun _ => by simp

instance encodableUInt64 : Encodable UInt64 :=
  Encodable.ofLeftInverse UInt64.toNat UInt64.ofNat fun _ => by simp

/-- What tells one `TypedStore` from another: how keys print, and the codec. -/
structure TypedStore (K V : Type*) where
  display : K → String
  codec : Codec V

namespace TypedStore

variable [Sha256] {K V : Type*} (T : TypedStore K V)

/-- `path.to_string().into()`. -/
def path (key : K) : Path := Path.ofString (T.display key)

def set (s : InMemoryStore) (key : K) (value : V) : Option V × InMemoryStore :=
  ((s.set (T.path key) (T.codec.encode value)).1.bind T.codec.decode,
    (s.set (T.path key) (T.codec.encode value)).2)

def get (s : InMemoryStore) (height : Height) (key : K) : Option V :=
  (s.get height (T.path key)).bind T.codec.decode

def delete (s : InMemoryStore) (key : K) : InMemoryStore := s.delete (T.path key)

/-- `is_path_set`, of the stores with `NullCodec`: the value is not looked at. -/
def isPathSet (T : TypedStore K Unit) (s : InMemoryStore) (height : Height) (key : K) : Bool :=
  (s.get height (T.path key)).isSome

omit [Sha256] in
/-- Keys reach the same path exactly if they print the same. -/
theorem path_eq_iff {K' V' : Type*} (U : TypedStore K' V') {key : K} {k : K'} :
    T.path key = U.path k ↔ T.display key = U.display k := Path.ofString_injective.eq_iff

theorem set_sameBase (s : InMemoryStore) (key : K) (value : V) :
    s.SameBase (T.set s key value).2 := ⟨rfl, rfl⟩

theorem get_set (s : InMemoryStore) (key k : K) (value : V) :
    T.get (T.set s key value).2 .pending k =
      if T.display k = T.display key then some value else T.get s .pending k := by
  have hpath : T.path k = T.path key ↔ T.display k = T.display key := T.path_eq_iff T
  show (State.get _ (T.path k)).bind T.codec.decode = _
  rw [set, InMemoryStore.set, State.get_insert]
  by_cases h : T.display k = T.display key
  · rw [if_pos (hpath.mpr h), if_pos h, Option.bind_some, T.codec.decode_encode]
  · rw [if_neg (fun hp => h (hpath.mp hp)), if_neg h]
    rfl

theorem get_delete (s : InMemoryStore) (key k : K) :
    T.get (T.delete s key) .pending k =
      if T.display k = T.display key then none else T.get s .pending k := by
  have hpath : T.path k = T.path key ↔ T.display k = T.display key := T.path_eq_iff T
  show (State.get _ (T.path k)).bind T.codec.decode = _
  rw [delete, InMemoryStore.delete, State.get_remove]
  by_cases h : T.display k = T.display key
  · rw [if_pos (hpath.mpr h), if_pos h, Option.bind_none]
  · rw [if_neg (fun hp => h (hpath.mp hp)), if_neg h]
    rfl

/-! Two typed stores over one store do not meet where their keys print apart. -/

section Other

variable {K' V' : Type*} (U : TypedStore K' V')

theorem get_set_of_ne {s : InMemoryStore} {key : K} {value : V} {k : K'}
    (h : U.display k ≠ T.display key) :
    U.get (T.set s key value).2 .pending k = U.get s .pending k := by
  have hpath : U.path k ≠ T.path key := mt (U.path_eq_iff T).mp h
  show (State.get _ (U.path k)).bind U.codec.decode = _
  rw [set, InMemoryStore.set, State.get_insert, if_neg hpath]
  rfl

theorem get_delete_of_ne {s : InMemoryStore} {key : K} {k : K'}
    (h : U.display k ≠ T.display key) :
    U.get (T.delete s key) .pending k = U.get s .pending k := by
  have hpath : U.path k ≠ T.path key := mt (U.path_eq_iff T).mp h
  show (State.get _ (U.path k)).bind U.codec.decode = _
  rw [delete, InMemoryStore.delete, State.get_remove, if_neg hpath]
  rfl

end Other

theorem get_default (key : K) : T.get InMemoryStore.default .pending key = none := rfl

/-- What an update does under a key, it does to the value. -/
theorem get_of_pending {s s' : InMemoryStore} {key : K} {value : V} {c : Prop} [Decidable c]
    (h : s'.pending.get (T.path key) =
      if c then some (T.codec.encode value) else s.pending.get (T.path key)) :
    T.get s' .pending key = if c then some value else T.get s .pending key := by
  show (s'.pending.get (T.path key)).bind T.codec.decode = _
  rw [h]
  split
  · exact T.codec.decode_encode value
  · rfl

/-- A key is there when the store finds a value under it. -/
theorem ne_none_of_isSome_get {s : InMemoryStore} {key : K}
    (h : (T.get s .pending key).isSome) : s.pending.get (T.path key) ≠ none := by
  intro hnone
  have hget : T.get s .pending key = (s.pending.get (T.path key)).bind T.codec.decode := rfl
  rw [hget, hnone] at h
  cases h

theorem get_of_encode {s : InMemoryStore} {key : K} {value : V}
    (h : s.pending.get (T.path key) = some (T.codec.encode value)) :
    T.get s .pending key = some value := by
  have hget : T.get s .pending key = (s.pending.get (T.path key)).bind T.codec.decode := rfl
  rw [hget, h, Option.bind_some, T.codec.decode_encode]

end TypedStore

/-- **Path text conversion is lossless.** Every string comes back from its path, whose bytes are
those of the string; every path that was parsed comes back from its text, and its bytes tell it from
every other; bytes parse exactly if they are UTF-8, and come back from the path. So keys of two
typed stores reach the same path, and the same entry, exactly if they print the same. -/
theorem path_text_lossless [Sha256] {K V K' V' : Type*} (T : TypedStore K V)
    (U : TypedStore K' V') :
    (∀ s, (Path.ofString s).toString = s ∧ asBytes (Path.ofString s) = stringBytes s) ∧
    (∀ p, Path.Parsed p → Path.ofString p.toString = p) ∧
    (∀ p q, Path.Parsed p → Path.Parsed q → p ≠ q → asBytes p ≠ asBytes q) ∧
    (∀ value, ((∃ p, Path.tryFromBytes value = .ok p) ↔ value.toByteArray.IsValidUTF8) ∧
      ∀ p, Path.tryFromBytes value = .ok p → asBytes p = value) ∧
    ∀ key k, (T.path key = U.path k ↔ T.display key = U.display k) ∧
      ∀ (s : InMemoryStore) value, (T.set s key value).2.get .pending (U.path k) =
        if T.display key = U.display k then some (T.codec.encode value)
        else s.get .pending (U.path k) := by
  refine ⟨fun s => ⟨Path.toString_ofString s, ?_⟩, fun p hp => hp.ofString_toString,
    fun p q hp hq hne heq => hne (hp.eq_of_asBytes hq heq),
    fun value => ⟨Path.exists_tryFromBytes_iff, fun p => Path.asBytes_of_tryFromBytes⟩,
    fun key k => ⟨T.path_eq_iff U, fun s value => ?_⟩⟩
  · rw [Path.asBytes_eq, Path.toString_ofString]
  · show State.get _ (U.path k) = _
    rw [TypedStore.set, InMemoryStore.set, State.get_insert]
    exact if_congr (eq_comm.trans (T.path_eq_iff U)) rfl rfl

end Basecoin
