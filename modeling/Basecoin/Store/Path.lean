import Basecoin.Store.Avl.Node
import Mathlib.Order.Lattice
import Mathlib.Data.List.Lex
import Mathlib.Data.String.Basic
import Mathlib.Data.Nat.Find

/-!
# `types/path.rs`, `types/identifier.rs` and `types/height.rs`

A path is the list of its identifiers and is ordered as that list, which is what the derived
`Ord` of the source does. What the Merkle tree hashes, and what `get_keys` compares, is the
path's *text*: the identifiers joined by slashes, in UTF-8. Both conversions are here with the
facts later files need: text survives the round trip through a path, a path that was parsed
survives the one through its text, and a byte prefix of an encoded text is the encoding of a
prefix of the text.
-/

namespace Basecoin

/-! ## UTF-8 -/

/-- `String::into_bytes`. -/
def stringBytes (s : String) : Bytes := s.toList.flatMap String.utf8EncodeChar

/-- A character is recovered from the front of any byte string that starts with its encoding. -/
theorem utf8EncodeChar_inj {c d : Char} {x y : Bytes}
    (h : String.utf8EncodeChar c ++ x = String.utf8EncodeChar d ++ y) : c = d := by
  have hc := ByteArray.utf8DecodeChar?_utf8EncodeChar_append (b := x.toByteArray) (c := c)
  have hd := ByteArray.utf8DecodeChar?_utf8EncodeChar_append (b := y.toByteArray) (c := d)
  simp only [← List.toByteArray_append] at hc hd
  rw [h, hd, Option.some.injEq] at hc
  exact hc.symm

/-- UTF-8 is a prefix code: byte prefixes of encodings are encodings of prefixes. -/
theorem flatMap_utf8EncodeChar_prefix_iff {xs ys : List Char} :
    xs.flatMap String.utf8EncodeChar <+: ys.flatMap String.utf8EncodeChar ↔ xs <+: ys := by
  induction xs generalizing ys with
  | nil => simp
  | cons c xs ih =>
    cases ys with
    | nil =>
      simp only [List.flatMap_cons, List.flatMap_nil, List.prefix_nil, List.append_eq_nil_iff,
        reduceCtorEq, iff_false, not_and]
      intro h
      have hlen := congrArg List.length h
      rw [String.length_utf8EncodeChar] at hlen
      exact absurd hlen (ne_of_gt (Char.utf8Size_pos c))
    | cons d ys =>
      rw [List.flatMap_cons, List.flatMap_cons, List.cons_prefix_cons]
      constructor
      · intro ⟨t, ht⟩
        rw [List.append_assoc] at ht
        obtain rfl := utf8EncodeChar_inj ht
        rw [List.append_cancel_left_eq] at ht
        exact ⟨rfl, ih.mp ⟨t, ht⟩⟩
      · intro ⟨hcd, h⟩
        subst hcd
        rw [List.prefix_append_right_inj]
        exact ih.mpr h

theorem stringBytes_prefix_iff {s t : String} :
    stringBytes s <+: stringBytes t ↔ s.toList <+: t.toList := flatMap_utf8EncodeChar_prefix_iff

theorem stringBytes_injective : Function.Injective stringBytes := by
  intro s t h
  have hst : s.toList <+: t.toList := stringBytes_prefix_iff.mp (h ▸ List.prefix_refl _)
  have hts : t.toList <+: s.toList := stringBytes_prefix_iff.mp (h ▸ List.prefix_refl _)
  exact String.toList_injective (hst.eq_of_length_le hts.length_le)

def fromUtf8 (bytes : Bytes) : Option String := String.fromUTF8? bytes.toByteArray

@[simp] theorem fromUtf8_stringBytes (s : String) : fromUtf8 (stringBytes s) = some s := by
  have hbytes : (stringBytes s).toByteArray = s.toByteArray := String.utf8Encode_toList
  have hvalid : (stringBytes s).toByteArray.IsValidUTF8 := hbytes ▸ s.isValidUTF8
  rw [fromUtf8, String.fromUTF8?, dif_pos hvalid, Option.some.injEq, ← String.toByteArray_inj]
  exact hbytes

theorem stringBytes_of_fromUtf8 {bytes : Bytes} {s : String} (h : fromUtf8 bytes = some s) :
    stringBytes s = bytes := by
  have hbytes : (stringBytes s).toByteArray = s.toByteArray := String.utf8Encode_toList
  have htext : s.toByteArray = bytes.toByteArray := by
    unfold fromUtf8 String.fromUTF8? at h
    split at h
    · rw [← Option.some.inj h]
      rfl
    · cases h
  simpa using congrArg (fun b => b.data.toList) (hbytes.trans htext)

theorem isValidUTF8_iff {bytes : Bytes} :
    bytes.toByteArray.IsValidUTF8 ↔ ∃ s, fromUtf8 bytes = some s := by
  unfold fromUtf8 String.fromUTF8?
  constructor
  · intro h
    exact ⟨_, dif_pos h⟩
  · rintro ⟨s, h⟩
    by_contra hinvalid
    rw [dif_neg hinvalid] at h
    cases h

/-- `core::str::Utf8Error`, less the length of the sequence that is invalid. -/
structure Utf8Error where
  validUpTo : Nat
deriving DecidableEq

/-- `core::str::from_utf8`. -/
def fromUtf8OrError (value : Bytes) : Except Utf8Error String :=
  match fromUtf8 value with
  | some s => .ok s
  | none => .error
      { validUpTo := Nat.findGreatest (fun n => (fromUtf8 (value.take n)).isSome) value.length }

/-! ## Paths -/

/-- `Identifier`: a newtype around `String`. -/
abbrev Identifier := String

/-- `Path`: a newtype around the vector of its identifiers. -/
structure Path where
  ids : List Identifier

namespace Path

theorem ids_injective : Function.Injective Path.ids := by
  intro p q h
  cases p
  cases q
  exact congrArg Path.mk h

/-- The derived order compares the identifiers one by one. -/
instance : LinearOrder Path := LinearOrder.lift' Path.ids ids_injective

/-- `From<String>`: split at the slashes. -/
def ofString (s : String) : Path := ⟨(s.toList.splitOn '/').map String.ofList⟩

/-- `From<Identifier>`: one identifier, whatever it contains. -/
def ofIdentifier (id : Identifier) : Path := ⟨[id]⟩

/-- `Display`: joined by slashes. -/
def toString (p : Path) : String :=
  String.ofList (['/'].intercalate (p.ids.map String.toList))

instance : AsBytes Path := ⟨fun p => stringBytes p.toString⟩

theorem asBytes_eq (p : Path) : asBytes p = stringBytes p.toString := rfl

@[simp] theorem toString_ofString (s : String) : (ofString s).toString = s := by
  have hmap : ((s.toList.splitOn '/').map String.ofList).map String.toList
      = s.toList.splitOn '/' := by
    simp [Function.comp_def]
  rw [toString, ofString, hmap, List.intercalate_splitOn, String.ofList_toList]

theorem ofString_injective : Function.Injective ofString := by
  intro s t h
  rw [← toString_ofString s, h, toString_ofString]

@[simp] theorem toString_ofIdentifier (id : Identifier) : (ofIdentifier id).toString = id := by
  simp [ofIdentifier, toString]

theorem ofIdentifier_injective : Function.Injective ofIdentifier := by
  intro a b h
  rw [← toString_ofIdentifier a, h, toString_ofIdentifier]

end Path

/-- After the first identifier, each of the rest behind its slash. -/
theorem Path.toString_cons (first : Identifier) (rest : List Identifier) :
    toString ⟨first :: rest⟩ = first ++ String.ofList (rest.flatMap fun id => '/' :: id.toList) := by
  induction rest generalizing first with
  | nil => simp [toString]
  | cons id rest ih =>
    refine String.toList_injective ?_
    have htail := congrArg String.toList (ih id)
    rw [toString, String.toList_ofList, String.toList_append, String.toList_ofList] at htail ⊢
    rw [List.map_cons, List.map_cons, List.intercalate_cons_cons, ← List.map_cons, htail,
      List.flatMap_cons, List.append_assoc, List.singleton_append, List.cons_append]

/-- Identifiers without slashes come back from the text. -/
theorem Path.ofString_toString {p : Path} (hne : p.ids ≠ [])
    (hids : ∀ id ∈ p.ids, '/' ∉ id.toList) : Path.ofString p.toString = p := by
  have hsplit : (['/'].intercalate (p.ids.map String.toList)).splitOn '/' =
      p.ids.map String.toList := by
    refine List.splitOn_intercalate '/' (fun l hl => ?_) (fun h => hne (List.map_eq_nil_iff.mp h))
    obtain ⟨id, hid, rfl⟩ := List.mem_map.mp hl
    exact hids id hid
  apply Path.ids_injective
  rw [Path.ofString, Path.toString, String.toList_ofList, hsplit, List.map_map]
  exact List.map_id'' (fun _ => String.ofList_toList) p.ids

namespace Path

/-- `path::Error`, the variant that arises. -/
inductive Error where
  | malformedPathString (error : Utf8Error)
deriving DecidableEq

/-- `TryFrom<&[u8]>`. -/
def tryFromBytes (value : Bytes) : Except Error Path :=
  match fromUtf8OrError value with
  | .error e => .error (.malformedPathString e)
  | .ok s => .ok (ofString s)

/-- A path that was read from a string or from bytes. -/
inductive Parsed : Path → Prop
  | ofString (s : String) : Parsed (Path.ofString s)
  | tryFromBytes {value : Bytes} {p : Path} (h : Path.tryFromBytes value = .ok p) : Parsed p

theorem tryFromBytes_eq_ok_iff {value : Bytes} {p : Path} :
    tryFromBytes value = .ok p ↔ ∃ s, fromUtf8 value = some s ∧ p = ofString s := by
  unfold tryFromBytes fromUtf8OrError
  cases fromUtf8 value with
  | none =>
    constructor
    · intro h
      cases h
    · rintro ⟨s, h, -⟩
      cases h
  | some s =>
    constructor
    · intro h
      exact ⟨s, rfl, (Except.ok.inj h).symm⟩
    · rintro ⟨s', h, rfl⟩
      rw [Option.some.inj h]

theorem Parsed.exists_ofString {p : Path} (h : Parsed p) : ∃ s, p = Path.ofString s := by
  cases h with
  | ofString s => exact ⟨s, rfl⟩
  | tryFromBytes h =>
    obtain ⟨s, -, rfl⟩ := tryFromBytes_eq_ok_iff.mp h
    exact ⟨s, rfl⟩

/-- What was parsed comes back from its text. -/
theorem Parsed.ofString_toString {p : Path} (h : Parsed p) : Path.ofString p.toString = p := by
  obtain ⟨s, rfl⟩ := h.exists_ofString
  rw [Path.toString_ofString]

/-- The bytes in the Merkle tree are those of the text, so they tell parsed paths apart. -/
theorem Parsed.eq_of_asBytes {p q : Path} (hp : Parsed p) (hq : Parsed q)
    (h : asBytes p = asBytes q) : p = q := by
  rw [asBytes_eq, asBytes_eq] at h
  rw [← hp.ofString_toString, ← hq.ofString_toString, stringBytes_injective h]

theorem exists_tryFromBytes_iff {value : Bytes} :
    (∃ p, tryFromBytes value = .ok p) ↔ value.toByteArray.IsValidUTF8 := by
  rw [isValidUTF8_iff]
  constructor
  · rintro ⟨p, h⟩
    obtain ⟨s, hs, -⟩ := tryFromBytes_eq_ok_iff.mp h
    exact ⟨s, hs⟩
  · rintro ⟨s, hs⟩
    exact ⟨_, tryFromBytes_eq_ok_iff.mpr ⟨s, hs, rfl⟩⟩

theorem asBytes_of_tryFromBytes {value : Bytes} {p : Path} (h : tryFromBytes value = .ok p) :
    asBytes p = value := by
  obtain ⟨s, hs, rfl⟩ := tryFromBytes_eq_ok_iff.mp h
  rw [asBytes_eq, toString_ofString]
  exact stringBytes_of_fromUtf8 hs

end Path

/-! ## Heights -/

/-- `RawHeight`, a `u64`. -/
abbrev RawHeight := Nat

inductive Height where
  | pending
  | latest
  | stable (height : RawHeight)
deriving DecidableEq

/-- `From<RawHeight>`: 0 asks for the latest height. -/
def Height.ofRaw : RawHeight → Height
  | 0 => latest
  | value => stable value

end Basecoin
