import Basecoin.Lib.Listing
import Basecoin.Modules.Context
import Basecoin.Store.Typed
import Mathlib.Data.Prod.Lex
import Mathlib.Tactic.MkIffOfInductiveProp

/-!
# Where the consensus states of a client are

The paths of `ibc-rs` that `client_contexts.rs` writes under a client: a consensus state at each
height, and beside it the time and the height at which it was processed. They print under one
prefix. As keys of the store they are lists of identifiers: the two records of a height follow
its consensus state before any other height comes (`recordPath_lt_record`,
`record_lt_recordPath`), and the heights come in the order of their texts, not of their numbers.

A client identifier is one that `ibc-rs` accepts, of 9 to 64 bytes of its alphabet
(`ValidIdentifier`). What is used of that is that there is no slash in it, so that it is one name of
a path and the listing of one client has nothing of another's. The other paths that share the store
are represented by their texts, as far as they print apart from these.
-/

namespace Basecoin

/-! ## Identifiers and heights -/

/-- `char::is_alphanumeric`, of which the ASCII characters are known here. -/
class IdentifierText where
  isAlphanumeric : Char → Bool
  isAlphanumeric_ascii : ∀ c : Char, c.toNat < 128 → isAlphanumeric c = c.isAlphanum

/-- The checks that every identifier of `ibc-rs` passes: of its characters, and of its length in
bytes. -/
@[mk_iff] structure ValidIdentifier [IdentifierText] (min max : Nat) (id : String) : Prop where
  chars : ∀ c ∈ id.toList,
    IdentifierText.isAlphanumeric c = true ∨ c ∈ ['.', '_', '+', '-', '#', '[', ']', '<', '>']
  min_le : min ≤ id.utf8ByteSize
  le_max : id.utf8ByteSize ≤ max

/-- The characters are gone through; there is also an instance that goes through the type `Char`. -/
instance [IdentifierText] (min max : Nat) : DecidablePred (ValidIdentifier min max) :=
  fun id =>
    letI : Decidable (∀ c ∈ id.toList, IdentifierText.isAlphanumeric c = true ∨
        c ∈ ['.', '_', '+', '-', '#', '[', ']', '<', '>']) := List.decidableBAll _ _
    decidable_of_iff _ (validIdentifier_iff min max id).symm

/-- It is one name of a path. -/
theorem ValidIdentifier.noSlash [IdentifierText] {min max : Nat} {id : String}
    (h : ValidIdentifier min max id) : '/' ∉ id.toList := by
  intro hslash
  rcases h.chars _ hslash with hc | hc
  · rw [IdentifierText.isAlphanumeric_ascii _ (by decide)] at hc
    exact absurd hc (by decide)
  · exact absurd hc (by decide)

/-- ASCII only, to run the model with. -/
@[reducible] def IdentifierText.ascii : IdentifierText := ⟨Char.isAlphanum, fun _ _ => rfl⟩

structure ClientId [IdentifierText] where
  id : String
  valid : ValidIdentifier 9 64 id
deriving DecidableEq

theorem ClientId.noSlash [IdentifierText] (clientId : ClientId) : '/' ∉ clientId.id.toList :=
  clientId.valid.noSlash

/-- `ibc::core::client::types::Height`: its revision height is never zero. -/
structure IbcHeight where
  revisionNumber : UInt64
  revisionHeight : UInt64
  ne_zero : revisionHeight ≠ 0
deriving DecidableEq

/-- `{revision_number}-{revision_height}`, in heights and in paths. -/
def displayHeight (revisionNumber revisionHeight : UInt64) : String :=
  revisionNumber.toNat.repr ++ "-" ++ revisionHeight.toNat.repr

theorem notMem_repr {c : Char} (hc : c.isDigit = false) (n : Nat) : c ∉ n.repr.toList := by
  intro h
  rw [Nat.repr, String.toList_ofList] at h
  have hdigit := Nat.isDigit_of_mem_toDigits (by decide) (by decide) h
  rw [hc] at hdigit
  cases hdigit

theorem slash_notMem_displayHeight (a b : UInt64) : '/' ∉ (displayHeight a b).toList := by
  rw [displayHeight, String.toList_append, String.toList_append, List.mem_append, List.mem_append]
  rintro ((h | h) | h)
  · exact notMem_repr rfl _ h
  · exact absurd h (by decide)
  · exact notMem_repr rfl _ h

def readUInt64 (digits : List Char) : UInt64 := UInt64.ofNat (Nat.ofDigitChars 10 digits 0)

@[simp] theorem readUInt64_toDigits (n : UInt64) : readUInt64 (Nat.toDigits 10 n.toNat) = n := by
  rw [readUInt64, Nat.ofDigitChars_ten_toDigits, UInt64.ofNat_toNat]

def readHeight (text : String) : Option (UInt64 × UInt64) :=
  match text.toList.splitOn '-' with
  | [number, height] => some (readUInt64 number, readUInt64 height)
  | _ => none

@[simp] theorem readHeight_displayHeight (a b : UInt64) :
    readHeight (displayHeight a b) = some (a, b) := by
  have hjoin : (displayHeight a b).toList =
      ['-'].intercalate [a.toNat.repr.toList, b.toNat.repr.toList] := by
    simp [displayHeight, List.intercalate]
  have hsplit : (displayHeight a b).toList.splitOn '-' =
      [a.toNat.repr.toList, b.toNat.repr.toList] := by
    rw [hjoin]
    refine List.splitOn_intercalate '-' (fun l hl => ?_) (List.cons_ne_nil _ _)
    rcases List.mem_pair.mp hl with rfl | rfl
    · exact notMem_repr rfl _
    · exact notMem_repr rfl _
  rw [readHeight, hsplit]
  simp

theorem displayHeight_injective {a b c d : UInt64} (h : displayHeight a b = displayHeight c d) :
    a = c ∧ b = d := by
  have hread := readHeight_displayHeight a b
  rw [h, readHeight_displayHeight, Option.some.injEq, Prod.mk.injEq] at hread
  exact ⟨hread.1.symm, hread.2.symm⟩

namespace IbcHeight

/-- `Height::new`; `none` when the revision height is zero. -/
def new (revisionNumber revisionHeight : UInt64) : Option IbcHeight :=
  if h : revisionHeight ≠ 0 then some ⟨revisionNumber, revisionHeight, h⟩ else none

theorem new_self (h : IbcHeight) : new h.revisionNumber h.revisionHeight = some h := by
  rw [new, dif_pos h.ne_zero]

theorem new_eq_some_iff {a b : UInt64} {h : IbcHeight} :
    new a b = some h ↔ h.revisionNumber = a ∧ h.revisionHeight = b := by
  constructor
  · intro heq
    unfold new at heq
    split at heq
    · obtain rfl := Option.some.inj heq
      exact ⟨rfl, rfl⟩
    · cases heq
  · rintro ⟨rfl, rfl⟩
    exact new_self h

def toString (h : IbcHeight) : String := displayHeight h.revisionNumber h.revisionHeight

theorem toString_injective : Function.Injective toString := by
  intro g h heq
  obtain ⟨hnumber, hheight⟩ := displayHeight_injective heq
  cases g
  cases h
  cases hnumber
  cases hheight
  rfl

/-- The derived order: by revision number, then by revision height. -/
instance : LinearOrder IbcHeight :=
  LinearOrder.lift' (fun h => toLex (h.revisionNumber.toNat, h.revisionHeight.toNat)) (by
    intro g h heq
    have hpair := toLex.injective heq
    have hnumber := UInt64.toNat_inj.mp (congrArg Prod.fst hpair)
    have hheight := UInt64.toNat_inj.mp (congrArg Prod.snd hpair)
    cases g
    cases h
    cases hnumber
    cases hheight
    rfl)

instance : Encodable IbcHeight :=
  Encodable.ofLeftInjection (fun h => (h.revisionNumber, h.revisionHeight))
    (fun r => new r.1 r.2) new_self

end IbcHeight

/-! ## Paths -/

variable [IdentifierText]

structure ClientConsensusStatePath where
  clientId : ClientId
  revisionNumber : UInt64
  revisionHeight : UInt64
deriving DecidableEq

structure ClientUpdateTimePath where
  clientId : ClientId
  revisionNumber : UInt64
  revisionHeight : UInt64
deriving DecidableEq

structure ClientUpdateHeightPath where
  clientId : ClientId
  revisionNumber : UInt64
  revisionHeight : UInt64
deriving DecidableEq

/-- What the three print, up to the name of the record. -/
def consensusText (client : ClientId) (revisionNumber revisionHeight : UInt64) : String :=
  "clients/" ++ client.id ++ "/consensusStates/" ++ displayHeight revisionNumber revisionHeight

def ClientConsensusStatePath.toString (path : ClientConsensusStatePath) : String :=
  consensusText path.clientId path.revisionNumber path.revisionHeight

def ClientUpdateTimePath.toString (path : ClientUpdateTimePath) : String :=
  consensusText path.clientId path.revisionNumber path.revisionHeight ++ "/processedTime"

def ClientUpdateHeightPath.toString (path : ClientUpdateHeightPath) : String :=
  consensusText path.clientId path.revisionNumber path.revisionHeight ++ "/processedHeight"

/-- `ibc::core::host::types::path::Path`; of the other kinds the text is enough. -/
inductive IbcPath where
  | clientConsensusState (path : ClientConsensusStatePath)
  | clientUpdateTime (path : ClientUpdateTimePath)
  | clientUpdateHeight (path : ClientUpdateHeightPath)
  | other (text : String)
deriving DecidableEq

/-- Documented of `Path::from_str`: it inverts printing. -/
structure ParserInverts (parse : String → Option IbcPath) : Prop where
  consensusState : ∀ path : ClientConsensusStatePath,
    parse path.toString = some (.clientConsensusState path)
  updateTime : ∀ path : ClientUpdateTimePath, parse path.toString = some (.clientUpdateTime path)
  updateHeight : ∀ path : ClientUpdateHeightPath,
    parse path.toString = some (.clientUpdateHeight path)

/-- What everything about a client's consensus states prints in front. -/
def consensusStatesText (client : ClientId) : String := "clients/" ++ client.id ++ "/consensusStates"

def consensusStatesPath (client : ClientId) : Path := Path.ofString (consensusStatesText client)

/-- The path of any other kind, which is never under a client's consensus states. -/
structure OtherPath where
  text : String
  apart : ∀ client, ¬ (consensusStatesText client).toList <+: text.toList

/-! ## As keys of the store -/

/-- The key of a record under a client's consensus states. -/
def recordPath (client : ClientId) (record : List Identifier) : Path :=
  ⟨"clients" :: client.id :: "consensusStates" :: record⟩

theorem ofString_recordPath (client : ClientId) {record : List Identifier}
    (h : ∀ id ∈ record, '/' ∉ id.toList) :
    Path.ofString (recordPath client record).toString = recordPath client record := by
  refine Path.ofString_toString (List.cons_ne_nil _ _) fun id hid => ?_
  simp only [recordPath, List.mem_cons] at hid
  rcases hid with rfl | rfl | rfl | hid
  · decide
  · exact client.noSlash
  · decide
  · exact h id hid

theorem toString_recordPath (client : ClientId) (record : List Identifier) :
    (recordPath client record).toString =
      consensusStatesText client ++ String.ofList (record.flatMap fun id => '/' :: id.toList) := by
  rw [recordPath, Path.toString_cons]
  refine String.toList_injective ?_
  simp [consensusStatesText]

/-- The text of a height with further names behind it. -/
theorem ofString_consensusText (client : ClientId) (revisionNumber revisionHeight : UInt64)
    {names : List Identifier} (h : ∀ id ∈ names, '/' ∉ id.toList) :
    Path.ofString (consensusText client revisionNumber revisionHeight ++
        String.ofList (names.flatMap fun id => '/' :: id.toList)) =
      recordPath client (displayHeight revisionNumber revisionHeight :: names) := by
  have hrecord : ∀ id ∈ displayHeight revisionNumber revisionHeight :: names,
      '/' ∉ id.toList := by
    intro id hid
    rcases List.mem_cons.mp hid with rfl | hid
    · exact slash_notMem_displayHeight _ _
    · exact h id hid
  rw [← ofString_recordPath _ hrecord, toString_recordPath]
  refine congrArg Path.ofString (String.toList_injective ?_)
  simp [consensusText, consensusStatesText]

theorem ofString_consensusState (path : ClientConsensusStatePath) :
    Path.ofString path.toString =
      recordPath path.clientId [displayHeight path.revisionNumber path.revisionHeight] := by
  rw [← ofString_consensusText _ _ _ (List.forall_mem_nil _)]
  exact congrArg Path.ofString (String.append_empty).symm

theorem ofString_updateTime (path : ClientUpdateTimePath) :
    Path.ofString path.toString = recordPath path.clientId
      [displayHeight path.revisionNumber path.revisionHeight, "processedTime"] := by
  rw [← ofString_consensusText _ _ _ (by decide)]
  rfl

theorem ofString_updateHeight (path : ClientUpdateHeightPath) :
    Path.ofString path.toString = recordPath path.clientId
      [displayHeight path.revisionNumber path.revisionHeight, "processedHeight"] := by
  rw [← ofString_consensusText _ _ _ (by decide)]
  rfl

theorem recordPath_inj {client client' : ClientId} {r r' : List Identifier} :
    recordPath client r = recordPath client' r' ↔ client = client' ∧ r = r' := by
  constructor
  · intro h
    obtain ⟨-, hrest⟩ := List.cons.inj (Path.mk.inj h)
    obtain ⟨hid, hrest⟩ := List.cons.inj hrest
    cases client
    cases client'
    cases hid
    exact ⟨rfl, (List.cons.inj (List.cons.inj hrest).2).2⟩
  · rintro ⟨rfl, rfl⟩
    rfl

theorem recordPath_lt_iff {client : ClientId} {r r' : List Identifier} :
    recordPath client r < recordPath client r' ↔ r < r' := by
  show "clients" :: client.id :: "consensusStates" :: r <
    "clients" :: client.id :: "consensusStates" :: r' ↔ _
  rw [List.cons_lt_cons_self, List.cons_lt_cons_self, List.cons_lt_cons_self]

theorem recordPath_le_iff {client : ClientId} {x y : Identifier} :
    recordPath client [x] ≤ recordPath client [y] ↔ x ≤ y := by
  rw [← not_lt, recordPath_lt_iff, List.cons_lt_cons_iff, ← not_lt]
  simp

/-- A record of a height comes after the consensus state, and before any that comes later. -/
theorem recordPath_lt_record {client : ClientId} {x name : Identifier} :
    recordPath client [x] < recordPath client [x, name] :=
  recordPath_lt_iff.mpr (List.cons_lt_cons_iff.mpr (.inr ⟨rfl, List.nil_lt_cons _ _⟩))

theorem record_lt_recordPath {client : ClientId} {x y name : Identifier}
    (h : recordPath client [x] < recordPath client [y]) :
    recordPath client [x, name] < recordPath client [y] := by
  rw [recordPath_lt_iff] at h ⊢
  simp only [List.cons_lt_cons_iff, List.not_lt_nil, and_false, or_false] at h
  exact List.cons_lt_cons_iff.mpr (.inl h)

/-- A record is under the consensus states of its own client only. -/
theorem consensusStates_prefix_iff {client client' : ClientId} {record : List Identifier}
    (hne : record ≠ []) :
    (consensusStatesText client).toList <+: (recordPath client' record).toString.toList ↔
      client = client' := by
  obtain ⟨id, rest, rfl⟩ := List.exists_cons_of_ne_nil hne
  rw [toString_recordPath, String.toList_append]
  constructor
  · intro h
    have hclients : (consensusStatesText client).toList =
        "clients/".toList ++ (client.id.toList ++ '/' :: "consensusStates".toList) := by
      simp [consensusStatesText]
    have hclients' : (consensusStatesText client').toList =
        "clients/".toList ++ (client'.id.toList ++ '/' :: "consensusStates".toList) := by
      simp [consensusStatesText]
    rw [hclients, hclients', List.append_assoc, List.prefix_append_right_inj,
      List.append_assoc, List.cons_append] at h
    have hid := Lib.eq_of_append_cons_prefix client.noSlash client'.noSlash h
    cases client
    cases client'
    cases String.toList_injective hid
    rfl
  · rintro rfl
    exact List.prefix_append _ _

theorem ofString_ne_recordPath (path : OtherPath) (client : ClientId) {record : List Identifier}
    (hne : record ≠ []) : Path.ofString path.text ≠ recordPath client record := by
  intro h
  have htext : path.text = (recordPath client record).toString := by
    rw [← h, Path.toString_ofString]
  refine path.apart client ?_
  rw [htext]
  exact (consensusStates_prefix_iff hne).mpr rfl

/-! ## A parser -/

/-- A parser of these paths, to run the model with. -/
def readIbcPath (text : String) : Option IbcPath :=
  match (Path.ofString text).ids with
  | "clients" :: id :: "consensusStates" :: height :: record =>
    if h : ValidIdentifier 9 64 id then
      (readHeight height).bind fun (revisionNumber, revisionHeight) =>
        match record with
        | [] => some (.clientConsensusState ⟨⟨id, h⟩, revisionNumber, revisionHeight⟩)
        | ["processedTime"] => some (.clientUpdateTime ⟨⟨id, h⟩, revisionNumber, revisionHeight⟩)
        | ["processedHeight"] =>
          some (.clientUpdateHeight ⟨⟨id, h⟩, revisionNumber, revisionHeight⟩)
        | _ => none
    else none
  | _ => none

theorem readIbcPath_inverts : ParserInverts readIbcPath where
  consensusState path := by
    rw [readIbcPath, ofString_consensusState]
    simp [recordPath, path.clientId.valid]
  updateTime path := by
    rw [readIbcPath, ofString_updateTime]
    simp [recordPath, path.clientId.valid]
  updateHeight path := by
    rw [readIbcPath, ofString_updateHeight]
    simp [recordPath, path.clientId.valid]

end Basecoin
