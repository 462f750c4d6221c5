import Basecoin.Modules.Clients

/-!
# Looking for the next and the previous consensus state

`next_consensus_state` and `prev_consensus_state` walk a listing of keys. It is in the order of
the paths, where heights are texts and each is followed by its metadata, while the neighbours
that are looked for are neighbours as numbers. Both also compare the wrong way round. What they
answer is said by `nextConsensusState_cases` and `prevConsensusState_cases`, and when it is what
their names promise by `next_finds_iff` and `prev_finds_iff`.

Of the heights below the one it is given, `next_consensus_state` answers the first by its text.
`prev_consensus_state` answers a consensus state only if the key before its match is one, and the
key before a consensus state is metadata of the height before, or there is none: so it panics, or
finds nothing. Neither depends on anything but which heights are stored, of which `FirstAmong` and
the order of heights are all that the conditions speak of.
-/

namespace Basecoin

open Lib

namespace Clients

/-- The height whose text comes first. -/
def FirstAmong (heights : Set IbcHeight) (height : IbcHeight) : Prop :=
  height ∈ heights ∧ ∀ other ∈ heights, height.toString ≤ other.toString

theorem FirstAmong.unique {heights : Set IbcHeight} {g h : IbcHeight} (hg : FirstAmong heights g)
    (hh : FirstAmong heights h) : g = h :=
  IbcHeight.toString_injective (le_antisymm (hg.2 h hh.1) (hh.2 g hg.1))

variable [Sha256] [IdentifierText] {AnyConsensusState Timestamp : Type}
  [ClientHost AnyConsensusState Timestamp]
  {s : InMemoryStore}

/-! ## What the searches find -/

omit [Sha256] in
theorem asConsensusState_consensusState
    (hparse : ParserInverts ClientHost.parsePath) (clientId : ClientId) (height : IbcHeight) :
    asConsensusState (recordPath clientId [height.toString]) =
      some (consensusPath clientId height) := by
  rw [← path_consensusState, TypedStore.path, asConsensusState, Path.toString_ofString]
  simp only [consensusStateStore, hparse.consensusState]

omit [Sha256] in
theorem asConsensusState_updateTime
    (hparse : ParserInverts ClientHost.parsePath) (clientId : ClientId) (height : IbcHeight) :
    asConsensusState (recordPath clientId [height.toString, "processedTime"]) = none := by
  rw [← path_updateTime, TypedStore.path, asConsensusState, Path.toString_ofString]
  simp only [clientProcessedTimes, hparse.updateTime]

omit [Sha256] in
theorem asConsensusState_updateHeight
    (hparse : ParserInverts ClientHost.parsePath) (clientId : ClientId) (height : IbcHeight) :
    asConsensusState (recordPath clientId [height.toString, "processedHeight"]) = none := by
  rw [← path_updateHeight, TypedStore.path, asConsensusState, Path.toString_ofString]
  simp only [clientProcessedHeights, hparse.updateHeight]

/-- A listed path is a consensus state at a stored height, or does not parse as one. -/
theorem EntriesOnly.asConsensusState_cases (hparse : ParserInverts ClientHost.parsePath)
    (hs : EntriesOnly s) {clientId : ClientId} {path : Path}
    (h : path ∈ s.getKeys (consensusStatesPath clientId)) :
    (∃ height ∈ storedHeights s clientId, path = recordPath clientId [height.toString]) ∨
      asConsensusState path = none := by
  obtain ⟨height, rfl | rfl | rfl⟩ := hs.mem_getKeys_cases h
  · exact .inl ⟨height, hs.mem_storedHeights.mpr h, rfl⟩
  · exact .inr (asConsensusState_updateTime hparse clientId height)
  · exact .inr (asConsensusState_updateHeight hparse clientId height)

omit [Sha256] in
theorem nextFound_consensusState (hparse : ParserInverts ClientHost.parsePath)
    (clientId : ClientId) (height stored : IbcHeight) :
    nextFound height (recordPath clientId [stored.toString]) =
      some (if stored < height then some (consensusPath clientId stored) else none) := by
  rw [nextFound, asConsensusState_consensusState hparse]
  simp only [consensusPath, IbcHeight.new_self, Option.map_some, gt_iff_lt]

omit [Sha256] in
theorem prevFound_consensusState (hparse : ParserInverts ClientHost.parsePath)
    (clientId : ClientId) (height stored : IbcHeight) :
    prevFound height (recordPath clientId [stored.toString]) = some (decide (stored ≤ height)) := by
  rw [prevFound, asConsensusState_consensusState hparse]
  simp only [consensusPath, IbcHeight.new_self, Option.map_some, ge_iff_le]

theorem EntriesOnly.isSome_nextFound (hparse : ParserInverts ClientHost.parsePath)
    (hs : EntriesOnly s) (clientId : ClientId) (height : IbcHeight) :
    ∀ path ∈ s.getKeys (consensusStatesPath clientId), (nextFound height path).isSome := by
  intro path hpath
  rcases hs.asConsensusState_cases hparse hpath with ⟨stored, -, rfl⟩ | hnone
  · rw [nextFound_consensusState hparse]
    rfl
  · rw [nextFound, hnone]
    rfl

theorem EntriesOnly.isSome_prevFound (hparse : ParserInverts ClientHost.parsePath)
    (hs : EntriesOnly s) (clientId : ClientId) (height : IbcHeight) :
    ∀ path ∈ s.getKeys (consensusStatesPath clientId), (prevFound height path).isSome := by
  intro path hpath
  rcases hs.asConsensusState_cases hparse hpath with ⟨stored, -, rfl⟩ | hnone
  · rw [prevFound_consensusState hparse]
    rfl
  · rw [prevFound, hnone]
    rfl

theorem consensusStateOr_eq {clientId : ClientId} {height stored : IbcHeight}
    (h : stored ∈ storedHeights s clientId) :
    consensusStateOr s clientId height (consensusPath clientId stored) =
      .ok (consensusStateAt s clientId stored) := by
  obtain ⟨consensusState, hstate⟩ := Option.isSome_iff_exists.mp h
  rw [consensusStateOr, hstate]
  rw [consensusStateAt] at hstate
  rw [hstate]

/-- `next_consensus_state` answers, of the heights *below*, the one whose text comes first. -/
theorem nextConsensusState_cases (hparse : ParserInverts ClientHost.parsePath)
    (hs : EntriesOnly s) (clientId : ClientId) (height : IbcHeight) :
    (∃ stored, FirstAmong {h ∈ storedHeights s clientId | h < height} stored ∧
      nextConsensusState s clientId height =
        some (.ok (consensusStateAt s clientId stored))) ∨
    ((∀ stored ∈ storedHeights s clientId, ¬ stored < height) ∧
      nextConsensusState s clientId height = some (.ok none)) := by
  have hsearch := findSomeM?_eq (hs.isSome_nextFound hparse clientId height)
  have hfound : ∀ stored, (nextFound height (recordPath clientId [stored.toString])).join =
      if stored < height then some (consensusPath clientId stored) else none := by
    intro stored
    rw [nextFound_consensusState hparse, Option.join_some]
  cases hfind : (s.getKeys (consensusStatesPath clientId)).findSome?
      fun path => (nextFound height path).join with
  | none =>
    refine .inr ⟨fun stored hstored hlt => ?_, ?_⟩
    · have hpath := List.findSome?_eq_none_iff.mp hfind _ (hs.mem_storedHeights.mp hstored)
      rw [hfound, if_pos hlt] at hpath
      cases hpath
    · rw [nextConsensusState, hsearch, hfind]
      rfl
  | some found =>
    -- the keys come sorted by their texts, so the first that is found has the least text
    obtain ⟨path, hmem, hpath, hleast⟩ := exists_of_findSome? (s.getKeys_sorted _) hfind
    rcases hs.asConsensusState_cases hparse hmem with ⟨stored, hstored, rfl⟩ | hnone
    · rw [hfound] at hpath
      split at hpath
      · next hlt =>
        obtain rfl := Option.some.inj hpath
        refine .inl ⟨stored, ⟨⟨hstored, hlt⟩, fun other hother => ?_⟩, ?_⟩
        · refine recordPath_le_iff.mp (hleast _ (hs.mem_storedHeights.mp hother.1) ?_)
          rw [hfound, if_pos hother.2]
          exact Option.some_ne_none _
        · rw [nextConsensusState, hsearch, hfind]
          exact congrArg some (consensusStateOr_eq hstored)
      · cases hpath
    · rw [nextFound, hnone] at hpath
      cases hpath

/-- With the metadata in the listing, no consensus state is the neighbour of another. -/
theorem EntriesOnly.getElem_pred (hs : EntriesOnly s) (htogether : Together s)
    {clientId : ClientId} {pos : Nat}
    (hpos : pos + 1 < (s.getKeys (consensusStatesPath clientId)).length) {stored other : IbcHeight}
    (hstored : (s.getKeys (consensusStatesPath clientId))[pos + 1] =
      recordPath clientId [stored.toString]) :
    (s.getKeys (consensusStatesPath clientId))[pos] ≠ recordPath clientId [other.toString] := by
  intro hother
  have hsorted := s.getKeys_sorted (consensusStatesPath clientId)
  have hlt := List.pairwise_iff_getElem.mp hsorted pos (pos + 1) (by omega) hpos (by omega)
  have hmem : recordPath clientId [other.toString] ∈
      s.getKeys (consensusStatesPath clientId) := hother ▸ List.getElem_mem _
  rw [hother, hstored] at hlt
  -- the time of the other height stands between
  have hafter : recordPath clientId [other.toString] <
      recordPath clientId [other.toString, "processedTime"] := recordPath_lt_record
  have hbefore : recordPath clientId [other.toString, "processedTime"] <
      recordPath clientId [stored.toString] := record_lt_recordPath hlt
  rw [← hother] at hafter
  rw [← hstored] at hbefore
  exact notMem_between hsorted hpos hafter hbefore
    (htogether.updateTime_mem_getKeys (hs.mem_storedHeights.mpr hmem))

/-- The listing opens with the consensus state whose height has the first text. -/
theorem EntriesOnly.getElem_zero (hs : EntriesOnly s) (htogether : Together s)
    {clientId : ClientId} (hlen : 0 < (s.getKeys (consensusStatesPath clientId)).length) :
    ∃ stored, FirstAmong (storedHeights s clientId) stored ∧
      (s.getKeys (consensusStatesPath clientId))[0] = recordPath clientId [stored.toString] := by
  have hleast : ∀ path ∈ s.getKeys (consensusStatesPath clientId),
      (s.getKeys (consensusStatesPath clientId))[0] ≤ path := by
    intro path hpath
    obtain ⟨i, hi, rfl⟩ := List.getElem_of_mem hpath
    cases i with
    | zero => exact le_refl _
    | succ i =>
      have hsorted := s.getKeys_sorted (consensusStatesPath clientId)
      exact le_of_lt (List.pairwise_iff_getElem.mp hsorted 0 (i + 1) hlen hi (Nat.succ_pos i))
  obtain ⟨stored, hstored, hle⟩ := hs.exists_stored_le htogether (List.getElem_mem hlen)
  have hhead := le_antisymm (hleast _ (hs.mem_storedHeights.mp hstored)) hle
  refine ⟨stored, ⟨hstored, fun other hother => ?_⟩, hhead⟩
  have hother' := hleast _ (hs.mem_storedHeights.mp hother)
  rw [hhead] at hother'
  exact recordPath_le_iff.mp hother'

/-- `prev_consensus_state` never answers a consensus state. It answers that there is none when no
height from `height` down is stored or the first text is such a height, and panics when one is
stored but not first. -/
theorem prevConsensusState_cases (hparse : ParserInverts ClientHost.parsePath)
    (hs : EntriesOnly s) (htogether : Together s) (clientId : ClientId) (height : IbcHeight) :
    (prevConsensusState s clientId height = some (.ok none) ∧
      ((∀ stored ∈ storedHeights s clientId, ¬ stored ≤ height) ∨
        ∃ stored, FirstAmong (storedHeights s clientId) stored ∧ stored ≤ height)) ∨
    (prevConsensusState s clientId height = none ∧
      (∃ stored ∈ storedHeights s clientId, stored ≤ height) ∧
        ∃ stored, FirstAmong (storedHeights s clientId) stored ∧ height < stored) := by
  have hsearch := position_eq (hs.isSome_prevFound hparse clientId height)
  have hfound : ∀ stored, (prevFound height (recordPath clientId [stored.toString])).getD false =
      decide (stored ≤ height) := by
    intro stored
    rw [prevFound_consensusState hparse, Option.getD_some]
  cases hfind : (s.getKeys (consensusStatesPath clientId)).findIdx?
      fun path => (prevFound height path).getD false with
  | none =>
    refine .inl ⟨?_, .inl fun stored hstored hle => ?_⟩
    · rw [prevConsensusState, hsearch, hfind]
      rfl
    · have hpath := List.findIdx?_eq_none_iff.mp hfind _ (hs.mem_storedHeights.mp hstored)
      rw [hfound, decide_eq_false_iff_not] at hpath
      exact hpath hle
  | some pos =>
    obtain ⟨hlt, hpath, hbefore⟩ := List.findIdx?_eq_some_iff_getElem.mp hfind
    obtain ⟨first, hfirst, hhead⟩ := hs.getElem_zero htogether (Nat.zero_lt_of_lt hlt)
    cases pos with
    | zero =>
      rw [hhead, hfound, decide_eq_true_iff] at hpath
      refine .inl ⟨?_, .inr ⟨first, hfirst, hpath⟩⟩
      rw [prevConsensusState, hsearch, hfind]
      rfl
    | succ pos =>
      -- the path before the one found is a record of metadata, for which the source has no arm
      have hfalse := hbefore 0 (Nat.succ_pos pos)
      rw [hhead, hfound, decide_eq_true_iff, not_le] at hfalse
      have hpred : asConsensusState (s.getKeys (consensusStatesPath clientId))[pos] = none ∧
          ∃ stored ∈ storedHeights s clientId, stored ≤ height := by
        rcases hs.asConsensusState_cases hparse (List.getElem_mem hlt) with
          ⟨stored, hstored, hat⟩ | hnone
        · rw [hat, hfound, decide_eq_true_iff] at hpath
          refine ⟨?_, stored, hstored, hpath⟩
          have hmem := List.getElem_mem (Nat.lt_of_succ_lt hlt)
          rcases hs.asConsensusState_cases hparse hmem with ⟨other, -, hother⟩ | hnone
          · exact absurd hother (hs.getElem_pred htogether hlt hat)
          · exact hnone
        · rw [prevFound, hnone] at hpath
          cases hpath
      refine .inr ⟨?_, hpred.2, first, hfirst, hfalse⟩
      rw [prevConsensusState, hsearch, hfind]
      simp only [Option.bind_some, Nat.succ_pos, if_true, Nat.add_sub_cancel,
        List.getElem?_eq_getElem (Nat.lt_of_succ_lt hlt), hpred.1, Option.map_none]

/-! ## The next and the previous -/

/-- The consensus state at the smallest height above, or that there is none. -/
def IsNext (s : InMemoryStore) (clientId : ClientId) (height : IbcHeight) :
    Option AnyConsensusState → Prop
  | some consensusState =>
    ∃ next, IsLeast {h ∈ storedHeights s clientId | height < h} next ∧
      consensusStateAt s clientId next = some consensusState
  | none => ∀ h ∈ storedHeights s clientId, ¬ height < h

/-- The consensus state at the greatest height below, or that there is none. -/
def IsPrev (s : InMemoryStore) (clientId : ClientId) (height : IbcHeight) :
    Option AnyConsensusState → Prop
  | some consensusState =>
    ∃ prev, IsGreatest {h ∈ storedHeights s clientId | h < height} prev ∧
      consensusStateAt s clientId prev = some consensusState
  | none => ∀ h ∈ storedHeights s clientId, ¬ h < height

/-- **`next_consensus_state` finds the next one if there is nothing to find, or by coincidence.**
In every reachable store, for every client and height: it answers the consensus state at the
smallest stored height above, or that there is none, if and only if no height but `height` itself
is stored, or both sides have one and, of those below, the one whose text comes first holds the
same consensus state as the smallest above. -/
theorem next_finds_iff (hparse : ParserInverts ClientHost.parsePath)
    {calls : List (Call AnyConsensusState Timestamp)} {responses : List Unit}
    (hrun : runSteps call InMemoryStore.default calls = some (responses, s))
    (clientId : ClientId) (height : IbcHeight) :
    (∃ result, nextConsensusState s clientId height = some (.ok result) ∧
      IsNext s clientId height result) ↔
      (∀ h ∈ storedHeights s clientId, h = height) ∨
      ∃ below next, FirstAmong {h ∈ storedHeights s clientId | h < height} below ∧
        IsLeast {h ∈ storedHeights s clientId | height < h} next ∧
        consensusStateAt s clientId below = consensusStateAt s clientId next := by
  have hs := entriesOnly_run hrun
  rcases nextConsensusState_cases hparse hs clientId height with
    ⟨below, hfirst, hnext⟩ | ⟨hnone, hnext⟩
  · obtain ⟨consensusState, hstate⟩ := Option.isSome_iff_exists.mp hfirst.1.1
    rw [hnext, hstate]
    constructor
    · rintro ⟨result, hresult, hisNext⟩
      obtain rfl := Except.ok.inj (Option.some.inj hresult)
      obtain ⟨next, hleast, hsame⟩ := hisNext
      exact .inr ⟨below, next, hfirst, hleast, hstate.trans hsame.symm⟩
    · rintro (honly | ⟨below', next, hfirst', hleast, hsame⟩)
      · exact absurd (honly below hfirst.1.1) (ne_of_lt hfirst.1.2)
      · obtain rfl := hfirst.unique hfirst'
        exact ⟨some consensusState, rfl, next, hleast, hsame.symm.trans hstate⟩
  · rw [hnext]
    constructor
    · rintro ⟨result, hresult, hisNext⟩
      obtain rfl := Except.ok.inj (Option.some.inj hresult)
      refine .inl fun h hh => ?_
      exact le_antisymm (not_lt.mp (hisNext h hh)) (not_lt.mp (hnone h hh))
    · rintro (honly | ⟨below, next, hfirst, -⟩)
      · refine ⟨none, rfl, fun h hh hlt => ?_⟩
        exact absurd (honly h hh) (ne_of_gt hlt)
      · exact absurd hfirst.1.2 (hnone below hfirst.1.1)

/-- **`prev_consensus_state` finds the previous one only if there is none.** In every reachable
store where consensus states and metadata are stored together, for every client and height: it
returns, with the consensus state at the greatest stored height below or that there is none, if
and only if no height below is stored and `height`, if it is stored, is the first text. -/
theorem prev_finds_iff (hparse : ParserInverts ClientHost.parsePath)
    {calls : List (Call AnyConsensusState Timestamp)} {responses : List Unit}
    (hrun : runSteps call InMemoryStore.default calls = some (responses, s))
    (htogether : Together s) (clientId : ClientId) (height : IbcHeight) :
    (∃ result, prevConsensusState s clientId height = some (.ok result) ∧
      IsPrev s clientId height result) ↔
      (∀ h ∈ storedHeights s clientId, ¬ h < height) ∧
        (height ∈ storedHeights s clientId → FirstAmong (storedHeights s clientId) height) := by
  have hs := entriesOnly_run hrun
  rcases prevConsensusState_cases hparse hs htogether clientId height with
    ⟨hprev, hcase⟩ | ⟨hprev, ⟨found, hfound, hle⟩, first, hfirst, hlt⟩
  · rw [hprev]
    constructor
    · rintro ⟨result, hresult, hisPrev⟩
      obtain rfl := Except.ok.inj (Option.some.inj hresult)
      refine ⟨hisPrev, fun hstored => ?_⟩
      rcases hcase with hnone | ⟨first, hfirst, hle⟩
      · exact absurd (le_refl height) (hnone height hstored)
      · obtain rfl := le_antisymm hle (not_lt.mp (hisPrev first hfirst.1))
        exact hfirst
    · rintro ⟨hbelow, -⟩
      exact ⟨none, rfl, hbelow⟩
  · rw [hprev]
    constructor
    · rintro ⟨result, hresult, -⟩
      cases hresult
    · rintro ⟨hbelow, hself⟩
      obtain rfl := le_antisymm hle (not_lt.mp (hbelow found hfound))
      exact absurd hlt (hfirst.unique (hself hfound) ▸ lt_irrefl found)

end Clients

/-! ## Heights nine and ten -/

section NineAndTen

local instance nineAndTenText : IdentifierText := .ascii

open Clients

local instance nineSha256 : Sha256 := Sha256.ones

local instance nineClientHost : ClientHost Nat Nat :=
  { parsePath := readIbcPath
    consensusStateCodec := Codec.ofEncodable _
    timestampCodec := Codec.ofEncodable _
    heightCodec := Codec.ofEncodable _ }

def tendermintClient : ClientId := ⟨"07-tendermint-0", by decide⟩

def heightAt (revisionHeight : UInt64) (h : revisionHeight ≠ 0) : IbcHeight := ⟨0, revisionHeight, h⟩

def nine : IbcHeight := heightAt 9 (by decide)

def ten : IbcHeight := heightAt 10 (by decide)

def eleven : IbcHeight := heightAt 11 (by decide)

/-- Two updates of the client, to heights nine and ten. -/
def nineAndTen : List (Call Nat Nat) :=
  [.storeConsensusState tendermintClient nine 1, .storeUpdateMeta tendermintClient nine 1 nine,
    .storeConsensusState tendermintClient ten 2, .storeUpdateMeta tendermintClient ten 2 ten]

def nineAndTenStored : InMemoryStore :=
  storeUpdate (storeUpdate InMemoryStore.default tendermintClient nine 1 1 nine)
    tendermintClient ten 2 2 ten

theorem run_nineAndTen :
    runSteps call InMemoryStore.default nineAndTen = some ([(), (), (), ()], nineAndTenStored) :=
  rfl

theorem together_nineAndTen : Together nineAndTenStored :=
  (together_default.storeUpdate tendermintClient nine 1 1 nine).storeUpdate
    tendermintClient ten 2 2 ten

theorem mem_nineAndTen {height : IbcHeight} :
    height ∈ storedHeights nineAndTenStored tendermintClient ↔ height = ten ∨ height = nine := by
  show (consensusStateAt nineAndTenStored tendermintClient height).isSome ↔ _
  rw [nineAndTenStored, consensusStateAt_storeUpdate, consensusStateAt_storeUpdate]
  by_cases hten : height = ten
  · simp [hten]
  · by_cases hnine : height = nine
    · simp [hnine, show nine ≠ ten by decide]
    · simp [hten, hnine]
      rfl

theorem ten_first_text : ¬ nine.toString ≤ ten.toString := by decide

/-- Above height ten there is none, and below it there is one. -/
theorem next_finds_iff_ten :
    (∃ result, nextConsensusState nineAndTenStored tendermintClient ten = some (.ok result) ∧
      IsNext nineAndTenStored tendermintClient ten result) ↔
      (∀ h ∈ storedHeights nineAndTenStored tendermintClient, h = ten) ∨
      ∃ below next,
        FirstAmong {h ∈ storedHeights nineAndTenStored tendermintClient | h < ten} below ∧
        IsLeast {h ∈ storedHeights nineAndTenStored tendermintClient | ten < h} next ∧
        consensusStateAt nineAndTenStored tendermintClient below =
          consensusStateAt nineAndTenStored tendermintClient next :=
  next_finds_iff readIbcPath_inverts run_nineAndTen tendermintClient ten

/-- So the next after ten is said to be the one at nine. -/
theorem nine_after_ten :
    runSteps call InMemoryStore.default nineAndTen = some ([(), (), (), ()], nineAndTenStored) ∧
      nextConsensusState nineAndTenStored tendermintClient ten = some (.ok (some 1)) ∧
      ¬ ∃ result, nextConsensusState nineAndTenStored tendermintClient ten = some (.ok result) ∧
        IsNext nineAndTenStored tendermintClient ten result := by
  have hnext : nextConsensusState nineAndTenStored tendermintClient ten = some (.ok (some 1)) := by
    rcases nextConsensusState_cases readIbcPath_inverts (entriesOnly_run run_nineAndTen)
      tendermintClient ten with ⟨stored, hfirst, hnext⟩ | ⟨hnone, -⟩
    · rcases mem_nineAndTen.mp hfirst.1.1 with rfl | rfl
      · exact absurd hfirst.1.2 (lt_irrefl _)
      · rw [hnext, nineAndTenStored, consensusStateAt_storeUpdate, consensusStateAt_storeUpdate]
        rfl
    · exact absurd (show nine < ten by decide) (hnone nine (mem_nineAndTen.mpr (.inr rfl)))
  refine ⟨run_nineAndTen, hnext, ?_⟩
  rintro ⟨result, hresult, hisNext⟩
  obtain rfl := Except.ok.inj (Option.some.inj (hnext.symm.trans hresult))
  obtain ⟨next, hleast, -⟩ := hisNext
  rcases mem_nineAndTen.mp hleast.1.1 with rfl | rfl
  · exact lt_irrefl _ hleast.1.2
  · exact absurd hleast.1.2 (by decide)

/-- Below height nine there is none, but nine is stored and its text is not the first. -/
theorem prev_finds_iff_nine :
    (∃ result, prevConsensusState nineAndTenStored tendermintClient nine = some (.ok result) ∧
      IsPrev nineAndTenStored tendermintClient nine result) ↔
      (∀ h ∈ storedHeights nineAndTenStored tendermintClient, ¬ h < nine) ∧
        (nine ∈ storedHeights nineAndTenStored tendermintClient →
          FirstAmong (storedHeights nineAndTenStored tendermintClient) nine) :=
  prev_finds_iff readIbcPath_inverts run_nineAndTen together_nineAndTen tendermintClient nine

/-- So looking for the previous before nine panics, and before eleven nothing is found. -/
theorem nothing_before_eleven :
    runSteps call InMemoryStore.default nineAndTen = some ([(), (), (), ()], nineAndTenStored) ∧
      Together nineAndTenStored ∧
      prevConsensusState nineAndTenStored tendermintClient nine = none ∧
      ¬ ∃ result, prevConsensusState nineAndTenStored tendermintClient eleven = some (.ok result) ∧
        IsPrev nineAndTenStored tendermintClient eleven result := by
  have hcases := prevConsensusState_cases readIbcPath_inverts (entriesOnly_run run_nineAndTen)
    together_nineAndTen tendermintClient
  have hfirst : ∀ {first}, FirstAmong (storedHeights nineAndTenStored tendermintClient) first →
      first = ten := by
    intro first hfirst
    rcases mem_nineAndTen.mp hfirst.1 with rfl | rfl
    · rfl
    · exact absurd (hfirst.2 ten (mem_nineAndTen.mpr (.inl rfl))) ten_first_text
  refine ⟨run_nineAndTen, together_nineAndTen, ?_, ?_⟩
  · rcases hcases nine with ⟨-, hnone | ⟨first, hf, hle⟩⟩ | ⟨hprev, -⟩
    · exact absurd (le_refl nine) (hnone nine (mem_nineAndTen.mpr (.inr rfl)))
    · rw [hfirst hf] at hle
      exact absurd hle (by decide)
    · exact hprev
  · rintro ⟨result, hresult, hisPrev⟩
    rcases hcases eleven with ⟨hprev, -⟩ | ⟨hprev, -⟩
    · obtain rfl := Except.ok.inj (Option.some.inj (hprev.symm.trans hresult))
      exact hisPrev ten (mem_nineAndTen.mpr (.inl rfl)) (by decide)
    · rw [hprev] at hresult
      cases hresult

end NineAndTen

end Basecoin
