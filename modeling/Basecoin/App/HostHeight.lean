import Basecoin.App.Blocks

/-!
# The host's height, consensus state and timestamp

The height of the host is the number of commits of its store; the map of its consensus states is
filled from the headers of the blocks that begin. Between `begin_block` and `commit` the map is one
block ahead, at a height the host does not answer yet (`HeadersKept`).

The invariant has two forms, between blocks and within one (`headersKept_invariant`): the stores
have a state for every committed block, and the map has their headers, with one more of them while a
block is in progress. A transaction changes neither, whether it succeeds or fails, because nothing
that `ibc-rs` is offered writes the map (`KeepsHeaders`). What the host answers is then read off at
the end of a history, at whatever point of a block it stops.
-/

namespace Basecoin

open Lib

section HostHeight

variable [Sha256] [Bech32] [AuthCodec] [BankHost] [IbcHost] [ProofEncoding] [U256Text]
  {R G AnyClientState MsgRecoverClient Timestamp : Type} [GenesisJson G U256]
  [UpgradeHost AnyClientState] [GovHost MsgRecoverClient] [ProposalHandlers R MsgRecoverClient]
  [BuildProfile] [HostClock Timestamp] [Host G]
  {ibcDeliver : Any → AccountId → Handler (Memory R) (Except Error (List Event))}

/-- A call leaves the map of consensus states alone. Of all that the contexts of the ibc module
offer to `ibc-rs` nothing writes it. -/
def KeepsHeaders {α : Type} (x : Handler (Memory R) α) : Prop :=
  ∀ c, x.Preserves fun w => w.mem.consensusStates = c

/-- The map has the header of each of the blocks, under its number. -/
def HeadersKept (headers : List Header) (mem : Memory R) : Prop :=
  ∀ (i : Nat) header, headers[i]? = some header →
    mem.consensusStates (i + 1) = some (Ibc.headerConsensusState header)

omit [Bech32] [AuthCodec] [BankHost] [IbcHost] [ProofEncoding] [U256Text] [BuildProfile] in
/-- The next header goes where no earlier one is. -/
theorem HeadersKept.begun {headers : List Header} {w : World (Memory R)}
    (h : HeadersKept headers w.mem) {header : Header} (hheight : header.height = headers.length + 1) :
    HeadersKept (headers ++ [header]) (w.begun header).mem := by
  intro i header' hi
  show Function.update w.mem.consensusStates header.height _ (i + 1) = _
  rw [List.getElem?_append] at hi
  by_cases hlt : i < headers.length
  · rw [if_pos hlt] at hi
    have hne : i + 1 ≠ header.height := hheight ▸ Nat.ne_of_lt (Nat.succ_lt_succ hlt)
    rw [Function.update_of_ne hne]
    exact h i header' hi
  · rw [if_neg hlt] at hi
    obtain ⟨hlen, hget⟩ := List.getElem?_eq_some_iff.mp hi
    have hlen' : i - headers.length < 1 := hlen
    obtain rfl : i = headers.length := by omega
    rw [hheight, Function.update_self]
    simp only [Nat.sub_self, List.getElem_cons_zero] at hget
    rw [hget]

/-- The headers of the committed blocks are kept, and within a block its own too. -/
theorem headersKept_invariant
    (hibc : ∀ message signer, KeepsHeaders (ibcDeliver message signer))
    (hrecover : ∀ msgRecoverClient : MsgRecoverClient,
      KeepsHeaders (ProposalHandlers.recoverExecute msgRecoverClient : Handler (Memory R) _)) :
    BlockInvariant (G := G) (fun _ _ => True)
      (fun blocks app => Committed (defaultModules (chainModules ibcDeliver)) blocks.length app ∧
        HeadersKept (blocks.map Block.header) app.world.mem)
      (fun blocks header app =>
        Committed (defaultModules (chainModules ibcDeliver)) blocks.length app ∧
          HeadersKept (blocks.map Block.header ++ [header]) app.world.mem) where
  initChain := by
    rintro app bytes response app' ⟨hcommitted, hkept⟩ - h
    refine ⟨hcommitted.outcome (outcome_initChain h), ?_⟩
    rintro i header hi
    cases hi
  beginBlock := by
    rintro blocks header app response app' ⟨hcommitted, hkept⟩ hheight - h
    refine ⟨hcommitted.outcome (outcome_beginBlock h), ?_⟩
    obtain ⟨_, events, w, hheader, hrun, rfl⟩ := beginBlock_run h
    obtain rfl := Option.some.inj hheader
    rw [hcommitted.modules, run_beginModules] at hrun
    obtain ⟨r, -, heq⟩ := Option.map_eq_some_iff.mp hrun
    obtain rfl := (Prod.mk.inj heq).2
    exact hkept.begun (hheight.trans (by rw [List.length_map]))
  deliverTx := by
    rintro blocks header app tx response app' ⟨hcommitted, hkept⟩ - h
    refine ⟨hcommitted.outcome (outcome_deliverTx h), ?_⟩
    -- neither a message nor what follows the messages touches the map of host consensus states
    have hmem : app'.world.mem.consensusStates = app.world.mem.consensusStates := by
      rcases deliverTx_keeps h with ⟨-, rfl⟩ | ⟨signer, messages, w, -, -, hkeeps, hend⟩
      · rfl
      · have hsame : w.mem.consensusStates = app.world.mem.consensusStates :=
          hkeeps False (fun w => w.mem.consensusStates = app.world.mem.consensusStates)
            (fun message _ => hcommitted.modules ▸ chain_deliver_keeps
              ⟨fun _ _ _ _ h => h, fun _ _ h => h⟩ (hibc message signer _)
              (fun proposal _ => Handler.triple_onStore
                (f := fun s => some (ProposalHandlers.executeUpgradeClientProposal R proposal s))
                (fun _ => rfl) fun _ _ _ h _ _ => h)
              fun recovery => hrecover recovery _) rfl fun _ h => h
        rcases hend with ⟨-, rfl⟩ | ⟨-, rfl⟩
        · exact (congrArg Memory.consensusStates (mem_foldl_modify _ _ _)).trans hsame
        · exact (congrArg Memory.consensusStates (mem_foldl_modify _ _ _)).trans hsame
    intro i header' hi
    rw [hmem]
    exact hkept i header' hi
  commit := by
    rintro blocks header txs app ⟨hcommitted, hkept⟩
    refine ⟨?_, ?_⟩
    · rw [List.length_append]
      exact hcommitted.commit
    · rw [List.map_append]
      intro i header' hi
      rw [show app.commit.2.world.mem = app.world.mem from mem_commitModules _ _ _]
      exact hkept i header' hi

/-- After any history every committed header is kept, whether or not a block is in progress. -/
theorem headers_kept {rest : R} {app₀ app : BaseCoinApp (Memory R) G} {history : History}
    {responses : List Response}
    (hibc : ∀ message signer, KeepsHeaders (ibcDeliver message signer))
    (hrecover : ∀ msgRecoverClient : MsgRecoverClient,
      KeepsHeaders (ProposalHandlers.recoverExecute msgRecoverClient : Handler (Memory R) _))
    (h₀ : chainApp ibcDeliver rest = some app₀)
    (hrun : runSteps BaseCoinApp.step app₀ history.requests = some (responses, app)) :
    Committed (defaultModules (chainModules ibcDeliver)) history.blocks.length app ∧
      HeadersKept (history.blocks.map Block.header) app.world.mem := by
  obtain ⟨hmods, hbuilt⟩ := built_defaultApp _ h₀
  have hbefore : Committed (defaultModules (chainModules ibcDeliver)) 0 app₀ ∧
      HeadersKept [] app₀.world.mem :=
    ⟨hmods ▸ hbuilt.committed, fun i header hi => by cases hi⟩
  have hholds :=
    (headersKept_invariant hibc hrecover).run (along_of_forall fun _ _ _ => trivial) hbefore hrun
  unfold History.Holds at hholds
  cases hnow : history.current with
  | none =>
    rw [hnow] at hholds
    exact hholds
  | some b =>
    rw [hnow] at hholds
    refine ⟨hholds.1, fun i header hi => hholds.2 i header ?_⟩
    rw [List.getElem?_append_left (List.getElem?_eq_some_iff.mp hi).1, hi]

omit [Sha256] [Bech32] [AuthCodec] [BankHost] [IbcHost] [ProofEncoding] [U256Text]
  [BuildProfile] in
/-- So each of their heights has its consensus state. -/
theorem HeadersKept.hostConsensusState {blocks : List Block} {mem : Memory R}
    (h : HeadersKept (blocks.map Block.header) mem) {height : HostHeight}
    (hle : height.revisionHeight ≤ blocks.length) :
    ∃ b, blocks[height.revisionHeight - 1]? = some b ∧
      Ibc.hostConsensusState mem height = .ok (Ibc.headerConsensusState b.header) := by
  have hpos : 0 < height.revisionHeight := Nat.pos_of_ne_zero height.ne_zero
  have hlt : height.revisionHeight - 1 < blocks.length :=
    Nat.lt_of_lt_of_le (Nat.sub_lt hpos Nat.one_pos) hle
  refine ⟨_, List.getElem?_eq_getElem hlt, ?_⟩
  have hkept := h (height.revisionHeight - 1) _ (by
    rw [List.getElem?_map, List.getElem?_eq_getElem hlt, Option.map_some])
  rw [Nat.sub_add_cancel hpos] at hkept
  rw [Ibc.hostConsensusState, hkept]

/-- **The host's height, consensus state and timestamp agree.** Take any history of blocks from a
fresh application with at least one commit, up to any point of the block in progress. The height of
the host is the number of commits; its consensus state is that of the header of the last committed
block, and its timestamp that header's time, where that converts; and each height up to its own has
the consensus state of its block. -/
theorem host_agrees {rest : R} {app₀ app : BaseCoinApp (Memory R) G} {history : History}
    {responses : List Response} {last : Block}
    (hibc : ∀ message signer, KeepsHeaders (ibcDeliver message signer))
    (hrecover : ∀ msgRecoverClient : MsgRecoverClient,
      KeepsHeaders (ProposalHandlers.recoverExecute msgRecoverClient : Handler (Memory R) _))
    (h₀ : chainApp ibcDeliver rest = some app₀)
    (hrun : runSteps BaseCoinApp.step app₀ history.requests = some (responses, app))
    (hlast : history.blocks.getLast? = some last) :
    ∃ height : HostHeight, Ibc.hostHeight (app.world.stores 3) = .ok height ∧
      height.revisionHeight = history.requests.count .commit ∧
      Ibc.hostConsensusState app.world.mem height = .ok (Ibc.headerConsensusState last.header) ∧
      (∀ timestamp, HostClock.timestamp last.header.time = .ok timestamp →
        Ibc.hostTimestamp (app.world.stores 3) app.world.mem = .ok timestamp) ∧
      ∀ h : HostHeight, h.revisionHeight ≤ height.revisionHeight →
        ∃ b, history.blocks[h.revisionHeight - 1]? = some b ∧
          Ibc.hostConsensusState app.world.mem h = .ok (Ibc.headerConsensusState b.header) := by
  obtain ⟨hcommitted, hkept⟩ := headers_kept hibc hrecover h₀ hrun
  have hibcMem : (⟨"ibc", Ibc.module 3 ibcDeliver Ibc.beginBlock⟩ :
      IdentifiedModule (Memory R) G) ∈ defaultModules (chainModules ibcDeliver) := by
    rw [defaultModules_chain]
    simp
  have hheight : (app.world.stores 3).currentHeight = history.blocks.length :=
    hcommitted.height hibcMem
  have hne : (app.world.stores 3).currentHeight ≠ 0 := by
    rw [hheight]
    intro hzero
    rw [List.length_eq_zero_iff.mp hzero] at hlast
    cases hlast
  have hhost : Ibc.hostHeight (app.world.stores 3) =
      .ok ⟨(app.world.stores 3).currentHeight, hne⟩ := dif_neg hne
  have hle : (⟨(app.world.stores 3).currentHeight, hne⟩ : HostHeight).revisionHeight ≤
      history.blocks.length := Nat.le_of_eq hheight
  obtain ⟨b, hb, hstate⟩ := hkept.hostConsensusState hle
  -- the block of the height of the host is the last one
  obtain rfl : b = last := by
    rw [List.getLast?_eq_getElem?, ← hheight] at hlast
    exact Option.some.inj (hb.symm.trans hlast)
  refine ⟨_, hhost, hheight.trans history.count_requests.symm, hstate, fun timestamp htime => ?_,
    fun h hle => hkept.hostConsensusState (hle.trans (Nat.le_of_eq hheight))⟩
  exact Ibc.hostTimestamp_of hhost hstate htime

end HostHeight

/-! ## One block -/

section OneBlock

open scoped Idle

/-- A timestamp is the time. -/
local instance oneBlockClock : HostClock Int :=
  { timestamp := .ok
    invalidHeight := "invalid height"
    missingLocalConsensusState := fun _ => "missing local consensus state" }

def oneBlockHeader : Header := { height := 1, time := 7, appHash := [], nextValidatorsHash := [2] }

/-- Genesis, a block, and the beginning of the next one. -/
def oneBlockHistory : History :=
  { genesis := [[]]
    blocks := [⟨oneBlockHeader, []⟩]
    current := some ⟨{ oneBlockHeader with height := 2, time := 9 }, [[]]⟩
    numbered := by
      rintro (_ | _ | i) b hb
      · cases hb
        rfl
      · cases hb
        rfl
      · cases hb }

def oneBlockRun : List Response × BaseCoinApp (Memory Unit) Unit :=
  (runSteps BaseCoinApp.step Idle.app oneBlockHistory.requests).get rfl

theorem run_oneBlockHistory :
    runSteps BaseCoinApp.step Idle.app oneBlockHistory.requests = some oneBlockRun :=
  (Option.some_get _).symm

theorem host_agrees_oneBlock :
    ∃ height : HostHeight, Ibc.hostHeight (oneBlockRun.2.world.stores 3) = .ok height ∧
      height.revisionHeight = oneBlockHistory.requests.count .commit ∧
      Ibc.hostConsensusState oneBlockRun.2.world.mem height =
        .ok (Ibc.headerConsensusState oneBlockHeader) ∧
      (∀ timestamp, HostClock.timestamp oneBlockHeader.time = .ok timestamp →
        Ibc.hostTimestamp (oneBlockRun.2.world.stores 3) oneBlockRun.2.world.mem = .ok timestamp) ∧
      ∀ h : HostHeight, h.revisionHeight ≤ height.revisionHeight →
        ∃ b, oneBlockHistory.blocks[h.revisionHeight - 1]? = some b ∧
          Ibc.hostConsensusState oneBlockRun.2.world.mem h =
            .ok (Ibc.headerConsensusState b.header) :=
  host_agrees (fun _ _ _ => Handler.preserves_pure _) (fun _ _ => Handler.preserves_pure _)
    Idle.chainApp_eq run_oneBlockHistory rfl

end OneBlock

end Basecoin
