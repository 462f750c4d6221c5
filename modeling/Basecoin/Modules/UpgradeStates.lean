import Basecoin.Lib.Run
import Basecoin.Modules.Upgrade

/-!
# What a replaced plan leaves behind

A proposal schedules its plan and stores the client state at the plan's height. Scheduling first
clears a pending plan, with the states at the height of the *new* one. Each plan has a client state
at its own height, so the old one's stays unless the two heights are the same (`replaces_iff`).

That is so in every state a run reaches as long as the plans replaced so far met one of their own
height: the store then describes one upgrade (`Single`), and a pending plan has its client state
(`Stored`). The first proposal that breaks the condition leaves a state behind, and with it the
store no longer describes a single upgrade. So the two sides are compared at each step from a state
in which they have agreed so far, and `along_congr` does the rest.
-/

namespace Basecoin

open Lib

namespace Upgrade

variable [Sha256] {AnyClientState : Type} [UpgradeHost AnyClientState]

/-! ## Calls -/

/-- The writes of an upgrade proposal. -/
def propose (s : InMemoryStore) (plan : Plan) (clientState : AnyClientState) :
    Except HostError Unit × InMemoryStore :=
  match scheduleUpgrade s plan with
  | (.error e, s) => (.error e, s)
  | (.ok (), s) => (.ok (), storeUpgradedClientState s plan.height clientState)

omit [UpgradeHost AnyClientState] [Sha256] in
/-- What happens to the store of the upgrade module. -/
inductive Call (AnyClientState : Type) where
  | propose (plan : Plan) (clientState : AnyClientState)
  | beginBlock (header : Header)
  | commit

/-- One call; `none` is a panic of `begin_block`. -/
def call (s : InMemoryStore) :
    Call AnyClientState → Option (Except HostError (List Event) × InMemoryStore)
  | .propose plan clientState =>
    some ((propose s plan clientState).1.map fun _ => [], (propose s plan clientState).2)
  | .beginBlock header => (beginBlock s header).map fun r => (.ok r.1, r.2)
  | .commit => some (.ok [], s.commit.2)

/-- What a proposal leaves when its plan is accepted. -/
structure Proposed (s : InMemoryStore) (plan : Plan) (clientState : AnyClientState)
    (s' : InMemoryStore) : Prop where
  base : s.SameBase s'
  notPast : s.currentHeight ≤ plan.height
  pending : plan? s' = some plan
  clientState : ∀ h, clientState? s' h =
    if h = plan.height then some clientState else clientState? s h
  consensusState : ∀ h, consensusState? s' h =
    if (plan? s).isSome ∧ h = plan.height then none else consensusState? s h

theorem propose_cases (s : InMemoryStore) (plan : Plan) (clientState : AnyClientState) :
    (plan.height < s.currentHeight ∧ propose s plan clientState =
      (.error (.invalidState "Upgrade plan height is in the past"), s)) ∨
    ∃ s', propose s plan clientState = (.ok (), s') ∧ Proposed s plan clientState s' := by
  rw [propose]
  rcases scheduleUpgrade_cases s plan with ⟨hpast, heq⟩ | ⟨t, heq, hscheduled⟩
  · rw [heq]
    exact .inl ⟨hpast, rfl⟩
  · rw [heq]
    refine .inr ⟨_, rfl, hscheduled.base.trans ⟨rfl, rfl⟩, hscheduled.notPast, ?_, fun h => ?_,
      fun h => ?_⟩
    · rw [plan?_storeUpgradedClientState, hscheduled.pending]
    · rw [clientState?_storeUpgradedClientState, hscheduled.clientState]
      by_cases hh : h = plan.height
      · rw [if_pos hh, if_pos hh]
      · rw [if_neg hh, if_neg hh, if_neg fun hand => hh hand.2]
    · rw [consensusState?_storeUpgradedClientState, hscheduled.consensusState]

/-! ## One upgrade at a time -/

/-- No state is stored for another height. -/
def OnlyAt (s : InMemoryStore) (height : RawHeight) : Prop :=
  ∀ h, h ≠ height → clientState? s h = none ∧ consensusState? s h = none

/-- The store describes at most one upgrade: a height with a state is the pending plan's. -/
def Single (s : InMemoryStore) : Prop :=
  ∀ h, (clientState? s h).isSome ∨ (consensusState? s h).isSome →
    ∃ plan, plan? s = some plan ∧ plan.height = h

/-- Right after the plan is scheduled no state of another height is left. -/
def LeavesNoOther (s : InMemoryStore) : Call AnyClientState → Prop
  | .propose plan _ => ∀ s', scheduleUpgrade s plan = (.ok (), s') → OnlyAt s' plan.height
  | _ => True

/-- A plan that is not in the past meets no pending plan, or one of its own height. -/
def MeetsOwnHeight (s : InMemoryStore) : Call AnyClientState → Prop
  | .propose plan _ => s.currentHeight ≤ plan.height →
    ∀ pending, plan? s = some pending → pending.height = plan.height
  | _ => True

/-- A pending plan has its client state. -/
def Stored (s : InMemoryStore) : Prop :=
  ∀ plan, plan? s = some plan → (clientState? s plan.height).isSome

theorem Single.onlyAt {s : InMemoryStore} (h : Single s) {height : RawHeight}
    (hpending : ∀ pending, plan? s = some pending → pending.height = height) : OnlyAt s height := by
  intro k hk
  have hnot : ¬ ((clientState? s k).isSome ∨ (consensusState? s k).isSome) := fun hsome => by
    obtain ⟨plan, hplan, rfl⟩ := h k hsome
    exact hk (hpending plan hplan)
  rw [not_or] at hnot
  exact ⟨Option.not_isSome_iff_eq_none.mp hnot.1, Option.not_isSome_iff_eq_none.mp hnot.2⟩

theorem leavesNoOther_iff {s : InMemoryStore} (hsingle : Single s) (hstored : Stored s)
    (c : Call AnyClientState) : LeavesNoOther s c ↔ MeetsOwnHeight s c := by
  cases c with
  | beginBlock => exact Iff.rfl
  | commit => exact Iff.rfl
  | propose plan clientState =>
    constructor
    · intro hleaves hnotPast pending hpending
      rcases scheduleUpgrade_cases s plan with ⟨hpast, -⟩ | ⟨s', hrun, hscheduled⟩
      · exact absurd hnotPast (Nat.not_le_of_lt hpast)
      · by_contra hne
        -- the old plan's client state is still there
        have hgone := (hleaves s' hrun pending.height hne).1
        rw [hscheduled.clientState, if_neg fun hand => hne hand.2] at hgone
        have hthere := hstored pending hpending
        rw [hgone] at hthere
        exact Bool.false_ne_true hthere
    · intro hmeets s' hrun h hne
      rcases scheduleUpgrade_cases s plan with ⟨-, heq⟩ | ⟨t, heq, hscheduled⟩
      · rw [heq] at hrun
        cases (Prod.mk.inj hrun).1
      · obtain rfl : t = s' := (Prod.mk.inj (heq.symm.trans hrun)).2
        have honly := hsingle.onlyAt (hmeets hscheduled.notPast) h hne
        rw [hscheduled.clientState, hscheduled.consensusState, if_neg fun hand => hne hand.2,
          if_neg fun hand => hne hand.2]
        exact honly

/-! ## Over runs -/

theorem single_stored_call {s s' : InMemoryStore} {c : Call AnyClientState}
    {response : Except HostError (List Event)} (hinv : Single s ∧ Stored s)
    (hmeets : MeetsOwnHeight s c) (hcall : call s c = some (response, s')) :
    Single s' ∧ Stored s' := by
  obtain ⟨hsingle, hstored⟩ := hinv
  cases c with
  | commit =>
    obtain ⟨-, rfl⟩ := Prod.mk.inj (Option.some.inj hcall)
    exact ⟨hsingle, hstored⟩
  | beginBlock header =>
    obtain ⟨⟨events, t⟩, hbegin, heq⟩ := Option.map_eq_some_iff.mp hcall
    obtain ⟨-, rfl⟩ := Prod.mk.inj heq
    by_cases htrigger : ∃ plan, Triggers s plan
    · obtain ⟨plan, hplan⟩ := htrigger
      rw [beginBlock_of_triggers header hplan] at hbegin
      obtain ⟨-, rfl⟩ := Prod.mk.inj (Option.some.inj hbegin)
      refine ⟨fun h hsome => ?_, fun p hp => ?_⟩
      · rw [plan?_storeUpgradedConsensusState]
        rw [clientState?_storeUpgradedConsensusState,
          consensusState?_storeUpgradedConsensusState] at hsome
        by_cases hh : h = plan.height
        · exact ⟨plan, hplan.pending, hh.symm⟩
        · rw [if_neg hh] at hsome
          exact hsingle h hsome
      · rw [plan?_storeUpgradedConsensusState] at hp
        rw [clientState?_storeUpgradedConsensusState]
        exact hstored p hp
    · have hready : Ready s := (beginBlock_isSome_iff header).mp (hbegin ▸ rfl)
      rw [beginBlock_of_not_triggers header hready fun plan hplan => htrigger ⟨plan, hplan⟩] at hbegin
      obtain ⟨-, rfl⟩ := Prod.mk.inj (Option.some.inj hbegin)
      exact ⟨hsingle, hstored⟩
  | propose plan clientState =>
    obtain ⟨-, rfl⟩ := Prod.mk.inj (Option.some.inj hcall)
    rcases propose_cases s plan clientState with ⟨-, heq⟩ | ⟨t, heq, hproposed⟩
    · rw [heq]
      exact ⟨hsingle, hstored⟩
    · rw [heq]
      refine ⟨fun h hsome => ⟨plan, hproposed.pending, ?_⟩, fun p hp => ?_⟩
      · -- states elsewhere would be those of the plan replaced, and that has the same height
        by_contra hne
        obtain ⟨hclient, hconsensus⟩ :=
          hsingle.onlyAt (hmeets hproposed.notPast) h fun heq => hne heq.symm
        rw [hproposed.clientState, hproposed.consensusState, if_neg fun heq => hne heq.symm,
          if_neg fun hand => hne hand.2.symm, hclient, hconsensus] at hsome
        exact hsome.elim Bool.false_ne_true Bool.false_ne_true
      · obtain rfl := Option.some.inj (hproposed.pending.symm.trans hp)
        rw [hproposed.clientState, if_pos rfl]
        rfl

/-- **When replacing a plan leaves nothing of the old one.** For every sequence of proposals, blocks
and commits on a new store: each plan that is accepted leaves no state of another height, and the
store describes at most one upgrade at any time, if and only if each plan that is not in the past
meets no pending plan or one of its own height. -/
theorem replaces_iff (calls : List (Call AnyClientState)) :
    (Along call (fun s c => Single s ∧ LeavesNoOther s c) InMemoryStore.default calls ∧
      ∀ responses s, runSteps call InMemoryStore.default calls = some (responses, s) → Single s) ↔
    Along call MeetsOwnHeight InMemoryStore.default calls := by
  have hnew : Single InMemoryStore.default ∧ Stored InMemoryStore.default := by
    refine ⟨fun h hsome => ?_, fun plan hplan => ?_⟩
    · exact hsome.elim (fun h => absurd h Bool.false_ne_true) fun h => absurd h Bool.false_ne_true
    · cases hplan
  have hiff : ∀ (s : InMemoryStore) (c : Call AnyClientState), Single s ∧ Stored s →
      (Single s ∧ LeavesNoOther s c ↔ MeetsOwnHeight s c) := fun s c hinv => by
    rw [leavesNoOther_iff hinv.1 hinv.2, and_iff_right hinv.1]
  have hstep : ∀ (s : InMemoryStore) (c : Call AnyClientState) response s', Single s ∧ Stored s →
      MeetsOwnHeight s c → call s c = some (response, s') → Single s' ∧ Stored s' :=
    fun _ _ _ _ hinv hmeets hcall => single_stored_call hinv hmeets hcall
  rw [along_congr hiff hstep hnew]
  refine and_iff_left_of_imp fun halong responses s hrun => ?_
  exact (halong.invariant hstep hnew hrun).1

end Upgrade

/-! ## A plan that is moved -/

section Moved

local instance movedSha256 : Sha256 := Sha256.ones

local instance movedUpgradeHost : UpgradeHost Nat := .ofEncodable Nat

def planAt (height : RawHeight) : Plan := { name := "v2", height, info := "" }

/-- Moved from height 5 to height 9, the upgrade still has a client state at the old height. -/
theorem moved_leaves_old : ∃ s s',
    runSteps Upgrade.call InMemoryStore.default [.propose (planAt 5) 0] = some ([.ok []], s) ∧
      Upgrade.scheduleUpgrade s (planAt 9) = (.ok (), s') ∧
      Upgrade.clientState? s' 5 = some 0 ∧ ¬ Upgrade.OnlyAt s' (planAt 9).height := by
  rcases Upgrade.propose_cases InMemoryStore.default (planAt 5) 0 with ⟨hpast, -⟩ | ⟨s, heq, hfirst⟩
  · exact absurd hpast (by decide)
  · have hrun : runSteps Upgrade.call InMemoryStore.default [.propose (planAt 5) 0] =
        some ([.ok []], s) := by
      refine runSteps_cons.mpr ⟨_, s, [], ?_, rfl, rfl⟩
      rw [Upgrade.call, heq]
      rfl
    rcases Upgrade.scheduleUpgrade_cases s (planAt 9) with ⟨hpast, -⟩ | ⟨s', hmove, hsecond⟩
    · have hheight : s.currentHeight = 0 := congrArg PrunedVec.originalLength hfirst.base.store
      rw [hheight] at hpast
      exact absurd hpast (Nat.not_lt_zero _)
    · have hold : Upgrade.clientState? s' 5 = some 0 := by
        rw [hsecond.clientState, if_neg fun hand => absurd hand.2 (by decide), hfirst.clientState]
        exact if_pos rfl
      refine ⟨s, s', hrun, hmove, hold, fun honly => ?_⟩
      have hgone := (honly 5 (by decide)).1
      rw [hold] at hgone
      cases hgone

end Moved

end Basecoin
