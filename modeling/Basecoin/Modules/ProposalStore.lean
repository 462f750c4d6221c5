import Basecoin.Modules.Governance

/-!
# What is read back from the proposal store

The store holds the `Any` of a proposal, and that the bytes of its `RawProposal`. Both layers of
bytes come back as they were, so what is read is what the conversion of `RawProposal` makes of it:
the proposal without its times. That is also what a later `set` converts and drops, so that it can be
left out of the model of the module (`replaced_converts`).

The conversion could panic, on a deposit or a content that is missing. It never meets one: whatever
is under the key was put there by `set`, over any number of resets and commits, so it is the `Any` of
a proposal (`Converts`).
-/

namespace Basecoin

open Lib

section ProposalStore

variable [Sha256] [Bech32] [U256Text] {R MsgRecoverClient : Type} [GovHost MsgRecoverClient]

omit [Sha256] in
/-- Through an `Any` and back. -/
theorem Proposal.tryFromAny_toAny [BankHost] (h : U256Text.Documented) (p : Proposal) :
    tryFromAny p.toAny = some (.ok p.timeless) := by
  rw [tryFromAny, toAny, if_pos rfl, Codec.decode_encode]
  dsimp only
  rw [tryFromRaw_toRaw h]
  rfl

namespace Governance

/-- Through the store and back. -/
theorem getProposal_setProposal [BankHost] (h : U256Text.Documented) (store : StoreRef)
    (p : Proposal) (w : World (Memory R)) :
    ∃ w', (setProposal store p).run w = some ((), w') ∧
      getProposal (w'.stores store) .pending = some (some p.timeless) := by
  refine ⟨_, run_setProposal store p w, ?_⟩
  rw [World.modify_self, getProposal, proposalStore.get_set, if_pos rfl]
  dsimp only
  rw [Proposal.tryFromAny_toAny h]
  rfl

/-- A proposal comes back as it was, from each of the three. -/
structure Survives (p : Proposal) : Prop where
  raw : Proposal.tryFromRaw p.toRaw = some (.ok p)
  any : Proposal.tryFromAny p.toAny = some (.ok p)
  stored : ∀ (store : StoreRef) (w : World (Memory R)), ∃ w',
    (setProposal store p).run w = some ((), w') ∧
      getProposal (w'.stores store) .pending = some (some p)

/-- **Which proposals survive storage.** Those without times. -/
theorem survives_iff [BankHost] (h : U256Text.Documented) (p : Proposal) :
    Survives (R := R) p ↔ p.Timeless := by
  rw [← Proposal.timeless_eq_self_iff]
  constructor
  · intro hsurvives
    have hraw := (Proposal.tryFromRaw_toRaw h p).symm.trans hsurvives.raw
    exact Except.ok.inj (Option.some.inj hraw)
  · intro heq
    have hraw := Proposal.tryFromRaw_toRaw h p
    have hany := Proposal.tryFromAny_toAny h p
    have hstored := fun store w => getProposal_setProposal (R := R) h store p w
    simp only [heq] at hraw hany hstored
    exact ⟨hraw, hany, hstored⟩

/-! ## What a new proposal replaces -/

/-- `self.proposal.set`, with what it answers: the proposal it replaces is converted too, and `none`
is a panic of the conversion. -/
def replaceProposal (s : InMemoryStore) (proposal : Proposal) :
    Option (Option Proposal × InMemoryStore) :=
  (getProposal s .pending).map fun replaced =>
    (replaced, (proposalStore.set s sdkPath proposal.toAny).2)

/-- What the application does to the store of the module. -/
inductive StoreStep where
  | set (proposal : Proposal)
  | apply
  | reset
  | commit

/-- One step, where a proposal is set and what it replaces looked at or not. -/
def StoreStep.exec (looks : Bool) (s : InMemoryStore) : StoreStep → Option (Unit × InMemoryStore)
  | .set proposal =>
    if looks then (replaceProposal s proposal).map fun r => ((), r.2)
    else some ((), (proposalStore.set s sdkPath proposal.toAny).2)
  | .apply => some ((), s.apply)
  | .reset => some ((), s.reset)
  | .commit => some ((), s.commit.2)

/-- What is there to be replaced converts, and what a reset would bring back too. -/
structure Converts (s : InMemoryStore) : Prop where
  pending : (getProposal s .pending).isSome
  staged : (getProposal s.reset .pending).isSome

theorem converts_default : Converts InMemoryStore.default := ⟨rfl, rfl⟩

/-- A step sets proposals only, and these come back without their times. -/
theorem Converts.exec [BankHost] (h : U256Text.Documented) {s : InMemoryStore} (hs : Converts s)
    (looks : Bool) (step : StoreStep) :
    ∃ s', step.exec looks s = some ((), s') ∧ step.exec false s = some ((), s') ∧ Converts s' := by
  cases step with
  | set proposal =>
    refine ⟨(proposalStore.set s sdkPath proposal.toAny).2, ?_, rfl, ?_, hs.staged⟩
    · cases looks with
      | false => rfl
      | true =>
        obtain ⟨replaced, hreplaced⟩ := Option.isSome_iff_exists.mp hs.pending
        rw [StoreStep.exec, if_pos rfl, replaceProposal, hreplaced]
        rfl
    · rw [getProposal, proposalStore.get_set, if_pos rfl]
      dsimp only
      rw [Proposal.tryFromAny_toAny h]
      rfl
  | apply => exact ⟨s.apply, rfl, rfl, hs.pending, hs.pending⟩
  | reset => exact ⟨s.reset, rfl, rfl, hs.staged, hs.staged⟩
  | commit => exact ⟨s.commit.2, rfl, rfl, hs.pending, hs.pending⟩

/-- **What a proposal replaces can be left out.** Whatever steps a fresh store of the module goes
through, the conversion of a replaced proposal never panics and changes nothing. -/
theorem replaced_converts [BankHost] (h : U256Text.Documented) (steps : List StoreStep) :
    runSteps (StoreStep.exec true) InMemoryStore.default steps =
        runSteps (StoreStep.exec false) InMemoryStore.default steps ∧
      (runSteps (StoreStep.exec true) InMemoryStore.default steps).isSome := by
  suffices hall : ∀ (steps : List StoreStep) (s : InMemoryStore), Converts s →
      ∃ os s', runSteps (StoreStep.exec true) s steps = some (os, s') ∧
        runSteps (StoreStep.exec false) s steps = some (os, s') by
    obtain ⟨os, s', hlooks, hblind⟩ := hall steps _ converts_default
    exact ⟨hlooks.trans hblind.symm, Option.isSome_iff_exists.mpr ⟨_, hlooks⟩⟩
  intro steps
  induction steps with
  | nil => exact fun s _ => ⟨[], s, rfl, rfl⟩
  | cons step steps ih =>
    intro s hs
    obtain ⟨s₁, hlooks, hblind, hs₁⟩ := hs.exec h true step
    obtain ⟨os, s', hlooks', hblind'⟩ := ih s₁ hs₁
    exact ⟨_, s', runSteps_cons.mpr ⟨_, s₁, os, hlooks, hlooks', rfl⟩,
      runSteps_cons.mpr ⟨_, s₁, os, hblind, hblind', rfl⟩⟩

end Governance

end ProposalStore

/-! ## A proposal with a time -/

section Timed

local instance timedSha256 : Sha256 := Sha256.ones

local instance timedBech32 : Bech32 := hundredBech32

local instance timedBankHost : BankHost := hundredBankHost

local instance timedU256Text : U256Text := hundredU256Text

local instance timedGovHost : GovHost Unit := emptyGovHost

def timedProposal : Proposal :=
  { proposalId := 0
    content := ⟨"/ibc.core.client.v1.UpgradeProposal", []⟩
    status := .votingPeriod
    finalTallyResult := none
    submitTime := some ⟨1, 0⟩
    depositEndTime := none
    totalDeposit := ⟨⟨"basecoin"⟩, ⟨100, by omega⟩⟩
    votingStartTime := none
    votingEndTime := none }

/-- It comes back without. -/
theorem timed_not_kept :
    Proposal.tryFromRaw timedProposal.toRaw = some (.ok { timedProposal with submitTime := none }) ∧
      Proposal.tryFromRaw timedProposal.toRaw ≠ some (.ok timedProposal) := by
  decide +kernel

theorem survives_iff_timed :
    Governance.Survives (R := Unit) timedProposal ↔ timedProposal.Timeless :=
  Governance.survives_iff documented_hundred timedProposal

end Timed

end Basecoin
