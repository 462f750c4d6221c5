import Basecoin.Modules.Amounts

/-!
# `modules/src/gov/proposal.rs`

A `Proposal` is stored as a `RawProposal`, by two conversions written field by field. The encoder
copies every field; the decoder sets the four times to `None`, whatever came. So a proposal comes
back without its times (`tryFromRaw_toRaw`), which is all that is lost: the status goes through its
number, and the deposit through decimal text.

The decoder also takes more for granted than it reports. A deposit that is missing or that is not
a coin, and a content that is missing, are panics; a status outside the enumeration is an error.
None of this happens to what the encoder made.
-/

namespace Basecoin

/-- `google::protobuf::Timestamp`. -/
structure ProtoTimestamp where
  seconds : Int64
  nanos : Int32
deriving DecidableEq

structure TallyResult where
  yes : String
  abstain : String
  no : String
  noWithVeto : String
deriving DecidableEq

inductive ProposalStatus where
  | unspecified
  | depositPeriod
  | votingPeriod
  | passed
  | rejected
  | failed
deriving DecidableEq

/-- The number of a status in a `RawProposal`. -/
def ProposalStatus.toRaw : ProposalStatus → Int
  | unspecified => 0
  | depositPeriod => 1
  | votingPeriod => 2
  | passed => 3
  | rejected => 4
  | failed => 5

def ProposalStatus.ofRaw : Int → Option ProposalStatus
  | 0 => some unspecified
  | 1 => some depositPeriod
  | 2 => some votingPeriod
  | 3 => some passed
  | 4 => some rejected
  | 5 => some failed
  | _ => none

/-- The numbers fit an `i32`. -/
theorem ProposalStatus.ofRaw_toRaw (status : ProposalStatus) :
    ofRaw (Int32.ofInt status.toRaw).toInt = some status := by
  cases status <;> rfl

structure Proposal where
  proposalId : UInt64
  content : Any
  status : ProposalStatus
  finalTallyResult : Option TallyResult
  submitTime : Option ProtoTimestamp
  depositEndTime : Option ProtoTimestamp
  totalDeposit : Coin
  votingStartTime : Option ProtoTimestamp
  votingEndTime : Option ProtoTimestamp
deriving DecidableEq

/-- `ibc_proto::cosmos::gov::v1beta1::Proposal`. -/
structure RawProposal where
  proposalId : UInt64
  content : Option Any
  status : Int32
  finalTallyResult : Option TallyResult
  submitTime : Option ProtoTimestamp
  depositEndTime : Option ProtoTimestamp
  totalDeposit : List ProtoCoin
  votingStartTime : Option ProtoTimestamp
  votingEndTime : Option ProtoTimestamp
deriving DecidableEq

/-- `gov::Error`, as far as proposals raise it. -/
inductive GovError where
  | invalidProposal (reason : String)
deriving DecidableEq

def GovError.toString : GovError → String
  | invalidProposal reason => "invalid proposal: `" ++ reason ++ "`"

/-! ## Countable, to run the model with -/

instance encodableAny : Encodable Any :=
  Encodable.ofLeftInverse (fun a : Any => (a.typeUrl, a.value)) (fun r => ⟨r.1, r.2⟩) fun _ => rfl

instance encodableProtoCoin : Encodable ProtoCoin :=
  Encodable.ofLeftInverse (fun c : ProtoCoin => (c.denom, c.amount)) (fun r => ⟨r.1, r.2⟩)
    fun _ => rfl

instance encodableProtoTimestamp : Encodable ProtoTimestamp :=
  Encodable.ofLeftInverse (fun t : ProtoTimestamp => (t.seconds.toInt, t.nanos.toInt))
    (fun r => ⟨Int64.ofInt r.1, Int32.ofInt r.2⟩) fun t => by
      rw [Int64.ofInt_toInt, Int32.ofInt_toInt]

instance encodableTallyResult : Encodable TallyResult :=
  Encodable.ofLeftInverse (fun t : TallyResult => (t.yes, t.abstain, t.no, t.noWithVeto))
    (fun r => ⟨r.1, r.2.1, r.2.2.1, r.2.2.2⟩) fun _ => rfl

instance encodableRawProposal : Encodable RawProposal :=
  Encodable.ofLeftInverse
    (fun p : RawProposal => ((p.proposalId, p.content, p.status.toInt, p.finalTallyResult),
      (p.submitTime, p.depositEndTime, p.totalDeposit, p.votingStartTime, p.votingEndTime)))
    (fun r => ⟨r.1.1, r.1.2.1, Int32.ofInt r.1.2.2.1, r.1.2.2.2, r.2.1, r.2.2.1, r.2.2.2.1,
      r.2.2.2.2.1, r.2.2.2.2.2⟩) fun p => by
      rw [Int32.ofInt_toInt]

/-! ## The conversions -/

namespace Proposal

variable [Bech32] [U256Text]

/-- `TryFrom<RawProposal>`; `none` is the index into an empty deposit, the `unwrap` of one that is
not a coin, or that of a missing content. -/
def tryFromRaw (raw : RawProposal) : Option (Except GovError Proposal) :=
  match raw.totalDeposit with
  | [] => none
  | deposit :: _ =>
    match Coin.tryFromProto deposit with
    | .error _ => none
    | .ok totalDeposit =>
      match ProposalStatus.ofRaw raw.status.toInt with
      | none => some (.error (.invalidProposal "invalid status"))
      | some status => raw.content.map fun content =>
        .ok
          { proposalId := raw.proposalId
            content
            status
            finalTallyResult := raw.finalTallyResult
            submitTime := none
            depositEndTime := none
            totalDeposit
            votingStartTime := none
            votingEndTime := none }

omit [Bech32] in
/-- `From<Proposal> for RawProposal`. -/
def toRaw (value : Proposal) : RawProposal :=
  { proposalId := value.proposalId
    content := some value.content
    status := Int32.ofInt value.status.toRaw
    finalTallyResult := value.finalTallyResult
    submitTime := value.submitTime
    depositEndTime := value.depositEndTime
    totalDeposit := [ProtoCoin.ofCoin value.totalDeposit]
    votingStartTime := value.votingStartTime
    votingEndTime := value.votingEndTime }

/-! ## What comes back -/

/-- The proposal without its times. -/
def timeless (p : Proposal) : Proposal :=
  { p with submitTime := none, depositEndTime := none, votingStartTime := none,
           votingEndTime := none }

/-- It has none. -/
def Timeless (p : Proposal) : Prop :=
  p.submitTime = none ∧ p.depositEndTime = none ∧ p.votingStartTime = none ∧ p.votingEndTime = none

omit [Bech32] [U256Text] in
theorem timeless_eq_self_iff {p : Proposal} : p.timeless = p ↔ p.Timeless := by
  constructor
  · intro h
    rw [← h]
    exact ⟨rfl, rfl, rfl, rfl⟩
  · cases p
    rintro ⟨rfl, rfl, rfl, rfl⟩
    rfl

/-- **Through a `RawProposal` and back.** -/
theorem tryFromRaw_toRaw [BankHost] (h : U256Text.Documented) (p : Proposal) :
    tryFromRaw p.toRaw = some (.ok p.timeless) := by
  simp only [tryFromRaw, toRaw, Coin.tryFromProto_ofCoin h, ProposalStatus.ofRaw_toRaw,
    Option.map_some]
  rfl

end Proposal

end Basecoin
