import Basecoin.Modules.Exact

/-!
# `modules/src/ibc/transfer.rs`: coins that come back

`IbcTransferModule` lends its bank keeper to the token transfer application of `ibc-rs`. The
application is generic in the module, so all it can do to the bank is call the four coin methods;
which one it calls for a packet is a parameter (`TransferApp`), and what is relied on is that a
timeout undoes the send in kind (`RefundsInKind`). The acknowledgement callback is the module's
own, and does nothing: a packet the other chain refused is not refunded unless it carried nothing
(`refund_iff`).

Each coin method is one call of the keeper, with a list of one coin. A pair of them is looked at
before any packet is: an escrow and what takes it out again (`escrow_refund`, or
`escrow_refund_self` where sender and escrow account are one), a burn and a mint (`burn_refund`).
-/

namespace Basecoin

/-! ## The types of `ibc-rs` -/

/-- `Signer`: a newtype around `String`. -/
abbrev Signer := String

/-- `PrefixedCoin`: the denomination as it prints, the amount as a `U256`. -/
structure PrefixedCoin where
  denom : String
  amount : U256
deriving DecidableEq

/-- `Packet`, what the sending chain reads of it. -/
structure Packet where
  portIdOnA : String
  chanIdOnA : String
  data : Bytes
deriving DecidableEq

/-- `Acknowledgement`, as the status its bytes decode to. -/
inductive Acknowledgement where
  | success (result : Bytes)
  | error (text : String)
deriving DecidableEq

inductive ChannelError where
  | appSpecific (description : String)
deriving DecidableEq

/-- The coin methods of `TokenTransferExecutionContext`, as calls; memos are not read. -/
inductive CoinCall where
  | escrow (fromAccount : Signer) (portId channelId : String) (coin : PrefixedCoin)
  | unescrow (toAccount : Signer) (portId channelId : String) (coin : PrefixedCoin)
  | mint (account : Signer) (amt : PrefixedCoin)
  | burn (account : Signer) (amt : PrefixedCoin)
deriving DecidableEq

section Host

variable [Bech32]

/-- What `ibc-rs` and `cosmrs` compute for the module. -/
class TransferHost where
  /-- `cosmos_adr028_escrow_address`. -/
  escrowAddress : String → String → Bytes
  /-- `AccountId::new`. -/
  newAccountId : String → Bytes → Option AccountId
  /-- `TokenTransferError::FailedToParseAccount.to_string()`. -/
  failedToParseAccount : String
  /-- `to_string` of the `TokenTransferError` that a `HostError` becomes. -/
  tokenTransferText : HostError → String

end Host

/-- The transfer application: the call it makes on the module when it sends a packet, and when
the packet times out. -/
class TransferApp where
  sendCall : Packet → CoinCall
  timeoutCall : Packet → CoinCall

namespace Transfer

/-- The list every coin method hands to the keeper. -/
def bankCoins (coin : PrefixedCoin) : List Coin := [{ denom := ⟨coin.denom⟩, amount := coin.amount }]

theorem total_bankCoins (coin : PrefixedCoin) (d : Denom) :
    Coins.total (bankCoins coin) d = if (⟨coin.denom⟩ : Denom) = d then coin.amount.toNat else 0 := rfl

theorem total_bankCoins_zero {coin : PrefixedCoin} (h : coin.amount.toNat = 0) (d : Denom) :
    Coins.total (bankCoins coin) d = 0 := by
  rw [total_bankCoins, h, ite_self]

theorem total_bankCoins_self (coin : PrefixedCoin) :
    Coins.total (bankCoins coin) ⟨coin.denom⟩ = coin.amount.toNat := by
  rw [total_bankCoins, if_pos rfl]

variable [Sha256] [Bech32] [BankHost] [TransferHost]

/-! ## The coin methods -/

def getEscrowAccount (portId channelId : String) : Option AccountId :=
  TransferHost.newAccountId accountPrefix (TransferHost.escrowAddress portId channelId)

/-- Both parse failures end in this error. -/
def parseError : HostError := .other TransferHost.failedToParseAccount

/-- `.unwrap(); Ok(())` on what the keeper answers. -/
def unwrap : Option (Except BankError Unit × InMemoryStore) →
    Option (Except HostError Unit × InMemoryStore)
  | some (.ok (), s) => some (.ok (), s)
  | some (.error _, _) => none
  | none => none

def escrowCoinsExecute (s : InMemoryStore) (fromAccount : Signer) (portId channelId : String)
    (coin : PrefixedCoin) : Option (Except HostError Unit × InMemoryStore) :=
  match AccountId.fromStr fromAccount with
  | none => some (.error parseError, s)
  | some source =>
    match (getEscrowAccount portId channelId).bind fun a => AccountId.fromStr a.toString with
    | none => some (.error parseError, s)
    | some dest => unwrap (Bank.sendCoins s source dest (bankCoins coin))

def unescrowCoinsExecute (s : InMemoryStore) (toAccount : Signer) (portId channelId : String)
    (coin : PrefixedCoin) : Option (Except HostError Unit × InMemoryStore) :=
  match (getEscrowAccount portId channelId).bind fun a => AccountId.fromStr a.toString with
  | none => some (.error parseError, s)
  | some source =>
    match AccountId.fromStr toAccount with
    | none => some (.error parseError, s)
    | some dest => unwrap (Bank.sendCoins s source dest (bankCoins coin))

def mintCoinsExecute (s : InMemoryStore) (account : Signer) (amt : PrefixedCoin) :
    Option (Except HostError Unit × InMemoryStore) :=
  match AccountId.fromStr account with
  | none => some (.error parseError, s)
  | some account => unwrap (Bank.mintCoins s account (bankCoins amt))

def burnCoinsExecute (s : InMemoryStore) (account : Signer) (amt : PrefixedCoin) :
    Option (Except HostError Unit × InMemoryStore) :=
  match AccountId.fromStr account with
  | none => some (.error parseError, s)
  | some account => unwrap (Bank.burnCoins s account (bankCoins amt))

def execute (s : InMemoryStore) : CoinCall → Option (Except HostError Unit × InMemoryStore)
  | .escrow fromAccount portId channelId coin =>
    escrowCoinsExecute s fromAccount portId channelId coin
  | .unescrow toAccount portId channelId coin =>
    unescrowCoinsExecute s toAccount portId channelId coin
  | .mint account amt => mintCoinsExecute s account amt
  | .burn account amt => burnCoinsExecute s account amt

/-! ## One coin -/

section OneCoin

open Bank Coins

omit [TransferHost]

theorem balance_le_max (s : InMemoryStore) (a : AccountId) (d : Denom) :
    balance s a d ≤ 2 ^ 256 - 1 := by
  rw [balance, amount]
  cases find (getAllBalances s a) d with
  | none => exact Nat.zero_le _
  | some x => exact x.toNat_le_max

/-- A transfer leaves an entry with the receiver. -/
theorem hasEntry_of_sendCoins {s s₁ : InMemoryStore} {source dest : AccountId}
    {coin : PrefixedCoin}
    (h : sendCoins s source dest (bankCoins coin) = some (.ok (), s₁)) :
    HasEntry s₁ dest ⟨coin.denom⟩ := by
  obtain ⟨e, he⟩ := sendCoins_eq s source dest (bankCoins coin)
  rw [he] at h
  split at h
  · obtain ⟨-, rfl⟩ := Prod.mk.inj (Option.some.inj h)
    rw [HasEntry, getAllBalances_setBalances, if_pos rfl, put, bankCoins, List.foldl_cons,
      List.foldl_nil, find_putOne, if_pos rfl]
    rfl
  · simp at h

/-- A transfer from an account to itself is a credit. -/
theorem balance_sendCoins_self {s s₁ : InMemoryStore} {a : AccountId} {coins : List Coin}
    (h : sendCoins s a a coins = some (.ok (), s₁)) (d : Denom) :
    balance s₁ a d = balance s a d + total coins d := by
  obtain ⟨e, he⟩ := sendCoins_eq s a a coins
  rw [he] at h
  split at h
  · next hfits =>
    obtain ⟨-, rfl⟩ := Prod.mk.inj (Option.some.inj h)
    rw [balance_setBalances, if_pos rfl, amount_put hfits.2]
    rfl
  · simp at h

theorem sendExact_of_ok {s s₁ : InMemoryStore} {source dest : AccountId} {coins : List Coin}
    (hne : source ≠ dest) (h : sendCoins s source dest coins = some (.ok (), s₁)) :
    SendExact s s₁ source dest coins (.ok ()) := by
  obtain ⟨r, s', hsend, hexact⟩ := sendCoins_exact s hne coins
  rw [h] at hsend
  obtain ⟨rfl, rfl⟩ := Prod.mk.inj (Option.some.inj hsend)
  exact hexact

theorem burnExact_of_ok {s s₁ : InMemoryStore} {account : AccountId} {coins : List Coin}
    (h : burnCoins s account coins = some (.ok (), s₁)) :
    BurnExact s s₁ account coins (.ok ()) := by
  obtain ⟨r, s', hburn, hexact⟩ := burnCoins_exact s account coins
  rw [h] at hburn
  obtain ⟨rfl, rfl⟩ := Prod.mk.inj (Option.some.inj hburn)
  exact hexact

/-- What was escrowed is there to be sent back, and the sender has the room it came from. -/
theorem escrow_refund {s s₁ : InMemoryStore} {source dest : AccountId} {coin : PrefixedCoin}
    (hne : source ≠ dest)
    (hsend : sendCoins s source dest (bankCoins coin) = some (.ok (), s₁)) :
    ∃ s₂, sendCoins s₁ dest source (bankCoins coin) = some (.ok (), s₂) ∧
      ∀ d, balance s₂ source d = balance s source d ∧ balance s₂ dest d = balance s dest d := by
  have hthere := sendExact_of_ok hne hsend
  obtain ⟨r, s₂, hback, hexact⟩ := sendCoins_exact s₁ hne.symm (bankCoins coin)
  have hok : r = .ok () := by
    refine hexact.ok_iff.mpr fun c hc => ?_
    obtain rfl := List.mem_singleton.mp hc
    have hcredited := hthere.credited rfl ⟨coin.denom⟩
    have hdebited := hthere.debited rfl ⟨coin.denom⟩
    -- the sender had this much before, so there is room for it again
    have hmax := balance_le_max s source ⟨coin.denom⟩
    dsimp only
    exact ⟨hasEntry_of_sendCoins hsend, by omega, by omega⟩
  subst hok
  refine ⟨s₂, hback, fun d => ?_⟩
  have hcredited := hthere.credited rfl d
  have hdebited := hthere.debited rfl d
  have hcredited' := hexact.credited rfl d
  have hdebited' := hexact.debited rfl d
  omega

/-- An account that escrowed its own coins is credited twice. -/
theorem escrow_refund_self {s s₁ : InMemoryStore} {a : AccountId} {coin : PrefixedCoin}
    (hsend : sendCoins s a a (bankCoins coin) = some (.ok (), s₁)) :
    (∃ s₂, sendCoins s₁ a a (bankCoins coin) = some (.ok (), s₂) ∧
      ∀ d, balance s₂ a d = balance s a d) ↔ coin.amount.toNat = 0 := by
  have hthere := balance_sendCoins_self hsend
  constructor
  · rintro ⟨s₂, hback, h⟩
    have hd := balance_sendCoins_self hback ⟨coin.denom⟩
    rw [hthere, h, total_bankCoins_self] at hd
    omega
  · intro hzero
    obtain ⟨e, he⟩ := sendCoins_eq s₁ a a (bankCoins coin)
    have hfits : Covers (getAllBalances s₁ a) (bankCoins coin) ∧
        HasRoom (getAllBalances s₁ a) (bankCoins coin) := by
      rw [covers_iff, hasRoom_iff]
      constructor
      · intro c hc
        obtain rfl := List.mem_singleton.mp hc
        rw [total_bankCoins_zero hzero]
        exact ⟨hasEntry_of_sendCoins hsend, Nat.zero_le _⟩
      · intro c _
        rw [total_bankCoins_zero hzero]
        exact balance_le_max s₁ a c.denom
    have hback := he.trans (if_pos hfits)
    refine ⟨_, hback, fun d => ?_⟩
    rw [balance_sendCoins_self hback, hthere, total_bankCoins_zero hzero, Nat.add_zero]

/-- What was burned can be minted again. -/
theorem burn_refund {s s₁ : InMemoryStore} {source : AccountId} {coin : PrefixedCoin}
    (hburn : burnCoins s source (bankCoins coin) = some (.ok (), s₁)) :
    ∃ s₂, mintCoins s₁ source (bankCoins coin) = some (.ok (), s₂) ∧
      ∀ a d, balance s₂ a d = balance s a d := by
  have hthere := burnExact_of_ok hburn
  obtain ⟨r, s₂, hmint, hexact⟩ := mintCoins_exact s₁ source (bankCoins coin)
  have hok : r = .ok () := by
    refine hexact.ok_iff.mpr fun c _ => ?_
    rw [hthere.removed rfl]
    exact balance_le_max s source c.denom
  subst hok
  refine ⟨s₂, hmint, fun a d => ?_⟩
  rcases eq_or_ne a source with rfl | hne
  · rw [hexact.added rfl, hthere.removed rfl]
  · rw [balance, hexact.others a hne, hthere.others a hne, balance]

end OneCoin

/-! ## What the methods do when they go through -/

section Methods

open Bank Coins

omit [Sha256] [BankHost] in
/-- Printing the escrow account and parsing it again changes nothing. -/
theorem parse_escrowAccount (portId channelId : String) :
    ((getEscrowAccount portId channelId).bind fun a => AccountId.fromStr a.toString) =
      getEscrowAccount portId channelId := by
  cases getEscrowAccount portId channelId with
  | none => rfl
  | some a => exact AccountId.fromStr_toString a

omit [BankHost] [TransferHost] in
theorem unwrap_ok_iff {r : Option (Except BankError Unit × InMemoryStore)} {s : InMemoryStore} :
    unwrap r = some (.ok (), s) ↔ r = some (.ok (), s) := by
  match r with
  | none => simp [unwrap]
  | some (.error _, _) => simp [unwrap]
  | some (.ok _, t) => simp [unwrap]

theorem escrow_ok {s s₁ : InMemoryStore} {sender : Signer} {portId channelId : String}
    {coin : PrefixedCoin}
    (h : escrowCoinsExecute s sender portId channelId coin = some (.ok (), s₁)) :
    ∃ source dest, AccountId.fromStr sender = some source ∧
      getEscrowAccount portId channelId = some dest ∧
      sendCoins s source dest (bankCoins coin) = some (.ok (), s₁) := by
  unfold escrowCoinsExecute at h
  rw [parse_escrowAccount] at h
  cases hsource : AccountId.fromStr sender with
  | none =>
    rw [hsource] at h
    simp at h
  | some source =>
    rw [hsource] at h
    cases hdest : getEscrowAccount portId channelId with
    | none =>
      rw [hdest] at h
      simp at h
    | some dest =>
      rw [hdest] at h
      exact ⟨source, dest, rfl, rfl, unwrap_ok_iff.mp h⟩

theorem unescrow_eq {sender : Signer} {portId channelId : String} {source dest : AccountId}
    (hdest : AccountId.fromStr sender = some dest)
    (hsource : getEscrowAccount portId channelId = some source) (s : InMemoryStore)
    (coin : PrefixedCoin) :
    unescrowCoinsExecute s sender portId channelId coin =
      unwrap (sendCoins s source dest (bankCoins coin)) := by
  unfold unescrowCoinsExecute
  rw [parse_escrowAccount, hsource, hdest]

theorem burn_ok {s s₁ : InMemoryStore} {sender : Signer} {coin : PrefixedCoin}
    (h : burnCoinsExecute s sender coin = some (.ok (), s₁)) :
    ∃ source, AccountId.fromStr sender = some source ∧
      burnCoins s source (bankCoins coin) = some (.ok (), s₁) := by
  unfold burnCoinsExecute at h
  cases hsource : AccountId.fromStr sender with
  | none =>
    rw [hsource] at h
    simp at h
  | some source =>
    rw [hsource] at h
    exact ⟨source, rfl, unwrap_ok_iff.mp h⟩

/-- The sender and the escrow account of the packet hold what they held. -/
def Restored (s s' : InMemoryStore) (packet : Packet) (sender : Signer) : Prop :=
  ∀ a, (AccountId.fromStr sender = some a ∨
      getEscrowAccount packet.portIdOnA packet.chanIdOnA = some a) →
    ∀ d, balance s' a d = balance s a d

/-- Restoring the two accounts, when they are known. -/
theorem restored_iff {s s' : InMemoryStore} {packet : Packet} {sender : Signer}
    {source dest : AccountId} (hsource : AccountId.fromStr sender = some source)
    (hdest : getEscrowAccount packet.portIdOnA packet.chanIdOnA = some dest) :
    Restored s s' packet sender ↔
      ∀ d, balance s' source d = balance s source d ∧ balance s' dest d = balance s dest d := by
  constructor
  · intro h d
    exact ⟨h source (.inl hsource) d, h dest (.inr hdest) d⟩
  · rintro h a (ha | ha) d
    · obtain rfl := Option.some.inj (hsource.symm.trans ha)
      exact (h d).1
    · obtain rfl := Option.some.inj (hdest.symm.trans ha)
      exact (h d).2

end Methods

/-! ## The callbacks -/

/-- `on_acknowledgement_packet_execute`, which reads none of its arguments. -/
def onAcknowledgementPacketExecute (s : InMemoryStore) (_packet : Packet)
    (_acknowledgement : Acknowledgement) : Option (Except ChannelError Unit × InMemoryStore) :=
  some (.ok (), s)

variable [TransferApp]

/-- `send_transfer`, for the packet it sends. -/
def sendTransfer (s : InMemoryStore) (packet : Packet) :
    Option (Except HostError Unit × InMemoryStore) :=
  execute s (TransferApp.sendCall packet)

/-- `on_timeout_packet_execute`; events and log are left out. -/
def onTimeoutPacketExecute (s : InMemoryStore) (packet : Packet) :
    Option (Except ChannelError Unit × InMemoryStore) :=
  (execute s (TransferApp.timeoutCall packet)).map fun
    | (.ok (), s) => (.ok (), s)
    | (.error e, s) => (.error (.appSpecific (TransferHost.tokenTransferText e)), s)

/-- Documented of the application: it sends a packet by escrowing or by burning its coin, and when
the packet times out unescrows or mints it to the sender. -/
def RefundsInKind (packet : Packet) (sender : Signer) (coin : PrefixedCoin) : Prop :=
  (TransferApp.sendCall packet = .escrow sender packet.portIdOnA packet.chanIdOnA coin ∧
    TransferApp.timeoutCall packet = .unescrow sender packet.portIdOnA packet.chanIdOnA coin) ∨
  (TransferApp.sendCall packet = .burn sender coin ∧
    TransferApp.timeoutCall packet = .mint sender coin)

/-! ## What comes back -/

open Bank Coins

/-- The packet escrowed coins of the escrow account itself. -/
def EscrowsItself (packet : Packet) (sender : Signer) (coin : PrefixedCoin) : Prop :=
  TransferApp.sendCall packet = .escrow sender packet.portIdOnA packet.chanIdOnA coin ∧
    ∃ a, AccountId.fromStr sender = some a ∧
      getEscrowAccount packet.portIdOnA packet.chanIdOnA = some a

/-- A send moves the sender's balance, unless there was nothing to send. -/
theorem restored_send_iff {packet : Packet} {sender : Signer} {coin : PrefixedCoin}
    (hkind : RefundsInKind packet sender coin) {s s₁ : InMemoryStore}
    (hsend : sendTransfer s packet = some (.ok (), s₁)) :
    Restored s s₁ packet sender ↔ coin.amount.toNat = 0 := by
  rw [sendTransfer] at hsend
  rcases hkind with ⟨hcall, -⟩ | ⟨hcall, -⟩
  · rw [hcall] at hsend
    obtain ⟨source, dest, hsource, hdest, hsend⟩ := escrow_ok hsend
    rw [restored_iff hsource hdest]
    -- to itself the account gains what it sends; to another it loses it
    rcases eq_or_ne source dest with rfl | hne
    · have hself := balance_sendCoins_self hsend
      constructor
      · intro h
        have hd := (h ⟨coin.denom⟩).1
        rw [hself, total_bankCoins_self] at hd
        omega
      · intro h d
        rw [hself, total_bankCoins_zero h]
        exact ⟨rfl, rfl⟩
    · have hexact := sendExact_of_ok hne hsend
      constructor
      · intro h
        have hd := hexact.debited rfl ⟨coin.denom⟩
        rw [(h _).1, total_bankCoins_self] at hd
        omega
      · intro h d
        have hdebited := hexact.debited rfl d
        have hcredited := hexact.credited rfl d
        rw [total_bankCoins_zero h] at hdebited hcredited
        exact ⟨hdebited, hcredited⟩
  · rw [hcall] at hsend
    obtain ⟨source, hsource, hburn⟩ := burn_ok hsend
    have hexact := burnExact_of_ok hburn
    constructor
    · intro h
      have hd := hexact.removed rfl ⟨coin.denom⟩
      rw [h source (.inl hsource), total_bankCoins_self] at hd
      omega
    · intro h a _ d
      rcases eq_or_ne a source with rfl | hne
      · have hd := hexact.removed rfl d
        rw [total_bankCoins_zero h] at hd
        exact hd
      · rw [balance, hexact.others a hne, balance]

theorem onTimeout_ok_iff {s s₂ : InMemoryStore} {packet : Packet} :
    onTimeoutPacketExecute s packet = some (.ok (), s₂) ↔
      execute s (TransferApp.timeoutCall packet) = some (.ok (), s₂) := by
  rw [onTimeoutPacketExecute]
  match execute s (TransferApp.timeoutCall packet) with
  | none => simp
  | some (.error _, _) => simp
  | some (.ok _, _) => simp

/-- Unescrowing undoes an escrow between two accounts, minting a burn; an account that escrows its
own coins is credited on both ways. -/
theorem timeout_restores_iff {packet : Packet} {sender : Signer} {coin : PrefixedCoin}
    (hkind : RefundsInKind packet sender coin) {s s₁ : InMemoryStore}
    (hsend : sendTransfer s packet = some (.ok (), s₁)) :
    (∃ s₂, onTimeoutPacketExecute s₁ packet = some (.ok (), s₂) ∧
      Restored s s₂ packet sender) ↔
      coin.amount.toNat = 0 ∨ ¬ EscrowsItself packet sender coin := by
  rw [sendTransfer] at hsend
  simp only [onTimeout_ok_iff]
  rcases hkind with ⟨hcall, htimeout⟩ | ⟨hcall, htimeout⟩
  · rw [hcall] at hsend
    obtain ⟨source, dest, hsource, hdest, hsend⟩ := escrow_ok hsend
    simp only [htimeout, execute, unescrow_eq hsource hdest, unwrap_ok_iff,
      restored_iff hsource hdest]
    rcases eq_or_ne source dest with rfl | hne
    · have hitself : EscrowsItself packet sender coin := ⟨hcall, source, hsource, hdest⟩
      simp only [hitself, not_true, or_false, and_self]
      exact escrow_refund_self hsend
    · have hnot : ¬ EscrowsItself packet sender coin := by
        rintro ⟨-, a, ha, ha'⟩
        have hsa := Option.some.inj (hsource.symm.trans ha)
        have hda := Option.some.inj (hdest.symm.trans ha')
        exact hne (hsa.trans hda.symm)
      simp only [hnot, not_false_eq_true, or_true, iff_true]
      exact escrow_refund hne hsend
  · rw [hcall] at hsend
    obtain ⟨source, hsource, hburn⟩ := burn_ok hsend
    have hnot : ¬ EscrowsItself packet sender coin := by
      rintro ⟨h, -⟩
      rw [hcall] at h
      cases h
    obtain ⟨s₂, hmint, hrestored⟩ := burn_refund hburn
    simp only [hnot, not_false_eq_true, or_true, iff_true]
    refine ⟨s₂, ?_, fun a _ d => hrestored a d⟩
    rw [htimeout, execute, mintCoinsExecute, hsource]
    exact unwrap_ok_iff.mpr hmint

/-- What comes back of a packet that was sent. A success moves nothing; a timeout undoes the send
unless the escrow account sent its own coins; an error acknowledgement undoes the send of nothing
only. -/
theorem refund_iff {packet : Packet} {sender : Signer} {coin : PrefixedCoin}
    (hkind : RefundsInKind packet sender coin) {s s₁ : InMemoryStore}
    (hsend : sendTransfer s packet = some (.ok (), s₁)) :
    (∀ result, ∃ s₂,
      onAcknowledgementPacketExecute s₁ packet (.success result) = some (.ok (), s₂) ∧
        ∀ a d, balance s₂ a d = balance s₁ a d) ∧
    (∀ text, (∃ s₂,
      onAcknowledgementPacketExecute s₁ packet (.error text) = some (.ok (), s₂) ∧
        Restored s s₂ packet sender) ↔ coin.amount.toNat = 0) ∧
    ((∃ s₂, onTimeoutPacketExecute s₁ packet = some (.ok (), s₂) ∧
        Restored s s₂ packet sender) ↔
      coin.amount.toNat = 0 ∨ ¬ EscrowsItself packet sender coin) := by
  refine ⟨fun result => ⟨s₁, rfl, fun a d => rfl⟩, fun text => ?_,
    timeout_restores_iff hkind hsend⟩
  rw [← restored_send_iff hkind hsend]
  constructor
  · rintro ⟨s₂, hack, hrestored⟩
    cases hack
    exact hrestored
  · intro hrestored
    exact ⟨s₁, rfl, hrestored⟩

end Transfer

/-! ## Five coins sent -/

section FiveCoins

open Bank Coins Transfer

local instance fiveBech32 : Bech32 := Bech32.any

local instance fiveSha256 : Sha256 := Sha256.ones

local instance fiveBankHost : BankHost :=
  { codec := Codec.ofEncodable _
    decodeMsgSend := fun _ => none
    parseAmount := fun _ => none }

def fiveSender : AccountId := (AccountId.fromStr aliceAddress).get rfl

/-- The account of `transfer/channel-0`. -/
def fiveEscrow : AccountId :=
  (AccountId.fromStr "cosmos1a53udazy8ayufvy0s434pfwjcedzqv34kvz9tw").get rfl

local instance fiveTransferHost : TransferHost :=
  { escrowAddress := fun _ _ => []
    newAccountId := fun _ _ => some fiveEscrow
    failedToParseAccount := "failed to parse account ID"
    tokenTransferText := fun
      | .invalidState description => description
      | .missingState description => description
      | .other description => description }

def fiveCoins : PrefixedCoin := ⟨"basecoin", ⟨5, by omega⟩⟩

def fivePacket : Packet := ⟨"transfer", "channel-0", []⟩

local instance fiveTransferApp : TransferApp :=
  { sendCall := fun packet =>
      .escrow aliceAddress packet.portIdOnA packet.chanIdOnA fiveCoins
    timeoutCall := fun packet =>
      .unescrow aliceAddress packet.portIdOnA packet.chanIdOnA fiveCoins }

/-- Alice holds the five coins and nobody else holds any. -/
def fiveHeld : InMemoryStore := setBalances InMemoryStore.default fiveSender (bankCoins fiveCoins)

theorem fivePacket_refundsInKind : RefundsInKind fivePacket aliceAddress fiveCoins :=
  .inl ⟨rfl, rfl⟩

theorem fivePacket_sent : ∃ s₁, sendTransfer fiveHeld fivePacket = some (.ok (), s₁) := by
  have hsender : getAllBalances fiveHeld fiveSender = bankCoins fiveCoins := by
    rw [fiveHeld, getAllBalances_setBalances, if_pos rfl]
  have hescrow : getAllBalances fiveHeld fiveEscrow = [] := by
    rw [fiveHeld, getAllBalances_setBalances, if_neg (by decide)]
    rfl
  obtain ⟨e, he⟩ := sendCoins_eq fiveHeld fiveSender fiveEscrow (bankCoins fiveCoins)
  have hfits : Covers (getAllBalances fiveHeld fiveSender) (bankCoins fiveCoins) ∧
      HasRoom (getAllBalances fiveHeld fiveEscrow) (bankCoins fiveCoins) := by
    rw [hsender, hescrow]
    decide
  have hsend : sendTransfer fiveHeld fivePacket =
      unwrap (sendCoins fiveHeld fiveSender fiveEscrow (bankCoins fiveCoins)) := rfl
  rw [he, if_pos hfits] at hsend
  exact ⟨_, hsend⟩

/-- The timeout refunds the packet. -/
theorem refund_iff_five : ∃ s₁, sendTransfer fiveHeld fivePacket = some (.ok (), s₁) ∧
    ((∃ s₂, onTimeoutPacketExecute s₁ fivePacket = some (.ok (), s₂) ∧
        Restored fiveHeld s₂ fivePacket aliceAddress) ↔
      (5 : Nat) = 0 ∨ ¬ EscrowsItself fivePacket aliceAddress fiveCoins) := by
  obtain ⟨s₁, hsend⟩ := fivePacket_sent
  exact ⟨s₁, hsend, (refund_iff fivePacket_refundsInKind hsend).2.2⟩

/-- An error acknowledgement leaves the coins with the escrow account. -/
theorem error_not_refunded : RefundsInKind fivePacket aliceAddress fiveCoins ∧
    ∃ s₁, sendTransfer fiveHeld fivePacket = some (.ok (), s₁) ∧
      ¬ ∃ s₂, onAcknowledgementPacketExecute s₁ fivePacket (.error "ABCI code: 1") =
          some (.ok (), s₂) ∧
        Restored fiveHeld s₂ fivePacket aliceAddress := by
  obtain ⟨s₁, hsend⟩ := fivePacket_sent
  refine ⟨fivePacket_refundsInKind, s₁, hsend, ?_⟩
  rintro ⟨s₂, hack, hrestored⟩
  cases hack
  have hzero := (restored_send_iff fivePacket_refundsInKind hsend).mp hrestored
  exact absurd hzero (by decide)

end FiveCoins

end Basecoin
