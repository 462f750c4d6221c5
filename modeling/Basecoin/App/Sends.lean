import Basecoin.App.Accounts
import Basecoin.Modules.Amounts

/-!
# A transaction of transfers

Which transactions of `MsgSend`s `deliver_tx` accepts, and what they leave behind. On the books the
transfers are made one after the other, each counted for the signer first (`Books.sends`). Message
by message the modules do the same (`deliverMsg_send`), so the transaction succeeds if and only if
the books allow all of its transfers, each where its turn comes (`sends_atomic`).

The books are read twice, from the pending stores and from the staged ones, since a transaction
that fails goes back to what was staged and not to what it found. Once a transaction has been
delivered the two are the same, but not right after genesis, whose writes are pending only. A
`MsgSend` goes from the auth module, which counts it, to the bank, and the bank leaves it to nobody:
what the other modules would do with one is never looked at.
-/

namespace Basecoin

open Lib Coins

section Books

variable [Bech32] [BankHost]

/-- A transfer of the signer's, counted and made. -/
def Books.signedSend (self : Books) (signer : AccountId) (message : MsgSend) : Option Books :=
  (self.sign signer).bind (·.send message)

/-- The transfers one after the other; `none` if one of them is refused. -/
def Books.sends (self : Books) (signer : AccountId) (messages : List MsgSend) : Option Books :=
  messages.foldlM (·.signedSend signer) self

theorem Books.sends_cons (self : Books) (signer : AccountId) (message : MsgSend)
    (messages : List MsgSend) :
    self.sends signer (message :: messages) =
      (self.signedSend signer message).bind (·.sends signer messages) := rfl

end Books

section Staged

variable [Sha256] [Bech32] [AuthCodec] [BankHost] {M G : Type}

/-- The books that a reset goes back to. -/
def BaseCoinApp.stagedBooks (app : BaseCoinApp M G) : Books :=
  heldBooks fun ref => (app.world.stores ref).staged

variable {app : BaseCoinApp M G}

/-- Where both stores hold one state, the books are read from it. -/
theorem books_of_held (held : StoreRef → State)
    (hpending : ∀ ref ∈ [0, 1], (app.world.stores ref).pending = held ref)
    (hstaged : ∀ ref ∈ [0, 1], (app.world.stores ref).staged = held ref) :
    app.booksAt .pending = heldBooks held ∧ app.stagedBooks = heldBooks held := by
  constructor
  · exact booksAt_of_getState (congrArg some (hpending 0 (by decide)))
      (congrArg some (hpending 1 (by decide)))
  · rw [BaseCoinApp.stagedBooks, heldBooks, heldBooks, hstaged 0 (by decide),
      hstaged 1 (by decide)]

/-- Applied, the pending books are the staged ones too. -/
theorem books_applyModules {modules : List (IdentifiedModule M G)}
    (hhandles : ∀ ref ∈ [0, 1], ref ∈ handles modules) {w : World M}
    (happ : app.world = applyModules modules w) :
    app.booksAt .pending = w.books ∧ app.stagedBooks = w.books := by
  refine books_of_held w.pending (fun ref href => ?_) (fun ref href => ?_)
  · rw [happ, stores_applyModules _ _ (hhandles ref href)]
    rfl
  · rw [happ, stores_applyModules _ _ (hhandles ref href)]
    rfl

/-- Reset, the staged books are the pending ones too. -/
theorem books_resetModules {modules : List (IdentifiedModule M G)}
    (hhandles : ∀ ref ∈ [0, 1], ref ∈ handles modules) {w : World M}
    (happ : app.world = resetModules modules w) :
    app.booksAt .pending = heldBooks (fun ref => (w.stores ref).staged) ∧
      app.stagedBooks = heldBooks fun ref => (w.stores ref).staged := by
  refine books_of_held _ (fun ref href => ?_) (fun ref href => ?_)
  · rw [happ, stores_resetModules _ _ (hhandles ref href)]
    rfl
  · rw [happ, stores_resetModules _ _ (hhandles ref href)]
    rfl

end Staged

section Delivery

variable [Sha256] [Bech32] [AuthCodec] [BankHost] [IbcHost] [ProofEncoding] [U256Text]
  {R G AnyClientState MsgRecoverClient : Type} [GenesisJson G U256]
  [UpgradeHost AnyClientState] [GovHost MsgRecoverClient] [ProposalHandlers R MsgRecoverClient]
  [BuildProfile] {ibcDeliver : Any → AccountId → Handler (Memory R) (Except Error (List Event))}

/-- The auth module counts the message or turns it away, and the bank makes the transfer or
refuses it; neither asks the modules after it. -/
theorem deliverMsg_send (hdoc : U256Text.Documented) {message : Any} {signer : AccountId}
    {msg : MsgSend} (hdecode : Bank.decode message = .ok msg) (w : World (Memory R)) :
    ∃ result w', (deliverMsg message signer
        (defaultModules (chainModules ibcDeliver : Unmodelled (Memory R) G))).run w =
        some (result, w') ∧
      match w.books.signedSend signer msg with
      | some b => result = .ok [] ∧ w'.books = b
      | none => ∃ e, result = .error e := by
  rw [defaultModules_chain, run_deliverMsg_cons, run_auth, Option.bind_some]
  dsimp only
  cases hsign : w.books.sign signer with
  | none =>
    -- no account of the signer's
    have hunknown : Auth.getAccount (w.stores 0) signer = none := Option.map_eq_none_iff.mp hsign
    have hdeliver : Auth.deliver signer (w.stores 0) =
        (.error (.custom "unknown signer"), w.stores 0) := by
      rw [Auth.deliver, hunknown]
    rw [hdeliver, Books.signedSend, hsign]
    exact ⟨_, _, rfl, _, rfl⟩
  | some signed =>
    obtain ⟨accounts, hdeliver, rfl⟩ := deliver_of_sign hsign
    rw [hdeliver, if_pos rfl, run_deliverMsg_cons, run_bank,
      World.modify_self, World.modify_other _ _ (by decide), Books.signedSend, hsign,
      Option.bind_some]
    have hcoins := mapM_ofMsgCoin hdoc msg.amount
    cases hsend : (booksOf accounts (w.stores 1)).send msg with
    | some b =>
      obtain ⟨balances, hbank, rfl⟩ := bank_deliver_of_send hdecode hsend
      rw [hbank]
      refine ⟨_, _, rfl, rfl, ?_⟩
      rw [World.books, World.modify_self, World.modify_other _ _ (by decide), World.modify_self]
    | none =>
      obtain ⟨e, hbank⟩ := bank_deliver_refused hdecode hcoins hsend
      rw [hbank]
      exact ⟨_, _, rfl, _, rfl⟩

/-- The messages of a transaction of transfers. -/
theorem deliverMsgs_sends (hdoc : U256Text.Documented) {signer : AccountId}
    {messages : List Any} : ∀ {sends : List MsgSend} (events : List Event) (w : World (Memory R)),
      messages.map Bank.decode = sends.map .ok →
      ∃ result w', (deliverMsgs (defaultModules (chainModules ibcDeliver : Unmodelled (Memory R) G))
          signer messages events).run w = some (result, w') ∧
        match w.books.sends signer sends with
        | some b => result = .ok events ∧ w'.books = b
        | none => ∃ e, result = .error e := by
  induction messages with
  | nil =>
    intro sends events w hdecode
    obtain rfl : sends = [] := List.map_eq_nil_iff.mp hdecode.symm
    exact ⟨_, w, rfl, rfl, rfl⟩
  | cons message messages ih =>
    intro sends events w hdecode
    obtain ⟨msg, sends, rfl⟩ : ∃ msg rest, sends = msg :: rest := by
      cases sends with
      | nil => cases hdecode
      | cons msg rest => exact ⟨msg, rest, rfl⟩
    obtain ⟨hfirst, hrest⟩ := List.cons.inj hdecode
    have hstep : ∃ result w', (deliverMsg message signer
          (defaultModules (chainModules ibcDeliver : Unmodelled (Memory R) G))).run w =
          some (result, w') ∧
        match w.books.signedSend signer msg with
        | some b => result = .ok [] ∧ w'.books = b
        | none => ∃ e, result = .error e := deliverMsg_send hdoc hfirst w
    obtain ⟨result, w₁, hrun, hresult⟩ := hstep
    rw [Books.sends_cons]
    cases hsend : w.books.signedSend signer msg with
    | none =>
      rw [hsend] at hresult
      obtain ⟨e, rfl⟩ := hresult
      exact ⟨_, w₁, run_deliverMsgs_cons_iff.mpr (.inl ⟨e, hrun, rfl⟩), e, rfl⟩
    | some b =>
      rw [hsend] at hresult
      obtain ⟨rfl, rfl⟩ := hresult
      obtain ⟨last, w₂, hlater, hlast⟩ := ih (events ++ []) w₁ hrest
      rw [List.append_nil] at hlast
      exact ⟨last, w₂, run_deliverMsgs_cons_iff.mpr (.inr ⟨[], w₁, hrun, hlater⟩), hlast⟩

variable [Host G]

/-- **A transaction of transfers is all or nothing.** In whatever state the modules are, `deliver_tx`
answers. It accepts the transaction if and only if the books allow every transfer in its turn: the
signer and the account that pays are known, the payer's balances cover the amounts and there is
room for them at the other end. Then the books with all transfers made are pending and staged.
Otherwise none of the transfers shows, and neither does what was pending before without being
staged. Nothing else is asked, in particular not that the signer is who pays, nor its sequence, which
in a release build wraps (a debug build panics instead of answering). -/
theorem sends_atomic (hdoc : U256Text.Documented) {app : BaseCoinApp (Memory R) G}
    (hmods : app.modules = defaultModules (chainModules ibcDeliver)) {tx : Bytes}
    {signer : AccountId} {messages : List Any} {sends : List MsgSend}
    (hadm : BaseCoinApp.admitTx tx = .ok (signer, messages))
    (hdecode : messages.map Bank.decode = sends.map .ok) :
    ∃ response app', app.deliverTx tx = some (response, app') ∧
      match (app.booksAt .pending).sends signer sends with
      | some b => response = { log := "success" } ∧ app'.booksAt .pending = b ∧ app'.stagedBooks = b
      | none => response.code = 2 ∧ app'.booksAt .pending = app.stagedBooks ∧
          app'.stagedBooks = app.stagedBooks := by
  have hhandles : ∀ ref ∈ [0, 1], ref ∈ handles app.modules := by
    rw [hmods, chain_handles]
    decide
  have hmessages : ∃ result w, (deliverMsgs app.modules signer messages []).run app.world =
        some (result, w) ∧
      match app.world.books.sends signer sends with
      | some b => result = .ok [] ∧ w.books = b
      | none => ∃ e, result = .error e := by
    rw [hmods]
    exact deliverMsgs_sends hdoc [] app.world hdecode
  obtain ⟨result, w, hrun, hresult⟩ := hmessages
  have hbase : app.world.SameBase w := (deliverMsgs app.modules signer messages []).frame hrun
  unfold BaseCoinApp.deliverTx
  rw [hadm, booksAt_pending]
  dsimp only
  rw [hrun, Option.map_some]
  cases hsends : app.world.books.sends signer sends with
  | some b =>
    rw [hsends] at hresult
    obtain ⟨rfl, rfl⟩ := hresult
    exact ⟨_, _, rfl, rfl, books_applyModules hhandles rfl⟩
  | none =>
    rw [hsends] at hresult
    obtain ⟨e, rfl⟩ := hresult
    have hstaged : heldBooks (fun ref => (w.stores ref).staged) = app.stagedBooks :=
      congrArg heldBooks (funext fun ref => (hbase ref).staged)
    exact ⟨_, _, rfl, rfl, hstaged ▸ books_resetModules hhandles rfl⟩

end Delivery

/-! ## Coins sent -/

-- opened first, so that the instances of `Sending` come before those they replace
open scoped Idle

namespace Sending

theorem documented : U256Text.Documented where
  display_eq _ := rfl
  fromStrRadix_eq digits a hne hdigits ha := by
    show (readText 10 (String.ofList digits)).elim _ _ = _
    rw [readText_ofList hne hdigits ha]
    rfl
  parseAmount_eq _ _ hne hdigits ha := readText_ofList hne hdigits ha

/-- Nine coins in a circle, and then more than the nine there were. -/
def sends : List MsgSend :=
  [⟨alice, alice, [⟨"c", 9, toNat_lt_u128 9⟩]⟩, ⟨alice, bob, [⟨"c", 8, toNat_lt_u128 8⟩]⟩,
    ⟨alice, bob, [⟨"c", 8, toNat_lt_u128 8⟩]⟩]

/-- What the books say of them, once Alice has an account. -/
theorem map_sends : (runSteps BaseCoinApp.step app [.initChain []]).map (fun r =>
    ((r.2.booksAt .pending).sends alice sends).map fun b => amount (b.balances bob) ⟨"c"⟩) =
      some (some 16) := by
  decide +kernel

def messages : List Any := [9, 8, 8].map fun b => ⟨"/cosmos.bank.v1beta1.MsgSend", [b]⟩

theorem admitTx_sends : BaseCoinApp.admitTx [9, 8, 8] = .ok (alice, messages) := rfl

theorem map_decode : messages.map Bank.decode = sends.map .ok := rfl

theorem sends_atomic_sending :
    ∃ responses app₁ app₂, runSteps BaseCoinApp.step app [.initChain []] = some (responses, app₁) ∧
      app₁.deliverTx [9, 8, 8] = some ({ log := "success" }, app₂) ∧
      amount ((app₂.booksAt .pending).balances bob) ⟨"c"⟩ = 16 := by
  obtain ⟨⟨responses, app₁⟩, hrun, hsends⟩ := Option.map_eq_some_iff.mp map_sends
  obtain ⟨b, hb, hamount⟩ := Option.map_eq_some_iff.mp hsends
  have hmods : app₁.modules = defaultModules (chainModules Idle.ibcDeliver) :=
    runSteps_invariant (fun _ _ _ _ hms hstep => (modules_step hstep).trans hms)
      (built_defaultApp _ chainApp_eq).1 hrun
  obtain ⟨response, app₂, hdeliver, hresult⟩ :=
    sends_atomic documented hmods admitTx_sends map_decode
  rw [hb] at hresult
  obtain ⟨rfl, rfl, -⟩ := hresult
  exact ⟨responses, app₁, app₂, hrun, hdeliver, hamount⟩

end Sending

end Basecoin
