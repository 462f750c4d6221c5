import Basecoin.App.Effects
import Basecoin.Modules.Books

/-!
# The accounts of a chain

The default application, as far as its first two stores tell: a machine on `Books`, whose steps are
the edits of `App/Effects.lean` (`Books.Step`). Genesis opens and funds accounts, a block's header
does nothing to them, and the messages of a transaction each count one more message of the signer
and then move coins: a `MsgSend` those it lists, any other whatever calls of the keeper its handler
makes. At every version the books are what the edits in effect make of empty ones (`books_refined`).

The handlers of `ibc-rs` enter by a hypothesis, that they move coins by calls of the keeper alone
(`ActsByKeeper`); of the modules of the repository it is proved what they do. A module decides or
passes on, so of a message that is accepted only one module's answer counts, and what the modules
before it did: the auth module's count.
-/

namespace Basecoin

open Lib Coins

/-! ## One message after the other -/

section Messages

variable [Sha256] [Bech32] {M G : Type} {message : Any} {signer : AccountId}

/-- A module decides, or passes the message on. -/
theorem run_deliverMsg_cons (m : IdentifiedModule M G) (ms : List (IdentifiedModule M G))
    (w : World M) :
    (deliverMsg message signer (m :: ms)).run w =
      ((m.module.deliver message signer).run w).bind fun r =>
        if r.1 = .error .notHandled then (deliverMsg message signer ms).run r.2 else some r := by
  rw [deliverMsg, Handler.run_bind]
  cases (m.module.deliver message signer).run w with
  | none => rfl
  | some r =>
    obtain ⟨result, w₁⟩ := r
    rw [Option.bind_some, Option.bind_some]
    match result with
    | .ok events => rfl
    | .error .notHandled => rfl
    | .error (.custom _) => rfl
    | .error (.bank _) => rfl
    | .error (.ibc _) => rfl
    | .error (.gov _) => rfl

theorem deliverMsg_cons_ok {m : IdentifiedModule M G} {ms : List (IdentifiedModule M G)}
    {events : List Event} {w w' : World M}
    (h : (deliverMsg message signer (m :: ms)).run w = some (.ok events, w')) :
    (m.module.deliver message signer).run w = some (.ok events, w') ∨
      ∃ w₁, (m.module.deliver message signer).run w = some (.error .notHandled, w₁) ∧
        (deliverMsg message signer ms).run w₁ = some (.ok events, w') := by
  rw [run_deliverMsg_cons] at h
  obtain ⟨⟨result, w₁⟩, hrun, hrest⟩ := Option.bind_eq_some_iff.mp h
  by_cases hpassed : result = .error .notHandled
  · rw [if_pos hpassed] at hrest
    exact .inr ⟨w₁, hpassed ▸ hrun, hrest⟩
  · rw [if_neg hpassed] at hrest
    exact .inl (hrun.trans hrest)

end Messages

/-! ## The books of an application -/

section Reading

variable [Sha256] [Bech32] [AuthCodec] [BankHost] {M G : Type}

def World.books (w : World M) : Books := booksOf (w.stores 0) (w.stores 1)

/-- The accounts and the balances as the stores answer them for a height. -/
def BaseCoinApp.booksAt (app : BaseCoinApp M G) (height : Height) : Books where
  accounts address := Auth.accountStore.get (app.world.stores 0) height ⟨address⟩
  balances address := Bank.getAllBalancesAtHeight (app.world.stores 1) height address

/-- The books in what the stores hold. -/
def heldBooks (held : StoreRef → State) : Books :=
  booksOf { InMemoryStore.default with pending := held 0 }
    { InMemoryStore.default with pending := held 1 }

theorem booksAt_pending (app : BaseCoinApp M G) : app.booksAt .pending = app.world.books := rfl

theorem booksAt_of_getState {app : BaseCoinApp M G} {height : Height} {held : StoreRef → State}
    (h₀ : (app.world.stores 0).getState height = some (held 0))
    (h₁ : (app.world.stores 1).getState height = some (held 1)) :
    app.booksAt height = heldBooks held := by
  refine Books.ext (funext fun a => ?_) (funext fun a => ?_)
  · show ((app.world.stores 0).get height _).bind _ = _
    rw [InMemoryStore.get, h₀]
    rfl
  · show (((app.world.stores 1).get height _).bind _ |>.map Balances.coins).getD [] = _
    rw [InMemoryStore.get, h₁]
    rfl

theorem booksAt_of_missing {app : BaseCoinApp M G} {height : Height}
    (h₀ : (app.world.stores 0).getState height = none)
    (h₁ : (app.world.stores 1).getState height = none) : app.booksAt height = Books.empty := by
  refine Books.ext (funext fun a => ?_) (funext fun a => ?_)
  · show ((app.world.stores 0).get height _).bind _ = _
    rw [InMemoryStore.get, h₀]
    rfl
  · show (((app.world.stores 1).get height _).bind _ |>.map Balances.coins).getD [] = _
    rw [InMemoryStore.get, h₁]
    rfl

end Reading

/-! ## What the edits do to them -/

section Steps

variable [Sha256] [Bech32] [BankHost] {G : Type} [GenesisJson G U256] [Host G]

omit [Sha256] in
/-- What a message of a transaction that succeeds may do to the books. -/
inductive Books.Handles (signer : AccountId) : Books → Any → Books → Prop
  | send {self signed after : Books} {message : Any} {msg : MsgSend}
      (hdecode : Bank.decode message = .ok msg) (hsign : self.sign signer = some signed)
      (hsend : signed.send msg = some after) : Handles signer self message after
  | other {self signed : Books} {message : Any} (calls : List Bank.Call)
      (hdecode : Bank.decode message = .error .notHandled)
      (hsign : self.sign signer = some signed) :
      Handles signer self message (signed.calls calls)

/-- What an edit in effect may do to the books. -/
inductive Books.Step : Books → ChainEdit → Books → Prop
  | genesis {self after : Books} {bytes : Bytes} {appState : G}
      (hread : Host.readGenesis bytes = some appState)
      (hgenesis : self.genesis appState = some after) : Step self (.genesis bytes) after
  | block {self : Books} {header : Header} : Step self (.block header) self
  | tx {self after : Books} {tx : Bytes} {signer : AccountId} {messages : List Any}
      (hadm : BaseCoinApp.admitTx tx = .ok (signer, messages))
      (hmessages : Leads (Books.Handles signer) self messages after) : Step self (.tx tx) after

end Steps

section Own

variable [Sha256] [Bech32] [AuthCodec] [BankHost] {R : Type}

/-- A call of the ibc module has no handle on the accounts, and acts on balances through the
keeper that the transfer application was given. -/
structure ActsByKeeper {α : Type} (x : Handler (Memory R) α) : Prop where
  accounts : ∀ {w a w'}, x.run w = some (a, w') → w'.stores 0 = w.stores 0
  balances : ∀ {w a w'}, x.run w = some (a, w') →
    ∃ calls responses, runSteps Bank.call (w.stores 1) calls = some (responses, w'.stores 1)

/-- A call leaves the accounts and the balances alone. -/
def KeepsBooks {α : Type} (x : Handler (Memory R) α) : Prop :=
  ∀ b, x.Preserves fun w => w.books = b

theorem ActsByKeeper.books {α : Type} {x : Handler (Memory R) α} (h : ActsByKeeper x)
    {w w' : World (Memory R)} {a : α} (hrun : x.run w = some (a, w')) :
    ∃ calls, w'.books = w.books.calls calls := by
  obtain ⟨calls, responses, hcalls⟩ := h.balances hrun
  refine ⟨calls, Books.ext ?_ (Bank.getAllBalances_run hcalls)⟩
  show Auth.getAccount (w'.stores 0) = Auth.getAccount (w.stores 0)
  rw [h.accounts hrun]

theorem books_modify (w : World (Memory R)) {ref : StoreRef} (h₀ : 0 ≠ ref) (h₁ : 1 ≠ ref)
    (f : InMemoryStore → InMemoryStore) : (w.modify ref f).books = w.books := by
  rw [World.books, World.modify_other _ _ h₀, World.modify_other _ _ h₁]
  rfl

variable {G : Type} [GenesisJson G U256] {message : Any} {signer : AccountId} {w w' : World (Memory R)}

omit [BankHost] in
theorem run_auth : ((Auth.module 0 : Module (Memory R) G).deliver message signer).run w =
    some ((Auth.deliver signer (w.stores 0)).1,
      w.modify 0 fun _ => (Auth.deliver signer (w.stores 0)).2) := rfl

theorem run_bank : ((Bank.module 1 0 : Module (Memory R) G).deliver message signer).run w =
    (Bank.deliver (w.stores 0) message (w.stores 1)).map fun r =>
      (r.1, w.modify 1 fun _ => r.2) := rfl

/-- A message is passed on by the auth module once it is counted. -/
theorem sign_of_auth
    (h : ((Auth.module 0 : Module (Memory R) G).deliver message signer).run w =
      some (.error .notHandled, w')) : w.books.sign signer = some w'.books := by
  rw [run_auth] at h
  obtain ⟨hpassed, rfl⟩ := Prod.mk.inj (Option.some.inj h)
  refine (books_sign (Prod.ext hpassed rfl)).trans (congrArg some ?_)
  rw [World.books, World.modify_self, World.modify_other _ _ (by decide)]

/-- The bank handles what it decodes, if the books allow it. -/
theorem send_of_bank {events : List Event}
    (h : ((Bank.module 1 0 : Module (Memory R) G).deliver message signer).run w =
      some (.ok events, w')) :
    ∃ msg, Bank.decode message = .ok msg ∧ w.books.send msg = some w'.books := by
  rw [run_bank] at h
  obtain ⟨⟨result, balances⟩, hdeliver, heq⟩ := Option.map_eq_some_iff.mp h
  obtain ⟨rfl, rfl⟩ := Prod.mk.inj heq
  cases hdecode : Bank.decode message with
  | error e =>
    rw [Bank.deliver, hdecode] at hdeliver
    cases hdeliver
  | ok msg =>
    refine ⟨msg, rfl, (send_of_bank_deliver hdecode hdeliver).trans (congrArg some ?_)⟩
    rw [World.books, World.modify_self, World.modify_other _ _ (by decide)]

/-- It passes on what it does not decode, as it was. -/
theorem other_of_bank
    (h : ((Bank.module 1 0 : Module (Memory R) G).deliver message signer).run w =
      some (.error .notHandled, w')) :
    Bank.decode message = .error .notHandled ∧ w'.books = w.books := by
  rw [run_bank] at h
  obtain ⟨⟨result, balances⟩, hdeliver, heq⟩ := Option.map_eq_some_iff.mp h
  obtain ⟨rfl, rfl⟩ := Prod.mk.inj heq
  cases hdecode : Bank.decode message with
  | error e =>
    rw [Bank.deliver, hdecode] at hdeliver
    obtain ⟨he, rfl⟩ := Prod.mk.inj (Option.some.inj hdeliver)
    refine ⟨congrArg _ (Except.error.inj he), ?_⟩
    rw [World.books, World.modify_self, World.modify_other _ _ (by decide)]
    rfl
  | ok msg => exact absurd hdeliver (bank_deliver_ne_notHandled hdecode)

end Own

section Refinement

variable [Sha256] [Bech32] [AuthCodec] [BankHost] [IbcHost] [ProofEncoding] [U256Text]
  {R G AnyClientState MsgRecoverClient : Type} [GenesisJson G U256]
  [UpgradeHost AnyClientState] [GovHost MsgRecoverClient] [ProposalHandlers R MsgRecoverClient]
  [BuildProfile] {ibcDeliver : Any → AccountId → Handler (Memory R) (Except Error (List Event))}

omit [IbcHost] [ProofEncoding] in
/-- The governance module keeps its proposals in a store of its own. -/
theorem governance_keepsBooks
    (hrecover : ∀ msgRecoverClient : MsgRecoverClient,
      KeepsBooks (ProposalHandlers.recoverExecute msgRecoverClient : Handler (Memory R) _))
    (message : Any) : KeepsBooks (Governance.deliver 5 4 message : Handler (Memory R) _) := by
  intro b
  have hkeeps : (Governance.deliver 5 4 message : Handler (Memory R) _).Keeps False
      (fun w => w.books = b) := by
    refine Governance.keeps_deliver (fun proposal => ?_) ?_ (fun upgradeProposal _ => ?_)
      (fun msgRecoverClient => hrecover msgRecoverClient b)
    · exact Handler.triple_onStore
        (f := fun s =>
          some ((), (Governance.proposalStore.set s Governance.sdkPath proposal.toAny).2))
        (fun _ => rfl) fun w _ s hw _ => (books_modify w (by decide) (by decide) _).trans hw
    · refine Handler.preserves_onMem fun w mem hw _ => hw
    · exact Handler.triple_onStore
        (f := fun s => some (ProposalHandlers.executeUpgradeClientProposal R upgradeProposal s))
        (fun _ => rfl) fun w _ s hw _ _ => (books_modify w (by decide) (by decide) _).trans hw
  intro w a w' hw hrun
  exact hkeeps w a w' hw hrun fun _ _ hfalse => hfalse.elim

variable (hibc : ∀ message signer, ActsByKeeper (ibcDeliver message signer))
  (hrecover : ∀ msgRecoverClient : MsgRecoverClient,
    KeepsBooks (ProposalHandlers.recoverExecute msgRecoverClient : Handler (Memory R) _))

include hibc hrecover

omit [GenesisJson G U256] in
/-- The modules after the bank: only the ibc module moves coins. -/
theorem deliverMsg_later {message : Any} {signer : AccountId} {events : List Event}
    {w w' : World (Memory R)}
    (h : (deliverMsg message signer
      [⟨"ibc", Ibc.module 3 ibcDeliver Ibc.beginBlock⟩, ⟨"gov", Governance.module 5 4⟩,
        (⟨"upgrade", Upgrade.module 4⟩ : IdentifiedModule (Memory R) G)]).run w =
      some (.ok events, w')) : ∃ calls, w'.books = w.books.calls calls := by
  rcases deliverMsg_cons_ok h with hrun | ⟨w₁, hrun, hrest⟩
  · exact (hibc message signer).books hrun
  · obtain ⟨calls, hcalls⟩ := (hibc message signer).books hrun
    refine ⟨calls, ?_⟩
    rw [← hcalls]
    rcases deliverMsg_cons_ok hrest with hgov | ⟨w₂, -, hupgrade⟩
    · exact governance_keepsBooks hrecover message w₁.books w₁ _ w' rfl hgov
    · rcases deliverMsg_cons_ok hupgrade with hnone | ⟨w₃, -, hnone⟩
      · cases hnone
      · cases hnone

theorem handles_of_deliverMsg {message : Any} {signer : AccountId} {events : List Event}
    {w w' : World (Memory R)}
    (h : (deliverMsg message signer
      (defaultModules (chainModules ibcDeliver : Unmodelled (Memory R) G))).run w =
      some (.ok events, w')) : Books.Handles signer w.books message w'.books := by
  rw [defaultModules_chain] at h
  rcases deliverMsg_cons_ok h with hauth | ⟨w₁, hauth, hrest⟩
  · -- the auth module handles nothing
    obtain ⟨e, he⟩ := Auth.exists_deliver_error signer (w.stores 0)
    rw [run_auth, he] at hauth
    cases hauth
  have hsign := sign_of_auth hauth
  -- the bank made the transfer, or passed on what is not one to the modules after it
  rcases deliverMsg_cons_ok hrest with hbank | ⟨w₂, hbank, hlater⟩
  · obtain ⟨msg, hdecode, hsend⟩ := send_of_bank hbank
    exact .send hdecode hsign hsend
  · obtain ⟨hdecode, hbooks⟩ := other_of_bank hbank
    obtain ⟨calls, hcalls⟩ := deliverMsg_later hibc hrecover hlater
    rw [hcalls, hbooks]
    exact .other calls hdecode hsign

/-- Messages that succeed, one after the other. -/
theorem leads_of_deliverMsgs {signer : AccountId} {messages : List Any} :
    ∀ {events events' : List Event} {w w' : World (Memory R)},
      (deliverMsgs (defaultModules (chainModules ibcDeliver : Unmodelled (Memory R) G)) signer
        messages events).run w = some (.ok events', w') →
      Leads (Books.Handles signer) w.books messages w'.books := by
  induction messages with
  | nil =>
    intro events events' w w' h
    obtain ⟨-, rfl⟩ := Prod.mk.inj (Option.some.inj h)
    rfl
  | cons message messages ih =>
    intro events events' w w' h
    rcases run_deliverMsgs_cons_iff.mp h with ⟨e, -, heq⟩ | ⟨new, w₁, hfirst, hrest⟩
    · cases heq
    · exact ⟨w₁.books, handles_of_deliverMsg hibc hrecover hfirst, ih hrest⟩

omit hibc hrecover in
theorem genesis_of_initModules {appState : G} {w w' : World (Memory R)}
    (h : (initModules appState
      (defaultModules (chainModules ibcDeliver : Unmodelled (Memory R) G))).run w =
      some ((), w')) : w.books.genesis appState = some w'.books := by
  rw [defaultModules_chain] at h
  obtain ⟨⟨_, w₁⟩, hauth, hrest⟩ := Option.bind_eq_some_iff.mp h
  obtain ⟨⟨_, w₂⟩, hbank, hlater⟩ := Option.bind_eq_some_iff.mp hrest
  obtain ⟨r₁, hr₁, heq₁⟩ := Option.map_eq_some_iff.mp hauth
  obtain ⟨accounts, hinit₁, rfl⟩ := Option.map_eq_some_iff.mp hr₁
  obtain ⟨-, rfl⟩ := Prod.mk.inj heq₁
  obtain ⟨r₂, hr₂, heq₂⟩ := Option.map_eq_some_iff.mp hbank
  obtain ⟨balances, hinit₂, rfl⟩ := Option.map_eq_some_iff.mp hr₂
  obtain ⟨-, rfl⟩ := Prod.mk.inj heq₂
  obtain ⟨entries₁, hentries₁, haccounts⟩ := Option.bind_eq_some_iff.mp hinit₁
  obtain ⟨entries₂, hentries₂, hbalances⟩ := Option.bind_eq_some_iff.mp hinit₂
  obtain rfl := (Prod.mk.inj (Option.some.inj hlater)).2
  have hopened := map_initAccounts entries₁ (w.stores 0)
  have hfunded := map_initBalances entries₂ (w.stores 1)
  rw [World.modify_other _ _ (by decide)] at hbalances
  rw [haccounts] at hopened
  rw [hbalances] at hfunded
  show ((GenesisJson.authAccounts appState).bind
    (Books.openAccounts · (Auth.getAccount (w.stores 0)))).bind _ = _
  rw [hentries₁, Option.bind_some, ← hopened, Option.map_some, Option.bind_some]
  show ((GenesisJson.bankAccounts appState).bind
    (Books.fundAccounts · (Bank.getAllBalances (w.stores 1)))).map _ = _
  rw [hentries₂, Option.bind_some, ← hfunded, Option.map_some, Option.map_some]
  refine congrArg some (Books.ext ?_ ?_)
  · show Auth.getAccount accounts = Auth.getAccount _
    rw [World.modify_other _ _ (by decide), World.modify_self]
  · show Bank.getAllBalances balances = Bank.getAllBalances _
    rw [World.modify_self]

variable [Host G]

theorem books_tracked :
    Tracked (defaultModules (chainModules ibcDeliver : Unmodelled (Memory R) G))
      fun held es => Leads Books.Step Books.empty es (heldBooks held) where
  reads := by
    intro held held' es hsame h
    have hbooks : heldBooks held' = heldBooks held := by
      rw [heldBooks, heldBooks, hsame 0 (by rw [chain_handles]; decide),
        hsame 1 (by rw [chain_handles]; decide)]
    rw [hbooks]
    exact h
  genesis := by
    intro bytes appState w w' es hread h hrun
    exact h.concat (.genesis hread (genesis_of_initModules hrun))
  block := by
    intro header w w' events es h hrun
    rw [run_beginModules] at hrun
    obtain ⟨r, -, heq⟩ := Option.map_eq_some_iff.mp hrun
    obtain rfl := (Prod.mk.inj heq).2
    have hbooks : heldBooks ((w.begun header).modify 4 fun _ => r.2).pending = heldBooks w.pending :=
      books_modify (w.begun header) (by decide) (by decide) _
    rw [hbooks]
    exact h.concat .block
  tx := by
    intro tx signer messages w w' events es hadm h hrun
    exact h.concat (.tx hadm (leads_of_deliverMsgs hibc hrecover hrun))

/-- The books at every height, with the edits in effect there. -/
theorem leads_booksAt {rest : R} {app₀ app : BaseCoinApp (Memory R) G} {requests : List Request}
    {responses : List Response} (h₀ : chainApp ibcDeliver rest = some app₀)
    (hrun : runSteps BaseCoinApp.step app₀ requests = some (responses, app)) (height : Height) :
    (∀ es, editsAt requests responses height = some es →
        Leads Books.Step Books.empty es (app.booksAt height)) ∧
      (editsAt requests responses height = none → app.booksAt height = Books.empty) := by
  obtain ⟨hmods, hbuilt⟩ := built_defaultApp _ h₀
  have hmods' : app.modules = defaultModules (chainModules ibcDeliver) :=
    runSteps_invariant (fun _ _ _ _ hms hstep => (modules_step hstep).trans hms) hmods hrun
  have hstart : app₀.world.books = Books.empty := by
    obtain rfl := Option.some.inj ((defaultApp_eq _ _).symm.trans h₀)
    rfl
  obtain ⟨v, hshows, hagree⟩ := (hmods ▸ books_tracked hibc hrecover : Tracked app₀.modules _).run
    hbuilt rfl hstart hrun
  have hauth : (app.world.stores 0).getState height = (versionAt v height).map (· 0) :=
    hshows.getState (by rw [hmods', chain_handles]; decide) height
  have hbank : (app.world.stores 1).getState height = (versionAt v height).map (· 1) :=
    hshows.getState (by rw [hmods', chain_handles]; decide) height
  have hrel := rel_versionAt hagree height
  rw [editsAt]
  generalize versionAt v height = held at hauth hbank hrel
  generalize versionAt (inEffect requests responses) height = edits at hrel
  cases hrel with
  | none => exact ⟨fun _ h => (Option.some_ne_none _ h.symm).elim,
      fun _ => booksAt_of_missing hauth hbank⟩
  | some h =>
    refine ⟨fun es hes => ?_, fun hnone => (Option.some_ne_none _ hnone).elim⟩
    rw [booksAt_of_getState hauth hbank, ← Option.some.inj hes]
    exact h

/-- **The accounts are what the edits in effect make of them.** After any requests to a fresh default
application, whose ibc module moves coins through the keeper only, and at every height: there are
edits in effect there, which lead one after the other from empty books to the accounts and balances
that are read there, or nothing was committed there and nothing is read. What was reset left no
trace, and as many heights are committed as there were commits. -/
theorem books_refined {rest : R} {app₀ app : BaseCoinApp (Memory R) G} {requests : List Request}
    {responses : List Response} (h₀ : chainApp ibcDeliver rest = some app₀)
    (hrun : runSteps BaseCoinApp.step app₀ requests = some (responses, app)) :
    (inEffect requests responses).committed.length = requests.count .commit ∧
      ∀ height, (∀ es, editsAt requests responses height = some es →
          Leads Books.Step Books.empty es (app.booksAt height)) ∧
        (editsAt requests responses height = none → app.booksAt height = Books.empty) :=
  ⟨length_inEffect hrun, leads_booksAt hibc hrecover h₀ hrun⟩

end Refinement

/-! ## Coins sent -/

namespace Sending

open scoped Idle

def alice : AccountId := Idle.genesisAccount

def bob : AccountId := (AccountId.fromStr bobAddress).get rfl

theorem toNat_lt_u128 (b : UInt8) : b.toNat < 2 ^ 128 :=
  b.toNat_lt.trans (by omega)

theorem nine_lt_u256 : 9 < 2 ^ 256 := by omega

/-- A message is one byte, the number of coins Alice sends; an odd number goes to herself. -/
scoped instance bankHost : BankHost where
  codec := Codec.ofEncodable _
  decodeMsgSend bytes := bytes.head?.map fun b =>
    .ok ⟨alice, if b % 2 = 0 then bob else alice, [⟨"c", b.toNat, toNat_lt_u128 b⟩]⟩
  parseAmount := readText 16

/-- Each byte of a transaction is a message of Alice's; a zero is of a type that no module
handles. -/
scoped instance host : Host Unit where
  decodeTx bytes := .ok
    { signerInfos := [⟨some (.single [])⟩]
      messages := bytes.map fun b =>
        ⟨if b = 0 then "/unknown" else "/cosmos.bank.v1beta1.MsgSend", [b]⟩ }
  accountId _ _ := some alice
  readGenesis _ := some ()
  debugError := Error.toString

/-- Alice has nine coins. -/
scoped instance genesisJson : GenesisJson Unit U256 where
  authAccounts _ := some [(aliceAddress, [])]
  bankAccounts _ := some [(aliceAddress, [(⟨"c"⟩, ⟨9, nine_lt_u256⟩)])]

def app : BaseCoinApp (Memory Unit) Unit := (chainApp Idle.ibcDeliver ()).get rfl

theorem chainApp_eq : chainApp Idle.ibcDeliver () = some app := (Option.some_get _).symm

theorem actsByKeeper (message : Any) (signer : AccountId) :
    ActsByKeeper (Idle.ibcDeliver message signer) where
  accounts hrun := by
    obtain ⟨-, rfl⟩ := Prod.mk.inj (Option.some.inj hrun)
    rfl
  balances hrun := by
    obtain ⟨-, rfl⟩ := Prod.mk.inj (Option.some.inj hrun)
    exact ⟨[], [], rfl⟩

theorem keepsBooks (msgRecoverClient : Unit) :
    KeepsBooks (ProposalHandlers.recoverExecute msgRecoverClient : Handler (Memory Unit) _) :=
  fun _ => Handler.preserves_pure _

/-- Two coins are sent and kept, four more are sent and taken back, and one goes in a circle. -/
def requests : List Request :=
  [.initChain [], .deliverTx [2], .commit, .deliverTx [4, 0], .deliverTx [1]]

/-- The codes of the answers, and what Alice holds at the first height and at the end. -/
def outcome (r : List Response × BaseCoinApp (Memory Unit) Unit) : List Nat × Nat × Nat :=
  (r.1.filterMap fun | .deliverTx response => some response.code | _ => none,
    amount ((r.2.booksAt (.stable 1)).balances alice) ⟨"c"⟩,
    amount ((r.2.booksAt .pending).balances alice) ⟨"c"⟩)

theorem map_outcome :
    (runSteps BaseCoinApp.step app requests).map outcome = some ([0, 2, 0], 7, 8) := by
  decide +kernel

theorem books_refined_sending :
    ∃ responses app', runSteps BaseCoinApp.step app requests = some (responses, app') ∧
      (inEffect requests responses).committed.length = 1 ∧
      ∀ height, (∀ es, editsAt requests responses height = some es →
          Leads Books.Step Books.empty es (app'.booksAt height)) ∧
        (editsAt requests responses height = none → app'.booksAt height = Books.empty) := by
  obtain ⟨⟨responses, app'⟩, hrun, -⟩ := Option.map_eq_some_iff.mp map_outcome
  exact ⟨responses, app', hrun, books_refined actsByKeeper keepsBooks chainApp_eq hrun⟩

end Sending

end Basecoin
