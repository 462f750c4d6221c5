import Basecoin.App.Accounts

/-!
# What the accounts show of the past

Consequences of `books_refined`: what an account is can be told from the edits in effect alone. It
is there once a genesis document names it, and its sequence is the number of messages signed since
the last one did (`accounts_history`). So nobody signs, and nobody pays by a message of the bank,
before being named (`payers_named`). And where transactions hold messages of the bank only, the
supply is what genesis gave out and what transfers to oneself added (`supply_history`).

Nothing here goes back to the stores: the proofs are inductions over the edits in effect, and a
message is known by what `Books.Handles` says of it. What an edit that was taken back had done is
not in the list, so no statement has to except it.
-/

namespace Basecoin

open Lib Coins

section History

variable [Bech32] [BankHost] {G : Type} [GenesisJson G U256] [Host G]

/-! ## Accounts -/

omit [BankHost] in
/-- The genesis document has an entry for the account. -/
def namedIn (bytes : Bytes) (address : AccountId) : Bool :=
  ((Host.readGenesis bytes).bind GenesisJson.authAccounts).any fun entries =>
    entries.any fun e => e.1 = address.toString

omit [BankHost] in
/-- The sequence of an account, after one more edit; none before the first document that names it. -/
def sequenceAfter (address : AccountId) : Option UInt64 → ChainEdit → Option UInt64
  | sequence, .genesis bytes => if namedIn bytes address then some 0 else sequence
  | sequence, .block _ => sequence
  | sequence, .tx tx =>
    match BaseCoinApp.admitTx tx with
    | .error _ => sequence
    | .ok (signer, messages) =>
      if signer = address then sequence.map (· + UInt64.ofNat messages.length) else sequence

omit [BankHost] in
/-- The account is in effect because a document is that names it. -/
def Named (es : List ChainEdit) (address : AccountId) : Prop :=
  ∃ bytes, .genesis bytes ∈ es ∧ namedIn bytes address = true

omit [BankHost] in
theorem isSome_sequence_iff (es : List ChainEdit) (address : AccountId) :
    (es.foldl (sequenceAfter address) none).isSome ↔ Named es address := by
  have hstep : ∀ (sequence : Option UInt64) (e : ChainEdit),
      (sequenceAfter address sequence e).isSome = true ↔
        sequence.isSome = true ∨ ∃ bytes, e = .genesis bytes ∧ namedIn bytes address = true := by
    intro sequence e
    cases e with
    | genesis bytes =>
      rw [sequenceAfter]
      by_cases hnamed : namedIn bytes address = true
      · simp [hnamed]
      · simp [hnamed]
    | block header => simp [sequenceAfter]
    | tx tx =>
      rw [sequenceAfter]
      cases BaseCoinApp.admitTx tx with
      | error response => simp
      | ok admitted => by_cases hsigner : admitted.1 = address <;> simp [hsigner]
  rw [Versioned.foldl_edit_iff (fun sequence : Option UInt64 => sequence.isSome = true) hstep]
  constructor
  · rintro (hnone | ⟨e, he, bytes, rfl, hnamed⟩)
    · cases hnone
    · exact ⟨bytes, he, hnamed⟩
  · rintro ⟨bytes, he, hnamed⟩
    exact .inr ⟨_, he, bytes, rfl, hnamed⟩

omit [BankHost] [GenesisJson G U256] [Host G] in
theorem openAccounts_eq {entries : List (String × List (Denom × String))} :
    ∀ {accounts accounts' : AccountId → Option AuthAccount},
      Books.openAccounts entries accounts = some accounts' → ∀ a, accounts' a =
        if entries.any (fun e => e.1 = a.toString) then some (AuthAccount.new a)
        else accounts a := by
  induction entries with
  | nil =>
    intro accounts accounts' h a
    obtain rfl := Option.some.inj h
    rfl
  | cons e entries ih =>
    intro accounts accounts' h a
    obtain ⟨accountId, hparse, hrest⟩ := Option.bind_eq_some_iff.mp h
    have htext : accountId.toString = e.1 := AccountId.fromStr_eq_some hparse
    rw [ih hrest a, Function.update_apply, List.any_cons, ← htext]
    by_cases ha : a = accountId
    · subst ha
      simp
    · have hne : ¬ accountId.toString = a.toString := fun heq =>
        ha (AccountId.toString_injective heq).symm
      rw [if_neg ha, decide_eq_false hne, Bool.false_or]

/-- Every account is kept under its own address. -/
def Books.UnderAddress (self : Books) : Prop :=
  ∀ a account, self.accounts a = some account → account.address = a

theorem Books.Handles.accounts {signer : AccountId} {self after : Books} {message : Any}
    (h : Books.Handles signer self message after) : ∃ signed, self.sign signer = some signed ∧
      after.accounts = signed.accounts := by
  cases h with
  | send hdecode hsign hsend =>
    refine ⟨_, hsign, ?_⟩
    obtain ⟨coins, -, hif⟩ := Option.bind_eq_some_iff.mp hsend
    split at hif
    · rw [← Option.some.inj hif]
      rfl
    · cases hif
  | other calls hdecode hsign => exact ⟨_, hsign, rfl⟩

/-- One more message of the signer. -/
theorem Books.Handles.counts {signer : AccountId} {self after : Books} {message : Any}
    (h : Books.Handles signer self message after) (hunder : self.UnderAddress) (a : AccountId) :
    after.accounts a = if signer = a then
      (self.accounts a).map fun account => { account with sequence := account.sequence + 1 }
    else self.accounts a := by
  obtain ⟨signed, hsign, haccounts⟩ := h.accounts
  obtain ⟨account, haccount, rfl⟩ := Option.map_eq_some_iff.mp hsign
  have haddress : account.address = signer := hunder signer account haccount
  rw [haccounts]
  show Function.update self.accounts account.address _ a = _
  rw [Function.update_apply, haddress]
  by_cases ha : signer = a
  · rw [if_pos ha.symm, if_pos ha, ← ha, haccount, Option.map_some, haddress]
  · rw [if_neg (Ne.symm ha), if_neg ha]

theorem Books.Handles.underAddress {signer : AccountId} {self after : Books} {message : Any}
    (h : Books.Handles signer self message after) (hunder : self.UnderAddress) :
    after.UnderAddress := by
  intro a account haccount
  rw [h.counts hunder] at haccount
  split at haccount
  · obtain ⟨old, hold, rfl⟩ := Option.map_eq_some_iff.mp haccount
    exact hunder a old hold
  · exact hunder a account haccount

/-- The messages of a transaction, counted. -/
theorem accounts_of_messages {signer : AccountId} {messages : List Any} :
    ∀ {self after : Books}, self.UnderAddress → Leads (Books.Handles signer) self messages after →
      after.UnderAddress ∧ ∀ a, after.accounts a = if signer = a then
        (self.accounts a).map fun account =>
          { account with sequence := account.sequence + UInt64.ofNat messages.length }
      else self.accounts a := by
  induction messages with
  | nil =>
    intro self after hunder h
    obtain rfl : after = self := h
    refine ⟨hunder, fun a => ?_⟩
    have hzero : ∀ n : UInt64, n + UInt64.ofNat ([] : List Any).length = n := UInt64.add_zero
    simp only [hzero]
    split
    · exact Option.map_id'.symm
    · rfl
  | cons message messages ih =>
    rintro self after hunder ⟨middle, hfirst, hrest⟩
    obtain ⟨hunder', haccounts⟩ := ih (hfirst.underAddress hunder) hrest
    refine ⟨hunder', fun a => ?_⟩
    rw [haccounts, hfirst.counts hunder]
    split
    · have hadd : ∀ n : UInt64, n + 1 + UInt64.ofNat messages.length =
          n + UInt64.ofNat (message :: messages).length := by
        intro n
        rw [List.length_cons, UInt64.ofNat_add, UInt64.add_assoc,
          UInt64.add_comm 1 (UInt64.ofNat messages.length)]
        rfl
      simp only [Option.map_map, Function.comp_def, hadd]
    · rfl

omit [BankHost] in
/-- Counting messages opens no account, and closes none. -/
theorem isSome_counted {p : Prop} [Decidable p] {o : Option AuthAccount}
    {f : AuthAccount → AuthAccount} : (if p then o.map f else o).isSome = o.isSome := by
  split
  · exact Option.isSome_map
  · rfl

/-- What the account of an address is, given its sequence. -/
def accountWith (address : AccountId) (sequence : UInt64) : AuthAccount :=
  { address, number := 0, sequence }

omit [BankHost] in
theorem underAddress_of_accountWith {b : Books} {sequence : AccountId → Option UInt64}
    (h : ∀ a, b.accounts a = (sequence a).map (accountWith a)) : b.UnderAddress := by
  intro a account haccount
  rw [h a] at haccount
  obtain ⟨_, -, rfl⟩ := Option.map_eq_some_iff.mp haccount
  rfl

/-- The accounts can be told from the edits that led to them. -/
theorem accounts_of_leads {es : List ChainEdit} {b : Books}
    (h : Leads Books.Step Books.empty es b) (address : AccountId) :
    b.accounts address =
      (es.foldl (sequenceAfter address) none).map (accountWith address) := by
  refine Leads.history (fun es b => ∀ address, b.accounts address =
    (es.foldl (sequenceAfter address) none).map (accountWith address)) ?_ (fun _ => rfl) h address
  intro es b e b' hinv hstep address
  -- by the last edit; a genesis document starts the accounts it names over
  rw [List.foldl_append, List.foldl_cons, List.foldl_nil]
  cases hstep with
  | genesis hread hgenesis =>
    obtain ⟨accounts, hopen, hrest⟩ := Option.bind_eq_some_iff.mp hgenesis
    obtain ⟨balances, -, rfl⟩ := Option.map_eq_some_iff.mp hrest
    obtain ⟨entries, hentries, hopened⟩ := Option.bind_eq_some_iff.mp hopen
    show accounts address = _
    rw [openAccounts_eq hopened, sequenceAfter, namedIn, hread, Option.bind_some, hentries,
      Option.any_some]
    split
    · rfl
    · exact hinv address
  | block => exact hinv address
  | tx hadm hmessages =>
    have hunder := underAddress_of_accountWith hinv
    rw [(accounts_of_messages hunder hmessages).2, sequenceAfter, hadm]
    dsimp only
    split
    · rw [hinv address, Option.map_map, Option.map_map]
      rfl
    · exact hinv address

/-! ## Who signs and who pays -/

omit [BankHost] [GenesisJson G U256] in
theorem ne_nil_of_admitTx {tx : Bytes} {signer : AccountId} {messages : List Any}
    (h : BaseCoinApp.admitTx tx = .ok (signer, messages)) : messages ≠ [] := by
  rintro rfl
  unfold BaseCoinApp.admitTx at h
  repeat' split at h
  all_goals first
    | cases h
    | (obtain ⟨-, hnil⟩ := Prod.mk.inj (Except.ok.inj h)
       simp_all)

/-- Whoever pays has an account. -/
theorem Books.Handles.payer {signer : AccountId} {self after : Books} {message : Any}
    (h : Books.Handles signer self message after) {msg : MsgSend}
    (hdecode : Bank.decode message = .ok msg) : (after.accounts msg.fromAddress).isSome := by
  cases h with
  | send hdecode' hsign hsend =>
    obtain rfl := Except.ok.inj (hdecode.symm.trans hdecode')
    obtain ⟨coins, -, hif⟩ := Option.bind_eq_some_iff.mp hsend
    split at hif
    · next hok =>
      rw [← Option.some.inj hif]
      exact hok.1
    · cases hif
  | other calls hdecode' hsign => cases hdecode.symm.trans hdecode'

/-- In a transaction in effect, the signer and whoever pays were named before. -/
theorem named_of_leads {before after : List ChainEdit} {tx : Bytes} {signer : AccountId}
    {messages : List Any} {b : Books}
    (h : Leads Books.Step Books.empty (before ++ .tx tx :: after) b)
    (hadm : BaseCoinApp.admitTx tx = .ok (signer, messages)) :
    Named before signer ∧ ∀ message ∈ messages, ∀ msg, Bank.decode message = .ok msg →
      Named before msg.fromAddress := by
  obtain ⟨b₁, hbefore, b₂, hstep, -⟩ := leads_append.mp h
  have hnamed : ∀ a, (b₁.accounts a).isSome → Named before a := by
    intro a ha
    rw [accounts_of_leads hbefore, Option.isSome_map] at ha
    exact (isSome_sequence_iff before a).mp ha
  have hunder := underAddress_of_accountWith (accounts_of_leads hbefore)
  cases hstep with
  | tx hadm' hmessages =>
    obtain ⟨rfl, rfl⟩ := Prod.mk.inj (Except.ok.inj (hadm'.symm.trans hadm))
    constructor
    · obtain ⟨message, rest, rfl⟩ := List.exists_cons_of_ne_nil (ne_nil_of_admitTx hadm)
      obtain ⟨middle, hfirst, -⟩ := hmessages
      obtain ⟨signed, hsign, -⟩ := hfirst.accounts
      obtain ⟨account, haccount, -⟩ := Option.map_eq_some_iff.mp hsign
      exact hnamed _ (haccount ▸ rfl)
    · intro message hmem msg hdecode
      obtain ⟨earlier, later, rfl⟩ := List.append_of_mem hmem
      obtain ⟨middle, hearlier, next, hhandles, -⟩ := leads_append.mp hmessages
      obtain ⟨hunder', haccounts⟩ := accounts_of_messages hunder hearlier
      refine hnamed _ ?_
      -- so who pays, an account after the message, was one before the transaction
      have hpayer := hhandles.payer hdecode
      rwa [hhandles.counts hunder', isSome_counted, haccounts, isSome_counted] at hpayer

/-! ## The supply -/

omit [BankHost] [GenesisJson G U256] [Host G] in
/-- What all accounts hold of a denomination. -/
noncomputable def Books.supply (self : Books) (d : Denom) : ℕ :=
  ∑ᶠ a, amount (self.balances a) d

/-- What a message sends to where it comes from. -/
def sentToSelf (message : Any) (d : Denom) : Nat :=
  match Bank.decode message with
  | .error _ => 0
  | .ok msg =>
    if msg.fromAddress = msg.toAddress then
      ((msg.amount.mapM Coin.ofMsgCoin).map (total · d)).getD 0
    else 0

/-- What an edit adds to the supply if its messages are the bank's. -/
def createdBy (e : ChainEdit) (d : Denom) : Nat :=
  match e with
  | .genesis bytes =>
    match (Host.readGenesis bytes).bind GenesisJson.bankAccounts with
    | none => 0
    | some entries =>
      (entries.map fun e => total (e.2.map fun b => ({ denom := b.1, amount := b.2 } : Coin)) d).sum
  | .block _ => 0
  | .tx tx =>
    match BaseCoinApp.admitTx tx with
    | .error _ => 0
    | .ok (_, messages) => (messages.map (sentToSelf · d)).sum

/-- The transactions in effect hold messages of the bank only. -/
def OnlySends (es : List ChainEdit) : Prop :=
  ∀ tx, .tx tx ∈ es → ∀ signer messages, BaseCoinApp.admitTx tx = .ok (signer, messages) →
    ∀ message ∈ messages, ∃ msg, Bank.decode message = .ok msg

omit [BankHost] [GenesisJson G U256] [Host G] in
/-- The balances, as amounts. -/
def Ledgered (held : AccountId → List Coin) (L : Ledger AccountId Denom) : Prop :=
  ∀ a, L.balance a = amount (held a)

section Ledgered

omit [BankHost] [GenesisJson G U256] [Host G]

variable {held : AccountId → List Coin} {L : Ledger AccountId Denom}

theorem Ledgered.set (h : Ledgered held L) (account : AccountId) (balances : List Coin) :
    Ledgered (Function.update held account balances) (L.set account (amount balances)) := by
  intro a
  rw [Ledger.balance_set, Function.update_apply]
  split
  · rfl
  · exact h a

theorem Ledgered.put (h : Ledgered held L) {account : AccountId} {coins : List Coin}
    (hroom : HasRoom (held account) coins) :
    Ledgered (Function.update held account (put (held account) coins))
      (L.credit account (total coins)) := by
  have hamount : amount (Coins.put (held account) coins) = L.balance account + total coins := by
    rw [h account]
    exact funext fun d => amount_put hroom d
  rw [Ledger.credit, ← hamount]
  exact h.set account _

theorem Ledgered.taken (h : Ledgered held L) (account : AccountId) (coins : List Coin) :
    Ledgered (Function.update held account (taken (held account) coins))
      (L.debit account (total coins)) := by
  have hamount : amount (Coins.taken (held account) coins) = L.balance account - total coins := by
    rw [h account]
    exact funext fun d => amount_taken d
  rw [Ledger.debit, ← hamount]
  exact h.set account _

/-- A transfer keeps every supply, unless source and destination are one account. -/
theorem Ledgered.send (h : Ledgered held L) {source dest : AccountId} {coins : List Coin}
    (hcovers : Covers (held source) coins) (hroom : HasRoom (held dest) coins) :
    ∃ L', Ledgered (Books.afterCall held (.send source dest coins)) L' ∧
      ∀ d, L'.supply d = L.supply d + if source = dest then total coins d else 0 := by
  rw [Books.afterCall, if_pos ⟨hcovers, hroom⟩]
  by_cases hsame : source = dest
  · subst hsame
    refine ⟨L.credit source (total coins), ?_, fun d => ?_⟩
    · rw [Function.update_idem]
      exact h.put hroom
    · rw [if_pos rfl, Ledger.supply_credit]
  · have hdest : Function.update held source (Coins.taken (held source) coins) dest = held dest :=
      Function.update_of_ne (Ne.symm hsame) _ _
    refine ⟨_, hdest ▸ (h.taken source coins).put (hdest.symm ▸ hroom), fun d => ?_⟩
    have hcovered : ∀ d, total coins d ≤ L.balance source d := fun d => by
      rw [h source]
      exact hcovers.total_le d
    rw [if_neg hsame, Ledger.supply_transfer L hcovered, Nat.add_zero]

/-- Genesis mints. -/
theorem Ledgered.fund {entries : List (String × List (Denom × U256))} :
    ∀ {held held' : AccountId → List Coin} {L : Ledger AccountId Denom}, Ledgered held L →
      Books.fundAccounts entries held = some held' →
      ∃ L', Ledgered held' L' ∧ ∀ d, L'.supply d = L.supply d +
        (entries.map fun e =>
          total (e.2.map fun b => ({ denom := b.1, amount := b.2 } : Coin)) d).sum := by
  induction entries with
  | nil =>
    intro held held' L h hfund
    obtain rfl := Option.some.inj hfund
    exact ⟨L, h, fun d => rfl⟩
  | cons e entries ih =>
    intro held held' L h hfund
    obtain ⟨accountId, -, hif⟩ := Option.bind_eq_some_iff.mp hfund
    dsimp only at hif
    split at hif
    · next hroom =>
      obtain ⟨L', hL', hsupply⟩ := ih (h.put hroom) hif
      refine ⟨L', hL', fun d => ?_⟩
      rw [hsupply, Ledger.supply_credit, List.map_cons, List.sum_cons, Nat.add_assoc]
    · cases hif

end Ledgered

/-- A message of the bank adds what it sends to where it comes from. -/
theorem Ledgered.handles {signer : AccountId} {self after : Books} {message : Any} {msg : MsgSend}
    {L : Ledger AccountId Denom} (hL : Ledgered self.balances L)
    (h : Books.Handles signer self message after) (hdecode : Bank.decode message = .ok msg) :
    ∃ L', Ledgered after.balances L' ∧ ∀ d, L'.supply d = L.supply d + sentToSelf message d := by
  cases h with
  | other calls hdecode' _ => cases hdecode.symm.trans hdecode'
  | send hdecode' hsign hsend =>
    obtain rfl := Except.ok.inj (hdecode.symm.trans hdecode')
    obtain ⟨account, -, rfl⟩ := Option.map_eq_some_iff.mp hsign
    obtain ⟨coins, hcoins, hif⟩ := Option.bind_eq_some_iff.mp hsend
    split at hif
    · next hok =>
      obtain ⟨L', hL', hsupply⟩ := hL.send hok.2.1 hok.2.2
      refine ⟨L', Option.some.inj hif ▸ hL', fun d => ?_⟩
      rw [hsupply, sentToSelf, hdecode]
      dsimp only
      rw [hcoins]
      rfl
    · cases hif

/-- The messages of a transaction add what they send to where it comes from. -/
theorem supply_of_messages {signer : AccountId} {messages : List Any}
    (honly : ∀ message ∈ messages, ∃ msg, Bank.decode message = .ok msg) :
    ∀ {self after : Books} {L : Ledger AccountId Denom}, Ledgered self.balances L →
      Leads (Books.Handles signer) self messages after →
      ∃ L', Ledgered after.balances L' ∧
        ∀ d, L'.supply d = L.supply d + (messages.map (sentToSelf · d)).sum := by
  induction messages with
  | nil =>
    intro self after L hL h
    obtain rfl : after = self := h
    exact ⟨L, hL, fun d => rfl⟩
  | cons message messages ih =>
    rintro self after L hL ⟨middle, hfirst, hrest⟩
    obtain ⟨msg, hdecode⟩ := honly message List.mem_cons_self
    obtain ⟨L₁, hL₁, hsupply₁⟩ := hL.handles hfirst hdecode
    obtain ⟨L', hL', hsupply⟩ := ih (fun m hm => honly m (List.mem_cons_of_mem _ hm)) hL₁ hrest
    refine ⟨L', hL', fun d => ?_⟩
    rw [hsupply, hsupply₁, List.map_cons, List.sum_cons, Nat.add_assoc]

/-- The supply can be told from the edits that led to it. -/
theorem supply_of_leads {es : List ChainEdit} {b : Books}
    (h : Leads Books.Step Books.empty es b) (honly : OnlySends es) (d : Denom) :
    b.supply d = (es.map (createdBy · d)).sum := by
  have hledger : OnlySends es → ∃ L, Ledgered b.balances L ∧
      ∀ d, L.supply d = (es.map (createdBy · d)).sum := by
    refine Leads.history (fun es b => OnlySends es → ∃ L, Ledgered b.balances L ∧
      ∀ d, L.supply d = (es.map (createdBy · d)).sum) ?_ (fun _ => ⟨Ledger.empty, fun _ => rfl,
        Ledger.supply_empty⟩) h
    intro es b e b' hinv hstep honly
    obtain ⟨L, hL, hsupply⟩ := hinv fun tx htx => honly tx (List.mem_append_left _ htx)
    simp only [List.map_append, List.map_singleton, List.sum_append, List.sum_singleton]
    cases hstep with
    | genesis hread hgenesis =>
      obtain ⟨accounts, -, hrest⟩ := Option.bind_eq_some_iff.mp hgenesis
      obtain ⟨balances, hfund, rfl⟩ := Option.map_eq_some_iff.mp hrest
      obtain ⟨entries, hentries, hfunded⟩ := Option.bind_eq_some_iff.mp hfund
      obtain ⟨L', hL', hsupply'⟩ := hL.fund hfunded
      refine ⟨L', hL', fun d => ?_⟩
      rw [hsupply', hsupply, createdBy, hread, Option.bind_some, hentries]
    | block => exact ⟨L, hL, hsupply⟩
    | tx hadm hmessages =>
      obtain ⟨L', hL', hsupply'⟩ := supply_of_messages
        (honly _ (List.mem_append_right _ List.mem_cons_self) _ _ hadm) hL hmessages
      refine ⟨L', hL', fun d => ?_⟩
      rw [hsupply', hsupply, createdBy, hadm]
  obtain ⟨L, hL, hsupply⟩ := hledger honly
  rw [← hsupply, Ledger.supply, Books.supply]
  exact finsum_congr fun a => congrFun (hL a).symm d

end History

/-! ## In every run -/

section Runs

variable [Sha256] [Bech32] [AuthCodec] [BankHost] [IbcHost] [ProofEncoding] [U256Text]
  {R G AnyClientState MsgRecoverClient : Type} [GenesisJson G U256]
  [UpgradeHost AnyClientState] [GovHost MsgRecoverClient] [ProposalHandlers R MsgRecoverClient]
  [BuildProfile] {ibcDeliver : Any → AccountId → Handler (Memory R) (Except Error (List Event))}
  [Host G]

variable (hibc : ∀ message signer, ActsByKeeper (ibcDeliver message signer))
  (hrecover : ∀ msgRecoverClient : MsgRecoverClient,
    KeepsBooks (ProposalHandlers.recoverExecute msgRecoverClient : Handler (Memory R) _))

include hibc hrecover

/-- **A sequence counts messages.** At every height, an account is there exactly if a genesis
document in effect names it, and its sequence is the number of messages, of all types, in the
transactions of its own in effect since the last such document, modulo `2^64`: this is of a release
build, as a debug build panics at the message that would start the count over. -/
theorem accounts_history {rest : R} {app₀ app : BaseCoinApp (Memory R) G} {requests : List Request}
    {responses : List Response} (h₀ : chainApp ibcDeliver rest = some app₀)
    (hrun : runSteps BaseCoinApp.step app₀ requests = some (responses, app)) {height : Height}
    {es : List ChainEdit} (hes : editsAt requests responses height = some es)
    (address : AccountId) :
    (app.booksAt height).accounts address =
      (es.foldl (sequenceAfter address) none).map (accountWith address) :=
  accounts_of_leads ((leads_booksAt hibc hrecover h₀ hrun height).1 es hes) address

/-- **Who signs and who pays was named.** Before every transaction in effect stands a genesis
document that names its signer, and one that names the account each of its transfers is from. That
the signer is the one who pays is not asked. -/
theorem payers_named {rest : R} {app₀ app : BaseCoinApp (Memory R) G} {requests : List Request}
    {responses : List Response} (h₀ : chainApp ibcDeliver rest = some app₀)
    (hrun : runSteps BaseCoinApp.step app₀ requests = some (responses, app)) {height : Height}
    {before after : List ChainEdit} {tx : Bytes}
    (hes : editsAt requests responses height = some (before ++ .tx tx :: after))
    {signer : AccountId} {messages : List Any}
    (hadm : BaseCoinApp.admitTx tx = .ok (signer, messages)) :
    Named before signer ∧ ∀ message ∈ messages, ∀ msg, Bank.decode message = .ok msg →
      Named before msg.fromAddress :=
  named_of_leads ((leads_booksAt hibc hrecover h₀ hrun height).1 _ hes) hadm

/-- **Only transfers to oneself create coins.** Where the transactions in effect hold messages of
the bank only, the supply of each denomination is what the genesis documents gave out and what was
sent to where it came from: such a transfer writes the credited balance over the debited one. -/
theorem supply_history {rest : R} {app₀ app : BaseCoinApp (Memory R) G} {requests : List Request}
    {responses : List Response} (h₀ : chainApp ibcDeliver rest = some app₀)
    (hrun : runSteps BaseCoinApp.step app₀ requests = some (responses, app)) {height : Height}
    {es : List ChainEdit} (hes : editsAt requests responses height = some es)
    (honly : OnlySends es) (d : Denom) :
    (app.booksAt height).supply d = (es.map (createdBy · d)).sum :=
  supply_of_leads ((leads_booksAt hibc hrecover h₀ hrun height).1 es hes) honly d

end Runs

/-! ## Coins sent -/

-- opened first, so that the instances of `Sending` come before those they replace
open scoped Idle

namespace Sending

/-- What is in effect after the requests: the transaction with the unknown message is not. -/
def edits : List ChainEdit := [.genesis [], .tx [2], .tx [1]]

theorem map_editsAt :
    (runSteps BaseCoinApp.step app requests).map (fun r => editsAt requests r.1 .pending) =
      some (some edits) := by
  decide +kernel

theorem onlySends_edits : OnlySends edits := by
  intro tx htx signer messages hadm message hmessage
  have htx' : tx = [2] ∨ tx = [1] := by simpa [edits] using htx
  rcases htx' with rfl | rfl
  · obtain ⟨-, rfl⟩ := Prod.mk.inj (Except.ok.inj hadm)
    obtain rfl := List.mem_singleton.mp hmessage
    exact ⟨_, rfl⟩
  · obtain ⟨-, rfl⟩ := Prod.mk.inj (Except.ok.inj hadm)
    obtain rfl := List.mem_singleton.mp hmessage
    exact ⟨_, rfl⟩

theorem accounts_history_sending :
    ∃ responses app', runSteps BaseCoinApp.step app requests = some (responses, app') ∧
      (app'.booksAt .pending).accounts alice = some ⟨alice, 0, 2⟩ := by
  obtain ⟨⟨responses, app'⟩, hrun, hes⟩ := Option.map_eq_some_iff.mp map_editsAt
  exact ⟨responses, app', hrun,
    (accounts_history actsByKeeper keepsBooks chainApp_eq hrun hes alice).trans (by decide +kernel)⟩

theorem payers_named_sending : Named [.genesis [], .tx [2]] alice := by
  obtain ⟨⟨responses, app'⟩, hrun, hes⟩ := Option.map_eq_some_iff.mp map_editsAt
  have hes' : editsAt requests responses .pending =
      some ([.genesis [], .tx [2]] ++ .tx [1] :: []) := hes
  exact (payers_named actsByKeeper keepsBooks chainApp_eq hrun hes' rfl).1

theorem supply_history_sending :
    ∃ responses app', runSteps BaseCoinApp.step app requests = some (responses, app') ∧
      (app'.booksAt .pending).supply ⟨"c"⟩ = 10 := by
  obtain ⟨⟨responses, app'⟩, hrun, hes⟩ := Option.map_eq_some_iff.mp map_editsAt
  exact ⟨responses, app', hrun, (supply_history actsByKeeper keepsBooks chainApp_eq hrun hes
    onlySends_edits ⟨"c"⟩).trans (by decide +kernel)⟩

end Sending

end Basecoin
