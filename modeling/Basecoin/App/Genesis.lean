import Basecoin.App.Commit
import Basecoin.Modules.Keeper
import Basecoin.Store.Avl.InsertOrder

/-!
# Genesis and the order of a `HashMap`

`init_chain` hands the genesis document to the modules, and `Auth::init` and `Bank::init` each
read it into a `HashMap` and loop over it. The order of such a loop is chosen at random in every
process. It decides the order in which accounts are inserted in the auth and bank trees, and the
order of the coins in each stored list of balances, and both show: the account inserted last is
never the root of a tree of two or more (`root_ne_last`), and a stored list is the order in
which its denominations came (`put_nil`). So the roots are the same on every node exactly when
there is only one order to begin with.
-/

namespace Basecoin

open Avl Coins

/-! ## Genesis documents and their orders -/

/-- An amount, as the document writes it and as a number. -/
structure GenesisAmount where
  text : String
  value : U256
deriving DecidableEq

abbrev GenesisEntries := List (String × List (Denom × GenesisAmount))

/-- A genesis state: a finite map from accounts to finite maps from denominations to amounts, as
one listing of it. -/
structure Genesis where
  accounts : GenesisEntries
  nodup : (accounts.map Prod.fst).Nodup
  nodup_denoms : ∀ e ∈ accounts, (e.2.map Prod.fst).Nodup

/-- The same account, with the same amounts in some order. -/
def SameEntry (e f : String × List (Denom × GenesisAmount)) : Prop := e.1 = f.1 ∧ e.2.Perm f.2

/-- An order in which the maps of the document may be iterated. -/
def Genesis.Order (g : Genesis) (l : GenesisEntries) : Prop :=
  ∃ m, g.accounts.Perm m ∧ List.Forall₂ SameEntry m l

/-- The orders one process meets: `Auth::init` and `Bank::init` read the document separately. -/
@[ext]
structure GenesisOrders where
  auth : GenesisEntries
  bank : GenesisEntries

/-- Auth reads the amounts as strings, the bank as numbers. -/
instance genesisOrdersJson : GenesisJson GenesisOrders U256 where
  authAccounts o := some (o.auth.map fun e => (e.1, e.2.map fun b => (b.1, b.2.text)))
  bankAccounts o := some (o.bank.map fun e => (e.1, e.2.map fun b => (b.1, b.2.value)))

def coinsOf (balances : List (Denom × GenesisAmount)) : List Coin :=
  balances.map fun b => ⟨b.1, b.2.value⟩

theorem denoms_coinsOf (balances : List (Denom × GenesisAmount)) :
    (coinsOf balances).map Coin.denom = balances.map Prod.fst := by
  simp [coinsOf, Function.comp_def]

theorem mem_of_forall₂ {m l : GenesisEntries} (h : List.Forall₂ SameEntry m l)
    {f : String × List (Denom × GenesisAmount)} (hf : f ∈ l) : ∃ e ∈ m, SameEntry e f := by
  induction h with
  | nil => exact absurd hf List.not_mem_nil
  | cons hhead _ ih =>
    rcases List.mem_cons.mp hf with rfl | hf
    · exact ⟨_, List.mem_cons_self, hhead⟩
    · obtain ⟨e, he, hsame⟩ := ih hf
      exact ⟨e, List.mem_cons_of_mem _ he, hsame⟩

theorem map_fst_of_forall₂ {m l : GenesisEntries} (h : List.Forall₂ SameEntry m l) :
    m.map Prod.fst = l.map Prod.fst := by
  induction h with
  | nil => rfl
  | cons hhead _ ih => rw [List.map_cons, List.map_cons, hhead.1, ih]

theorem forall₂_refl (l : GenesisEntries) : List.Forall₂ SameEntry l l :=
  List.forall₂_same.mpr fun _ _ => ⟨rfl, .refl _⟩

namespace Genesis

variable {g : Genesis} {l : GenesisEntries}

theorem order_of_perm (h : g.accounts.Perm l) : g.Order l := ⟨l, h, forall₂_refl l⟩

theorem Order.nodup (h : g.Order l) : (l.map Prod.fst).Nodup := by
  obtain ⟨m, hperm, hall⟩ := h
  rw [← map_fst_of_forall₂ hall]
  exact (hperm.map Prod.fst).nodup_iff.mp g.nodup

theorem Order.mem (h : g.Order l) {f : String × List (Denom × GenesisAmount)} (hf : f ∈ l) :
    ∃ e ∈ g.accounts, SameEntry e f := by
  obtain ⟨m, hperm, hall⟩ := h
  obtain ⟨e, he, hsame⟩ := mem_of_forall₂ hall hf
  exact ⟨e, hperm.mem_iff.mpr he, hsame⟩

theorem Order.nodup_denoms (h : g.Order l) {f : String × List (Denom × GenesisAmount)}
    (hf : f ∈ l) : (f.2.map Prod.fst).Nodup := by
  obtain ⟨e, he, hsame⟩ := h.mem hf
  exact (hsame.2.map Prod.fst).nodup_iff.mp (g.nodup_denoms e he)

theorem Order.fst_mem_iff (h : g.Order l) {account : String} :
    account ∈ l.map Prod.fst ↔ account ∈ g.accounts.map Prod.fst := by
  obtain ⟨m, hperm, hall⟩ := h
  rw [← map_fst_of_forall₂ hall]
  exact (hperm.map Prod.fst).mem_iff.symm

/-- At most one account with at most one denomination: one order. -/
theorem Order.eq_accounts (h : g.Order l) (hone : g.accounts.length ≤ 1)
    (hdenoms : ∀ e ∈ g.accounts, e.2.length ≤ 1) : l = g.accounts := by
  obtain ⟨m, hperm, hall⟩ := h
  match hg : g.accounts, hone with
  | [], _ =>
    rw [hg, List.nil_perm] at hperm
    subst hperm
    exact List.forall₂_nil_left_iff.mp hall
  | [e], _ =>
    rw [hg, List.singleton_perm] at hperm
    subst hperm
    obtain ⟨f, l', hsame, hnil, rfl⟩ := List.forall₂_cons_left_iff.mp hall
    obtain rfl := List.forall₂_nil_left_iff.mp hnil
    have hlen : e.2.length ≤ 1 := hdenoms e (hg ▸ List.mem_singleton_self e)
    have hsnd : f.2 = e.2 := by
      match he : e.2, hlen with
      | [], _ =>
        have hp := hsame.2
        rw [he, List.nil_perm] at hp
        exact hp
      | [b], _ =>
        have hp := hsame.2
        rw [he, List.singleton_perm] at hp
        exact hp.symm
    have hfe : f = e := Prod.ext hsame.1.symm hsnd
    rw [hfe]

end Genesis

/-! ## The roots of states

A root hash fixes the text of the root's pair, and of two keys or more the one written last is not
the root's. No more is used of the shape of the tree. -/

section States

variable [Sha256]

def State.hashed (s : State) : Set Bytes := s.tree.root.hashed

/-- A state with a key has a root, and what it says of the root's key is the root's value. -/
theorem State.exists_root {s : State} {path : Path} (h : s.get path ≠ none) :
    ∃ n l r, s.tree.root = .node n l r ∧ s.get n.key = some n.value := by
  cases hroot : s.tree.root with
  | nil =>
    have hnone : s.get path = none := by
      rw [State.get, s.valid.get_eq, hroot]
      rfl
    exact absurd hnone h
  | node n l r =>
    refine ⟨n, l, r, rfl, ?_⟩
    rw [State.get, s.valid.get_eq]
    refine (Lib.SortedMap.lookup_eq_some s.valid.ordered).mpr ?_
    rw [hroot, NodeRef.toList_node]
    exact List.mem_append_right _ List.mem_cons_self

theorem State.root_insert_ne {s : State} {path p₀ : Path} {value : Bytes}
    (habsent : s.get path = none) (hother : s.get p₀ ≠ none) {n : AvlNode Path Bytes}
    {l r : NodeRef Path Bytes} (hroot : (s.insert path value).2.tree.root = .node n l r) :
    n.key ≠ path :=
  s.valid.root_insert_ne (Option.some_get (s.isSome_insert path value)).symm habsent hother hroot

/-- Equal root bytes of two states with keys, without collisions among what they hash, come from
equal roots. -/
theorem State.root_of_rootBytes {S : Set Bytes} (hinj : Set.InjOn sha256 S) {s s' : State}
    (hS : s.hashed ⊆ S) (hS' : s'.hashed ⊆ S) {n n' : AvlNode Path Bytes}
    {l r l' r' : NodeRef Path Bytes} (hroot : s.tree.root = .node n l r)
    (hroot' : s'.tree.root = .node n' l' r')
    (h : InMemoryStore.rootBytes s.rootHash = InMemoryStore.rootBytes s'.rootHash) :
    stringBytes n.key.toString ++ n.value = stringBytes n'.key.toString ++ n'.value := by
  have hhash : s.rootHash = some n.merkleHash := by
    rw [State.rootHash, AvlTree.rootHash, hroot]
  have hhash' : s'.rootHash = some n'.merkleHash := by
    rw [State.rootHash, AvlTree.rootHash, hroot']
  rw [hhash, hhash'] at h
  have hmerkle : n.merkleHash = n'.merkleHash := Hash.ext h
  have hc : Cached (.node n l r) := by
    rw [← hroot]
    exact s.valid.cached
  have hc' : Cached (.node n' l' r') := by
    rw [← hroot']
    exact s'.valid.cached
  unfold State.hashed at hS hS'
  rw [hroot] at hS
  rw [hroot'] at hS'
  have hleaf : asBytes n.key ++ Borrow.borrow n.value =
      asBytes n'.key ++ Borrow.borrow n'.value :=
    (pieces_of_merkleHash hinj hc hc' hS hS' hmerkle).2.1
  exact hleaf

end States

/-! ## The auth store -/

section Init

variable [Sha256] [Bech32] [AuthCodec] [BankHost]

namespace Auth

omit [BankHost] in
theorem initAccounts_append {l₁ l₂ : List (String × List (Denom × String))} {s : InMemoryStore} :
    initAccounts (l₁ ++ l₂) s = (initAccounts l₁ s).bind fun s' => initAccounts l₂ s' := by
  induction l₁ generalizing s with
  | nil => rfl
  | cons e l₁ ih =>
    rw [List.cons_append, initAccounts, initAccounts]
    cases AccountId.fromStr e.1 with
    | none => rfl
    | some a => exact ih

omit [BankHost] in
theorem isSome_initAccounts {l : List (String × List (Denom × String))} {s : InMemoryStore} :
    (initAccounts l s).isSome ↔ ∀ e ∈ l, (AccountId.fromStr e.1).isSome := by
  induction l generalizing s with
  | nil => simp [initAccounts]
  | cons e l ih =>
    rw [initAccounts, List.forall_mem_cons]
    cases AccountId.fromStr e.1 with
    | none => simp
    | some a => simpa using ih

omit [BankHost] in
theorem pending_setAccount (s : InMemoryStore) (account : AuthAccount) :
    (setAccount s account).pending =
      (s.pending.insert (Path.ofString account.address.toString)
        (AuthCodec.codec.encode account)).2 := rfl

omit [BankHost] in
theorem get_setAccount (s : InMemoryStore) (account : AuthAccount) (path : Path) :
    (setAccount s account).pending.get path =
      if path = Path.ofString account.address.toString then
        some (AuthCodec.codec.encode account)
      else s.pending.get path := by
  rw [pending_setAccount, State.get_insert]

omit [BankHost] in
/-- What is in the store after `init`: what was there, or a new account of the list under its
own address. -/
theorem get_initAccounts {l : List (String × List (Denom × String))} {s s' : InMemoryStore}
    (h : initAccounts l s = some s') {path : Path} {value : Bytes}
    (hget : s'.pending.get path = some value) :
    s.pending.get path = some value ∨ ∃ a : AccountId, a.toString ∈ l.map Prod.fst ∧
      path = Path.ofString a.toString ∧ value = AuthCodec.codec.encode (AuthAccount.new a) := by
  induction l generalizing s with
  | nil =>
    obtain rfl := Option.some.inj h
    exact .inl hget
  | cons e l ih =>
    obtain ⟨a, ha, hrest⟩ := Option.bind_eq_some_iff.mp h
    have htext : a.toString = e.1 := AccountId.fromStr_eq_some ha
    rcases ih hrest with hold | ⟨b, hb, hpath, hvalue⟩
    · rw [get_setAccount] at hold
      split at hold
      · next hpath =>
        exact .inr ⟨a, htext ▸ List.mem_cons_self, hpath, (Option.some.inj hold).symm⟩
      · exact .inl hold
    · exact .inr ⟨b, List.mem_cons_of_mem _ hb, hpath, hvalue⟩

omit [BankHost] in
/-- `init` takes no account away and leaves one for every entry of the list. -/
theorem get_initAccounts_ne_none {l : List (String × List (Denom × String))}
    {s s' : InMemoryStore} (h : initAccounts l s = some s') {path : Path}
    (hpath : s.pending.get path ≠ none ∨ ∃ account ∈ l.map Prod.fst, path = Path.ofString account) :
    s'.pending.get path ≠ none := by
  induction l generalizing s with
  | nil =>
    obtain rfl := Option.some.inj h
    rcases hpath with hpath | ⟨account, hmem, -⟩
    · exact hpath
    · exact absurd hmem List.not_mem_nil
  | cons e l ih =>
    obtain ⟨a, ha, hrest⟩ := Option.bind_eq_some_iff.mp h
    have htext : a.toString = e.1 := AccountId.fromStr_eq_some ha
    refine ih hrest ?_
    rw [get_setAccount]
    rcases hpath with hpath | ⟨account, hmem, rfl⟩
    · left
      split
      · simp
      · exact hpath
    · rcases List.mem_cons.mp hmem with rfl | hmem
      · left
        have hself : Path.ofString e.1 = Path.ofString (AuthAccount.new a).address.toString :=
          congrArg Path.ofString htext.symm
        rw [if_pos hself]
        simp
      · exact .inr ⟨account, hmem, rfl⟩

omit [BankHost] in
/-- The root of the auth store after genesis is a new account of the document. -/
theorem root_initAccounts {l : List (String × List (Denom × String))} {s : InMemoryStore}
    (h : initAccounts l InMemoryStore.default = some s) (hne : l ≠ []) :
    ∃ n left right, s.pending.tree.root = .node n left right ∧ ∃ a : AccountId,
      a.toString ∈ l.map Prod.fst ∧ n.key = Path.ofString a.toString ∧
        n.value = AuthCodec.codec.encode (AuthAccount.new a) := by
  obtain ⟨e, he⟩ := List.exists_mem_of_ne_nil l hne
  have hsome : s.pending.get (Path.ofString e.1) ≠ none :=
    get_initAccounts_ne_none h (.inr ⟨e.1, List.mem_map_of_mem he, rfl⟩)
  obtain ⟨n, left, right, hroot, hget⟩ := State.exists_root hsome
  rcases get_initAccounts h hget with hold | ⟨a, ha, hkey, hvalue⟩
  · have hnone : InMemoryStore.default.pending.get n.key = none := State.get_new _
    rw [hnone] at hold
    simp at hold
  · exact ⟨n, left, right, hroot, a, ha, hkey, hvalue⟩

omit [BankHost] in
/-- The account that comes last is not at the root, unless it is the only one. -/
theorem root_ne_last {l : List (String × List (Denom × String))}
    {last : String × List (Denom × String)} {s : InMemoryStore}
    (h : initAccounts (l ++ [last]) InMemoryStore.default = some s) (hne : l ≠ [])
    (hnew : last.1 ∉ l.map Prod.fst) {n : AvlNode Path Bytes} {left right : NodeRef Path Bytes}
    (hroot : s.pending.tree.root = .node n left right) : n.key ≠ Path.ofString last.1 := by
  rw [initAccounts_append] at h
  obtain ⟨s₁, h₁, hlast⟩ := Option.bind_eq_some_iff.mp h
  obtain ⟨a, ha, hs⟩ := Option.bind_eq_some_iff.mp hlast
  have htext : a.toString = last.1 := AccountId.fromStr_eq_some ha
  obtain rfl := Option.some.inj hs
  obtain ⟨e, he⟩ := List.exists_mem_of_ne_nil l hne
  have hother : s₁.pending.get (Path.ofString e.1) ≠ none :=
    get_initAccounts_ne_none h₁ (.inr ⟨e.1, List.mem_map_of_mem he, rfl⟩)
  have habsent : s₁.pending.get (Path.ofString a.toString) = none := by
    by_contra hsome
    obtain ⟨value, hvalue⟩ := Option.ne_none_iff_exists'.mp hsome
    rcases get_initAccounts h₁ hvalue with hold | ⟨b, hb, hpath, -⟩
    · have hnone : InMemoryStore.default.pending.get (Path.ofString a.toString) = none :=
        State.get_new _
      rw [hnone] at hold
      simp at hold
    · rw [Path.ofString_injective hpath.symm, htext] at hb
      exact hnew hb
  rw [pending_setAccount] at hroot
  rw [← htext]
  exact State.root_insert_ne habsent hother hroot

end Auth

/-! ## The bank store -/

namespace Bank

omit [AuthCodec] in
/-- With different accounts and denominations every mint of `init` finds an empty list, and
succeeds. -/
theorem initBalances_isSome {l : GenesisEntries} {s : InMemoryStore}
    (hnd : (l.map Prod.fst).Nodup) (hdenoms : ∀ e ∈ l, (e.2.map Prod.fst).Nodup)
    (hparse : ∀ e ∈ l, (AccountId.fromStr e.1).isSome)
    (hempty : ∀ a : AccountId, a.toString ∈ l.map Prod.fst → getAllBalances s a = []) :
    (initBalances (l.map fun e => (e.1, e.2.map fun b => (b.1, b.2.value))) s).isSome := by
  induction l generalizing s with
  | nil => rfl
  | cons e l ih =>
    obtain ⟨a, ha⟩ := Option.isSome_iff_exists.mp (hparse e List.mem_cons_self)
    have htext : a.toString = e.1 := AccountId.fromStr_eq_some ha
    have hlist : getAllBalances s a = [] := hempty a (htext ▸ List.mem_cons_self)
    have hcoins : ((coinsOf e.2).map Coin.denom).Nodup := by
      rw [denoms_coinsOf]
      exact hdenoms e List.mem_cons_self
    have hroom : HasRoom (getAllBalances s a) (coinsOf e.2) := by
      rw [hlist]
      exact hasRoom_nil_of_nodup hcoins
    have hmint := (mintCoins_eq s a (coinsOf e.2)).trans (if_pos hroom)
    rw [List.map_cons, List.nodup_cons] at hnd
    rw [List.map_cons, initBalances, ha, Option.bind_some, List.map_map]
    show ((mintCoins s a (coinsOf e.2)).bind _).isSome
    rw [hmint, Option.bind_some]
    refine ih hnd.2 (fun f hf => hdenoms f (List.mem_cons_of_mem _ hf))
      (fun f hf => hparse f (List.mem_cons_of_mem _ hf)) fun b hb => ?_
    have hba : b ≠ a := by
      rintro rfl
      exact hnd.1 (htext ▸ hb)
    rw [getAllBalances_setBalances, if_neg hba]
    exact hempty b (List.mem_cons_of_mem _ hb)

omit [AuthCodec] in
theorem initBalances_one {account : String} {a : AccountId} (ha : AccountId.fromStr account = some a)
    {balances : List (Denom × GenesisAmount)} (hnd : (balances.map Prod.fst).Nodup) :
    initBalances [(account, balances.map fun b => (b.1, b.2.value))] InMemoryStore.default =
      some (setBalances InMemoryStore.default a (coinsOf balances)) := by
  have hcoins : ((coinsOf balances).map Coin.denom).Nodup := by
    rw [denoms_coinsOf]
    exact hnd
  have hempty : getAllBalances InMemoryStore.default a = [] := rfl
  have hroom : HasRoom (getAllBalances InMemoryStore.default a) (coinsOf balances) := by
    rw [hempty]
    exact hasRoom_nil_of_nodup hcoins
  have hmint := (mintCoins_eq InMemoryStore.default a (coinsOf balances)).trans (if_pos hroom)
  rw [hempty, put_nil hcoins] at hmint
  rw [initBalances, ha, Option.bind_some, List.map_map]
  show (mintCoins InMemoryStore.default a (coinsOf balances)).bind _ = _
  rw [hmint]
  rfl

end Bank

end Init

end Basecoin
