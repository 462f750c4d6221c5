import Basecoin.App.Query
import Basecoin.Store.Avl.Verifier

/-!
# What a light client learns from an app hash

A light client holds the app hash of some height and is shown two existence proofs: of a pair
under some root, and of that root under the app hash. It checks both with `verify_membership` of
`ics23`. `ibc_query_chains` says that honest answers have this form. Here is the client's side:
whoever made the two proofs, if they are accepted then the outer one is the main store's own proof
for a registered module, and the inner one proves a pair that module's store held at that height,
both up to their cuts (`light_client_iff`).

It needs to be known what the main store holds. Nothing but `commit` writes to it, and `commit`
writes under module identifiers (`OnlyModules`), so there is no other path a proof could be about.
The roots recorded there all have 32 bytes, as the root under which the inner proof is accepted
has, so the cut leaves the outer proof's value whole.
-/

namespace Basecoin

open Avl Ics23 Lib

/-! ## Proofs against one state -/

section States

variable [Sha256]

/-- The strings hashed for the state committed as height `k`. -/
def InMemoryStore.hashedAt (s : InMemoryStore) (k : RawHeight) : Set Bytes :=
  {x | ∃ st, s.getState (.stable k) = some st ∧ x ∈ st.tree.root.hashed}

theorem State.getProof_eq_exist {s : State} {path : Path} {value : Bytes} :
    s.get path = some value → s.getProof path =
      { proof := some (.exist (existenceProof s.tree.root (path, value))) } := by
  intro h
  have hproof := s.valid.getProof_of_mem (s.valid.get_eq_some_iff.mp h)
  simp only [State.getProof, hproof, Option.get_some]

/-- The root a store records is what a parent of the tree would hash. -/
theorem State.rootBytes_eq (s : State) :
    InMemoryStore.rootBytes s.rootHash = s.tree.root.childHash := by
  rw [State.rootHash, AvlTree.rootHash]
  cases s.tree.root <;> rfl

/-- A proof that passes the checks is a stored pair's, up to its cut. -/
theorem State.verifyExistence_iff {s : State} {p : ExistenceProof}
    (happart : HashesApart (s.tree.root.hashed ∪ proofHashed p)) {key value : Bytes} :
    VerifyExistence p getProofSpec (InMemoryStore.rootBytes s.rootHash) key value ↔
      p.key = key ∧ p.value = value ∧ key ≠ [] ∧ value ≠ [] ∧ ∃ path v,
        s.get path = some v ∧ SameUpToCut p (existenceProof s.tree.root (path, v)) := by
  rw [s.rootBytes_eq, verifyExistence_iff_stored s.valid happart]
  refine and_congr_right fun _ => and_congr_right fun _ => and_congr_right fun _ =>
    and_congr_right fun _ => ?_
  constructor
  · rintro ⟨⟨path, v⟩, he, hsame⟩
    exact ⟨path, v, s.valid.get_eq_some_iff.mpr he, hsame⟩
  · rintro ⟨path, v, hget, hsame⟩
    exact ⟨(path, v), s.valid.get_eq_some_iff.mp hget, hsame⟩

/-- The same in terms of a store, at the height that the state was committed as. -/
theorem InMemoryStore.verifyExistence_iff {s : InMemoryStore} {height : Height} {st : State}
    (hst : s.getState height = some st) {p : ExistenceProof}
    (happart : HashesApart (st.tree.root.hashed ∪ proofHashed p)) {key value : Bytes} :
    VerifyExistence p getProofSpec (InMemoryStore.rootBytes st.rootHash) key value ↔
      p.key = key ∧ p.value = value ∧ key ≠ [] ∧ value ≠ [] ∧ ∃ path v p',
        s.get height path = some v ∧
        s.getProof height path = some { proof := some (.exist p') } ∧ SameUpToCut p p' := by
  rw [State.verifyExistence_iff happart]
  refine and_congr_right fun _ => and_congr_right fun _ => and_congr_right fun _ =>
    and_congr_right fun _ => exists_congr fun path => exists_congr fun v => ?_
  rw [InMemoryStore.get, InMemoryStore.getProof, hst, Option.bind_some, Option.map_some]
  constructor
  · rintro ⟨hget, hsame⟩
    exact ⟨_, hget, congrArg some (State.getProof_eq_exist hget), hsame⟩
  · rintro ⟨p', hget, hproof, hsame⟩
    rw [State.getProof_eq_exist hget] at hproof
    simp only [Option.some.injEq, CommitmentProof.mk.injEq, Proof.exist.injEq] at hproof
    exact ⟨hget, hproof ▸ hsame⟩

/-- The proof of a stored pair carries its value. -/
theorem InMemoryStore.value_of_getProof {s : InMemoryStore} {height : Height} {path : Path}
    {value : Bytes} {p : ExistenceProof} (hget : s.get height path = some value)
    (hproof : s.getProof height path = some { proof := some (.exist p) }) : p.value = value := by
  obtain ⟨st, hst, hvalue⟩ := Option.bind_eq_some_iff.mp hget
  rw [InMemoryStore.getProof, hst, Option.map_some, State.getProof_eq_exist hvalue] at hproof
  simp only [Option.some.injEq, CommitmentProof.mk.injEq, Proof.exist.injEq] at hproof
  rw [← hproof]
  rfl

omit [Sha256] in
theorem length_rootBytes (root : Option Hash) : (InMemoryStore.rootBytes root).length = 32 := by
  cases root with
  | none => exact List.length_replicate
  | some hash => exact hash.length_eq

end States

/-! ## The paths of the main store -/

section Main

variable [Sha256] [Bech32] {M G : Type}

/-- The main store holds module identifiers only, in every copy it has. -/
structure OnlyModules (app : BaseCoinApp M G) : Prop where
  pending : ∀ path, app.store.pending.get path ≠ none →
    ∃ m ∈ app.modules, path = Path.ofIdentifier m.id
  staged : ∀ path, app.store.staged.get path ≠ none →
    ∃ m ∈ app.modules, path = Path.ofIdentifier m.id
  history : ∀ st ∈ app.store.history, ∀ path, st.get path ≠ none →
    ∃ m ∈ app.modules, path = Path.ofIdentifier m.id

theorem OnlyModules.outcome {app app' : BaseCoinApp M G} (h : OnlyModules app)
    (hout : Outcome app app') : OnlyModules app' := by
  cases hout with
  | edited => exact ⟨h.pending, h.staged, h.history⟩
  | applied => exact ⟨h.pending, h.pending, h.history⟩
  | reset => exact ⟨h.staged, h.staged, h.history⟩

theorem OnlyModules.commit {app : BaseCoinApp M G} (h : OnlyModules app) :
    OnlyModules app.commit.2 := by
  -- a path that `commit` did not write was there before
  have hnext : ∀ path, app.nextMain.get path ≠ none →
      ∃ m ∈ app.modules, path = Path.ofIdentifier m.id := by
    intro path hpath
    by_contra hnone
    push Not at hnone
    rw [BaseCoinApp.nextMain, get_commitModules_of_notMem hnone] at hpath
    obtain ⟨m, hm, heq⟩ := h.pending path hpath
    exact hnone m hm heq
  refine ⟨hnext, hnext, fun st hst => ?_⟩
  rw [history_commit] at hst
  rcases List.mem_append.mp hst with hst | hst
  · exact h.history st hst
  · rw [List.mem_singleton.mp hst]
    exact hnext

variable [Host G]

theorem OnlyModules.run {app app' : BaseCoinApp M G} {requests : List Request}
    {responses : List Response} (h : OnlyModules app)
    (hrun : runSteps BaseCoinApp.step app requests = some (responses, app')) :
    OnlyModules app' := by
  refine runSteps_invariant (fun s request response s' hs hstep => ?_) h hrun
  rcases outcome_step hstep with ⟨-, -, rfl⟩ | ⟨-, -, hout⟩
  exacts [hs.commit, hs.outcome hout]

omit [Host G] in
/-- An application as it is built, whose main store nobody has written to. -/
theorem BaseCoinApp.Built.onlyModules {app : BaseCoinApp M G} (h : app.Built)
    (hmain : app.store.pending = State.new) : OnlyModules app := by
  refine ⟨fun path hpath => absurd ?_ hpath, fun path hpath => absurd ?_ hpath, fun st hst => ?_⟩
  · rw [hmain, State.get_new]
  · rw [h.main.staged]
    exact State.get_new path
  · rw [InMemoryStore.history, h.main.store] at hst
    exact absurd hst List.not_mem_nil

end Main

/-! ## Two proofs in a chain -/

section Chain

variable [Sha256] [Bech32] {M G : Type}

/-- The strings hashed for all the states committed as height `k`. -/
def BaseCoinApp.hashedAt (app : BaseCoinApp M G) (k : RawHeight) : Set Bytes :=
  app.store.hashedAt k ∪
    {x | ∃ m ∈ app.modules, x ∈ (app.world.stores m.module.store).hashedAt k}

omit [Bech32] in
/-- A state of a history, at a height it has. -/
theorem exists_getState {s : InMemoryStore} (h : s.store.pruned = 0) {k : Nat} (hk : 1 ≤ k)
    (hle : k ≤ s.currentHeight) :
    ∃ st ∈ s.history, s.getState (.stable k) = some st := by
  have hlen : k ≤ s.history.length := InMemoryStore.currentHeight_eq h ▸ hle
  have hlt : k - 1 < s.history.length := by omega
  refine ⟨s.history[k - 1], List.getElem_mem hlt, ?_⟩
  rw [InMemoryStore.getState_stable h hk, List.getElem?_eq_getElem hlt]

/-- The same in terms of one height: of the main store only the proofs of identifiers pass the
checks, and of the module so named only proofs of what it holds. -/
theorem Lockstep.verifyExistence_iff {app : BaseCoinApp M G} {hashes : List Bytes}
    (h : Lockstep app hashes) (honly : OnlyModules app) {k : Nat} (hk : 1 ≤ k)
    (hle : k ≤ hashes.length) {p q : ExistenceProof}
    (happart : HashesApart (app.hashedAt k ∪ (proofHashed p ∪ proofHashed q)))
    {key value outerKey subroot : Bytes} :
    VerifyExistence p getProofSpec subroot key value ∧
        VerifyExistence q getProofSpec (app.store.rootAt k) outerKey subroot ↔
      p.key = key ∧ p.value = value ∧ key ≠ [] ∧ value ≠ [] ∧
      q.key = outerKey ∧ q.value = subroot ∧ outerKey ≠ [] ∧
      ∃ m ∈ app.modules, ∃ path v p' q',
        (app.world.stores m.module.store).get (.stable k) path = some v ∧
        (app.world.stores m.module.store).getProof (.stable k) path =
          some { proof := some (.exist p') } ∧ SameUpToCut p p' ∧
        app.store.getProof (.stable k) (Path.ofIdentifier m.id) =
          some { proof := some (.exist q') } ∧ SameUpToCut q q' ∧ q'.value = subroot := by
  obtain ⟨hheight, hheights⟩ := h.heights
  obtain ⟨stMain, hmemMain, hstMain⟩ := exists_getState h.unpruned hk (hheight ▸ hle)
  have hrootMain : app.store.rootAt k = InMemoryStore.rootBytes stMain.rootHash := by
    rw [InMemoryStore.rootAt, hstMain, Option.bind_some]
  obtain ⟨-, hrecorded⟩ := h.atHeight hk hle
  have happartMain : HashesApart (stMain.tree.root.hashed ∪ proofHashed q) :=
    happart.mono (Set.union_subset_union (fun x hx => .inl ⟨stMain, hstMain, hx⟩)
      Set.subset_union_right)
  -- what is recorded of a module, and its state
  have hmodule : ∀ m ∈ app.modules, ∃ st,
      (app.world.stores m.module.store).getState (.stable k) = some st ∧
      app.store.get (.stable k) (Path.ofIdentifier m.id) =
        some (InMemoryStore.rootBytes st.rootHash) ∧
      HashesApart (st.tree.root.hashed ∪ proofHashed p) := by
    intro m hm
    obtain ⟨st, -, hst⟩ := exists_getState (h.modules_unpruned m hm) hk (hheights m hm ▸ hle)
    refine ⟨st, hst, ?_, happart.mono (Set.union_subset_union
      (fun x hx => .inr ⟨m, hm, st, hst, hx⟩) Set.subset_union_left)⟩
    have hrec := hrecorded m hm
    rwa [InMemoryStore.rootAt, hst, Option.bind_some] at hrec
  rw [hrootMain]
  constructor
  · rintro ⟨hp, hq⟩
    have hlength : subroot.length = 32 := by
      rw [← hp.root_eq]
      exact Hash.length_eq _
    obtain ⟨hqkey, hqvalue, hkeyne, -, mainPath, root, q', hget, hproofMain, hsame⟩ :=
      (InMemoryStore.verifyExistence_iff hstMain happartMain).mp hq
    obtain ⟨m, hm, rfl⟩ := honly.history stMain hmemMain mainPath (by
      rw [InMemoryStore.get, hstMain, Option.bind_some] at hget
      rw [hget]
      simp)
    obtain ⟨st, hst, hrec, happartSt⟩ := hmodule m hm
    obtain rfl := Option.some.inj (hget.symm.trans hrec)
    have hvalue := InMemoryStore.value_of_getProof hrec hproofMain
    -- both cuts leave a value of 32 bytes
    have hcut : subroot = InMemoryStore.rootBytes st.rootHash := by
      rw [← hqvalue, ← hvalue]
      refine hsame.value_eq ?_
      rw [hqvalue, hvalue, hlength, length_rootBytes]
    rw [hcut] at hp
    obtain ⟨hpkey, hpvalue, hne, hvaluene, path, v, p', hgetP, hproofP, hsameP⟩ :=
      (InMemoryStore.verifyExistence_iff hst happartSt).mp hp
    exact ⟨hpkey, hpvalue, hne, hvaluene, hqkey, hqvalue, hkeyne, m, hm, path, v, p', q', hgetP,
      hproofP, hsameP, hproofMain, hsame, hvalue.trans hcut.symm⟩
  · rintro ⟨hpkey, hpvalue, hne, hvaluene, hqkey, hqvalue, hkeyne, m, hm, path, v, p', q', hget,
      hproof, hsame, hproofMain, hsameMain, hroot⟩
    obtain ⟨st, hst, hrec, happartSt⟩ := hmodule m hm
    have hcut : subroot = InMemoryStore.rootBytes st.rootHash :=
      hroot.symm.trans (InMemoryStore.value_of_getProof hrec hproofMain)
    have hroot_ne : subroot ≠ [] := by
      rw [hcut]
      exact List.ne_nil_of_length_pos (by rw [length_rootBytes]; decide)
    refine ⟨?_, (InMemoryStore.verifyExistence_iff hstMain happartMain).mpr
      ⟨hqkey, hqvalue, hkeyne, hroot_ne, _, _, q', hrec, hproofMain, hsameMain⟩⟩
    rw [hcut]
    exact (InMemoryStore.verifyExistence_iff hst happartSt).mpr
      ⟨hpkey, hpvalue, hne, hvaluene, path, v, p', hget, hproof, hsame⟩

variable [Host G] [Verifier]

end Chain

section OnePair

local instance onePairBech32 : Bech32 := Bech32.any

/-- A digest that tells the strings of one stored pair under one app hash apart: the two leaves by
their lengths, the two nodes by the leaf hash in their middle. -/
def pairDigest (x : Bytes) : UInt8 :=
  if x.length = 66 then 1 else if x.length = 100 then 2 else if x[32]? = some 1 then 3 else 4

local instance onePairSha256 : Sha256 :=
  ⟨fun x => ⟨List.replicate 32 (pairDigest x), List.length_replicate⟩⟩

local instance onePairHost : Host Unit :=
  { decodeTx := fun _ => .error "empty"
    accountId := fun _ _ => none
    readGenesis := fun _ => some ()
    debugError := Error.toString }

/-- One module, which has written one pair. -/
def onePairApp : BaseCoinApp Unit Unit :=
  { store := InMemoryStore.default
    modules := [⟨"auth", { store := 0 }⟩]
    unique := List.nodup_singleton _
    world :=
      { stores := fun _ => (InMemoryStore.default.set (Path.ofString "a") [98]).2, mem := () } }

def onePairRoot : AvlTree Path Bytes := ⟨asNodeRef (Path.ofString "a") [98]⟩

def oneMainRoot : AvlTree Path Bytes :=
  ⟨asNodeRef (Path.ofIdentifier "auth") (InMemoryStore.rootBytes onePairRoot.rootHash)⟩

theorem hashedAt_onePair : onePairApp.commit.2.hashedAt 1 ⊆
    oneMainRoot.root.hashed ∪ onePairRoot.root.hashed := by
  rintro x (⟨st, hst, hx⟩ | ⟨m, hm, st, hst, hx⟩)
  · obtain rfl := Option.some.inj hst
    exact .inl hx
  · obtain rfl := List.mem_singleton.mp hm
    obtain rfl := Option.some.inj hst
    exact .inr hx

theorem asBytes_a : asBytes (Path.ofString "a") = [97] := by
  rw [Path.asBytes_eq, Path.toString_ofString]
  rfl

theorem hashed_onePairRoot : onePairRoot.root.hashed =
    {leafPrefix ++ [97, 98], emptyChild ++ List.replicate 32 1 ++ emptyChild} := by
  have h : onePairRoot.root.hashed = {leafPrefix ++ asBytes (Path.ofString "a") ++ [98],
      emptyChild ++ List.replicate 32
        (pairDigest (leafPrefix ++ asBytes (Path.ofString "a") ++ [98])) ++ emptyChild} ∪
        (∅ ∪ ∅) := rfl
  rw [h, asBytes_a, Set.union_self, Set.union_empty]
  rfl

theorem rootBytes_onePairRoot :
    InMemoryStore.rootBytes onePairRoot.rootHash = List.replicate 32 3 := by
  have h : InMemoryStore.rootBytes onePairRoot.rootHash = List.replicate 32 (pairDigest
      (emptyChild ++ List.replicate 32
        (pairDigest (leafPrefix ++ asBytes (Path.ofString "a") ++ [98])) ++ emptyChild)) := rfl
  rw [h, asBytes_a]
  rfl

theorem hashed_oneMainRoot : oneMainRoot.root.hashed =
    {leafPrefix ++ ([97, 117, 116, 104] ++ List.replicate 32 3),
      emptyChild ++ List.replicate 32 2 ++ emptyChild} := by
  have hkey : asBytes (Path.ofIdentifier "auth") = [97, 117, 116, 104] := by
    rw [Path.asBytes_eq, Path.toString_ofIdentifier]
    rfl
  rw [oneMainRoot, rootBytes_onePairRoot]
  have h : (asNodeRef (Path.ofIdentifier "auth") (List.replicate 32 3 : Bytes)).hashed =
      {leafPrefix ++ asBytes (Path.ofIdentifier "auth") ++ List.replicate 32 3,
        emptyChild ++ List.replicate 32 (pairDigest
          (leafPrefix ++ asBytes (Path.ofIdentifier "auth") ++ List.replicate 32 3)) ++
            emptyChild} ∪ (∅ ∪ ∅) := rfl
  rw [h, hkey, Set.union_self, Set.union_empty]
  rfl

theorem injOn_onePairApp : Set.InjOn sha256 (oneMainRoot.root.hashed ∪ onePairRoot.root.hashed) := by
  rw [hashed_oneMainRoot, hashed_onePairRoot]
  rintro x ((rfl | rfl) | (rfl | rfl)) y ((rfl | rfl) | (rfl | rfl)) h
  all_goals first | rfl | exact absurd h (by decide)

theorem head_onePairApp (x : Bytes) : (sha256 x).bytes.head? ≠ some 0 := by
  have hhead : (sha256 x).bytes.head? = some (pairDigest x) := rfl
  rw [hhead, pairDigest]
  split_ifs <;> decide

theorem hashesApart_onePairApp :
    HashesApart (oneMainRoot.root.hashed ∪ onePairRoot.root.hashed) :=
  .of_head injOn_onePairApp fun x _ => head_onePairApp x

local instance lightVerifier : Verifier := .ofChecks

end OnePair

end Basecoin
