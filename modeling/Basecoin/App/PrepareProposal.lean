import Basecoin.Lib.Loop
import Basecoin.Store.Path

/-!
# `prepare_proposal`

The proposer drops transactions from the end of the list until what is left fits. The counter of
bytes is summed and lowered by saturating arithmetic; below 2^64 it stays the true total of what is
left, and no longer prefix fits (`Draft.Fits`), so the loop stops at the longest one that does
(`prepareProposal_longest`).

A negative limit counts as zero (`usizeOrZero`), and then nothing but empty transactions is left.
The loop takes one transaction a pass, so it needs at most as many passes as there are transactions,
and one more to see that it is over.
-/

namespace Basecoin

open Lib

/-- `RequestPrepareProposal`, with the fields that are read. -/
structure RequestPrepareProposal where
  txs : List Bytes
  maxTxBytes : Int64

structure ResponsePrepareProposal where
  txs : List Bytes
deriving DecidableEq

/-- `usize::MAX`, of 64 bits. -/
def usizeMax : Nat := 2 ^ 64 - 1

def saturatingAdd (a b : Nat) : Nat := min (a + b) usizeMax

def saturatingSub (a b : Nat) : Nat := a - b

/-- `max_tx_bytes.try_into().unwrap_or(0)`. -/
def usizeOrZero (value : Int64) : Nat :=
  if value.toInt < 0 then 0 else value.toInt.toNat

/-- The two variables of the loop. -/
structure Draft where
  txs : List Bytes
  totalTxBytes : Nat

/-- The variables, when the loop is entered. -/
def Draft.ofTxs (txs : List Bytes) : Draft :=
  { txs, totalTxBytes := (txs.map List.length).foldl saturatingAdd 0 }

/-- One pass of the loop. -/
def Draft.popPass (maxTxBytes : Nat) (d : Draft) : Option (Pass Draft) :=
  if d.totalTxBytes > maxTxBytes then
    match d.txs.getLast? with
    | some tx => some (.again
        { txs := d.txs.dropLast, totalTxBytes := saturatingSub d.totalTxBytes tx.length })
    | none => some (.done d)
  else some (.done d)

/-- `prepare_proposal`: a pass for each transaction, and the last one. -/
def prepareProposal (request : RequestPrepareProposal) : Option ResponsePrepareProposal :=
  match passes (Draft.popPass (usizeOrZero request.maxTxBytes)) (request.txs.length + 1)
    (Draft.ofTxs request.txs) with
  | some (.done d) => some { txs := d.txs }
  | _ => none

/-! ## What is left -/

/-- The true total. -/
def totalBytes : List Bytes → Nat
  | [] => 0
  | tx :: txs => tx.length + totalBytes txs

theorem totalBytes_append (txs more : List Bytes) :
    totalBytes (txs ++ more) = totalBytes txs + totalBytes more := by
  induction txs with
  | nil => exact (Nat.zero_add _).symm
  | cons tx txs ih => rw [List.cons_append, totalBytes, totalBytes, ih, Nat.add_assoc]

theorem totalBytes_singleton (tx : Bytes) : totalBytes [tx] = tx.length := rfl

theorem totalBytes_mono {txs longer : List Bytes} (h : txs <+: longer) :
    totalBytes txs ≤ totalBytes longer := by
  obtain ⟨more, rfl⟩ := h
  rw [totalBytes_append]
  exact Nat.le_add_right _ _

/-- The saturating total is the true one where this fits. -/
theorem foldl_saturatingAdd (txs : List Bytes) :
    ∀ total, total + totalBytes txs ≤ usizeMax →
      (txs.map List.length).foldl saturatingAdd total = total + totalBytes txs := by
  induction txs with
  | nil => exact fun total _ => rfl
  | cons tx txs ih =>
    intro total h
    rw [totalBytes, ← Nat.add_assoc] at h
    have hadd : saturatingAdd total tx.length = total + tx.length :=
      Nat.min_eq_left ((Nat.le_add_right _ _).trans h)
    rw [List.map_cons, List.foldl_cons, hadd, ih _ h, totalBytes, Nat.add_assoc]

/-- What the loop keeps: a prefix, its counter, and that no longer prefix fits. -/
structure Draft.Fits (txs : List Bytes) (maxTxBytes : Nat) (d : Draft) : Prop where
  isPrefix : d.txs <+: txs
  counter : d.totalTxBytes = totalBytes d.txs
  longer : ∀ longer, d.txs <+: longer → longer <+: txs → d.txs ≠ longer →
    maxTxBytes < totalBytes longer

namespace Draft

variable {txs : List Bytes} {maxTxBytes : Nat} {d : Draft}

theorem fits_ofTxs (h : totalBytes txs < 2 ^ 64) : (ofTxs txs).Fits txs maxTxBytes where
  isPrefix := List.prefix_refl txs
  counter := by
    have hsum := foldl_saturatingAdd txs 0
    rw [Nat.zero_add] at hsum
    exact hsum (Nat.le_pred_of_lt h)
  longer := fun longer h h' hne => absurd (h.eq_of_length_le h'.length_le) hne

/-- **One pass.** The loop is over where what is left fits, and the last transaction goes where it
does not. -/
theorem Fits.popPass (h : d.Fits txs maxTxBytes) :
    (d.popPass maxTxBytes = some (.done d) ∧ totalBytes d.txs ≤ maxTxBytes) ∨
      ∃ d', d.popPass maxTxBytes = some (.again d') ∧ d'.Fits txs maxTxBytes ∧
        d'.txs.length < d.txs.length := by
  by_cases hgt : d.totalTxBytes > maxTxBytes
  · right
    have hbytes : maxTxBytes < totalBytes d.txs := h.counter ▸ hgt
    obtain hnil | ⟨init, tx, hlast⟩ := d.txs.eq_nil_or_concat'
    · rw [hnil] at hbytes
      exact absurd hbytes (Nat.not_lt_zero _)
    · have hshorter : init <+: d.txs := hlast ▸ List.prefix_append init [tx]
      refine ⟨⟨init, saturatingSub d.totalTxBytes tx.length⟩, ?_,
        ⟨hshorter.trans h.isPrefix, ?_, ?_⟩, ?_⟩
      · rw [Draft.popPass, if_pos hgt, hlast, List.getLast?_append, List.dropLast_concat]
        rfl
      · show d.totalTxBytes - tx.length = totalBytes init
        rw [h.counter, hlast, totalBytes_append, totalBytes_singleton]
        exact Nat.add_sub_cancel _ _
      · intro longer hinit hlonger hne
        -- both are prefixes of the list, and the longer one is not shorter than what was left
        have hlen : d.txs.length ≤ longer.length := by
          rw [hlast, List.length_append]
          exact Nat.lt_of_le_of_ne hinit.length_le fun heq => hne (hinit.eq_of_length heq)
        have hleft : d.txs <+: longer := List.prefix_of_prefix_length_le h.isPrefix hlonger hlen
        exact Nat.lt_of_lt_of_le hbytes (totalBytes_mono hleft)
      · rw [hlast, List.length_append]
        exact Nat.lt_succ_self _
  · left
    refine ⟨by rw [Draft.popPass, if_neg hgt], ?_⟩
    exact h.counter ▸ Nat.le_of_not_lt hgt

end Draft

/-- **A prepared proposal is the longest prefix that fits**, and at every pass on the way the counter
is the true total. -/
theorem prepareProposal_longest (request : RequestPrepareProposal)
    (h : totalBytes request.txs < 2 ^ 64) :
    (∃ response, prepareProposal request = some response ∧ response.txs <+: request.txs ∧
      totalBytes response.txs ≤ usizeOrZero request.maxTxBytes ∧
      ∀ longer, response.txs <+: longer → longer <+: request.txs → response.txs ≠ longer →
        usizeOrZero request.maxTxBytes < totalBytes longer) ∧
    ∀ n p, passes (Draft.popPass (usizeOrZero request.maxTxBytes)) n
        (Draft.ofTxs request.txs) = some p → p.state.totalTxBytes = totalBytes p.state.txs := by
  let limit := usizeOrZero request.maxTxBytes
  have hstart : (Draft.ofTxs request.txs).Fits request.txs limit := Draft.fits_ofTxs h
  constructor
  · have hpass : ∀ d : Draft, d.Fits request.txs limit →
        (∃ d', d.popPass limit = some (.done d') ∧
          (d'.Fits request.txs limit ∧ totalBytes d'.txs ≤ limit)) ∨
        ∃ d', d.popPass limit = some (.again d') ∧ d'.Fits request.txs limit ∧
          d'.txs.length < d.txs.length :=
      fun d hd => hd.popPass.imp_left fun hdone => ⟨d, hdone.1, hd, hdone.2⟩
    obtain ⟨d, hpasses, hfits, hle⟩ := exists_passes (fun d => d.txs.length) hpass
      request.txs.length hstart (Nat.le_refl _)
    refine ⟨⟨d.txs⟩, ?_, hfits.isPrefix, hle, hfits.longer⟩
    rw [prepareProposal, hpasses]
  · intro n p hpasses
    have hkeeps : ∀ (d : Draft) p, d.Fits request.txs limit → d.popPass limit = some p →
        p.state.Fits request.txs limit := by
      intro d p hd hpass
      obtain ⟨hdone, -⟩ | ⟨d', hagain, hd', -⟩ := hd.popPass
      · obtain rfl := Option.some.inj (hdone.symm.trans hpass)
        exact hd
      · obtain rfl := Option.some.inj (hagain.symm.trans hpass)
        exact hd'
    exact (passes_invariant hkeeps hstart hpasses).counter

/-- Of three transactions, one of them empty, the first and the empty one fit into two bytes. -/
theorem prepareProposal_longest_three :
    (∃ response, prepareProposal ⟨[[1], [], [2, 3]], 2⟩ = some response ∧
      response.txs <+: [[1], [], [2, 3]] ∧ totalBytes response.txs ≤ usizeOrZero 2 ∧
      ∀ longer, response.txs <+: longer → longer <+: [[1], [], [2, 3]] → response.txs ≠ longer →
        usizeOrZero 2 < totalBytes longer) ∧
    ∀ n p, passes (Draft.popPass (usizeOrZero 2)) n (Draft.ofTxs [[1], [], [2, 3]]) = some p →
      p.state.totalTxBytes = totalBytes p.state.txs :=
  prepareProposal_longest ⟨[[1], [], [2, 3]], 2⟩ (by decide)

end Basecoin
