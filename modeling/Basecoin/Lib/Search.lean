import Mathlib.Order.Basic

/-!
# Searches whose test may panic

A search that runs over a list and calls a test which may panic (`none`) does not panic as long as
the test never does, and then is the search of the standard library (`findSomeM?_eq`,
`position_eq`). In a sorted list what a search finds has nothing between it and its neighbour
(`notMem_between`).

The searches are written over the test alone, so the two questions stay apart: whether the test
panics on any element, which is about the elements, and what comes first in the order, which is
about the list. `exists_of_findSome?` answers the second for a search that maps what it finds.
-/

namespace Lib

variable {α β : Type*}

/-- The index of the first element that passes a test which may panic. -/
def position (test : α → Option Bool) : List α → Option (Option Nat)
  | [] => some none
  | a :: as => (test a).bind fun
    | true => some (some 0)
    | false => (position test as).map (Option.map (· + 1))

/-- A search whose test never panics is a search. -/
theorem findSomeM?_eq {test : α → Option (Option β)} :
    ∀ {l : List α}, (∀ a ∈ l, (test a).isSome) →
      l.findSomeM? test = some (l.findSome? fun a => (test a).join)
  | [], _ => rfl
  | a :: l, h => by
    obtain ⟨found, hfound⟩ := Option.isSome_iff_exists.mp (h a List.mem_cons_self)
    have htail := findSomeM?_eq (l := l) fun b hb => h b (List.mem_cons_of_mem a hb)
    rw [List.findSomeM?, hfound, List.findSome?_cons, hfound]
    cases found with
    | none => exact htail
    | some b => rfl

theorem position_eq {test : α → Option Bool} :
    ∀ {l : List α}, (∀ a ∈ l, (test a).isSome) →
      position test l = some (l.findIdx? fun a => (test a).getD false)
  | [], _ => rfl
  | a :: l, h => by
    obtain ⟨found, hfound⟩ := Option.isSome_iff_exists.mp (h a List.mem_cons_self)
    have htail := position_eq (l := l) fun b hb => h b (List.mem_cons_of_mem a hb)
    rw [position, hfound, List.findIdx?_cons, hfound, htail]
    cases found <;> rfl

/-- What a search in a sorted list finds is the least of what it could have found. -/
theorem exists_of_findSome? [PartialOrder α] {l : List α} (hl : l.Pairwise (· < ·))
    {test : α → Option β} {b : β} (h : l.findSome? test = some b) :
    ∃ a ∈ l, test a = some b ∧ ∀ a' ∈ l, test a' ≠ none → a ≤ a' := by
  obtain ⟨before, a, after, rfl, ha, hbefore⟩ := List.findSome?_eq_some_iff.mp h
  refine ⟨a, List.mem_append_right _ List.mem_cons_self, ha, fun a' ha' hne => ?_⟩
  rcases List.mem_append.mp ha' with hin | hin
  · exact absurd (hbefore a' hin) hne
  · rcases List.mem_cons.mp hin with rfl | hin
    · exact le_refl _
    · have hafter := (List.pairwise_append.mp hl).2.1
      exact le_of_lt (List.rel_of_pairwise_cons hafter hin)

/-- Nothing of a sorted list stands between two neighbours. -/
theorem notMem_between [Preorder α] {l : List α} (hl : l.Pairwise (· < ·)) {i : Nat}
    (hi : i + 1 < l.length) {a : α} (hlt : l[i] < a) (hgt : a < l[i + 1]) : a ∉ l := by
  intro ha
  obtain ⟨j, hj, rfl⟩ := List.getElem_of_mem ha
  rcases Nat.lt_trichotomy j i with hji | rfl | hji
  · exact lt_asymm hlt (List.pairwise_iff_getElem.mp hl j i hj _ hji)
  · exact lt_irrefl _ hlt
  · rcases Nat.eq_or_lt_of_le (Nat.succ_le_of_lt hji) with rfl | hij
    · exact lt_irrefl _ hgt
    · exact lt_asymm hgt (List.pairwise_iff_getElem.mp hl (i + 1) j hi hj hij)

end Lib
