import Mathlib.Logic.Basic

/-!
# Loops that may not end

A loop is the body of one pass, which leaves the loop or enters it again, or panics. `passes` runs
it for so many passes, and `Ends` says that some number of them is enough. A loop ends with a
postcondition if each pass keeps an invariant and makes a measure smaller (`exists_passes`), and
never ends from where each pass leads to another (`not_ends`).

The number of passes bounds nothing but the unfolding. A loop that has not ended after so many of
them answers `.again`, which is neither the result of a loop that ended nor a panic, so no
statement about what a loop ends with can be true for want of passes. What is to hold at every pass
on the way, whether or not the loop ends, is the business of `passes_invariant`.
-/

namespace Lib

/-- What a pass leaves: the loop is over, or goes on. -/
inductive Pass (σ : Type*) where
  | done (s : σ)
  | again (s : σ)

def Pass.state {σ : Type*} : Pass σ → σ
  | done s => s
  | again s => s

variable {σ : Type*}

/-- At most so many passes. -/
def passes (body : σ → Option (Pass σ)) : Nat → σ → Option (Pass σ)
  | 0, s => some (.again s)
  | n + 1, s =>
    match body s with
    | none => none
    | some (.done s') => some (.done s')
    | some (.again s') => passes body n s'

/-- Enough passes, entered with `s`, leave the loop with `s'`. -/
def Ends (body : σ → Option (Pass σ)) (s s' : σ) : Prop := ∃ n, passes body n s = some (.done s')

variable {body : σ → Option (Pass σ)} {s s₁ s' : σ}

theorem passes_succ_of_done (h : body s = some (.done s₁)) (n : Nat) :
    passes body (n + 1) s = some (.done s₁) := by
  rw [passes, h]

theorem passes_succ_of_again (h : body s = some (.again s₁)) (n : Nat) :
    passes body (n + 1) s = passes body n s₁ := by
  rw [passes, h]

theorem ends_iff_of_done (h : body s = some (.done s₁)) : Ends body s s' ↔ s₁ = s' := by
  constructor
  · rintro ⟨n, hn⟩
    cases n with
    | zero => cases hn
    | succ n =>
      rw [passes_succ_of_done h] at hn
      exact Pass.done.inj (Option.some.inj hn)
  · rintro rfl
    exact ⟨1, passes_succ_of_done h 0⟩

theorem ends_iff_of_again (h : body s = some (.again s₁)) : Ends body s s' ↔ Ends body s₁ s' := by
  constructor
  · rintro ⟨n, hn⟩
    cases n with
    | zero => cases hn
    | succ n => exact ⟨n, passes_succ_of_again h n ▸ hn⟩
  · rintro ⟨n, hn⟩
    exact ⟨n + 1, (passes_succ_of_again h n).trans hn⟩

/-- **The rule for total correctness.** The measure bounds the passes. -/
theorem exists_passes {Inv Post : σ → Prop} (measure : σ → Nat)
    (hpass : ∀ s, Inv s → (∃ s', body s = some (.done s') ∧ Post s') ∨
      ∃ s', body s = some (.again s') ∧ Inv s' ∧ measure s' < measure s) :
    ∀ (n : Nat) {s : σ}, Inv s → measure s ≤ n →
      ∃ s', passes body (n + 1) s = some (.done s') ∧ Post s' := by
  intro n
  induction n with
  | zero =>
    intro s hs hle
    obtain ⟨s', hdone, hpost⟩ | ⟨s₁, -, -, hlt⟩ := hpass s hs
    · exact ⟨s', passes_succ_of_done hdone 0, hpost⟩
    · exact absurd (Nat.lt_of_lt_of_le hlt hle) (Nat.not_lt_zero _)
  | succ n ih =>
    intro s hs hle
    obtain ⟨s', hdone, hpost⟩ | ⟨s₁, hagain, hs₁, hlt⟩ := hpass s hs
    · exact ⟨s', passes_succ_of_done hdone _, hpost⟩
    · obtain ⟨s', hpasses, hpost⟩ := ih hs₁ (Nat.le_of_lt_succ (Nat.lt_of_lt_of_le hlt hle))
      exact ⟨s', (passes_succ_of_again hagain _).trans hpasses, hpost⟩

/-- **The invariant rule.** However far the loop has come. -/
theorem passes_invariant {Inv : σ → Prop}
    (hpass : ∀ s p, Inv s → body s = some p → Inv p.state) :
    ∀ {n : Nat} {s : σ} {p : Pass σ}, Inv s → passes body n s = some p → Inv p.state := by
  intro n
  induction n with
  | zero =>
    intro s p hs hn
    obtain rfl := Option.some.inj hn
    exact hs
  | succ n ih =>
    intro s p hs hn
    cases hbody : body s with
    | none => rw [passes, hbody] at hn; cases hn
    | some q =>
      have hq := hpass s q hs hbody
      cases q with
      | done s₁ =>
        rw [passes_succ_of_done hbody] at hn
        obtain rfl := Option.some.inj hn
        exact hq
      | again s₁ =>
        rw [passes_succ_of_again hbody] at hn
        exact ih hq hn

/-- **The rule for loops that never end.** -/
theorem not_ends {Inv : σ → Prop}
    (hpass : ∀ s, Inv s → ∃ s', body s = some (.again s') ∧ Inv s') :
    ∀ {s : σ}, Inv s → ∀ s', ¬ Ends body s s' := by
  rintro s hs s' ⟨n, hn⟩
  induction n generalizing s with
  | zero => cases hn
  | succ n ih =>
    obtain ⟨s₁, hagain, hs₁⟩ := hpass s hs
    exact ih hs₁ (passes_succ_of_again hagain n ▸ hn)

end Lib
