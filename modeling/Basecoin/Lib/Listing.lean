import Mathlib.Data.List.Basic
import Mathlib.Data.List.Nodup

/-!
# Listing a space of printed keys

A key is a list of names, printed with a separator between them, and a listing asks for the keys
whose text starts as some other text does. If no name has the separator in it, that text can only
end within a name (`intercalate_prefix_iff`). What is found is then read key by key, each with a
result or an error; a listing is right when there is no error and the results are the entries it is
to list, each once (`Lists`).

Prefixes that stop short of a whole name are not excluded. They are what makes listings wrong in
practice, so the statement says what the last name must start with instead of asking it to be whole.
-/

namespace Lib

variable {α β ε : Type*}

/-! ## Joined names -/

/-- What stands before the first separator is known from any longer text. -/
theorem eq_of_append_cons_prefix {sep : α} {xs ys rest rest' : List α}
    (hx : sep ∉ xs) (hy : sep ∉ ys) (h : xs ++ sep :: rest <+: ys ++ sep :: rest') : xs = ys := by
  induction xs generalizing ys with
  | nil =>
    cases ys with
    | nil => rfl
    | cons y ys => exact absurd (List.cons_prefix_cons.mp h).1 (List.ne_of_not_mem_cons hy)
  | cons x xs ih =>
    cases ys with
    | nil => exact absurd (List.cons_prefix_cons.mp h).1.symm (List.ne_of_not_mem_cons hx)
    | cons y ys =>
      obtain ⟨rfl, htail⟩ := List.cons_prefix_cons.mp h
      rw [ih (List.not_mem_of_not_mem_cons hx) (List.not_mem_of_not_mem_cons hy) htail]

/-- A text without a separator that starts another ends before the first one there. -/
theorem prefix_of_prefix_append_cons {sep : α} {xs ys rest : List α} (hx : sep ∉ xs)
    (h : xs <+: ys ++ sep :: rest) : xs <+: ys := by
  obtain ⟨tail, htail⟩ := h
  rcases List.append_eq_append_iff.mp htail with ⟨as, hys, -⟩ | ⟨bs, hxs, hbs⟩
  · exact ⟨as, hys.symm⟩
  · cases bs with
    | nil =>
      have heq : xs = ys := hxs.trans (List.append_nil ys)
      exact heq ▸ List.prefix_refl xs
    | cons c bs =>
      obtain ⟨rfl, -⟩ := List.cons.inj hbs
      exact absurd (hxs ▸ List.mem_append_right _ List.mem_cons_self) hx

theorem intercalate_cons_of_ne_nil (sep : α) (x : List α) {ys : List (List α)} (hys : ys ≠ []) :
    [sep].intercalate (x :: ys) = x ++ sep :: [sep].intercalate ys := by
  obtain ⟨y, ys, rfl⟩ := List.exists_cons_of_ne_nil hys
  rw [List.intercalate_cons_cons, List.append_assoc, List.singleton_append]

/-- Joined names start another list of joined names when they do up to the last of them, which may
itself be cut short. -/
theorem intercalate_prefix_iff {sep : α} {init ys : List (List α)} {last : List α}
    (hinit : ∀ x ∈ init, sep ∉ x) (hlast : sep ∉ last) (hys : ∀ y ∈ ys, sep ∉ y) (hne : ys ≠ []) :
    [sep].intercalate (init ++ [last]) <+: [sep].intercalate ys ↔
      ∃ y rest, ys = init ++ y :: rest ∧ last <+: y := by
  induction init generalizing ys with
  | nil =>
    obtain ⟨y, ys, rfl⟩ := List.exists_cons_of_ne_nil hne
    rw [List.nil_append, List.intercalate_singleton]
    constructor
    · intro h
      refine ⟨y, ys, rfl, ?_⟩
      cases ys with
      | nil => rwa [List.intercalate_singleton] at h
      | cons y' ys =>
        rw [intercalate_cons_of_ne_nil sep y (List.cons_ne_nil _ _)] at h
        exact prefix_of_prefix_append_cons hlast h
    · rintro ⟨y', rest, heq, h⟩
      obtain ⟨rfl, rfl⟩ := List.cons.inj heq
      refine h.trans ?_
      cases ys with
      | nil =>
        have hone : [sep].intercalate [y] = y := List.intercalate_singleton
        exact hone.symm ▸ List.prefix_refl y
      | cons y' ys =>
        rw [intercalate_cons_of_ne_nil sep y (List.cons_ne_nil _ _)]
        exact List.prefix_append _ _
  | cons x init ih =>
    obtain ⟨y, ys, rfl⟩ := List.exists_cons_of_ne_nil hne
    have hx : sep ∉ x := hinit x List.mem_cons_self
    have hy : sep ∉ y := hys y List.mem_cons_self
    rw [List.cons_append, intercalate_cons_of_ne_nil sep x (List.concat_ne_nil _ _)]
    cases ys with
    | nil =>
      rw [List.intercalate_singleton]
      refine iff_of_false (fun h => ?_) ?_
      · exact hy (h.subset (List.mem_append_right _ List.mem_cons_self))
      · rintro ⟨y', rest, heq, -⟩
        obtain ⟨-, hnil⟩ := List.cons.inj heq
        exact List.append_ne_nil_of_right_ne_nil _ (List.cons_ne_nil _ _) hnil.symm
    | cons y' ys =>
      rw [intercalate_cons_of_ne_nil sep y (List.cons_ne_nil _ _)]
      have hrest := ih (fun x hx => hinit x (List.mem_cons_of_mem _ hx))
        (fun y hy => hys y (List.mem_cons_of_mem _ hy)) (List.cons_ne_nil y' ys)
      constructor
      · intro h
        obtain rfl := eq_of_append_cons_prefix hx hy h
        rw [List.prefix_append_right_inj, List.cons_prefix_cons] at h
        obtain ⟨z, rest, heq, hz⟩ := hrest.mp h.2
        exact ⟨z, rest, congrArg (x :: ·) heq, hz⟩
      · rintro ⟨z, rest, heq, hz⟩
        obtain ⟨rfl, htail⟩ := List.cons.inj heq
        rw [List.prefix_append_right_inj, List.cons_prefix_cons]
        exact ⟨rfl, hrest.mpr ⟨z, rest, htail, hz⟩⟩

/-! ## Results, read one by one -/

theorem mapM_eq_ok_iff {f : α → Except ε β} {l : List α} {ys : List β} :
    l.mapM f = .ok ys ↔ l.map f = ys.map .ok := by
  induction l generalizing ys with
  | nil =>
    rw [List.mapM_nil, List.map_nil]
    cases ys with
    | nil => exact iff_of_true rfl rfl
    | cons y ys => exact iff_of_false (fun h => by cases h) (fun h => by cases h)
  | cons x l ih =>
    rw [List.mapM_cons, List.map_cons]
    cases hx : f x with
    | error e =>
      refine iff_of_false (fun h => by cases h) fun h => ?_
      cases ys with
      | nil => cases h
      | cons y ys => cases (List.cons.inj h).1
    | ok b =>
      cases hl : l.mapM f with
      | error e =>
        refine iff_of_false (fun h => by cases h) fun h => ?_
        cases ys with
        | nil => cases h
        | cons y ys => cases (ih.mpr (List.cons.inj h).2).symm.trans hl
      | ok bs =>
        have hbs := ih.mp hl
        constructor
        · intro h
          obtain rfl := Except.ok.inj h
          rw [List.map_cons, hbs]
        · intro h
          cases ys with
          | nil => cases h
          | cons y ys =>
            obtain ⟨hy, htail⟩ := List.cons.inj h
            obtain rfl := Except.ok.inj hy
            obtain rfl := Except.ok.inj (hl.symm.trans (ih.mpr htail))
            rfl

/-- The listing succeeds, and has each of the entries once and nothing else. -/
def Lists (result : Except ε (List β)) (entry : β → Prop) : Prop :=
  ∃ list, result = .ok list ∧ list.Nodup ∧ ∀ b, b ∈ list ↔ entry b

/-- A listing of other things, one for each entry. -/
theorem Lists.map {γ : Type*} {result : Except ε (List β)} {entry : β → Prop} {f : β → γ}
    (h : Lists result entry) (hinj : ∀ b b', entry b → entry b' → f b = f b' → b = b') :
    Lists (result.map (List.map f)) fun c => ∃ b, entry b ∧ f b = c := by
  obtain ⟨list, rfl, hnodup, hmem⟩ := h
  refine ⟨list.map f, rfl, hnodup.map_on fun b hb b' hb' heq => ?_, fun c => ?_⟩
  · exact hinj b b' ((hmem b).mp hb) ((hmem b').mp hb') heq
  · rw [List.mem_map]
    exact exists_congr fun b => and_congr_left fun _ => hmem b

/-- Keys without repetition that read, apart from each other, as the entries. -/
theorem lists_mapM {f : α → Except ε β} {l : List α} {entry : β → Prop} (hnodup : l.Nodup)
    (hok : ∀ a ∈ l, ∃ b, f a = .ok b)
    (hinj : ∀ a ∈ l, ∀ a' ∈ l, ∀ b, f a = .ok b → f a' = .ok b → a = a')
    (hentry : ∀ b, entry b ↔ ∃ a ∈ l, f a = .ok b) : Lists (l.mapM f) entry := by
  obtain ⟨list, hlist⟩ : ∃ list : List β, l.map f = list.map .ok := by
    clear hentry hnodup hinj
    induction l with
    | nil => exact ⟨[], rfl⟩
    | cons a l ih =>
      obtain ⟨b, hb⟩ := hok a List.mem_cons_self
      obtain ⟨list, hlist⟩ := ih fun a ha => hok a (List.mem_cons_of_mem _ ha)
      exact ⟨b :: list, by rw [List.map_cons, List.map_cons, hb, hlist]⟩
  have hmem : ∀ b, b ∈ list ↔ ∃ a ∈ l, f a = .ok b := fun b => by
    rw [← List.mem_map, hlist, List.mem_map]
    constructor
    · intro hb
      exact ⟨b, hb, rfl⟩
    · rintro ⟨b', hb', heq⟩
      exact Except.ok.inj heq ▸ hb'
  refine ⟨list, mapM_eq_ok_iff.mpr hlist, ?_, fun b => (hmem b).trans (hentry b).symm⟩
  refine List.Nodup.of_map (fun b => (.ok b : Except ε β)) ?_
  rw [← hlist]
  refine hnodup.map_on fun a ha a' ha' heq => ?_
  obtain ⟨b, hb⟩ := hok a ha
  exact hinj a ha a' ha' b hb (heq ▸ hb)

end Lib
