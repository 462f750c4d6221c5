import Basecoin.Store.InMemory

/-!
# Two orders on paths

The tree searches with the derived order of `Path`, component by component; a verifier of a
non-existence proof compares the texts of the paths, byte by byte. UTF-8 keeps the order of
characters (`stringBytes_lt_iff`), so bytes may be read as characters. What is left is the slash:
between components it is no character at all and comes before every one, in the text it is 0x2f
and comes after some. The orders disagree on two texts exactly when their first difference is a
slash against a character below it (`ofString_lt_iff`, `SlashCut`).
-/

namespace Basecoin

open Avl Ics23 Lib

/-! ## UTF-8 keeps the order -/

theorem val_toNat_lt (c : Char) : c.val.toNat < 0x110000 := by
  have h := c.valid
  simp only [UInt32.isValidChar, Nat.isValidChar] at h
  omega

/-- The four bytes of a code point beyond `0xffff`, compared from the front. -/
theorem four_bytes_lt {m n : Nat} (h : m < n) (hn : n < 0x110000) :
    m / 262144 % 8 + 240 < n / 262144 % 8 + 240 ∨
      m / 262144 % 8 + 240 = n / 262144 % 8 + 240 ∧
        (m / 4096 % 64 + 128 < n / 4096 % 64 + 128 ∨
          m / 4096 % 64 + 128 = n / 4096 % 64 + 128 ∧
            (m / 64 % 64 + 128 < n / 64 % 64 + 128 ∨
              m / 64 % 64 + 128 = n / 64 % 64 + 128 ∧ m % 64 + 128 < n % 64 + 128)) := by
  by_cases h₃ : m / 262144 = n / 262144
  · refine .inr ⟨by rw [h₃], ?_⟩
    by_cases h₂ : m / 4096 = n / 4096
    · refine .inr ⟨by rw [h₂], ?_⟩
      by_cases h₁ : m / 64 = n / 64
      · exact .inr ⟨by rw [h₁], by omega⟩
      · exact .inl (by omega)
    · exact .inl (by omega)
  · exact .inl (by omega)

/-- Whatever follows, the smaller character has the smaller encoding. -/
theorem utf8EncodeChar_append_lt {c d : Char} (h : c < d) (x y : Bytes) :
    String.utf8EncodeChar c ++ x < String.utf8EncodeChar d ++ y := by
  have hlt : c.val.toNat < d.val.toNat := h
  have hmax := val_toNat_lt d
  by_cases hc : c.val.toNat ≤ 0xffff
  · simp only [String.utf8EncodeChar, hc]
    split_ifs <;>
      simp only [List.cons_append, List.nil_append, List.cons_lt_cons_iff, UInt8.lt_iff_toNat_lt,
        UInt8.toNat_ofNat', ← UInt8.toNat_inj] <;> omega
  · -- then both take four bytes
    have hbyte : ∀ k, k < 256 → (UInt8.ofNat k).toNat = k := fun k hk => by
      rw [UInt8.toNat_ofNat', Nat.mod_eq_of_lt hk]
    have hfour := four_bytes_lt hlt hmax
    simp only [String.utf8EncodeChar, if_neg hc, if_neg (show ¬ c.val.toNat ≤ 0x7f by omega),
      if_neg (show ¬ c.val.toNat ≤ 0x7ff by omega), if_neg (show ¬ d.val.toNat ≤ 0x7f by omega),
      if_neg (show ¬ d.val.toNat ≤ 0x7ff by omega), if_neg (show ¬ d.val.toNat ≤ 0xffff by omega),
      List.cons_append, List.nil_append, List.cons_lt_cons_iff, UInt8.lt_iff_toNat_lt,
      ← UInt8.toNat_inj]
    simp (disch := omega) only [hbyte]
    rcases hfour with h | ⟨h, h' | ⟨h', h'' | ⟨h'', h'''⟩⟩⟩
    · exact .inl h
    · exact .inr ⟨h, .inl h'⟩
    · exact .inr ⟨h, .inr ⟨h', .inl h''⟩⟩
    · exact .inr ⟨h, .inr ⟨h', .inr ⟨h'', .inl h'''⟩⟩⟩

theorem append_lt_append_left_iff {α : Type*} [LT α] [Std.Irrefl (· < · : α → α → Prop)]
    (w : List α) {x y : List α} :
    w ++ x < w ++ y ↔ x < y := by
  induction w with
  | nil => rfl
  | cons a w ih => rw [List.cons_append, List.cons_append, List.cons_lt_cons_self, ih]

theorem flatMap_utf8EncodeChar_lt_iff {xs ys : List Char} :
    xs.flatMap String.utf8EncodeChar < ys.flatMap String.utf8EncodeChar ↔ xs < ys := by
  induction xs generalizing ys with
  | nil =>
    cases ys with
    | nil => exact iff_of_false (List.not_lt_nil _) (List.not_lt_nil _)
    | cons d ys =>
      refine iff_of_true ?_ (List.nil_lt_cons d ys)
      rw [List.flatMap_nil, List.flatMap_cons]
      obtain ⟨b, bs, hb⟩ := List.exists_cons_of_ne_nil (String.utf8EncodeChar_ne_nil (c := d))
      rw [hb, List.cons_append]
      exact List.nil_lt_cons _ _
  | cons c xs ih =>
    cases ys with
    | nil => exact iff_of_false (List.not_lt_nil _) (List.not_lt_nil _)
    | cons d ys =>
      rw [List.flatMap_cons, List.flatMap_cons, List.cons_lt_cons_iff]
      rcases lt_trichotomy c d with h | rfl | h
      · exact iff_of_true (utf8EncodeChar_append_lt h _ _) (.inl h)
      · rw [append_lt_append_left_iff, ih]
        simp
      · refine iff_of_false (List.lt_asymm (utf8EncodeChar_append_lt h _ _)) ?_
        rintro (hlt | ⟨rfl, -⟩)
        · exact lt_asymm h hlt
        · exact lt_irrefl _ h

theorem stringBytes_lt_iff {s t : String} : stringBytes s < stringBytes t ↔ s < t :=
  flatMap_utf8EncodeChar_lt_iff.trans String.lt_iff_toList_lt.symm

/-! ## Components against characters -/

/-- At the first place where the texts differ, one has a slash and the other a character below
it. -/
def SlashCut (s t : List Char) : Prop :=
  ∃ common c x y, c < '/' ∧ (s = common ++ '/' :: x ∧ t = common ++ c :: y ∨
    s = common ++ c :: x ∧ t = common ++ '/' :: y)

theorem slashCut_cons {c : Char} {s t : List Char} :
    SlashCut (c :: s) (c :: t) ↔ SlashCut s t := by
  constructor
  · rintro ⟨common, d, x, y, hd, h⟩
    cases common with
    | nil =>
      -- the first characters are equal
      have hslash : d = '/' := by
        rcases h with ⟨hs, ht⟩ | ⟨hs, ht⟩
        · exact (List.cons.inj ht).1.symm.trans (List.cons.inj hs).1
        · exact (List.cons.inj hs).1.symm.trans (List.cons.inj ht).1
      exact absurd hd (hslash ▸ lt_irrefl _)
    | cons e common =>
      refine ⟨common, d, x, y, hd, h.imp (fun h => ?_) (fun h => ?_)⟩
      · exact ⟨(List.cons.inj h.1).2, (List.cons.inj h.2).2⟩
      · exact ⟨(List.cons.inj h.1).2, (List.cons.inj h.2).2⟩
  · rintro ⟨common, d, x, y, hd, h⟩
    refine ⟨c :: common, d, x, y, hd, h.imp (fun h => ?_) (fun h => ?_)⟩
    · exact ⟨congrArg _ h.1, congrArg _ h.2⟩
    · exact ⟨congrArg _ h.1, congrArg _ h.2⟩

theorem slashCut_cons_ne {c d : Char} (hcd : c ≠ d) {s t : List Char} :
    SlashCut (c :: s) (d :: t) ↔ c = '/' ∧ d < '/' ∨ c < '/' ∧ d = '/' := by
  constructor
  · rintro ⟨common, e, x, y, he, h⟩
    cases common with
    | nil =>
      rcases h with ⟨hs, ht⟩ | ⟨hs, ht⟩
      · exact .inl ⟨(List.cons.inj hs).1, (List.cons.inj ht).1 ▸ he⟩
      · exact .inr ⟨(List.cons.inj hs).1 ▸ he, (List.cons.inj ht).1⟩
    | cons f common =>
      have hsame : c = d := by
        rcases h with ⟨hs, ht⟩ | ⟨hs, ht⟩ <;>
          exact (List.cons.inj hs).1.trans (List.cons.inj ht).1.symm
      exact absurd hsame hcd
  · rintro (⟨rfl, hd⟩ | ⟨hc, rfl⟩)
    · exact ⟨[], d, s, t, hd, .inl ⟨rfl, rfl⟩⟩
    · exact ⟨[], c, s, t, hc, .inr ⟨rfl, rfl⟩⟩

theorem not_slashCut_nil {t : List Char} : ¬ SlashCut [] t := by
  rintro ⟨common, c, x, y, -, ⟨hs, -⟩ | ⟨hs, -⟩⟩ <;> simp at hs

theorem not_slashCut_nil_right {s : List Char} : ¬ SlashCut s [] := by
  rintro ⟨common, c, x, y, -, ⟨-, ht⟩ | ⟨-, ht⟩⟩ <;> simp at ht

theorem splitOn_slash_cons (s : List Char) :
    ('/' :: s).splitOn '/' = [] :: s.splitOn '/' := by
  rw [List.splitOn, List.splitOnP_cons_eq_if_modifyHead, if_pos (beq_self_eq_true _), List.splitOn]

theorem splitOn_cons {c : Char} (hc : c ≠ '/') (s : List Char) :
    ∃ head tail, s.splitOn '/' = head :: tail ∧ (c :: s).splitOn '/' = (c :: head) :: tail := by
  obtain ⟨head, tail, hs⟩ := List.exists_cons_of_ne_nil (List.splitOn_ne_nil '/' s)
  refine ⟨head, tail, hs, ?_⟩
  rw [List.splitOn, List.splitOnP_cons_eq_if_modifyHead, if_neg (by simpa using hc)]
  rw [List.splitOn] at hs
  rw [hs, List.modifyHead_cons]

/-- A character in front: a slash opens a component, any other lengthens the first. -/
theorem splitOn_cons_lt_cons (c : Char) (s t : List Char) :
    (c :: s).splitOn '/' < (c :: t).splitOn '/' ↔ s.splitOn '/' < t.splitOn '/' := by
  by_cases hc : c = '/'
  · rw [hc, splitOn_slash_cons, splitOn_slash_cons, List.cons_lt_cons_self]
  · obtain ⟨head, tail, hs, hcs⟩ := splitOn_cons hc s
    obtain ⟨head', tail', ht, hct⟩ := splitOn_cons hc t
    rw [hs, ht, hcs, hct]
    simp only [List.cons_lt_cons_iff, lt_irrefl, List.cons.injEq, true_and, false_or]

/-- Different characters in front: the slash comes first, whatever the other is. -/
theorem splitOn_cons_lt_cons_ne {c d : Char} (hcd : c ≠ d) (s t : List Char) :
    (c :: s).splitOn '/' < (d :: t).splitOn '/' ↔ c = '/' ∨ d ≠ '/' ∧ c < d := by
  by_cases hc : c = '/'
  · subst hc
    obtain ⟨head, tail, -, ht⟩ := splitOn_cons (Ne.symm hcd) t
    rw [splitOn_slash_cons, ht]
    exact iff_of_true (List.cons_lt_cons_iff.mpr (.inl (List.nil_lt_cons d head))) (.inl rfl)
  · obtain ⟨head, tail, -, hs⟩ := splitOn_cons hc s
    by_cases hd : d = '/'
    · subst hd
      rw [hs, splitOn_slash_cons, List.cons_lt_cons_iff]
      simp [hc]
    · obtain ⟨head', tail', -, ht⟩ := splitOn_cons hd t
      rw [hs, ht, List.cons_lt_cons_iff, List.cons_lt_cons_iff]
      simp [hc, hd, hcd]

theorem splitOn_nil_lt_cons (c : Char) (s : List Char) :
    ([] : List Char).splitOn '/' < (c :: s).splitOn '/' := by
  by_cases hc : c = '/'
  · obtain ⟨head, tail, hs⟩ := List.exists_cons_of_ne_nil (List.splitOn_ne_nil '/' s)
    rw [hc, splitOn_slash_cons, hs]
    exact List.cons_lt_cons_iff.mpr (.inr ⟨rfl, List.nil_lt_cons _ _⟩)
  · obtain ⟨head, tail, -, hs⟩ := splitOn_cons hc s
    rw [hs]
    exact List.cons_lt_cons_iff.mpr (.inl (List.nil_lt_cons _ _))

/-- Different texts are ordered as their lists of components, unless a slash meets a character
below it. -/
theorem lt_iff_splitOn_lt {s t : List Char} (hne : s ≠ t) :
    s < t ↔ (s.splitOn '/' < t.splitOn '/' ↔ ¬ SlashCut s t) := by
  induction s generalizing t with
  | nil =>
    cases t with
    | nil => exact absurd rfl hne
    | cons d t =>
      exact iff_of_true (List.nil_lt_cons d t)
        (iff_of_true (splitOn_nil_lt_cons d t) not_slashCut_nil)
  | cons c s ih =>
    cases t with
    | nil =>
      refine iff_of_false (List.not_lt_nil _) (fun h => ?_)
      exact lt_asymm (splitOn_nil_lt_cons c s) (h.mpr not_slashCut_nil_right)
    | cons d t =>
      by_cases hcd : c = d
      · -- the first difference comes later
        subst hcd
        rw [slashCut_cons, splitOn_cons_lt_cons, List.cons_lt_cons_self,
          ih fun h => hne (congrArg _ h)]
      · -- here it is, and the orders part only where one of the two is a slash
        rw [slashCut_cons_ne hcd, splitOn_cons_lt_cons_ne hcd, List.cons_lt_cons_iff]
        rcases eq_or_ne c '/' with rfl | hc
        · have hd : ¬ d < '/' ↔ '/' < d := ⟨fun h => lt_of_le_of_ne (not_lt.mp h) hcd, lt_asymm⟩
          simp [hcd, hd]
        · rcases eq_or_ne d '/' with rfl | hd
          · simp [hc]
          · simp [hc, hd, hcd]

theorem map_ofList_lt_iff {xs ys : List (List Char)} :
    xs.map String.ofList < ys.map String.ofList ↔ xs < ys := by
  induction xs generalizing ys with
  | nil => cases ys <;> simp
  | cons x xs ih =>
    cases ys with
    | nil => simp
    | cons y ys =>
      rw [List.map_cons, List.map_cons, List.cons_lt_cons_iff, List.cons_lt_cons_iff, ih,
        String.lt_iff_toList_lt, String.toList_ofList, String.toList_ofList, String.ofList_inj]

namespace Path

/-- **The two orders on paths from strings**: they agree unless a slash meets a character below
it. -/
theorem asBytes_ofString_lt_iff {s t : String} (hne : s ≠ t) :
    asBytes (ofString s) < asBytes (ofString t) ↔
      (ofString s < ofString t ↔ ¬ SlashCut s.toList t.toList) := by
  have hpath : ofString s < ofString t ↔ s.toList.splitOn '/' < t.toList.splitOn '/' :=
    map_ofList_lt_iff
  rw [asBytes_eq, asBytes_eq, toString_ofString, toString_ofString, stringBytes_lt_iff, hpath,
    String.lt_iff_toList_lt]
  exact lt_iff_splitOn_lt fun h => hne (String.toList_injective h)

/-- A key as a verifier reads it: its text, split again. It is the key itself unless one of its
identifiers has a slash in it. -/
def reread (k : Path) : Path := ofString k.toString

@[simp] theorem reread_ofString (s : String) : (ofString s).reread = ofString s := by
  rw [reread, toString_ofString]

theorem asBytes_reread (k : Path) : asBytes k.reread = asBytes k := by
  rw [asBytes_eq, asBytes_eq, reread, toString_ofString]

/-- The text of the key is not on the side of `text` on which the tree has the key: it is `text`
itself, or the orders disagree on what is read back and that is on the key's side, or they agree
and it is on the other. -/
def Misplaced (k : Path) (text : String) : Prop :=
  k.toString = text ∨
    (SlashCut k.toString.toList text.toList ↔ (k.reread < ofString text ↔ k < ofString text))

theorem misplaced_ofString {s text : String} :
    Misplaced (ofString s) text ↔ s = text ∨ SlashCut s.toList text.toList := by
  simp [Misplaced]

/-- Placed right is: below in both orders, or above in both. -/
theorem not_misplaced_iff {k : Path} {text : String} (hk : k ≠ ofString text) :
    ¬ Misplaced k text ↔
      (k < ofString text ∧ asBytes k < asBytes (ofString text)) ∨
        (ofString text < k ∧ asBytes (ofString text) < asBytes k) := by
  have hpath : ofString text < k ↔ ¬ k < ofString text :=
    ⟨lt_asymm, fun h => lt_of_le_of_ne (not_lt.mp h) hk.symm⟩
  by_cases htext : k.toString = text
  · have hbytes : asBytes k = asBytes (ofString text) := by
      rw [asBytes_eq, asBytes_eq, toString_ofString, htext]
    rw [hbytes]
    simp [Misplaced, htext, List.lt_irrefl]
  · have hside : asBytes (ofString text) < asBytes k ↔ ¬ asBytes k < asBytes (ofString text) := by
      rw [asBytes_eq, asBytes_eq, toString_ofString, stringBytes_lt_iff, stringBytes_lt_iff]
      exact ⟨lt_asymm, fun h => lt_of_le_of_ne (not_lt.mp h) (Ne.symm htext)⟩
    have horders := asBytes_ofString_lt_iff htext
    rw [show ofString k.toString = k.reread from rfl, asBytes_reread] at horders
    rw [hside, hpath, horders, Misplaced, or_iff_right htext]
    by_cases hcut : SlashCut k.toString.toList text.toList <;>
      by_cases hread : k.reread < ofString text <;>
        by_cases hk : k < ofString text <;> simp [hcut, hread, hk]

end Path

/-! ## The neighbours of an absent key -/

section Neighbours

variable [Sha256]

/-- What a verifier asks of the sides of a non-existence proof: the bytes of the left key before
those of the absent one, the bytes of the right key after them. -/
def SidesOrdered (q : NonExistenceProof) : Prop :=
  (∀ l, q.left = some l → l.key < q.key) ∧ ∀ r, q.right = some r → q.key < r.key

/-- Another key of the state stands between the two. -/
def State.Separates (s : State) (k p : Path) : Prop :=
  ∃ k' ∈ s.getKeys, k < k' ∧ k' < p ∨ p < k' ∧ k' < k

theorem State.getProof_of_get_none {s : State} {p : Path} (h : s.get p = none) :
    ∃ q, s.getProof p = { proof := some (.nonexist q) } ∧ Refutes q p s.tree := by
  obtain ⟨q, hq, hrefutes⟩ := s.valid.getProof_of_get_none h
  exact ⟨q, by simp only [State.getProof, hq, Option.get_some], hrefutes⟩

theorem State.sidesOrdered_iff {s : State} {text : String} {q : NonExistenceProof}
    (h : s.get (Path.ofString text) = none) (hq : Refutes q (Path.ofString text) s.tree) :
    SidesOrdered q ↔
      ∀ k ∈ s.getKeys, k.Misplaced text → s.Separates k (Path.ofString text) := by
  have hne : ∀ k ∈ s.getKeys, k ≠ Path.ofString text := by
    rintro k hk rfl
    exact s.mem_getKeys.mp hk h
  rw [SidesOrdered, hq.key_eq]
  constructor
  · rintro ⟨hleft, hright⟩ k hk hmis
    by_contra hsep
    -- nothing stands between, so the key is the neighbour on its side
    refine absurd hmis ((Path.not_misplaced_iff (hne k hk)).mpr ?_)
    rcases lt_or_gt_of_ne (hne k hk) with hlt | hgt
    · obtain ⟨l, hl⟩ := Option.ne_none_iff_exists'.mp
        fun hnone => hq.left_none.mp hnone k hk hlt
      obtain ⟨k', v, hgreatest, -, hproves⟩ := hq.left_some l hl
      obtain rfl : k = k' := by
        refine le_antisymm (hgreatest.2 ⟨hk, hlt⟩) (not_lt.mp fun hbetween => hsep ?_)
        exact ⟨k', hgreatest.1.1, .inl ⟨hbetween, hgreatest.1.2⟩⟩
      rw [← hproves.key_eq]
      exact .inl ⟨hlt, hleft l hl⟩
    · obtain ⟨r, hr⟩ := Option.ne_none_iff_exists'.mp
        fun hnone => hq.right_none.mp hnone k hk hgt
      obtain ⟨k', v, hleast, -, hproves⟩ := hq.right_some r hr
      obtain rfl : k = k' := by
        refine le_antisymm (not_lt.mp fun hbetween => hsep ?_) (hleast.2 ⟨hk, hgt⟩)
        exact ⟨k', hleast.1.1, .inr ⟨hleast.1.2, hbetween⟩⟩
      rw [← hproves.key_eq]
      exact .inr ⟨hgt, hright r hr⟩
  · intro hsep
    constructor
    · intro l hl
      obtain ⟨k, v, ⟨⟨hk, hlt⟩, hmax⟩, -, hproves⟩ := hq.left_some l hl
      have hplaced : ¬ k.Misplaced text := by
        intro hmis
        obtain ⟨k', hk', ⟨hbetween, hlt'⟩ | ⟨hgt, hbetween⟩⟩ := hsep k hk hmis
        · exact absurd hbetween (not_lt.mpr (hmax ⟨hk', hlt'⟩))
        · exact lt_asymm hlt (hgt.trans hbetween)
      rcases (Path.not_misplaced_iff (hne k hk)).mp hplaced with ⟨-, hbytes⟩ | ⟨hgt, -⟩
      · rw [hproves.key_eq]
        exact hbytes
      · exact absurd hlt (lt_asymm hgt)
    · intro r hr
      obtain ⟨k, v, ⟨⟨hk, hgt⟩, hmin⟩, -, hproves⟩ := hq.right_some r hr
      have hplaced : ¬ k.Misplaced text := by
        intro hmis
        obtain ⟨k', hk', ⟨hbetween, hlt⟩ | ⟨hgt', hbetween⟩⟩ := hsep k hk hmis
        · exact lt_asymm hgt (hbetween.trans hlt)
        · exact absurd hbetween (not_lt.mpr (hmin ⟨hk', hgt'⟩))
      rcases (Path.not_misplaced_iff (hne k hk)).mp hplaced with ⟨hlt, -⟩ | ⟨-, hbytes⟩
      · exact absurd hgt (lt_asymm hlt)
      · rw [hproves.key_eq]
        exact hbytes

/-- **Non-existence proofs are ordered as verifiers compare keys unless a misplaced key is next to
the absent one.** For every state and every absent path from a string: `get_proof` answers a
non-existence proof of it, and its sides are in byte order if and only if every key of the state
that is misplaced against the path has another key between; the two orders agree on paths from
strings if and only if no slash meets a character below it. -/
theorem neighbours_ordered_iff (s : State) (text : String)
    (h : s.get (Path.ofString text) = none) :
    (∃ q, s.getProof (Path.ofString text) = { proof := some (.nonexist q) } ∧
      q.key = asBytes (Path.ofString text) ∧
      (SidesOrdered q ↔
        ∀ k ∈ s.getKeys, k.Misplaced text → s.Separates k (Path.ofString text))) ∧
      ∀ other, other ≠ text →
        ((asBytes (Path.ofString other) < asBytes (Path.ofString text) ↔
          Path.ofString other < Path.ofString text) ↔ ¬ SlashCut other.toList text.toList) := by
  constructor
  · obtain ⟨q, hq, hrefutes⟩ := State.getProof_of_get_none h
    exact ⟨q, hq, hrefutes.key_eq, State.sidesOrdered_iff h hrefutes⟩
  · intro other hne
    rw [Path.asBytes_ofString_lt_iff hne]
    by_cases hlt : Path.ofString other < Path.ofString text <;> simp [hlt]

end Neighbours

/-! ## A dash beside a slash -/

section Dash

local instance dashSha256 : Sha256 := Sha256.ones

/-- The state after `set("a/z", ..)`. -/
def slashState : State := ((State.new).insert (Path.ofString "a/z") [1]).2

/-- The path `a-b` is absent there: its proof is ordered if and only if `a/z`, misplaced against
it, has another key between. -/
theorem neighbours_ordered_iff_dash :
    ∃ q, slashState.getProof (Path.ofString "a-b") = { proof := some (.nonexist q) } ∧
      q.key = asBytes (Path.ofString "a-b") ∧
      (SidesOrdered q ↔ ∀ k ∈ slashState.getKeys, k.Misplaced "a-b" →
        slashState.Separates k (Path.ofString "a-b")) :=
  (neighbours_ordered_iff slashState "a-b" rfl).1

/-- It has none, and the left side of the proof comes after the absent path. -/
theorem dash_not_ordered : ∃ q, slashState.get (Path.ofString "a-b") = none ∧
    slashState.getProof (Path.ofString "a-b") = { proof := some (.nonexist q) } ∧
    q.key = asBytes (Path.ofString "a-b") ∧ ¬ SidesOrdered q := by
  refine ⟨_, rfl, rfl, rfl, fun h => ?_⟩
  have hleft : asBytes (Path.ofString "a/z") < asBytes (Path.ofString "a-b") := h.1 _ rfl
  exact absurd hleft (by decide)

end Dash

end Basecoin
