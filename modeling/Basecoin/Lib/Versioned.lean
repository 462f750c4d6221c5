import Mathlib.Data.List.Basic
import Mathlib.Data.List.Count
import Mathlib.Data.List.Forall2
import Mathlib.Order.Lattice

/-!
# Versioned values with rollback

What a block-structured store is for, over any type of snapshots: a working value that edits
change, the value it can be rolled back to, and the committed snapshots, of which the oldest may
have been given up. The history only grows (`prefix_committed_runChanges`), so what a height
answers never changes except by being pruned (`atHeight_runChanges`); and a map of snapshots that
commutes with the edits commutes with whole runs (`map_runChanges`). A value is what its edits in
effect make of the one the run started from (`runChanges_eq_inEffect`). Two values under the same
applies, resets and commits are related at every height if their edits relate them (`Agree`).
-/

namespace Lib

/-- A working value, the value a reset returns to, the committed snapshots from the oldest to
the newest, and how many of them are no longer readable. -/
structure Versioned (T : Type*) where
  working : T
  saved : T
  committed : List T
  pruned : Nat

/-- One change; `E` is the type of edits of the working value. -/
inductive Change (E : Type*) where
  | edit (e : E)
  | apply
  | reset
  | commit
  | prune (height : Nat)
deriving DecidableEq

/-- The same change, its edit rewritten. -/
def Change.map {E F : Type*} (g : E → F) : Change E → Change F
  | .edit e => .edit (g e)
  | .apply => .apply
  | .reset => .reset
  | .commit => .commit
  | .prune h => .prune h

theorem Change.map_id {E : Type*} : Change.map (id : E → E) = id := by
  funext c
  cases c <;> rfl

namespace Versioned

variable {T U E F : Type*}

def init (t : T) : Versioned T := ⟨t, t, [], 0⟩

/-- The snapshot committed as height `h`, counting from 1, unless it was pruned. -/
def atHeight (v : Versioned T) (h : Nat) : Option T :=
  if v.pruned < h then v.committed[h - 1]? else none

def change (edit : T → E → T) (v : Versioned T) : Change E → Versioned T
  | .edit e => { v with working := edit v.working e }
  | .apply => { v with saved := v.working }
  | .reset => { v with working := v.saved }
  | .commit => { v with saved := v.working, committed := v.committed ++ [v.working] }
  | .prune h => { v with pruned := max v.pruned h }

def runChanges (edit : T → E → T) (v : Versioned T) (cs : List (Change E)) : Versioned T :=
  cs.foldl (change edit) v

variable {edit : T → E → T}

@[simp] theorem runChanges_nil (v : Versioned T) : v.runChanges edit [] = v := rfl

@[simp] theorem runChanges_cons (v : Versioned T) (c : Change E) (cs : List (Change E)) :
    v.runChanges edit (c :: cs) = (v.change edit c).runChanges edit cs := rfl

theorem runChanges_append (v : Versioned T) (cs ds : List (Change E)) :
    v.runChanges edit (cs ++ ds) = (v.runChanges edit cs).runChanges edit ds :=
  List.foldl_append ..

/-! ## The history only grows -/

theorem prefix_committed_change (v : Versioned T) (c : Change E) :
    v.committed <+: (v.change edit c).committed := by
  cases c with
  | commit => exact List.prefix_append _ _
  | _ => exact List.prefix_refl _

theorem prefix_committed_runChanges (v : Versioned T) (cs : List (Change E)) :
    v.committed <+: (v.runChanges edit cs).committed := by
  induction cs generalizing v with
  | nil => exact List.prefix_refl _
  | cons c cs ih => exact (prefix_committed_change v c).trans (ih _)

theorem length_committed_runChanges [DecidableEq E] (v : Versioned T) (cs : List (Change E)) :
    (v.runChanges edit cs).committed.length = v.committed.length + cs.count .commit := by
  induction cs generalizing v with
  | nil => simp
  | cons c cs ih =>
    rw [runChanges_cons, ih]
    cases c <;> simp [change]
    omega

/-- Whatever happens afterwards, a height that is still readable answers the same snapshot. -/
theorem atHeight_runChanges {v : Versioned T} {cs : List (Change E)} {h : Nat} (hpos : 0 < h)
    (hle : h ≤ v.committed.length) (hp : (v.runChanges edit cs).pruned < h) :
    (v.runChanges edit cs).atHeight h = v.committed[h - 1]? := by
  have hgrow : v.committed <+: (v.runChanges edit cs).committed := prefix_committed_runChanges v cs
  obtain ⟨t, ht⟩ := hgrow
  rw [Versioned.atHeight, if_pos hp, ← ht, List.getElem?_append_left (by omega)]

/-! ## Abstraction -/

/-- Forget part of every snapshot. -/
def map (f : T → U) (v : Versioned T) : Versioned U :=
  { working := f v.working
    saved := f v.saved
    committed := v.committed.map f
    pruned := v.pruned }

theorem atHeight_map (f : T → U) (v : Versioned T) (h : Nat) :
    (v.map f).atHeight h = (v.atHeight h).map f := by
  unfold Versioned.atHeight map
  split
  · exact List.getElem?_map ..
  · rfl

theorem map_change {edit' : U → E → U} {f : T → U} (v : Versioned T) {c : Change E}
    (hf : ∀ t e, c = .edit e → f (edit t e) = edit' (f t) e) :
    (v.change edit c).map f = (v.map f).change edit' c := by
  cases c with
  | edit e => simp [map, change, hf _ e rfl]
  | commit => simp [map, change]
  | _ => rfl

/-- Over changes whose edits meet a condition, it is enough that the map commutes with those. -/
theorem map_runChanges_of_forall {edit' : U → E → U} {f : T → U} {Q : E → Prop}
    (hf : ∀ t e, Q e → f (edit t e) = edit' (f t) e) (v : Versioned T) :
    ∀ {cs : List (Change E)}, (∀ e, .edit e ∈ cs → Q e) →
      (v.runChanges edit cs).map f = (v.map f).runChanges edit' cs := by
  intro cs hcs
  induction cs generalizing v with
  | nil => rfl
  | cons c cs ih =>
    have hchange : (v.change edit c).map f = (v.map f).change edit' c :=
      v.map_change fun t e heq => hf t e (hcs e (heq ▸ List.mem_cons_self))
    rw [runChanges_cons, runChanges_cons, ih _ fun e he => hcs e (List.mem_cons_of_mem c he),
      hchange]

theorem map_runChanges {edit' : U → E → U} {f : T → U}
    (hf : ∀ t e, f (edit t e) = edit' (f t) e) (v : Versioned T) (cs : List (Change E)) :
    (v.runChanges edit cs).map f = (v.map f).runChanges edit' cs :=
  v.map_runChanges_of_forall (Q := fun _ => True) (fun t e _ => hf t e) fun _ _ => trivial

/-- Running rewritten changes is running the changes by the rewritten edits. -/
theorem runChanges_map {edit : T → F → T} (g : E → F) (v : Versioned T) (cs : List (Change E)) :
    v.runChanges edit (cs.map (Change.map g)) = v.runChanges (fun t e => edit t (g e)) cs := by
  induction cs generalizing v with
  | nil => rfl
  | cons c cs ih =>
    rw [List.map_cons, runChanges_cons, runChanges_cons, ih]
    cases c <;> rfl

/-- What the edits of a run preserve, holds of the working value after it if it does of both values
before. -/
theorem working_runChanges {P : T → Prop} {Q : E → Prop} (hP : ∀ t e, P t → Q e → P (edit t e)) :
    ∀ {cs : List (Change E)} {v : Versioned T}, (∀ e, .edit e ∈ cs → Q e) →
      P v.working → P v.saved → P (v.runChanges edit cs).working
  | [], _, _, hw, _ => hw
  | c :: cs, v, hcs, hw, hs => by
    have hrest : ∀ e, .edit e ∈ cs → Q e := fun e he => hcs e (List.mem_cons_of_mem c he)
    rw [runChanges_cons]
    cases c with
    | edit e => exact working_runChanges hP hrest (hP _ e hw (hcs e List.mem_cons_self)) hs
    | apply => exact working_runChanges hP hrest hw hw
    | reset => exact working_runChanges hP hrest hs hs
    | commit => exact working_runChanges hP hrest hw hw
    | prune h => exact working_runChanges hP hrest hw hs

/-! ## The edits in effect -/

/-- Each value, as the one the run started from and the edits since that no reset took back. -/
def inEffect (v : Versioned T) (cs : List (Change E)) : Versioned (T × List E) :=
  (v.map fun t => (t, [])).runChanges (fun r e => (r.1, r.2 ++ [e])) cs

theorem runChanges_eq_inEffect (v : Versioned T) (cs : List (Change E)) :
    v.runChanges edit cs = (v.inEffect cs).map fun r => r.2.foldl edit r.1 := by
  have hedit : ∀ (r : T × List E) (e : E),
      (r.2 ++ [e]).foldl edit r.1 = edit (r.2.foldl edit r.1) e := fun r e => by
    rw [List.foldl_append, List.foldl_cons, List.foldl_nil]
  have hstart : (v.map fun t => ((t, []) : T × List E)).map (fun r => r.2.foldl edit r.1) = v := by
    simp [map, Function.comp_def]
  rw [inEffect, map_runChanges hedit, hstart]

/-- No reset comes before the first value is saved. -/
def keepsStart : List (Change E) → Bool
  | [] => true
  | .reset :: _ => false
  | .apply :: _ => true
  | .commit :: _ => true
  | .edit _ :: cs => keepsStart cs
  | .prune _ :: cs => keepsStart cs

/-- Once a value is saved, no reset goes back before it. -/
theorem keepsStart_append {c : Change E} (hc : c = .apply ∨ c = .commit) (ds : List (Change E)) :
    ∀ cs : List (Change E), keepsStart cs = true → keepsStart (cs ++ c :: ds) = true
  | [], _ => by
    rcases hc with rfl | rfl <;> rfl
  | .reset :: _, h => h
  | .apply :: _, _ => rfl
  | .commit :: _, _ => rfl
  | .edit _ :: cs, h => keepsStart_append hc ds cs h
  | .prune _ :: cs, h => keepsStart_append hc ds cs h

theorem fst_working_runChanges {edit : T × U → E → T × U} (hedit : ∀ r e, (edit r e).1 = r.1) :
    ∀ (cs : List (Change E)) (v : Versioned (T × U)),
      (v.runChanges edit cs).working.1 = if keepsStart cs then v.working.1 else v.saved.1
  | [], _ => rfl
  | c :: cs, v => by
    rw [runChanges_cons, fst_working_runChanges hedit cs]
    cases c with
    | edit e =>
      have hstart : (v.change edit (.edit e)).working.1 = v.working.1 := hedit v.working e
      rw [hstart]
      rfl
    | apply => exact ite_self _
    | reset => exact ite_self _
    | commit => exact ite_self _
    | prune h => rfl

/-- What the edits in effect were made on: the first working value, unless a reset undid it. -/
theorem inEffect_start (v : Versioned T) (cs : List (Change E)) :
    (v.inEffect cs).working.1 = if keepsStart cs then v.working else v.saved := by
  have hfst : ∀ (r : T × List E) (e : E), ((r.1, r.2 ++ [e]) : T × List E).1 = r.1 :=
    fun _ _ => rfl
  rw [inEffect, fst_working_runChanges hfst]
  rfl

/-! What a reading of a value says of the edits that made it. -/

section Readings

variable {U : Type*} {edit : T → E → T}

/-- Edits that all change it alike, or not at all, are counted. -/
theorem foldl_edit_countP (read : T → U) {f : U → U} {hit : E → Bool}
    (hhit : ∀ t e, hit e = true → read (edit t e) = f (read t))
    (hmiss : ∀ t e, hit e = false → read (edit t e) = read t) :
    ∀ (es : List E) (t : T), read (es.foldl edit t) = f^[es.countP hit] (read t)
  | [], _ => rfl
  | e :: es, t => by
    rw [List.foldl_cons, foldl_edit_countP read hhit hmiss es]
    cases he : hit e with
    | true => rw [List.countP_cons_of_pos he, Function.iterate_succ_apply, hhit t e he]
    | false =>
      have hneg : ¬ hit e = true := by rw [he]; exact Bool.false_ne_true
      rw [List.countP_cons_of_neg hneg, hmiss t e he]

/-- What edits add at its end is listed. -/
theorem foldl_edit_filterMap (read : T → List U) {added : E → Option U}
    (h : ∀ t e, read (edit t e) = read t ++ (added e).toList) :
    ∀ (es : List E) (t : T), read (es.foldl edit t) = read t ++ es.filterMap added
  | [], _ => (List.append_nil _).symm
  | e :: es, t => by
    rw [List.foldl_cons, foldl_edit_filterMap read h es, h, List.append_assoc, List.filterMap_cons]
    cases added e with
    | none => rfl
    | some u => rfl

/-- What edits can only make true is true if one of them did. -/
theorem foldl_edit_iff (P : T → Prop) {makes : E → Prop} (h : ∀ t e, P (edit t e) ↔ P t ∨ makes e) :
    ∀ (es : List E) (t : T), P (es.foldl edit t) ↔ P t ∨ ∃ e ∈ es, makes e
  | [], _ => by simp
  | e :: es, t => by
    rw [List.foldl_cons, foldl_edit_iff P h es, h, or_assoc, List.exists_mem_cons_iff]

end Readings

/-- What is in effect when it is saved stays in effect, whatever follows. -/
theorem prefix_inEffect (v : Versioned T) (cs : List (Change E)) {c : Change E}
    (hc : c = .apply ∨ c = .commit) (ds : List (Change E)) :
    (v.inEffect cs).working.2 <+: (v.inEffect (cs ++ c :: ds)).working.2 := by
  unfold inEffect
  rw [runChanges_append, runChanges_cons]
  refine working_runChanges (P := fun r : T × List E => (v.inEffect cs).working.2 <+: r.2)
    (Q := fun _ => True) (fun r e hr _ => hr.trans (List.prefix_append r.2 [e]))
    (fun _ _ => trivial) ?_ ?_
  · rcases hc with rfl | rfl <;> exact List.prefix_rfl
  · rcases hc with rfl | rfl <;> exact List.prefix_rfl

/-- The edit that notes an edit down. -/
def record (es : List E) (e : E) : List E := es ++ [e]

/-- The edits in effect at each version, where all of them are wanted. -/
def edits (cs : List (Change E)) : Versioned (List E) := (init []).runChanges record cs

/-! ## Versions of two values -/

/-- Whichever version is taken, the two values are related. -/
structure Agree (r : T → U → Prop) (v : Versioned T) (u : Versioned U) : Prop where
  working : r v.working u.working
  saved : r v.saved u.saved
  committed : List.Forall₂ r v.committed u.committed
  pruned : v.pruned = u.pruned

namespace Agree

variable {r : T → U → Prop} {v : Versioned T} {u : Versioned U} {edit' : U → F → U}

theorem edited (h : Agree r v u) {e : E} {f : F} (hr : r (edit v.working e) (edit' u.working f)) :
    Agree r (v.change edit (.edit e)) (u.change edit' (.edit f)) :=
  ⟨hr, h.saved, h.committed, h.pruned⟩

theorem apply (h : Agree r v u) : Agree r (v.change edit .apply) (u.change edit' .apply) :=
  ⟨h.working, h.working, h.committed, h.pruned⟩

theorem reset (h : Agree r v u) : Agree r (v.change edit .reset) (u.change edit' .reset) :=
  ⟨h.saved, h.saved, h.committed, h.pruned⟩

theorem commit (h : Agree r v u) : Agree r (v.change edit .commit) (u.change edit' .commit) :=
  ⟨h.working, h.working, List.rel_append h.committed (.cons h.working .nil), h.pruned⟩

theorem length_committed (h : Agree r v u) : v.committed.length = u.committed.length :=
  h.committed.length_eq

/-- So at every height, where there is a snapshot of one there is one of the other. -/
theorem atHeight (h : Agree r v u) (k : Nat) : Option.Rel r (v.atHeight k) (u.atHeight k) := by
  unfold Versioned.atHeight
  rw [h.pruned]
  split
  · generalize k - 1 = i
    have hall := h.committed
    generalize v.committed = ts at hall ⊢
    generalize u.committed = us at hall ⊢
    induction hall generalizing i with
    | nil => exact .none
    | cons hr _ ih =>
      cases i with
      | zero => exact .some hr
      | succ i => exact ih i
  · exact .none

end Agree

end Versioned

end Lib
