import Mathlib.Data.List.Nodup
import Mathlib.Data.List.Perm.Basic
import Mathlib.Logic.Function.Basic

/-!
# Doubly linked lists threaded through an index type

A doubly linked list kept in an arena is a pair of maps `prev next : ι → Option ι`. The
predicate `Links prev next p l q` says that the indices of `l`, in this order, are linked to
each other, that the first one points back to `p` and that the last one points on to `q`.

Two updates are enough for every list operation:

* `splice`: after the seam between two linked segments is rewritten, they form one list;
* `squeeze`: an index whose own links already point at its neighbours becomes part of the
  list once the neighbours point at it.

Both only write the last `next` of the left segment and the first `prev` of the right one.

A `Walk` follows one of the maps from a start to its end. There is one walk from each start, and
the links of a list give the walks through it in both directions.
-/

namespace Linked

variable {ι : Type*}

/-- The indices of `l` are linked in order, between `p` before the first and `q` after the
last. -/
def Links (prev next : ι → Option ι) : Option ι → List ι → Option ι → Prop
  | _, [], _ => True
  | p, i :: l, q => prev i = p ∧ next i = l.head?.or q ∧ Links prev next (some i) l q

section Links

variable {prev next prev' next' : ι → Option ι} {p q p' q' : Option ι} {l l' l₁ l₂ : List ι}
  {i : ι}

@[simp] theorem links_nil : Links prev next p [] q := trivial

theorem links_cons :
    Links prev next p (i :: l) q ↔
      prev i = p ∧ next i = l.head?.or q ∧ Links prev next (some i) l q := Iff.rfl

theorem links_append :
    Links prev next p (l₁ ++ l₂) q ↔
      Links prev next p l₁ (l₂.head?.or q) ∧ Links prev next (l₁.getLast?.or p) l₂ q := by
  induction l₁ generalizing p with
  | nil => simp
  | cons i l₁ ih =>
    have hhead : (l₁ ++ l₂).head?.or q = l₁.head?.or (l₂.head?.or q) := by
      cases l₁ <;> simp
    have hlast : (i :: l₁).getLast?.or p = l₁.getLast?.or (some i) := by
      cases l₁ <;> simp [List.getLast?_cons]
    rw [List.cons_append, links_cons, links_cons, ih, hhead, hlast]
    tauto

theorem Links.congr (h : Links prev next p l q) (hp : ∀ i ∈ l, prev' i = prev i)
    (hn : ∀ i ∈ l, next' i = next i) : Links prev' next' p l q := by
  induction l generalizing p with
  | nil => trivial
  | cons i l ih =>
    obtain ⟨h₁, h₂, h₃⟩ := h
    refine ⟨?_, ?_, ih h₃ ?_ ?_⟩
    · rw [hp i List.mem_cons_self, h₁]
    · rw [hn i List.mem_cons_self, h₂]
    · intro j hj
      exact hp j (List.mem_cons_of_mem _ hj)
    · intro j hj
      exact hn j (List.mem_cons_of_mem _ hj)

/-- The links of an index inside the list are its neighbours. -/
theorem Links.at (h : Links prev next none (l₁ ++ i :: l₂) none) :
    prev i = l₁.getLast? ∧ next i = l₂.head? := by
  obtain ⟨-, hp, hn, -⟩ := links_append.mp h
  simpa using And.intro hp hn

theorem Links.prev_mem {j : ι} (h : Links prev next none l none) (hi : i ∈ l)
    (hp : prev i = some j) : j ∈ l := by
  obtain ⟨l₁, l₂, rfl⟩ := List.append_of_mem hi
  have hlast : l₁.getLast? = some j := h.at.1.symm.trans hp
  exact List.mem_append_left _ (List.mem_of_getLast? hlast)

/-- With the two maps swapped the list is linked in reverse. -/
theorem Links.reverse (h : Links prev next p l q) : Links next prev q l.reverse p := by
  induction l generalizing p with
  | nil => trivial
  | cons i l ih =>
    obtain ⟨hp, hn, h⟩ := h
    rw [List.reverse_cons, links_append]
    refine ⟨ih h, ?_, ?_, trivial⟩
    · rw [hn, List.getLast?_reverse]
    · rw [hp]
      rfl

theorem Links.next_mem {j : ι} (h : Links prev next none l none) (hi : i ∈ l)
    (hn : next i = some j) : j ∈ l :=
  List.mem_reverse.mp (h.reverse.prev_mem (List.mem_reverse.mpr hi) hn)

/-! ## Walks -/

/-- From `start`, following `next` visits the indices of `l` in this order, and ends. -/
def Walk (next : ι → Option ι) : Option ι → List ι → Prop
  | start, [] => start = none
  | start, i :: l => start = some i ∧ Walk next (next i) l

theorem Walk.unique {start : Option ι} (h : Walk next start l) (h' : Walk next start l') :
    l = l' := by
  induction l generalizing start l' with
  | nil =>
    obtain rfl : start = none := h
    cases l' with
    | nil => rfl
    | cons j l' => cases h'.1
  | cons i l ih =>
    obtain ⟨rfl, hnext⟩ := h
    cases l' with
    | nil => cases h'
    | cons j l' =>
      obtain ⟨hij, hnext'⟩ := h'
      obtain rfl := Option.some.inj hij
      rw [ih hnext hnext']

theorem Links.walk (h : Links prev next p l none) : Walk next l.head? l := by
  induction l generalizing p with
  | nil => rfl
  | cons i l ih =>
    obtain ⟨-, hn, h⟩ := h
    rw [Option.or_none] at hn
    exact ⟨rfl, hn ▸ ih h⟩

theorem Links.walk_back (h : Links prev next none l q) : Walk prev l.getLast? l.reverse := by
  rw [← List.head?_reverse]
  exact h.reverse.walk

end Links

section Update

variable [DecidableEq ι] {prev next : ι → Option ι} {p q p' q' : Option ι} {l l₁ l₂ : List ι}
  {i : ι}

/-- Write the link of `j`, if there is a `j`. -/
def setLink (f : ι → Option ι) (j x : Option ι) : ι → Option ι :=
  match j with
  | some j => Function.update f j x
  | none => f

@[simp] theorem setLink_none (f : ι → Option ι) (x : Option ι) : setLink f none x = f := rfl

theorem setLink_some (f : ι → Option ι) (j : ι) (x : Option ι) :
    setLink f (some j) x = Function.update f j x := rfl

theorem setLink_of_ne {f : ι → Option ι} {j x : Option ι} (h : j ≠ some i) :
    setLink f j x i = f i := by
  cases j with
  | none => rfl
  | some j => exact Function.update_of_ne (fun hij => h (by rw [hij])) _ _

theorem setLink_head_of_not_mem {f : ι → Option ι} {x : Option ι} (h : i ∉ l) :
    setLink f l.head? x i = f i :=
  setLink_of_ne fun hi => h (List.mem_of_head? hi)

theorem setLink_last_of_not_mem {f : ι → Option ι} {x : Option ι} (h : i ∉ l) :
    setLink f l.getLast? x i = f i :=
  setLink_of_ne fun hi => h (List.mem_of_getLast? hi)

/-- Writing the last `next` changes what follows the list. -/
theorem Links.set_next (h : Links prev next p l q) (hnd : l.Nodup) :
    Links prev (setLink next l.getLast? q') p l q' := by
  induction l generalizing p with
  | nil => trivial
  | cons i l ih =>
    obtain ⟨h₁, h₂, h₃⟩ := h
    obtain ⟨hi, hnd⟩ := List.nodup_cons.mp hnd
    cases l with
    | nil => exact ⟨h₁, by simp [setLink_some], trivial⟩
    | cons j l =>
      have hlast : (i :: j :: l).getLast? = (j :: l).getLast? := by simp [List.getLast?_cons]
      rw [hlast]
      exact ⟨h₁, by rw [setLink_last_of_not_mem hi, h₂]; simp, ih h₃ hnd⟩

/-- Writing the first `prev` changes what comes before the list. -/
theorem Links.set_prev (h : Links prev next p l q) (hnd : l.Nodup) :
    Links (setLink prev l.head? p') next p' l q := by
  cases l with
  | nil => trivial
  | cons i l =>
    obtain ⟨-, h₂, h₃⟩ := h
    obtain ⟨hi, -⟩ := List.nodup_cons.mp hnd
    refine ⟨by simp [setLink_some], h₂, h₃.congr ?_ fun _ _ => rfl⟩
    intro j hj
    have hji : j ≠ i := fun h => hi (h ▸ hj)
    simp [setLink_some, Function.update_of_ne hji]

/-- Two segments become one list when the seam between them is rewritten. -/
theorem Links.splice {x y : Option ι} (h₁ : Links prev next p l₁ x) (h₂ : Links prev next y l₂ q)
    (hnd : (l₁ ++ l₂).Nodup) :
    Links (setLink prev l₂.head? (l₁.getLast?.or p)) (setLink next l₁.getLast? (l₂.head?.or q))
      p (l₁ ++ l₂) q := by
  obtain ⟨hnd₁, hnd₂, hdisj⟩ := List.nodup_append'.mp hnd
  refine links_append.mpr ⟨?_, ?_⟩
  · refine (h₁.set_next hnd₁).congr ?_ fun _ _ => rfl
    intro j hj
    exact setLink_head_of_not_mem fun hj' => hdisj hj hj'
  · refine (h₂.set_prev hnd₂).congr (fun _ _ => rfl) ?_
    intro j hj
    exact setLink_last_of_not_mem fun hj' => hdisj hj' hj

/-- An index that already points at its neighbours joins the list once they point at it. -/
theorem Links.squeeze {x y : Option ι} (h₁ : Links prev next none l₁ x)
    (h₂ : Links prev next y l₂ none) (hp : prev i = l₁.getLast?) (hn : next i = l₂.head?)
    (hnd : (l₁ ++ i :: l₂).Nodup) :
    Links (setLink prev l₂.head? (some i)) (setLink next l₁.getLast? (some i))
      none (l₁ ++ i :: l₂) none := by
  obtain ⟨hnd₁, hnd₂, hdisj⟩ := List.nodup_append'.mp hnd
  obtain ⟨hi₂, hnd₂⟩ := List.nodup_cons.mp hnd₂
  have hi₁ : i ∉ l₁ := fun hi => hdisj hi List.mem_cons_self
  refine links_append.mpr ⟨?_, ?_, ?_, ?_⟩
  · refine (h₁.set_next hnd₁).congr ?_ fun _ _ => by simp
    intro j hj
    exact setLink_head_of_not_mem fun hj' => hdisj hj (List.mem_cons_of_mem _ hj')
  · rw [setLink_head_of_not_mem hi₂, hp, Option.or_none]
  · rw [setLink_last_of_not_mem hi₁, hn, Option.or_none]
  · refine (h₂.set_prev hnd₂).congr (fun _ _ => rfl) ?_
    intro j hj
    exact setLink_last_of_not_mem fun hj' => hdisj hj' (List.mem_cons_of_mem _ hj)

end Update

end Linked
