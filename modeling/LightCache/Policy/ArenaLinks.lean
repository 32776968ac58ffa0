import LightCache.Lib.Linked
import LightCache.Policy.LinkedArena

/-!
# The links of an arena's nodes

The two link fields of the node vector are read as maps `prevs` and `nexts` on indices, and
everything else a node holds as `payload`. Each write of the source is then an update of one
of the maps that leaves the payload alone: `writeSeam_ok` for the writes that `unlink` and
`relink` share, `pushHead_ok` for those of `move_to_head`, and `swapRemove_ok` for the slot
that `Vec::swap_remove` fills.
-/

namespace LightCache

open Linked

namespace LinkedArena

variable {I N : Type} [LinkedNode I N]

/-! ## A node without its links -/

/-- The node with both links cleared. -/
def bare (n : N) : N := LinkedNode.setNext (LinkedNode.setPrev n none) none

@[simp] theorem item_bare (n : N) : LinkedNode.item (bare n) = LinkedNode.item n := by
  simp [bare]

@[simp] theorem bare_setPrev (n : N) (p : Option ℕ) : bare (LinkedNode.setPrev n p) = bare n := by
  simp [bare]

@[simp] theorem bare_setNext (n : N) (q : Option ℕ) : bare (LinkedNode.setNext n q) = bare n := by
  simp [bare]

@[simp] theorem bare_new (t : Instant) (k : I) (p q : Option ℕ) :
    bare (LinkedNode.new t k p q : N) = LinkedNode.new t k none none := by
  simp [bare]

/-- The back links of a vector of nodes. -/
def prevs (nodes : List N) (i : ℕ) : Option ℕ := nodes[i]?.bind LinkedNode.prev

/-- The forward links of a vector of nodes. -/
def nexts (nodes : List N) (i : ℕ) : Option ℕ := nodes[i]?.bind LinkedNode.next

/-- The nodes of a vector without their links. -/
def payload (nodes : List N) (i : ℕ) : Option N := nodes[i]?.map bare

section Modify

variable {nodes : List N} {i : ℕ}

theorem payload_eq_none : payload nodes i = none ↔ nodes.length ≤ i := by
  simp [payload]

theorem payload_isSome : (payload nodes i).isSome ↔ i < nodes.length := by
  simp [payload]

theorem prevs_setPrev (hi : i < nodes.length) (p : Option ℕ) :
    prevs (nodes.modify i (LinkedNode.setPrev · p)) = Function.update (prevs nodes) i p := by
  funext j
  by_cases hj : j = i
  · subst hj
    simp [prevs, List.getElem?_eq_getElem hi]
  · rw [Function.update_of_ne hj, prevs, List.getElem?_modify_ne _ _ (Ne.symm hj), prevs]

theorem nexts_setNext (hi : i < nodes.length) (q : Option ℕ) :
    nexts (nodes.modify i (LinkedNode.setNext · q)) = Function.update (nexts nodes) i q := by
  funext j
  by_cases hj : j = i
  · subst hj
    simp [nexts, List.getElem?_eq_getElem hi]
  · rw [Function.update_of_ne hj, nexts, List.getElem?_modify_ne _ _ (Ne.symm hj), nexts]

/-- A view of the nodes that a change leaves alone at each node is left alone everywhere. -/
theorem view_modify {α : Type*} {f : N → N} {g : N → Option α} (h : ∀ n, g (f n) = g n) :
    (fun j : ℕ => (nodes.modify i f)[j]?.bind g) = fun j => nodes[j]?.bind g := by
  funext j
  rw [List.getElem?_modify]
  cases nodes[j]? with
  | none => rfl
  | some n => by_cases hij : i = j <;> simp [hij, h]

theorem nexts_setPrev (p : Option ℕ) :
    nexts (nodes.modify i (LinkedNode.setPrev · p)) = nexts nodes :=
  view_modify fun n => LinkedNode.next_setPrev n p

theorem prevs_setNext (q : Option ℕ) :
    prevs (nodes.modify i (LinkedNode.setNext · q)) = prevs nodes :=
  view_modify fun n => LinkedNode.prev_setNext n q

theorem payload_modify {f : N → N} (h : ∀ n, bare (f n) = bare n) :
    payload (nodes.modify i f) = payload nodes := by
  have hbare (n : N) : (some ∘ bare) (f n) = (some ∘ bare) n := congrArg some (h n)
  have hview : (fun j => (nodes.modify i f)[j]?.bind (some ∘ bare)) =
      fun j => nodes[j]?.bind (some ∘ bare) := view_modify hbare
  funext j
  simpa only [payload, Option.map_eq_bind] using congrFun hview j

end Modify

theorem lt_of_view {α : Type*} {nodes : List N} {i : ℕ} {g : N → Option α} {x : α}
    (h : nodes[i]?.bind g = some x) : i < nodes.length := by
  obtain ⟨n, hn, -⟩ := Option.bind_eq_some_iff.mp h
  exact (List.getElem?_eq_some_iff.mp hn).1

/-! ## Growing and shrinking the vector -/

section Append

variable {nodes : List N} {n : N}

theorem getElem?_append_one (j : ℕ) :
    (nodes ++ [n])[j]? = if j = nodes.length then some n else nodes[j]? := by
  rcases lt_trichotomy j nodes.length with hj | hj | hj
  · rw [List.getElem?_append_left hj, if_neg hj.ne]
  · subst hj; simp
  · rw [if_neg hj.ne', List.getElem?_eq_none (by simp; omega), List.getElem?_eq_none (by omega)]

theorem prevs_append : prevs (nodes ++ [n]) =
    Function.update (prevs nodes) nodes.length (LinkedNode.prev n) := by
  funext j
  rw [prevs, getElem?_append_one, Function.update_apply]
  split_ifs <;> rfl

theorem nexts_append : nexts (nodes ++ [n]) =
    Function.update (nexts nodes) nodes.length (LinkedNode.next n) := by
  funext j
  rw [nexts, getElem?_append_one, Function.update_apply]
  split_ifs <;> rfl

theorem payload_append : payload (nodes ++ [n]) =
    Function.update (payload nodes) nodes.length (some (bare n)) := by
  funext j
  rw [payload, getElem?_append_one, Function.update_apply]
  split_ifs <;> rfl

end Append

theorem swapRemove_ok {nodes : List N} {i : ℕ} {n : N} (hi : nodes[i]? = some n) :
    ∃ nodes' : List N, swapRemove nodes i = .ok (n, nodes') ∧ nodes'.length + 1 = nodes.length ∧
      ∀ j < nodes'.length, nodes'[j]? = nodes[if j = i then nodes'.length else j]? := by
  have hlt : i < nodes.length := (List.getElem?_eq_some_iff.mp hi).1
  have hlast : nodes.getLast? = some (nodes[nodes.length - 1]) := by
    rw [List.getLast?_eq_getElem?, List.getElem?_eq_getElem]
  refine ⟨(nodes.set i nodes[nodes.length - 1]).dropLast, ?_, ?_, ?_⟩
  · simp only [swapRemove, hi, hlast]
  · simp only [List.length_dropLast, List.length_set]
    omega
  · intro j hj
    simp only [List.length_dropLast, List.length_set] at hj ⊢
    rw [List.getElem?_dropLast, if_pos (by simpa using hj)]
    by_cases hij : j = i
    · subst hij
      rw [List.getElem?_set_self hlt, if_pos rfl, List.getElem?_eq_getElem]
    · rw [List.getElem?_set_ne (Ne.symm hij), if_neg hij]

/-! ## Rewriting a seam -/

/-- `x` becomes the successor of `parent`, or the head. -/
def linkNext (a : LinkedArena I N) (parent x : Option ℕ) : Except Fault (LinkedArena I N) :=
  match parent with
  | some parent => a.setNextUnchecked parent x
  | none => .ok { a with head := x }

/-- `y` becomes the predecessor of `child`, or the tail. -/
def linkPrev (a : LinkedArena I N) (child y : Option ℕ) : Except Fault (LinkedArena I N) :=
  match child with
  | some child => a.setPrevUnchecked child y
  | none => .ok { a with tail := y }

/-- The writes that `unlink` and `relink` both make. -/
def writeSeam (a : LinkedArena I N) (parent child x y : Option ℕ) :
    Except Fault (LinkedArena I N) := do
  let a ← a.linkNext parent x
  a.linkPrev child y

/-- `a'` is `a` with one seam rewritten. -/
structure Seam (a a' : LinkedArena I N) (parent child x y : Option ℕ) : Prop where
  idxOf : a'.idxOf = a.idxOf
  length : a'.nodes.length = a.nodes.length
  payload : payload a'.nodes = payload a.nodes
  prevs : prevs a'.nodes = setLink (prevs a.nodes) child y
  nexts : nexts a'.nodes = setLink (nexts a.nodes) parent x
  head : a'.head = if parent = none then x else a.head
  tail : a'.tail = if child = none then y else a.tail

theorem setNextUnchecked_ok {a : LinkedArena I N} {i : ℕ} (hi : i < a.nodes.length)
    (q : Option ℕ) :
    a.setNextUnchecked i q = .ok { a with nodes := a.nodes.modify i (LinkedNode.setNext · q) } := by
  simp [setNextUnchecked, modifyUnchecked, hi]

theorem setPrevUnchecked_ok {a : LinkedArena I N} {i : ℕ} (hi : i < a.nodes.length)
    (p : Option ℕ) :
    a.setPrevUnchecked i p = .ok { a with nodes := a.nodes.modify i (LinkedNode.setPrev · p) } := by
  simp [setPrevUnchecked, modifyUnchecked, hi]

theorem linkNext_ok {a : LinkedArena I N} {parent : Option ℕ} (x : Option ℕ)
    (hp : ∀ i, parent = some i → i < a.nodes.length) :
    ∃ a', a.linkNext parent x = .ok a' ∧ a'.idxOf = a.idxOf ∧
      a'.nodes.length = a.nodes.length ∧ payload a'.nodes = payload a.nodes ∧
      prevs a'.nodes = prevs a.nodes ∧ nexts a'.nodes = setLink (nexts a.nodes) parent x ∧
      a'.head = (if parent = none then x else a.head) ∧ a'.tail = a.tail := by
  cases parent with
  | none => exact ⟨{ a with head := x }, rfl, rfl, rfl, rfl, rfl, rfl, rfl, rfl⟩
  | some p =>
    have hp' := hp p rfl
    refine ⟨{ a with nodes := a.nodes.modify p (LinkedNode.setNext · x) },
      setNextUnchecked_ok hp' x, rfl, List.length_modify .., ?_, ?_, ?_, rfl, rfl⟩
    · exact payload_modify fun n => bare_setNext n x
    · exact prevs_setNext x
    · exact nexts_setNext hp' x

theorem linkPrev_ok {a : LinkedArena I N} {child : Option ℕ} (y : Option ℕ)
    (hc : ∀ i, child = some i → i < a.nodes.length) :
    ∃ a', a.linkPrev child y = .ok a' ∧ a'.idxOf = a.idxOf ∧
      a'.nodes.length = a.nodes.length ∧ payload a'.nodes = payload a.nodes ∧
      prevs a'.nodes = setLink (prevs a.nodes) child y ∧ nexts a'.nodes = nexts a.nodes ∧
      a'.head = a.head ∧ a'.tail = (if child = none then y else a.tail) := by
  cases child with
  | none => exact ⟨{ a with tail := y }, rfl, rfl, rfl, rfl, rfl, rfl, rfl, rfl⟩
  | some c =>
    have hc' := hc c rfl
    refine ⟨{ a with nodes := a.nodes.modify c (LinkedNode.setPrev · y) },
      setPrevUnchecked_ok hc' y, rfl, List.length_modify .., ?_, ?_, ?_, rfl, rfl⟩
    · exact payload_modify fun n => bare_setPrev n y
    · exact prevs_setPrev hc' y
    · exact nexts_setPrev y

theorem writeSeam_ok {a : LinkedArena I N} (parent child x y : Option ℕ)
    (hp : ∀ i, parent = some i → i < a.nodes.length)
    (hc : ∀ i, child = some i → i < a.nodes.length) :
    ∃ a', a.writeSeam parent child x y = .ok a' ∧ Seam a a' parent child x y := by
  obtain ⟨b, hb, hidx, hlen, hpay, hprev, hnext, hhead, htail⟩ := linkNext_ok x hp
  obtain ⟨c, hc, hidx', hlen', hpay', hprev', hnext', hhead', htail'⟩ :=
    linkPrev_ok (a := b) y fun i hi => hlen ▸ hc i hi
  refine ⟨c, by rw [writeSeam, hb]; exact hc, ?_⟩
  exact {
    idxOf := hidx'.trans hidx
    length := hlen'.trans hlen
    payload := hpay'.trans hpay
    prevs := by rw [hprev', hprev]
    nexts := hnext'.trans hnext
    head := hhead'.trans hhead
    tail := by rw [htail', htail] }

theorem unlink_eq {a : LinkedArena I N} {i : ℕ} {n : N} (hi : a.nodes[i]? = some n) :
    a.unlink i = a.writeSeam (LinkedNode.prev n) (LinkedNode.next n) (LinkedNode.next n)
      (LinkedNode.prev n) := by
  simp only [unlink, hi, writeSeam, linkNext, linkPrev]
  cases LinkedNode.prev n <;> rfl

theorem relink_eq {a : LinkedArena I N} {i : ℕ} {n : N} (hi : a.nodes[i]? = some n) :
    a.relink i = a.writeSeam (LinkedNode.prev n) (LinkedNode.next n) (some i) (some i) := by
  simp only [relink, hi, writeSeam, linkNext, linkPrev]
  cases LinkedNode.prev n <;> rfl

/-! ## Pushing a node to the head -/

/-- The writes of `move_to_head` after `unlink`. -/
def pushHead (a : LinkedArena I N) (i : ℕ) : Except Fault (LinkedArena I N) := do
  let old := a.head
  let a ← a.modifyUnchecked i fun n => LinkedNode.setPrev (LinkedNode.setNext n old) none
  let a := { a with head := some i }
  match old with
  | some old => a.setPrevUnchecked old (some i)
  | none => .ok a

theorem moveToHead_eq (a : LinkedArena I N) (i : ℕ) :
    a.moveToHead i = a.unlink i >>= fun b => b.pushHead i := by
  simp only [moveToHead, pushHead]
  cases a.unlink i with
  | error e => rfl
  | ok b =>
    simp only [modifyUnchecked]
    by_cases hi : i < b.nodes.length
    · cases hhead : b.head <;> simp [hi, hhead, bind, Except.bind]
    · simp [hi, bind, Except.bind]

theorem pushHead_ok {a : LinkedArena I N} {i : ℕ} {l : List ℕ} (hi : i < a.nodes.length)
    (hhead : a.head = l.head?) (hl : ∀ j ∈ l, j < a.nodes.length) :
    ∃ a', a.pushHead i = .ok a' ∧ a'.idxOf = a.idxOf ∧ a'.nodes.length = a.nodes.length ∧
      payload a'.nodes = payload a.nodes ∧ a'.head = some i ∧ a'.tail = a.tail ∧
      prevs a'.nodes = setLink (Function.update (prevs a.nodes) i none) l.head? (some i) ∧
      nexts a'.nodes = Function.update (nexts a.nodes) i l.head? := by
  have hmod (q : Option ℕ) :
      (a.nodes.modify i fun n => LinkedNode.setPrev (LinkedNode.setNext n q) none) =
        (a.nodes.modify i (LinkedNode.setNext · q)).modify i (LinkedNode.setPrev · none) := by
    rw [List.modify_modify_eq]; rfl
  have hi' (q : Option ℕ) : i < (a.nodes.modify i (LinkedNode.setNext · q)).length := by
    simpa using hi
  cases l with
  | nil =>
    refine ⟨{ a with
      nodes := a.nodes.modify i fun n => LinkedNode.setPrev (LinkedNode.setNext n none) none
      head := some i }, ?_, rfl, by simp, ?_, rfl, rfl, ?_, ?_⟩
    · simp [pushHead, modifyUnchecked, hi, hhead, bind, Except.bind]
    · exact payload_modify fun n => by simp
    · rw [hmod, prevs_setPrev (hi' _), prevs_setNext]; rfl
    · rw [hmod, nexts_setPrev, nexts_setNext hi]; rfl
  | cons j l =>
    have hj : j < a.nodes.length := hl j List.mem_cons_self
    have hj' : j < (a.nodes.modify i fun n =>
        LinkedNode.setPrev (LinkedNode.setNext n (some j)) none).length := by simpa using hj
    refine ⟨{ a with
      nodes := (a.nodes.modify i fun n =>
        LinkedNode.setPrev (LinkedNode.setNext n (some j)) none).modify j
          (LinkedNode.setPrev · (some i))
      head := some i }, ?_, rfl, by simp, ?_, rfl, rfl, ?_, ?_⟩
    · simp [pushHead, modifyUnchecked, hi, hj, hhead, setPrevUnchecked, bind, Except.bind]
    · rw [payload_modify fun n => bare_setPrev n (some i)]
      exact payload_modify fun n => by simp
    · rw [prevs_setPrev hj', hmod, prevs_setPrev (hi' _), prevs_setNext]; rfl
    · rw [nexts_setPrev, hmod, nexts_setPrev, nexts_setNext hi]; rfl

end LinkedArena

end LightCache
