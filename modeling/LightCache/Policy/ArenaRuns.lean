import LightCache.Lib.Trace
import LightCache.Policy.ArenaModels
import LightCache.Policy.Lru

/-!
# Runs of the arena's operations

An arena on its own: any sequence of its operations from an empty one, where each is used as its
documentation asks. No operation meets a fault: every unchecked access is to a node of the vector,
and nothing panics. The walk along the forward links is through all nodes, and their keys are those
of a plain list on which the same operations are done.

`move_to_head` on the only node leaves the tail pointer empty. Apart from that the tail is the last
node of the walk.

Main results: `arena_in_bounds`, `arena_refines_list` and `arena_tail_iff`. The lost tail is
`arena_tail_lost`.
-/

namespace LightCache

open Linked

/-- An operation of an arena. `move_to_head` is used at the index that `get_node_mut` gives. -/
inductive ArenaOp (I : Type)
  | insertHead (now : Instant) (key : I)
  | moveToHead (key : I)
  | moveToHeadItem (key : I)
  | remove (idx : ℕ)
  | removeItem (item : I)
  | head
  | tail
  deriving DecidableEq, Repr

namespace LinkedArena

variable {I N : Type} [DecidableEq I] [LinkedNode I N]

/-- What an operation returns, if that is a node, and the arena after it. -/
def exec (a : LinkedArena I N) : ArenaOp I → Except Fault (Option (ℕ × N) × LinkedArena I N)
  | .insertHead now key => do
    let a ← a.insertHead now key
    return (none, a)
  | .moveToHead key => do
    match ← a.getNode key with
    | some (idx, _) => do
      let a ← a.moveToHead idx
      return (none, a)
    | none => return (none, a)
  | .moveToHeadItem key => do
    let a ← a.moveToHeadItem key
    return (none, a)
  | .remove idx => do
    let (len, removed, a) ← a.remove idx
    return (some (len, removed), a)
  | .removeItem item => a.removeItem item
  | .head => do
    let node ← a.headNode
    return (node, a)
  | .tail => do
    let node ← a.tailNode
    return (node, a)

/-- The arena after an operation that met no fault. -/
def step (a : LinkedArena I N) (op : ArenaOp I) : Option (LinkedArena I N) :=
  match a.exec op with
  | .ok (_, a) => some a
  | .error _ => none

/-- How the operations are used: `insert_head` with a key that is not there, the moves with one
that is, and `remove` with the index of a node. -/
def Allows (a : LinkedArena I N) : ArenaOp I → Prop
  | .insertHead _ key => key ∉ a.idxOf
  | .moveToHead key => key ∈ a.idxOf
  | .moveToHeadItem key => key ∈ a.idxOf
  | .remove idx => idx < a.nodes.length
  | .removeItem _ => True
  | .head => True
  | .tail => True

instance (a : LinkedArena I N) : (op : ArenaOp I) → Decidable (a.Allows op)
  | .insertHead _ key => inferInstanceAs (Decidable (key ∉ a.idxOf))
  | .moveToHead key => inferInstanceAs (Decidable (key ∈ a.idxOf))
  | .moveToHeadItem key => inferInstanceAs (Decidable (key ∈ a.idxOf))
  | .remove idx => inferInstanceAs (Decidable (idx < a.nodes.length))
  | .removeItem _ => isTrue trivial
  | .head => isTrue trivial
  | .tail => isTrue trivial

/-- What the operation does to a plain list of keys. -/
def onList (a : LinkedArena I N) (op : ArenaOp I) (_ : LinkedArena I N) (ks : List I) : List I :=
  match op with
  | .insertHead _ key => key :: ks
  | .moveToHead key => key :: ks.erase key
  | .moveToHeadItem key => key :: ks.erase key
  | .remove idx =>
    match a.nodes[idx]? with
    | some n => ks.erase (LinkedNode.item n)
    | none => ks
  | .removeItem item => ks.erase item
  | .head => ks
  | .tail => ks

/-- The arena next to the plain list. -/
def listStep : LinkedArena I N × List I → ArenaOp I → Option (LinkedArena I N × List I) :=
  Trace.recording step onList

/-- The operation moves the only node. -/
def movesOnlyNode (a : LinkedArena I N) : ArenaOp I → Bool
  | .moveToHead _ => a.len = 1
  | .moveToHeadItem _ => a.len = 1
  | _ => false

/-- The indices in the arena are those of nodes, and `idx_of` finds the node of each key. -/
structure InBounds (a : LinkedArena I N) : Prop where
  head : ∀ i, a.head = some i → i < a.nodes.length
  tail : ∀ i, a.tail = some i → i < a.nodes.length
  prev : ∀ i j, prevs a.nodes i = some j → j < a.nodes.length
  next : ∀ i j, nexts a.nodes i = some j → j < a.nodes.length
  index : ∀ k i, a.idxOf.lookup k = some i ↔ ∃ n, a.nodes[i]? = some n ∧ LinkedNode.item n = k

/-- The walk from the head is along `l`: through every node once, with each node's back link to the
one before it. The keys are `ks`. -/
structure Traversed (a : LinkedArena I N) (l : List ℕ) (ks : List I) : Prop where
  walk : Walk (nexts a.nodes) a.head l
  once : l.Perm (List.range a.nodes.length)
  back : ∀ l₁ i l₂, l = l₁ ++ i :: l₂ → prevs a.nodes i = l₁.getLast?
  keys : l.map (fun i => a.nodes[i]?.map LinkedNode.item) = ks.map some

/-- The tail pointer is to the last node of the walk from the head, and the walk back from there is
its reverse. -/
def TailLast (a : LinkedArena I N) : Prop :=
  ∃ l, Walk (nexts a.nodes) a.head l ∧ (a.tail = none ↔ a.nodes = []) ∧ a.tail = l.getLast? ∧
    Walk (prevs a.nodes) a.tail l.reverse

variable {a a' : LinkedArena I N} {l : List ℕ} {ks : List I} {k : I} {i : ℕ} {n : N}
variable {op : ArenaOp I}

/-! ## What a represented list gives -/

theorem Repr.inBounds (h : a.Repr l) : a.InBounds where
  head i hi := h.mem_iff.mp (List.mem_of_head? (h.head.symm.trans hi))
  tail i hi := by
    rcases h.tail with htail | htail
    · cases htail.symm.trans hi
    · exact h.mem_iff.mp (List.mem_of_getLast? (htail.symm.trans hi))
  prev i j hj := h.mem_iff.mp (h.links.prev_mem (h.mem_iff.mpr (lt_of_view hj)) hj)
  next i j hj := h.mem_iff.mp (h.links.next_mem (h.mem_iff.mpr (lt_of_view hj)) hj)
  index := h.index_iff

theorem Lists.inBounds (h : a.Lists ks) : a.InBounds := by
  obtain ⟨xs, ⟨l, hl, rfl⟩, rfl⟩ := h
  exact hl.inBounds

theorem Lists.traversed (h : a.Lists ks) : ∃ l, a.Traversed l ks := by
  obtain ⟨xs, ⟨l, hl, rfl⟩, rfl⟩ := h
  refine ⟨l, hl.walk, hl.perm, ?_, ?_⟩
  · intro l₁ i l₂ hsplit
    have hlinks := hl.links
    rw [hsplit] at hlinks
    exact hlinks.at.1
  · have hitem (i : ℕ) : a.nodes[i]?.map LinkedNode.item =
        (payload a.nodes i).map LinkedNode.item := by
      rw [payload, Option.map_map]
      exact congrArg (Option.map · _) (funext fun n => (item_bare n).symm)
    calc l.map (fun i => a.nodes[i]?.map LinkedNode.item)
        = (l.map (payload a.nodes)).map (Option.map LinkedNode.item) := by
          simp only [hitem, List.map_map, Function.comp_def]
      _ = ((a.contents l).map some).map (Option.map LinkedNode.item) := by rw [hl.map_payload]
      _ = (keys (a.contents l)).map some := by
          simp only [keys, List.map_map, Function.comp_def, Option.map_some]

/-- The tail pointer is right unless it is lost. -/
theorem Lists.tailLast_iff (h : a.Lists ks) : a.TailLast ↔ a.TailKnown := by
  obtain ⟨xs, ⟨l, hl, rfl⟩, rfl⟩ := h
  constructor
  · intro hlast
    obtain ⟨l', -, hnone, -⟩ := hlast
    exact hnone.mp
  · intro hknown
    have htail := hl.tail_eq hknown
    refine ⟨l, hl.walk, ⟨hknown, ?_⟩, htail, ?_⟩
    · intro hnodes
      have hlen := hl.length_eq
      rw [hnodes] at hlen
      rw [htail, List.eq_nil_of_length_eq_zero hlen]
      rfl
    · rw [htail]
      exact hl.links.walk_back

/-! ## One operation -/

omit [DecidableEq I] [LinkedNode I N] in
theorem exists_node {x : Option ℕ} (hx : ∀ i, x = some i → i < a.nodes.length) :
    ∃ node, (match x with
      | some idx => (a.getUnchecked idx).map fun n => some (idx, n)
      | none => .ok none) = .ok node := by
  cases x with
  | none => exact ⟨none, rfl⟩
  | some i =>
    obtain ⟨n, hn⟩ : ∃ n, a.nodes[i]? = some n := ⟨_, List.getElem?_eq_getElem (hx i rfl)⟩
    exact ⟨some (i, n), by simp only [getUnchecked, hn]; rfl⟩

theorem Lists.remove_ok (h : a.Lists ks) (hn : a.nodes[i]? = some n) :
    ∃ m a', a.remove i = .ok (a'.nodes.length, m, a') ∧ bare m = bare n ∧
      a'.Lists (ks.erase (LinkedNode.item n)) ∧ (a.TailKnown → a'.TailKnown) := by
  have hi : a.idxOf.lookup (LinkedNode.item n) = some i :=
    (h.inBounds.index _ i).mpr ⟨n, hn, rfl⟩
  obtain ⟨xs, hxs, rfl⟩ := h
  obtain ⟨m, a', hok, hpay, -, hxs', htail⟩ := hxs.remove_ok hi
  refine ⟨m, a', hok, ?_, ⟨_, hxs', keys_without hxs.nodup⟩, htail⟩
  rw [payload, hn] at hpay
  exact (Option.some.inj hpay).symm

/-- An operation meets no fault, and does to the keys what it does to the plain list. It keeps the
tail, unless it moves the only node. -/
theorem Lists.exec_ok (h : a.Lists ks) (hop : a.Allows op) :
    ∃ r a', a.exec op = .ok (r, a') ∧ a'.Lists (onList a op a' ks) ∧
      (a.TailKnown → a.movesOnlyNode op = false → a'.TailKnown) := by
  -- Both moves to the front.
  have hmove {key : I} (hkey : key ∈ a.idxOf) : ∃ i a', a.idxOf.lookup key = some i ∧
      a.moveToHead i = .ok a' ∧ a'.Lists (key :: ks.erase key) ∧
      (a.TailKnown → decide (a.len = 1) = false → a'.TailKnown) := by
    obtain ⟨i, hi⟩ := h.exists_lookup (h.mem_idxOf.mp hkey)
    obtain ⟨a', hok, h', htail⟩ := h.moveToHead_ok hi
    refine ⟨i, a', hi, hok, h', ?_⟩
    intro hknown hlen
    apply htail hknown
    intro hks
    rw [h.len_eq, hks] at hlen
    cases hlen
  cases op with
  | insertHead now key =>
    obtain ⟨a', hok, h', htail⟩ := h.insertHead_ok (mt h.mem_idxOf.mpr hop) now
    exact ⟨none, a', by simp only [exec, hok]; rfl, h', fun hknown _ => htail hknown⟩
  | moveToHead key =>
    obtain ⟨i, a', hi, hok, h', htail⟩ := hmove hop
    obtain ⟨n, hn⟩ := h.getNode_ok hi
    exact ⟨none, a', by simp only [exec, hn, bind, Except.bind, hok]; rfl, h', htail⟩
  | moveToHeadItem key =>
    obtain ⟨i, a', hi, hok, h', htail⟩ := hmove hop
    exact ⟨none, a', by simp only [exec, moveToHeadItem, hi, hok]; rfl, h', htail⟩
  | remove idx =>
    obtain ⟨n, hn⟩ : ∃ n, a.nodes[idx]? = some n := ⟨_, List.getElem?_eq_getElem hop⟩
    obtain ⟨m, a', hok, -, h', htail⟩ := h.remove_ok hn
    refine ⟨some (a'.nodes.length, m), a', by simp only [exec, hok]; rfl, ?_,
      fun hknown _ => htail hknown⟩
    simp only [onList, hn]
    exact h'
  | removeItem item =>
    obtain ⟨r, a', hok, h', htail⟩ := h.removeItem_ok item
    exact ⟨r, a', hok, h', fun hknown _ => htail hknown⟩
  | head =>
    obtain ⟨node, hnode⟩ : ∃ node, a.headNode = .ok node := exists_node h.inBounds.head
    exact ⟨node, a, by simp only [exec, hnode]; rfl, h, fun hknown _ => hknown⟩
  | tail =>
    obtain ⟨node, hnode⟩ : ∃ node, a.tailNode = .ok node := exists_node h.inBounds.tail
    exact ⟨node, a, by simp only [exec, hnode]; rfl, h, fun hknown _ => hknown⟩

theorem Lists.step_ok (h : a.Lists ks) (hop : a.Allows op) :
    ∃ a', a.step op = some a' ∧ a'.Lists (onList a op a' ks) := by
  obtain ⟨r, a', hok, h', -⟩ := h.exec_ok hop
  exact ⟨a', by simp only [step, hok], h'⟩

theorem Lists.of_step (h : a.Lists ks) (hop : a.Allows op) (hstep : a.step op = some a') :
    a'.Lists (onList a op a' ks) ∧
      (a.TailKnown → a.movesOnlyNode op = false → a'.TailKnown) := by
  obtain ⟨r, b, hok, h', htail⟩ := h.exec_ok hop
  simp only [step, hok] at hstep
  obtain rfl := Option.some.inj hstep
  exact ⟨h', htail⟩

/-- A move of the only node leaves a list with no tail. -/
theorem Lists.tail_broken (h : a.Lists ks) (hop : a.Allows op)
    (hmoves : a.movesOnlyNode op = true) : ∃ a', a.step op = some a' ∧ ¬a'.TailLast := by
  have hlost {a' : LinkedArena I N} (hnodes : a'.nodes ≠ []) (htail : a'.tail = none) :
      ¬a'.TailLast := by
    intro hlast
    obtain ⟨l, -, hnone, -⟩ := hlast
    exact hnodes (hnone.mp htail)
  cases op with
  | moveToHead key =>
    obtain ⟨i, a', hi, hok, hnodes, htail⟩ := h.moveToHead_only hop (of_decide_eq_true hmoves)
    obtain ⟨n, hn⟩ := h.getNode_ok hi
    refine ⟨a', ?_, hlost hnodes htail⟩
    simp only [step, exec, hn, bind, Except.bind, hok]
    rfl
  | moveToHeadItem key =>
    obtain ⟨i, a', hi, hok, hnodes, htail⟩ := h.moveToHead_only hop (of_decide_eq_true hmoves)
    refine ⟨a', ?_, hlost hnodes htail⟩
    simp only [step, exec, moveToHeadItem, hi, hok, bind, Except.bind]
    rfl
  | _ => cases hmoves

theorem Lists.removeItem_node (h : a.Lists ks) (k : I) :
    ∃ r a', a.removeItem k = .ok (r, a') ∧
      (r.map fun p => LinkedNode.item p.2) = if k ∈ ks then some k else none := by
  by_cases hk : k ∈ ks
  · obtain ⟨i, hi⟩ := h.exists_lookup hk
    obtain ⟨xs, hxs, rfl⟩ := h
    obtain ⟨n, a', hok, -, hitem, -⟩ := hxs.remove_ok hi
    refine ⟨some (a'.nodes.length, n), a', by simp only [removeItem, hi, hok]; rfl, ?_⟩
    rw [if_pos hk, ← hitem]
    rfl
  · refine ⟨none, a, by simp only [removeItem, h.lookup_eq_none hk], ?_⟩
    rw [if_neg hk]
    rfl

/-! ## Runs -/

/-- **No unchecked access is out of bounds.** In a run of allowed operations none meets a fault,
and after each of them all indices in the arena are those of nodes. -/
theorem arena_in_bounds (ops : List (ArenaOp I))
    (hops : Trace.Each step Allows (new : LinkedArena I N) ops) :
    Trace.Each step (fun a op => ∃ r, a.exec op = .ok r) (new : LinkedArena I N) ops ∧
      Trace.Always step InBounds (new : LinkedArena I N) ops := by
  have hkeep : ∀ (a : LinkedArena I N) op a', (∃ ks, a.Lists ks) → a.Allows op →
      a.step op = some a' → ∃ ks, a'.Lists ks := by
    intro a op a' hlists hop hstep
    obtain ⟨ks, h⟩ := hlists
    exact ⟨_, (h.of_step hop hstep).1⟩
  constructor
  · refine hops.imp hkeep ?_ ⟨[], lists_new⟩
    intro a op hlists hop
    obtain ⟨ks, h⟩ := hlists
    obtain ⟨r, a', hok, -⟩ := h.exec_ok hop
    exact ⟨_, hok⟩
  · refine Trace.always_of_each ?_ hkeep ⟨[], lists_new⟩ hops
    intro a hlists
    obtain ⟨ks, h⟩ := hlists
    exact h.inBounds

/-- Three inserts, two moves and a removal, with a last look at both ends. -/
theorem arena_in_bounds_eight_ops :
    Trace.Always step InBounds (new : LinkedArena ℕ (LruNode ℕ))
      [.insertHead 0 1, .insertHead 0 2, .insertHead 0 3, .moveToHead 1, .remove 0,
        .moveToHeadItem 2, .head, .tail] :=
  (arena_in_bounds _ (by decide)).2

/-- **The arena is a list.** After a run of allowed operations the walk from the head is through
every node once, and its keys are those of the plain list. From there `remove` gives the node at its
index, and `remove_item` that of its key. -/
theorem arena_refines_list (ops : List (ArenaOp I))
    (hops : Trace.Each listStep (fun x op => x.1.Allows op) ((new : LinkedArena I N), []) ops) :
    ∃ (a : LinkedArena I N) (ks : List I) (l : List ℕ),
      Trace.run listStep (new, []) ops = some (a, ks) ∧ a.Traversed l ks ∧
      (∀ i n, a.nodes[i]? = some n → ∃ len m a', a.remove i = .ok (len, m, a') ∧ bare m = bare n) ∧
      ∀ k, ∃ r a', a.removeItem k = .ok (r, a') ∧
        (r.map fun p => LinkedNode.item p.2) = if k ∈ ks then some k else none := by
  have hkeep : ∀ (x : LinkedArena I N × List I) op, x.1.Lists x.2 → x.1.Allows op →
      ∃ x', listStep x op = some x' ∧ x'.1.Lists x'.2 := by
    intro x op h hop
    obtain ⟨a', hstep, h'⟩ := h.step_ok hop
    exact ⟨(a', onList x.1 op a' x.2), Trace.recording_eq_some.mpr ⟨hstep, rfl⟩, h'⟩
  obtain ⟨⟨a, ks⟩, hrun, h⟩ := Trace.exists_run hkeep lists_new hops
  obtain ⟨l, hl⟩ := h.traversed
  refine ⟨a, ks, l, hrun, hl, ?_, h.removeItem_node⟩
  intro i n hn
  obtain ⟨m, a', hok, hbare, -⟩ := h.remove_ok hn
  exact ⟨_, m, a', hok, hbare⟩

/-- The node of key 3 is moved into the hole that the node of key 1 leaves, and becomes the head. -/
theorem arena_refines_list_five_ops :
    ∃ (a : LinkedArena ℕ (LruNode ℕ)) (l : List ℕ),
      Trace.run listStep (new, [])
        [.insertHead 0 1, .insertHead 0 2, .insertHead 0 3, .moveToHead 1, .remove 0] =
          some (a, [3, 2]) ∧
      a.Traversed l [3, 2] := by
  obtain ⟨a, ks, l, hrun, hl, -⟩ := arena_refines_list (I := ℕ) (N := LruNode ℕ)
    [.insertHead 0 1, .insertHead 0 2, .insertHead 0 3, .moveToHead 1, .remove 0] (by decide)
  obtain rfl : [3, 2] = ks := congrArg Prod.snd (Option.some.inj hrun)
  exact ⟨a, l, hrun, hl⟩

/-- **The tail is the last node** after every operation of a run exactly if no operation moves the
only node. -/
theorem arena_tail_iff (ops : List (ArenaOp I))
    (hops : Trace.Each step Allows (new : LinkedArena I N) ops) :
    Trace.Always step TailLast (new : LinkedArena I N) ops ↔
      Trace.Each step (fun a op => a.movesOnlyNode op = false) (new : LinkedArena I N) ops := by
  refine Trace.always_iff_each (I := fun a => ∃ ks, a.Lists ks ∧ a.TailKnown) ?_ ?_ ?_
    ⟨[], lists_new, tailKnown_new⟩ hops
  · intro a hlists
    obtain ⟨ks, h, hknown⟩ := hlists
    exact h.tailLast_iff.mpr hknown
  · intro a op a' hlists hop hmoves hstep
    obtain ⟨ks, h, hknown⟩ := hlists
    obtain ⟨h', htail⟩ := h.of_step hop hstep
    exact ⟨_, h', htail hknown hmoves⟩
  · intro a op hlists hop hmoves
    obtain ⟨ks, h, -⟩ := hlists
    exact h.tail_broken hop (Bool.eq_true_of_not_eq_false hmoves)

/-- With a second node there is always a tail. -/
theorem arena_tail_two_nodes :
    Trace.Always step TailLast (new : LinkedArena ℕ (LruNode ℕ))
      [.insertHead 0 1, .insertHead 0 2, .moveToHead 1, .removeItem 2] :=
  (arena_tail_iff _ (by decide)).mpr (by decide)

/-- The only node is moved to the head: the list is not empty, and has no tail. -/
theorem arena_tail_lost :
    ∃ a : LinkedArena ℕ (LruNode ℕ),
      Trace.Each step Allows (new : LinkedArena ℕ (LruNode ℕ)) [.insertHead 0 1, .moveToHead 1] ∧
      Trace.run step new [.insertHead 0 1, .moveToHead 1] = some a ∧
      a.nodes ≠ [] ∧ a.tail = none ∧ ¬a.TailLast := by
  refine ⟨_, by decide, rfl, by decide, rfl, ?_⟩
  intro hlast
  obtain ⟨l, -, hnone, -⟩ := hlast
  cases hnone.mp rfl

end LinkedArena

end LightCache
