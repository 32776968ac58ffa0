import Mathlib.Data.Finmap
import LightCache.Time

/-!
# The linked arena of the policies

A doubly linked list whose nodes live in a vector, with a hash map from keys to indices
(`src/policy/linked_arena.rs`). Removal swaps the last node of the vector into the hole, so
indices move.

The source indexes with `get_unchecked`, and panics elsewhere. Here both are a `Fault`: an
operation that returns `.ok` made no out-of-bounds access and did not panic.
-/

namespace LightCache

/-- What the source does not survive: a panic, or an unchecked access past the end. -/
inductive Fault
  | panic (message : String)
  | unchecked (idx : ℕ)
  deriving DecidableEq, Repr

/-- The trait `LinkedNode`. Its implementations store the two links and leave everything else
alone when one of them is set. -/
class LinkedNode (I : outParam Type) (N : Type) where
  /-- `N::new`; the node may record the time of its creation. -/
  new : Instant → I → Option ℕ → Option ℕ → N
  item : N → I
  prev : N → Option ℕ
  next : N → Option ℕ
  setPrev : N → Option ℕ → N
  setNext : N → Option ℕ → N
  item_new : ∀ t k p q, item (new t k p q) = k
  prev_new : ∀ t k p q, prev (new t k p q) = p
  next_new : ∀ t k p q, next (new t k p q) = q
  item_setPrev : ∀ n p, item (setPrev n p) = item n
  item_setNext : ∀ n q, item (setNext n q) = item n
  prev_setPrev : ∀ n p, prev (setPrev n p) = p
  prev_setNext : ∀ n q, prev (setNext n q) = prev n
  next_setPrev : ∀ n p, next (setPrev n p) = next n
  next_setNext : ∀ n q, next (setNext n q) = q
  setPrev_new : ∀ t k p q p', setPrev (new t k p q) p' = new t k p' q
  setNext_new : ∀ t k p q q', setNext (new t k p q) q' = new t k p q'
  setPrev_setPrev : ∀ n p p', setPrev (setPrev n p) p' = setPrev n p'
  setNext_setNext : ∀ n q q', setNext (setNext n q) q' = setNext n q'
  setPrev_setNext : ∀ n p q, setPrev (setNext n q) p = setNext (setPrev n p) q

attribute [simp] LinkedNode.item_new LinkedNode.prev_new LinkedNode.next_new
  LinkedNode.item_setPrev LinkedNode.item_setNext LinkedNode.prev_setPrev
  LinkedNode.prev_setNext LinkedNode.next_setPrev LinkedNode.next_setNext
  LinkedNode.setPrev_new LinkedNode.setNext_new LinkedNode.setPrev_setPrev
  LinkedNode.setNext_setNext LinkedNode.setPrev_setNext

/-- `LinkedArena`. -/
structure LinkedArena (I N : Type) where
  idxOf : Finmap fun _ : I => ℕ
  nodes : List N
  head : Option ℕ
  tail : Option ℕ

namespace LinkedArena

variable {I N : Type}

/-- `LinkedArena::new`. -/
def new : LinkedArena I N where
  idxOf := ∅
  nodes := []
  head := none
  tail := none

/-- `len`. -/
def len (a : LinkedArena I N) : ℕ := a.nodes.length

/-- `nodes.get_unchecked(idx)`. -/
def getUnchecked (a : LinkedArena I N) (idx : ℕ) : Except Fault N :=
  match a.nodes[idx]? with
  | some n => .ok n
  | none => .error (.unchecked idx)

/-- A write through `nodes.get_unchecked_mut(idx)`. -/
def modifyUnchecked (a : LinkedArena I N) (idx : ℕ) (f : N → N) :
    Except Fault (LinkedArena I N) :=
  if idx < a.nodes.length then .ok { a with nodes := a.nodes.modify idx f }
  else .error (.unchecked idx)

/-- `Vec::swap_remove`: the removed node, and the nodes with the last one in its place. -/
def swapRemove (nodes : List N) (idx : ℕ) : Except Fault (N × List N) :=
  match nodes[idx]?, nodes.getLast? with
  | some removed, some last => .ok (removed, (nodes.set idx last).dropLast)
  | _, _ => .error (.panic "swap_remove index should be < len")

/-- `head`. -/
def headNode (a : LinkedArena I N) : Except Fault (Option (ℕ × N)) :=
  match a.head with
  | some idx => (a.getUnchecked idx).map fun n => some (idx, n)
  | none => .ok none

/-- `tail`. -/
def tailNode (a : LinkedArena I N) : Except Fault (Option (ℕ × N)) :=
  match a.tail with
  | some idx => (a.getUnchecked idx).map fun n => some (idx, n)
  | none => .ok none

variable [DecidableEq I] [LinkedNode I N]

/-- `set_next` on an unchecked node. -/
def setNextUnchecked (a : LinkedArena I N) (idx : ℕ) (child : Option ℕ) :
    Except Fault (LinkedArena I N) :=
  a.modifyUnchecked idx (LinkedNode.setNext · child)

/-- `set_prev` on an unchecked node. -/
def setPrevUnchecked (a : LinkedArena I N) (idx : ℕ) (parent : Option ℕ) :
    Except Fault (LinkedArena I N) :=
  a.modifyUnchecked idx (LinkedNode.setPrev · parent)

/-- `insert_head`, at clock reading `now`. -/
def insertHead (a : LinkedArena I N) (now : Instant) (key : I) :
    Except Fault (LinkedArena I N) :=
  let newHead := a.nodes.length
  match a.idxOf.lookup key with
  | some _ => .error (.panic "Key already exists in LinkedArena")
  | none =>
    let a := { a with idxOf := a.idxOf.insert key newHead }
    match a.head with
    | some oldHead => do
      let a := { a with nodes := a.nodes ++ [LinkedNode.new now key none (some oldHead)] }
      let a ← a.setPrevUnchecked oldHead (some newHead)
      return { a with head := some newHead }
    | none =>
      .ok { a with
        nodes := a.nodes ++ [LinkedNode.new now key none none]
        tail := some newHead
        head := some newHead }

/-- `relink`. -/
def relink (a : LinkedArena I N) (idx : ℕ) : Except Fault (LinkedArena I N) :=
  match a.nodes[idx]? with
  | none => .error (.panic "called Option::unwrap() on a None value")
  | some node => do
    let a ← match LinkedNode.prev node with
      | some parent => a.setNextUnchecked parent (some idx)
      | none => .ok { a with head := some idx }
    match LinkedNode.next node with
    | some child => a.setPrevUnchecked child (some idx)
    | none => .ok { a with tail := some idx }

/-- `unlink`. -/
def unlink (a : LinkedArena I N) (idx : ℕ) : Except Fault (LinkedArena I N) :=
  match a.nodes[idx]? with
  | none => .error (.panic "Invalid index to unlink")
  | some node => do
    let parent := LinkedNode.prev node
    let child := LinkedNode.next node
    let a ← match parent with
      | some parent => a.setNextUnchecked parent child
      | none => .ok { a with head := child }
    match child with
    | some child => a.setPrevUnchecked child parent
    | none => .ok { a with tail := parent }

/-- `move_to_head`. The tail is only written by `unlink`. -/
def moveToHead (a : LinkedArena I N) (newHead : ℕ) : Except Fault (LinkedArena I N) := do
  let a ← a.unlink newHead
  let a ← a.modifyUnchecked newHead fun n => LinkedNode.setPrev (LinkedNode.setNext n a.head) none
  let old := a.head
  let a := { a with head := some newHead }
  match old with
  | some old => a.setPrevUnchecked old (some newHead)
  | none => .ok a

/-- `move_to_head_item`. -/
def moveToHeadItem (a : LinkedArena I N) (key : I) : Except Fault (LinkedArena I N) :=
  match a.idxOf.lookup key with
  | some newHeadIdx => a.moveToHead newHeadIdx
  | none => .error (.panic "Invalid key to move to head on LinkedArena")

/-- `get_node_mut`; a write through the reference is a `modifyUnchecked` at the index. -/
def getNode (a : LinkedArena I N) (key : I) : Except Fault (Option (ℕ × N)) :=
  match a.idxOf.lookup key with
  | some idx => (a.getUnchecked idx).map fun n => some (idx, n)
  | none => .ok none

/-- `remove`: the new length, the removed node and the arena without it. -/
def remove (a : LinkedArena I N) (idx : ℕ) : Except Fault (ℕ × N × LinkedArena I N) := do
  let a ← a.unlink idx
  let (removed, nodes) ← swapRemove a.nodes idx
  let a := { a with nodes, idxOf := a.idxOf.erase (LinkedNode.item removed) }
  let len := a.nodes.length
  if idx ≠ len then
    match a.nodes[idx]? with
    | none => .error (.panic "called Option::unwrap() on a None value")
    | some moved =>
      match a.idxOf.lookup (LinkedNode.item moved) with
      | none => .error (.panic "called Option::unwrap() on a None value")
      | some _ => do
        let a := { a with idxOf := a.idxOf.insert (LinkedNode.item moved) idx }
        let a ← a.relink idx
        return (len, removed, a)
  else
    return (len, removed, a)

/-- `remove_item`. -/
def removeItem (a : LinkedArena I N) (item : I) :
    Except Fault (Option (ℕ × N) × LinkedArena I N) :=
  match a.idxOf.lookup item with
  | some idx => do
    let (len, removed, a) ← a.remove idx
    return (some (len, removed), a)
  | none => .ok (none, a)

end LinkedArena

end LightCache
