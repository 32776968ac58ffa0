import Mathlib.Data.List.Basic
import Mathlib.Order.Lattice

/-!
# The priority queue of the LRU policy

The queue comes from the `priority_queue` crate, which is not part of the repository, so it is
a parameter: `PriorityQueue` lists the operations the policy calls, and `LawfulPriorityQueue`
what the crate documents about them. Which of several items with the greatest priority `peek`
gives is left open.
-/

namespace LightCache

/-- The operations of `priority_queue::PriorityQueue<K, P>` that the policy calls. -/
class PriorityQueue (K P : outParam Type) (Q : Type) where
  /-- `PriorityQueue::new`. -/
  new : Q
  /-- `push`: add the item, or change its priority. -/
  push : Q → K → P → Q
  remove : Q → K → Q
  /-- `peek`: an item with the greatest priority. -/
  peek : Q → Option (K × P)
  /-- `pop`: the queue without the item `peek` gives. -/
  pop : Q → Q
  len : Q → ℕ
  /-- `get_priority`. -/
  priority : Q → K → Option P

/-- What the crate documents. -/
class LawfulPriorityQueue (K P : outParam Type) (Q : Type) [DecidableEq K] [LinearOrder P]
    [PriorityQueue K P Q] : Prop where
  priority_new : ∀ k, PriorityQueue.priority (PriorityQueue.new : Q) k = none
  priority_push : ∀ (q : Q) k p k', PriorityQueue.priority (PriorityQueue.push q k p) k' =
    if k' = k then some p else PriorityQueue.priority q k'
  priority_remove : ∀ (q : Q) k k', PriorityQueue.priority (PriorityQueue.remove q k) k' =
    if k' = k then none else PriorityQueue.priority q k'
  peek_none : ∀ q : Q, PriorityQueue.peek q = none → ∀ k, PriorityQueue.priority q k = none
  peek_some : ∀ (q : Q) k p, PriorityQueue.peek q = some (k, p) →
    PriorityQueue.priority q k = some p ∧
      ∀ k' p', PriorityQueue.priority q k' = some p' → p' ≤ p
  priority_pop : ∀ (q : Q) k p, PriorityQueue.peek q = some (k, p) →
    ∀ k', PriorityQueue.priority (PriorityQueue.pop q) k' =
      if k' = k then none else PriorityQueue.priority q k'
  len_pop : ∀ (q : Q) k p, PriorityQueue.peek q = some (k, p) →
    PriorityQueue.len (PriorityQueue.pop q) + 1 = PriorityQueue.len q

end LightCache
