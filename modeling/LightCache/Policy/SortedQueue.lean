import Mathlib.Data.List.Sort
import Mathlib.Order.OrderDual
import LightCache.Policy.PriorityQueue

/-!
# A lawful priority queue

The assumptions on the queue can be met: `SortedQueue` keeps its items in a list, greatest
priority first, and is a `LawfulPriorityQueue`.
-/

namespace LightCache

/-- Items with their priorities, greatest first, each item once. -/
structure SortedQueue (K P : Type) [LinearOrder P] where
  items : List (K × P)
  sorted : items.Pairwise fun a b => b.2 ≤ a.2
  nodup : (items.map Prod.fst).Nodup

namespace SortedQueue

variable {K P : Type} [DecidableEq K] {l : List (K × P)} {k k' : K} {p : P}

/-- The items without `k`. -/
def drop (l : List (K × P)) (k : K) : List (K × P) := l.filter fun e => e.1 ≠ k

theorem mem_drop : (k', p) ∈ drop l k ↔ (k', p) ∈ l ∧ k' ≠ k := by
  simp [drop]

theorem not_mem_drop : k ∉ (drop l k).map Prod.fst := by
  simp [drop]

/-- The priority of the first item `k`. -/
def find (l : List (K × P)) (k : K) : Option P := (l.find? fun e => e.1 = k).map Prod.snd

theorem find_eq_some (hnd : (l.map Prod.fst).Nodup) : find l k = some p ↔ (k, p) ∈ l := by
  induction l with
  | nil => simp [find]
  | cons e l ih =>
    obtain ⟨j, r⟩ := e
    obtain ⟨hj, hnd⟩ := List.nodup_cons.mp hnd
    by_cases hjk : j = k
    · subst hjk
      have hnot : (j, p) ∉ l := fun hmem => hj (List.mem_map.mpr ⟨_, hmem, rfl⟩)
      simp [find, hnot, eq_comm]
    · have hfind : find ((j, r) :: l) k = find l k := by simp [find, hjk]
      rw [hfind, ih hnd]
      simp [Ne.symm hjk]

variable [LinearOrder P]

instance : PriorityQueue K P (SortedQueue K P) where
  new := ⟨[], List.Pairwise.nil, List.nodup_nil⟩
  push q k p :=
    { items := (drop q.items k).orderedInsert (fun a b => b.2 ≤ a.2) (k, p)
      sorted := (q.sorted.filter _).orderedInsert _ _
      nodup := by
        apply ((List.perm_orderedInsert _ _ _).map Prod.fst).nodup_iff.mpr
        exact List.nodup_cons.mpr ⟨not_mem_drop, q.nodup.sublist (List.filter_sublist.map _)⟩ }
  remove q k :=
    { items := drop q.items k
      sorted := q.sorted.filter _
      nodup := q.nodup.sublist (List.filter_sublist.map _) }
  peek q := q.items.head?
  pop q :=
    { items := q.items.tail
      sorted := q.sorted.tail
      nodup := by rw [List.map_tail]; exact q.nodup.tail }
  len q := q.items.length
  priority q k := find q.items k

theorem priority_eq_some {q : SortedQueue K P} :
    PriorityQueue.priority q k = some p ↔ (k, p) ∈ q.items :=
  find_eq_some q.nodup

instance : LawfulPriorityQueue K P (SortedQueue K P) where
  priority_new _ := rfl
  priority_push q k p k' := by
    ext r
    rw [priority_eq_some]
    have hitems : (PriorityQueue.push q k p).items =
        (drop q.items k).orderedInsert (fun a b => b.2 ≤ a.2) (k, p) := rfl
    rw [hitems, List.mem_orderedInsert, mem_drop, Prod.mk.injEq]
    split_ifs with hk
    · simp [hk, eq_comm]
    · simp [hk, priority_eq_some]
  priority_remove q k k' := by
    ext r
    rw [priority_eq_some]
    have hitems : (PriorityQueue.remove q k).items = drop q.items k := rfl
    rw [hitems, mem_drop]
    split_ifs with hk
    · simp [hk]
    · simp [hk, priority_eq_some]
  peek_none q hpeek k := by
    have hnil : q.items = [] := List.head?_eq_none_iff.mp hpeek
    simp [PriorityQueue.priority, hnil, find]
  peek_some q k p hpeek := by
    obtain ⟨l, hl⟩ := List.head?_eq_some_iff.mp hpeek
    have hsorted := q.sorted
    rw [hl] at hsorted
    refine ⟨priority_eq_some.mpr (by simp [hl]), ?_⟩
    intro k' p' hk'
    rcases List.mem_cons.mp (hl ▸ priority_eq_some.mp hk') with heq | hmem
    · rw [(Prod.mk.inj heq).2]
    · exact (List.pairwise_cons.mp hsorted).1 _ hmem
  priority_pop q k p hpeek k' := by
    obtain ⟨l, hl⟩ := List.head?_eq_some_iff.mp hpeek
    have hitems : (PriorityQueue.pop q).items = l := by
      have htail : (PriorityQueue.pop q).items = q.items.tail := rfl
      rw [htail, hl]
      rfl
    have hnd := q.nodup
    rw [hl] at hnd
    have hk : ∀ r, (k, r) ∉ l := fun r hr =>
      (List.nodup_cons.mp hnd).1 (List.mem_map.mpr ⟨_, hr, rfl⟩)
    ext r
    rw [priority_eq_some, hitems]
    split_ifs with hkk
    · simp [hkk, hk]
    · simp [priority_eq_some, hl, hkk]
  len_pop q k p hpeek := by
    obtain ⟨l, hl⟩ := List.head?_eq_some_iff.mp hpeek
    have hpop : PriorityQueue.len (PriorityQueue.pop q) = q.items.tail.length := rfl
    have hlen : PriorityQueue.len q = q.items.length := rfl
    rw [hpop, hlen, hl]
    rfl

end SortedQueue

end LightCache
