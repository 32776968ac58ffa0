import Mathlib.Data.List.Basic

/-!
# The waiters entry of a key

`Wakers` is what the waiters map of a shard stores for a key while calls work on its value
(`src/map/waker_node.rs`). Waking is modelled by the list of wakers that are invoked.
-/

namespace LightCache

/-- The identity of a `std::task::Waker`: wakers are equal when they wake the same task. -/
abbrev Waker := ℕ

/-- `Wakers`. -/
structure Wakers where
  /-- The calls that compute the value now. -/
  workers : ℕ
  /-- The wakers to invoke when the value is inserted. -/
  wakers : List Waker
  deriving DecidableEq, Repr

namespace Wakers

/-- `Wakers::start`. -/
def start (waker : Waker) : Wakers where
  workers := 1
  wakers := [waker]

/-- `join_waiter`. -/
def joinWaiter (node : Wakers) (waker : Waker) : Wakers :=
  { node with wakers := node.wakers ++ [waker] }

/-- `join_worker`. -/
def joinWorker (node : Wakers) : Wakers := { node with workers := node.workers + 1 }

/-- `remove_worker`: a saturating decrement. -/
def removeWorker (node : Wakers) : Wakers := { node with workers := node.workers - 1 }

/-- `alert_all`: the wakers it invokes. -/
def alertAll (node : Wakers) : List Waker := node.wakers

/-- `finish`: the wakers it invokes. -/
def finish (node : Wakers) : List Waker := node.wakers

@[simp] theorem workers_start (w : Waker) : (start w).workers = 1 := rfl
@[simp] theorem wakers_start (w : Waker) : (start w).wakers = [w] := rfl
@[simp] theorem workers_joinWaiter (n : Wakers) (w : Waker) :
    (n.joinWaiter w).workers = n.workers := rfl
@[simp] theorem wakers_joinWaiter (n : Wakers) (w : Waker) :
    (n.joinWaiter w).wakers = n.wakers ++ [w] := rfl
@[simp] theorem workers_joinWorker (n : Wakers) : n.joinWorker.workers = n.workers + 1 := rfl
@[simp] theorem wakers_joinWorker (n : Wakers) : n.joinWorker.wakers = n.wakers := rfl
@[simp] theorem workers_removeWorker (n : Wakers) : n.removeWorker.workers = n.workers - 1 := rfl
@[simp] theorem wakers_removeWorker (n : Wakers) : n.removeWorker.wakers = n.wakers := rfl
@[simp] theorem alertAll_eq (n : Wakers) : n.alertAll = n.wakers := rfl
@[simp] theorem finish_eq (n : Wakers) : n.finish = n.wakers := rfl

end Wakers

end LightCache
