import LightCache.Lib.Cells
import LightCache.Policy.Threads

/-!
# A section under the lock, key by key

`LightCache.Policy.Threads` takes the section of an operation under the policy lock as one step. The
code takes the keys that it drops out of the map one by one, each under the lock of its shard only,
and the other threads may read and write the map in between. Here each of these is a step.

Only the thread in the section sees the policy, and what it does there does not depend on the map.
So a section is the list of the keys that it drops, what it does then, and the policy that it leaves
(`Sectioned`).

Main results: `exists_run_of_step`: a section alone is the one step. And `exists_atomic_run`: when
the lock is free, the policy, the map and what every thread returned are those of a run in which
each section is one step. In that run the table operations on keys that the section had dropped
already come after it, and the others before it. A read of the map that ends a section, before the
lock is released, is a table operation of its own there: the section does not keep the others from
the keys it dropped.
-/

namespace LightCache

/-- What a thread returns when it releases the lock. -/
def Next.outcome {K V : Type} : Next K V → Option (Outcome V)
  | .table _ => none
  | .done result => some (.returned result)
  | .panicked => some .panicked

namespace TableOp

variable {K V ι : Type} [DecidableEq K] (m : LightMap K V) (w : TableOp K V) (i : ι)

/-- The key of a table operation. -/
def key : TableOp K V → K
  | .get key | .insert key _ | .remove key => key

/-- What a table operation does with the value of its key. -/
def act : TableOp K V → Option V → Option V × Option V
  | .get _, value => (value, value)
  | .insert _ value', value => (value, some value')
  | .remove _, value => (value, none)

/-- The key of the table operation of a thread. -/
abbrev cell (e : ι × TableOp K V) : K := e.2.key

/-- The table operation of a thread, and what the thread returns. -/
def actOf (e : ι × TableOp K V) (value : Option V) : (ι × Outcome V) × Option V :=
  ((e.1, .returned (e.2.act value).1), (e.2.act value).2)

theorem outcome_run :
    (i, Outcome.returned (w.run m).1) = Cells.out cell actOf m.get (i, w) := by
  have hfst : (w.run m).1 = (w.act (m.get w.key)).1 := by
    cases w with
    | get k => rfl
    | insert k v => exact LightMap.insert_fst m k v
    | remove k => rfl
  rw [hfst]
  rfl

theorem get_run : (w.run m).2.get = Cells.apply cell actOf m.get (i, w) := by
  funext k
  by_cases hk : k = w.key
  · subst hk
    rw [Cells.apply, Function.update_self]
    cases w with
    | get k => rfl
    | insert k v => exact (LightMap.get_insert m k k v).trans (if_pos rfl)
    | remove k => exact (LightMap.get_remove m k k).trans (if_pos rfl)
  · rw [Cells.apply, Function.update_of_ne hk]
    cases w with
    | get key => rfl
    | insert key v => exact (LightMap.get_insert m key k v).trans (if_neg hk)
    | remove key => exact (LightMap.get_remove m key k).trans (if_neg hk)

/-- A table operation on a key that is not dropped. -/
theorem get_removeAll_run {dead : List K} (h : w.key ∉ dead) :
    ((w.run m).2.removeAll dead).get = Cells.apply cell actOf (m.removeAll dead).get (i, w) := by
  have hkey : (m.removeAll dead).get w.key = m.get w.key := by
    rw [LightMap.get_removeAll, if_neg h]
  funext k
  rw [LightMap.get_removeAll, get_run m w i, Cells.apply, Cells.apply, cell, hkey]
  by_cases hk : k = w.key
  · rw [hk, if_neg h, Function.update_self, Function.update_self]
  · rw [Function.update_of_ne hk, Function.update_of_ne hk, LightMap.get_removeAll]

end TableOp

/-! ## Sections -/

/-- How a section ends: with what it leaves to do, or with a read of the map. -/
inductive Ending (K V : Type)
  | leave (next : Next K V)
  | read (key : K)

namespace Ending

variable {K V : Type}

/-- What is left to do when the lock is released. -/
def toNext [DecidableEq K] (m : LightMap K V) : Ending K V → Next K V
  | leave next => next
  | read key => .done (m.get key)

/-- What is left to do, if the read comes after the section. -/
def later : Ending K V → Next K V
  | leave next => next
  | read key => .table (.get key)

end Ending

/-- How the section of an operation ends. Only an insert may panic. -/
inductive Ending.Of {K V : Type} : Op K V → Ending K V → Prop
  | get (key : K) : Of (.get key) (.leave (.table (.get key)))
  | read (key : K) : Of (.get key) (.read key)
  | insert (key : K) (value : V) : Of (.insert key value) (.leave (.table (.insert key value)))
  | panicked (key : K) (value : V) : Of (.insert key value) (.leave .panicked)
  | remove (key : K) : Of (.remove key) (.leave (.table (.remove key)))
  | prune : Of .prune (.leave (.done none))

/-- A section under the policy lock: the keys that it takes out of the map, one after the other, how
it ends, and the policy that it leaves. -/
structure Section (P K V : Type) where
  dead : List K
  ending : Ending K V
  policy : P

/-- What a section leaves to do, the policy and the map. -/
def Section.onMap {P K V : Type} [DecidableEq K] (map : LightMap K V) (sec : Section P K V) :
    Next K V × P × LightMap K V :=
  (sec.ending.toNext (map.removeAll sec.dead), sec.policy, map.removeAll sec.dead)

/-- A policy whose sections do not depend on the map. In a sound state, a section drops no key
twice. -/
class Sectioned (P K V : Type) [DecidableEq K] [Policy P K V] where
  Sound : P → Prop
  sectionOf : Readings → Op K V → P → Except Fault (Section P K V)
  locked_eq : ∀ (rd : Readings) (op : Op K V) (s : P) (map : LightMap K V),
    Policy.locked rd op s map = (sectionOf rd op s).map (Section.onMap map)
  ends : ∀ (rd : Readings) (op : Op K V) (s : P) (sec : Section P K V),
    sectionOf rd op s = .ok sec → sec.ending.Of op
  sound : ∀ (rd : Readings) (op : Op K V) (s : P) (sec : Section P K V), Sound s →
    sectionOf rd op s = .ok sec → Sound sec.policy ∧ sec.dead.Nodup

/-- The policy with the reads that end a section after it. -/
abbrev Sectioned.late (P K V : Type) [DecidableEq K] [Policy P K V] [Sectioned P K V] :
    Policy P K V where
  locked rd op s map := (sectionOf rd op s).map fun sec =>
    (sec.ending.later, sec.policy, map.removeAll sec.dead)

/-- A section drops keys, and ends as one of its operation. -/
theorem Sectioned.locked_cases {P K V : Type} [DecidableEq K] [Policy P K V] [Sectioned P K V]
    {rd : Readings} {op : Op K V} {s s' : P} {map map' : LightMap K V} {next : Next K V}
    (h : Policy.locked rd op s map = .ok (next, s', map')) :
    ∃ (dead : List K) (ending : Ending K V), map' = map.removeAll dead ∧
      next = ending.toNext map' ∧ ending.Of op := by
  rw [locked_eq] at h
  cases hsec : sectionOf rd op s with
  | error e =>
    rw [hsec] at h
    cases h
  | ok sec =>
    rw [hsec] at h
    cases h
    exact ⟨sec.dead, sec.ending, rfl, rfl, ends rd op s sec hsec⟩

/-- The thread in a section, and what is left of it. -/
structure Held (K V ι : Type) where
  thread : ι
  dead : List K
  ending : Ending K V

/-- The threads, and the one that holds the policy lock. The policy is already the one that its
section leaves. -/
structure Sections (P K V ι : Type) [DecidableEq K] extends Threads P K V ι where
  holder : Option (Held K V ι)

/-- The steps of the threads, key by key. -/
inductive SectionStep (K V ι : Type)
  /-- Thread `i` takes the policy lock. -/
  | lock (i : ι) (rd : Readings) (op : Op K V)
  /-- The thread in the section takes the next key out of the map. -/
  | remove
  /-- It releases the lock, after a read of the map if the section ends with one. -/
  | release
  /-- Thread `i` does its table operation and returns. -/
  | table (i : ι)

variable {P K V ι : Type} [DecidableEq K] [DecidableEq ι]

namespace Threads

omit [DecidableEq ι] in
/-- What thread `i` returns after its table operation. -/
def returned (s : Threads P K V ι) (i : ι) : List (ι × Outcome V) :=
  ((s.pending i).map fun w => (i, .returned (w.run s.map).1)).toList

omit [DecidableEq ι] in
/-- What the threads return in a step. -/
def answers [Policy P K V] (s : Threads P K V ι) : ThreadStep K V ι → List (ι × Outcome V)
  | .lock i rd op => match Policy.locked rd op s.policy s.map with
    | .ok (next, _) => (next.outcome.map (i, ·)).toList
    | .error _ => []
  | .table i => s.returned i

/-- The threads, and what they returned. -/
def recorded [Policy P K V] : Threads P K V ι × List (ι × Outcome V) → ThreadStep K V ι →
    Option (Threads P K V ι × List (ι × Outcome V)) :=
  Trace.recording step fun s a _ log => log ++ s.answers a

/-- The same, with the reads that end a section after it. -/
def recordedLate [Policy P K V] [Sectioned P K V] :
    Threads P K V ι × List (ι × Outcome V) → ThreadStep K V ι →
      Option (Threads P K V ι × List (ι × Outcome V)) :=
  @recorded P K V ι _ _ (Sectioned.late P K V)

variable {t t' : Threads P K V ι} {log : List (ι × Outcome V)} {i : ι} {rd : Readings} {op : Op K V}
variable {next : Next K V} {policy : P} {map : LightMap K V}

theorem recorded_table [Policy P K V] (h : t.table i = some t') :
    recorded (t, log) (.table i) = some (t', log ++ t.returned i) := by
  rw [recorded, Trace.recording, step, h]
  rfl

theorem recordedLate_table [Policy P K V] [Sectioned P K V] (h : t.table i = some t') :
    recordedLate (t, log) (.table i) = some (t', log ++ t.returned i) :=
  @recorded_table P K V ι _ _ t t' log i (Sectioned.late P K V) h

theorem recorded_lock [Policy P K V] (hi : t.pending i = none)
    (h : Policy.locked rd op t.policy t.map = .ok (next, policy, map)) :
    recorded (t, log) (.lock i rd op) = some (
      { policy, map, pending := Function.update t.pending i next.tableOp },
      log ++ (next.outcome.map (i, ·)).toList) := by
  rw [recorded, Trace.recording, step, lock, hi, h, answers, h]
  rfl

end Threads

namespace Sections

/-- `from_parts`, when no operation has started. -/
def start (policy : P) (n : ℕ+) (hasher : K → UInt64) : Sections P K V ι where
  toThreads := Threads.start policy n hasher
  holder := none

/-- The thread takes the lock. -/
def lock [Policy P K V] [Sectioned P K V] (s : Sections P K V ι) (i : ι) (rd : Readings)
    (op : Op K V) : Option (Sections P K V ι) :=
  match s.holder, s.pending i, Sectioned.sectionOf rd op s.policy with
  | none, none, .ok sec => some { s with
      policy := sec.policy
      holder := some { thread := i, dead := sec.dead, ending := sec.ending } }
  | _, _, _ => none

/-- `remove_no_policy` of the next key. -/
def remove (s : Sections P K V ι) : Option (Sections P K V ι) :=
  match s.holder with
  | some { thread, dead := key :: dead, ending } => some { s with
      map := (s.map.remove key).2
      holder := some { thread, dead, ending } }
  | _ => none

/-- The end of the section. -/
def unlock (s : Sections P K V ι) : Option (Sections P K V ι) :=
  match s.holder with
  | some { thread, dead := [], ending } => some { s with
      pending := Function.update s.pending thread ending.later.tableOp
      holder := none }
  | _ => none

/-- The table operation after the lock. -/
def table (s : Sections P K V ι) (i : ι) : Option (Sections P K V ι) :=
  (s.toThreads.table i).map fun t => { s with toThreads := t }

/-- The end of the section, with the read that it ends with. -/
def release (s : Sections P K V ι) : Option (Sections P K V ι) :=
  match s.holder with
  | some { thread, ending := .read _, .. } => s.unlock.bind fun s => s.table thread
  | _ => s.unlock

/-- One step of a thread. -/
def step [Policy P K V] [Sectioned P K V] (s : Sections P K V ι) :
    SectionStep K V ι → Option (Sections P K V ι)
  | .lock i rd op => s.lock i rd op
  | .remove => s.remove
  | .release => s.release
  | .table i => s.table i

/-- What the threads return in a step. -/
def answers (s : Sections P K V ι) : SectionStep K V ι → List (ι × Outcome V)
  | .lock _ _ _ | .remove => []
  | .release => match s.holder with
    | some { thread, ending := .leave next, .. } => (next.outcome.map (thread, ·)).toList
    | some { thread, ending := .read key, .. } => [(thread, .returned (s.map.get key))]
    | none => []
  | .table i => s.toThreads.returned i

/-- The threads, and what they returned. -/
def recorded [Policy P K V] [Sectioned P K V] :
    Sections P K V ι × List (ι × Outcome V) → SectionStep K V ι →
      Option (Sections P K V ι × List (ι × Outcome V)) :=
  Trace.recording step fun s a _ log => log ++ s.answers a

end Sections

/-! ## The run in which each section is one step -/

section Behind

variable {s s' t t' : Threads P K V ι} {log log' : List (ι × Outcome V)} {done : List K}
variable {q : List (ι × TableOp K V)} {i : ι} {w : TableOp K V} {o : Option (TableOp K V)}
variable {out : List (ι × Outcome V)} {k : K}

open TableOp

/-- `t` has not dropped the keys `done`, and has not done the table operations `q`, which come after
that. Otherwise it is where `s` is. -/
structure Behind (s : Threads P K V ι) (log : List (ι × Outcome V)) (t : Threads P K V ι)
    (log' : List (ι × Outcome V)) (done : List K) (q : List (ι × TableOp K V)) : Prop where
  queued : ∀ e ∈ q, t.pending e.1 = some e.2
  nodup : (q.map Prod.fst).Nodup
  pending : ∀ j, s.pending j = if j ∈ q.map Prod.fst then none else t.pending j
  get : s.map.get = Cells.applyAll cell actOf (t.map.removeAll done).get q
  log : ∀ j, log.filter (·.1 = j) =
    (log' ++ Cells.outs cell actOf (t.map.removeAll done).get q).filter (·.1 = j)

omit [DecidableEq ι] in
theorem map_outs (f : K → Option V) :
    (Cells.outs cell actOf f q).map Prod.fst = q.map Prod.fst := by
  induction q generalizing f with
  | nil => rfl
  | cons e q ih => exact congrArg _ (ih _)

/-- What a thread returns may come before what the others return. -/
theorem filter_append_outs (f : K → Option V) (h : i ∉ q.map Prod.fst)
    (hout : ∀ e ∈ out, e.1 = i) (j : ι) :
    (log ++ Cells.outs cell actOf f q ++ out).filter (·.1 = j) =
      (log ++ out ++ Cells.outs cell actOf f q).filter (·.1 = j) := by
  simp only [List.filter_append, List.append_assoc]
  by_cases hj : j = i
  · have hnil : (Cells.outs cell actOf f q).filter (·.1 = j) = [] := by
      rw [List.filter_eq_nil_iff]
      intro e he hej
      rw [← map_outs f] at h
      exact h (List.mem_map.mpr ⟨e, he, (of_decide_eq_true hej).trans hj⟩)
    rw [hnil, List.append_nil, List.nil_append]
  · have hnil : out.filter (·.1 = j) = [] := by
      rw [List.filter_eq_nil_iff]
      intro e he hej
      exact hj ((of_decide_eq_true hej).symm.trans (hout e he))
    rw [hnil, List.append_nil, List.nil_append]

omit [DecidableEq ι] in
theorem returned_eq (hw : s.pending i = some w) :
    s.returned i = [Cells.out cell actOf s.map.get (i, w)] := by
  rw [Threads.returned, hw, Option.map_some, Option.toList_some, outcome_run]

namespace Behind

theorem pending_eq (h : Behind s log t log' done q) (hw : s.pending i = some w) :
    i ∉ q.map Prod.fst ∧ t.pending i = some w := by
  rw [h.pending i] at hw
  split_ifs at hw with hi
  exact ⟨hi, hw⟩

theorem not_mem (h : Behind s log t log' done q) (hi : t.pending i = none) :
    i ∉ q.map Prod.fst := by
  rw [List.mem_map]
  rintro ⟨e, he, rfl⟩
  rw [h.queued e he] at hi
  cases hi

/-- The section drops its next key. -/
theorem remove (h : Behind s log t log' done q) (hq : ∀ e ∈ q, e.2.key ≠ k)
    (hmap : s'.map = (s.map.remove k).2) (hp : s'.pending = s.pending) :
    Behind s' log t log' (done ++ [k]) q := by
  have hmem : (t.map.removeAll (done ++ [k])).get =
      Function.update (t.map.removeAll done).get k none := by
    rw [LightMap.removeAll_append]
    funext j
    exact (LightMap.get_remove _ k j).trans (Function.update_apply ..).symm
  refine ⟨h.queued, h.nodup, hp ▸ h.pending, ?_, ?_⟩
  · rw [hmem, Cells.applyAll_update hq, ← h.get, hmap]
    funext j
    exact (LightMap.get_remove s.map k j).trans (Function.update_apply ..).symm
  · intro j
    rw [hmem, Cells.outs_update hq]
    exact h.log j

/-- A table operation on a key that the section dropped comes after it. -/
theorem defer (h : Behind s log t log' done q) (hw : s.pending i = some w)
    (hmap : s'.map = (w.run s.map).2) (hp : s'.pending = Function.update s.pending i none) :
    Behind s' (log ++ s.returned i) t log' done (q ++ [(i, w)]) := by
  obtain ⟨hi, hwt⟩ := h.pending_eq hw
  have hfst : (q ++ [(i, w)]).map Prod.fst = q.map Prod.fst ++ [i] := List.map_append
  refine ⟨?_, ?_, ?_, ?_, ?_⟩
  · intro e he
    rcases List.mem_append.mp he with he | he
    · exact h.queued e he
    · exact List.mem_singleton.mp he ▸ hwt
  · rw [hfst, List.nodup_append]
    refine ⟨h.nodup, List.nodup_singleton i, ?_⟩
    rintro a ha b hb rfl
    exact hi (List.mem_singleton.mp hb ▸ ha)
  · intro j
    rw [hp, hfst]
    by_cases hj : j = i
    · rw [hj, Function.update_self, if_pos (List.mem_append_right _ List.mem_cons_self)]
    · have hmem : j ∈ q.map Prod.fst ↔ j ∈ q.map Prod.fst ++ [i] := by simp [hj]
      rw [Function.update_of_ne hj, h.pending j]
      exact if_congr hmem rfl rfl
  · rw [hmap, get_run s.map w i, h.get, Cells.applyAll_append]
    rfl
  · intro j
    rw [returned_eq hw, List.filter_append, h.log j, ← List.filter_append, Cells.outs_append,
      h.get, List.append_assoc]
    rfl

/-- A table operation on another key comes before it. -/
theorem table (h : Behind s log t log' done q) (hw : s.pending i = some w)
    (hmap : s'.map = (w.run s.map).2) (hp : s'.pending = Function.update s.pending i none)
    (hmap' : t'.map = (w.run t.map).2) (hp' : t'.pending = Function.update t.pending i none)
    (hdone : w.key ∉ done) (hq : ∀ e ∈ q, e.2.key ∈ done) :
    Behind s' (log ++ s.returned i) t' (log' ++ t.returned i) done q := by
  obtain ⟨hi, hwt⟩ := h.pending_eq hw
  have hne : ∀ e ∈ q, e.2.key ≠ w.key := fun e he heq => hdone (heq ▸ hq e he)
  have hmem : (t'.map.removeAll done).get =
      Cells.apply cell actOf (t.map.removeAll done).get (i, w) := by
    rw [hmap', get_removeAll_run t.map w i hdone]
  have hout : t.returned i = [Cells.out cell actOf (t.map.removeAll done).get (i, w)] := by
    rw [returned_eq hwt, Cells.out, Cells.out, LightMap.get_removeAll, if_neg hdone]
  refine ⟨?_, h.nodup, ?_, ?_, ?_⟩
  · intro e he
    have hei : e.1 ≠ i := fun hei => hi (hei ▸ List.mem_map_of_mem he)
    rw [hp', Function.update_of_ne hei]
    exact h.queued e he
  · intro j
    rw [hp, hp']
    by_cases hj : j = i
    · rw [hj, Function.update_self, Function.update_self, ite_self]
    · rw [Function.update_of_ne hj, Function.update_of_ne hj, h.pending j]
  · rw [hmap, get_run s.map w i, hmem, h.get, Cells.apply_applyAll hne]
  · intro j
    rw [hmem, Cells.outs_apply hne, returned_eq hw, h.get, Cells.out_applyAll hne, hout,
      List.filter_append, h.log j, ← List.filter_append]
    exact filter_append_outs _ hi (fun e he => List.mem_singleton.mp he ▸ rfl) j

/-- The section ends, and is taken as one step. -/
theorem unlock (h : Behind s log t log' done q) (hi : t.pending i = none)
    (hmap : s'.map = s.map) (hp : s'.pending = Function.update s.pending i o)
    (hmap' : t'.map = t.map.removeAll done) (hp' : t'.pending = Function.update t.pending i o)
    (hout : ∀ e ∈ out, e.1 = i) : Behind s' (log ++ out) t' (log' ++ out) [] q := by
  have hiq := h.not_mem hi
  refine ⟨?_, h.nodup, ?_, ?_, ?_⟩
  · intro e he
    have hei : e.1 ≠ i := fun hei => hiq (hei ▸ List.mem_map_of_mem he)
    rw [hp', Function.update_of_ne hei]
    exact h.queued e he
  · intro j
    rw [hp, hp']
    by_cases hj : j = i
    · rw [hj, Function.update_self, Function.update_self, if_neg hiq]
    · rw [Function.update_of_ne hj, Function.update_of_ne hj, h.pending j]
  · rw [hmap, hmap', LightMap.removeAll_nil]
    exact h.get
  · intro j
    rw [hmap', LightMap.removeAll_nil, List.filter_append, h.log j, ← List.filter_append]
    exact filter_append_outs _ hiq hout j

/-- The table operations that came after the section are done, one after the other. -/
theorem drain [Policy P K V] [Sectioned P K V] (h : Behind s log t log' [] q) :
    ∃ t₁ log₁, Trace.run Threads.recordedLate (t, log') (q.map (.table ·.1)) = some (t₁, log₁) ∧
      t₁.policy = t.policy ∧ Behind s log t₁ log₁ [] [] := by
  induction q generalizing t log' with
  | nil => exact ⟨t, log', rfl, rfl, h⟩
  | cons e q ih =>
    obtain ⟨i, w⟩ := e
    have hw : t.pending i = some w := h.queued (i, w) List.mem_cons_self
    obtain ⟨t', ht'⟩ : ∃ t', t.table i = some t' := ⟨_, by rw [Threads.table, hw]⟩
    obtain ⟨w', hw', hpolicy, hmap, hp⟩ := Threads.table_eq_some ht'
    obtain rfl := Option.some.inj (hw.symm.trans hw')
    obtain ⟨hiq, hnodup⟩ : i ∉ q.map Prod.fst ∧ (q.map Prod.fst).Nodup :=
      List.nodup_cons.mp h.nodup
    -- The first of the queue is done, and it is not in the rest.
    have hbehind : Behind s log t' (log' ++ t.returned i) [] q := by
      refine ⟨?_, hnodup, ?_, ?_, ?_⟩
      · intro e he
        have hei : e.1 ≠ i := fun hei => hiq (hei ▸ List.mem_map_of_mem he)
        rw [hp, Function.update_of_ne hei]
        exact h.queued e (List.mem_cons_of_mem _ he)
      · intro j
        rw [h.pending j, hp]
        by_cases hj : j = i
        · rw [hj, if_pos (List.mem_map.mpr ⟨(i, w), List.mem_cons_self, rfl⟩),
            Function.update_self, ite_self]
        · have hmem : j ∈ ((i, w) :: q).map Prod.fst ↔ j ∈ q.map Prod.fst := by simp [hj]
          rw [Function.update_of_ne hj]
          exact if_congr hmem rfl rfl
      · rw [hmap, LightMap.removeAll_nil, get_run t.map w i]
        exact h.get
      · intro j
        rw [h.log j, hmap, LightMap.removeAll_nil, LightMap.removeAll_nil, get_run t.map w i,
          returned_eq hw, List.append_assoc]
        rfl
    obtain ⟨t₁, log₁, hrun, hpolicy₁, hend⟩ := ih hbehind
    exact ⟨t₁, log₁,
      Trace.run_cons_eq_some.mpr ⟨_, Threads.recordedLate_table ht', hrun⟩,
      hpolicy₁.trans hpolicy, hend⟩

end Behind

end Behind

namespace Sections

variable [Policy P K V] [Sectioned P K V] {s s' : Sections P K V ι} {t : Threads P K V ι}
variable {log log' : List (ι × Outcome V)} {i : ι} {rd : Readings} {op : Op K V}
variable {thread : ι} {ending : Ending K V}

omit [DecidableEq ι] in
theorem lock_eq_some (h : s.lock i rd op = some s') : s.holder = none ∧ s.pending i = none ∧
    ∃ sec, Sectioned.sectionOf rd op s.policy = .ok sec ∧ s' = { s with
      policy := sec.policy
      holder := some { thread := i, dead := sec.dead, ending := sec.ending } } := by
  unfold lock at h
  split at h
  · next hholder hi hsec => exact ⟨hholder, hi, _, hsec, (Option.some.inj h).symm⟩
  · cases h

omit [DecidableEq ι] [Policy P K V] [Sectioned P K V] in
theorem remove_eq_some (h : s.remove = some s') : ∃ thread key dead ending,
    s.holder = some { thread, dead := key :: dead, ending } ∧ s' = { s with
      map := (s.map.remove key).2
      holder := some { thread, dead, ending } } := by
  unfold remove at h
  split at h
  · next hholder => exact ⟨_, _, _, _, hholder, (Option.some.inj h).symm⟩
  · cases h

omit [Policy P K V] [Sectioned P K V] in
theorem unlock_eq_some (h : s.unlock = some s') : ∃ thread ending,
    s.holder = some { thread, dead := [], ending } ∧ s' = { s with
      pending := Function.update s.pending thread ending.later.tableOp
      holder := none } := by
  unfold unlock at h
  split at h
  · next hholder => exact ⟨_, _, hholder, (Option.some.inj h).symm⟩
  · cases h

omit [Policy P K V] [Sectioned P K V] in
theorem table_eq_some (h : s.table i = some s') : ∃ w, s.pending i = some w ∧
    s'.policy = s.policy ∧ s'.map = (w.run s.map).2 ∧
    s'.pending = Function.update s.pending i none ∧ s'.holder = s.holder := by
  rw [table, Option.map_eq_some_iff] at h
  obtain ⟨t, ht, rfl⟩ := h
  obtain ⟨w, hw, hpolicy, hmap, hp⟩ := Threads.table_eq_some ht
  exact ⟨w, hw, hpolicy, hmap, hp, rfl⟩

/-- `t` is the run in which each section is one step: where `s` is if the lock is free, or else
before the section that is under way. -/
def Follows (s : Sections P K V ι) (log : List (ι × Outcome V)) (t : Threads P K V ι)
    (log' : List (ι × Outcome V)) : Prop :=
  Sectioned.Sound K V t.policy ∧ match s.holder with
  | none => s.policy = t.policy ∧ Behind s.toThreads log t log' [] []
  | some held => ∃ rd op done q, t.pending held.thread = none ∧
      Sectioned.sectionOf rd op t.policy = .ok ⟨done ++ held.dead, held.ending, s.policy⟩ ∧
      (∀ e ∈ q, e.2.key ∈ done) ∧ Behind s.toThreads log t log' done q

theorem Follows.lock (h : Follows s log t log') (hs : s.lock i rd op = some s') :
    Follows s' log t log' := by
  obtain ⟨hholder, hi, sec, hsec, rfl⟩ := lock_eq_some hs
  obtain ⟨hsound, hfree⟩ := h
  rw [hholder] at hfree
  obtain ⟨hpolicy, hbehind⟩ := hfree
  refine ⟨hsound, rd, op, [], [], ?_, ?_, fun e he => absurd he List.not_mem_nil,
    hbehind.queued, hbehind.nodup, hbehind.pending, hbehind.get, hbehind.log⟩
  · exact (hbehind.pending i).symm.trans hi
  · rw [← hpolicy, hsec]
    rfl

theorem Follows.remove (h : Follows s log t log') (hs : s.remove = some s') :
    Follows s' log t log' := by
  obtain ⟨thread, key, dead, ending, hholder, rfl⟩ := remove_eq_some hs
  obtain ⟨hsound, hheld⟩ := h
  rw [hholder] at hheld
  obtain ⟨rd, op, done, q, hi, hsec, hq, hbehind⟩ := hheld
  obtain ⟨-, hnodup⟩ := Sectioned.sound rd op t.policy _ hsound hsec
  have hkey : key ∉ done := fun hmem =>
    (List.nodup_append.mp hnodup).2.2 key hmem key List.mem_cons_self rfl
  refine ⟨hsound, rd, op, done ++ [key], q, hi, ?_, ?_, ?_⟩
  · rw [List.append_assoc]
    exact hsec
  · exact fun e he => List.mem_append_left _ (hq e he)
  · exact hbehind.remove (fun e he hek => hkey (hek ▸ hq e he)) rfl rfl

theorem Follows.table (h : Follows s log t log') (hs : s.table i = some s') :
    ∃ bs t' log₁, Trace.run Threads.recordedLate (t, log') bs = some (t', log₁) ∧
      Follows s' (log ++ s.returned i) t' log₁ := by
  obtain ⟨w, hw, hpolicy, hmap, hp, hholder⟩ := table_eq_some hs
  obtain ⟨hsound, hcases⟩ := h
  -- The same table operation, in the run in which each section is one step.
  have hnow (hwt : t.pending i = some w) : ∃ t', t'.policy = t.policy ∧
      t'.map = (w.run t.map).2 ∧ t'.pending = Function.update t.pending i none ∧
      Trace.run Threads.recordedLate (t, log') [.table i] = some (t', log' ++ t.returned i) := by
    obtain ⟨t', ht'⟩ : ∃ t', t.table i = some t' := ⟨_, by rw [Threads.table, hwt]⟩
    obtain ⟨w', hw', hpolicy', hmap', hp'⟩ := Threads.table_eq_some ht'
    obtain rfl := Option.some.inj (hwt.symm.trans hw')
    exact ⟨t', hpolicy', hmap', hp', Trace.run_singleton.trans (Threads.recordedLate_table ht')⟩
  cases hheld : s.holder with
  | none =>
    rw [hheld] at hcases
    obtain ⟨hsame, hbehind⟩ := hcases
    obtain ⟨-, hwt⟩ := hbehind.pending_eq hw
    obtain ⟨t', hpolicy', hmap', hp', hrun⟩ := hnow hwt
    refine ⟨_, t', _, hrun, hpolicy' ▸ hsound, ?_⟩
    rw [hholder, hheld]
    exact ⟨by rw [hpolicy, hpolicy', hsame], hbehind.table hw hmap hp hmap' hp' List.not_mem_nil
      fun e he => absurd he List.not_mem_nil⟩
  | some held =>
    rw [hheld] at hcases
    obtain ⟨rd, op, done, q, hi, hsec, hq, hbehind⟩ := hcases
    by_cases hdone : w.key ∈ done
    · refine ⟨[], t, log', rfl, hsound, ?_⟩
      rw [hholder, hheld]
      refine ⟨rd, op, done, q ++ [(i, w)], hi, hpolicy ▸ hsec, ?_, hbehind.defer hw hmap hp⟩
      intro e he
      rcases List.mem_append.mp he with he | he
      · exact hq e he
      · exact List.mem_singleton.mp he ▸ hdone
    · obtain ⟨-, hwt⟩ := hbehind.pending_eq hw
      obtain ⟨t', hpolicy', hmap', hp', hrun⟩ := hnow hwt
      refine ⟨_, t', _, hrun, hpolicy' ▸ hsound, ?_⟩
      rw [hholder, hheld]
      refine ⟨rd, op, done, q, ?_, hpolicy ▸ hpolicy' ▸ hsec, hq,
        hbehind.table hw hmap hp hmap' hp' hdone hq⟩
      have hne : held.thread ≠ i := fun hne => by rw [hne, hwt] at hi; cases hi
      rw [hp', Function.update_of_ne hne, hi]

theorem Follows.unlock (h : Follows s log t log') (hholder : s.holder = some ⟨thread, [], ending⟩)
    (hs : s.unlock = some s') :
    ∃ bs t' log₁, Trace.run Threads.recordedLate (t, log') bs = some (t', log₁) ∧
      Follows s' (log ++ (ending.later.outcome.map (thread, ·)).toList) t' log₁ := by
  obtain ⟨thread', ending', hholder', rfl⟩ := unlock_eq_some hs
  obtain ⟨hsound, hheld⟩ := h
  rw [hholder] at hholder' hheld
  cases hholder'
  obtain ⟨rd, op, done, q, hi, hsec, hq, hbehind⟩ := hheld
  rw [List.append_nil] at hsec
  obtain ⟨hsound', -⟩ := Sectioned.sound rd op t.policy _ hsound hsec
  -- The section in one step, and then the table operations that come after it.
  have hlate : (Sectioned.late P K V).locked rd op t.policy t.map =
      .ok (ending.later, s.policy, t.map.removeAll done) := by
    show (Sectioned.sectionOf rd op t.policy).map _ = _
    rw [hsec]
    rfl
  have hlock := @Threads.recorded_lock P K V ι _ _ t log' thread rd op _ _ _
    (Sectioned.late P K V) hi hlate
  have hout : ∀ e ∈ (ending.later.outcome.map (thread, ·)).toList, e.1 = thread := by
    intro e he
    obtain ⟨o, -, rfl⟩ := Option.map_eq_some_iff.mp (Option.mem_toList.mp he)
    rfl
  have hafter : Behind
      { s with pending := Function.update s.pending thread ending.later.tableOp }.toThreads
      (log ++ (ending.later.outcome.map (thread, ·)).toList)
      { policy := s.policy
        map := t.map.removeAll done
        pending := Function.update t.pending thread ending.later.tableOp }
      (log' ++ (ending.later.outcome.map (thread, ·)).toList) [] q :=
    hbehind.unlock hi rfl rfl rfl rfl hout
  obtain ⟨t', log₁, hrun, hpolicy, hend⟩ := hafter.drain
  refine ⟨_, t', log₁, Trace.run_cons_eq_some.mpr ⟨_, hlock, hrun⟩, ?_, hpolicy.symm, hend⟩
  rw [hpolicy]
  exact hsound'

theorem Follows.release (h : Follows s log t log') (hs : s.release = some s') :
    ∃ bs t' log₁, Trace.run Threads.recordedLate (t, log') bs = some (t', log₁) ∧
      Follows s' (log ++ s.answers .release) t' log₁ := by
  cases hholder : s.holder with
  | none =>
    rw [Sections.release, hholder, Sections.unlock, hholder] at hs
    cases hs
  | some held =>
    obtain ⟨thread, dead, ending⟩ := held
    cases ending with
    | leave next =>
      rw [Sections.release, hholder] at hs
      obtain ⟨thread', ending, hheld, -⟩ := unlock_eq_some hs
      obtain ⟨bs, t', log₁, hrun, hend⟩ := h.unlock hheld hs
      rw [hholder] at hheld
      cases hheld
      refine ⟨bs, t', log₁, hrun, ?_⟩
      rw [answers, hholder]
      exact hend
    | read key =>
      rw [Sections.release, hholder] at hs
      -- The read under the lock is a table operation right after the section.
      obtain ⟨s₁, hunlock, htable⟩ := Option.bind_eq_some_iff.mp hs
      obtain ⟨thread', ending, hheld, hs₁⟩ := unlock_eq_some hunlock
      obtain ⟨bs, t₁, log₁, hrun, hmid⟩ := h.unlock hheld hunlock
      obtain ⟨bs', t', log₂, hrun', hend⟩ := hmid.table htable
      rw [hholder] at hheld
      cases hheld
      have hpending : s₁.pending thread = some (.get key) := by
        subst hs₁
        exact Function.update_self ..
      have hread : s₁.returned thread = s.answers .release := by
        rw [Threads.returned, hpending, answers, hholder]
        subst hs₁
        rfl
      refine ⟨bs ++ bs', t', log₂, ?_, ?_⟩
      · rw [Trace.run_append, hrun]
        exact hrun'
      · rw [← hread]
        simpa [Ending.later, Next.outcome] using hend

theorem Follows.step (h : Follows s log t log') {a : SectionStep K V ι} (hs : s.step a = some s') :
    ∃ bs t' log₁, Trace.run Threads.recordedLate (t, log') bs = some (t', log₁) ∧
      Follows s' (log ++ s.answers a) t' log₁ := by
  cases a with
  | lock i rd op =>
    refine ⟨[], t, log', rfl, ?_⟩
    rw [answers, List.append_nil]
    exact h.lock hs
  | remove =>
    refine ⟨[], t, log', rfl, ?_⟩
    rw [answers, List.append_nil]
    exact h.remove hs
  | release => exact h.release hs
  | table i => exact h.table hs

/-- The states have the same policy, map and table operations to do, and each thread returned the
same. -/
structure Alike (s : Threads P K V ι) (log : List (ι × Outcome V)) (t : Threads P K V ι)
    (log' : List (ι × Outcome V)) : Prop where
  policy : s.policy = t.policy
  pending : s.pending = t.pending
  get : ∀ k, s.map.get k = t.map.get k
  log : ∀ j, log.filter (·.1 = j) = log'.filter (·.1 = j)

/-- A run that leaves the lock free is one in which each section is one step. -/
theorem exists_atomic_run {policy : P} (hsound : Sectioned.Sound K V policy) (n : ℕ+)
    (hasher : K → UInt64) {as : List (SectionStep K V ι)}
    (hrun : Trace.run recorded (start policy n hasher, []) as = some (s, log))
    (hfree : s.holder = none) :
    ∃ bs t log', Trace.run Threads.recordedLate (Threads.start policy n hasher, []) bs =
      some (t, log') ∧ Alike s.toThreads log t log' := by
  have hstart : Follows (start policy n hasher : Sections P K V ι) []
      (Threads.start policy n hasher) [] :=
    ⟨hsound, rfl, fun e he => absurd he List.not_mem_nil, List.nodup_nil, fun j => rfl, rfl,
      fun j => rfl⟩
  obtain ⟨bs, ⟨t, log'⟩, -, hrun', hend⟩ := Trace.simulate
    (R := fun x y => Follows x.1 x.2 y.1 y.2) (B := fun _ => True)
    (fun x y a x' hR _ hstep => by
      obtain ⟨hstep, hlog⟩ := Trace.recording_eq_some.mp hstep
      obtain ⟨bs, t', log₁, hrun, hend⟩ := Follows.step hR hstep
      exact ⟨bs, (t', log₁), fun _ _ => trivial, hrun, hlog ▸ hend⟩)
    (x := (Threads.start policy n hasher, [])) hstart
    (Trace.each_of_forall fun _ _ => trivial) hrun
  obtain ⟨-, hcases⟩ := hend
  rw [hfree] at hcases
  obtain ⟨hpolicy, hbehind⟩ := hcases
  refine ⟨bs, t, log', hrun', hpolicy, ?_, fun k => congrFun hbehind.get k, ?_⟩
  · funext j
    exact hbehind.pending j
  · intro j
    rw [hbehind.log j, Cells.outs, List.append_nil]

/-! ## A section alone -/

/-- The section takes its keys out of the map, when no other thread comes in between. -/
theorem run_remove (s : Sections P K V ι) (log : List (ι × Outcome V)) (i : ι) (dead : List K)
    (ending : Ending K V) :
    Trace.run recorded ({ s with holder := some ⟨i, dead, ending⟩ }, log)
        (List.replicate dead.length .remove) =
      some ({ s with map := s.map.removeAll dead, holder := some ⟨i, [], ending⟩ }, log) := by
  induction dead generalizing s with
  | nil => rfl
  | cons key dead ih =>
    have hstep : recorded ({ s with holder := some ⟨i, key :: dead, ending⟩ }, log) .remove =
        some ({ s with map := (s.map.remove key).2, holder := some ⟨i, dead, ending⟩ }, log) := by
      refine Trace.recording_eq_some.mpr ⟨rfl, (List.append_nil log).symm⟩
    rw [List.length_cons, List.replicate_succ, Trace.run, hstep]
    exact ih { s with map := (s.map.remove key).2 }

/-- A step of the threads is a section alone, or a table operation. -/
theorem exists_run_of_step {t t' : Threads P K V ι} {a : ThreadStep K V ι}
    (h : t.step a = some t') :
    ∃ steps, Trace.run recorded (⟨t, none⟩, log) steps =
      some (⟨t', none⟩, log ++ t.answers a) := by
  cases a with
  | table i =>
    refine ⟨[.table i], Trace.run_singleton.trans (Trace.recording_eq_some.mpr ⟨?_, rfl⟩)⟩
    show (t.table i).map _ = _
    rw [show t.table i = some t' from h]
    rfl
  | lock i rd op =>
    have hi := Threads.pending_of_lock h
    have hlocked := Sectioned.locked_eq rd op t.policy t.map
    cases hsec : Sectioned.sectionOf (V := V) rd op t.policy with
    | error e =>
      rw [hsec] at hlocked
      rw [Threads.step, Threads.lock, hi, hlocked] at h
      cases h
    | ok sec =>
      obtain ⟨dead, ending, policy⟩ := sec
      rw [hsec] at hlocked
      rw [Threads.step, Threads.lock, hi, hlocked] at h
      obtain rfl := Option.some.inj h
      have hlock : recorded ((⟨t, none⟩ : Sections P K V ι), log) (.lock i rd op) =
          some (⟨{ t with policy := policy }, some ⟨i, dead, ending⟩⟩, log) := by
        refine Trace.recording_eq_some.mpr ⟨?_, (List.append_nil log).symm⟩
        show lock _ i rd op = _
        rw [lock, hi, hsec]
      have hremove := run_remove (⟨{ t with policy := policy }, none⟩ : Sections P K V ι) log i dead
        ending
      refine ⟨.lock i rd op :: (List.replicate dead.length .remove ++ [.release]),
        Trace.run_cons_eq_some.mpr ⟨_, hlock, ?_⟩⟩
      rw [Trace.run_append, hremove, Option.bind_some, Trace.run_singleton]
      rw [Threads.answers, hlocked]
      cases ending with
      | leave next => exact Trace.recording_eq_some.mpr ⟨rfl, rfl⟩
      | read key =>
        -- The read is the table operation of a thread that just released the lock.
        have htable : Threads.table { t with
            policy := policy
            map := t.map.removeAll dead
            pending := Function.update t.pending i (some (.get key)) } i =
              some { t with
                policy := policy
                map := t.map.removeAll dead
                pending := Function.update t.pending i none } := by
          simp only [Threads.table, Function.update_self, Function.update_idem]
          rfl
        refine Trace.recording_eq_some.mpr ⟨?_, rfl⟩
        show Option.map _ (Threads.table _ i) = _
        exact congrArg (Option.map _) htable

end Sections

end LightCache
