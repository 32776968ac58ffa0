import LightCache.Policy.SectionKeys

/-!
# The capacity of an LRU cache shared by threads

The sections under the lock do not depend on the map, so the arena keeps its bound as in
`LightCache.Policy.LruCapacity`. The map may hold more keys for a while: a thread that removes a key
forgets it under the lock, and takes it out of the map afterwards.

Main result: `lru_threads_bounded`.
-/

namespace LightCache

open LruPolicyInner

namespace Threads

variable {K V Q ι : Type} [DecidableEq K] [DecidableEq ι] [PriorityQueue K Instantᵒᵈ Q]
variable {s s' t : Threads (LruPolicyInner K Q) K V ι} {a : ThreadStep K V ι} {i : ι}
variable {rd : Readings} {op : Op K V} {ks : List K}

/-- What the bound needs of a step: what `KeepsStep` says, and that no section touches the only
node that its prune leaves. -/
def KeepsRoom (s : Threads (LruPolicyInner K Q) K V ι) (a : ThreadStep K V ι) : Prop :=
  s.KeepsStep a ∧ match a with
    | .lock _ rd op => touchesOnlyNode s.toLightCacheInner rd op = false
    | .table _ => True

instance [Fintype ι] (s : Threads (LruPolicyInner K Q) K V ι) : ∀ a, Decidable (s.KeepsRoom a)
  | .lock _ _ _ => inferInstanceAs (Decidable (_ ∧ _ = false))
  | .table _ => inferInstanceAs (Decidable (_ ∧ True))

/-- The arena of `s` lists `ks`, which fit. -/
def Fits (s : Threads (LruPolicyInner K Q) K V ι) (ks : List K) : Prop :=
  Bounded (⟨s.policy, LightMap.empty 1 s.map.buildHasher⟩ : LightCacheInner _ K V) ks

omit [DecidableEq ι] [PriorityQueue K Instantᵒᵈ Q] in
theorem fits_iff : s.Fits ks ↔
    s.policy.arena.Lists ks ∧ s.policy.arena.TailKnown ∧ ks.length ≤ s.policy.capacity := by
  constructor
  · intro h
    exact ⟨h.lists, h.tailKnown, h.length_le⟩
  · intro h
    exact ⟨h.1, h.2.1, h.2.2, fun k hk => by simp at hk⟩

theorem touchesOnlyNode_congr {policy : LruPolicyInner K Q} {map map' : LightMap K V} :
    touchesOnlyNode ⟨policy, map⟩ rd op = touchesOnlyNode ⟨policy, map'⟩ rd op := by
  unfold touchesOnlyNode
  simp only [prune_eq]
  cases op.uses <;> cases policy.pruneKeys rd.tick <;> rfl

theorem Fits.lock (h : s.Fits ks) (hstep : s.lock i rd op = some s')
    (hok : s.KeepsRoom (.lock i rd op)) :
    s'.policy.capacity = s.policy.capacity ∧ ∃ ks', s'.Fits ks' := by
  have hi := pending_of_lock hstep
  have hcall : KeepsTail (⟨s.policy, LightMap.empty 1 s.map.buildHasher⟩ :
      LightCacheInner (LruPolicyInner K Q) K V) (rd, op) :=
    ⟨touchesOnlyNode_congr.trans hok.2, hok.1⟩
  obtain ⟨c, ks', hcstep, hcap, hc⟩ := Bounded.step h hcall
  -- The same section on the map of the threads and on an empty one.
  have hpolicy : s'.policy = c.policy := by
    have hlocked := LruPolicyInner.locked_eq rd op s.policy s.map
    have hlocked₀ := LruPolicyInner.locked_eq rd op s.policy (LightMap.empty 1 s.map.buildHasher)
    cases hsec : sectionOf rd op s.policy with
    | error e =>
      rw [hsec] at hlocked
      rw [Threads.lock, hi, hlocked] at hstep
      cases hstep
    | ok sec =>
      rw [hsec] at hlocked hlocked₀
      rw [Threads.lock, hi, hlocked] at hstep
      rw [LightCacheInner.step, LightCacheInner.call, hlocked₀] at hcstep
      obtain rfl := Option.some.inj hstep
      obtain rfl := Option.some.inj hcstep
      exact (LightCacheInner.finish_policy
        ⟨sec.policy, (LightMap.empty 1 s.map.buildHasher).removeAll sec.dead⟩ _).symm
  refine ⟨by rw [hpolicy]; exact hcap, ks', ?_⟩
  rw [fits_iff, hpolicy]
  exact ⟨hc.lists, hc.tailKnown, hc.length_le⟩

theorem Fits.step (h : s.Fits ks) (hstep : s.step a = some s') (hok : s.KeepsRoom a) :
    s'.policy.capacity = s.policy.capacity ∧ ∃ ks', s'.Fits ks' := by
  cases a with
  | lock i rd op => exact h.lock hstep hok
  | table i =>
    obtain ⟨w, -, hpolicy, -⟩ := table_eq_some hstep
    rw [fits_iff, ← hpolicy] at h
    exact ⟨congrArg _ hpolicy, ks, fits_iff.mpr h⟩

omit [DecidableEq ι] [PriorityQueue K Instantᵒᵈ Q] in
theorem removes_iff {k : K} : s.Removes i k ↔ s.pending i = some (.remove k) := by
  unfold Removes
  cases s.pending i with
  | none => simp
  | some w => cases w <;> simp [TableOp.removes]

omit [DecidableEq ι] [DecidableEq K] in
theorem exists_removing {pending : ι → Option (TableOp K V)} {extra : List K} (hnd : extra.Nodup)
    (h : ∀ k ∈ extra, ∃ i, pending i = some (.remove k)) :
    ∃ removing : List ι, removing.Nodup ∧ removing.length = extra.length ∧
      ∀ i ∈ removing, ∃ k ∈ extra, pending i = some (.remove k) := by
  induction extra with
  | nil => exact ⟨[], List.nodup_nil, rfl, fun i hi => absurd hi List.not_mem_nil⟩
  | cons k extra ih =>
    obtain ⟨hk, hnd⟩ := List.nodup_cons.mp hnd
    obtain ⟨removing, hremoving, hlen, hall⟩ := ih hnd fun j hj => h j (List.mem_cons_of_mem k hj)
    obtain ⟨i, hi⟩ := h k List.mem_cons_self
    have hnew : i ∉ removing := by
      intro hmem
      obtain ⟨j, hj, hij⟩ := hall i hmem
      have hjk := hij.symm.trans hi
      cases hjk
      exact hk hj
    refine ⟨i :: removing, List.nodup_cons.mpr ⟨hnew, hremoving⟩, congrArg (· + 1) hlen, ?_⟩
    intro i' hi'
    rcases List.mem_cons.mp hi' with rfl | hi'
    · exact ⟨k, List.mem_cons_self, hi⟩
    · obtain ⟨j, hj, hij⟩ := hall i' hi'
      exact ⟨j, List.mem_cons_of_mem k hj, hij⟩

/-- The arena keeps its bound, and the map is in step with it but for what the threads are about to
do. -/
structure Room (s : Threads (LruPolicyInner K Q) K V ι) (capacity : ℕ) : Prop where
  capacity_eq : s.policy.capacity = capacity
  fits : ∃ ks, s.Fits ks
  balanced : s.Balanced

omit [DecidableEq ι] in
theorem room_start (capacity : ℕ) (hcap : 1 < capacity) (ttl : Option Duration) (n : ℕ+)
    (hasher : K → UInt64) : (start (LruPolicyInner.new capacity hcap ttl) n hasher :
      Threads (LruPolicyInner K Q) K V ι).Room capacity where
  capacity_eq := rfl
  fits := ⟨[], fits_iff.mpr
    ⟨LinkedArena.lists_new, LinkedArena.tailKnown_new, Nat.zero_le _⟩⟩
  balanced := balanced_start (LruPolicyInner.sound_new capacity hcap ttl)
    (LruPolicyInner.not_tracks_new capacity hcap ttl) n hasher

theorem Room.step {capacity : ℕ} (h : s.Room capacity) (hstep : s.step a = some s')
    (hok : s.KeepsRoom a) : s'.Room capacity := by
  obtain ⟨ks, hfits⟩ := h.fits
  obtain ⟨hcap, hfits'⟩ := hfits.step hstep hok
  exact ⟨hcap.trans h.capacity_eq, hfits', h.balanced.step hstep hok.1⟩

omit [DecidableEq ι] in
/-- The map holds no more than the arena and the keys that are about to be taken out. -/
theorem Room.bounded {β : Type} {pending : β → Option (TableOp K V)} {capacity : ℕ}
    (h : s.Room capacity) (hremoves : ∀ i k, s.Removes i k → ∃ j, pending j = some (.remove k)) :
    s.policy.arena.len ≤ capacity ∧ ∃ removing : List β, removing.Nodup ∧
      (∀ j ∈ removing, ∃ k, pending j = some (.remove k)) ∧
      s.map.len ≤ capacity + removing.length := by
  obtain ⟨ks, hfits⟩ := h.fits
  obtain ⟨hlists, -, hlen⟩ := fits_iff.mp hfits
  rw [h.capacity_eq] at hlen
  refine ⟨hlists.len_eq ▸ hlen, ?_⟩
  -- A key of the map that is not tracked is about to be taken out.
  let extra := s.map.keys.filter fun k => k ∉ ks
  have hextra : ∀ k ∈ extra, ∃ j, pending j = some (.remove k) := by
    intro k hk
    obtain ⟨hmem, hks⟩ := List.mem_filter.mp hk
    have hout : ¬s.Tracks k := hlists.mem_idxOf.not.mpr (of_decide_eq_true hks)
    obtain ⟨i, hi⟩ := h.balanced.extra k hout (LightMap.mem_keys.mp hmem)
    exact hremoves i k hi
  obtain ⟨removing, hnd, hlength, hall⟩ := exists_removing (s.map.nodup_keys.filter _) hextra
  refine ⟨removing, hnd, fun j hj => ?_, ?_⟩
  · obtain ⟨k, -, hk⟩ := hall j hj
    exact ⟨k, hk⟩
  · have hle : s.map.len ≤ (ks ++ extra).length := by
      refine LightMap.len_le_length fun k hk => ?_
      by_cases hmem : k ∈ ks
      · exact List.mem_append_left _ hmem
      · exact List.mem_append_right _
          (List.mem_filter.mpr ⟨LightMap.mem_keys.mpr hk, decide_eq_true hmem⟩)
    rw [List.length_append, ← hlength] at hle
    exact hle.trans (Nat.add_le_add_right hlen _)

end Threads

section ThreadsCapacity

variable {K V Q ι : Type} [DecidableEq K] [DecidableEq ι] [PriorityQueue K Instantᵒᵈ Q]

/-- **The capacity bound under concurrency.** Whatever the order of the steps of the threads, if
they keep the tail of the arena, and in step with the map, then the arena never exceeds the
capacity, and the map does so by no more than the number of threads that are about to take a key
out of it. -/
theorem lru_threads_bounded (capacity : ℕ) (hcap : 1 < capacity) (ttl : Option Duration) (n : ℕ+)
    (hasher : K → UInt64) (steps : List (ThreadStep K V ι))
    (hsteps : Trace.Each Threads.step Threads.KeepsRoom
      (Threads.start (LruPolicyInner.new capacity hcap ttl : LruPolicyInner K Q) n hasher) steps)
    {s : Threads (LruPolicyInner K Q) K V ι}
    (hrun : Trace.run Threads.step (Threads.start (LruPolicyInner.new capacity hcap ttl) n hasher)
      steps = some s) :
    s.policy.arena.len ≤ capacity ∧ ∃ removing : List ι, removing.Nodup ∧
      (∀ i ∈ removing, ∃ k, s.pending i = some (.remove k)) ∧
      s.map.len ≤ capacity + removing.length := by
  have hroom : s.Room capacity := Trace.inv_of_each
    (P := fun s : Threads (LruPolicyInner K Q) K V ι => s.Room capacity)
    (fun _ _ _ h hok hstep => h.step hstep hok)
    (Threads.room_start capacity hcap ttl n hasher) hsteps hrun
  exact hroom.bounded fun i k hi => ⟨i, Threads.removes_iff.mp hi⟩

end ThreadsCapacity

/-- Thread 1 has forgotten key 1, and not yet taken it out of the map. Thread 0 puts a third key
there. -/
theorem lru_threads_bounded_three_keys :
    ∃ s : Threads (LruPolicyInner ℕ (SortedQueue ℕ Instantᵒᵈ)) ℕ ℕ (Fin 2),
      Trace.run Threads.step
        (Threads.start (LruPolicyInner.new 2 (by decide) none) 1 fun _ => 0)
        [.lock 0 (.single 0 0) (.insert 1 10), .table 0, .lock 0 (.single 1 1) (.insert 2 20),
          .table 0, .lock 1 (.single 2 2) (.remove 1), .lock 0 (.single 3 3) (.insert 3 30),
          .table 0] = some s ∧
      s.map.len = 3 ∧ s.policy.arena.len ≤ 2 ∧ ∃ removing : List (Fin 2), removing.Nodup ∧
        (∀ i ∈ removing, ∃ k, s.pending i = some (.remove k)) ∧
        s.map.len ≤ 2 + removing.length := by
  have hlen : (Trace.run Threads.step
      (Threads.start (LruPolicyInner.new 2 (by decide) none : LruPolicyInner ℕ
        (SortedQueue ℕ Instantᵒᵈ)) 1 fun _ => 0)
      [.lock 0 (.single 0 0) (.insert 1 10), .table 0, .lock 0 (.single 1 1) (.insert 2 20),
        .table 0, .lock 1 (.single 2 2) (.remove 1), .lock 0 (.single 3 3) (.insert 3 30),
        .table (0 : Fin 2)]).map (fun s => s.map.len) = some 3 := by
    decide +kernel
  obtain ⟨s, hrun, hs⟩ := Option.map_eq_some_iff.mp hlen
  exact ⟨s, hrun, hs, lru_threads_bounded 2 (by decide) none 1 _ _ (by decide +kernel) hrun⟩

end LightCache
