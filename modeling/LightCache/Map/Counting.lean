import LightCache.Map.Refinement

/-!
# `len` while others write

`LightMap::len` reads the tables one after the other, each under its own lock, so other calls come
in between, and the sum need not be the size of the map at any time.

Main result: `len_between`. The sum is at least the number of keys that stay in the map, and at most
the number of keys that are there at some time. Without calls in between it is the size of the map.
-/

namespace LightCache

/-- `len` under way: the next shard to read, and the sum so far. -/
structure Counting (K V : Type*) [DecidableEq K] where
  map : LightMap K V
  next : ℕ
  total : ℕ

/-- What happens while `len` runs: a call of another thread, or the read of the next shard. -/
inductive CountStep (K V : Type*)
  | call (op : MapOp K V)
  | read

namespace Counting

variable {K V : Type*} [DecidableEq K]

/-- `len` begins. -/
def start (map : LightMap K V) : Counting K V where
  map := map
  next := 0
  total := 0

def step (s : Counting K V) : CountStep K V → Option (Counting K V)
  | .call op => some { s with map := (op.run s.map).2 }
  | .read => s.map.shards[s.next]?.map fun shard =>
    { s with next := s.next + 1, total := s.total + shard.table.len }

/-- All shards were read, and `len` returns the sum. -/
def Done (s : Counting K V) : Prop := s.next = s.map.shards.length

variable {s s' t : Counting K V} {a : CountStep K V} {ks : List K} {steps : List (CountStep K V)}

theorem index_run (op : MapOp K V) (m : LightMap K V) (k : K) :
    (op.run m).2.index k = m.index k := by
  cases op with
  | get => rfl
  | insert key value => exact m.index_insert ..
  | remove key => exact m.index_remove ..
  | apply key f =>
    show _ % (m.shards.set _ _).length = _
    rw [List.length_set]
    rfl

/-- The keys of `ks` in the shards that were read. -/
def seen (s : Counting K V) (ks : List K) : List K := ks.filter fun k => s.map.index k < s.next

theorem seen_start (m : LightMap K V) : (start m).seen ks = [] := by
  simp [seen, start]

theorem seen_call (op : MapOp K V) : ({ s with map := (op.run s.map).2 } : Counting K V).seen ks =
    s.seen ks := by
  simp only [seen, index_run]

/-- A read sees the keys of its shard. -/
theorem length_seen_read {total : ℕ} :
    (({ s with next := s.next + 1, total } : Counting K V).seen ks).length =
      (s.seen ks).length + (ks.filter fun k => s.map.index k = s.next).length := by
  simp only [seen]
  induction ks with
  | nil => rfl
  | cons k ks ih =>
    simp only [List.filter_cons, decide_eq_true_eq]
    rcases lt_trichotomy (s.map.index k) s.next with hlt | heq | hgt
    · rw [if_pos (Nat.lt_succ_of_lt hlt), if_pos hlt, if_neg hlt.ne, List.length_cons,
        List.length_cons, ih]
      omega
    · rw [if_pos (Nat.lt_succ_of_le heq.le), if_neg heq.not_lt, if_pos heq, List.length_cons,
        List.length_cons, ih]
      omega
    · rw [if_neg (Nat.not_lt_of_le hgt), if_neg hgt.not_gt, if_neg hgt.ne', ih]

theorem seen_of_done (h : s.Done) : s.seen ks = ks :=
  List.filter_eq_self.mpr fun k _ => decide_eq_true (h ▸ s.map.index_lt k)

/-- The sum counts the keys of `ks` that were seen, if they stay in the map. -/
theorem step_lower (hnd : ks.Nodup) (h : (s.seen ks).length ≤ s.total)
    (hks : ∀ k ∈ ks, k ∈ s.map.keys) (hstep : s.step a = some s') :
    (s'.seen ks).length ≤ s'.total := by
  cases a with
  | call op =>
    obtain rfl := Option.some.inj hstep
    rw [seen_call]
    exact h
  | read =>
    obtain ⟨shard, hshard, rfl⟩ := Option.map_eq_some_iff.mp hstep
    have hle : (ks.filter fun k => s.map.index k = s.next).length ≤ shard.keys.length := by
      refine (List.subperm_of_subset (hnd.filter _) fun k hk => ?_).length_le
      obtain ⟨hk, hindex⟩ := List.mem_filter.mp hk
      exact (LightMap.mem_keys_shard hshard).mpr
        ⟨of_decide_eq_true hindex, LightMap.mem_keys.mp (hks k hk)⟩
    rw [Shard.keys, List.length_map] at hle
    rw [length_seen_read]
    exact Nat.add_le_add h hle

/-- The sum counts no more than the keys of `ks` that were seen, if no others are in the map. -/
theorem step_upper (h : s.total ≤ (s.seen ks).length)
    (hks : ∀ k ∈ s.map.keys, k ∈ ks) (hstep : s.step a = some s') :
    s'.total ≤ (s'.seen ks).length := by
  cases a with
  | call op =>
    obtain rfl := Option.some.inj hstep
    rw [seen_call]
    exact h
  | read =>
    obtain ⟨shard, hshard, rfl⟩ := Option.map_eq_some_iff.mp hstep
    have hle : shard.keys.length ≤ (ks.filter fun k => s.map.index k = s.next).length := by
      refine (List.subperm_of_subset (s.map.placed _ _ hshard).nodup fun k hk => ?_).length_le
      obtain ⟨hindex, hk⟩ := (LightMap.mem_keys_shard hshard).mp hk
      exact List.mem_filter.mpr ⟨hks k (LightMap.mem_keys.mpr hk), decide_eq_true hindex⟩
    rw [Shard.keys, List.length_map] at hle
    rw [length_seen_read]
    exact Nat.add_le_add h hle

/-- The sum that `len` comes to when no other thread comes in between. -/
def expected (s : Counting K V) : ℕ :=
  s.total + ((s.map.shards.drop s.next).map fun shard => shard.table.len).sum

theorem expected_start (m : LightMap K V) : (start m).expected = m.len := by
  simp [expected, start, LightMap.len]

theorem expected_read (hstep : s.step .read = some s') : s'.expected = s.expected := by
  obtain ⟨shard, hshard, rfl⟩ := Option.map_eq_some_iff.mp hstep
  obtain ⟨hlt, rfl⟩ := List.getElem?_eq_some_iff.mp hshard
  rw [expected, expected, List.drop_eq_getElem_cons hlt, List.map_cons, List.sum_cons,
    Nat.add_assoc]

theorem expected_of_done (h : s.Done) : s.expected = s.total := by
  rw [expected, h, List.drop_length]
  rfl

end Counting

variable {K V : Type*} [DecidableEq K]

/-- **`len` while others write.** When `len` returns, the sum is at least the number of keys that
stayed in the map, and at most the number of keys that were there at some time. When nobody came in
between, it is the size of the map. -/
theorem len_between (m : LightMap K V) (steps : List (CountStep K V)) {s : Counting K V}
    (hrun : Trace.run Counting.step (Counting.start m) steps = some s) (hdone : s.Done)
    (always ever : List K) (hnd : always.Nodup)
    (halways : Trace.Each Counting.step (fun s _ => ∀ k ∈ always, k ∈ s.map.keys)
      (Counting.start m) steps)
    (hever : Trace.Each Counting.step (fun s _ => ∀ k ∈ s.map.keys, k ∈ ever)
      (Counting.start m) steps) :
    always.length ≤ s.total ∧ s.total ≤ ever.length ∧
      ((∀ a ∈ steps, a = .read) → s.total = m.len) := by
  have hlower : (s.seen always).length ≤ s.total :=
    Trace.inv_of_each (P := fun s => (s.seen always).length ≤ s.total)
      (fun s a s' h hks hstep => Counting.step_lower hnd h hks hstep)
      (by rw [Counting.seen_start]; exact Nat.zero_le _) halways hrun
  have hupper : s.total ≤ (s.seen ever).length :=
    Trace.inv_of_each (P := fun s => s.total ≤ (s.seen ever).length)
      (fun s a s' h hks hstep => Counting.step_upper h hks hstep)
      (by rw [Counting.seen_start]; rfl) hever hrun
  rw [Counting.seen_of_done hdone] at hlower hupper
  refine ⟨hlower, hupper, ?_⟩
  intro hreads
  have hexpected : s.expected = m.len :=
    Trace.inv_of_each (P := fun s => s.expected = m.len)
      (fun s a s' h ha hstep => (Counting.expected_read (ha ▸ hstep)).trans h)
      (Counting.expected_start m) (Trace.each_of_forall hreads) hrun
  exact (Counting.expected_of_done hdone).symm.trans hexpected

/-- While `len` runs, key 0 is traded for key 1 in a shard that was not read yet: it returns 2,
though there is never more than one key. Alone it returns 1. -/
theorem len_between_two_keys :
    ∃ s t : Counting ℕ ℕ,
      Trace.run Counting.step (Counting.start ((LightMap.empty 2 UInt64.ofNat).insert 0 10).2)
        [.read, .call (.remove 0), .call (.insert 1 20), .read] = some s ∧
      ([] : List ℕ).length ≤ s.total ∧ s.total ≤ [0, 1].length ∧ s.total = 2 ∧
      Trace.run Counting.step (Counting.start ((LightMap.empty 2 UInt64.ofNat).insert 0 10).2)
        [.read, .read] = some t ∧
      t.total = ((LightMap.empty 2 UInt64.ofNat).insert 0 10).2.len ∧ t.total = 1 := by
  have htraded := len_between ((LightMap.empty 2 UInt64.ofNat).insert 0 10).2
    [.read, .call (.remove 0), .call (.insert 1 20), .read] rfl
    (by unfold Counting.Done; decide) [] [0, 1] List.nodup_nil
    (by decide +kernel) (by decide +kernel)
  have halone := len_between ((LightMap.empty 2 UInt64.ofNat).insert 0 10).2 [.read, .read] rfl
    (by unfold Counting.Done; decide) [0] [0] (List.nodup_singleton 0)
    (by decide +kernel) (by decide +kernel)
  exact ⟨_, _, rfl, htraded.1, htraded.2.1, by decide, rfl, halone.2.2 (by simp), by decide⟩

end LightCache
