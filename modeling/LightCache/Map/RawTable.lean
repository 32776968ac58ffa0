import Mathlib.Data.Finmap
import LightCache.Map.WakerNode

/-!
# One shard of the map

`RawTable` is `hashbrown::raw::RawTable` as its documentation has it: elements stored under a
hash, searched by a hash and an equality test. A `Shard` (`src/map.rs`) holds such a table of
entries and the waiters map of the calls that compute its keys.

A shard is `Placed` when each entry is stored under the hash of its key, belongs in this shard
and is the only one for its key. Then the list of slots stands for every correct table, whatever its
layout: no search finds more than one element, and any search under the hash that an element was
stored under finds it. So what a table returns does not depend on where it keeps its elements.
-/

namespace LightCache

/-- The elements of a raw table with the hash each was stored under. -/
structure RawTable (T : Type*) where
  slots : List (UInt64 × T)

namespace RawTable

variable {T : Type*}

/-- `RawTable::new`. -/
def new : RawTable T := ⟨[]⟩

/-- The test a lookup applies to a slot. -/
def hit (hash : UInt64) (eq : T → Bool) (slot : UInt64 × T) : Bool := slot.1 == hash && eq slot.2

/-- `get`. -/
def get (t : RawTable T) (hash : UInt64) (eq : T → Bool) : Option T :=
  (t.slots.find? (hit hash eq)).map Prod.snd

/-- `insert_in_slot`, at a slot without an element. -/
def insertInSlot (t : RawTable T) (hash : UInt64) (value : T) : RawTable T :=
  ⟨(hash, value) :: t.slots⟩

/-- A write to the bucket that `get` finds. -/
def modifyFirst (hash : UInt64) (eq : T → Bool) (f : T → T) :
    List (UInt64 × T) → List (UInt64 × T)
  | [] => []
  | s :: slots =>
    if hit hash eq s then (s.1, f s.2) :: slots else s :: modifyFirst hash eq f slots

/-- A write through `get_mut` or through the bucket of `find_or_find_insert_slot`. -/
def modify (t : RawTable T) (hash : UInt64) (eq : T → Bool) (f : T → T) : RawTable T :=
  ⟨modifyFirst hash eq f t.slots⟩

/-- `remove_entry`. -/
def removeEntry (t : RawTable T) (hash : UInt64) (eq : T → Bool) : Option T × RawTable T :=
  (t.get hash eq, ⟨t.slots.eraseP (hit hash eq)⟩)

/-- `len`. -/
def len (t : RawTable T) : ℕ := t.slots.length

end RawTable

/-- `Entry`. -/
structure Entry (K V : Type*) where
  key : K
  value : V

/-- `Shard`: the waiters map and the table, each behind its own lock. -/
structure Shard (K V : Type*) where
  waiters : Finmap fun _ : K => Wakers
  table : RawTable (Entry K V)

namespace Shard

variable {K V : Type*} [DecidableEq K]

/-- A shard of a map that was just built. -/
def new : Shard K V where
  waiters := ∅
  table := RawTable.new

/-- `eq_key`, applied to an entry. -/
def eqKey (key : K) (e : Entry K V) : Bool := key = e.key

/-- `Shard::get`. -/
def get (s : Shard K V) (key : K) (hash : UInt64) : Option V :=
  (s.table.get hash (eqKey key)).map Entry.value

/-- `Shard::insert`: `find_or_find_insert_slot` finds the entry's bucket or an empty slot. -/
def insert (s : Shard K V) (key : K) (value : V) (hash : UInt64) : Option V × Shard K V :=
  match s.table.get hash (eqKey key) with
  | some entry =>
    (some entry.value,
      { s with table := s.table.modify hash (eqKey key) fun e => { e with value } })
  | none => (none, { s with table := s.table.insertInSlot hash { key, value } })

/-- `Shard::remove`. -/
def remove (s : Shard K V) (key : K) (hash : UInt64) : Option V × Shard K V :=
  let (entry, table) := s.table.removeEntry hash (eqKey key)
  (entry.map Entry.value, { s with table })

end Shard

/-- `GetMut`: what it holds besides the write lock of the table. -/
structure GetMut (K V : Type*) where
  key : K
  table : RawTable (Entry K V)
  hash : UInt64

/-- `GetMut::apply`: the result, and the table when the lock is released. -/
def GetMut.apply {K V : Type*} [DecidableEq K] (g : GetMut K V) (f : V → V) :
    Bool × RawTable (Entry K V) :=
  match g.table.get g.hash (Shard.eqKey g.key) with
  | some _ =>
    (true, g.table.modify g.hash (Shard.eqKey g.key) fun e => { e with value := f e.value })
  | none => (false, g.table)

namespace Shard

variable {K V : Type*} [DecidableEq K]

/-- The keys of the table. -/
def keys (s : Shard K V) : List K := s.table.slots.map fun slot => slot.2.key

/-- Every entry is stored once, under the hash of its key, and belongs in shard `i` of `n`. -/
structure Placed (hash : K → UInt64) (n i : ℕ) (s : Shard K V) : Prop where
  stored : ∀ slot ∈ s.table.slots, slot.1 = hash slot.2.key ∧ slot.1.toNat % n = i
  nodup : s.keys.Nodup

variable {s : Shard K V} {hash : K → UInt64} {n i : ℕ} {k k' : K} {v : V}

theorem hit_iff {h : UInt64} {slot : UInt64 × Entry K V} :
    RawTable.hit h (eqKey k) slot = true ↔ slot.1 = h ∧ k = slot.2.key := by
  simp [RawTable.hit, eqKey]

theorem get_eq_some_mem (h : s.get k (hash k) = some v) : k ∈ s.keys := by
  obtain ⟨e, he, -⟩ := Option.map_eq_some_iff.mp h
  obtain ⟨slot, hslot, rfl⟩ := Option.map_eq_some_iff.mp he
  exact List.mem_map.mpr ⟨slot, List.mem_of_find?_eq_some hslot,
    (hit_iff.mp (List.find?_some hslot)).2.symm⟩

theorem Placed.get_isSome (h : s.Placed hash n i) : (s.get k (hash k)).isSome ↔ k ∈ s.keys := by
  constructor
  · intro hk
    obtain ⟨v, hv⟩ := Option.isSome_iff_exists.mp hk
    exact get_eq_some_mem hv
  · intro hk
    obtain ⟨slot, hslot, rfl⟩ := List.mem_map.mp hk
    simp only [get, RawTable.get, Option.isSome_map, List.find?_isSome]
    exact ⟨slot, hslot, hit_iff.mpr ⟨(h.stored slot hslot).1, rfl⟩⟩

/-! ## Lookups after a write -/

/-- A write to a value leaves its key alone. -/
theorem hit_of_key {g : Entry K V → Entry K V} (hg : ∀ e, (g e).key = e.key) {h : UInt64}
    (slot : UInt64 × Entry K V) :
    RawTable.hit h (eqKey k) (slot.1, g slot.2) = RawTable.hit h (eqKey k) slot := by
  simp [RawTable.hit, eqKey, hg]

theorem find?_modifyFirst {slots : List (UInt64 × Entry K V)} {h h' : UInt64}
    {g : Entry K V → Entry K V} (hg : ∀ e, (g e).key = e.key) :
    (RawTable.modifyFirst h (eqKey k) g slots).find? (RawTable.hit h' (eqKey k')) =
      (slots.find? (RawTable.hit h' (eqKey k'))).map fun slot =>
        if h' = h ∧ k' = k then (slot.1, g slot.2) else slot := by
  induction slots with
  | nil => rfl
  | cons slot slots ih =>
    by_cases hs : RawTable.hit h (eqKey k) slot
    · rw [RawTable.modifyFirst, if_pos hs]
      by_cases hs' : RawTable.hit h' (eqKey k') slot
      · obtain ⟨rfl, rfl⟩ := hit_iff.mp hs
        obtain ⟨rfl, rfl⟩ := hit_iff.mp hs'
        simp [hit_of_key hg, hs]
      · have hne : ¬(h' = h ∧ k' = k) := by
          rintro ⟨rfl, rfl⟩
          exact hs' hs
        rw [List.find?_cons_of_neg (by rwa [hit_of_key hg]), List.find?_cons_of_neg hs']
        simp [hne]
    · rw [RawTable.modifyFirst, if_neg hs]
      by_cases hs' : RawTable.hit h' (eqKey k') slot
      · have hne : ¬(h' = h ∧ k' = k) := by
          rintro ⟨rfl, rfl⟩
          exact hs hs'
        simp [hs', hne]
      · rw [List.find?_cons_of_neg hs', List.find?_cons_of_neg hs', ih]

theorem insert_of_some {h : UInt64} {e : Entry K V} (hget : s.table.get h (eqKey k) = some e) :
    s.insert k v h = (some e.value,
      { s with table := s.table.modify h (eqKey k) fun e => { e with value := v } }) := by
  simp only [insert, hget]

theorem insert_of_none {h : UInt64} (hget : s.table.get h (eqKey k) = none) :
    s.insert k v h =
      (none, { s with table := s.table.insertInSlot h { key := k, value := v } }) := by
  simp only [insert, hget]

theorem insert_fst {h : UInt64} : (s.insert k v h).1 = s.get k h := by
  unfold insert get
  cases s.table.get h (eqKey k) <;> rfl

theorem get_insert : (s.insert k v (hash k)).2.get k' (hash k') =
    if k' = k then some v else s.get k' (hash k') := by
  cases hget : s.table.get (hash k) (eqKey k) with
  | some e =>
    rw [insert_of_some hget]
    simp only [get, RawTable.get, RawTable.modify]
    rw [find?_modifyFirst (g := fun e => { e with value := v }) fun _ => rfl]
    by_cases hk : k' = k
    · subst hk
      obtain ⟨slot, hslot, -⟩ := Option.map_eq_some_iff.mp hget
      simp [hslot]
    · simp [hk]
  | none =>
    rw [insert_of_none hget]
    simp only [get, RawTable.get, RawTable.insertInSlot]
    by_cases hk : k' = k
    · subst hk
      have hhit :
          RawTable.hit (hash k') (eqKey k') (hash k', ({ key := k', value := v } : Entry K V)) :=
        hit_iff.mpr ⟨rfl, rfl⟩
      rw [List.find?_cons_of_pos hhit]
      simp
    · rw [List.find?_cons_of_neg (fun h => hk (hit_iff.mp h).2), if_neg hk]

theorem find?_eraseP {slots : List (UInt64 × Entry K V)} {h h' : UInt64} (hk : k' ≠ k) :
    (slots.eraseP (RawTable.hit h (eqKey k))).find? (RawTable.hit h' (eqKey k')) =
      slots.find? (RawTable.hit h' (eqKey k')) := by
  induction slots with
  | nil => rfl
  | cons slot slots ih =>
    by_cases hs : RawTable.hit h (eqKey k) slot
    · have hs' : ¬RawTable.hit h' (eqKey k') slot := fun hs' =>
        hk ((hit_iff.mp hs').2.trans (hit_iff.mp hs).2.symm)
      rw [List.eraseP_cons_of_pos hs, List.find?_cons_of_neg hs']
    · rw [List.eraseP_cons_of_neg hs, List.find?_cons, List.find?_cons, ih]

theorem get_apply {f : V → V} :
    { s with table := (GetMut.apply ⟨k, s.table, hash k⟩ f).2 }.get k' (hash k') =
      if k' = k then (s.get k (hash k)).map f else s.get k' (hash k') := by
  cases hget : s.table.get (hash k) (eqKey k) with
  | some e =>
    simp only [GetMut.apply, hget]
    simp only [get, RawTable.get, RawTable.modify]
    rw [find?_modifyFirst (g := fun e => { e with value := f e.value }) fun _ => rfl]
    by_cases hk : k' = k
    · subst hk
      obtain ⟨slot, hslot, -⟩ := Option.map_eq_some_iff.mp hget
      simp [hslot]
    · simp [hk]
  | none =>
    simp only [GetMut.apply, hget]
    split_ifs with hk
    · subst hk
      simp [get, hget]
    · rfl

theorem apply_fst {f : V → V} :
    (GetMut.apply ⟨k, s.table, hash k⟩ f).1 = (s.get k (hash k)).isSome := by
  unfold GetMut.apply get
  cases s.table.get (hash k) (eqKey k) <;> rfl

theorem remove_fst : (s.remove k (hash k)).1 = s.get k (hash k) := rfl

/-! ## Placement after a write -/

theorem keys_modify {h : UInt64} {g : Entry K V → Entry K V} (hg : ∀ e, (g e).key = e.key) :
    (RawTable.modifyFirst h (eqKey k) g s.table.slots).map (fun slot => slot.2.key) = s.keys := by
  rw [keys]
  generalize s.table.slots = slots
  induction slots with
  | nil => rfl
  | cons slot slots ih =>
    rw [RawTable.modifyFirst]
    split_ifs
    · rw [List.map_cons, List.map_cons, hg]
    · rw [List.map_cons, List.map_cons, ih]

theorem mem_modifyFirst {h : UInt64} {slots : List (UInt64 × Entry K V)}
    {slot : UInt64 × Entry K V} {g : Entry K V → Entry K V} (hg : ∀ e, (g e).key = e.key)
    (hmem : slot ∈ RawTable.modifyFirst h (eqKey k) g slots) :
    ∃ slot' ∈ slots, slot'.1 = slot.1 ∧ slot'.2.key = slot.2.key := by
  induction slots with
  | nil => cases hmem
  | cons old slots ih =>
    rw [RawTable.modifyFirst] at hmem
    split_ifs at hmem
    · rcases List.mem_cons.mp hmem with rfl | hmem
      · exact ⟨old, List.mem_cons_self, rfl, (hg _).symm⟩
      · exact ⟨slot, List.mem_cons_of_mem _ hmem, rfl, rfl⟩
    · rcases List.mem_cons.mp hmem with rfl | hmem
      · exact ⟨_, List.mem_cons_self, rfl, rfl⟩
      · obtain ⟨slot', hslot', heq⟩ := ih hmem
        exact ⟨slot', List.mem_cons_of_mem _ hslot', heq⟩

theorem Placed.modify (h : s.Placed hash n i) {h' : UInt64} {g : Entry K V → Entry K V}
    (hg : ∀ e, (g e).key = e.key) :
    { s with table := s.table.modify h' (eqKey k) g }.Placed hash n i where
  stored slot hslot := by
    obtain ⟨slot', hslot', h₁, h₂⟩ := mem_modifyFirst hg hslot
    rw [← h₁, ← h₂]
    exact h.stored slot' hslot'
  nodup := by
    rw [keys, RawTable.modify, keys_modify hg]
    exact h.nodup

theorem Placed.insert (h : s.Placed hash n i) (hi : (hash k).toNat % n = i) :
    (s.insert k v (hash k)).2.Placed hash n i := by
  cases hget : s.table.get (hash k) (eqKey k) with
  | some e =>
    rw [insert_of_some hget]
    exact h.modify fun _ => rfl
  | none =>
    have hk : k ∉ s.keys := by
      rw [← h.get_isSome, get, hget]
      simp
    rw [insert_of_none hget]
    refine ⟨?_, List.nodup_cons.mpr ⟨hk, h.nodup⟩⟩
    intro slot hslot
    rcases List.mem_cons.mp hslot with rfl | hslot
    · exact ⟨rfl, hi⟩
    · exact h.stored slot hslot

theorem Placed.apply (h : s.Placed hash n i) {f : V → V} :
    { s with table := (GetMut.apply ⟨k, s.table, hash k⟩ f).2 }.Placed hash n i := by
  unfold GetMut.apply
  cases s.table.get (hash k) (eqKey k) with
  | some e => exact h.modify fun _ => rfl
  | none => exact h

theorem Placed.remove (h : s.Placed hash n i) (h' : UInt64) :
    (s.remove k h').2.Placed hash n i := by
  have hsub : (s.table.slots.eraseP (RawTable.hit h' (eqKey k))).Sublist s.table.slots :=
    List.eraseP_sublist
  exact ⟨fun slot hslot => h.stored slot (hsub.mem hslot), h.nodup.sublist (hsub.map _)⟩

theorem Placed.keys_remove (h : s.Placed hash n i) :
    (s.remove k (hash k)).2.keys = s.keys.erase k := by
  have hstored := fun slot hslot => (h.stored slot hslot).1
  clear h
  simp only [Shard.remove, RawTable.removeEntry, keys]
  generalize s.table.slots = slots at hstored
  induction slots with
  | nil => rfl
  | cons slot slots ih =>
    have ih := ih fun slot hslot => hstored slot (List.mem_cons_of_mem _ hslot)
    by_cases hk : k = slot.2.key
    · subst hk
      rw [List.eraseP_cons_of_pos (hit_iff.mpr ⟨hstored slot List.mem_cons_self, rfl⟩)]
      simp
    · rw [List.eraseP_cons_of_neg fun hs => hk (hit_iff.mp hs).2, List.map_cons, List.map_cons,
        List.erase_cons_tail (by simpa using Ne.symm hk), ih]

theorem Placed.get_remove (h : s.Placed hash n i) :
    (s.remove k (hash k)).2.get k' (hash k') = if k' = k then none else s.get k' (hash k') := by
  by_cases hk : k' = k
  · subst hk
    rw [if_pos rfl, ← Option.not_isSome_iff_eq_none, (h.remove _).get_isSome, h.keys_remove]
    exact h.nodup.not_mem_erase
  · simp only [Shard.remove, RawTable.removeEntry, Shard.get, RawTable.get, find?_eraseP hk,
      if_neg hk]

end Shard

end LightCache
