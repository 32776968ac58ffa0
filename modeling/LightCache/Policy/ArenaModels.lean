import LightCache.Policy.ArenaRepr

/-!
# What the arena's operations do to its nodes

`Models a xs` forgets the indices: the nodes of the list, without their links, are `xs`. Every
operation has one theorem that gives its effect on `xs`, and says whether the tail pointer
survives. The policies use nothing else about the arena.
-/

namespace LightCache

namespace LinkedArena

variable {I N : Type} [DecidableEq I] [LinkedNode I N]

/-- The arena holds the nodes `xs`, from head to tail. -/
def Models (a : LinkedArena I N) (xs : List N) : Prop := ∃ l, a.Repr l ∧ a.contents l = xs

/-- The nodes of `xs` that do not hold `k`. -/
def without (xs : List N) (k : I) : List N := xs.filter fun n => LinkedNode.item n ≠ k

/-- The keys of `xs`. -/
def keys (xs : List N) : List I := xs.map LinkedNode.item

section Lists

variable {xs ys zs : List N} {x : N} {k : I}

theorem without_append : without (xs ++ ys) k = without xs k ++ without ys k :=
  List.filter_append ..

theorem without_of_not_mem (h : k ∉ keys xs) : without xs k = xs := by
  apply List.filter_eq_self.mpr
  intro n hn
  simpa using fun hk => h (List.mem_map.mpr ⟨n, hn, hk⟩)

theorem without_middle (hnd : (keys (ys ++ x :: zs)).Nodup) :
    without (ys ++ x :: zs) (LinkedNode.item x) = ys ++ zs := by
  have hsplit : keys (ys ++ x :: zs) = keys ys ++ LinkedNode.item x :: keys zs := by simp [keys]
  rw [hsplit] at hnd
  have hnot : LinkedNode.item x ∉ keys ys ++ keys zs :=
    (List.nodup_cons.mp (List.nodup_middle.mp hnd)).1
  rw [List.mem_append, not_or] at hnot
  have hx : without (x :: zs) (LinkedNode.item x) = zs := by
    rw [without, List.filter_cons_of_neg (by simp)]
    exact without_of_not_mem hnot.2
  rw [without_append, without_of_not_mem hnot.1, hx]

end Lists

section Models

variable {a : LinkedArena I N} {xs : List N} {k : I} {i : ℕ}

theorem models_new : (new : LinkedArena I N).Models [] := by
  refine ⟨[], ⟨trivial, List.Perm.nil, rfl, Or.inl rfl, ?_⟩, rfl⟩
  intro k i
  simp [new, payload]

omit [DecidableEq I] [LinkedNode I N] in
theorem tailKnown_new : (new : LinkedArena I N).TailKnown := fun _ => rfl

theorem Models.len_eq (h : a.Models xs) : a.len = xs.length := by
  obtain ⟨l, hl, rfl⟩ := h
  exact hl.length_contents.symm

theorem Models.nodup (h : a.Models xs) : (keys xs).Nodup := by
  obtain ⟨l, hl, rfl⟩ := h
  rw [keys, contents, List.map_filterMap]
  apply hl.nodup.filterMap
  intro i j k hi hj
  exact Option.some.inj (((hl.index k i).mpr hi).symm.trans ((hl.index k j).mpr hj))

theorem Models.split (h : a.Models xs) (hi : a.idxOf.lookup k = some i) :
    ∃ l₁ l₂ x, a.Repr (l₁ ++ i :: l₂) ∧ payload a.nodes i = some x ∧ LinkedNode.item x = k ∧
      xs = a.contents l₁ ++ x :: a.contents l₂ := by
  obtain ⟨l, hl, rfl⟩ := h
  obtain ⟨x, hx, hk⟩ := Option.map_eq_some_iff.mp ((hl.index k i).mp hi)
  have hmem : i ∈ l := hl.mem_iff.mpr (payload_isSome.mp (by rw [hx]; rfl))
  obtain ⟨l₁, l₂, rfl⟩ := List.append_of_mem hmem
  exact ⟨l₁, l₂, x, hl, hx, hk, by rw [contents_append, contents_cons hx]⟩

theorem Models.lookup_isSome (h : a.Models xs) : (a.idxOf.lookup k).isSome ↔ k ∈ keys xs := by
  constructor
  · intro hi
    obtain ⟨i, hi⟩ := Option.isSome_iff_exists.mp hi
    obtain ⟨l₁, l₂, x, -, -, rfl, rfl⟩ := h.split hi
    simp [keys]
  · intro hk
    obtain ⟨l, hl, rfl⟩ := h
    obtain ⟨x, hx, rfl⟩ := List.mem_map.mp hk
    obtain ⟨i, -, hi⟩ := List.mem_filterMap.mp hx
    exact Option.isSome_iff_exists.mpr ⟨i, (hl.index _ i).mpr (by rw [hi]; rfl)⟩

theorem Models.lookup_eq_none (h : a.Models xs) : a.idxOf.lookup k = none ↔ k ∉ keys xs := by
  rw [← h.lookup_isSome, Option.not_isSome_iff_eq_none]

theorem Models.getNode_ok (h : a.Models xs) (hi : a.idxOf.lookup k = some i) :
    ∃ n, a.getNode k = .ok (some (i, n)) ∧ bare n ∈ xs ∧ LinkedNode.item n = k := by
  obtain ⟨l₁, l₂, x, -, hx, hk, rfl⟩ := h.split hi
  obtain ⟨n, hn, rfl⟩ := Option.map_eq_some_iff.mp hx
  refine ⟨n, ?_, by simp, by simpa using hk⟩
  simp [getNode, hi, getUnchecked, hn, Except.map]

omit [LinkedNode I N] in
theorem getNode_none (hi : a.idxOf.lookup k = none) : a.getNode k = .ok none := by
  simp [getNode, hi]

theorem Models.insertHead_ok (h : a.Models xs) (hk : k ∉ keys xs) (now : Instant) :
    ∃ a', a.insertHead now k = .ok a' ∧ a'.Models (LinkedNode.new now k none none :: xs) ∧
      (a.TailKnown → a'.TailKnown) := by
  have hlook := h.lookup_eq_none.mpr hk
  obtain ⟨l, hl, rfl⟩ := h
  obtain ⟨a', hok, hrepr, hcontents, htail⟩ := LinkedArena.insertHead_ok hl hlook now
  exact ⟨a', hok, ⟨_, hrepr, hcontents⟩, htail⟩

/-- `move_to_head` moves the node to the front. It loses the tail when the node is the only
one. -/
theorem Models.moveToHead_ok (h : a.Models xs) (hi : a.idxOf.lookup k = some i) :
    ∃ a' x, a.moveToHead i = .ok a' ∧ x ∈ xs ∧ LinkedNode.item x = k ∧
      a'.Models (x :: without xs k) ∧ (a.TailKnown → xs.length ≠ 1 → a'.TailKnown) := by
  have hnd := h.nodup
  obtain ⟨l₁, l₂, x, hrepr, hx, rfl, rfl⟩ := h.split hi
  obtain ⟨a', hok, hrepr', hpay, htail, -⟩ := LinkedArena.moveToHead_ok hrepr
  refine ⟨a', x, hok, by simp, rfl, ⟨_, hrepr', ?_⟩, fun hk hlen => htail hk ?_⟩
  · rw [without_middle hnd, contents_cons (hpay ▸ hx), contents, hpay]
    exact congrArg _ contents_append
  · intro hnil
    obtain ⟨rfl, rfl⟩ := List.append_eq_nil_iff.mp hnil
    exact hlen rfl

/-- `remove` drops the node at its index, and returns it. -/
theorem Models.remove_ok (h : a.Models xs) (hi : a.idxOf.lookup k = some i) :
    ∃ n a', a.remove i = .ok (a'.nodes.length, n, a') ∧ payload a.nodes i = some (bare n) ∧
      LinkedNode.item n = k ∧ a'.Models (without xs k) ∧ (a.TailKnown → a'.TailKnown) := by
  have hnd := h.nodup
  obtain ⟨l₁, l₂, x, hrepr, hx, rfl, rfl⟩ := h.split hi
  obtain ⟨n, a', l', hok, hrepr', hpay, hcontents, htail⟩ := LinkedArena.remove_ok hrepr
  obtain rfl : x = bare n := Option.some.inj (hx.symm.trans hpay)
  refine ⟨n, a', hok, hpay, (item_bare n).symm, ⟨l', hrepr', ?_⟩, fun hk => htail (Or.inl hk)⟩
  rw [hcontents, without_middle hnd]

theorem Models.removeItem_ok (h : a.Models xs) (k : I) :
    ∃ r a', a.removeItem k = .ok (r, a') ∧ a'.Models (without xs k) ∧
      (a.TailKnown → a'.TailKnown) := by
  cases hi : a.idxOf.lookup k with
  | none =>
    refine ⟨none, a, by simp [removeItem, hi], ?_, id⟩
    rwa [without_of_not_mem (h.lookup_eq_none.mp hi)]
  | some i =>
    obtain ⟨n, a', hok, -, -, hmodels, htail⟩ := h.remove_ok hi
    refine ⟨some (a'.nodes.length, n), a', ?_, hmodels, htail⟩
    simp only [removeItem, hi, hok]
    rfl

/-- A tail pointer that is there points at the last node, and removing that node makes sure
the new tail is known. -/
theorem Models.remove_tail_ok (h : a.Models xs) (ht : a.tail = some i) :
    ∃ ys n m a', a.tailNode = .ok (some (i, n)) ∧ xs = ys ++ [bare n] ∧
      a.remove i = .ok (a'.nodes.length, m, a') ∧ bare m = bare n ∧ a'.Models ys ∧
      a'.TailKnown := by
  obtain ⟨l, hl, rfl⟩ := h
  have hlast : l.getLast? = some i := by
    rcases hl.tail with hnone | hsome
    · rw [ht] at hnone; cases hnone
    · rw [← hsome, ht]
  obtain ⟨l₁, rfl⟩ := List.getLast?_eq_some_iff.mp hlast
  have hrepr : a.Repr (l₁ ++ i :: []) := hl
  obtain ⟨m, a', l', hok, hrepr', hpay, hcontents, htail⟩ := LinkedArena.remove_ok hrepr
  obtain ⟨n, hn, hbare⟩ := Option.map_eq_some_iff.mp hpay
  refine ⟨a.contents l₁, n, m, a', ?_, ?_, hok, hbare.symm, ⟨l', hrepr', ?_⟩, htail (Or.inr rfl)⟩
  · simp [tailNode, ht, getUnchecked, hn, Except.map]
  · rw [contents_append, contents_cons hpay, hbare]
    rfl
  · rw [hcontents]
    exact List.append_nil _

omit [DecidableEq I] [LinkedNode I N] in
theorem tailNode_none (ht : a.tail = none) : a.tailNode = .ok none := by
  simp [tailNode, ht]

/-- A write through the reference of `get_node_mut` that leaves key and links alone. -/
theorem Models.modify_ok {f : N → N} (h : a.Models xs) (hi : a.idxOf.lookup k = some i)
    (hitem : ∀ n, LinkedNode.item (f n) = LinkedNode.item n)
    (hprev : ∀ n, LinkedNode.prev (f n) = LinkedNode.prev n)
    (hnext : ∀ n, LinkedNode.next (f n) = LinkedNode.next n)
    (hbare : ∀ n, bare (f n) = f (bare n)) :
    ∃ a', a.modifyUnchecked i f = .ok a' ∧ a'.idxOf = a.idxOf ∧
      a'.Models (xs.map fun n => if LinkedNode.item n = k then f n else n) ∧
      (a.TailKnown → a'.TailKnown) := by
  obtain ⟨l, hl, rfl⟩ := h
  have hix : (payload a.nodes i).map LinkedNode.item = some k := (hl.index k i).mp hi
  have hilt : i < a.nodes.length :=
    payload_isSome.mp (by rw [← Option.isSome_map, hix]; rfl)
  have hp : prevs (a.nodes.modify i f) = prevs a.nodes := view_modify hprev
  have hn : nexts (a.nodes.modify i f) = nexts a.nodes := view_modify hnext
  have hpay (j : ℕ) : payload (a.nodes.modify i f) j =
      (payload a.nodes j).map fun n => if j = i then f n else n := by
    simp only [payload, List.getElem?_modify]
    cases a.nodes[j]? with
    | none => rfl
    | some n => by_cases hij : i = j <;> simp [hij, hbare, eq_comm]
  have hitems (j : ℕ) : (payload (a.nodes.modify i f) j).map LinkedNode.item =
      (payload a.nodes j).map LinkedNode.item := by
    rw [hpay, Option.map_map]
    congr 1
    funext n
    by_cases hj : j = i <;> simp [hj, hitem]
  refine ⟨{ a with nodes := a.nodes.modify i f }, by simp [modifyUnchecked, hilt], rfl,
    ⟨l, ⟨?_, ?_, hl.head, hl.tail, fun k j => ?_⟩, ?_⟩, fun hk htail => by simp [hk htail]⟩
  · rw [hp, hn]; exact hl.links
  · simpa using hl.perm
  · rw [hitems]; exact hl.index k j
  · rw [contents, contents, List.map_filterMap]
    apply List.filterMap_congr
    intro j hj
    obtain ⟨n, hpayn⟩ := hl.payload_of_mem hj
    rw [hpay, hpayn]
    have hiff : j = i ↔ LinkedNode.item n = k := by
      constructor
      · rintro rfl
        exact Option.some.inj (by rw [← hix, hpayn]; rfl)
      · intro hnk
        have hjk : a.idxOf.lookup k = some j := (hl.index k j).mpr (by rw [hpayn, ← hnk]; rfl)
        exact Option.some.inj (hjk.symm.trans hi)
    simp [hiff]

end Models

/-! ## The keys alone -/

/-- The arena lists the keys `ks`, from head to tail. -/
def Lists (a : LinkedArena I N) (ks : List I) : Prop := ∃ xs, a.Models xs ∧ keys xs = ks

section Lists

variable {a : LinkedArena I N} {ks : List I} {k : I} {i : ℕ}

theorem lists_new : (new : LinkedArena I N).Lists [] := ⟨[], models_new, rfl⟩

theorem Lists.len_eq (h : a.Lists ks) : a.len = ks.length := by
  obtain ⟨xs, hxs, rfl⟩ := h
  rw [hxs.len_eq, keys, List.length_map]

theorem Lists.nodup (h : a.Lists ks) : ks.Nodup := by
  obtain ⟨xs, hxs, rfl⟩ := h
  exact hxs.nodup

theorem Lists.mem_idxOf (h : a.Lists ks) : k ∈ a.idxOf ↔ k ∈ ks := by
  obtain ⟨xs, hxs, rfl⟩ := h
  rw [← Finmap.lookup_isSome, hxs.lookup_isSome]

theorem Lists.exists_lookup (h : a.Lists ks) (hk : k ∈ ks) : ∃ i, a.idxOf.lookup k = some i :=
  Option.isSome_iff_exists.mp (Finmap.lookup_isSome.mpr (h.mem_idxOf.mpr hk))

theorem Lists.lookup_eq_none (h : a.Lists ks) (hk : k ∉ ks) : a.idxOf.lookup k = none := by
  rw [Finmap.lookup_eq_none, h.mem_idxOf]
  exact hk

theorem Lists.unique {ks' : List I} (h : a.Lists ks) (h' : a.Lists ks') : ks = ks' := by
  obtain ⟨xs, ⟨l, hl, rfl⟩, rfl⟩ := h
  obtain ⟨xs', ⟨l', hl', rfl⟩, rfl⟩ := h'
  rw [hl.unique hl']

theorem Repr.lookup_head {l : List ℕ} (h : a.Repr l) (hkeys : keys (a.contents l) = k :: ks) :
    ∃ i l', l = i :: l' ∧ keys (a.contents l') = ks ∧ a.idxOf.lookup k = some i := by
  cases l with
  | nil => cases hkeys
  | cons i l =>
    obtain ⟨n, hn⟩ := h.payload_of_mem List.mem_cons_self
    rw [contents_cons hn, keys, List.map_cons] at hkeys
    obtain ⟨hk, hks⟩ := List.cons.inj hkeys
    exact ⟨i, l, rfl, hks, (h.index k i).mpr (by rw [hn, ← hk]; rfl)⟩

theorem Lists.headNode_ok (h : a.Lists ks) :
    ∃ node, a.headNode = .ok node ∧ (node.map fun p => LinkedNode.item p.2) = ks.head? := by
  obtain ⟨xs, ⟨l, hl, rfl⟩, hkeys⟩ := h
  cases ks with
  | nil =>
    have hlen := congrArg List.length hkeys
    rw [keys, List.length_map, hl.length_contents, ← hl.length_eq] at hlen
    have hhead := hl.head
    rw [List.eq_nil_of_length_eq_zero hlen] at hhead
    exact ⟨none, by simp only [headNode, hhead, List.head?_nil], rfl⟩
  | cons k ks =>
    obtain ⟨i, l, rfl, -, hi⟩ := hl.lookup_head hkeys
    obtain ⟨n, hn, hk⟩ := (hl.index_iff k i).mp hi
    have hhead : a.head = some i := hl.head
    refine ⟨some (i, n), by simp only [headNode, hhead, getUnchecked, hn]; rfl, ?_⟩
    rw [Option.map_some, hk]
    rfl

/-- Moving the head to the head changes nothing but the tail of a list of one node. -/
theorem Lists.moveToHead_self (h : a.Lists (k :: ks)) (hi : a.idxOf.lookup k = some i)
    (hnode : ∀ n n' : N, bare n = bare n' → LinkedNode.prev n = LinkedNode.prev n' →
      LinkedNode.next n = LinkedNode.next n' → n = n')
    (htail : a.tail = none ∨ ks ≠ []) : a.moveToHead i = .ok a := by
  obtain ⟨xs, ⟨l, hl, rfl⟩, hkeys⟩ := h
  obtain ⟨j, l, rfl, hks, hj⟩ := hl.lookup_head hkeys
  obtain rfl : j = i := Option.some.inj (hj.symm.trans hi)
  have hrepr : a.Repr ([] ++ j :: l) := hl
  obtain ⟨a', hok, hrepr', hpay, -, htail'⟩ := LinkedArena.moveToHead_ok hrepr
  rw [hok, hl.ext hrepr' hnode hpay]
  rw [htail']
  split_ifs with hnil
  · subst hnil
    exact (htail.resolve_right (not_not_intro hks.symm)).symm
  · rfl

theorem keys_without {xs : List N} (hnd : (keys xs).Nodup) :
    keys (without xs k) = (keys xs).erase k := by
  rw [hnd.erase_eq_filter, keys, keys, List.filter_map, without]
  congr 1
  exact List.filter_congr fun n _ => by by_cases h : LinkedNode.item n = k <;> simp [h]

theorem Lists.insertHead_ok (h : a.Lists ks) (hk : k ∉ ks) (now : Instant) :
    ∃ a', a.insertHead now k = .ok a' ∧ a'.Lists (k :: ks) ∧ (a.TailKnown → a'.TailKnown) := by
  obtain ⟨xs, hxs, rfl⟩ := h
  obtain ⟨a', hok, hxs', htail⟩ := hxs.insertHead_ok hk now
  exact ⟨a', hok, ⟨_, hxs', by simp [keys]⟩, htail⟩

theorem Lists.getNode_ok (h : a.Lists ks) (hi : a.idxOf.lookup k = some i) :
    ∃ n, a.getNode k = .ok (some (i, n)) := by
  obtain ⟨xs, hxs, rfl⟩ := h
  obtain ⟨n, hn, -⟩ := hxs.getNode_ok hi
  exact ⟨n, hn⟩

theorem Lists.moveToHead_ok (h : a.Lists ks) (hi : a.idxOf.lookup k = some i) :
    ∃ a', a.moveToHead i = .ok a' ∧ a'.Lists (k :: ks.erase k) ∧
      (a.TailKnown → ks ≠ [k] → a'.TailKnown) := by
  have hmem : k ∈ ks := h.mem_idxOf.mp (Finmap.lookup_isSome.mp (by rw [hi]; rfl))
  obtain ⟨xs, hxs, rfl⟩ := h
  obtain ⟨a', x, hok, -, rfl, hxs', htail⟩ := hxs.moveToHead_ok hi
  refine ⟨a', hok, ⟨_, hxs', ?_⟩, fun hk hne => htail hk fun hlen => hne ?_⟩
  · rw [← keys_without hxs.nodup]
    rfl
  · obtain ⟨y, rfl⟩ := List.length_eq_one_iff.mp hlen
    rw [List.mem_singleton.mp hmem]
    rfl

theorem Lists.moveToHead_only (h : a.Lists ks) (hk : k ∈ a.idxOf) (hlen : a.len = 1) :
    ∃ i a', a.idxOf.lookup k = some i ∧ a.moveToHead i = .ok a' ∧ a'.nodes ≠ [] ∧
      a'.tail = none := by
  obtain ⟨i, hi⟩ := h.exists_lookup (h.mem_idxOf.mp hk)
  obtain ⟨xs, hxs, -⟩ := h
  obtain ⟨l₁, l₂, x, hrepr, -⟩ := hxs.split hi
  have hone : (l₁ ++ i :: l₂).length = 1 := hrepr.length_eq.trans hlen
  rw [List.length_append, List.length_cons] at hone
  obtain ⟨rfl, rfl⟩ : l₁ = [] ∧ l₂ = [] :=
    ⟨List.eq_nil_of_length_eq_zero (by omega), List.eq_nil_of_length_eq_zero (by omega)⟩
  obtain ⟨a', hok, hrepr', -, -, htail⟩ := LinkedArena.moveToHead_ok hrepr
  refine ⟨i, a', hi, hok, ?_, htail⟩
  intro hnodes
  have hlen' := hrepr'.length_eq
  rw [hnodes] at hlen'
  cases hlen'

theorem Lists.removeItem_ok (h : a.Lists ks) (k : I) :
    ∃ r a', a.removeItem k = .ok (r, a') ∧ a'.Lists (ks.erase k) ∧
      (a.TailKnown → a'.TailKnown) := by
  obtain ⟨xs, hxs, rfl⟩ := h
  obtain ⟨r, a', hok, hxs', htail⟩ := hxs.removeItem_ok k
  exact ⟨r, a', hok, ⟨_, hxs', keys_without hxs.nodup⟩, htail⟩

theorem Lists.remove_tail_ok (h : a.Lists ks) (ht : a.tail = some i) :
    ∃ ks' n m a', a.tailNode = .ok (some (i, n)) ∧ ks = ks' ++ [LinkedNode.item m] ∧
      a.remove i = .ok (a'.nodes.length, m, a') ∧ a'.Lists ks' ∧ a'.TailKnown := by
  obtain ⟨xs, hxs, rfl⟩ := h
  obtain ⟨ys, n, m, a', hnode, rfl, hok, hbare, hys, htail⟩ := hxs.remove_tail_ok ht
  refine ⟨keys ys, n, m, a', hnode, ?_, hok, ⟨ys, hys, rfl⟩, htail⟩
  rw [← item_bare m, hbare]
  simp [keys]

end Lists

end LinkedArena

end LightCache
