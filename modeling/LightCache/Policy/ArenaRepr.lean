import LightCache.Policy.ArenaLinks

/-!
# The list an arena holds

`Repr a l` says that the indices `l` are the list the arena holds, from head to tail, and that
`idx_of` finds every node. The tail pointer may be absent: `move_to_head` on the only node of
the list leaves `tail` empty, and later operations keep it so until the last node is touched.
`TailKnown` is the stronger state in which the pointer is there.

Main results: `moveToHead_ok`, `remove_ok` and `insertHead_ok`: from a represented list, each
operation succeeds and represents the list it should.
-/

namespace LightCache

open Linked

namespace LinkedArena

variable {I N : Type} [LinkedNode I N]

/-- The nodes at the indices `l`, without their links. -/
def contents (a : LinkedArena I N) (l : List ℕ) : List N := l.filterMap (payload a.nodes)

theorem contents_append {a : LinkedArena I N} {l₁ l₂ : List ℕ} :
    a.contents (l₁ ++ l₂) = a.contents l₁ ++ a.contents l₂ :=
  List.filterMap_append

theorem contents_cons {a : LinkedArena I N} {l : List ℕ} {i : ℕ} {n : N}
    (h : payload a.nodes i = some n) :
    a.contents (i :: l) = n :: a.contents l := by
  simp [contents, h]

variable [DecidableEq I]

/-- The indices `l` are the arena's list from head to tail, and `idx_of` finds its nodes. -/
structure Repr (a : LinkedArena I N) (l : List ℕ) : Prop where
  links : Links (prevs a.nodes) (nexts a.nodes) none l none
  perm : l.Perm (List.range a.nodes.length)
  head : a.head = l.head?
  tail : a.tail = none ∨ a.tail = l.getLast?
  index : ∀ k i, a.idxOf.lookup k = some i ↔ (payload a.nodes i).map LinkedNode.item = some k

/-- The tail pointer is there, unless there is nothing to point at. -/
def TailKnown (a : LinkedArena I N) : Prop := a.tail = none → a.nodes = []

section Repr

variable {a : LinkedArena I N} {l l₁ l₂ : List ℕ} {i : ℕ}

theorem Repr.nodup (h : a.Repr l) : l.Nodup := h.perm.nodup_iff.mpr List.nodup_range

theorem Repr.mem_iff (h : a.Repr l) : i ∈ l ↔ i < a.nodes.length := by
  rw [h.perm.mem_iff, List.mem_range]

theorem Repr.length_eq (h : a.Repr l) : l.length = a.nodes.length := by
  rw [h.perm.length_eq, List.length_range]

theorem Repr.payload_of_mem (h : a.Repr l) (hi : i ∈ l) : ∃ n, payload a.nodes i = some n :=
  Option.isSome_iff_exists.mp (payload_isSome.mpr (h.mem_iff.mp hi))

theorem Repr.map_payload (h : a.Repr l) : l.map (payload a.nodes) = (a.contents l).map some := by
  have hall : ∀ i ∈ l, (payload a.nodes i).isSome := fun i hi =>
    payload_isSome.mpr (h.mem_iff.mp hi)
  rw [contents]
  clear h
  induction l with
  | nil => rfl
  | cons i l ih =>
    obtain ⟨n, hn⟩ := Option.isSome_iff_exists.mp (hall i List.mem_cons_self)
    simp [hn, ih fun j hj => hall j (List.mem_cons_of_mem _ hj)]

theorem Repr.length_contents (h : a.Repr l) : (a.contents l).length = a.nodes.length := by
  have hlen := congrArg List.length h.map_payload
  rw [List.length_map, List.length_map] at hlen
  rw [← hlen, h.length_eq]

theorem Repr.tail_eq (h : a.Repr l) (hk : a.TailKnown) : a.tail = l.getLast? := by
  rcases h.tail with htail | htail
  · have hl : l = [] := List.eq_nil_of_length_eq_zero (by rw [h.length_eq, hk htail]; rfl)
    rw [htail, hl]; rfl
  · exact htail

theorem Repr.tailKnown (h : a.Repr l) (ht : a.tail = l.getLast?) : a.TailKnown := by
  intro hnone
  have hl : l = [] := List.getLast?_eq_none_iff.mp (ht ▸ hnone)
  exact List.eq_nil_of_length_eq_zero (by rw [← h.length_eq, hl]; rfl)

/-- What `idx_of` finds is the node that holds the key. -/
theorem Repr.index_iff (h : a.Repr l) (k : I) (i : ℕ) :
    a.idxOf.lookup k = some i ↔ ∃ n, a.nodes[i]? = some n ∧ LinkedNode.item n = k := by
  rw [h.index, payload, Option.map_map, Option.map_eq_some_iff]
  simp only [Function.comp_apply, item_bare]

/-- The indices from head to tail are those of the walk from the head. -/
theorem Repr.walk (h : a.Repr l) : Walk (nexts a.nodes) a.head l :=
  h.head ▸ h.links.walk

theorem Repr.unique {l' : List ℕ} (h : a.Repr l) (h' : a.Repr l') : l = l' :=
  h.walk.unique h'.walk

/-- Where a node is no more than its links and the rest, the list, the nodes without their links
and the tail say what the arena is. -/
theorem Repr.ext {a' : LinkedArena I N} (h : a.Repr l) (h' : a'.Repr l)
    (hnode : ∀ n n' : N, bare n = bare n' → LinkedNode.prev n = LinkedNode.prev n' →
      LinkedNode.next n = LinkedNode.next n' → n = n')
    (hpay : payload a'.nodes = payload a.nodes) (htail : a'.tail = a.tail) : a' = a := by
  have hidx : a'.idxOf = a.idxOf := by
    apply Finmap.ext_lookup
    intro k
    apply Option.ext
    intro i
    rw [h'.index, hpay, h.index]
  have hnodes : a'.nodes = a.nodes := by
    apply List.ext_getElem?
    intro i
    have hbare : a'.nodes[i]?.map bare = a.nodes[i]?.map bare := congrFun hpay i
    cases hn : a.nodes[i]? with
    | none => simpa [hn] using hbare
    | some n =>
      rw [hn] at hbare
      obtain ⟨n', hn', hbare⟩ := Option.map_eq_some_iff.mp hbare
      have hi : i ∈ l := h.mem_iff.mpr (List.getElem?_eq_some_iff.mp hn).1
      obtain ⟨l₁, l₂, rfl⟩ := List.append_of_mem hi
      obtain ⟨hprev, hnext⟩ := h.links.at
      obtain ⟨hprev', hnext'⟩ := h'.links.at
      simp only [prevs, nexts, hn, hn', Option.bind_some] at hprev hnext hprev' hnext'
      rw [hn', hnode n' n hbare (hprev'.trans hprev.symm) (hnext'.trans hnext.symm)]
  have hhead : a'.head = a.head := h'.head.trans h.head.symm
  cases a
  cases a'
  congr

end Repr

/-! ## Unlinking -/

/-- `a'` is `a` with `i` taken out between `l₁` and `l₂`. -/
structure Unlinked (a a' : LinkedArena I N) (l₁ : List ℕ) (i : ℕ) (l₂ : List ℕ) : Prop where
  links : Links (prevs a'.nodes) (nexts a'.nodes) none (l₁ ++ l₂) none
  idxOf : a'.idxOf = a.idxOf
  length : a'.nodes.length = a.nodes.length
  payload : payload a'.nodes = payload a.nodes
  head : a'.head = (l₁ ++ l₂).head?
  tail : a'.tail = none ∨ a'.tail = (l₁ ++ l₂).getLast?
  tail_known : a.TailKnown ∨ l₂ = [] → a'.tail = (l₁ ++ l₂).getLast?

theorem Repr.links_at {a : LinkedArena I N} {l₁ l₂ : List ℕ} {i : ℕ} {n : N}
    (h : a.Repr (l₁ ++ i :: l₂)) (hn : a.nodes[i]? = some n) :
    LinkedNode.prev n = l₁.getLast? ∧ LinkedNode.next n = l₂.head? := by
  simpa [prevs, nexts, hn] using h.links.at

theorem unlink_ok {a : LinkedArena I N} {l₁ l₂ : List ℕ} {i : ℕ} (h : a.Repr (l₁ ++ i :: l₂)) :
    ∃ a', a.unlink i = .ok a' ∧ Unlinked a a' l₁ i l₂ ∧
      a'.tail = if l₂ = [] then l₁.getLast? else a.tail := by
  have hmem : i ∈ l₁ ++ i :: l₂ := by simp
  obtain ⟨n, hn⟩ : ∃ n, a.nodes[i]? = some n := ⟨_, List.getElem?_eq_getElem (h.mem_iff.mp hmem)⟩
  obtain ⟨hprev, hnext⟩ := h.links_at hn
  obtain ⟨a', hok, hs⟩ := writeSeam_ok (a := a) l₁.getLast? l₂.head? l₂.head? l₁.getLast?
    (fun j hj => h.mem_iff.mp (List.mem_append_left _ (List.mem_of_getLast? hj)))
    (fun j hj => h.mem_iff.mp (by simp [List.mem_of_head? hj]))
  have hnd : (l₁ ++ l₂).Nodup := h.nodup.sublist (by simp)
  obtain ⟨hleft, -, -, hright⟩ := links_append.mp h.links
  have htail : a.tail = none ∨ a.tail = (l₁ ++ i :: l₂).getLast? := h.tail
  have htail' : a'.tail = if l₂ = [] then l₁.getLast? else a.tail := by
    rw [hs.tail]
    simp only [List.head?_eq_none_iff]
  refine ⟨a', by rw [unlink_eq hn, hprev, hnext]; exact hok,
    ⟨?_, hs.idxOf, hs.length, hs.payload, ?_, ?_, ?_⟩, htail'⟩
  · have hsplice := hleft.splice hright hnd
    rwa [Option.or_none, Option.or_none, ← hs.prevs, ← hs.nexts] at hsplice
  · rw [hs.head, h.head]
    cases l₁ <;> simp
  · rw [htail']
    cases l₂ with
    | nil => simp
    | cons j l₂ => simpa [List.getLast?_append, List.getLast?_cons] using htail
  · intro hk
    rw [htail']
    cases l₂ with
    | nil => simp
    | cons j l₂ =>
      have hk : a.TailKnown := hk.resolve_right (by simp)
      simp [h.tail_eq hk, List.getLast?_append, List.getLast?_cons]

/-! ## Moving a node to the head -/

theorem moveToHead_ok {a : LinkedArena I N} {l₁ l₂ : List ℕ} {i : ℕ}
    (h : a.Repr (l₁ ++ i :: l₂)) :
    ∃ a', a.moveToHead i = .ok a' ∧ a'.Repr (i :: (l₁ ++ l₂)) ∧
      payload a'.nodes = payload a.nodes ∧
      (a.TailKnown → l₁ ++ l₂ ≠ [] → a'.TailKnown) ∧
      a'.tail = if l₂ = [] then l₁.getLast? else a.tail := by
  obtain ⟨b, hb, hu, htail'⟩ := unlink_ok h
  obtain ⟨hi, hnd⟩ := List.nodup_cons.mp (List.nodup_middle.mp h.nodup)
  have hmem {j : ℕ} (hj : j ∈ i :: (l₁ ++ l₂)) : j < b.nodes.length := by
    rw [hu.length]
    exact h.mem_iff.mp (List.perm_middle.mem_iff.mpr hj)
  obtain ⟨c, hc, hidx, hlen, hpay, hhead, htail, hprev, hnext⟩ :=
    pushHead_ok (hmem List.mem_cons_self) hu.head fun j hj => hmem (List.mem_cons_of_mem _ hj)
  have hlast : l₁ ++ l₂ ≠ [] → (i :: (l₁ ++ l₂)).getLast? = (l₁ ++ l₂).getLast? := by
    intro hne
    rw [List.getLast?_cons_of_ne_nil hne]
  have hrepr : c.Repr (i :: (l₁ ++ l₂)) := {
    links := by
      rw [hprev, hnext]
      refine ⟨?_, by simp, ?_⟩
      · rw [setLink_head_of_not_mem hi, Function.update_self]
      · have hlinks : Links (Function.update (prevs b.nodes) i none)
            (Function.update (nexts b.nodes) i (l₁ ++ l₂).head?) none (l₁ ++ l₂) none := by
          have hne : ∀ j ∈ l₁ ++ l₂, j ≠ i := fun j hj hji => hi (hji ▸ hj)
          exact hu.links.congr (fun j hj => Function.update_of_ne (hne j hj) _ _)
            fun j hj => Function.update_of_ne (hne j hj) _ _
        exact hlinks.set_prev hnd
    perm := by
      rw [hlen, hu.length]
      exact List.perm_middle.symm.trans h.perm
    head := hhead
    tail := by
      rw [htail]
      by_cases hne : l₁ ++ l₂ = []
      · exact Or.inl (by simpa [hne] using hu.tail)
      · rw [hlast hne]; exact hu.tail
    index := by
      intro k j
      rw [hidx, hu.idxOf, hpay, hu.payload]
      exact h.index k j }
  refine ⟨c, by rw [moveToHead_eq, hb]; exact hc, hrepr, hpay.trans hu.payload, ?_,
    htail.trans htail'⟩
  intro hk hne
  apply hrepr.tailKnown
  rw [htail, hu.tail_known (Or.inl hk), hlast hne]

/-! ## Removing a node -/

section Index

variable {idxOf : Finmap fun _ : I => ℕ} {pay pay' : ℕ → Option N} {i m : ℕ} {x y : N}

/-- `idx_of` after the last node of the vector is dropped. -/
theorem index_erase
    (hidx : ∀ k j, idxOf.lookup k = some j ↔ (pay j).map LinkedNode.item = some k)
    (hpay : ∀ j, pay' j = if j < m then pay j else none) (hout : ∀ j, m < j → pay j = none)
    (hm : pay m = some x) (k : I) (j : ℕ) :
    (idxOf.erase (LinkedNode.item x)).lookup k = some j ↔
      (pay' j).map LinkedNode.item = some k := by
  have hlook : idxOf.lookup (LinkedNode.item x) = some m := (hidx _ _).mpr (by rw [hm]; rfl)
  have hself : (pay m).map LinkedNode.item = some (LinkedNode.item x) := (hidx _ _).mp hlook
  rw [hpay]
  by_cases hk : k = LinkedNode.item x
  · subst hk
    simp only [Finmap.lookup_erase, reduceCtorEq, false_iff]
    by_cases hj : j < m
    · rw [if_pos hj, ← hidx, hlook]
      simp only [Option.some.injEq]
      omega
    · simp [hj]
  · rw [Finmap.lookup_erase_ne hk, hidx]
    rcases lt_trichotomy j m with hj | hj | hj
    · rw [if_pos hj]
    · subst hj
      simp [hm, Ne.symm hk]
    · simp [hout j hj, Nat.lt_asymm hj]

/-- `idx_of` after the last node of the vector is moved into the hole at `i`. -/
theorem index_move
    (hidx : ∀ k j, idxOf.lookup k = some j ↔ (pay j).map LinkedNode.item = some k)
    (hpay : ∀ j, pay' j = if j < m then pay (if j = i then m else j) else none)
    (hout : ∀ j, m < j → pay j = none) (hi : pay i = some x) (hm : pay m = some y) (him : i < m)
    (k : I) (j : ℕ) :
    ((idxOf.erase (LinkedNode.item x)).insert (LinkedNode.item y) i).lookup k = some j ↔
      (pay' j).map LinkedNode.item = some k := by
  have hx : idxOf.lookup (LinkedNode.item x) = some i := (hidx _ _).mpr (by rw [hi]; rfl)
  have hy : idxOf.lookup (LinkedNode.item y) = some m := (hidx _ _).mpr (by rw [hm]; rfl)
  rw [hpay]
  -- `y` moves from `m` to `i`, `x` is gone, and all other keys stay.
  by_cases hky : k = LinkedNode.item y
  · subst hky
    rw [Finmap.lookup_insert]
    by_cases hj : j = i
    · subst hj; simp [him, hm]
    · rw [if_neg hj]
      refine ⟨fun h => absurd (Option.some.inj h).symm hj, ?_⟩
      intro h
      by_cases hjm : j < m
      · rw [if_pos hjm, ← hidx, hy] at h
        exact absurd (Option.some.inj h) (by omega)
      · simp [hjm] at h
  · rw [Finmap.lookup_insert_of_ne _ hky]
    by_cases hkx : k = LinkedNode.item x
    · subst hkx
      simp only [Finmap.lookup_erase, reduceCtorEq, false_iff]
      by_cases hj : j = i
      · subst hj; simp [him, hm, Ne.symm hky]
      · rw [if_neg hj]
        by_cases hjm : j < m
        · rw [if_pos hjm, ← hidx, hx]
          exact fun h => hj (Option.some.inj h).symm
        · simp [hjm]
    · rw [Finmap.lookup_erase_ne hkx, hidx]
      by_cases hj : j = i
      · subst hj; simp [him, hi, hm, Ne.symm hkx, Ne.symm hky]
      · rw [if_neg hj]
        rcases lt_trichotomy j m with hjm | hjm | hjm
        · rw [if_pos hjm]
        · subst hjm; simp [hm, Ne.symm hky]
        · simp [hout j hjm, Nat.lt_asymm hjm]

end Index

/-- `remove` at the last slot of the vector: nothing moves. -/
theorem remove_eq_last {a b : LinkedArena I N} {i : ℕ} {n : N} {nodes : List N}
    (hb : a.unlink i = .ok b) (hs : swapRemove b.nodes i = .ok (n, nodes))
    (hi : i = nodes.length) :
    a.remove i =
      .ok (nodes.length, n, { b with nodes, idxOf := b.idxOf.erase (LinkedNode.item n) }) := by
  simp [remove, hb, hs, hi.symm, bind, Except.bind, pure, Except.pure]

/-- `remove` elsewhere: the last node of the vector moves to `i` and is linked in again. -/
theorem remove_eq_move {a b c : LinkedArena I N} {i : ℕ} {n y : N} {nodes : List N}
    (hb : a.unlink i = .ok b) (hs : swapRemove b.nodes i = .ok (n, nodes))
    (hi : i ≠ nodes.length) (hy : nodes[i]? = some y)
    (hlook : (b.idxOf.erase (LinkedNode.item n)).lookup (LinkedNode.item y) ≠ none)
    (hc : LinkedArena.relink { b with
        nodes
        idxOf := (b.idxOf.erase (LinkedNode.item n)).insert (LinkedNode.item y) i } i = .ok c) :
    a.remove i = .ok (nodes.length, n, c) := by
  obtain ⟨j, hj⟩ := Option.ne_none_iff_exists'.mp hlook
  simp [remove, hb, hs, hi, hy, hj, hc, bind, Except.bind, pure, Except.pure]

/-- The state of `remove` after `swap_remove`: `b` is unlinked, and `nodes` are its nodes with
the last one, at index `nodes.length`, moved to `i`. -/
structure Removing (a b : LinkedArena I N) (l₁ : List ℕ) (i : ℕ) (l₂ : List ℕ) (n : N)
    (nodes : List N) : Prop where
  unlinked : Unlinked a b l₁ i l₂
  nodup : (l₁ ++ l₂).Nodup
  mem : ∀ j, j ∈ l₁ ++ l₂ ↔ j < nodes.length + 1 ∧ j ≠ i
  length : b.nodes.length = nodes.length + 1
  removed : payload b.nodes i = some (bare n)
  moved : ∀ j < nodes.length, nodes[j]? = b.nodes[if j = i then nodes.length else j]?
  index : ∀ k j, b.idxOf.lookup k = some j ↔ (payload b.nodes j).map LinkedNode.item = some k

theorem removing_ok {a : LinkedArena I N} {l₁ l₂ : List ℕ} {i : ℕ}
    (h : a.Repr (l₁ ++ i :: l₂)) :
    ∃ b n nodes, a.unlink i = .ok b ∧ swapRemove b.nodes i = .ok (n, nodes) ∧
      Removing a b l₁ i l₂ n nodes := by
  obtain ⟨b, hb, hu, -⟩ := unlink_ok h
  obtain ⟨hil, hnd⟩ := List.nodup_cons.mp (List.nodup_middle.mp h.nodup)
  have hib : i < b.nodes.length := by rw [hu.length]; exact h.mem_iff.mp (by simp)
  obtain ⟨n, hn⟩ : ∃ n, b.nodes[i]? = some n := ⟨_, List.getElem?_eq_getElem hib⟩
  obtain ⟨nodes, hs, hlen, hget⟩ := swapRemove_ok hn
  refine ⟨b, n, nodes, hb, hs, hu, hnd, fun j => ?_, hlen.symm, by rw [payload, hn]; rfl, hget, ?_⟩
  · have hiff : j ∈ i :: (l₁ ++ l₂) ↔ j < nodes.length + 1 := by
      rw [hlen, hu.length, ← h.mem_iff, List.perm_middle.mem_iff]
    rw [← hiff, List.mem_cons]
    exact ⟨fun hj => ⟨Or.inr hj, fun hji => hil (hji ▸ hj)⟩, fun hj => hj.1.resolve_left hj.2⟩
  · intro k j
    rw [hu.idxOf, hu.payload]
    exact h.index k j

section Removing

variable {a b : LinkedArena I N} {l₁ l₂ : List ℕ} {i : ℕ} {n : N} {nodes : List N}

theorem Removing.payload_eq (h : Removing a b l₁ i l₂ n nodes) (j : ℕ) :
    LinkedArena.payload nodes j = if j < nodes.length then
      LinkedArena.payload b.nodes (if j = i then nodes.length else j) else none := by
  by_cases hj : j < nodes.length
  · rw [if_pos hj, payload, h.moved j hj, payload]
  · rw [if_neg hj, payload_eq_none.mpr (Nat.le_of_not_lt hj)]

theorem Removing.payload_out (h : Removing a b l₁ i l₂ n nodes) (j : ℕ) (hj : nodes.length < j) :
    LinkedArena.payload b.nodes j = none :=
  payload_eq_none.mpr (by rw [h.length]; omega)

theorem Removing.same (h : Removing a b l₁ i l₂ n nodes) {j : ℕ} (hj : j < nodes.length)
    (hji : j ≠ i) : nodes[j]? = b.nodes[j]? := by
  rw [h.moved j hj, if_neg hji]

theorem Removing.contents_eq (h : Removing a b l₁ i l₂ n nodes) :
    a.contents l₁ ++ a.contents l₂ = (l₁ ++ l₂).filterMap (LinkedArena.payload b.nodes) := by
  rw [← contents_append, contents, h.unlinked.payload]

/-- Removing the node in the last slot of the vector. -/
theorem Removing.repr_last (h : Removing a b l₁ i l₂ n nodes) (hi : i = nodes.length) :
    LinkedArena.Repr { b with nodes, idxOf := b.idxOf.erase (LinkedNode.item n) } (l₁ ++ l₂) ∧
      contents { b with nodes, idxOf := b.idxOf.erase (LinkedNode.item n) } (l₁ ++ l₂) =
        a.contents l₁ ++ a.contents l₂ := by
  have hsame {j : ℕ} (hj : j ∈ l₁ ++ l₂) : nodes[j]? = b.nodes[j]? := by
    have hj := (h.mem j).mp hj
    exact h.same (by omega) hj.2
  have hpay : ∀ j, LinkedArena.payload nodes j =
      if j < nodes.length then LinkedArena.payload b.nodes j else none := by
    intro j
    rw [h.payload_eq]
    by_cases hj : j < nodes.length
    · rw [if_pos hj, if_pos hj, if_neg (by omega)]
    · rw [if_neg hj, if_neg hj]
  refine ⟨⟨?_, ?_, h.unlinked.head, h.unlinked.tail, ?_⟩, ?_⟩
  · exact h.unlinked.links.congr (fun j hj => by simp only [prevs, hsame hj])
      fun j hj => by simp only [nexts, hsame hj]
  · apply (List.perm_ext_iff_of_nodup h.nodup List.nodup_range).mpr
    intro j
    rw [h.mem, List.mem_range]
    show _ ↔ j < nodes.length
    omega
  · intro k j
    rw [← item_bare n]
    exact index_erase h.index hpay h.payload_out (hi ▸ h.removed) k j
  · rw [h.contents_eq]
    exact List.filterMap_congr fun j hj => by rw [payload, payload, hsame hj]

/-- Removing any other node: the last slot of the vector takes its place in the list. -/
theorem Removing.repr_move (h : Removing a b l₁ i l₂ n nodes) (hi : i < nodes.length) :
    ∃ y c l', nodes[i]? = some y ∧
      (b.idxOf.erase (LinkedNode.item n)).lookup (LinkedNode.item y) ≠ none ∧
      LinkedArena.relink { b with
        nodes
        idxOf := (b.idxOf.erase (LinkedNode.item n)).insert (LinkedNode.item y) i } i = .ok c ∧
      c.nodes.length = nodes.length ∧ c.Repr l' ∧
      c.contents l' = a.contents l₁ ++ a.contents l₂ ∧
      (b.tail = (l₁ ++ l₂).getLast? → c.tail = l'.getLast?) := by
  have hm : nodes.length ∈ l₁ ++ l₂ := (h.mem _).mpr ⟨by omega, by omega⟩
  -- The moved node stands between `k₁` and `k₂`.
  obtain ⟨k₁, k₂, hk⟩ := List.append_of_mem hm
  have hnd : (k₁ ++ nodes.length :: k₂).Nodup := hk ▸ h.nodup
  have hmem (j : ℕ) : j ∈ k₁ ++ k₂ ↔ j < nodes.length ∧ j ≠ i := by
    have hj := h.mem j
    rw [hk, List.perm_middle.mem_iff, List.mem_cons] at hj
    have hne : j ∈ k₁ ++ k₂ → j ≠ nodes.length := fun hj hjm =>
      (List.nodup_cons.mp (List.nodup_middle.mp hnd)).1 (hjm ▸ hj)
    constructor
    · intro hjk
      have := hj.mp (Or.inr hjk)
      have := hne hjk
      omega
    · intro hjk
      exact (hj.mpr ⟨by omega, hjk.2⟩).resolve_left (by omega)
  have hsame {j : ℕ} (hj : j ∈ k₁ ++ k₂) : nodes[j]? = b.nodes[j]? :=
    h.same ((hmem j).mp hj).1 ((hmem j).mp hj).2
  have hmoved : nodes[i]? = b.nodes[nodes.length]? := by rw [h.moved i hi, if_pos rfl]
  obtain ⟨y, hy⟩ : ∃ y, b.nodes[nodes.length]? = some y :=
    ⟨_, List.getElem?_eq_getElem (by rw [h.length]; omega)⟩
  have hpayy : LinkedArena.payload b.nodes nodes.length = some (bare y) := by
    rw [payload, hy]; rfl
  have hlinks := h.unlinked.links
  rw [hk] at hlinks
  obtain ⟨hprev, hnext⟩ : LinkedNode.prev y = k₁.getLast? ∧ LinkedNode.next y = k₂.head? := by
    simpa [prevs, nexts, hy] using hlinks.at
  -- Link the moved node in again.
  let c₀ : LinkedArena I N := { b with
    nodes
    idxOf := (b.idxOf.erase (LinkedNode.item n)).insert (LinkedNode.item y) i }
  have hleft {j : ℕ} (hj : j ∈ k₁) : j ∈ k₁ ++ k₂ := List.mem_append_left _ hj
  have hright {j : ℕ} (hj : j ∈ k₂) : j ∈ k₁ ++ k₂ := List.mem_append_right _ hj
  obtain ⟨c, hc, hs⟩ := writeSeam_ok (a := c₀) k₁.getLast? k₂.head? (some i) (some i)
    (fun j hj => ((hmem j).mp (hleft (List.mem_of_getLast? hj))).1)
    (fun j hj => ((hmem j).mp (hright (List.mem_of_head? hj))).1)
  have hik : i ∉ k₁ ++ k₂ := fun hik => ((hmem i).mp hik).2 rfl
  have hndi : (k₁ ++ i :: k₂).Nodup := by
    refine List.nodup_middle.mpr (List.nodup_cons.mpr ⟨hik, ?_⟩)
    exact (List.nodup_cons.mp (List.nodup_middle.mp hnd)).2
  have hpayc : LinkedArena.payload c.nodes = LinkedArena.payload nodes := hs.payload
  have hhead : b.head = (k₁ ++ nodes.length :: k₂).head? := hk ▸ h.unlinked.head
  have hrepr : c.Repr (k₁ ++ i :: k₂) := {
    links := by
      obtain ⟨h₁, -, -, h₂⟩ := links_append.mp hlinks
      have h₁' : Links (prevs nodes) (nexts nodes) none k₁ _ :=
        h₁.congr (fun j hj => by simp only [prevs, hsame (hleft hj)])
          fun j hj => by simp only [nexts, hsame (hleft hj)]
      have h₂' : Links (prevs nodes) (nexts nodes) _ k₂ none :=
        h₂.congr (fun j hj => by simp only [prevs, hsame (hright hj)])
          fun j hj => by simp only [nexts, hsame (hright hj)]
      rw [hs.prevs, hs.nexts]
      refine h₁'.squeeze h₂' ?_ ?_ hndi
      · rw [prevs, hmoved, hy]; exact hprev
      · rw [nexts, hmoved, hy]; exact hnext
    perm := by
      apply (List.perm_ext_iff_of_nodup hndi List.nodup_range).mpr
      intro j
      rw [List.perm_middle.mem_iff, List.mem_cons, hmem, List.mem_range, hs.length]
      show _ ↔ j < nodes.length
      omega
    head := by
      rw [hs.head]
      cases k₁ <;> simp [c₀, hhead]
    tail := by
      rw [hs.tail]
      cases k₂ with
      | nil => simp
      | cons j k₂ => simpa [c₀, hk, List.getLast?_append, List.getLast?_cons] using h.unlinked.tail
    index := by
      intro k j
      rw [hs.idxOf, hpayc]
      simp only [c₀]
      rw [← item_bare n, ← item_bare y]
      exact index_move h.index h.payload_eq h.payload_out h.removed hpayy hi k j }
  refine ⟨y, c, k₁ ++ i :: k₂, hmoved.trans hy, ?_, ?_, hs.length, hrepr, ?_, ?_⟩
  -- The index of the moved key is there to be overwritten.
  · have hlooky : b.idxOf.lookup (LinkedNode.item y) = some nodes.length :=
      (h.index _ _).mpr (by rw [hpayy]; simp)
    have hlookn : b.idxOf.lookup (LinkedNode.item n) = some i :=
      (h.index _ _).mpr (by rw [h.removed]; simp)
    have hne : LinkedNode.item y ≠ LinkedNode.item n := by
      intro heq
      rw [heq, hlookn] at hlooky
      exact hi.ne (Option.some.inj hlooky)
    rw [Finmap.lookup_erase_ne hne, hlooky]
    simp
  · rw [relink_eq (a := c₀) (hmoved.trans hy), hprev, hnext]
    exact hc
  · have hseg {k : List ℕ} (hsub : ∀ j ∈ k, j ∈ k₁ ++ k₂) :
        k.filterMap (LinkedArena.payload nodes) = k.filterMap (LinkedArena.payload b.nodes) :=
      List.filterMap_congr fun j hj => by rw [payload, payload, hsame (hsub j hj)]
    have hpayi : LinkedArena.payload nodes i = some (bare y) := by
      rw [payload, hmoved, hy]; rfl
    rw [h.contents_eq, hk, contents, hpayc, List.filterMap_append, List.filterMap_append,
      hseg fun j => hleft, List.filterMap_cons_some hpayi, List.filterMap_cons_some hpayy,
      hseg fun j => hright]
  · intro ht
    rw [hs.tail]
    cases k₂ with
    | nil => simp
    | cons j k₂ => simpa [c₀, hk, List.getLast?_append, List.getLast?_cons] using ht

end Removing

theorem remove_ok {a : LinkedArena I N} {l₁ l₂ : List ℕ} {i : ℕ} (h : a.Repr (l₁ ++ i :: l₂)) :
    ∃ n a' l', a.remove i = .ok (a'.nodes.length, n, a') ∧ a'.Repr l' ∧
      payload a.nodes i = some (bare n) ∧ a'.contents l' = a.contents l₁ ++ a.contents l₂ ∧
      (a.TailKnown ∨ l₂ = [] → a'.TailKnown) := by
  obtain ⟨b, n, nodes, hb, hs, hr⟩ := removing_ok h
  have hremoved : payload a.nodes i = some (bare n) := by rw [← hr.unlinked.payload, hr.removed]
  have hilt : i < nodes.length + 1 := by
    rw [← hr.length, hr.unlinked.length]
    exact h.mem_iff.mp (by simp)
  by_cases hi : i = nodes.length
  · obtain ⟨hrepr, hcontents⟩ := hr.repr_last hi
    refine ⟨n, { b with nodes, idxOf := b.idxOf.erase (LinkedNode.item n) }, l₁ ++ l₂,
      remove_eq_last hb hs hi, hrepr, hremoved, hcontents, ?_⟩
    intro hk
    exact hrepr.tailKnown (hr.unlinked.tail_known hk)
  · obtain ⟨y, c, l', hy, hlook, hc, hlen, hrepr, hcontents, htail⟩ :=
      hr.repr_move (by omega)
    refine ⟨n, c, l', ?_, hrepr, hremoved, hcontents, ?_⟩
    · rw [hlen]
      exact remove_eq_move hb hs hi hy hlook hc
    · intro hk
      exact hrepr.tailKnown (htail (hr.unlinked.tail_known hk))

/-! ## Inserting a node -/

theorem insertHead_ok {a : LinkedArena I N} {l : List ℕ} {key : I} (h : a.Repr l)
    (hkey : a.idxOf.lookup key = none) (now : Instant) :
    ∃ a', a.insertHead now key = .ok a' ∧ a'.Repr (a.nodes.length :: l) ∧
      a'.contents (a.nodes.length :: l) = LinkedNode.new now key none none :: a.contents l ∧
      (a.TailKnown → a'.TailKnown) := by
  -- What the code writes: the new node at the end of the vector, and `prev` of the old head.
  obtain ⟨a', hok, hidx, hlen, hhead, htail, hprev, hnext, hpay⟩ :
      ∃ a', a.insertHead now key = .ok a' ∧ a'.idxOf = a.idxOf.insert key a.nodes.length ∧
        a'.nodes.length = a.nodes.length + 1 ∧ a'.head = some a.nodes.length ∧
        a'.tail = (if l = [] then some a.nodes.length else a.tail) ∧
        prevs a'.nodes = setLink (Function.update (prevs a.nodes) a.nodes.length none) l.head?
          (some a.nodes.length) ∧
        nexts a'.nodes = Function.update (nexts a.nodes) a.nodes.length l.head? ∧
        payload a'.nodes = Function.update (payload a.nodes) a.nodes.length
          (some (LinkedNode.new now key none none)) := by
    have hhead := h.head
    cases l with
    | nil =>
      refine ⟨_, by simp only [insertHead, hkey, hhead, List.head?_nil]; rfl, rfl, by simp, rfl,
        rfl, ?_, ?_, ?_⟩
      · simp [prevs_append]
      · simp [nexts_append]
      · simp [payload_append]
    | cons old l =>
      have hold : old < (a.nodes ++ [LinkedNode.new now key none (some old)]).length := by
        have := h.mem_iff.mp (List.mem_cons_self (a := old) (l := l))
        simp only [List.length_append, List.length_singleton]
        omega
      refine ⟨{ a with
        idxOf := a.idxOf.insert key a.nodes.length
        nodes := (a.nodes ++ [LinkedNode.new now key none (some old)]).modify old
          (LinkedNode.setPrev · (some a.nodes.length))
        head := some a.nodes.length }, ?_, rfl, by simp, rfl, rfl, ?_, ?_, ?_⟩
      · simp only [insertHead, hkey, hhead, List.head?_cons]
        rw [setPrevUnchecked_ok hold]
        rfl
      · simp [prevs_setPrev hold, prevs_append, setLink_some]
      · simp [nexts_setPrev, nexts_append]
      · rw [payload_modify fun n => bare_setPrev n _]
        simp [payload_append]
  -- The list that the links describe now.
  have hnotin : a.nodes.length ∉ l := fun hin => (h.mem_iff.mp hin).false
  have hnd : (a.nodes.length :: l).Nodup := List.nodup_cons.mpr ⟨hnotin, h.nodup⟩
  have hne {j : ℕ} (hj : j ∈ l) : j ≠ a.nodes.length := fun hji => hnotin (hji ▸ hj)
  have hrepr : a'.Repr (a.nodes.length :: l) := {
    links := by
      rw [hprev, hnext]
      refine ⟨?_, by simp, ?_⟩
      · rw [setLink_head_of_not_mem hnotin, Function.update_self]
      · have hlinks : Links (Function.update (prevs a.nodes) a.nodes.length none)
            (Function.update (nexts a.nodes) a.nodes.length l.head?) none l none :=
          h.links.congr (fun j hj => Function.update_of_ne (hne hj) _ _)
            fun j hj => Function.update_of_ne (hne hj) _ _
        exact hlinks.set_prev h.nodup
    perm := by
      apply (List.perm_ext_iff_of_nodup hnd List.nodup_range).mpr
      intro j
      rw [List.mem_cons, h.mem_iff, List.mem_range, hlen]
      omega
    head := hhead
    tail := by
      rw [htail]
      cases l with
      | nil => simp
      | cons j l => simpa [List.getLast?_cons] using h.tail
    index := by
      intro k j
      rw [hidx, hpay]
      by_cases hk : k = key
      · subst hk
        rw [Finmap.lookup_insert, Function.update_apply]
        by_cases hj : j = a.nodes.length
        · simp [hj]
        · rw [if_neg hj, ← h.index, hkey]
          simp [Ne.symm hj]
      · rw [Finmap.lookup_insert_of_ne _ hk, h.index, Function.update_apply]
        by_cases hj : j = a.nodes.length
        · subst hj
          simp [payload_eq_none.mpr le_rfl, Ne.symm hk]
        · rw [if_neg hj] }
  refine ⟨a', hok, hrepr, ?_, fun hk => hrepr.tailKnown ?_⟩
  · rw [contents_cons (by rw [hpay, Function.update_self]), contents, hpay]
    exact congrArg _ (List.filterMap_congr fun j hj => Function.update_of_ne (hne hj) _ _)
  · rw [htail]
    cases l with
    | nil => simp
    | cons j l => simp [h.tail_eq hk, List.getLast?_cons]

end LinkedArena

end LightCache
