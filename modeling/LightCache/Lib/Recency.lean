import Mathlib.Data.List.AList

/-!
# Association lists in the order of use

`AList.insert` puts its key in front, so the keys of an association list are in the order in which
they were last inserted. `touch` uses a key again, `restrict` keeps the entries of a kind, and
`first n` the `n` used last.

Main results: for each of these, what it does to the keys and to the lookups. `Within` compares two
lists of limited lengths, and every operation keeps it: the one that may be longer has all entries
of the other one.
-/

namespace List

theorem Sublist.take_of_add_le {α : Type*} {l₁ l₂ : List α} (h : l₁.Sublist l₂) {m n : ℕ}
    (hlen : l₂.length + m ≤ l₁.length + n) : (l₁.take m).Sublist (l₂.take n) := by
  induction h generalizing m n with
  | slnil => simp
  | @cons l₁ l₂ a h ih =>
    rw [length_cons] at hlen
    cases n with
    | zero =>
      have hle := h.length_le
      omega
    | succ n => exact (ih (by omega)).cons a
  | @cons_cons l₁ l₂ a h ih =>
    rw [length_cons, length_cons] at hlen
    cases m with
    | zero => exact nil_sublist _
    | succ m =>
      cases n with
      | zero =>
        have hle := h.length_le
        omega
      | succ n => exact (ih (by omega)).cons_cons a

end List

namespace AList

universe u v

variable {α : Type u} {β : α → Type v}

/-- The entries that satisfy `p`, in their order. -/
def restrict (p : ∀ a, β a → Bool) (s : AList β) : AList β where
  entries := s.entries.filter fun e => p e.1 e.2
  nodupKeys := List.NodupKeys.sublist List.filter_sublist s.nodupKeys

/-- The first `n` entries. -/
def first (n : ℕ) (s : AList β) : AList β where
  entries := s.entries.take n
  nodupKeys := List.NodupKeys.sublist (List.take_sublist n _) s.nodupKeys

variable {s : AList β} {p : ∀ a, β a → Bool} {a a' : α} {b : β a} {n : ℕ}

/-! ## Parts of a list -/

theorem length_keys_restrict_le : (s.restrict p).keys.length ≤ s.keys.length := by
  simp only [keys, restrict, List.keys, List.length_map]
  exact List.length_filter_le _ _

theorem keys_first : (s.first n).keys = s.keys.take n := by
  simp only [keys, first, List.keys, List.map_take]

theorem first_of_length_le (h : s.keys.length ≤ n) : s.first n = s := by
  apply AList.ext
  refine List.take_of_length_le ?_
  simpa only [keys, List.keys, List.length_map] using h

variable [DecidableEq α]

theorem lookup_of_sublist {t : AList β} (h : t.entries.Sublist s.entries) :
    t.lookup a = if a ∈ t then s.lookup a else none := by
  split_ifs with ha
  · obtain ⟨b, hb⟩ := Option.isSome_iff_exists.mp (lookup_isSome.mpr ha)
    have hmem : (⟨a, b⟩ : Sigma β) ∈ s.entries := h.subset (mem_lookup_iff.mp hb)
    rw [hb]
    exact (mem_lookup_iff.mpr hmem).symm
  · exact lookup_eq_none.mpr ha

theorem mem_restrict : a ∈ s.restrict p ↔ ∃ b, s.lookup a = some b ∧ p a b = true := by
  rw [mem_keys]
  simp only [keys, restrict, List.mem_keys, List.mem_filter]
  exact exists_congr fun b => and_congr_left fun _ => mem_lookup_iff.symm

theorem lookup_restrict : (s.restrict p).lookup a = (s.lookup a).filter (p a) := by
  rw [lookup_of_sublist List.filter_sublist]
  cases hb : s.lookup a with
  | none => simp
  | some b =>
    have hmem : a ∈ s.restrict p ↔ p a b = true := by simp [mem_restrict, hb]
    simp only [hmem, Option.filter_some]

theorem keys_restrict {q : α → Bool} (h : ∀ a b, s.lookup a = some b → p a b = q a) :
    (s.restrict p).keys = s.keys.filter q := by
  have hfilter : s.entries.filter (fun e => p e.1 e.2) = s.entries.filter fun e => q e.1 :=
    List.filter_congr fun e he => h e.1 e.2 (mem_lookup_iff.mpr he)
  simp only [keys, restrict, hfilter, List.keys, List.filter_map]
  rfl

theorem lookup_first : (s.first n).lookup a = if a ∈ s.keys.take n then s.lookup a else none := by
  rw [lookup_of_sublist (List.take_sublist n s.entries)]
  simp only [mem_keys, keys_first]

/-! ## Using a key -/

/-- The entry of `a`, if there is one, moves to the front. -/
def touch (a : α) (s : AList β) : AList β :=
  match s.lookup a with
  | some b => s.insert a b
  | none => s

theorem lookup_insert_ite {γ : Type v} {s : AList fun _ : α => γ} {c : γ} :
    (s.insert a c).lookup a' = if a' = a then some c else s.lookup a' := by
  split_ifs with h
  · subst h
    exact lookup_insert s
  · exact lookup_insert_ne h

theorem lookup_erase_ite : (s.erase a).lookup a' = if a' = a then none else s.lookup a' := by
  split_ifs with h
  · subst h
    exact lookup_erase a' s
  · exact lookup_erase_ne h

theorem lookup_touch : (s.touch a).lookup a' = s.lookup a' := by
  unfold touch
  cases hb : s.lookup a with
  | none => rfl
  | some b =>
    rcases eq_or_ne a' a with rfl | hne
    · rw [lookup_insert, hb]
    · exact lookup_insert_ne hne

theorem keys_touch : (s.touch a).keys = if a ∈ s then a :: s.keys.erase a else s.keys := by
  unfold touch
  cases hb : s.lookup a with
  | none => rw [if_neg (lookup_eq_none.mp hb)]
  | some b =>
    rw [if_pos (lookup_isSome.mp (by rw [hb]; rfl))]
    exact keys_insert s

theorem length_keys_touch : (s.touch a).keys.length = s.keys.length := by
  rw [keys_touch]
  split_ifs with ha
  · rw [List.length_cons, List.length_erase_of_mem (mem_keys.mp ha)]
    exact Nat.sub_add_cancel (List.length_pos_of_mem (mem_keys.mp ha))
  · rfl

theorem length_keys_erase_le : (s.erase a).keys.length ≤ s.keys.length := by
  rw [keys_erase]
  exact List.length_erase_le

/-! ## Two lists -/

section Within

variable {t : AList β} {m : ℕ}

omit [DecidableEq α] in
theorem length_keys : s.keys.length = s.entries.length := List.length_map _

/-- The entries of `s`, at most `m`, are entries of `t`, in the same order, and `t`, of at most `n`
entries, has at least as much room left. -/
structure Within (m n : ℕ) (s t : AList β) : Prop where
  sublist : s.entries.Sublist t.entries
  room : t.keys.length + m ≤ s.keys.length + n

theorem Within.lookup (h : Within m n s t) (hb : s.lookup a = some b) : t.lookup a = some b :=
  mem_lookup_iff.mpr (h.sublist.subset (mem_lookup_iff.mp hb))

theorem Within.mem (h : Within m n s t) (ha : a ∈ s) : a ∈ t := by
  obtain ⟨b, hb⟩ := Option.isSome_iff_exists.mp (lookup_isSome.mpr ha)
  exact lookup_isSome.mp (by rw [h.lookup hb]; rfl)

omit [DecidableEq α] in
/-- What `t` loses is at least what `s` loses. -/
theorem Within.restrict (h : Within m n s t) : Within m n (s.restrict p) (t.restrict p) where
  sublist := h.sublist.filter _
  room := by
    have hcut := h.sublist.countP_le (p := fun e => !p e.1 e.2)
    have hs := s.entries.length_eq_countP_add_countP fun e => p e.1 e.2
    have ht := t.entries.length_eq_countP_add_countP fun e => p e.1 e.2
    have hroom := h.room
    simp only [length_keys, AList.restrict, ← List.countP_eq_length_filter] at hroom ⊢
    simp only [Bool.not_eq_true, Bool.decide_eq_false] at hs ht
    omega

theorem Within.erase (h : Within m n s t) : Within m n (s.erase a) (t.erase a) where
  sublist := h.sublist.eraseP
  room := by
    have hroom := h.room
    rw [keys_erase, keys_erase]
    by_cases ha : a ∈ s
    · have hs := List.length_pos_of_mem (mem_keys.mp ha)
      have ht := List.length_pos_of_mem (mem_keys.mp (h.mem ha))
      rw [List.length_erase_of_mem (mem_keys.mp ha),
        List.length_erase_of_mem (mem_keys.mp (h.mem ha))]
      omega
    · have hle : (t.keys.erase a).length ≤ t.keys.length := List.length_erase_le
      rw [List.erase_of_not_mem fun hin => ha (mem_keys.mpr hin)]
      omega

theorem Within.insert (h : Within m n s t) : Within m n (s.insert a b) (t.insert a b) where
  sublist := h.erase.sublist.cons_cons _
  room := by
    have hroom := h.erase (a := a).room
    rw [keys_erase, keys_erase] at hroom
    rw [keys_insert, keys_insert, List.length_cons, List.length_cons]
    omega

theorem Within.touch (h : Within m n s t) : Within m n (s.touch a) (t.touch a) where
  sublist := by
    unfold AList.touch
    cases hb : s.lookup a with
    | some b =>
      rw [h.lookup hb]
      exact h.insert.sublist
    | none =>
      have hs : s.erase a = s :=
        AList.ext (List.kerase_of_notMem_keys fun ha => lookup_eq_none.mp hb ha)
      cases t.lookup a with
      | none => exact h.sublist
      | some c =>
        have herase := h.erase (a := a).sublist
        rw [hs] at herase
        exact herase.cons _
  room := by
    rw [length_keys_touch, length_keys_touch]
    exact h.room

omit [DecidableEq α] in
theorem Within.first (h : Within m n s t) : Within m n (s.first m) (t.first n) where
  sublist := by
    have hroom := h.room
    rw [length_keys, length_keys] at hroom
    exact h.sublist.take_of_add_le hroom
  room := by
    have hroom := h.room
    rw [keys_first, keys_first, List.length_take, List.length_take]
    omega

end Within

end AList
