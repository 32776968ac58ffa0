import LightCache.Cache.RaceWorkers

/-!
# Wakers nobody owns

A call adds its waker to the entry of the key when it makes or joins the entry. Nothing takes a
single waker out again: the entry is deleted as a whole, when a value is stored. So the waker of
a call that is dropped before that, because it failed or was cancelled, stays.

Who added which waker is kept in a history variable, the owners of the entry.

Main result: `no_leak_iff`: an entry holds the waker of a dropped call exactly when a call that
is in the entry was dropped before a value was stored. Failing calls leave an entry that nobody
uses, and make it longer: `failures_leak`.
-/

namespace LightCache

variable {K V E ι : Type} [DecidableEq K] [DecidableEq ι]

/-- The call was polled and not dropped. -/
def Phase.live : Phase V E → Bool
  | .unpolled | .dropped => false
  | _ => true

/-- The waker of the cooperative call is in the entry that it made or joined. -/
def Phase.enlisted : Phase V E → Bool
  | .waiting joined => joined
  | .claimed _ | .working | .ready _ => true
  | .finished armed _ => armed
  | _ => false

namespace KeyView

/-- The owners after a step from `t` to `t'`: the step adds one waker at most, at the end. -/
def own (t' : KeyView V E ι) (a : Label V E ι) (owners : List (ι × Waker)) : List (ι × Waker) :=
  match t'.entry, a with
  | none, _ => []
  | some n, .wait i w | some n, .race i w =>
    if owners.length < n.wakers.length then owners ++ [(i, w)] else owners
  | some _, _ => owners

/-- Every waker in the entry was added by a call that was not dropped, and where no call is live
there is no entry. -/
structure NoLeak (t : KeyView V E ι) (owners : List (ι × Waker)) : Prop where
  owned : ∀ n, t.entry = some n →
    n.wakers = owners.map Prod.snd ∧ ∀ o ∈ owners, (t.calls o.1).phase.live = true
  idle : (∀ i, (t.calls i).phase.live = false) → t.entry = none

/-- The step does not drop a call whose waker is in the entry. -/
def staysEnlisted (t : KeyView V E ι) : Label V E ι → Bool
  | .drop i =>
    match (t.calls i).phase with
    | .waiting true | .working | .finished true _ => t.entry = none
    | _ => true
  | _ => true

/-- The owners of the entry are the calls that are enlisted. There is one entry at most before a
value is stored. -/
structure Owned (t : KeyView V E ι) (owners : List (ι × Waker)) : Prop where
  stored : t.entry ≠ none → t.value = none
  empty : ∀ i, t.value = none → t.entry = none → (t.calls i).phase.enlisted = false
  clear : t.entry = none → owners = []
  wakers : ∀ n, t.entry = some n → n.wakers = owners.map Prod.snd
  held : t.entry ≠ none → owners ≠ []
  enlisted : ∀ i, t.entry ≠ none → ((t.calls i).phase.enlisted = true ↔ i ∈ owners.map Prod.fst)

variable {kinds : ι → Kind} {t t' : KeyView V E ι} {a : Label V E ι} {i : ι} {c c' : Call V E}
variable {n n' : Wakers} {owners : List (ι × Waker)} {w : Waker}

section Local

variable {kind : Kind} {value : Option V} {entry : Option Wakers}

omit [DecidableEq ι] in
theorem enlisted_of_armed (hfits : c.phase.fits kind = true) (hcoop : kind.race = false)
    (hc : c.phase.armed = true) : c.phase.enlisted = true := by
  revert hfits hc
  cases c.phase <;> simp [Phase.fits, hcoop, Phase.armed, Phase.enlisted]

omit [DecidableEq ι] in
theorem live_of_enlisted (hc : c.phase.enlisted = true) : c.phase.live = true := by
  revert hc
  cases c.phase <;> simp [Phase.enlisted, Phase.live]

omit [DecidableEq ι] in
/-- Where nothing is stored, only a panic and a destructor take a call off the list. -/
theorem Local.enlisted (h : Local kind i none entry c a c') (hfits : c.phase.fits kind = true)
    (hcoop : kind.race = false) (hpanics : a.panics = false) (hdrop : a ≠ .drop i) :
    c'.phase.enlisted = c.phase.enlisted := by
  cases h with
  | miss hc => simp [hc, hcoop, Phase.enlisted]
  | hit _ hv | got _ hv | gotReady _ hv | raceGot _ hv => cases hv
  | initPanic | raceInitPanic | panicked | racePanicked => cases hpanics
  | pending => rfl
  | failed hends =>
    generalize c.phase = p at hends hfits
    cases hends with
    | complete => rfl
    | race => simp [Phase.fits, hcoop] at hfits
  | raceInit hc | racePending hc | raceReady hc | raceAgain hc =>
    simp [hc, Phase.fits, hcoop] at hfits
  | drop | dropBare => exact absurd rfl hdrop
  | init hc | ready hc => rw [hc]; rfl

omit [DecidableEq ι] in
theorem Local.of_drop {j : ι} (h : Local kind i value entry c (.drop j) c') :
    i = j ∧ c'.phase = .dropped ∧ (c.phase.disarmed = true ∨ c.phase.armed = true) := by
  cases h with
  | drop hc => exact ⟨rfl, rfl, Or.inl hc⟩
  | dropBare hc => exact ⟨rfl, rfl, Or.inr hc⟩
  | gotReady hends | failed hends => obtain ⟨ha, -⟩ | ⟨w, ha, -⟩ := ends_iff.mp hends <;> cases ha

end Local

/-! ## Owners -/

omit [DecidableEq ι] in
theorem own_of_length (hclear : t'.entry = none → owners = [])
    (hlen : ∀ n, t'.entry = some n → n.wakers.length = owners.length) :
    t'.own a owners = owners := by
  unfold own
  split
  · rename_i hn
    exact (hclear hn).symm
  · rename_i hn
    rw [if_neg (by rw [hlen _ hn]; exact lt_irrefl _)]
  · rename_i hn
    rw [if_neg (by rw [hlen _ hn]; exact lt_irrefl _)]
  · rfl

omit [DecidableEq ι] in
theorem own_of_wait (hn : t'.entry = some n) (hlen : owners.length < n.wakers.length) :
    t'.own (.wait i w) owners = owners ++ [(i, w)] := by
  simp [own, hn, hlen]

omit [DecidableEq ι] in
theorem owned_of_stored (hn : t'.entry = none) (hv : t'.value ≠ none) :
    t'.Owned (t'.own a owners) where
  stored hn' := absurd hn hn'
  empty _ hv' := absurd hv' hv
  clear _ := by simp [own, hn]
  wakers m hm := by cases hn.symm.trans hm
  held hn' := absurd hn hn'
  enlisted _ hn' := absurd hn hn'

theorem Owned.setCall (h : t.Owned owners)
    (hc : t.value = none → c.phase.enlisted = (t.calls i).phase.enlisted) :
    (t.setCall i c).Owned ((t.setCall i c).own a owners) := by
  have hown : (t.setCall i c).own a owners = owners :=
    own_of_length h.clear fun n hn => by rw [h.wakers n hn, List.length_map]
  rw [hown]
  refine ⟨h.stored, ?_, h.clear, h.wakers, h.held, ?_⟩
  · intro j hv hn
    refine forall_setCall (P := fun _ c => c.phase.enlisted = false) ?_
      (fun j _ => h.empty j hv hn) j
    rw [hc hv]
    exact h.empty i hv hn
  · intro j hn
    refine forall_setCall (P := fun j c => c.phase.enlisted = true ↔ j ∈ owners.map Prod.fst) ?_
      (fun j _ => h.enlisted j hn) j
    rw [hc (h.stored hn)]
    exact h.enlisted i hn

theorem Owned.setEntry (h : t.Owned owners) (hn : t.entry = some n) (hwakers : n'.wakers = n.wakers)
    (hc : c.phase.enlisted = (t.calls i).phase.enlisted) :
    (t.setEntry i c n').Owned ((t.setEntry i c n').own a owners) := by
  have hlists : n'.wakers = owners.map Prod.snd := hwakers.trans (h.wakers n hn)
  have hne : t.entry ≠ none := by simp [hn]
  have hown : (t.setEntry i c n').own a owners = owners := by
    refine own_of_length nofun fun m hm => ?_
    rw [← Option.some.inj hm, hlists, List.length_map]
  rw [hown]
  refine ⟨fun _ => h.stored hne, nofun, nofun, ?_, fun _ => h.held hne, ?_⟩
  · intro m hm
    rw [← Option.some.inj hm, hlists]
  · intro j _
    refine forall_setCall (P := fun j c => c.phase.enlisted = true ↔ j ∈ owners.map Prod.fst) ?_
      (fun j _ => h.enlisted j hne) j
    rw [hc]
    exact h.enlisted i hne

theorem Owned.enlist (h : t.Owned owners) (hv : t.value = none) (hvalue : t'.value = t.value)
    (hn : t'.entry = some n) (hwakers : n.wakers = owners.map Prod.snd ++ [w])
    (hcalls : t'.calls = (t.setCall i c).calls) (hc : c.phase.enlisted = true) :
    t'.Owned (t'.own (.wait i w) owners) := by
  have hlen : owners.length < n.wakers.length := by simp [hwakers]
  have hne : t'.entry ≠ none := by simp [hn]
  rw [own_of_wait hn hlen]
  refine ⟨fun _ => hvalue.trans hv, fun _ _ hnone => absurd hnone hne,
    fun hnone => absurd hnone hne, ?_, by simp, ?_⟩
  · intro m hm
    rw [← Option.some.inj (hn.symm.trans hm), hwakers, List.map_append]
    rfl
  · intro j _
    rw [hcalls, List.map_append, List.mem_append]
    refine forall_setCall (P := fun j c => c.phase.enlisted = true ↔
      j ∈ owners.map Prod.fst ∨ j ∈ [(i, w)].map Prod.fst) (by simp [hc]) ?_ j
    intro j hji
    have hother : (t.calls j).phase.enlisted = true ↔ j ∈ owners.map Prod.fst := by
      cases hentry : t.entry with
      | none => simp [h.empty j hv hentry, h.clear hentry]
      | some m => exact h.enlisted j (by simp [hentry])
    simp [hother, hji]

/-! ## Steps -/

omit [DecidableEq ι] in
theorem Owned.noLeak (h : t.Owned owners) : t.NoLeak owners where
  owned n hn := by
    refine ⟨h.wakers n hn, ?_⟩
    intro o ho
    exact live_of_enlisted ((h.enlisted o.1 (by simp [hn])).mpr (List.mem_map.mpr ⟨o, ho, rfl⟩))
  idle hlive := by
    by_contra hn
    obtain ⟨o, owners', rfl⟩ := List.exists_cons_of_ne_nil (h.held hn)
    have ho := live_of_enlisted ((h.enlisted o.1 hn).mpr (by simp))
    rw [hlive] at ho
    cases ho

omit [DecidableEq ι] in
theorem Owned.not_enlisted (h : t.Owned owners) (hv : t.value = none)
    (hok : t.staysEnlisted (.drop i) = true)
    (hc : (t.calls i).phase.disarmed = true ∨ (t.calls i).phase.armed = true) :
    (t.calls i).phase.enlisted = false := by
  by_cases hn : t.entry = none
  · exact h.empty i hv hn
  · simp only [staysEnlisted, hn] at hok
    revert hok hc
    cases (t.calls i).phase with
    | waiting joined => cases joined <;> simp [Phase.enlisted]
    | finished armed => cases armed <;> simp [Phase.enlisted]
    | claimed | working | ready => simp [Phase.disarmed, Phase.armed]
    | _ => simp [Phase.enlisted]

omit [DecidableEq ι] in
/-- A call that does not stay enlisted may be dropped, and is in the entry. -/
theorem enlisted_of_leaving (hok : t.staysEnlisted (.drop i) = false) :
    t.entry ≠ none ∧ (t.calls i).phase.enlisted = true ∧
      ((t.calls i).phase.disarmed = true ∨ (t.calls i).phase.armed = true) := by
  simp only [staysEnlisted] at hok
  split at hok
  · rename_i hc
    exact ⟨by simpa using hok, by rw [hc]; rfl, Or.inl (by rw [hc]; rfl)⟩
  · rename_i hc
    exact ⟨by simpa using hok, by rw [hc]; rfl, Or.inr (by rw [hc]; rfl)⟩
  · rename_i hc
    exact ⟨by simpa using hok, by rw [hc]; rfl, Or.inr (by rw [hc]; rfl)⟩
  · cases hok

/-- Owners and enlisted calls stay the same, unless a call in the entry is dropped. -/
theorem Owned.step (h : t.Owned owners) (hfits : t.Fits kinds)
    (hcoop : ∀ i, (kinds i).race = false) (hstep : Step kinds t a t') (hdirect : a.direct = false)
    (hpanics : a.panics = false) (hok : t.staysEnlisted a = true) :
    t'.Owned (t'.own a owners) := by
  cases hstep with
  | @quiet i a c hl =>
    refine h.setCall fun hv => ?_
    rw [hv] at hl
    by_cases hdrop : a = .drop i
    · subst hdrop
      obtain ⟨-, hgone, hc⟩ := hl.of_drop
      rw [hgone, h.not_enlisted hv hok hc]
      rfl
    · exact hl.enlisted (hfits i) (hcoop i) hpanics hdrop
  | @park i w joined n hc hv hn hw =>
    cases joined with
    | true => exact h.setEntry hn rfl (by rw [hc])
    | false => exact h.enlist hv rfl rfl (by simp [h.wakers n hn]) rfl rfl
  | @claim i w joined n hc hv hn hw =>
    cases joined with
    | true => exact h.setEntry hn rfl (by rw [hc]; rfl)
    | false => exact h.enlist hv rfl rfl (by simp [h.wakers n hn]) rfl rfl
  | @make i w joined hc hv hn => exact h.enlist hv rfl rfl (by simp [h.clear hn]) rfl rfl
  | raceJoin hc | raceMake hc => exact absurd hc (hfits.not_polled (hcoop _))
  | store => exact owned_of_stored rfl (by simp [KeyView.wake])
  | storeBare _ _ hn => exact owned_of_stored hn (by simp)
  | @leave i n hc hn =>
    have hout := h.not_enlisted (h.stored (by simp [hn])) hok (Or.inr hc)
    rw [enlisted_of_armed (hfits i) (hcoop i) hc] at hout
    cases hout
  | remove | insert => cases hdirect

end KeyView

namespace State

/-- The owners after a step to `s'`. -/
def own (key : K) (_ : State K V E ι) (a : Label V E ι) (s' : State K V E ι)
    (owners : List (ι × Waker)) : List (ι × Waker) :=
  (s'.view key).own a owners

/-- The system with the owners. -/
def ownerStep (kinds : ι → Kind) (key : K) :
    State K V E ι × List (ι × Waker) → Label V E ι → Option (State K V E ι × List (ι × Waker)) :=
  Trace.recording (State.step kinds key) (own key)

variable {kinds : ι → Kind} {key : K} {s s' : State K V E ι} {i : ι} {owners : List (ι × Waker)}

open KeyView

omit [DecidableEq ι] in
theorem owned_init (n : ℕ+) (hasher : K → UInt64) :
    ((State.init n hasher : State K V E ι).view key).Owned [] := by
  have hn : ((State.init n hasher : State K V E ι).view key).entry = none :=
    LightMap.waiters_empty key n hasher
  exact ⟨fun hne => absurd hn hne, fun _ _ _ => rfl, fun _ => rfl,
    fun m hm => absurd (hn.symm.trans hm) (by simp), fun hne => absurd hn hne,
    fun _ hne => absurd hn hne⟩

theorem exists_drop (kinds : ι → Kind) (key : K)
    (hc : (s.calls i).phase.disarmed = true ∨ (s.calls i).phase.armed = true) :
    ∃ s', s.step kinds key (.drop i) = some s' := by
  simp only [step, drop]
  revert hc
  cases (s.calls i).phase with
  | racing joined => cases joined <;> simp [Phase.disarmed, Phase.armed]
  | finished armed => cases armed <;> simp [Phase.disarmed, Phase.armed]
  | _ => simp [Phase.disarmed, Phase.armed]

theorem entry_of_drop (h : s.step kinds key (.drop i) = some s') (hn : (s.view key).entry ≠ none) :
    (s'.view key).entry ≠ none ∧ (s'.calls i).phase = .dropped := by
  have hview := step_view h
  have hphase : (s'.calls i).phase = ((s'.view key).calls i).phase := rfl
  rw [hphase]
  generalize s'.view key = t' at hview ⊢
  cases hview with
  | quiet hl =>
    obtain ⟨rfl, hgone, -⟩ := hl.of_drop
    exact ⟨hn, by rw [setCall_calls_self, hgone]⟩
  | leave hc hn' => exact ⟨by simp [KeyView.wake, setEntry], by simp [KeyView.wake, Call.wake]⟩
  | store hends | storeBare hends =>
    obtain ⟨ha, -⟩ | ⟨w, ha, -⟩ := ends_iff.mp hends <;> cases ha

/-- A call whose waker is in the entry leaves it there when it is dropped. -/
theorem leaks_of_drop (h : (s.view key).Owned owners) {a : Label V E ι}
    (hok : (s.view key).staysEnlisted a = false) :
    ∃ x, ownerStep kinds key (s, owners) a = some x ∧ ¬(x.1.view key).NoLeak x.2 := by
  cases a with
  | drop i =>
    obtain ⟨hn, henlisted, hc⟩ := enlisted_of_leaving hok
    obtain ⟨s', hstep⟩ := exists_drop kinds key hc
    refine ⟨(s', own key s (.drop i) s' owners), Trace.recording_eq_some.mpr ⟨hstep, rfl⟩, ?_⟩
    obtain ⟨hn', hdropped⟩ := entry_of_drop hstep hn
    obtain ⟨n', hn'⟩ := Option.ne_none_iff_exists'.mp hn'
    have hown : own key s (.drop i) s' owners = owners := by simp [own, KeyView.own, hn']
    intro hleak
    obtain ⟨o, ho, rfl⟩ := List.mem_map.mp ((h.enlisted i hn).mp henlisted)
    have howner : o ∈ own key s (.drop o.1) s' owners := by rwa [hown]
    have hlive := (hleak.owned n' hn').2 o howner
    have hphase : ((s'.view key).calls o.1).phase = .dropped := hdropped
    rw [hphase] at hlive
    cases hlive
  | _ => cases hok

end State

/-- **No waker leak.** In a run of cooperative calls and drops, without panics, every waker in the
entry is that of a call which was not dropped, and there is no entry where no call is live,
exactly if no call is dropped while its waker is in the entry. -/
theorem no_leak_iff (kinds : ι → Kind) (hcoop : ∀ i, (kinds i).race = false) (key : K) (n : ℕ+)
    (hasher : K → UInt64) (as : List (Label V E ι))
    (has : ∀ a ∈ as, a.direct = false ∧ a.panics = false) :
    Trace.Always (State.ownerStep kinds key) (fun x => (x.1.view key).NoLeak x.2)
        (State.init n hasher, []) as ↔
      Trace.Each (State.ownerStep kinds key) (fun x a => (x.1.view key).staysEnlisted a = true)
        (State.init n hasher, []) as := by
  refine Trace.always_iff_each
    (I := fun x => (x.1.view key).Fits kinds ∧ (x.1.view key).Owned x.2)
    (fun _ h => h.2.noLeak) ?_
    (fun _ _ h _ hok => State.leaks_of_drop h.2 (Bool.eq_false_iff.mpr hok))
    ⟨State.fits_init kinds n hasher, State.owned_init n hasher⟩ (Trace.each_of_forall has)
  intro x a x' hinv henv hok hstep
  obtain ⟨hfits, h⟩ := hinv
  obtain ⟨hdirect, hpanics⟩ := henv
  obtain ⟨hs, howners⟩ := Trace.recording_eq_some.mp hstep
  rw [howners]
  exact ⟨hfits.step (State.step_view hs),
    h.step hfits hcoop (State.step_view hs) hdirect hpanics hok⟩

/-- Call 1 waits for call 0 and finds its value. Both are dropped after that. -/
theorem no_leak_two_calls :
    Trace.Always (State.ownerStep (fun _ => .getOrTryInsert) 0)
      (fun x => (x.1.view 0).NoLeak x.2)
      ((State.init 1 fun _ => 0 : State ℕ ℕ ℕ (Fin 2)), [])
      [.start 0, .wait 0 0, .init 0 true, .start 1, .wait 1 1, .poll 0 (.ready (.ok 7)),
        .complete 0, .drop 0, .wait 1 1, .drop 1] :=
  (no_leak_iff _ (fun _ => rfl) 0 1 (fun _ => 0) _ (by decide)).mpr (by decide)

/-- Two calls fail, one after the other. Nobody is there any more, and the entry holds the wakers
of both. -/
theorem failures_leak :
    ∃ (s : State ℕ ℕ ℕ (Fin 2)) (owners : List (Fin 2 × Waker)),
      Trace.run (State.ownerStep (fun _ => .getOrTryInsert) 0) (State.init 1 fun _ => 0, [])
        [.start 0, .wait 0 0, .init 0 true, .poll 0 (.ready (.error 7)), .complete 0, .drop 0,
          .start 1, .wait 1 1, .init 1 true, .poll 1 (.ready (.error 7)), .complete 1, .drop 1] =
          some (s, owners) ∧
      s.map.waiters 0 = some ⟨0, [0, 1]⟩ ∧ (∀ i, (s.calls i).phase = .dropped) ∧
      ¬(s.view 0).NoLeak owners := by
  refine ⟨_, _, rfl, by decide, by decide, fun h => ?_⟩
  exact absurd (h.idle (by decide)) (by decide)

end LightCache
