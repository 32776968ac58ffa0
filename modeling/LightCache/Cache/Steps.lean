import LightCache.Cache.System

/-!
# What a step does to the key

`KeyView` is what the calls of one key see of the map: the value and the waiters entry. `Step`
lists what a step can do to it, and `step_view` shows that the system does nothing else. All
invariants of the system are proved from `Step`.

Most steps only change the call that takes them (`Local`). The others make, change or delete
the entry, or write the value.
-/

namespace LightCache

variable {K V E ι : Type} [DecidableEq K] [DecidableEq ι]

/-- The call has claimed the slot of an entry, and its future has not ended. -/
def Phase.works : Phase V E → Bool
  | .claimed _ | .working | .ready _ => true
  | _ => false

/-- The call is counted as a worker of the entry it claimed or joined. -/
def Phase.holds : Phase V E → Bool
  | .claimed _ | .working | .ready _ => true
  | .racing joined | .polled joined _ => joined
  | .finished armed _ => armed
  | _ => false

/-- The call's destructor takes the lock. -/
def Phase.armed : Phase V E → Bool
  | .working => true
  | .racing joined => joined
  | .finished armed _ => armed
  | _ => false

/-- The call may be dropped, and its destructor does nothing. -/
def Phase.disarmed : Phase V E → Bool
  | .unpolled | .waiting _ => true
  | .racing joined => !joined
  | .finished armed _ => !armed
  | _ => false

/-- The value and the entry of the key, and the calls. `bare`: since the last `remove`, which
found no entry, none was made and nothing stored. -/
structure KeyView (V E ι : Type) where
  value : Option V
  entry : Option Wakers
  calls : ι → Call V E
  epoch : ℕ
  bare : Bool

/-- What the calls of `key` see. -/
def State.view (key : K) (s : State K V E ι) : KeyView V E ι where
  value := s.map.get key
  entry := s.map.waiters key
  calls := s.calls
  epoch := s.epoch
  bare := s.bare && (s.map.get key).isNone && (s.map.waiters key).isNone

namespace KeyView

/-- The view after call `i` became `c`. -/
def setCall (t : KeyView V E ι) (i : ι) (c : Call V E) : KeyView V E ι :=
  { t with calls := Function.update t.calls i c }

/-- The view after call `i` became `c` and the entry became `node`. -/
def setEntry (t : KeyView V E ι) (i : ι) (c : Call V E) (node : Wakers) : KeyView V E ι :=
  { t.setCall i c with entry := some node, bare := false }

/-- The view after call `i` became `c` and made the entry `node`. -/
def openEntry (t : KeyView V E ι) (i : ι) (c : Call V E) (node : Wakers) : KeyView V E ι :=
  { t.setEntry i c node with epoch := t.epoch + 1 }

/-- The view when the wakers `ws` are invoked. -/
def wake (t : KeyView V E ι) (ws : List Waker) : KeyView V E ι :=
  { t with calls := fun j => (t.calls j).wake ws }

section Calls

variable {t : KeyView V E ι} {i j : ι} {c : Call V E} {node : Wakers}

@[simp] theorem setCall_calls_self : (t.setCall i c).calls i = c := Function.update_self ..

@[simp] theorem setCall_calls_of_ne (h : j ≠ i) : (t.setCall i c).calls j = t.calls j :=
  Function.update_of_ne h ..

/-- A property of the calls, shown of the new one and of the others as they were. -/
theorem forall_setCall {P : ι → Call V E → Prop} (hself : P i c)
    (hother : ∀ j, j ≠ i → P j (t.calls j)) (j : ι) : P j ((t.setCall i c).calls j) := by
  rcases eq_or_ne j i with rfl | hji
  · rwa [setCall_calls_self]
  · rw [setCall_calls_of_ne hji]
    exact hother j hji

@[simp] theorem setEntry_calls : (t.setEntry i c node).calls = (t.setCall i c).calls := rfl

@[simp] theorem openEntry_calls : (t.openEntry i c node).calls = (t.setCall i c).calls := rfl

end Calls

/-- The call whose future gave `out` takes the lock in step `a`. `armed` is whether its
destructor will. -/
inductive Ends (i : ι) : Phase V E → Label V E ι → Except E V → Bool → Prop
  | complete (out : Except E V) : Ends i (.ready out) (.complete i) out true
  | race (joined : Bool) (out : Except E V) (w : Waker) :
      Ends i (.polled joined (some out)) (.race i w) out joined

/-- The steps of call `i` that leave the key alone, with what they see of it. -/
inductive Local (kind : Kind) (i : ι) (value : Option V) (entry : Option Wakers)
    (c : Call V E) : Label V E ι → Call V E → Prop
  | hit {v : V} (hc : c.phase = .unpolled) (hv : value = some v) :
      Local kind i value entry c (.start i)
        { c with phase := .finished false (.returned (.ok v)) }
  | miss (hc : c.phase = .unpolled) (hv : value = none) :
      Local kind i value entry c (.start i)
        { c with phase := if kind.race then .calling else .waiting false }
  | got {joined : Bool} {w : Waker} {v : V} (hc : c.phase = .waiting joined) (hv : value = some v) :
      Local kind i value entry c (.wait i w)
        { c with phase := .finished false (.returned (.ok v)), parked := none }
  | init {joined : Bool} (hc : c.phase = .claimed joined) :
      Local kind i value entry c (.init i true) { c with phase := .working, inits := c.inits + 1 }
  | initPanic {joined : Bool} (hc : c.phase = .claimed joined) :
      Local kind i value entry c (.init i false) { c with phase := .dropped, inits := c.inits + 1 }
  | raceInit (hc : c.phase = .calling) :
      Local kind i value entry c (.init i true)
        { c with phase := .racing false, inits := c.inits + 1 }
  | raceInitPanic (hc : c.phase = .calling) :
      Local kind i value entry c (.init i false) { c with phase := .dropped, inits := c.inits + 1 }
  | pending (hc : c.phase = .working) : Local kind i value entry c (.poll i .pending) c
  | ready {out : Except E V} (hc : c.phase = .working)
      (hout : kind.fallible = true ∨ ∃ v, out = .ok v) :
      Local kind i value entry c (.poll i (.ready out)) { c with phase := .ready out }
  | panicked (hc : c.phase = .working) :
      Local kind i value entry c (.poll i .panicked) { c with phase := .finished true .panicked }
  | racePending {joined : Bool} (hc : c.phase = .racing joined) :
      Local kind i value entry c (.poll i .pending) { c with phase := .polled joined none }
  | raceReady {joined : Bool} {out : Except E V} (hc : c.phase = .racing joined)
      (hout : kind.fallible = true ∨ ∃ v, out = .ok v) :
      Local kind i value entry c (.poll i (.ready out))
        { c with phase := .polled joined (some out) }
  | racePanicked {joined : Bool} (hc : c.phase = .racing joined) :
      Local kind i value entry c (.poll i .panicked) { c with phase := .finished joined .panicked }
  | gotReady {a : Label V E ι} {out : Except E V} {armed : Bool} {v : V}
      (h : Ends i c.phase a out armed) (hv : value = some v) :
      Local kind i value entry c a { c with phase := .finished armed (.returned (.ok v)) }
  | failed {a : Label V E ι} {err : E} {armed : Bool} (h : Ends i c.phase a (.error err) armed)
      (hv : value = none) :
      Local kind i value entry c a { c with phase := .finished armed (.returned (.error err)) }
  | raceGot {joined : Bool} {w : Waker} {v : V} (hc : c.phase = .polled joined none)
      (hv : value = some v) :
      Local kind i value entry c (.race i w)
        { c with phase := .finished joined (.returned (.ok v)) }
  | raceAgain {w : Waker} (hc : c.phase = .polled true none) (hv : value = none)
      (hn : entry ≠ none) :
      Local kind i value entry c (.race i w) { c with phase := .racing true }
  | drop (hc : c.phase.disarmed = true) :
      Local kind i value entry c (.drop i) { c with phase := .dropped, parked := none }
  | dropBare (hc : c.phase.armed = true) (hn : entry = none) :
      Local kind i value entry c (.drop i) { c with phase := .dropped, parked := none }

/-- What a step does to the key. -/
inductive Step (kinds : ι → Kind) (t : KeyView V E ι) : Label V E ι → KeyView V E ι → Prop
  | quiet {i : ι} {a : Label V E ι} {c : Call V E}
      (h : Local (kinds i) i t.value t.entry (t.calls i) a c) : Step kinds t a (t.setCall i c)
  /-- A cooperative call finds a worker and waits for it. -/
  | park {i : ι} {w : Waker} {joined : Bool} {n : Wakers}
      (hc : (t.calls i).phase = .waiting joined) (hv : t.value = none) (hn : t.entry = some n)
      (hw : 0 < n.workers) :
      Step kinds t (.wait i w) (t.setEntry i
        { t.calls i with
          phase := .waiting true
          parked := some w
          woken := false
          joinedAt := if joined then (t.calls i).joinedAt else t.epoch }
        (if joined then n else n.joinWaiter w))
  /-- A cooperative call finds an entry without a worker. -/
  | claim {i : ι} {w : Waker} {joined : Bool} {n : Wakers}
      (hc : (t.calls i).phase = .waiting joined) (hv : t.value = none) (hn : t.entry = some n)
      (hw : n.workers = 0) :
      Step kinds t (.wait i w) (t.setEntry i
        { t.calls i with
          phase := .claimed true
          parked := none
          joinedAt := if joined then (t.calls i).joinedAt else t.epoch
          claimedAt := t.epoch }
        (if joined then n else n.joinWaiter w).joinWorker)
  /-- A cooperative call makes the entry. -/
  | make {i : ι} {w : Waker} {joined : Bool}
      (hc : (t.calls i).phase = .waiting joined) (hv : t.value = none) (hn : t.entry = none) :
      Step kinds t (.wait i w) (t.openEntry i
        { t.calls i with phase := .claimed joined, parked := none, claimedAt := t.epoch + 1 }
        (Wakers.start w))
  /-- A racing call joins the entry. -/
  | raceJoin {i : ι} {w : Waker} {n : Wakers} (hc : (t.calls i).phase = .polled false none)
      (hv : t.value = none) (hn : t.entry = some n) :
      Step kinds t (.race i w)
        (t.setEntry i { t.calls i with phase := .racing true } (n.joinWaiter w).joinWorker)
  /-- A racing call makes the entry. -/
  | raceMake {i : ι} {w : Waker} {joined : Bool} (hc : (t.calls i).phase = .polled joined none)
      (hv : t.value = none) (hn : t.entry = none) :
      Step kinds t (.race i w)
        (t.openEntry i { t.calls i with phase := .racing joined } (Wakers.start w))
  /-- A call stores its value and deletes the entry. -/
  | store {i : ι} {a : Label V E ι} {v : V} {armed : Bool} {n : Wakers}
      (h : Ends i (t.calls i).phase a (.ok v) armed) (hv : t.value = none) (hn : t.entry = some n) :
      Step kinds t a ({ t.setCall i
        { t.calls i with phase := .finished armed (.returned (.ok v)) } with
          value := some v, entry := none, bare := false }.wake n.wakers)
  /-- A call stores its value and finds no entry. -/
  | storeBare {i : ι} {a : Label V E ι} {v : V} {armed : Bool}
      (h : Ends i (t.calls i).phase a (.ok v) armed) (hv : t.value = none) (hn : t.entry = none) :
      Step kinds t a { t.setCall i { t.calls i with phase := .finished armed .unreachable } with
        value := some v, bare := false }
  /-- A destructor takes a worker off the entry and wakes everybody. -/
  | leave {i : ι} {n : Wakers} (hc : (t.calls i).phase.armed = true) (hn : t.entry = some n) :
      Step kinds t (.drop i) ((t.setEntry i { t.calls i with phase := .dropped, parked := none }
        n.removeWorker).wake n.wakers)
  | remove : Step kinds t .remove { t with value := none, bare := t.entry.isNone }
  | insert {v : V} : Step kinds t (.insert v) { t with value := some v, bare := false }

section Ends

variable {t t' : KeyView V E ι} {i j : ι} {a : Label V E ι} {p p' : Phase V E}
variable {out out' : Except E V} {armed armed' : Bool} {kinds : ι → Kind}

omit [DecidableEq ι] in
theorem ends_iff : Ends i p a out armed ↔ (a = .complete i ∧ p = .ready out ∧ armed = true) ∨
    ∃ w, a = .race i w ∧ p = .polled armed (some out) := by
  constructor
  · intro hends
    obtain _ | ⟨-, -, w⟩ := hends
    · exact Or.inl ⟨rfl, rfl, rfl⟩
    · exact Or.inr ⟨w, rfl, rfl⟩
  · intro hends
    obtain ⟨rfl, rfl, rfl⟩ | ⟨w, rfl, rfl⟩ := hends
    · exact .complete out
    · exact .race armed out w

omit [DecidableEq ι] in
theorem Ends.unique {f : ι → Phase V E} (h : Ends i (f i) a out armed)
    (h' : Ends j (f j) a out' armed') : i = j ∧ out = out' ∧ armed = armed' := by
  rcases ends_iff.mp h with ⟨rfl, hp, rfl⟩ | ⟨w, rfl, hp⟩ <;>
    rcases ends_iff.mp h' with ⟨ha, hp', rfl⟩ | ⟨w', ha, hp'⟩ <;> cases ha
  · rw [hp] at hp'
    cases hp'
    exact ⟨rfl, rfl, rfl⟩
  · rw [hp] at hp'
    cases hp'
    exact ⟨rfl, rfl, rfl⟩

omit [DecidableEq ι] in
theorem Ends.not_pending (h : Ends i p a out armed) {joined : Bool} : p ≠ .polled joined none := by
  cases h <;> simp

/-- A call whose future gave `v` while nothing is stored stores `v`, and returns it unless there
is no entry. -/
theorem Step.stores {v : V} (hstep : Step kinds t a t')
    (hends : Ends i (t.calls i).phase a (.ok v) armed) (hv : t.value = none) :
    t'.value = some v ∧ t'.entry = none ∧ (t'.calls i).phase =
      .finished armed (if t.entry = none then .unreachable else .returned (.ok v)) := by
  have hunique {j : ι} {out : Except E V} {armed' : Bool}
      (h : Ends j (t.calls j).phase a out armed') : i = j ∧ .ok v = out ∧ armed = armed' :=
    Ends.unique (f := fun j => (t.calls j).phase) hends h
  have hlabel := ends_iff.mp hends
  cases hstep with
  | store h hv' hn =>
    obtain ⟨rfl, hout, rfl⟩ := hunique h
    cases hout
    exact ⟨rfl, rfl, by simp [KeyView.wake, Call.wake, hn]⟩
  | storeBare h hv' hn =>
    obtain ⟨rfl, hout, rfl⟩ := hunique h
    cases hout
    exact ⟨rfl, hn, by simp [hn]⟩
  | quiet hl =>
    cases hl with
    | gotReady h hv' => rw [hv] at hv'; cases hv'
    | failed h => cases (hunique h).2.1
    | raceGot hc hv' => rw [hv] at hv'; cases hv'
    | raceAgain hc =>
      obtain ⟨ha, -⟩ | ⟨w, ha, -⟩ := hlabel <;> cases ha
      exact absurd hc hends.not_pending
    | _ => obtain ⟨ha, -⟩ | ⟨w, ha, -⟩ := hlabel <;> cases ha
  | raceJoin hc | raceMake hc =>
    obtain ⟨ha, -⟩ | ⟨w, ha, -⟩ := hlabel <;> cases ha
    exact absurd hc hends.not_pending
  | _ => obtain ⟨ha, -⟩ | ⟨w, ha, -⟩ := hlabel <;> cases ha

end Ends

/-! ## Phases and kinds -/

end KeyView

/-- The phases a call of a kind can be in. -/
def Phase.fits (kind : Kind) : Phase V E → Bool
  | .waiting _ | .claimed _ | .working => !kind.race
  | .ready out => !kind.race && (kind.fallible || out.isOk)
  | .calling | .racing _ | .polled _ none => kind.race
  | .polled _ (some out) => kind.race && (kind.fallible || out.isOk)
  | .finished _ (.returned (.error _)) => kind.fallible
  | _ => true

namespace KeyView

/-- Every call is in a phase of its kind. -/
def Fits (kinds : ι → Kind) (t : KeyView V E ι) : Prop :=
  ∀ i, (t.calls i).phase.fits (kinds i) = true

section Fits

variable {kinds : ι → Kind} {t t' : KeyView V E ι} {i : ι} {a : Label V E ι} {c c' : Call V E}
variable {kind : Kind} {value : Option V} {entry : Option Wakers} {armed : Bool}
variable {out : Except E V} {out' : Option (Except E V)}

omit [DecidableEq ι] in
theorem Ends.fits (h : Ends i c.phase a out armed) (hc : c.phase.fits kind = true) :
    (kind.fallible || out.isOk) = true := by
  generalize c.phase = p at h hc
  cases h with
  | complete | race =>
    rw [Phase.fits, Bool.and_eq_true] at hc
    exact hc.2

omit [DecidableEq ι] in
theorem Local.fits (h : Local kind i value entry c a c') (hc : c.phase.fits kind = true) :
    c'.phase.fits kind = true := by
  cases h with
  | miss => cases hr : kind.race <;> simp [Phase.fits, hr]
  | pending => exact hc
  | failed hends => simpa [Phase.fits, Except.isOk, Except.toBool] using hends.fits hc
  | ready hp hout | raceReady hp hout =>
    rw [hp] at hc
    obtain hf | ⟨v, rfl⟩ := hout <;> simp_all [Phase.fits, Except.isOk, Except.toBool]
  | _ => simp_all [Phase.fits]

omit [DecidableEq ι] in
theorem Local.works (h : Local kind i value entry c a c') (hc : c'.phase.works = true) :
    c.phase.works = true := by
  cases h with
  | miss => revert hc; cases kind.race <;> simp [Phase.works]
  | pending => exact hc
  | _ => simp_all [Phase.works]

omit [DecidableEq ι] in
theorem Local.holds (h : Local kind i value entry c a c') (hc : c'.phase.holds = true) :
    c.phase.holds = true := by
  cases h with
  | miss => revert hc; cases kind.race <;> simp [Phase.holds]
  | pending => exact hc
  | gotReady hends | failed hends =>
    generalize c.phase = p at hends
    cases hends <;> simp_all [Phase.holds]
  | _ => simp_all [Phase.holds]

omit [DecidableEq ι] in
/-- While there is an entry, only a panic of `init` and a destructor take a holder away. -/
theorem Local.keeps_holding (h : Local kind i value entry c a c') (hc : c.phase.holds = true)
    (hn : entry ≠ none) (hinit : a ≠ .init i false) : c'.phase.holds = true := by
  cases h with
  | pending => exact hc
  | gotReady hends | failed hends =>
    generalize c.phase = p at hends hc
    cases hends <;> simp_all [Phase.holds]
  | drop hd => revert hc hd; cases c.phase <;> simp_all [Phase.holds, Phase.disarmed]
  | dropBare _ hnone => exact absurd hnone hn
  | _ => simp_all [Phase.holds]

omit [DecidableEq ι] in
theorem Local.claimed_of_panic (h : Local kind i value entry c (.init i false) c')
    (hc : c.phase.holds = true) : ∃ joined, c.phase = .claimed joined := by
  cases h with
  | initPanic hp => exact ⟨_, hp⟩
  | raceInitPanic hp => rw [hp] at hc; cases hc
  | gotReady hends | failed hends => obtain ⟨ha, -⟩ | ⟨w, ha, -⟩ := ends_iff.mp hends <;> cases ha

omit [DecidableEq ι] in
theorem Local.claimedAt (h : Local kind i value entry c a c') : c'.claimedAt = c.claimedAt := by
  cases h <;> rfl

omit [DecidableEq ι] in
theorem Fits.not_polled (h : t.Fits kinds) (hcoop : (kinds i).race = false) {joined : Bool} :
    (t.calls i).phase ≠ .polled joined out' := by
  intro hp
  have hi := h i
  cases out' <;> simp [hp, Phase.fits, hcoop] at hi

omit [DecidableEq ι] in
/-- Only `complete` ends a cooperative call. -/
theorem Fits.ready (h : t.Fits kinds) (hcoop : (kinds i).race = false)
    (hends : Ends i (t.calls i).phase a out armed) :
    a = .complete i ∧ (t.calls i).phase = .ready out ∧ armed = true := by
  rcases ends_iff.mp hends with hc | ⟨w, -, hp⟩
  · exact hc
  · exact absurd hp (h.not_polled hcoop)

theorem Fits.setCall (h : t.Fits kinds) (hc : c.phase.fits (kinds i) = true) :
    (t.setCall i c).Fits kinds :=
  forall_setCall (P := fun j c => c.phase.fits (kinds j) = true) hc fun j _ => h j

theorem Fits.step (h : t.Fits kinds) (hstep : Step kinds t a t') : t'.Fits kinds := by
  cases hstep with
  | @quiet i _ _ hl => exact h.setCall (hl.fits (h i))
  | @park i _ _ _ hc | @claim i _ _ _ hc | @make i _ _ hc | @raceJoin i _ _ hc
  | @raceMake i _ _ hc =>
    have hi := h i
    rw [hc] at hi
    exact h.setCall (i := i) hi
  | @store i _ v armed =>
    exact h.setCall (i := i)
      (c := { t.calls i with phase := .finished armed (.returned (.ok v)) }) rfl
  | @storeBare i _ _ armed =>
    exact h.setCall (i := i) (c := { t.calls i with phase := .finished armed .unreachable }) rfl
  | @leave i =>
    exact h.setCall (i := i) (c := { t.calls i with phase := .dropped, parked := none }) rfl
  | remove => exact h
  | insert => exact h

end Fits

end KeyView

/-! ## The system takes only these steps -/

theorem Call.wake_nil (c : Call V E) : c.wake [] = c := by
  cases c with
  | mk phase parked woken joinedAt claimedAt inits => cases parked <;> simp [wake]

namespace State

variable {kinds : ι → Kind} {key : K} {s s' : State K V E ι} {i : ι} {c : Call V E}
variable {map : LightMap K V} {ws : List Waker} {w : Waker}

open KeyView

theorem view_setCall : (s.setCall i c).view key = (s.view key).setCall i c := rfl

omit [DecidableEq ι] in
theorem view_ext {t : KeyView V E ι} (hvalue : s.map.get key = t.value)
    (hentry : s.map.waiters key = t.entry) (hcalls : s.calls = t.calls) (hepoch : s.epoch = t.epoch)
    (hbare : (s.bare && (s.map.get key).isNone && (s.map.waiters key).isNone) = t.bare) :
    s.view key = t := by
  cases t
  subst hvalue hentry hcalls hepoch hbare
  rfl

theorem calls_write_nil : (s.write key i c map []).calls = Function.update s.calls i c :=
  funext fun _ => Call.wake_nil _

theorem view_write_same (hvalue : map.get key = s.map.get key)
    (hentry : map.waiters key = s.map.waiters key) :
    (s.write key i c map []).view key = (s.view key).setCall i c := by
  refine view_ext hvalue hentry calls_write_nil ?_ ?_
  · simp [write, nextEpoch, hentry, view, KeyView.setCall]
  · simp [write, view, hvalue, hentry, KeyView.setCall]

theorem view_write_entry {n node : Wakers} (hvalue : map.get key = s.map.get key)
    (hn : s.map.waiters key = some n) (hentry : map.waiters key = some node) :
    (s.write key i c map ws).view key = ((s.view key).setEntry i c node).wake ws := by
  refine view_ext hvalue hentry rfl ?_ ?_
  · simp [write, nextEpoch, hn, view, setEntry, KeyView.setCall, KeyView.wake]
  · simp [write, hentry, setEntry, KeyView.wake]

theorem view_write_open {node : Wakers} (hvalue : map.get key = s.map.get key)
    (hn : s.map.waiters key = none) (hentry : map.waiters key = some node) :
    (s.write key i c map []).view key = (s.view key).openEntry i c node := by
  refine view_ext hvalue hentry calls_write_nil ?_ ?_
  · simp [write, nextEpoch, hn, hentry, view, openEntry, setEntry, KeyView.setCall]
  · simp [write, hentry, openEntry, setEntry]

theorem view_write_entry_nil {n node : Wakers} (hvalue : map.get key = s.map.get key)
    (hn : s.map.waiters key = some n) (hentry : map.waiters key = some node) :
    (s.write key i c map []).view key = (s.view key).setEntry i c node := by
  rw [view_write_entry hvalue hn hentry]
  simp only [KeyView.wake, Call.wake_nil]

theorem step_start (h : s.start kinds key i = some s') :
    Step kinds (s.view key) (.start i) (s'.view key) := by
  unfold start at h
  cases hc : (s.calls i).phase with
  | unpolled =>
    cases hv : s.map.get key with
    | some v =>
      obtain rfl : _ = s' := by simpa [hc, hv] using h
      exact .quiet (.hit hc hv)
    | none =>
      obtain rfl : _ = s' := by simpa [hc, hv] using h
      exact .quiet (.miss hc hv)
  | _ => simp [hc] at h

theorem step_wait (h : s.wait key i w = some s') :
    Step kinds (s.view key) (.wait i w) (s'.view key) := by
  unfold wait GetOrInsertFutureInner.pollWaiting at h
  cases hc : (s.calls i).phase with
  | waiting joined =>
    cases hv : s.map.get key with
    | some v =>
      obtain rfl : _ = s' := by simpa [hc, hv] using h
      exact .quiet (.got hc hv)
    | none =>
      cases hn : s.map.waiters key with
      | none =>
        obtain rfl : _ = s' := by simpa [hc, hv, hn] using h
        have hentry : (s.map.setWaiters key (Wakers.start w)).waiters key = some (.start w) := by
          simp [LightMap.waiters_setWaiters]
        rw [view_write_open (by simp) hn hentry]
        have hepoch : s.nextEpoch key (s.map.setWaiters key (Wakers.start w)) = s.epoch + 1 := by
          simp [nextEpoch, hn, hentry]
        rw [hepoch]
        exact .make hc hv hn
      | some n =>
        have hsame (node : Wakers) :
            (s.map.setWaiters key node).waiters key = some node := by
          simp [LightMap.waiters_setWaiters]
        by_cases hw : 0 < n.workers
        · have hw' : 0 < (if joined then n else n.joinWaiter w).workers := by
            cases joined <;> exact hw
          obtain rfl : _ = s' := by simpa [hc, hv, hn, hw'] using h
          rw [view_write_entry_nil (by simp) hn (hsame _)]
          exact .park hc hv hn hw
        · have hw' : ¬0 < (if joined then n else n.joinWaiter w).workers := by
            cases joined <;> exact hw
          obtain rfl : _ = s' := by simpa [hc, hv, hn, hw'] using h
          rw [view_write_entry_nil (by simp) hn (hsame _)]
          have hepoch (node : Wakers) : s.nextEpoch key (s.map.setWaiters key node) = s.epoch := by
            simp [nextEpoch, hn]
          rw [hepoch]
          exact .claim hc hv hn (Nat.eq_zero_of_not_pos hw)
  | _ => simp [hc] at h

theorem step_init {returns : Bool} (h : s.callInit i returns = some s') :
    Step kinds (s.view key) (.init i returns) (s'.view key) := by
  unfold callInit at h
  cases hc : (s.calls i).phase with
  | claimed joined =>
    cases returns with
    | true =>
      obtain rfl : _ = s' := by simpa [hc] using h
      exact .quiet (.init hc)
    | false =>
      obtain rfl : _ = s' := by simpa [hc] using h
      exact .quiet (.initPanic hc)
  | calling =>
    cases returns with
    | true =>
      obtain rfl : _ = s' := by simpa [hc] using h
      exact .quiet (.raceInit hc)
    | false =>
      obtain rfl : _ = s' := by simpa [hc] using h
      exact .quiet (.raceInitPanic hc)
  | _ => simp [hc] at h

theorem step_poll {r : FutPoll V E} (h : s.pollFut kinds i r = some s') :
    Step kinds (s.view key) (.poll i r) (s'.view key) := by
  unfold pollFut at h
  cases hc : (s.calls i).phase with
  | working =>
    cases r with
    | pending =>
      obtain rfl : s = s' := by simpa [hc] using h
      have hself : s.view key = (s.view key).setCall i (s.calls i) := by
        simp [KeyView.setCall, view]
      nth_rewrite 2 [hself]
      exact .quiet (.pending hc)
    | ready out =>
      cases out with
      | ok v =>
        obtain rfl : _ = s' := by simpa [hc] using h
        exact .quiet (.ready hc (Or.inr ⟨v, rfl⟩))
      | error err =>
        obtain ⟨hf, rfl⟩ : (kinds i).fallible = true ∧ _ = s' := by simpa [hc] using h
        exact .quiet (.ready hc (Or.inl hf))
    | panicked =>
      obtain rfl : _ = s' := by simpa [hc] using h
      exact .quiet (.panicked hc)
  | racing joined =>
    cases r with
    | pending =>
      obtain rfl : _ = s' := by simpa [hc] using h
      exact .quiet (.racePending hc)
    | ready out =>
      cases out with
      | ok v =>
        obtain rfl : _ = s' := by simpa [hc] using h
        exact .quiet (.raceReady hc (Or.inr ⟨v, rfl⟩))
      | error err =>
        obtain ⟨hf, rfl⟩ : (kinds i).fallible = true ∧ _ = s' := by simpa [hc] using h
        exact .quiet (.raceReady hc (Or.inl hf))
    | panicked =>
      obtain rfl : _ = s' := by simpa [hc] using h
      exact .quiet (.racePanicked hc)
  | _ => simp [hc] at h

/-- The two completing sections have the same arms. -/
theorem step_ends {a : Label V E ι} {out : Except E V} {armed : Bool}
    {completion : Completion (Except E V)} (hc : Ends i (s.calls i).phase a out armed)
    (h : GetOrTryInsertFuture.complete s.map key
      (GetOrInsertFutureInner.pollWorking s.map key out) = (completion, ws, map)) :
    Step kinds (s.view key) a
      ((s.write key i { s.calls i with phase := .finished armed completion } map ws).view key) := by
  unfold GetOrInsertFutureInner.pollWorking at h
  cases hv : s.map.get key with
  | some v =>
    obtain ⟨rfl, rfl, rfl⟩ : .returned (.ok v) = completion ∧ [] = ws ∧ s.map = map := by
      simpa [hv, GetOrTryInsertFuture.complete] using h
    rw [view_write_same rfl rfl]
    exact .quiet (.gotReady hc hv)
  | none =>
    cases out with
    | error err =>
      obtain ⟨rfl, rfl, rfl⟩ : .returned (.error err) = completion ∧ [] = ws ∧ s.map = map := by
        simpa [hv, GetOrTryInsertFuture.complete] using h
      rw [view_write_same rfl rfl]
      exact .quiet (.failed hc hv)
    | ok v =>
      cases hn : s.map.waiters key with
      | some n =>
        obtain ⟨map', hins, hvalue, hentry⟩ := insertValue_of_entry hn v
        obtain ⟨rfl, rfl, rfl⟩ : .returned (.ok v) = completion ∧ n.wakers = ws ∧ map' = map := by
          simpa [hv, GetOrTryInsertFuture.complete, hins, Completion.map] using h
        have hview : (s.write key i { s.calls i with phase := .finished armed (.returned (.ok v)) }
            map' n.wakers).view key = { (s.view key).setCall i
              { s.calls i with phase := .finished armed (.returned (.ok v)) } with
                value := some v, entry := none, bare := false }.wake n.wakers := by
          refine view_ext hvalue hentry rfl ?_ (by simp [write, hvalue, KeyView.wake])
          simp [write, nextEpoch, hentry, view, KeyView.setCall, KeyView.wake]
        rw [hview]
        exact .store hc hv hn
      | none =>
        -- This is the arm that says `unreachable!`.
        obtain ⟨map', hins, hvalue, hentry⟩ := insertValue_of_none hn v
        obtain ⟨rfl, rfl, rfl⟩ : .unreachable = completion ∧ [] = ws ∧ map' = map := by
          simpa [hv, GetOrTryInsertFuture.complete, hins, Completion.map] using h
        have hview : (s.write key i { s.calls i with phase := .finished armed .unreachable }
            map' []).view key = { (s.view key).setCall i
              { s.calls i with phase := .finished armed .unreachable } with
                value := some v, bare := false } := by
          refine view_ext hvalue (hentry.trans hn.symm) calls_write_nil ?_ (by simp [write, hvalue])
          simp [write, nextEpoch, hentry, view, KeyView.setCall]
        rw [hview]
        exact .storeBare hc hv hn

theorem step_complete (h : s.complete key i = some s') :
    Step kinds (s.view key) (.complete i) (s'.view key) := by
  unfold complete at h
  cases hc : (s.calls i).phase with
  | ready out =>
    obtain rfl : _ = s' := by simpa [hc] using h
    refine step_ends ?_ rfl
    rw [hc]
    exact .complete out
  | _ => simp [hc] at h

theorem step_race (h : s.race key i w = some s') :
    Step kinds (s.view key) (.race i w) (s'.view key) := by
  unfold race RaceInner.poll at h
  cases hc : (s.calls i).phase with
  | polled joined out =>
    cases out with
    | some out =>
      have hends : Ends i (s.calls i).phase (.race i w) out joined := by
        rw [hc]
        exact .race joined out w
      -- The section after a ready future is the one of the other kind of calls.
      have hready : ∀ completion ws map, GetOrTryInsertFuture.complete s.map key
          (GetOrInsertFutureInner.pollWorking s.map key out) = (completion, ws, map) →
          s' = s.write key i { s.calls i with phase := .finished joined completion } map ws := by
        intro completion ws map hcomplete
        unfold GetOrInsertFutureInner.pollWorking at hcomplete
        cases hv : s.map.get key <;>
          · simp only [hv] at hcomplete
            simp only [hc, hv, GetOrTryInsertRace.complete, hcomplete, Option.some.injEq] at h
            exact h.symm
      rw [hready _ _ _ rfl]
      exact step_ends hends rfl
    | none =>
      cases hv : s.map.get key with
      | some v =>
        obtain rfl : _ = s' := by
          simpa [hc, hv, GetOrTryInsertRace.complete, GetOrTryInsertFuture.complete] using h
        rw [view_write_same rfl rfl]
        exact .quiet (.raceGot hc hv)
      | none =>
        -- The future is pending and nothing is stored.
        cases hn : s.map.waiters key with
        | none =>
          obtain rfl : _ = s' := by simpa [hc, hv, hn] using h
          have hentry : (s.map.setWaiters key (Wakers.start w)).waiters key = some (.start w) := by
            simp [LightMap.waiters_setWaiters]
          rw [view_write_open (by simp) hn hentry]
          exact .raceMake hc hv hn
        | some n =>
          cases joined with
          | true =>
            obtain rfl : _ = s' := by simpa [hc, hv, hn] using h
            rw [view_write_same rfl rfl]
            exact .quiet (.raceAgain hc hv (by simp [view, hn]))
          | false =>
            obtain rfl : _ = s' := by simpa [hc, hv, hn] using h
            rw [view_write_entry_nil (by simp) hn (by simp [LightMap.waiters_setWaiters]; rfl)]
            exact .raceJoin hc hv hn
  | _ => simp [hc] at h

theorem step_drop (h : s.drop key i = some s') :
    Step kinds (s.view key) (.drop i) (s'.view key) := by
  by_cases harmed : (s.calls i).phase.armed = true
  · have hwrite : s.write key i { s.calls i with phase := .dropped, parked := none }
        (leave s.map key).2 (leave s.map key).1 = s' := by
      unfold drop at h
      revert harmed
      cases hc : (s.calls i).phase with
      | working => simpa [hc, Phase.armed] using h
      | racing joined => cases joined <;> simp_all [Phase.armed]
      | finished armed r => cases armed <;> simp_all [Phase.armed]
      | _ => simp [Phase.armed]
    subst hwrite
    unfold leave
    cases hn : s.map.waiters key with
    | none =>
      rw [view_write_same rfl rfl]
      exact .quiet (.dropBare harmed hn)
    | some n =>
      rw [view_write_entry (by simp) hn (by simp [LightMap.waiters_setWaiters]; rfl)]
      exact .leave harmed hn
  · have hset : s.setCall i { s.calls i with phase := .dropped, parked := none } = s' ∧
        (s.calls i).phase.disarmed = true := by
      unfold drop at h
      revert harmed
      cases hc : (s.calls i).phase with
      | unpolled => simpa [hc, Phase.armed, Phase.disarmed] using h
      | waiting joined => simpa [hc, Phase.armed, Phase.disarmed] using h
      | racing joined => cases joined <;> simp_all [Phase.armed, Phase.disarmed]
      | finished armed r => cases armed <;> simp_all [Phase.armed, Phase.disarmed]
      | _ => simp [hc, Phase.armed] at h ⊢
    obtain ⟨rfl, hidle⟩ := hset
    exact .quiet (.drop hidle)

/-- Every step of the system is one of `Step`. -/
theorem step_view {a : Label V E ι} (h : s.step kinds key a = some s') :
    Step kinds (s.view key) a (s'.view key) := by
  cases a with
  | start i => exact step_start h
  | wait i w => exact step_wait h
  | init i returns => exact step_init h
  | poll i r => exact step_poll h
  | complete i => exact step_complete h
  | race i w => exact step_race h
  | drop i => exact step_drop h
  | remove =>
    obtain rfl : s.remove key = s' := Option.some.inj h
    have hview : (s.remove key).view key =
        { s.view key with value := none, bare := (s.view key).entry.isNone } := by
      refine view_ext ?_ ?_ rfl rfl ?_ <;> simp [remove, view, LightMap.get_remove]
    rw [hview]
    exact .remove
  | insert v =>
    obtain rfl : s.insert key v = s' := Option.some.inj h
    have hview : (s.insert key v).view key =
        { s.view key with value := some v, bare := false } := by
      refine view_ext ?_ ?_ rfl rfl ?_ <;> simp [insert, view, LightMap.get_insert]
    rw [hview]
    exact .insert

omit [DecidableEq ι] in
theorem view_bare (h : (s.view key).bare = true) :
    (s.view key).value = none ∧ (s.view key).entry = none := by
  simp only [view, Bool.and_eq_true, Option.isNone_iff_eq_none] at h
  exact ⟨h.1.2, h.2⟩

/-! ## Sections that can run -/

variable (kinds key)

theorem exists_wait {joined : Bool} (hc : (s.calls i).phase = .waiting joined) (w : Waker) :
    ∃ s', s.step kinds key (.wait i w) = some s' := by
  simp only [step, wait, hc]
  cases (GetOrInsertFutureInner.pollWaiting s.map key w joined).1 <;> exact ⟨_, rfl⟩

theorem exists_complete {out : Except E V} (hc : (s.calls i).phase = .ready out) :
    ∃ s', s.step kinds key (.complete i) = some s' := by
  simp only [step, complete, hc]
  exact ⟨_, rfl⟩

theorem exists_race {joined : Bool} {out : Option (Except E V)}
    (hc : (s.calls i).phase = .polled joined out) (w : Waker) :
    ∃ s', s.step kinds key (.race i w) = some s' := by
  simp only [step, race, hc]
  cases (RaceInner.poll s.map key w joined out).1 <;> exact ⟨_, rfl⟩

end State

end LightCache
