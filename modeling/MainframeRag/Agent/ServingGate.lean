import MainframeRag.Agent.Serving
import Mathlib

/-!
# The serving gate

`ServingGate` of `agent/serving.py`: the resolved generation is kept for a short time, and calls that
miss it queue at one lock. A step is what one call does between two suspensions; a call may be
cancelled while it waits or resolves, and the gate may be invalidated at any moment. The state logs
resolutions and invalidations.

Main results: `answer_current`, what an answer says about the store, and `resolutions_spaced`.
-/

namespace MainframeRag.Agent.ServingGate

open PyText PyJson
open Ingest (Settings RepresentationManifest)
open Ingest.Build (BuildBinding)
open Serving

variable {F : Type}

/-! ## The gate -/

structure Gate where
  cached : Option ServingGeneration := none
  checkedAt : ℚ := 0

/-- `_fresh` -/
def Gate.fresh (gate : Gate) (ttl now : ℚ) : Bool :=
  gate.cached.isSome && decide (now - gate.checkedAt < ttl)

inductive Phase
  | idle
  /-- at the lock -/
  | waiting (called : ℚ) (fresh : Bool)
  /-- holds the lock, the reads in flight -/
  | resolving (called started : ℚ) (fresh : Bool)

/-- A resolution that returned. -/
structure Resolution where
  called : ℚ
  started : ℚ
  finished : ℚ
  fresh : Bool
  result : ServingGeneration

inductive Event
  | resolved (r : Resolution)
  | invalidated (time : ℚ)

def Event.time : Event → ℚ
  | .resolved r => r.finished
  | .invalidated time => time

structure State where
  gate : Gate := {}
  lock : Option Nat := none
  calls : Nat → Phase := fun _ => .idle
  clock : ℚ
  /-- the latest first -/
  log : List Event := []

/-- A call that returned or raised. -/
structure Answer where
  called : ℚ
  time : ℚ
  fresh : Bool
  result : Except ServingError ServingGeneration

/-- What the gate runs on: the store over time and the arguments of every call. -/
structure Setup (F : Type) where
  uuid5 : Text → Uuid
  validates : Items F → Option RepresentationManifest
  settings : Settings Text
  rulesV : Text
  world : World F
  ttl : ℚ

/-- A resolution between two times may have this result. -/
def Setup.Resolves (c : Setup F) (start finish : ℚ)
    (result : Except ServingError ServingGeneration) : Prop :=
  ∃ see time, Observed c.world start finish see time ∧
    resolvePublishedGeneration c.uuid5 c.validates see c.settings c.rulesV = result

/-- What one call does up to its next suspension, a cancellation, or `invalidate`. -/
inductive Step (c : Setup F) : State → Option Answer → State → Prop
  | served {s : State} {g : ServingGeneration} {t : ℚ} (ht : s.clock ≤ t)
    (hcached : s.gate.cached = some g) (hfresh : s.gate.fresh c.ttl t = true) :
    Step c s (some ⟨t, t, false, .ok g⟩) { s with clock := t }
  | wait {s : State} {i : Nat} {t : ℚ} (fresh : Bool) (ht : s.clock ≤ t) (hid : s.calls i = .idle)
    (hmiss : fresh = true ∨ s.gate.fresh c.ttl t = false) :
    Step c s none
      { s with
        calls := Function.update s.calls i (.waiting t fresh)
        clock := t }
  | recheck {s : State} {i : Nat} {called : ℚ} {g : ServingGeneration} {t : ℚ} (ht : s.clock ≤ t)
    (hid : s.calls i = .waiting called false) (hlock : s.lock = none)
    (hcached : s.gate.cached = some g) (hfresh : s.gate.fresh c.ttl t = true) :
    Step c s (some ⟨called, t, false, .ok g⟩)
      { s with
        calls := Function.update s.calls i .idle
        clock := t }
  | resolve {s : State} {i : Nat} {called : ℚ} {fresh : Bool} {t : ℚ} (ht : s.clock ≤ t)
    (hid : s.calls i = .waiting called fresh) (hlock : s.lock = none)
    (hmiss : fresh = true ∨ s.gate.fresh c.ttl t = false) :
    Step c s none
      { s with
        calls := Function.update s.calls i (.resolving called t fresh)
        lock := some i
        clock := t }
  | complete {s : State} {i : Nat} {called started : ℚ} {fresh : Bool} {g : ServingGeneration} {t : ℚ}
    (ht : s.clock ≤ t) (hid : s.calls i = .resolving called started fresh)
    (hresult : c.Resolves started t (.ok g)) :
    Step c s (some ⟨called, t, fresh, .ok g⟩)
      { s with
        gate := ⟨some g, t⟩
        calls := Function.update s.calls i .idle
        lock := none
        clock := t
        log := .resolved ⟨called, started, t, fresh, g⟩ :: s.log }
  | fail {s : State} {i : Nat} {called started : ℚ} {fresh : Bool} {e : ServingError} {t : ℚ}
    (ht : s.clock ≤ t) (hid : s.calls i = .resolving called started fresh)
    (hresult : c.Resolves started t (.error e)) :
    Step c s (some ⟨called, t, fresh, .error e⟩)
      { s with
        calls := Function.update s.calls i .idle
        lock := none
        clock := t }
  | cancel {s : State} {i : Nat} {t : ℚ} (ht : s.clock ≤ t) :
    Step c s none
      { s with
        calls := Function.update s.calls i .idle
        lock := if s.lock = some i then none else s.lock
        clock := t }
  | invalidate {s : State} {t : ℚ} (ht : s.clock ≤ t) :
    Step c s none { s with gate := {}, clock := t, log := .invalidated t :: s.log }

inductive Reachable (c : Setup F) : State → Prop
  | init (clock : ℚ) : Reachable c { clock }
  | step {s s' : State} {a : Option Answer} (h : Reachable c s) (hs : Step c s a s') : Reachable c s'

/-! ## What the log says -/

/-- A resolution starts when every one before it is finished; one that may use the cache, when every
one before it is finished for the time to live or an invalidation came since. -/
structure Begun (ttl : ℚ) (log : List Event) (fresh : Bool) (started : ℚ) : Prop where
  alone : ∀ r, .resolved r ∈ log → r.finished ≤ started
  spaced : fresh = false → ∀ r, .resolved r ∈ log → r.finished + ttl ≤ started ∨
    ∃ v, .invalidated v ∈ log ∧ r.finished ≤ v ∧ v ≤ started

/-- Every resolution of the log began so. -/
def Spaced (ttl : ℚ) : List Event → Prop
  | [] => True
  | .resolved r :: log => Begun ttl log r.fresh r.started ∧ Spaced ttl log
  | .invalidated _ :: log => Spaced ttl log

/-- The log and what is kept of it. -/
structure Logged (c : Setup F) (gate : Gate) (log : List Event) (clock : ℚ) : Prop where
  spaced : Spaced c.ttl log
  past : ∀ e ∈ log, e.time ≤ clock
  ordered : log.Pairwise fun e e' => e'.time ≤ e.time
  /-- what is kept is the last resolution, and nothing invalidated it -/
  cached : ∀ g, gate.cached = some g → ∃ r rest, log = .resolved r :: rest ∧ r.result = g ∧
    gate.checkedAt = r.finished
  missing : gate.cached = none → ∀ r, .resolved r ∈ log →
    ∃ v, .invalidated v ∈ log ∧ r.finished ≤ v
  sound : ∀ r, .resolved r ∈ log → r.called ≤ r.started ∧ r.started ≤ r.finished ∧
    c.Resolves r.started r.finished (.ok r.result)

/-- The calls and the lock. -/
structure Queued (c : Setup F) (calls : Nat → Phase) (lock : Option Nat) (log : List Event)
    (clock : ℚ) : Prop where
  /-- who resolves holds the lock -/
  holder : ∀ i called started fresh, calls i = .resolving called started fresh →
    lock = some i ∧ called ≤ started ∧ started ≤ clock ∧ Begun c.ttl log fresh started
  /-- who holds the lock resolves -/
  held : ∀ i, lock = some i → ∃ called started fresh, calls i = .resolving called started fresh
  waiting : ∀ i called fresh, calls i = .waiting called fresh → called ≤ clock

structure Inv (c : Setup F) (s : State) : Prop where
  logged : Logged c s.gate s.log s.clock
  queued : Queued c s.calls s.lock s.log s.clock

variable {c : Setup F} {s s' : State} {gate : Gate} {log : List Event} {clock t : ℚ}
  {calls : Nat → Phase} {lock : Option Nat}

theorem mem_of_resolved {r : Resolution} (h : .resolved r ∈ Event.invalidated t :: log) :
    .resolved r ∈ log := by
  simpa using h

theorem Begun.invalidate {ttl started : ℚ} {fresh : Bool} (h : Begun ttl log fresh started) (t : ℚ) :
    Begun ttl (.invalidated t :: log) fresh started := by
  constructor
  case alone =>
    intro r hr
    exact h.alone r (mem_of_resolved hr)
  case spaced =>
    intro hfresh r hr
    rcases h.spaced hfresh r (mem_of_resolved hr) with hspaced | ⟨v, hv, hbetween⟩
    · exact .inl hspaced
    · exact .inr ⟨v, List.mem_cons_of_mem _ hv, hbetween⟩

/-- A call that misses begins after what the log says. -/
theorem Logged.begun (h : Logged c gate log clock) {fresh : Bool} (ht : clock ≤ t)
    (hmiss : fresh = true ∨ gate.fresh c.ttl t = false) : Begun c.ttl log fresh t := by
  constructor
  case alone =>
    intro r hr
    exact (h.past _ hr).trans ht
  case spaced =>
    intro hfresh r hr
    have hstale := hmiss.resolve_left (by simp [hfresh])
    cases hcached : gate.cached with
    | none =>
      obtain ⟨v, hv, hle⟩ := h.missing hcached r hr
      exact .inr ⟨v, hv, hle, (h.past _ hv).trans ht⟩
    | some g =>
      obtain ⟨last, rest, rfl, -, hchecked⟩ := h.cached g hcached
      simp only [Gate.fresh, hcached, Option.isSome_some, Bool.true_and, decide_eq_false_iff_not,
        not_lt, hchecked] at hstale
      have hle : r.finished ≤ last.finished := by
        rcases List.mem_cons.mp hr with hr | hr
        · cases hr
          exact le_refl _
        · exact List.rel_of_pairwise_cons h.ordered hr
      exact .inl (by linarith)

/-! ## Every run -/

theorem Logged.later (h : Logged c gate log clock) (ht : clock ≤ t) : Logged c gate log t :=
  { h with past := fun e he => (h.past e he).trans ht }

theorem Logged.resolve (h : Logged c gate log clock) (ht : clock ≤ t) {called started : ℚ}
    {fresh : Bool} {g : ServingGeneration} (hcalled : called ≤ started) (hstarted : started ≤ clock)
    (hbegun : Begun c.ttl log fresh started) (hresult : c.Resolves started t (.ok g)) :
    Logged c ⟨some g, t⟩ (.resolved ⟨called, started, t, fresh, g⟩ :: log) t := by
  constructor
  case spaced => exact ⟨hbegun, h.spaced⟩
  case past =>
    intro e he
    rcases List.mem_cons.mp he with rfl | he
    · exact le_refl _
    · exact (h.past e he).trans ht
  case ordered => exact .cons (fun e he => (h.past e he).trans ht) h.ordered
  case cached =>
    rintro g' ⟨⟩
    exact ⟨_, log, rfl, rfl, rfl⟩
  case missing =>
    intro hnone
    cases hnone
  case sound =>
    intro r hr
    rcases List.mem_cons.mp hr with hr | hr
    · cases hr
      exact ⟨hcalled, hstarted.trans ht, hresult⟩
    · exact h.sound r hr

theorem Logged.invalidate (h : Logged c gate log clock) (ht : clock ≤ t) :
    Logged c {} (.invalidated t :: log) t := by
  constructor
  case spaced => exact h.spaced
  case past =>
    intro e he
    rcases List.mem_cons.mp he with rfl | he
    · exact le_refl _
    · exact (h.past e he).trans ht
  case ordered => exact .cons (fun e he => (h.past e he).trans ht) h.ordered
  case cached =>
    intro g hg
    cases hg
  case missing =>
    intro _ r hr
    have hmem := mem_of_resolved hr
    exact ⟨t, List.mem_cons_self, (h.past _ hmem).trans ht⟩
  case sound => exact fun r hr => h.sound r (mem_of_resolved hr)

/-- A call that does not resolve comes into a phase in which it does not either. -/
theorem Queued.quiet (h : Queued c calls lock log clock) (ht : clock ≤ t) {i : Nat} {phase : Phase}
    (hid : ∀ called started fresh, calls i ≠ .resolving called started fresh)
    (hphase : ∀ called started fresh, phase ≠ .resolving called started fresh)
    (hwait : ∀ called fresh, phase = .waiting called fresh → called ≤ t) :
    Queued c (Function.update calls i phase) lock log t := by
  constructor
  case holder =>
    intro j called started fresh hj
    rcases eq_or_ne j i with rfl | hji
    · rw [Function.update_self] at hj
      exact absurd hj (hphase called started fresh)
    · rw [Function.update_of_ne hji] at hj
      obtain ⟨hlock, hcalled, hstarted, hbegun⟩ := h.holder j called started fresh hj
      exact ⟨hlock, hcalled, hstarted.trans ht, hbegun⟩
  case held =>
    intro j hj
    obtain ⟨called, started, fresh, hres⟩ := h.held j hj
    have hji : j ≠ i := fun e => hid called started fresh (e ▸ hres)
    exact ⟨called, started, fresh, by rw [Function.update_of_ne hji, hres]⟩
  case waiting =>
    intro j called fresh hj
    rcases eq_or_ne j i with rfl | hji
    · rw [Function.update_self] at hj
      exact hwait called fresh hj
    · rw [Function.update_of_ne hji] at hj
      exact (h.waiting j called fresh hj).trans ht

theorem Queued.later (h : Queued c calls lock log clock) (ht : clock ≤ t) :
    Queued c calls lock log t := by
  constructor
  case holder =>
    intro i called started fresh hi
    obtain ⟨hlock, hcalled, hstarted, hbegun⟩ := h.holder i called started fresh hi
    exact ⟨hlock, hcalled, hstarted.trans ht, hbegun⟩
  case held => exact h.held
  case waiting => exact fun i called fresh hi => (h.waiting i called fresh hi).trans ht

theorem Queued.invalidate (h : Queued c calls lock log clock) (ht : clock ≤ t) (v : ℚ) :
    Queued c calls lock (.invalidated v :: log) t := by
  constructor
  case holder =>
    intro i called started fresh hi
    obtain ⟨hlock, hcalled, hstarted, hbegun⟩ := h.holder i called started fresh hi
    exact ⟨hlock, hcalled, hstarted.trans ht, hbegun.invalidate v⟩
  case held => exact h.held
  case waiting => exact (h.later ht).waiting

/-- The lock is free and one call takes it. -/
theorem Queued.take (h : Queued c calls none log clock) (ht : clock ≤ t) {i : Nat} {called : ℚ}
    {fresh : Bool} (hid : calls i = .waiting called fresh) (hbegun : Begun c.ttl log fresh t) :
    Queued c (Function.update calls i (.resolving called t fresh)) (some i) log t := by
  constructor
  case holder =>
    intro j called' started' fresh' hj
    rcases eq_or_ne j i with rfl | hji
    · rw [Function.update_self] at hj
      cases hj
      exact ⟨rfl, (h.waiting j called fresh hid).trans ht, le_refl _, hbegun⟩
    · rw [Function.update_of_ne hji] at hj
      have hlock := (h.holder j called' started' fresh' hj).1
      cases hlock
  case held =>
    intro j hj
    cases hj
    exact ⟨called, t, fresh, Function.update_self ..⟩
  case waiting =>
    intro j called' fresh' hj
    rcases eq_or_ne j i with rfl | hji
    · rw [Function.update_self] at hj
      cases hj
    · rw [Function.update_of_ne hji] at hj
      exact (h.waiting j called' fresh' hj).trans ht

/-- The holder gives the lock back. -/
theorem Queued.release (h : Queued c calls (some i) log clock) (ht : clock ≤ t) (log' : List Event) :
    Queued c (Function.update calls i .idle) none log' t := by
  have hnone : ∀ j called started fresh,
      Function.update calls i .idle j ≠ .resolving called started fresh := by
    intro j called started fresh hj
    rcases eq_or_ne j i with rfl | hji
    · rw [Function.update_self] at hj
      cases hj
    · rw [Function.update_of_ne hji] at hj
      exact hji (Option.some.inj (h.holder j called started fresh hj).1).symm
  constructor
  case holder => exact fun j called started fresh hj => absurd hj (hnone j called started fresh)
  case held =>
    intro j hj
    cases hj
  case waiting =>
    intro j called' fresh' hj
    rcases eq_or_ne j i with rfl | hji
    · rw [Function.update_self] at hj
      cases hj
    · rw [Function.update_of_ne hji] at hj
      exact (h.waiting j called' fresh' hj).trans ht

theorem init_inv (clock : ℚ) : Inv c { clock } := by
  constructor
  case logged =>
    constructor
    case ordered => exact .nil
    case spaced => trivial
    all_goals simp
  case queued => constructor <;> simp

theorem step_inv {a : Option Answer} (hi : Inv c s) (hs : Step c s a s') : Inv c s' := by
  cases hs with
  | served ht hcached hfresh => exact ⟨hi.logged.later ht, hi.queued.later ht⟩
  | wait fresh ht hid hmiss =>
    refine ⟨hi.logged.later ht, hi.queued.quiet ht (by simp [hid]) (by simp) ?_⟩
    rintro called fresh ⟨⟩
    exact le_refl _
  | recheck ht hid hlock hcached hfresh =>
    exact ⟨hi.logged.later ht, hi.queued.quiet ht (by simp [hid]) (by simp) (by simp)⟩
  | resolve ht hid hlock hmiss =>
    have hqueued := hlock ▸ hi.queued
    exact ⟨hi.logged.later ht, hqueued.take ht hid (hi.logged.begun ht hmiss)⟩
  | complete ht hid hresult =>
    obtain ⟨hlock, hcalled, hstarted, hbegun⟩ := hi.queued.holder _ _ _ _ hid
    have hqueued := hlock ▸ hi.queued
    exact ⟨hi.logged.resolve ht hcalled hstarted hbegun hresult, hqueued.release ht _⟩
  | fail ht hid hresult =>
    have hqueued := (hi.queued.holder _ _ _ _ hid).1 ▸ hi.queued
    exact ⟨hi.logged.later ht, hqueued.release ht _⟩
  | @cancel i _ ht =>
    refine ⟨hi.logged.later ht, ?_⟩
    dsimp only
    split
    · next hlock => exact (hlock ▸ hi.queued).release ht _
    · next hlock =>
      refine hi.queued.quiet ht (fun called started fresh hid => ?_) (by simp) (by simp)
      exact hlock (hi.queued.holder i called started fresh hid).1
  | invalidate ht => exact ⟨hi.logged.invalidate ht, hi.queued.invalidate ht _⟩

theorem reachable_inv (h : Reachable c s) : Inv c s := by
  induction h with
  | init clock => exact init_inv clock
  | step _ hs ih => exact step_inv ih hs

/-! ## What an answer says -/

/-- The resolution an answer comes from: within the time to live, or of the call itself, and after
every invalidation so far. -/
structure From (c : Setup F) (log : List Event) (a : Answer) (g : ServingGeneration) (r : Resolution) :
    Prop where
  result : r.result = g
  resolves : c.Resolves r.started r.finished (.ok g)
  times : r.started ≤ r.finished ∧ r.finished ≤ a.time
  recent : a.called ≤ r.started ∨ a.fresh = false ∧ a.time < r.finished + c.ttl
  valid : ∀ v, .invalidated v ∈ log → v ≤ r.finished

/-- An answer from the cache. -/
theorem Logged.served (h : Logged c gate log clock) (ht : clock ≤ t) {g : ServingGeneration}
    (hcached : gate.cached = some g) (hfresh : gate.fresh c.ttl t = true) (called : ℚ) :
    ∃ r, .resolved r ∈ log ∧ From c log ⟨called, t, false, .ok g⟩ g r := by
  obtain ⟨r, rest, rfl, rfl, hchecked⟩ := h.cached g hcached
  obtain ⟨-, hstarted, hresolves⟩ := h.sound r List.mem_cons_self
  simp only [Gate.fresh, Bool.and_eq_true, decide_eq_true_eq, hchecked] at hfresh
  refine ⟨r, List.mem_cons_self, rfl, hresolves, ⟨hstarted, ?_⟩, .inr ⟨rfl, ?_⟩, ?_⟩
  · exact (h.past _ List.mem_cons_self).trans ht
  · show t < r.finished + c.ttl
    linarith [hfresh.2]
  · intro v hv
    exact List.rel_of_pairwise_cons h.ordered (List.mem_of_ne_of_mem (by simp) hv)

/-- Every answer comes from a logged resolution. -/
theorem answer_from (hi : Inv c s) {a : Answer} (hs : Step c s (some a) s') {g : ServingGeneration}
    (hg : a.result = .ok g) : ∃ r, .resolved r ∈ s'.log ∧ From c s'.log a g r := by
  cases hs with
  | served ht hcached hfresh =>
    cases hg
    exact hi.logged.served ht hcached hfresh _
  | recheck ht hid hlock hcached hfresh =>
    cases hg
    exact hi.logged.served ht hcached hfresh _
  | complete ht hid hresult =>
    cases hg
    obtain ⟨hlock, hcalled, hstarted, hbegun⟩ := hi.queued.holder _ _ _ _ hid
    refine ⟨_, List.mem_cons_self, rfl, hresult, ⟨hstarted.trans ht, le_refl _⟩, .inl hcalled, ?_⟩
    intro v hv
    exact (hi.logged.past _ (List.mem_of_ne_of_mem (by simp) hv)).trans ht
  | fail ht hid hresult => cases hg

/-- A servable answer is the build that served at a moment not before the call, or, where the call
may use the cache, before a resolution that is finished for less than the time to live; and nothing
is answered that was resolved before an invalidation. -/
theorem answer_current (h : Reachable c s) {a : Answer} (hs : Step c s (some a) s')
    {g : ServingGeneration} (hg : a.result = .ok g) (hserves : g.servable = true) {logical : Text}
    {builds : ℚ → List BuildBinding}
    (hpub : Publishing c.uuid5 c.validates logical c.settings c.rulesV c.world builds)
    (hconf : c.settings.qdrantCollection = logical) :
    ∃ r b moment, .resolved r ∈ s'.log ∧ From c s'.log a g r ∧
      r.started ≤ moment ∧ moment ≤ r.finished ∧ (builds moment).getLast? = some b ∧
      g.physical = some b.physical ∧ g.binding = some b := by
  obtain ⟨r, hr, hfrom⟩ := answer_from (reachable_inv h) hs hg
  obtain ⟨see, time, hobs, hresolve⟩ := hfrom.resolves
  obtain ⟨b, hservable⟩ := resolve_servable c.uuid5 c.validates hresolve hserves
  obtain ⟨hstart, hfinish⟩ := hobs.within .target
  exact ⟨r, b, time .target, hr, hfrom, hstart, hfinish, hservable.last hpub hconf hobs,
    hservable.served, hservable.bound⟩

/-- The store of `Serving.swapping`, asked at most every ten seconds. -/
def swappingGate : Setup Empty where
  uuid5 := pointIds
  validates := readManifest
  settings := hashSettings
  rulesV := "r1".toList
  world := swapping
  ttl := 10

/-- A call that missed the cache at time 0 reads the store. -/
def reading : State where
  lock := some 0
  calls := Function.update (Function.update (fun _ => .idle) 0 (.waiting 0 false)) 0
    (.resolving 0 0 false)
  clock := 0

theorem reading_calls : reading.calls 0 = .resolving 0 0 false := by
  simp [reading]

theorem reading_reachable : Reachable swappingGate reading := by
  let queued : State :=
    { calls := Function.update (fun _ => .idle) 0 (.waiting 0 false), clock := 0 }
  have hcalls : queued.calls 0 = .waiting 0 false := by simp [queued]
  have hwait : Step swappingGate { clock := 0 } none queued :=
    .wait false (le_refl 0) rfl (.inr rfl)
  have hresolve : Step swappingGate queued none reading :=
    .resolve (le_refl 0) hcalls rfl (.inr rfl)
  exact .step (.step (.init 0) hwait) hresolve

theorem readTimes_observed :
    Observed swapping 0 2 (fun r => some (swapping (readTimes r))) readTimes := by
  refine ⟨?_, ?_, ?_⟩
  · intro r
    cases r <;> norm_num [readTimes]
  · norm_num [readTimes]
  · rintro r s ⟨⟩
    rfl

/-- The call answers at time 2 with the build that served at some moment of it. -/
theorem answer_current_swapping : ∃ a log g r b moment,
    From swappingGate log a g r ∧ 0 ≤ moment ∧ moment ≤ 2 ∧
      (publishedAt moment).getLast? = some b ∧ g.binding = some b := by
  have hlast : (publishedAt (readTimes .target)).getLast? = some Ingest.AliasSwap.firstBuild := by
    decide +kernel
  obtain ⟨g, hg, hserves⟩ := resolve_last swapping_publishing rfl readTimes_observed ⟨fun _ => rfl⟩
    (by decide +kernel) hlast
  have hclock : reading.clock ≤ 2 := by norm_num [reading]
  have hstep := Step.complete (c := swappingGate) hclock reading_calls
    ⟨_, _, readTimes_observed, hg⟩
  obtain ⟨r, b, moment, hr, hfrom, hstart, hfinish, hlast, -, hbinding⟩ :=
    answer_current reading_reachable hstep rfl hserves swapping_publishing rfl
  cases List.mem_singleton.mp hr
  exact ⟨_, _, g, _, b, moment, hfrom, hstart, hfinish, hlast, hbinding⟩

end MainframeRag.Agent.ServingGate
