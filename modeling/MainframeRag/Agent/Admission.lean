import Mathlib

/-!
# Request admission

`AdmissionController` of `agent/admission.py` under asyncio: a bounded number of slots and a bounded
first-come first-served queue. Calls of `acquire` are numbered in the order they start, and a queued
call's future goes by the number of its call.

A step is what the event loop may run next: a call starts, a waiter resumes, its task is cancelled,
its timer fires, or a ticket is released. Cancelling a task cancels the pending future it awaits;
once the future is done it only marks the task, and the waiter meets the `CancelledError` when it
resumes.
-/

namespace MainframeRag.Agent.Admission

/-! ## State -/

structure Controller where
  maxActive : Nat
  maxQueue : Nat
  queueWaitS : ℚ
  deriving DecidableEq

/-- `AdmissionController.__init__` -/
def Controller.new (maxActive maxQueue : Int) (queueWaitS : ℚ) : Controller where
  maxActive := maxActive.toNat
  maxQueue := maxQueue.toNat
  queueWaitS := max 0 queueWaitS

inductive Reason
  | queueFull
  | queueTimeout
  deriving DecidableEq

/-- An `asyncio.Future`. -/
inductive Fut
  | pending
  | result
  | cancelled
  deriving DecidableEq

/-- A call suspended in `await fut`, with what has been asked of its task. -/
structure Waiter where
  fut : Fut
  started : ℚ
  expired : Bool
  cancelled : Bool
  deriving DecidableEq

inductive Raised
  | rejected (reason : Reason)
  | cancelledError
  deriving DecidableEq

inductive Call
  | waiting (w : Waiter)
  | ticket (held : Bool) (waitedS : ℚ)
  /-- raised; `granted` as `acquire` saw it -/
  | left (granted : Bool) (exc : Raised)
  deriving DecidableEq

structure State where
  active : Int
  waiters : List Nat
  calls : List Call
  deriving DecidableEq

def initial : State := ⟨0, [], []⟩

inductive Event
  | arrive (waitS : Option ℚ) (now : ℚ)
  | resume (n : Nat) (now : ℚ)
  | cancel (n : Nat)
  | expire (n : Nat)
  | release (n : Nat)
  deriving DecidableEq

/-- Holds a slot: an unreleased ticket. -/
def Call.held : Call → Bool
  | .ticket held _ => held
  | _ => false

/-- A slot was handed to it and it has not resumed. -/
def Call.inTransit : Call → Bool
  | .waiting w => w.fut = .result
  | _ => false

def Call.holds (x : Call) : Bool := x.held || x.inTransit

/-- Still in line for a slot. -/
def Call.live : Call → Bool
  | .waiting w => w.fut = .pending
  | _ => false

/-- Got a slot, then or earlier. -/
def Call.obtained : Call → Bool
  | .waiting w => w.fut = .result
  | .ticket _ _ => true
  | .left granted _ => granted

/-- Gone without a slot, or cancelled and not yet resumed. -/
def Call.gone : Call → Bool
  | .waiting w => w.fut = .cancelled
  | .ticket _ _ => false
  | .left granted _ => !granted

def Call.queued : Call → Bool
  | .waiting w => w.fut ≠ .result
  | _ => false

/-! ## Steps -/

def State.setCall (s : State) (n : Nat) (x : Call) : State := { s with calls := s.calls.set n x }

/-- `fut.done()` -/
def done (calls : List Call) (n : Nat) : Bool :=
  match calls[n]? with
  | some x => !x.live
  | none => true

/-- The loop of `_release`: the first waiter whose future is not done, and what is left behind it. -/
def popLive (calls : List Call) : List Nat → Option (Nat × List Nat)
  | [] => none
  | n :: rest => if done calls n then popLive calls rest else some (n, rest)

/-- `fut.set_result(None)` -/
def setResult (calls : List Call) (n : Nat) : List Call :=
  match calls[n]? with
  | some (.waiting w) => calls.set n (.waiting { w with fut := .result })
  | _ => calls

/-- `_release` -/
def releaseSlot (s : State) : State :=
  match popLive s.calls s.waiters with
  | some (n, rest) => { s with waiters := rest, calls := setResult s.calls n }
  | none => { s with waiters := [], active := s.active - 1 }

def State.addCall (s : State) (x : Call) : State := { s with calls := s.calls ++ [x] }

/-- `budget` in `acquire`: how long the call may queue. -/
def Controller.budget (c : Controller) (waitS : Option ℚ) : ℚ :=
  match waitS with
  | none => c.queueWaitS
  | some wait => min c.queueWaitS wait

/-- `acquire` up to its `await`. -/
def acquire (c : Controller) (s : State) (waitS : Option ℚ) (now : ℚ) : State :=
  if c.maxActive = 0 then s.addCall (.ticket false 0)
  else if s.active < c.maxActive ∧ s.waiters = [] then
    { s.addCall (.ticket true 0) with active := s.active + 1 }
  else if c.maxQueue ≤ s.waiters.length then s.addCall (.left false (.rejected .queueFull))
  else if c.budget waitS ≤ 0 then s.addCall (.left false (.rejected .queueTimeout))
  else
    { s.addCall (.waiting ⟨.pending, now, false, false⟩) with
      waiters := s.waiters ++ [s.calls.length] }

/-- What leaves `asyncio.timeout`: a `TimeoutError` unless the task was cancelled from elsewhere too. -/
def Waiter.raised (w : Waiter) : Raised :=
  if w.expired && !w.cancelled then .rejected .queueTimeout else .cancelledError

/-- `acquire` from its `await` on. -/
def resume (s : State) (n : Nat) (now : ℚ) : State :=
  match s.calls[n]? with
  | some (.waiting w) =>
    match w.fut with
    | .pending => s
    | .result =>
      if w.expired || w.cancelled then (releaseSlot s).setCall n (.left true w.raised)
      else s.setCall n (.ticket true (now - w.started))
    | .cancelled => { s with waiters := s.waiters.erase n }.setCall n (.left false w.raised)
  | _ => s

/-- `Future.cancel` -/
def Fut.cancel : Fut → Fut
  | .pending => .cancelled
  | fut => fut

/-- `task.cancel()` on a call suspended in `await fut`. -/
def cancelTask (s : State) (n : Nat) (mark : Waiter → Waiter) : State :=
  match s.calls[n]? with
  | some (.waiting w) => s.setCall n (.waiting { mark w with fut := w.fut.cancel })
  | _ => s

/-- `AdmissionTicket.release` -/
def release (s : State) (n : Nat) : State :=
  match s.calls[n]? with
  | some (.ticket true waited) => releaseSlot (s.setCall n (.ticket false waited))
  | _ => s

def step (c : Controller) (s : State) : Event → State
  | .arrive waitS now => acquire c s waitS now
  | .resume n now => resume s n now
  | .cancel n => cancelTask s n fun w => { w with cancelled := true }
  | .expire n => cancelTask s n fun w => { w with expired := true }
  | .release n => release s n

def run (c : Controller) (events : List Event) : State := events.foldl (step c) initial

/-! ## The invariant -/

/-- What every reachable state keeps. `d` slots are counted but held by no call: it is zero between
steps, and off by one inside a release. -/
structure Inv (c : Controller) (d : Int) (s : State) : Prop where
  counted : s.active = s.calls.countP Call.holds + d
  bounded : s.active ≤ c.maxActive
  short : s.waiters.length ≤ c.maxQueue
  full : s.waiters ≠ [] → s.active = c.maxActive
  queued : ∀ n ∈ s.waiters, ∃ x, s.calls[n]? = some x ∧ x.queued
  listed : ∀ n x, s.calls[n]? = some x → x.live → n ∈ s.waiters
  ordered : s.waiters.Pairwise (· < ·)
  /-- no call overtakes a live one -/
  fifo : ∀ (a b : Nat) (x y : Call), a < b → s.calls[a]? = some x → s.calls[b]? = some y → x.live →
    y.obtained = false

variable {c : Controller} {d : Int} {s : State}

theorem inv_initial (c : Controller) : Inv c 0 initial where
  counted := rfl
  bounded := by simp [initial]
  short := by simp [initial]
  full h := absurd rfl h
  queued n hn := by simp [initial] at hn
  listed n x h := by simp [initial] at h
  ordered := .nil
  fifo a b x y _ h := by simp [initial] at h

/-- One slot for a call that holds one. -/
def Call.slots (x : Call) : Nat := if x.holds then 1 else 0

theorem countP_set {calls : List Call} {n : Nat} {x : Call} (hx : calls[n]? = some x) (y : Call) :
    (calls.set n y).countP Call.holds + x.slots = calls.countP Call.holds + y.slots := by
  obtain ⟨hn, hget⟩ := List.getElem?_eq_some_iff.mp hx
  have hpos : x.slots ≤ calls.countP Call.holds := by
    simp only [Call.slots]
    split
    · rename_i h
      exact List.countP_pos_iff.mpr ⟨x, List.mem_of_getElem? hx, h⟩
    · exact Nat.zero_le _
  rw [List.countP_set hn, hget]
  simp only [Call.slots] at hpos ⊢
  omega

theorem getElem?_set_cases {calls : List Call} {n m : Nat} {y z : Call}
    (h : (calls.set n y)[m]? = some z) : (n = m ∧ z = y) ∨ (n ≠ m ∧ calls[m]? = some z) := by
  rw [List.getElem?_set] at h
  split at h
  · rename_i e
    split at h
    · exact .inl ⟨e, (Option.some.inj h).symm⟩
    · cases h
  · rename_i e
    exact .inr ⟨e, h⟩

/-- A call that changes without entering the line and without getting a slot. -/
theorem Inv.setCall (h : Inv c d s) {n : Nat} {x y : Call} (hx : s.calls[n]? = some x)
    (hlive : y.live = false) (hob : y.obtained → x.obtained) (hq : n ∈ s.waiters → y.queued) :
    Inv c (d + x.slots - y.slots) (s.setCall n y) where
  counted := by
    have := countP_set hx y
    have := h.counted
    simp only [State.setCall]
    omega
  bounded := h.bounded
  short := h.short
  full := h.full
  queued m hm := by
    obtain ⟨z, hz, hzq⟩ := h.queued m hm
    by_cases e : n = m
    · subst e
      exact ⟨y, by simp [State.setCall, (List.getElem?_eq_some_iff.mp hx).1], hq hm⟩
    · exact ⟨z, by simpa [State.setCall, List.getElem?_set, e] using hz, hzq⟩
  listed m z hz hzl := by
    rcases getElem?_set_cases hz with ⟨-, rfl⟩ | ⟨-, hz⟩
    · rw [hlive] at hzl
      cases hzl
    · exact h.listed m z hz hzl
  ordered := h.ordered
  fifo a b u v hab hu hv hul := by
    rcases getElem?_set_cases hu with ⟨-, rfl⟩ | ⟨-, hu'⟩
    · rw [hlive] at hul
      cases hul
    rcases getElem?_set_cases hv with ⟨rfl, rfl⟩ | ⟨-, hv'⟩
    · have := h.fifo a n u x hab hu' hx hul
      cases ho : v.obtained
      · rfl
      · rw [hob ho] at this
        cases this
    · exact h.fifo a b u v hab hu' hv' hul

/-! ## Releasing a slot -/

theorem popLive_none {calls : List Call} {waiters : List Nat} (h : popLive calls waiters = none) :
    ∀ n ∈ waiters, done calls n := by
  induction waiters with
  | nil => simp
  | cons n rest ih =>
    simp only [popLive] at h
    split at h
    · rename_i hd
      intro m hm
      rcases List.mem_cons.mp hm with rfl | hm
      · exact hd
      · exact ih h m hm
    · cases h

theorem popLive_some {calls : List Call} {waiters rest : List Nat} {n : Nat}
    (h : popLive calls waiters = some (n, rest)) :
    ∃ before, waiters = before ++ n :: rest ∧ (∀ m ∈ before, done calls m) ∧
      done calls n = false := by
  induction waiters with
  | nil => cases h
  | cons m more ih =>
    simp only [popLive] at h
    split at h
    · rename_i hd
      obtain ⟨before, rfl, hb, hn⟩ := ih h
      refine ⟨m :: before, rfl, ?_, hn⟩
      intro k hk
      rcases List.mem_cons.mp hk with rfl | hk
      · exact hd
      · exact hb k hk
    · rename_i hd
      simp only [Option.some.injEq, Prod.mk.injEq] at h
      obtain ⟨rfl, rfl⟩ := h
      exact ⟨[], rfl, by simp, by simpa using hd⟩

theorem live_of_not_done {calls : List Call} {n : Nat} (h : done calls n = false) :
    ∃ w, calls[n]? = some (.waiting w) ∧ w.fut = .pending := by
  unfold done at h
  split at h
  · rename_i x hx
    cases x with
    | waiting w => exact ⟨w, hx, by simpa [Call.live] using h⟩
    | ticket held waited => cases h
    | left granted exc => cases h
  · cases h

/-- No call is live once the line has no pending future. -/
theorem Inv.no_live (h : Inv c d s) (hnone : ∀ n ∈ s.waiters, done s.calls n) (n : Nat) (x : Call)
    (hx : s.calls[n]? = some x) : x.live = false := by
  cases hl : x.live
  · rfl
  · have := hnone n (h.listed n x hx hl)
    simp only [done, hx, hl] at this
    cases this

theorem releaseSlot_none (hp : popLive s.calls s.waiters = none) :
    releaseSlot s = { s with waiters := [], active := s.active - 1 } := by
  simp only [releaseSlot, hp]

theorem releaseSlot_some {n : Nat} {rest : List Nat} {w : Waiter}
    (hp : popLive s.calls s.waiters = some (n, rest)) (hn : s.calls[n]? = some (.waiting w)) :
    releaseSlot s =
      { s.setCall n (.waiting { w with fut := .result }) with waiters := rest } := by
  simp only [releaseSlot, hp, setResult, hn, State.setCall]

/-- Releasing takes one slot away from those counted, or hands it to the longest live waiter. -/
theorem Inv.releaseSlot (h : Inv c d s) : Inv c (d - 1) (releaseSlot s) := by
  cases hp : popLive s.calls s.waiters with
  | none =>
    have hdead := h.no_live (popLive_none hp)
    rw [releaseSlot_none hp]
    constructor
    case counted =>
      have := h.counted
      show s.active - 1 = s.calls.countP Call.holds + (d - 1)
      omega
    case bounded =>
      have := h.bounded
      show s.active - 1 ≤ _
      omega
    case short => simp
    case full => simp
    case queued => simp
    case listed =>
      intro n x hx hl
      rw [hdead n x hx] at hl
      cases hl
    case ordered => exact .nil
    case fifo => exact h.fifo
  | some r =>
    obtain ⟨n, rest⟩ := r
    obtain ⟨before, hw, hbefore, hn⟩ := popLive_some hp
    obtain ⟨w, hcall, hfut⟩ := live_of_not_done hn
    have hord := h.ordered
    rw [hw, List.pairwise_append] at hord
    obtain ⟨-, hord, hfront⟩ := hord
    have hnr : n ∉ rest := fun hm => absurd (List.rel_of_pairwise_cons hord hm) (Nat.lt_irrefl n)
    have hset := fun {m z} => @getElem?_set_cases s.calls n m (.waiting { w with fut := .result }) z
    rw [releaseSlot_some hp hcall]
    constructor
    case counted =>
      have := countP_set hcall (.waiting { w with fut := .result })
      have := h.counted
      simp only [State.setCall]
      simp [Call.slots, Call.holds, Call.held, Call.inTransit, hfut] at *
      omega
    case bounded => exact h.bounded
    case short =>
      have := h.short
      simp only [hw, List.length_append, List.length_cons] at this
      show rest.length ≤ _
      omega
    case full =>
      intro _
      exact h.full (by simp [hw])
    case queued =>
      intro m hm
      obtain ⟨z, hz, hzq⟩ := h.queued m (by simp only [hw, List.mem_append, List.mem_cons]; tauto)
      have hnm : n ≠ m := fun e => hnr (e ▸ hm)
      exact ⟨z, by simpa [State.setCall, List.getElem?_set, hnm] using hz, hzq⟩
    case listed =>
      intro m z hz hzl
      rcases hset hz with ⟨-, rfl⟩ | ⟨hnm, hz⟩
      · simp [Call.live] at hzl
      · have hm := h.listed m z hz hzl
        rw [hw, List.mem_append, List.mem_cons] at hm
        rcases hm with hm | rfl | hm
        · have := hbefore m hm
          simp [done, hz, hzl] at this
        · exact absurd rfl hnm
        · exact hm
    case ordered => exact hord.tail
    case fifo =>
      intro a b u v hab hu hv hul
      rcases hset hu with ⟨-, rfl⟩ | ⟨-, hu'⟩
      · simp [Call.live] at hul
      rcases hset hv with ⟨rfl, rfl⟩ | ⟨-, hv'⟩
      · -- a live call before `n` would stand in front of it in the line
        have hm := h.listed a u hu' hul
        rw [hw, List.mem_append, List.mem_cons] at hm
        rcases hm with hm | rfl | hm
        · have := hbefore a hm
          simp [done, hu', hul] at this
        · omega
        · have := List.rel_of_pairwise_cons hord hm
          omega
      · exact h.fifo a b u v hab hu' hv' hul

/-! ## Each step keeps it -/

theorem getElem?_addCall {m : Nat} {x z : Call} (h : (s.addCall x).calls[m]? = some z) :
    s.calls[m]? = some z ∨ (m = s.calls.length ∧ z = x) := by
  simp only [State.addCall, List.getElem?_append] at h
  split at h
  · exact .inl h
  · rename_i hm
    rcases Nat.eq_or_lt_of_le (Nat.le_of_not_lt hm) with e | e
    · simp only [e, Nat.sub_self, List.getElem?_cons_zero, Option.some.injEq] at h
      exact .inr ⟨e.symm, h.symm⟩
    · rw [List.getElem?_eq_none (by simp; omega)] at h
      cases h

theorem lt_of_getElem? {m : Nat} {z : Call} (h : s.calls[m]? = some z) : m < s.calls.length :=
  (List.getElem?_eq_some_iff.mp h).1

/-- A call that starts and does not queue; it may take a slot only past an empty line. -/
theorem Inv.addCall (h : Inv c d s) {x : Call} (hlive : x.live = false)
    (hob : x.obtained → s.waiters = []) : Inv c (d - x.slots) (s.addCall x) where
  counted := by
    have := h.counted
    simp only [State.addCall, List.countP_append, List.countP_singleton, Call.slots] at *
    omega
  bounded := h.bounded
  short := h.short
  full := h.full
  queued n hn := by
    obtain ⟨z, hz, hzq⟩ := h.queued n hn
    refine ⟨z, ?_, hzq⟩
    simpa [State.addCall, List.getElem?_append_left (lt_of_getElem? hz)] using hz
  listed n z hz hzl := by
    rcases getElem?_addCall hz with hz | ⟨-, rfl⟩
    · exact h.listed n z hz hzl
    · rw [hlive] at hzl
      cases hzl
  ordered := h.ordered
  fifo a b u v hab hu hv hul := by
    rcases getElem?_addCall hu with hu' | ⟨-, rfl⟩
    · rcases getElem?_addCall hv with hv' | ⟨-, rfl⟩
      · exact h.fifo a b u v hab hu' hv' hul
      · cases ho : v.obtained
        · rfl
        · have := h.listed a u hu' hul
          rw [hob ho] at this
          cases this
    · rw [hlive] at hul
      cases hul

/-- A slot taken straight away. -/
theorem Inv.takeSlot (h : Inv c d s) (hfree : s.active < c.maxActive) (hidle : s.waiters = []) :
    Inv c (d + 1) { s with active := s.active + 1 } where
  counted := by
    have := h.counted
    show s.active + 1 = s.calls.countP Call.holds + (d + 1)
    omega
  bounded := by
    show s.active + 1 ≤ c.maxActive
    omega
  short := h.short
  full hne := absurd hidle hne
  queued := h.queued
  listed := h.listed
  ordered := h.ordered
  fifo := h.fifo

/-- The call that joins the line. -/
theorem Inv.enqueue (h : Inv c d s) {w : Waiter} (hw : w.fut = .pending)
    (hbusy : ¬ (s.active < c.maxActive ∧ s.waiters = []))
    (hroom : s.waiters.length < c.maxQueue) :
    Inv c d { s.addCall (.waiting w) with waiters := s.waiters ++ [s.calls.length] } where
  counted := by
    have := h.counted
    simp [State.addCall, List.countP_append, Call.holds, Call.held, Call.inTransit, hw, this]
  bounded := h.bounded
  short := by
    simp only [List.length_append, List.length_singleton]
    omega
  full _ := by
    show s.active = c.maxActive
    have := h.bounded
    by_cases hw : s.waiters = []
    · have : ¬ s.active < c.maxActive := fun hlt => hbusy ⟨hlt, hw⟩
      omega
    · exact h.full hw
  queued n hn := by
    rcases List.mem_append.mp hn with hn | hn
    · obtain ⟨z, hz, hzq⟩ := h.queued n hn
      refine ⟨z, ?_, hzq⟩
      simpa [State.addCall, List.getElem?_append_left (lt_of_getElem? hz)] using hz
    · obtain rfl := List.mem_singleton.mp hn
      exact ⟨.waiting w, by simp [State.addCall], by simp [Call.queued, hw]⟩
  listed n z hz hzl := by
    rcases getElem?_addCall hz with hz | ⟨rfl, rfl⟩
    · exact List.mem_append_left _ (h.listed n z hz hzl)
    · simp
  ordered := by
    refine List.pairwise_append.mpr ⟨h.ordered, List.pairwise_singleton _ _, ?_⟩
    intro n hn m hm
    obtain rfl := List.mem_singleton.mp hm
    obtain ⟨z, hz, -⟩ := h.queued n hn
    exact lt_of_getElem? hz
  fifo a b u v hab hu hv hul := by
    rcases getElem?_addCall hv with hv | ⟨-, rfl⟩
    · rcases getElem?_addCall hu with hu | ⟨rfl, -⟩
      · exact h.fifo a b u v hab hu hv hul
      · have := lt_of_getElem? hv
        omega
    · simp [Call.obtained, hw]

/-- A waiter whose future is done takes itself out of the line. -/
theorem Inv.unqueue (h : Inv c d s) {n : Nat} {x : Call} (hx : s.calls[n]? = some x)
    (hlive : x.live = false) : Inv c d { s with waiters := s.waiters.erase n } where
  counted := h.counted
  bounded := h.bounded
  short := Nat.le_trans (List.length_erase_le) h.short
  full hne := h.full fun hnil => hne (by simp [hnil])
  queued m hm := h.queued m (List.mem_of_mem_erase hm)
  listed m z hz hzl := by
    have hnm : m ≠ n := by
      rintro rfl
      rw [hx, Option.some.injEq] at hz
      rw [← hz, hlive] at hzl
      cases hzl
    exact (List.mem_erase_of_ne hnm).mpr (h.listed m z hz hzl)
  ordered := h.ordered.sublist (List.erase_sublist)
  fifo := h.fifo

theorem Inv.not_queued (h : Inv c d s) {n : Nat} {x : Call} (hx : s.calls[n]? = some x)
    (hq : x.queued = false) : n ∉ s.waiters := by
  intro hn
  obtain ⟨z, hz, hzq⟩ := h.queued n hn
  rw [hx, Option.some.injEq] at hz
  rw [← hz, hq] at hzq
  cases hzq

/-- `releaseSlot` leaves alone what is not in line. -/
theorem Inv.releaseSlot_call (h : Inv c d s) {n : Nat} {x : Call} (hx : s.calls[n]? = some x)
    (hq : x.queued = false) :
    (Admission.releaseSlot s).calls[n]? = some x ∧ n ∉ (Admission.releaseSlot s).waiters := by
  have hn := h.not_queued hx hq
  cases hp : popLive s.calls s.waiters with
  | none =>
    rw [releaseSlot_none hp]
    exact ⟨hx, List.not_mem_nil⟩
  | some r =>
    obtain ⟨m, rest⟩ := r
    obtain ⟨before, hw, -, hm⟩ := popLive_some hp
    obtain ⟨w, hcall, -⟩ := live_of_not_done hm
    rw [hw, List.mem_append, List.mem_cons, not_or, not_or] at hn
    rw [releaseSlot_some hp hcall]
    refine ⟨?_, hn.2.2⟩
    simpa [State.setCall, List.getElem?_set, Ne.symm hn.2.1] using hx

theorem Inv.acquire (h : Inv c 0 s) (hpos : 0 < c.maxActive) (waitS : Option ℚ) (now : ℚ) :
    Inv c 0 (acquire c s waitS now) := by
  have hrejected : ∀ reason, Inv c 0 (s.addCall (.left false (.rejected reason))) := by
    intro reason
    simpa [Call.slots, Call.holds, Call.held, Call.inTransit] using
      h.addCall (x := .left false (.rejected reason)) rfl nofun
  unfold Admission.acquire
  rw [if_neg (by omega)]
  split
  · rename_i hfree
    have := (h.takeSlot hfree.1 hfree.2).addCall (x := .ticket true 0) rfl fun _ => hfree.2
    simpa [Call.slots, Call.holds, Call.held, State.addCall] using this
  · rename_i hbusy
    split
    · exact hrejected _
    · rename_i hroom
      split
      · exact hrejected _
      · exact h.enqueue rfl hbusy (by omega)

theorem Inv.resume (h : Inv c 0 s) (n : Nat) (now : ℚ) : Inv c 0 (resume s n now) := by
  unfold Admission.resume
  split
  · rename_i w hx
    cases hfut : w.fut with
    | pending => exact h
    | result =>
      have hq : (Call.waiting w).queued = false := by simp [Call.queued, hfut]
      dsimp only
      split
      · obtain ⟨hx', hn⟩ := h.releaseSlot_call hx hq
        have := h.releaseSlot.setCall (y := .left true w.raised) hx' rfl
          (fun _ => by simp [Call.obtained, hfut]) (fun hm => absurd hm hn)
        simpa [Call.slots, Call.holds, Call.held, Call.inTransit, hfut] using this
      · have := h.setCall (y := .ticket true (now - w.started)) hx rfl
          (fun _ => by simp [Call.obtained, hfut]) (fun hm => absurd hm (h.not_queued hx hq))
        simpa [Call.slots, Call.holds, Call.held, Call.inTransit, hfut] using this
    | cancelled =>
      have hnodup : s.waiters.Nodup := h.ordered.imp fun hlt => Nat.ne_of_lt hlt
      have := (h.unqueue hx (by simp [Call.live, hfut])).setCall (y := .left false w.raised) hx
        rfl nofun (fun hm => absurd hm hnodup.not_mem_erase)
      simpa [Call.slots, Call.holds, Call.held, Call.inTransit, hfut] using this
  · exact h

theorem Inv.cancelTask (h : Inv c 0 s) (n : Nat) (mark : Waiter → Waiter) :
    Inv c 0 (cancelTask s n mark) := by
  unfold Admission.cancelTask
  split
  · rename_i w hx
    have := h.setCall (y := .waiting { mark w with fut := w.fut.cancel }) hx
    cases hfut : w.fut <;>
      simp [Call.slots, Call.holds, Call.held, Call.inTransit, Call.live, Call.obtained,
        Call.queued, Fut.cancel, hfut] at this ⊢
    case pending => exact this
    case result => exact this (h.not_queued hx (by simp [Call.queued, hfut]))
    case cancelled => exact this
  · exact h

theorem Inv.release (h : Inv c 0 s) (n : Nat) : Inv c 0 (release s n) := by
  unfold Admission.release
  split
  · rename_i waited hx
    have := h.setCall (y := .ticket false waited) hx rfl (fun _ => rfl)
      (fun hm => absurd hm (h.not_queued hx rfl))
    simpa [Call.slots, Call.holds, Call.held, Call.inTransit] using this.releaseSlot
  · exact h

theorem Inv.step (h : Inv c 0 s) (hpos : 0 < c.maxActive) (e : Event) : Inv c 0 (step c s e) := by
  cases e with
  | arrive waitS now => exact h.acquire hpos waitS now
  | resume n now => exact h.resume n now
  | cancel n => exact h.cancelTask n _
  | expire n => exact h.cancelTask n _
  | release n => exact h.release n

theorem Inv.foldl (hpos : 0 < c.maxActive) (events : List Event) :
    ∀ {s}, Inv c 0 s → Inv c 0 (events.foldl (Admission.step c) s) := by
  induction events with
  | nil => exact id
  | cons e events ih =>
    intro s h
    exact ih (h.step hpos e)

theorem inv_run (hpos : 0 < c.maxActive) (events : List Event) : Inv c 0 (run c events) :=
  Inv.foldl hpos events (inv_initial c)

/-! ## Slots are conserved -/

/-- `acquire` has not returned or raised yet. -/
def Call.isWaiting : Call → Bool
  | .waiting _ => true
  | _ => false

theorem Call.holds_of_not_waiting {x : Call} (hheld : x.held = false) (hw : x.isWaiting = false) :
    x.holds = false := by
  cases x with
  | waiting w => cases hw
  | ticket held waited => simpa [Call.holds, Call.inTransit] using hheld
  | left granted exc => rfl

/-- A ticket is not in transit. -/
theorem countP_holds (calls : List Call) :
    calls.countP Call.holds = calls.countP Call.held + calls.countP Call.inTransit := by
  induction calls with
  | nil => rfl
  | cons x calls ih =>
    simp only [List.countP_cons, ih]
    cases x with
    | waiting w =>
      have : (Call.waiting w).holds = (Call.waiting w).inTransit := Bool.false_or _
      simp only [this, show (Call.waiting w).held = false from rfl]
      simp only [Bool.false_eq_true, if_false]
      omega
    | ticket held waited =>
      have : (Call.ticket held waited).holds = held := Bool.or_false _
      simp only [this, show (Call.ticket held waited).held = held from rfl,
        show (Call.ticket held waited).inTransit = false from rfl]
      simp only [Bool.false_eq_true, if_false]
      omega
    | left granted exc => rfl

/-- After every interleaving `_active` counts the unreleased tickets and the slots in transit, within
the bounds, and nothing is leaked. -/
theorem slots_conserved (c : Controller) (hpos : 0 < c.maxActive) (events : List Event) :
    let s := run c events
    s.active = s.calls.countP Call.held + s.calls.countP Call.inTransit ∧
    0 ≤ s.active ∧ s.active ≤ c.maxActive ∧
    s.waiters.length ≤ c.maxQueue ∧
    (s.waiters ≠ [] → s.active = c.maxActive) ∧
    ((∀ x ∈ s.calls, x.held = false) → (∀ x ∈ s.calls, x.isWaiting = false) → s.active = 0) := by
  intro s
  have h : Inv c 0 s := inv_run hpos events
  have hc := h.counted
  have hsplit := countP_holds s.calls
  refine ⟨by omega, by omega, h.bounded, h.short, h.full, ?_⟩
  intro hheld hwaiting
  have hnone : s.calls.countP Call.holds = 0 := by
    refine List.countP_eq_zero.mpr fun x hx => ?_
    simp [Call.holds_of_not_waiting (hheld x hx) (hwaiting x hx)]
  omega

/-- A waiter is handed the only slot, cancelled before it resumes, and gives the slot back. -/
def handBack : List Event :=
  [.arrive none 0, .arrive none 1, .release 0, .cancel 1, .release 0, .resume 1 2]

theorem slots_conserved_handBack : (run ⟨1, 1, 30⟩ handBack).active = 0 :=
  (slots_conserved ⟨1, 1, 30⟩ Nat.one_pos handBack).2.2.2.2.2 (by decide +kernel)
    (by decide +kernel)

/-! ## First come, first served -/

theorem Call.obtained_or_gone {x : Call} (h : x.live = false) : x.obtained ∨ x.gone := by
  cases x with
  | waiting w =>
    cases hfut : w.fut with
    | pending => simp [Call.live, hfut] at h
    | result => exact .inl (by simp [Call.obtained, hfut])
    | cancelled => exact .inr (by simp [Call.gone, hfut])
  | ticket held waited => exact .inl rfl
  | left granted exc =>
    cases granted with
    | true => exact .inl rfl
    | false => exact .inr rfl

/-- Whatever got its slot between `s` and `s'` got it past no live call. -/
def InTurn (s s' : State) : Prop :=
  ∀ (b : Nat) (y : Call), s'.calls[b]? = some y → y.obtained →
    (∃ y₀ : Call, s.calls[b]? = some y₀ ∧ y₀.obtained) ∨
      ∀ (a : Nat) (x : Call), a < b → s.calls[a]? = some x → x.live = false

theorem InTurn.refl (s : State) : InTurn s s := fun _ y hy ho => .inl ⟨y, hy, ho⟩

theorem InTurn.setCall {s' : State} (h : InTurn s s') {n : Nat} {x y : Call}
    (hx : s'.calls[n]? = some x) (hob : y.obtained → x.obtained) : InTurn s (s'.setCall n y) := by
  intro b z hz ho
  rcases getElem?_set_cases hz with ⟨rfl, rfl⟩ | ⟨-, hz'⟩
  · exact h n x hx (hob ho)
  · exact h b z hz' ho

theorem Inv.addCall_inTurn (h : Inv c d s) {x : Call} (hob : x.obtained → s.waiters = []) :
    InTurn s (s.addCall x) := by
  intro b z hz ho
  rcases getElem?_addCall hz with hz | ⟨-, rfl⟩
  · exact .inl ⟨z, hz, ho⟩
  · refine .inr fun a u _ hu => ?_
    cases hl : u.live
    · rfl
    · have := h.listed a u hu hl
      rw [hob ho] at this
      cases this

theorem Inv.releaseSlot_inTurn (h : Inv c d s) : InTurn s (Admission.releaseSlot s) := by
  intro b z hz ho
  cases hp : popLive s.calls s.waiters with
  | none =>
    rw [releaseSlot_none hp] at hz
    exact .inl ⟨z, hz, ho⟩
  | some r =>
    obtain ⟨n, rest⟩ := r
    obtain ⟨before, hw, hbefore, hn⟩ := popLive_some hp
    obtain ⟨w, hcall, hfut⟩ := live_of_not_done hn
    rw [releaseSlot_some hp hcall] at hz
    rcases getElem?_set_cases hz with ⟨rfl, -⟩ | ⟨-, hz'⟩
    · refine .inr fun a u hab hu => ?_
      -- a live call in front of `n` would have been popped instead
      cases hl : u.live
      · rfl
      · have hord := h.ordered
        have hm := h.listed a u hu hl
        rw [hw, List.pairwise_append] at hord
        rw [hw, List.mem_append, List.mem_cons] at hm
        rcases hm with hm | rfl | hm
        · have := hbefore a hm
          simp [done, hu, hl] at this
        · omega
        · have := List.rel_of_pairwise_cons hord.2.1 hm
          omega
    · exact .inl ⟨z, hz', ho⟩

theorem Inv.acquire_inTurn (h : Inv c 0 s) (hpos : 0 < c.maxActive) (waitS : Option ℚ) (now : ℚ) :
    InTurn s (Admission.acquire c s waitS now) := by
  unfold Admission.acquire
  rw [if_neg (by omega)]
  split
  · rename_i hfree
    exact h.addCall_inTurn fun _ => hfree.2
  · split
    · exact h.addCall_inTurn nofun
    · split
      · exact h.addCall_inTurn nofun
      · exact h.addCall_inTurn nofun

theorem Inv.resume_inTurn (h : Inv c 0 s) (n : Nat) (now : ℚ) :
    InTurn s (Admission.resume s n now) := by
  unfold Admission.resume
  split
  · rename_i w hx
    cases hfut : w.fut with
    | pending => exact .refl s
    | result =>
      have hob : (Call.waiting w).obtained := by simp [Call.obtained, hfut]
      dsimp only
      split
      · have hx' := h.releaseSlot_call hx (by simp [Call.queued, hfut])
        exact h.releaseSlot_inTurn.setCall hx'.1 fun _ => hob
      · exact (InTurn.refl s).setCall hx fun _ => hob
    | cancelled =>
      have hsame : InTurn s { s with waiters := s.waiters.erase n } := .refl s
      exact hsame.setCall hx nofun
  · exact .refl s

theorem cancelTask_inTurn (s : State) (n : Nat) (mark : Waiter → Waiter) :
    InTurn s (cancelTask s n mark) := by
  unfold cancelTask
  split
  · rename_i w hx
    refine (InTurn.refl s).setCall hx ?_
    cases hfut : w.fut <;> simp [Call.obtained, Fut.cancel, hfut]
  · exact .refl s

theorem Inv.release_inTurn (h : Inv c 0 s) (n : Nat) : InTurn s (Admission.release s n) := by
  unfold Admission.release
  split
  · rename_i waited hx
    have h' := h.setCall (y := .ticket false waited) hx rfl (fun _ => rfl)
      (fun hm => absurd hm (h.not_queued hx rfl))
    intro b z hz ho
    rcases h'.releaseSlot_inTurn b z hz ho with ⟨y, hy, hyo⟩ | hlive
    · exact (InTurn.refl s).setCall hx (fun _ => rfl) b y hy hyo
    · refine .inr fun a u hab hu => ?_
      by_cases e : n = a
      · subst e
        rw [hx, Option.some.injEq] at hu
        rw [← hu]
        rfl
      · exact hlive a u hab (by simpa [State.setCall, List.getElem?_set, e] using hu)
  · exact .refl s

theorem Inv.step_inTurn (h : Inv c 0 s) (hpos : 0 < c.maxActive) (e : Event) :
    InTurn s (Admission.step c s e) := by
  cases e with
  | arrive waitS now => exact h.acquire_inTurn hpos waitS now
  | resume n now => exact h.resume_inTurn n now
  | cancel n => exact cancelTask_inTurn s n _
  | expire n => exact cancelTask_inTurn s n _
  | release n => exact h.release_inTurn n

/-- `a` stands before `b` in every reachable state: when `b` has a slot, or is just given one, `a` got
one or left. An arrival passes no live waiter, and no live waiter queues beside a free slot. -/
theorem first_come_first_served (c : Controller) (hpos : 0 < c.maxActive) (events : List Event) :
    let s := run c events
    (∀ (a b : Nat) (x y : Call), a < b → s.calls[a]? = some x → s.calls[b]? = some y →
      y.obtained → x.obtained ∨ x.gone) ∧
    (∀ (e : Event) (a b : Nat) (x y y' : Call), a < b → s.calls[a]? = some x →
      s.calls[b]? = some y → y.obtained = false → (step c s e).calls[b]? = some y' →
      y'.obtained → x.obtained ∨ x.gone) ∧
    (∀ (waitS : Option ℚ) (now : ℚ) (held : Bool) (waited : ℚ),
      (step c s (.arrive waitS now)).calls[s.calls.length]? = some (.ticket held waited) →
      ∀ x ∈ s.calls, x.live = false) ∧
    (∀ x ∈ s.calls, x.live → ¬ s.active < c.maxActive) := by
  intro s
  have h : Inv c 0 s := inv_run hpos events
  refine ⟨?_, ?_, ?_, ?_⟩
  · intro a b x y hab hx hy ho
    cases hl : x.live
    · exact Call.obtained_or_gone hl
    · rw [h.fifo a b x y hab hx hy hl] at ho
      cases ho
  · intro e a b x y y' hab hx hy hno hy' ho
    rcases h.step_inTurn hpos e b y' hy' ho with ⟨y₀, hy₀, ho₀⟩ | hlive
    · rw [hy, Option.some.injEq] at hy₀
      rw [← hy₀, hno] at ho₀
      cases ho₀
    · exact Call.obtained_or_gone (hlive a x hab hx)
  · intro waitS now held waited hnew x hx
    obtain ⟨a, ha, rfl⟩ := List.getElem_of_mem hx
    rcases h.step_inTurn hpos (.arrive waitS now) _ _ hnew rfl with ⟨y, hy, -⟩ | hlive
    · exact absurd (lt_of_getElem? hy) (Nat.lt_irrefl _)
    · exact hlive a _ ha (List.getElem?_eq_getElem ha)
  · intro x hx hl hfree
    obtain ⟨a, ha, rfl⟩ := List.getElem_of_mem hx
    have hm := h.listed a _ (List.getElem?_eq_getElem ha) hl
    have := h.full (List.ne_nil_of_mem hm)
    omega

/-- In `handBack` the second call is given the slot once the first has had it. -/
theorem first_come_first_served_handBack :
    (Call.ticket false 0).obtained ∨ (Call.ticket false 0).gone :=
  (first_come_first_served ⟨1, 1, 30⟩ Nat.one_pos handBack).1 0 1 (.ticket false 0)
    (.left true .cancelledError) Nat.one_pos (by decide +kernel) (by decide +kernel) rfl

end MainframeRag.Agent.Admission
