import MainframeRag.Lib.PyJson
import Mathlib.Data.List.Range

/-!
# Feedback client

`FeedbackClient` of `feedback/client.py`: answer records pass through a bounded queue to one drain
task, and `aclose` empties what is left. A step is what a task does between two suspensions; the
drain task may be cancelled in each of them, and the wait of `aclose` may end at any time.

A record is its number. `counts` notes for whom each outcome was counted; every record is counted
once when `aclose` returns (`submissions_accounted`).
-/

namespace MainframeRag.Feedback.Client

open PyText PyJson

variable {F : Type}

inductive Outcome
  | recorded
  | duplicate
  | failed
  | dropped
  deriving DecidableEq

/-! ## A delivery -/

/-- What the post comes to. A response has a status and a body, `none` where it is not JSON; any
exception of the post or of reading the body ends the delivery. -/
inductive Delivery (F : Type)
  | response (status : Int) (body : Option (Json F))
  | raised

/-- `_json_object` -/
def jsonObject : Option (Json F) → Items F
  | some (.obj d) => d
  | _ => []

/-- `v is False` -/
def isFalse : Json F → Bool
  | .bool b => !b
  | _ => false

/-- What `_drain` counts for a delivery that was not cut. -/
def outcomeOf : Delivery F → Outcome
  | .response status body =>
    if status = 201 then
      if isFalse (get (jsonObject body) "recorded".toList) then .duplicate else .recorded
    else .failed
  | .raised => .failed

/-! ## The client -/

inductive Worker (F : Type)
  | absent
  /-- created, not yet run -/
  | fresh
  /-- in `queue.get` -/
  | getting
  | posting (record : Nat)
  /-- the post is over, the task has not resumed -/
  | posted (record : Nat) (delivery : Delivery F)
  | ended

inductive Closing
  | running
  /-- `aclose` in `queue.join` -/
  | joining
  /-- `aclose` waits for the drain task -/
  | stopping
  /-- the queue was emptied -/
  | emptied
  | returned
  deriving DecidableEq

structure State (F : Type) where
  queue : List Nat := []
  /-- the unfinished tasks of the queue -/
  unfinished : Nat := 0
  submitted : Nat := 0
  counts : List (Nat × Outcome) := []
  worker : Worker F := .absent
  /-- the drain task was asked to stop -/
  cancelled : Bool := false
  closing : Closing := .running
  /-- a `task_done` raised `ValueError` -/
  raised : Bool := false

namespace State

def count (s : State F) (record : Nat) (o : Outcome) : State F :=
  { s with counts := (record, o) :: s.counts }

/-- `task_done` -/
def taskDone (s : State F) : State F :=
  if s.unfinished = 0 then { s with raised := true } else { s with unfinished := s.unfinished - 1 }

/-- `full` -/
def full (s : State F) (maxsize : Nat) : Bool := 0 < maxsize && maxsize ≤ s.queue.length

end State

inductive QueueFull
  | mk

/-- `put_nowait` -/
def putNowait (maxsize : Nat) (s : State F) (record : Nat) : Except QueueFull (State F) :=
  if s.full maxsize then .error .mk
  else .ok { s with queue := s.queue ++ [record], unfinished := s.unfinished + 1 }

/-- `submit` of the next record. -/
def submit (maxsize : Nat) (s : State F) : Except QueueFull (State F) :=
  let record := s.submitted
  let s := { s with submitted := record + 1 }
  match putNowait maxsize s record with
  | .ok s => .ok s
  | .error .mk => .ok (s.count record .dropped)

/-- The end of an iteration of `_drain`: the outcome, and `task_done`. -/
def finish (s : State F) (record : Nat) (o : Outcome) : State F := (s.count record o).taskDone

/-- The last loop of `aclose`. -/
def dropQueued : List Nat → State F → State F
  | [], s => s
  | record :: rest, s =>
    dropQueued rest ((State.taskDone { s with queue := rest }).count record .dropped)

/-- `aclose` behind the drain task. -/
def emptyQueue (s : State F) : State F :=
  { dropQueued s.queue s with worker := .absent, closing := .emptied }

inductive Step (maxsize : Nat) : State F → State F → Prop
  | start {s : State F} (hw : s.worker = .absent) :
    Step maxsize s { s with worker := .fresh, cancelled := false }
  /-- no record is submitted once the queue was emptied -/
  | submit {s s' : State F} (hc : s.closing ≠ .emptied ∧ s.closing ≠ .returned)
    (h : submit maxsize s = .ok s') : Step maxsize s s'
  | begin {s : State F} (hw : s.worker = .fresh) (hc : s.cancelled = false) :
    Step maxsize s { s with worker := .getting }
  | take {s : State F} {record : Nat} {rest : List Nat} (hw : s.worker = .getting)
    (hc : s.cancelled = false) (hq : s.queue = record :: rest) :
    Step maxsize s { s with queue := rest, worker := .posting record }
  | deliver {s : State F} {record : Nat} (d : Delivery F) (hw : s.worker = .posting record) :
    Step maxsize s { s with worker := .posted record d }
  | resume {s : State F} {record : Nat} {d : Delivery F} (hw : s.worker = .posted record d) :
    Step maxsize s { finish s record (outcomeOf d) with worker := .getting }
  /-- by `aclose`, or from outside -/
  | cancel {s : State F} : Step maxsize s { s with cancelled := true }
  /-- the cancellation reaches a delivery -/
  | cut {s : State F} {record : Nat} (hc : s.cancelled = true)
    (hw : s.worker = .posting record ∨ ∃ d, s.worker = .posted record d) :
    Step maxsize s { finish s record .dropped with worker := .ended }
  /-- the cancellation reaches the task before its first run or in `queue.get` -/
  | stop {s : State F} (hc : s.cancelled = true) (hw : s.worker = .fresh ∨ s.worker = .getting) :
    Step maxsize s { s with worker := .ended }
  | aclose {s : State F} (hc : s.closing = .running) (hw : s.worker ≠ .absent) :
    Step maxsize s { s with closing := .joining }
  /-- everything is done, or the time is over -/
  | joined {s : State F} (hc : s.closing = .joining) :
    Step maxsize s { s with closing := .stopping, cancelled := true }
  | stopped {s : State F} (hc : s.closing = .stopping) (hw : s.worker = .ended) :
    Step maxsize s (emptyQueue s)
  | acloseIdle {s : State F} (hc : s.closing = .running) (hw : s.worker = .absent) :
    Step maxsize s (emptyQueue s)
  | returns {s : State F} (hc : s.closing = .emptied) : Step maxsize s { s with closing := .returned }

inductive Reachable (maxsize : Nat) : State F → Prop
  | init : Reachable maxsize {}
  | step {s s' : State F} (h : Reachable maxsize s) (hs : Step maxsize s s') : Reachable maxsize s'

/-! ## Accounting -/

/-- The record of the drain task. -/
def Worker.inFlight : Worker F → List Nat
  | .posting record => [record]
  | .posted record _ => [record]
  | _ => []

structure Inv (s : State F) : Prop where
  /-- every record is counted, in flight or queued, and once -/
  once : (s.counts.map Prod.fst ++ (s.worker.inFlight ++ s.queue)).Perm (List.range s.submitted)
  unfinished : s.unfinished = s.worker.inFlight.length + s.queue.length
  fine : s.raised = false
  emptied : s.closing = .emptied ∨ s.closing = .returned → s.worker.inFlight = [] ∧ s.queue = []

theorem taskDone_of_pos {s : State F} (h : 0 < s.unfinished) :
    s.taskDone = { s with unfinished := s.unfinished - 1 } := if_neg (by omega)

theorem submit_ok (maxsize : Nat) (s : State F) : ∃ s', submit maxsize s = .ok s' := by
  unfold submit
  cases h : putNowait maxsize { s with submitted := s.submitted + 1 } s.submitted with
  | ok s' => exact ⟨s', by simp [h]⟩
  | error e => cases e; exact ⟨_, by simp [h]; rfl⟩

/-- A record is queued, or dropped on the spot. -/
theorem submit_cases {maxsize : Nat} {s s' : State F} (h : submit maxsize s = .ok s') :
    s' = { s with
      submitted := s.submitted + 1
      queue := s.queue ++ [s.submitted]
      unfinished := s.unfinished + 1 } ∨
    s' = { s with submitted := s.submitted + 1, counts := (s.submitted, .dropped) :: s.counts } := by
  unfold submit putNowait at h
  dsimp only at h
  split at h
  · next s1 h1 =>
    split at h1
    · cases h1
    · cases h1
      cases h
      exact .inl rfl
  · cases h
    exact .inr rfl

theorem Inv.submit {maxsize : Nat} {s s' : State F} (hi : Inv s)
    (hc : s.closing ≠ .emptied ∧ s.closing ≠ .returned) (h : submit maxsize s = .ok s') : Inv s' := by
  have hclosed : s.closing = .emptied ∨ s.closing = .returned → False :=
    fun h => h.elim hc.1 hc.2
  have honce := hi.once.append_right [s.submitted]
  rw [← List.range_succ] at honce
  rcases submit_cases h with rfl | rfl
  · refine ⟨?_, ?_, hi.fine, fun h => absurd h hclosed⟩
    · simpa [List.append_assoc] using honce
    · simp only [List.length_append, List.length_singleton, hi.unfinished]
      omega
  · refine ⟨?_, hi.unfinished, hi.fine, fun h => absurd h hclosed⟩
    exact (List.perm_append_singleton _ _).symm.trans honce

/-- Counting the record in flight and finishing its task leaves none in flight. -/
theorem Inv.finish {s : State F} (hi : Inv s) {record : Nat} (hf : s.worker.inFlight = [record])
    (o : Outcome) {w : Worker F} (hw : w.inFlight = []) :
    Inv { finish s record o with worker := w } := by
  have hpos : 0 < (s.count record o).unfinished := by
    show 0 < s.unfinished
    rw [hi.unfinished, hf, List.length_singleton]
    omega
  rw [Client.finish, taskDone_of_pos hpos]
  refine ⟨?_, ?_, hi.fine, ?_⟩
  · have honce := hi.once
    rw [hf] at honce
    show (record :: s.counts.map Prod.fst ++ (w.inFlight ++ s.queue)).Perm (List.range s.submitted)
    rw [hw]
    exact List.perm_middle.symm.trans honce
  · show s.unfinished - 1 = w.inFlight.length + s.queue.length
    rw [hi.unfinished, hf, hw]
    simp
  · intro hc
    have := (hi.emptied hc).1
    rw [hf] at this
    cases this

/-- One turn of the last loop. -/
theorem Inv.dropOne {s : State F} (hi : Inv s) (hf : s.worker.inFlight = []) {record : Nat}
    {rest : List Nat} (hq : s.queue = record :: rest) :
    Inv ((State.taskDone { s with queue := rest }).count record .dropped) ∧
      ((State.taskDone { s with queue := rest }).count record .dropped).queue = rest ∧
      ((State.taskDone { s with queue := rest }).count record .dropped).worker = s.worker := by
  have hlength : s.unfinished = rest.length + 1 := by
    rw [hi.unfinished, hf, hq]
    simp
  have hpos : 0 < State.unfinished { s with queue := rest } := by
    show 0 < s.unfinished
    omega
  rw [taskDone_of_pos hpos]
  refine ⟨⟨?_, ?_, hi.fine, ?_⟩, rfl, rfl⟩
  · have honce := hi.once
    rw [hf, hq] at honce
    show (record :: s.counts.map Prod.fst ++ (s.worker.inFlight ++ rest)).Perm (List.range s.submitted)
    rw [hf]
    exact List.perm_middle.symm.trans honce
  · show s.unfinished - 1 = s.worker.inFlight.length + rest.length
    rw [hlength, hf]
    simp
  · intro hc
    have := (hi.emptied hc).2
    rw [hq] at this
    cases this

theorem Inv.dropQueued {s : State F} (hi : Inv s) (hf : s.worker.inFlight = []) :
    Inv (dropQueued s.queue s) ∧ (dropQueued s.queue s).queue = [] ∧
      (dropQueued s.queue s).worker.inFlight = [] := by
  generalize hq : s.queue = l
  induction l generalizing s with
  | nil => exact ⟨hi, hq, hf⟩
  | cons record rest ih =>
    obtain ⟨hinv, hqueue, hworker⟩ := hi.dropOne hf hq
    exact ih hinv (by rw [hworker, hf]) hqueue

theorem Inv.emptyQueue {s : State F} (hi : Inv s) (hf : s.worker.inFlight = []) :
    Inv (emptyQueue s) := by
  obtain ⟨hinv, hqueue, hworker⟩ := hi.dropQueued hf
  refine ⟨?_, ?_, hinv.fine, fun _ => ⟨rfl, hqueue⟩⟩
  · have := hinv.once
    rwa [hworker] at this
  · have := hinv.unfinished
    rwa [hworker] at this

/-- Nothing is in flight before or after, and nothing is counted. -/
theorem Inv.idle {s : State F} (hi : Inv s) (hf : s.worker.inFlight = []) {w : Worker F}
    (hw : w.inFlight = []) (cancelled : Bool) : Inv { s with worker := w, cancelled := cancelled } := by
  refine ⟨?_, ?_, hi.fine, fun hc => ⟨hw, (hi.emptied hc).2⟩⟩
  · have := hi.once
    rw [hf] at this
    show (s.counts.map Prod.fst ++ (w.inFlight ++ s.queue)).Perm _
    rwa [hw]
  · have := hi.unfinished
    rw [hf] at this
    show s.unfinished = w.inFlight.length + s.queue.length
    rwa [hw]

theorem step_inv {maxsize : Nat} {s s' : State F} (h : Step maxsize s s') (hi : Inv s) : Inv s' := by
  cases h with
  | start hw => exact hi.idle (by rw [hw]; rfl) rfl false
  | submit hc h => exact hi.submit hc h
  | begin hw hc => exact hi.idle (by rw [hw]; rfl) rfl s.cancelled
  | @take record rest hw hc hq =>
    have honce := hi.once
    have hunfinished := hi.unfinished
    rw [hw, hq] at honce hunfinished
    refine ⟨honce, ?_, hi.fine, ?_⟩
    · rw [hunfinished]
      simp only [Worker.inFlight, List.length_nil, List.length_cons]
      omega
    · intro hc
      have := (hi.emptied hc).2
      rw [hq] at this
      cases this
  | deliver d hw =>
    have honce := hi.once
    have hunfinished := hi.unfinished
    have hemptied := hi.emptied
    rw [hw] at honce hunfinished hemptied
    exact ⟨honce, hunfinished, hi.fine, hemptied⟩
  | resume hw => exact hi.finish (by rw [hw]; rfl) _ rfl
  | cancel => exact ⟨hi.once, hi.unfinished, hi.fine, hi.emptied⟩
  | cut hc hw =>
    refine hi.finish ?_ _ rfl
    rcases hw with hw | ⟨d, hw⟩
    · rw [hw]; rfl
    · rw [hw]; rfl
  | stop hc hw =>
    refine hi.idle ?_ rfl s.cancelled
    rcases hw with hw | hw
    · rw [hw]; rfl
    · rw [hw]; rfl
  | aclose hc hw =>
    refine ⟨hi.once, hi.unfinished, hi.fine, ?_⟩
    rintro (h | h) <;> cases h
  | joined hc =>
    refine ⟨hi.once, hi.unfinished, hi.fine, ?_⟩
    rintro (h | h) <;> cases h
  | stopped hc hw => exact hi.emptyQueue (by rw [hw]; rfl)
  | acloseIdle hc hw => exact hi.emptyQueue (by rw [hw]; rfl)
  | returns hc => exact ⟨hi.once, hi.unfinished, hi.fine, fun _ => hi.emptied (.inl hc)⟩

theorem reachable_inv {maxsize : Nat} {s : State F} (h : Reachable maxsize s) : Inv s := by
  induction h with
  | init =>
    refine ⟨.refl _, rfl, rfl, ?_⟩
    rintro (h | h) <;> cases h
  | step _ hs ih => exact step_inv hs ih

/-- Submitting neither waits nor raises, no task is finished twice, and when `aclose` returns every
submitted record was counted once and the queue is empty. -/
theorem submissions_accounted {maxsize : Nat} {s : State F} (h : Reachable maxsize s) :
    (∃ s', submit maxsize s = .ok s') ∧ s.raised = false ∧
      (s.closing = .returned → (s.counts.map Prod.fst).Perm (List.range s.submitted) ∧
        s.counts.length = s.submitted ∧ s.queue = [] ∧ s.unfinished = 0) := by
  have hi := reachable_inv h
  refine ⟨submit_ok maxsize s, hi.fine, ?_⟩
  intro hreturned
  obtain ⟨hflight, hqueue⟩ := hi.emptied (.inr hreturned)
  have honce := hi.once
  have hunfinished := hi.unfinished
  rw [hflight, hqueue] at honce hunfinished
  rw [List.append_nil, List.append_nil] at honce
  refine ⟨honce, ?_, hqueue, hunfinished⟩
  have := honce.length_eq
  rwa [List.length_map, List.length_range] at this

/-- One record cut in flight, one left in a queue of one place, one that found it full. -/
theorem accounted_three : ∃ s : State Unit, s.submitted = 3 ∧ s.counts.length = s.submitted ∧
    (s.counts.map Prod.fst).Perm (List.range s.submitted) := by
  have hinit : Reachable 1 ({} : State Unit) := .init
  have hstart := hinit.step (.start rfl)
  have hbegin := hstart.step (.begin rfl rfl)
  have hfirst := hbegin.step (.submit ⟨by decide, by decide⟩ rfl)
  have htake := hfirst.step (.take rfl rfl rfl)
  have hsecond := htake.step (.submit ⟨by decide, by decide⟩ rfl)
  have hthird := hsecond.step (.submit ⟨by decide, by decide⟩ rfl)
  have haclose := hthird.step (.aclose rfl (by intro h; cases h))
  have hjoined := haclose.step (.joined rfl)
  have hcut := hjoined.step (.cut rfl (.inl rfl))
  have hstopped := hcut.step (.stopped rfl rfl)
  have hreturns := hstopped.step (.returns rfl)
  obtain ⟨-, -, hreturned⟩ := submissions_accounted hreturns
  obtain ⟨honce, hlength, -⟩ := hreturned rfl
  exact ⟨_, rfl, hlength, honce⟩

end MainframeRag.Feedback.Client
