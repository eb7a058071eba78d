import Mathlib
import MainframeRag.Mcp.Knowledge

/-!
# Request dispatchers

`RequestDispatcher` of `mcp/knowledge.py`, one for each session, and the task of a message around it
(`one` of `serve_stdio`, or an HTTP request). A step is what a task or a done callback does between two
suspensions; a task may be cancelled in each of them. The done callbacks of a task run one after the
other, in the order they were added, at any time after the task is done.

A handler task notes who asked it to stop, and each task when it began.
-/

namespace MainframeRag.Mcp.Dispatcher

open PyText PyJson JsonText Knowledge

variable {F : Type}

inductive Id
  | str (t : Text)
  | int (n : Int)
  deriving DecidableEq

/-- A `str` or an `int`, and no `bool`. -/
def usableId : Json F → Option Id
  | .str t => some (.str t)
  | .int n => some (.int n)
  | _ => none

/-- `message.get(key)` -/
def field (message : Json F) (key : String) : Json F :=
  match message with
  | .obj d => get d key.toList
  | _ => .null

/-! ## Tasks -/

/-- Who asked a handler task to stop: the task of a notification, or `aclose`. -/
inductive Cause
  | notification (c : Nat)
  | aclose

inductive Callback
  | discard
  /-- of the shield in the task `c` -/
  | shield (c : Nat)

inductive Work (F : Type)
  /-- created, not yet run -/
  | fresh (message : Json F)
  /-- waits for the backend -/
  | waiting (id : Json F) (name : Text) (call : Call)
  | done (o : Outcome F)

/-- A task of `handle_request`. -/
structure Handler (F : Type) where
  session : Nat
  id : Id
  created : Nat
  work : Work F
  callbacks : List Callback
  /-- the calls of `cancel` that reached it before it was done -/
  asked : List Cause := []

def Handler.outcome? (h : Handler F) : Option (Outcome F) :=
  match h.work with
  | .done o => some o
  | _ => none

/-- `Task.cancel` -/
def Handler.ask (h : Handler F) (cause : Cause) : Handler F :=
  if h.outcome?.isSome then h else { h with asked := cause :: h.asked }

inductive Phase (F : Type)
  /-- created, not yet run -/
  | created
  /-- in `shield` -/
  | awaiting (t : Nat)
  /-- what it awaited is done, the task has not resumed -/
  | woken (o : Outcome F)
  /-- a notification, in `gather` -/
  | gathering (t : Nat)
  /-- `dispatch` returned or raised, and its reply is written -/
  | ended

def Phase.awaits : Phase F → Nat → Bool
  | .awaiting t', t => t' = t
  | _, _ => false

theorem Phase.awaits_iff {p : Phase F} {t : Nat} : p.awaits t = true ↔ p = .awaiting t := by
  cases p <;> simp [awaits]

/-- The task of a message. -/
structure Caller (F : Type) where
  session : Nat
  /-- `none` where the line is no JSON -/
  message : Option (Json F)
  phase : Phase F := .created
  /-- `cancelling()` -/
  cancelling : Nat := 0
  began : Nat := 0
  /-- the handler task of a call -/
  task : Option Nat := none

structure State (F : Type) where
  clock : Nat := 0
  /-- `tasks` of each dispatcher -/
  tables : Nat → Id → Option Nat := fun _ _ => none
  handlers : Nat → Option (Handler F) := fun _ => none
  callers : Nat → Option (Caller F) := fun _ => none
  sent : List (Nat × Reply F) := []

namespace State

def setCaller (s : State F) (c : Nat) (x : Caller F) : State F :=
  { s with callers := Function.update s.callers c (some x) }

def setHandler (s : State F) (t : Nat) (h : Handler F) : State F :=
  { s with handlers := Function.update s.handlers t (some h) }

def setEntry (s : State F) (k : Nat) (id : Id) (entry : Option Nat) : State F :=
  { s with tables := Function.update s.tables k (Function.update (s.tables k) id entry) }

/-- The end of `one`: `dispatch` returned `reply`. -/
def reply (s : State F) (c : Nat) (x : Caller F) (r : Option (Reply F)) : State F :=
  { s.setCaller c { x with phase := .ended } with sent := (r.toList.map fun r => (c, r)) ++ s.sent }

/-- `task.cancel()` -/
def ask (s : State F) (t : Nat) (cause : Cause) : State F :=
  match s.handlers t with
  | some h => s.setHandler t (h.ask cause)
  | none => s

end State

variable (N : Numbers F) (fl : Floats F)

/-! ## The dispatcher -/

/-- `_error(message.get("id"), -32000, "internal error")` -/
def internal (message : Json F) : Reply F :=
  .error (field message "id") internalError "internal error".toList

/-- The end of `one` for an awaited request that was not cancelled from outside. -/
def settle (message : Json F) : Outcome F → Option (Reply F)
  | .returned r => r
  | .raised => some (internal message)
  | .cancelled => none

/-- `dispatch` of a `notifications/cancelled`, up to its wait. -/
def cancelled (s : State F) (c : Nat) (x : Caller F) (message : Json F) : State F :=
  match (usableId (field (field message "params") "requestId")).bind (s.tables x.session) with
  | some t => (s.ask t (.notification c)).setCaller c { x with phase := .gathering t }
  | none => s.reply c x none

/-- `create_task`, the entry of the table and the two done callbacks. -/
def create (s : State F) (c t : Nat) (x : Caller F) (message : Json F) (id : Id) : State F :=
  let s := s.setHandler t {
    session := x.session, id := id, created := s.clock, work := .fresh message,
    callbacks := [.discard, .shield c] }
  (s.setEntry x.session id (some t)).setCaller c { x with phase := .awaiting t, task := some t }

def alreadyActive (message : Json F) : Reply F :=
  .error (field message "id") invalidRequest "request id is already active".toList

/-- `dispatch` of a `tools/call`, up to its wait; `t` is a new task. -/
def call (s : State F) (c t : Nat) (x : Caller F) (message : Json F) : State F :=
  match usableId (field message "id") with
  | none =>
    s.reply c x (some (.error .null invalidRequest
      "request id must be a string or integer".toList))
  | some id =>
    if (s.tables x.session id).isSome then
      s.reply c x (some (alreadyActive message))
    else create s c t x message id

/-- The first run of the task of a message. -/
def begin (s : State F) (c t : Nat) (x : Caller F) : State F :=
  match x.message with
  | none => s.reply c x (some (.error .null parseErrorCode "invalid JSON".toList))
  | some message =>
    if isMethod "notifications/cancelled" message then cancelled s c x message
    else if isMethod "tools/call" message then call s c t x message
    else
      match handleRequest N message with
      | .ended o => s.reply c x (settle message o)
      | .waits _ _ _ => s

/-- The first run of a handler task: one that was asked to stop does not run. -/
def runHandler (h : Handler F) (message : Json F) : Handler F :=
  if h.asked ≠ [] then { h with work := .done .cancelled }
  else
    match handleRequest N message with
    | .ended o => { h with work := .done o }
    | .waits id name call => { h with work := .waiting id name call }

/-- A done callback of the task `t`. -/
def runCallback (s : State F) (t : Nat) (h : Handler F) (o : Outcome F) : Callback → State F
  | .discard => if s.tables h.session h.id = some t then s.setEntry h.session h.id none else s
  | .shield c =>
    match s.callers c with
    | some x => if x.phase.awaits t then s.setCaller c { x with phase := .woken o } else s
    | none => s

/-- `cancel` of the task of a message. -/
def cancelCaller (s : State F) (c : Nat) (x : Caller F) : State F :=
  match x.phase with
  | .awaiting _ =>
    s.setCaller c { x with phase := .woken .cancelled, cancelling := x.cancelling + 1 }
  | .gathering t =>
    (s.ask t (.notification c)).setCaller c { x with cancelling := x.cancelling + 1 }
  | .ended => s
  | _ => s.setCaller c { x with cancelling := x.cancelling + 1 }

/-- `aclose` -/
def aclose (s : State F) (k : Nat) : State F :=
  { s with handlers := fun t =>
      (s.handlers t).map fun h => if s.tables k h.id = some t then h.ask .aclose else h }

/-- What an awaited call of the backend may come to, by whether its task was asked to stop. -/
abbrev Backend (F : Type) := Bool → BackendEnd F → Prop

/-- A call that is cancelled raises `CancelledError`, and no other call does. -/
def Backend.Cooperative (B : Backend F) : Prop :=
  ∀ asked e, B asked e → (e = .cancelled ↔ asked = true)

inductive Step (B : Backend F) : State F → State F → Prop
  | arrive {s : State F} {c : Nat} (k : Nat) (message : Option (Json F)) (hc : s.callers c = none) :
    Step B s (s.setCaller c { session := k, message := message })
  | begin {s : State F} {c t : Nat} {x : Caller F} (hc : s.callers c = some x)
    (hp : x.phase = .created) (hx : x.cancelling = 0) (ht : s.handlers t = none) :
    Step B s { begin N s c t { x with began := s.clock } with clock := s.clock + 1 }
  /-- a task that was cancelled does not begin -/
  | die {s : State F} {c : Nat} {x : Caller F} (hc : s.callers c = some x) (hp : x.phase = .created)
    (hx : x.cancelling ≠ 0) : Step B s (s.setCaller c { x with phase := .ended })
  | resume {s : State F} {c : Nat} {x : Caller F} {o : Outcome F} {message : Json F}
    (hc : s.callers c = some x) (hp : x.phase = .woken o) (hm : x.message = some message) :
    Step B s (s.reply c x (if x.cancelling = 0 then settle message o else none))
  /-- the named task is done -/
  | gathered {s : State F} {c t : Nat} {x : Caller F} {h : Handler F} {o : Outcome F}
    (hc : s.callers c = some x) (hp : x.phase = .gathering t) (ht : s.handlers t = some h)
    (ho : h.work = .done o) : Step B s (s.setCaller c { x with phase := .ended })
  | cancelCaller {s : State F} {c : Nat} {x : Caller F} (hc : s.callers c = some x) :
    Step B s (cancelCaller s c x)
  | run {s : State F} {t : Nat} {h : Handler F} {message : Json F} (ht : s.handlers t = some h)
    (hw : h.work = .fresh message) : Step B s (s.setHandler t (runHandler N h message))
  | backend {s : State F} {t : Nat} {h : Handler F} {id : Json F} {name : Text} {call : Call}
    {e : BackendEnd F} (ht : s.handlers t = some h) (hw : h.work = .waiting id name call)
    (he : B (decide (h.asked ≠ [])) e) :
    Step B s (s.setHandler t { h with work := .done (finishTool fl id name e) })
  | callback {s : State F} {t : Nat} {h : Handler F} {o : Outcome F} {cb : Callback}
    {rest : List Callback} (ht : s.handlers t = some h) (ho : h.work = .done o)
    (hcb : h.callbacks = cb :: rest) :
    Step B s (runCallback (s.setHandler t { h with callbacks := rest }) t h o cb)
  | aclose {s : State F} (k : Nat) : Step B s (aclose s k)

inductive Reachable (B : Backend F) : State F → Prop
  | init : Reachable B {}
  | step {s s' : State F} (h : Reachable B s) (hs : Step N fl B s s') : Reachable B s'

/-! ## What is said of a state -/

/-- The replies written for a message. -/
def State.replies (s : State F) (c : Nat) : Nat := s.sent.countP (fun e => e.1 = c)

/-- A `tools/call` with a usable id. -/
def IsCall (message : Option (Json F)) (id : Id) : Prop :=
  ∃ m, message = some m ∧ isMethod "tools/call" m = true ∧ usableId (field m "id") = some id

/-- A `notifications/cancelled` that names `id`. -/
def Names (message : Option (Json F)) (id : Id) : Prop :=
  ∃ m, message = some m ∧ isMethod "notifications/cancelled" m = true ∧
    usableId (field (field m "params") "requestId") = some id

/-- The task of the message was cancelled before it was over, or its handler task was asked to stop
before that was done. -/
def Stopped (s : State F) (x : Caller F) : Prop :=
  x.cancelling ≠ 0 ∨ ∃ t h, x.task = some t ∧ s.handlers t = some h ∧ h.asked ≠ []

/-- The notification `c` began after the task, in its session, and names its id. -/
def Notified (s : State F) (h : Handler F) (c : Nat) : Prop :=
  ∃ x, s.callers c = some x ∧ x.phase ≠ .created ∧ x.session = h.session ∧
    Names x.message h.id ∧ h.created < x.began

/-! ## The invariant -/

structure HandlerOk (s : State F) (t : Nat) (h : Handler F) : Prop where
  created : h.created < s.clock
  /-- its entry stands until `discard` has run -/
  listed : .discard ∈ h.callbacks ↔ s.tables h.session h.id = some t
  callbacks : ∃ c, h.callbacks <:+ [.discard, .shield c]
  active : h.outcome? = none → .discard ∈ h.callbacks
  fresh : ∀ m, h.work = .fresh m → isMethod "tools/call" m = true
  ended : ∀ o, h.work = .done o → if h.asked = [] then o.answers else o = .cancelled
  asked : ∀ c, .notification c ∈ h.asked → Notified s h c

/-- What is known where the task of a call is over. -/
def Ended (s : State F) (c : Nat) (x : Caller F) : Prop :=
  (s.replies c = 1 ∧ x.cancelling = 0 ∧
    ∀ t, x.task = some t → ∃ h o, s.handlers t = some h ∧ h.work = .done o ∧ h.asked = []) ∨
  (s.replies c = 0 ∧ Stopped s x)

def PhaseOk (s : State F) (c : Nat) (x : Caller F) : Prop :=
  match x.phase with
  | .created => x.task = none ∧ s.replies c = 0
  | .awaiting t => x.task = some t ∧ x.cancelling = 0 ∧ s.replies c = 0 ∧
      ∃ h, s.handlers t = some h ∧ .shield c ∈ h.callbacks
  | .woken o => s.replies c = 0 ∧
      ∃ t h, x.task = some t ∧ s.handlers t = some h ∧ (x.cancelling = 0 → h.work = .done o)
  | .gathering t => x.task = none ∧ s.replies c = 0 ∧
      ∃ h, s.handlers t = some h ∧ x.session = h.session ∧ Names x.message h.id ∧ h.created < x.began
  | .ended => s.replies c ≤ 1 ∧ ∀ id, IsCall x.message id → Ended s c x

structure CallerOk (s : State F) (c : Nat) (x : Caller F) : Prop where
  /-- a call has a handler task of its session and its id -/
  own : ∀ t, x.task = some t →
    ∃ h, s.handlers t = some h ∧ h.session = x.session ∧ IsCall x.message h.id
  phase : PhaseOk s c x

structure Inv (s : State F) : Prop where
  entry : ∀ k id t, s.tables k id = some t → ∃ h, s.handlers t = some h ∧ h.session = k ∧ h.id = id
  handler : ∀ t h, s.handlers t = some h → HandlerOk s t h
  caller : ∀ c x, s.callers c = some x → CallerOk s c x
  silent : ∀ c, s.callers c = none → s.replies c = 0

/-! ## Frames -/

/-- The same task at a later time. -/
structure Later (h h' : Handler F) : Prop where
  session : h'.session = h.session
  id : h'.id = h.id
  created : h'.created = h.created
  done : ∀ o, h.work = .done o → h'.work = .done o ∧ h'.asked = h.asked
  asked : h.asked ≠ [] → h'.asked ≠ []

theorem Later.refl (h : Handler F) : Later h h := ⟨rfl, rfl, rfl, fun _ ho => ⟨ho, rfl⟩, fun h => h⟩

/-- What a step leaves of the message `c` where it moves another. -/
structure Frame (s s' : State F) (c : Nat) (x : Caller F) : Prop where
  replies : s'.replies c = s.replies c
  handlers : ∀ t h, s.handlers t = some h → ∃ h', s'.handlers t = some h' ∧ Later h h' ∧
    (x.phase = .awaiting t → .shield c ∈ h.callbacks → .shield c ∈ h'.callbacks)

theorem Stopped.frame {s s' : State F} {c : Nat} {x : Caller F} (f : Frame s s' c x)
    (h : Stopped s x) : Stopped s' x := by
  rcases h with h | ⟨t, h, htask, ht, hasked⟩
  · exact .inl h
  · obtain ⟨h', ht', hl, -⟩ := f.handlers t h ht
    exact .inr ⟨t, h', htask, ht', hl.asked hasked⟩

theorem Ended.frame {s s' : State F} {c : Nat} {x : Caller F} (f : Frame s s' c x)
    (h : Ended s c x) : Ended s' c x := by
  rcases h with ⟨hone, hx, hdone⟩ | ⟨hnone, hstop⟩
  · refine .inl ⟨f.replies.trans hone, hx, fun t htask => ?_⟩
    obtain ⟨h, o, ht, ho, hasked⟩ := hdone t htask
    obtain ⟨h', ht', hl, -⟩ := f.handlers t h ht
    obtain ⟨ho', hasked'⟩ := hl.done o ho
    exact ⟨h', o, ht', ho', hasked'.trans hasked⟩
  · exact .inr ⟨f.replies.trans hnone, hstop.frame f⟩

theorem PhaseOk.frame {s s' : State F} {c : Nat} {x : Caller F} (f : Frame s s' c x)
    (h : PhaseOk s c x) : PhaseOk s' c x := by
  unfold PhaseOk at h ⊢
  split at h
  · exact ⟨h.1, f.replies.trans h.2⟩
  · next t hp =>
    obtain ⟨htask, hx, hnone, h, ht, hcb⟩ := h
    obtain ⟨h', ht', -, hcb'⟩ := f.handlers _ h ht
    exact ⟨htask, hx, f.replies.trans hnone, h', ht', hcb' hp hcb⟩
  · obtain ⟨hnone, t, h, htask, ht, hdone⟩ := h
    obtain ⟨h', ht', hl, -⟩ := f.handlers _ h ht
    exact ⟨f.replies.trans hnone, t, h', htask, ht', fun hx => (hl.done _ (hdone hx)).1⟩
  · obtain ⟨htask, hnone, h, ht, hsession, hnames, hcreated⟩ := h
    obtain ⟨h', ht', hl, -⟩ := f.handlers _ h ht
    refine ⟨htask, f.replies.trans hnone, h', ht', hl.session ▸ hsession, hl.id ▸ hnames, ?_⟩
    exact hl.created ▸ hcreated
  · exact ⟨f.replies.trans_le h.1, fun id hid => (h.2 id hid).frame f⟩

theorem CallerOk.frame {s s' : State F} {c : Nat} {x : Caller F} (f : Frame s s' c x)
    (h : CallerOk s c x) : CallerOk s' c x := by
  refine ⟨fun t htask => ?_, h.phase.frame f⟩
  obtain ⟨h, ht, hsession, hcall⟩ := h.own t htask
  obtain ⟨h', ht', hl, -⟩ := f.handlers t h ht
  exact ⟨h', ht', hl.session.trans hsession, hl.id ▸ hcall⟩

/-- The same message, begun or not. -/
structure Keeps (x x' : Caller F) : Prop where
  session : x'.session = x.session
  message : x'.message = x.message
  begun : x.phase ≠ .created → x'.phase ≠ .created ∧ x'.began = x.began

/-- The step keeps the messages of other tasks. -/
def KeepsCallers (s s' : State F) : Prop :=
  ∀ c x, s.callers c = some x → ∃ x', s'.callers c = some x' ∧ Keeps x x'

theorem Notified.keeps {s s' : State F} {h : Handler F} {c : Nat} (f : KeepsCallers s s')
    (hn : Notified s h c) : Notified s' h c := by
  obtain ⟨x, hc, hp, hsession, hnames, hcreated⟩ := hn
  obtain ⟨x', hc', hk⟩ := f c x hc
  obtain ⟨hp', hbegan⟩ := hk.begun hp
  exact ⟨x', hc', hp', hk.session.trans hsession, hk.message ▸ hnames, hbegan ▸ hcreated⟩

theorem HandlerOk.keeps {s s' : State F} {t : Nat} {h : Handler F} (f : KeepsCallers s s')
    (hclock : s.clock ≤ s'.clock)
    (htable : s'.tables h.session h.id = some t ↔ s.tables h.session h.id = some t)
    (hh : HandlerOk s t h) : HandlerOk s' t h :=
  { hh with
    created := hh.created.trans_le hclock
    listed := hh.listed.trans htable.symm
    asked := fun c hc => (hh.asked c hc).keeps f }

/-! ## Moves -/

theorem isMethod_unique {a b : String} {m : Json F} (ha : isMethod a m = true)
    (hb : isMethod b m = true) : a = b := by
  unfold isMethod at ha hb
  split at ha
  · split at ha
    · next hmethod =>
      simp only [hmethod] at hb
      exact String.toList_inj.mp ((of_decide_eq_true ha).symm.trans (of_decide_eq_true hb))
    · cases ha
  · cases ha

theorem not_call_of_names {message : Option (Json F)} {id : Id} (h : Names message id) (id' : Id) :
    ¬ IsCall message id' := by
  rintro ⟨m, rfl, hcall, -⟩
  obtain ⟨m', hm', hcancel, -⟩ := h
  cases hm'
  exact absurd (isMethod_unique hcall hcancel) (by decide)

/-- What the first run of the task of a message does. -/
theorem begin_cases (s : State F) (c t : Nat) (x : Caller F) :
    (∃ r, (∀ id, IsCall x.message id → r.isSome) ∧ begin N s c t x = s.reply c x r) ∨
    (∃ t' id, Names x.message id ∧ s.tables x.session id = some t' ∧
      begin N s c t x = (s.ask t' (.notification c)).setCaller c { x with phase := .gathering t' }) ∨
    ∃ m id, x.message = some m ∧ isMethod "tools/call" m = true ∧
      usableId (field m "id") = some id ∧ s.tables x.session id = none ∧
      begin N s c t x = create s c t x m id := by
  cases hm : x.message with
  | none => exact .inl ⟨_, fun _ h => rfl, by rw [begin, hm]⟩
  | some m =>
    by_cases hcancel : isMethod "notifications/cancelled" m = true
    · have hnot : ∀ id, ¬ IsCall (some m) id := by
        rintro id ⟨m', hm', hcall, -⟩
        cases hm'
        exact absurd (isMethod_unique hcall hcancel) (by decide)
      have hbegin : begin N s c t x = cancelled s c x m := by
        simp only [begin, hm, hcancel, if_true]
      rw [hbegin, cancelled]
      cases hid : usableId (field (field m "params") "requestId") with
      | none => exact .inl ⟨none, fun id h => absurd h (hnot id), rfl⟩
      | some id =>
        cases ht : s.tables x.session id with
        | none =>
          exact .inl ⟨none, fun id h => absurd h (hnot id), by simp only [Option.bind_some, ht]⟩
        | some t' =>
          exact .inr (.inl ⟨t', id, ⟨m, rfl, hcancel, hid⟩, ht, by
            simp only [Option.bind_some, ht, hm]⟩)
    · by_cases hcall : isMethod "tools/call" m = true
      · have hbegin : begin N s c t x = call s c t x m := by
          simp only [begin, hm, hcancel, hcall, if_true, if_false, Bool.false_eq_true]
        rw [hbegin, call]
        cases hid : usableId (field m "id") with
        | none => exact .inl ⟨_, fun _ _ => rfl, rfl⟩
        | some id =>
          cases ht : s.tables x.session id with
          | some t' =>
            refine .inl ⟨some (alreadyActive m), fun _ _ => rfl, ?_⟩
            simp only [ht, Option.isSome_some, if_true]
          | none =>
            refine .inr (.inr ⟨m, id, rfl, hcall, hid, ht, ?_⟩)
            simp only [ht, Option.isSome_none, Bool.false_eq_true, if_false]
      · have hnot : ∀ id, ¬ IsCall (some m) id := by
          rintro id ⟨m', hm', hcall', -⟩
          cases hm'
          exact hcall hcall'
        have hbegin : begin N s c t x = match handleRequest N m with
            | .ended o => s.reply c x (settle m o)
            | .waits _ _ _ => s := by
          simp only [begin, hm, hcancel, hcall, if_false, Bool.false_eq_true]
        rw [hbegin]
        cases hr : handleRequest N m with
        | ended o => exact .inl ⟨_, fun id h => absurd h (hnot id), rfl⟩
        | waits id name k => exact absurd (handleRequest_waits N hr) hcall

theorem keepsCallers_same {s s' : State F} (h : s'.callers = s.callers) : KeepsCallers s s' :=
  fun _ x hc => ⟨x, h ▸ hc, rfl, rfl, fun hp => ⟨hp, rfl⟩⟩

theorem keepsCallers_update {s s' : State F} {c : Nat} {x' : Caller F}
    (h : s'.callers = Function.update s.callers c (some x'))
    (hk : ∀ x, s.callers c = some x → Keeps x x') : KeepsCallers s s' := by
  intro c' x hc
  rw [h]
  by_cases hcc : c' = c
  · subst hcc
    exact ⟨x', Function.update_self .., hk x hc⟩
  · exact ⟨x, by rw [Function.update_of_ne hcc, hc], rfl, rfl, fun hp => ⟨hp, rfl⟩⟩

/-- One message moves; the handler tasks and the tables stand. -/
theorem Inv.moveCaller {s s' : State F} (hi : Inv s) {c : Nat} {x' : Caller F}
    (hclock : s'.clock = s.clock) (htables : s'.tables = s.tables)
    (hhandlers : s'.handlers = s.handlers)
    (hcallers : s'.callers = Function.update s.callers c (some x'))
    (hsent : ∀ c', c' ≠ c → s'.replies c' = s.replies c')
    (hk : ∀ x, s.callers c = some x → Keeps x x') (hx : CallerOk s' c x') : Inv s' := by
  have hkeeps := keepsCallers_update hcallers hk
  refine ⟨?_, ?_, ?_, ?_⟩
  · rw [htables, hhandlers]
    exact hi.entry
  · intro t h ht
    rw [hhandlers] at ht
    exact (hi.handler t h ht).keeps hkeeps hclock.ge (by rw [htables])
  · intro c' x hc
    rw [hcallers] at hc
    by_cases hcc : c' = c
    · subst hcc
      rw [Function.update_self] at hc
      exact Option.some.inj hc ▸ hx
    · rw [Function.update_of_ne hcc] at hc
      refine (hi.caller c' x hc).frame ⟨hsent c' hcc, fun t h ht => ⟨h, ?_, Later.refl h, fun _ h => h⟩⟩
      rw [hhandlers, ht]
  · intro c' hc
    rw [hcallers] at hc
    by_cases hcc : c' = c
    · subst hcc
      rw [Function.update_self] at hc
      cases hc
    · rw [Function.update_of_ne hcc] at hc
      rw [hsent c' hcc, hi.silent c' hc]

/-- The handler tasks move; the messages and the tables stand. -/
theorem Inv.moveHandlers {s : State F} (hi : Inv s) (f : Nat → Option (Handler F))
    (hf : ∀ t h, s.handlers t = some h → ∃ h', f t = some h' ∧ Later h h' ∧
      h'.callbacks = h.callbacks ∧ HandlerOk s t h')
    (hnone : ∀ t, s.handlers t = none → f t = none) : Inv { s with handlers := f } := by
  refine ⟨?_, ?_, ?_, hi.silent⟩
  · intro k id t ht
    obtain ⟨h, hh, hk, hid⟩ := hi.entry k id t ht
    obtain ⟨h', hh', hl, -⟩ := hf t h hh
    exact ⟨h', hh', hl.session.trans hk, hl.id.trans hid⟩
  · intro t h' ht
    cases hh : s.handlers t with
    | none =>
      have : f t = some h' := ht
      rw [hnone t hh] at this
      cases this
    | some h =>
      obtain ⟨h'', hh'', -, -, hok⟩ := hf t h hh
      have : f t = some h' := ht
      rw [hh''] at this
      cases this
      have hkeeps : KeepsCallers s { s with handlers := f } := keepsCallers_same rfl
      exact HandlerOk.keeps hkeeps (Nat.le_refl s.clock) Iff.rfl hok
  · intro c x hc
    have hc : s.callers c = some x := hc
    refine CallerOk.frame (s := s) ⟨rfl, fun t h ht => ?_⟩ (hi.caller c x hc)
    obtain ⟨h', hh', hl, hcb, -⟩ := hf t h ht
    exact ⟨h', hh', hl, fun _ hmem => hcb ▸ hmem⟩

/-- One handler task moves. -/
theorem Inv.moveHandler {s : State F} (hi : Inv s) {t : Nat} {h h' : Handler F}
    (ht : s.handlers t = some h) (hl : Later h h') (hcb : h'.callbacks = h.callbacks)
    (hok : HandlerOk s t h') : Inv (s.setHandler t h') := by
  refine hi.moveHandlers (Function.update s.handlers t (some h')) ?_ ?_
  · intro t' g hg
    by_cases htt : t' = t
    · subst htt
      rw [ht] at hg
      cases hg
      exact ⟨h', Function.update_self .., hl, hcb, hok⟩
    · exact ⟨g, by rw [Function.update_of_ne htt, hg], Later.refl g, rfl, hi.handler t' g hg⟩
  · intro t' hnone
    have htt : t' ≠ t := by
      rintro rfl
      rw [ht] at hnone
      cases hnone
    rw [Function.update_of_ne htt, hnone]

theorem later_ask (h : Handler F) (cause : Cause) : Later h (h.ask cause) := by
  unfold Handler.ask
  by_cases hdone : h.outcome?.isSome = true
  · rw [if_pos hdone]
    exact .refl h
  · rw [if_neg hdone]
    refine ⟨rfl, rfl, rfl, fun o ho => absurd ?_ hdone, fun _ => List.cons_ne_nil _ _⟩
    rw [Handler.outcome?, ho]
    rfl

theorem callbacks_ask (h : Handler F) (cause : Cause) : (h.ask cause).callbacks = h.callbacks := by
  unfold Handler.ask
  split <;> rfl

theorem HandlerOk.ask {s : State F} {t : Nat} {h : Handler F} (hh : HandlerOk s t h) {cause : Cause}
    (hcause : ∀ c, cause = .notification c → Notified s h c) : HandlerOk s t (h.ask cause) := by
  unfold Handler.ask
  by_cases hdone : h.outcome?.isSome = true
  · rw [if_pos hdone]
    exact hh
  · rw [if_neg hdone]
    refine ⟨hh.created, hh.listed, hh.callbacks, hh.active, hh.fresh, fun o ho => absurd ?_ hdone, ?_⟩
    · have ho : h.work = .done o := ho
      rw [Handler.outcome?, ho]
      rfl
    · intro c hc
      rcases List.mem_cons.mp hc with hc | hc
      · exact hcause c hc.symm
      · exact hh.asked c hc

theorem Inv.ask {s : State F} (hi : Inv s) {t : Nat} {cause : Cause}
    (hcause : ∀ h c, s.handlers t = some h → cause = .notification c → Notified s h c) :
    Inv (s.ask t cause) := by
  unfold State.ask
  cases ht : s.handlers t with
  | none => exact hi
  | some h =>
    exact hi.moveHandler ht (later_ask h cause) (callbacks_ask h cause)
      ((hi.handler t h ht).ask fun c hc => hcause h c ht hc)

theorem Inv.aclose {s : State F} (hi : Inv s) (k : Nat) : Inv (aclose s k) := by
  refine hi.moveHandlers _ ?_ ?_
  · intro t h ht
    rw [ht, Option.map_some]
    by_cases hk : s.tables k h.id = some t
    · rw [if_pos hk]
      exact ⟨_, rfl, later_ask h _, callbacks_ask h _, (hi.handler t h ht).ask nofun⟩
    · rw [if_neg hk]
      exact ⟨h, rfl, .refl h, rfl, hi.handler t h ht⟩
  · intro t ht
    rw [ht, Option.map_none]

/-! ## Steps -/

theorem replies_reply (s : State F) (c : Nat) (x : Caller F) (r : Option (Reply F)) :
    (s.reply c x r).replies c = s.replies c + r.toList.length := by
  unfold State.replies State.reply
  cases r with
  | none => rfl
  | some r => exact List.countP_cons_of_pos (decide_eq_true rfl)

theorem replies_reply_ne (s : State F) {c c' : Nat} (h : c' ≠ c) (x : Caller F)
    (r : Option (Reply F)) : (s.reply c x r).replies c' = s.replies c' := by
  unfold State.replies State.reply
  cases r with
  | none => rfl
  | some r => exact List.countP_cons_of_neg fun hcc => h (of_decide_eq_true hcc).symm

/-- The task of a message ends with `r`, where nothing was replied before. -/
theorem Inv.reply {s : State F} (hi : Inv s) {c : Nat} {x y : Caller F} {r : Option (Reply F)}
    (hc : s.callers c = some x) (hk : Keeps x { y with phase := .ended }) (hnone : s.replies c = 0)
    (htask : y.task = x.task)
    (hended : ∀ id, IsCall y.message id →
      (r.isSome ∧ y.cancelling = 0 ∧
        ∀ t, y.task = some t → ∃ h o, s.handlers t = some h ∧ h.work = .done o ∧ h.asked = []) ∨
      (r = none ∧ Stopped s y)) : Inv (s.reply c y r) := by
  let z : Caller F := { y with phase := .ended }
  have hcallers : (s.reply c y r).callers = Function.update s.callers c (some z) := rfl
  refine hi.moveCaller rfl rfl rfl hcallers
    (fun c' hc' => replies_reply_ne s hc' y r) ?_ ⟨?_, ?_, fun id hid => ?_⟩
  · intro x' hx'
    rw [hc] at hx'
    cases hx'
    exact hk
  · intro t ht
    obtain ⟨h, hh, hsession, hcall⟩ := (hi.caller c x hc).own t (htask ▸ ht)
    exact ⟨h, hh, hsession.trans hk.session.symm, hk.message.symm ▸ hcall⟩
  · rw [replies_reply, hnone, Nat.zero_add]
    cases r <;> simp
  · rcases hended id hid with ⟨hr, hzero, hdone⟩ | ⟨rfl, hstop⟩
    · obtain ⟨r', rfl⟩ := Option.isSome_iff_exists.mp hr
      exact .inl ⟨by rw [replies_reply, hnone]; rfl, hzero, hdone⟩
    · exact .inr ⟨by rw [replies_reply, hnone]; rfl, hstop⟩

theorem Inv.tick {s : State F} (hi : Inv s) : Inv { s with clock := s.clock + 1 } := by
  refine ⟨hi.entry, fun t h ht => ?_, fun c x hc => ?_, hi.silent⟩
  · have hkeeps : KeepsCallers s { s with clock := s.clock + 1 } := keepsCallers_same rfl
    exact (hi.handler t h ht).keeps hkeeps (Nat.le_succ s.clock) Iff.rfl
  · exact CallerOk.frame (s := s) ⟨rfl, fun t h ht => ⟨h, ht, .refl h, fun _ h => h⟩⟩
      (hi.caller c x hc)

theorem Inv.create {s : State F} (hi : Inv s) {c t : Nat} {x y : Caller F} {m : Json F} {id : Id}
    (hc : s.callers c = some x) (hp : x.phase = .created) (hsession : y.session = x.session)
    (hmessage : y.message = x.message) (hzero : y.cancelling = 0) (ht : s.handlers t = none)
    (hm : y.message = some m) (hcall : isMethod "tools/call" m = true)
    (hid : usableId (field m "id") = some id) (hfree : s.tables y.session id = none) :
    Inv { create s c t y m id with clock := s.clock + 1 } := by
  have hsilent : s.replies c = 0 := by
    have := (hi.caller c x hc).phase
    rw [PhaseOk, hp] at this
    exact this.2
  have hne : ∀ t' h, s.handlers t' = some h → t' ≠ t := by
    rintro t' h ht' rfl
    rw [ht] at ht'
    cases ht'
  have htable : ∀ t' h, s.handlers t' = some h →
      ((Function.update s.tables y.session (Function.update (s.tables y.session) id (some t)))
        h.session h.id = some t' ↔ s.tables h.session h.id = some t') := by
    intro t' h ht'
    by_cases hk : h.session = y.session
    · rw [hk, Function.update_self]
      by_cases he : h.id = id
      · rw [he, Function.update_self, hfree]
        exact ⟨fun e => absurd (Option.some.inj e).symm (hne t' h ht'), nofun⟩
      · rw [Function.update_of_ne he]
    · rw [Function.update_of_ne hk]
  have hkeeps : KeepsCallers s { Dispatcher.create s c t y m id with clock := s.clock + 1 } :=
    keepsCallers_update rfl fun x' hx' => by
      rw [hc] at hx'
      cases hx'
      exact ⟨hsession, hmessage, fun h => absurd hp h⟩
  have hframe : ∀ c' x', Frame s { Dispatcher.create s c t y m id with clock := s.clock + 1 } c' x' :=
    fun c' x' => ⟨rfl, fun t' h ht' =>
      ⟨h, (Function.update_of_ne (hne t' h ht') ..).trans ht', .refl h, fun _ h => h⟩⟩
  refine ⟨?_, ?_, ?_, ?_⟩
  · intro k id' t' he
    by_cases hk : k = y.session ∧ id' = id
    · obtain ⟨rfl, rfl⟩ := hk
      have he : (Function.update s.tables y.session (Function.update (s.tables y.session) id' (some t)))
        y.session id' = some t' := he
      rw [Function.update_self, Function.update_self] at he
      cases he
      exact ⟨_, Function.update_self .., rfl, rfl⟩
    · have he' : s.tables k id' = some t' := by
        rw [← he]
        show _ = (Function.update s.tables y.session
          (Function.update (s.tables y.session) id (some t))) k id'
        by_cases hk' : k = y.session
        · subst hk'
          rw [Function.update_self, Function.update_of_ne fun h => hk ⟨rfl, h⟩]
        · rw [Function.update_of_ne hk']
      obtain ⟨h, ht', hs, hid'⟩ := hi.entry k id' t' he'
      exact ⟨h, (Function.update_of_ne (hne t' h ht') ..).trans ht', hs, hid'⟩
  · intro t' h ht'
    by_cases htt : t' = t
    · subst htt
      have ht' : Function.update s.handlers t' _ t' = some h := ht'
      rw [Function.update_self] at ht'
      cases ht'
      refine ⟨Nat.lt_succ_self _, ⟨fun _ => ?_, fun _ => List.mem_cons_self ..⟩,
        ⟨c, List.suffix_refl _⟩, fun _ => List.mem_cons_self .., ?_, nofun, nofun⟩
      · show (Function.update s.tables y.session
          (Function.update (s.tables y.session) id (some t'))) y.session id = some t'
        rw [Function.update_self, Function.update_self]
      · rintro m' hm'
        cases hm'
        exact hcall
    · have ht' : s.handlers t' = some h := (Function.update_of_ne htt ..).symm.trans ht'
      have hh := hi.handler t' h ht'
      exact { hh with
        created := hh.created.trans (Nat.lt_succ_self _)
        listed := hh.listed.trans (htable t' h ht').symm
        asked := fun c' hc' => (hh.asked c' hc').keeps hkeeps }
  · intro c' x' hc'
    by_cases hcc : c' = c
    · subst hcc
      have hc' : Function.update s.callers c' _ c' = some x' := hc'
      rw [Function.update_self] at hc'
      cases hc'
      refine ⟨fun t' htask => ?_, rfl, hzero, hsilent, _, Function.update_self .., by simp⟩
      cases htask
      exact ⟨_, Function.update_self .., rfl, m, hm, hcall, hid⟩
    · have hc' : s.callers c' = some x' := (Function.update_of_ne hcc ..).symm.trans hc'
      exact (hi.caller c' x' hc').frame (hframe c' x')
  · intro c' hc'
    by_cases hcc : c' = c
    · subst hcc
      exact hsilent
    · exact hi.silent c' ((Function.update_of_ne hcc ..).symm.trans hc')

theorem ask_setCaller (s : State F) (t c : Nat) (cause : Cause) (x : Caller F) :
    (s.ask t cause).setCaller c x = (s.setCaller c x).ask t cause := by
  show _ = match s.handlers t with
    | some h => (s.setCaller c x).setHandler t (h.ask cause)
    | none => s.setCaller c x
  rw [State.ask]
  cases s.handlers t <;> rfl

/-- A notification asks the task of its id to stop and waits for it. -/
theorem Inv.notify {s : State F} (hi : Inv s) {c t : Nat} {x y : Caller F} {h : Handler F}
    (hc : s.callers c = some x) (hk : Keeps x y) (hp : y.phase = .gathering t)
    (ht : s.handlers t = some h) (hsession : y.session = h.session) (hnames : Names y.message h.id)
    (hcreated : h.created < y.began) (htask : y.task = none) (hnone : s.replies c = 0) :
    Inv ((s.ask t (.notification c)).setCaller c y) := by
  rw [ask_setCaller]
  have hmoved : Inv (s.setCaller c y) := by
    refine hi.moveCaller rfl rfl rfl rfl (fun _ _ => rfl) ?_ ⟨?_, ?_⟩
    · intro x' hx'
      rw [hc] at hx'
      cases hx'
      exact hk
    · rw [htask]
      exact nofun
    · rw [PhaseOk, hp]
      exact ⟨htask, hnone, h, ht, hsession, hnames, hcreated⟩
  refine hmoved.ask fun h' c' hh' hcause => ?_
  have hh' : s.handlers t = some h' := hh'
  rw [ht] at hh'
  cases hh'
  cases hcause
  exact ⟨y, Function.update_self .., by rw [hp]; exact nofun, hsession, hnames, hcreated⟩

theorem Inv.begin {s : State F} (hi : Inv s) {c t : Nat} {x : Caller F} (hc : s.callers c = some x)
    (hp : x.phase = .created) (hx : x.cancelling = 0) (ht : s.handlers t = none) :
    Inv { begin N s c t { x with began := s.clock } with clock := s.clock + 1 } := by
  have hphase := (hi.caller c x hc).phase
  rw [PhaseOk, hp] at hphase
  obtain ⟨htask, hnone⟩ := hphase
  rcases begin_cases N s c t { x with began := s.clock } with
    ⟨r, hr, hbegin⟩ | ⟨t', id, hnames, hentry, hbegin⟩ | ⟨m, id, hm, hcall, hid, hfree, hbegin⟩
  · rw [hbegin]
    refine Inv.tick (s := s.reply c { x with began := s.clock } r) (hi.reply hc
      ⟨rfl, rfl, fun h => absurd hp h⟩ hnone rfl fun id hid => .inl ⟨hr id hid, hx, fun t h => ?_⟩)
    have h : x.task = some t := h
    rw [htask] at h
    cases h
  · rw [hbegin]
    obtain ⟨h, hh, hsession, rfl⟩ := hi.entry _ _ _ hentry
    have hnotify := hi.notify (y := { x with began := s.clock, phase := .gathering t' }) hc
      ⟨rfl, rfl, fun h => absurd hp h⟩ rfl hh hsession.symm hnames (hi.handler t' h hh).created htask hnone
    have hclock : ((s.ask t' (.notification c)).setCaller c
        { x with began := s.clock, phase := .gathering t' }).clock = s.clock := by
      unfold State.ask
      split <;> rfl
    have := hnotify.tick
    rwa [hclock] at this
  · rw [hbegin]
    exact hi.create hc hp rfl rfl hx ht hm hcall hid hfree

theorem settle_answers {m : Json F} {o : Outcome F} (h : o.answers) : (settle m o).isSome := by
  cases o with
  | returned r => exact h
  | raised => rfl
  | cancelled => exact h.elim

theorem Inv.resume {s : State F} (hi : Inv s) {c : Nat} {x : Caller F} {o : Outcome F} {m : Json F}
    (hc : s.callers c = some x) (hp : x.phase = .woken o) :
    Inv (s.reply c x (if x.cancelling = 0 then settle m o else none)) := by
  have hphase := (hi.caller c x hc).phase
  rw [PhaseOk, hp] at hphase
  obtain ⟨hnone, t, h, htask, ht, hdone⟩ := hphase
  refine hi.reply hc ⟨rfl, rfl, fun _ => ⟨nofun, rfl⟩⟩ hnone rfl fun id _ => ?_
  by_cases hx : x.cancelling = 0
  · rw [if_pos hx]
    have hended := (hi.handler t h ht).ended o (hdone hx)
    by_cases hasked : h.asked = []
    · rw [if_pos hasked] at hended
      refine .inl ⟨settle_answers hended, hx, fun t' ht' => ?_⟩
      rw [htask] at ht'
      cases ht'
      exact ⟨h, o, ht, hdone hx, hasked⟩
    · rw [if_neg hasked] at hended
      exact .inr ⟨by rw [hended]; rfl, .inr ⟨t, h, htask, ht, hasked⟩⟩
  · rw [if_neg hx]
    exact .inr ⟨rfl, .inl hx⟩

theorem Inv.die {s : State F} (hi : Inv s) {c : Nat} {x : Caller F} (hc : s.callers c = some x)
    (hp : x.phase = .created) (hx : x.cancelling ≠ 0) : Inv (s.setCaller c { x with phase := .ended }) := by
  have hphase := (hi.caller c x hc).phase
  rw [PhaseOk, hp] at hphase
  exact hi.reply (r := none) (y := x) hc ⟨rfl, rfl, fun h => absurd hp h⟩ hphase.2 rfl
    fun _ _ => .inr ⟨rfl, .inl hx⟩

theorem Inv.gathered {s : State F} (hi : Inv s) {c t : Nat} {x : Caller F}
    (hc : s.callers c = some x) (hp : x.phase = .gathering t) :
    Inv (s.setCaller c { x with phase := .ended }) := by
  have hphase := (hi.caller c x hc).phase
  rw [PhaseOk, hp] at hphase
  obtain ⟨-, hnone, h, -, -, hnames, -⟩ := hphase
  exact hi.reply (r := none) (y := x) hc ⟨rfl, rfl, fun _ => ⟨nofun, rfl⟩⟩ hnone rfl
    fun id hid => absurd hid (not_call_of_names hnames id)

theorem Inv.arrive {s : State F} (hi : Inv s) {c : Nat} (k : Nat) (message : Option (Json F))
    (hc : s.callers c = none) : Inv (s.setCaller c { session := k, message := message }) := by
  refine hi.moveCaller rfl rfl rfl rfl (fun _ _ => rfl) ?_ ⟨nofun, rfl, hi.silent c hc⟩
  intro x hx
  rw [hc] at hx
  cases hx

theorem Inv.cancelCaller {s : State F} (hi : Inv s) {c : Nat} {x : Caller F}
    (hc : s.callers c = some x) : Inv (cancelCaller s c x) := by
  have hok := hi.caller c x hc
  have hphase := hok.phase
  have hkeeps : ∀ y : Caller F, y.session = x.session → y.message = x.message →
      (x.phase ≠ .created → y.phase ≠ .created ∧ y.began = x.began) →
      ∀ x', s.callers c = some x' → Keeps x' y := by
    intro y hsession hmessage hbegun x' hx'
    rw [hc] at hx'
    cases hx'
    exact ⟨hsession, hmessage, hbegun⟩
  rw [PhaseOk] at hphase
  unfold Dispatcher.cancelCaller
  cases hp : x.phase with
  | created =>
    rw [hp] at hphase
    exact hi.moveCaller rfl rfl rfl rfl (fun _ _ => rfl)
      (hkeeps { x with phase := .created, cancelling := x.cancelling + 1 } rfl rfl fun h => absurd hp h)
      ⟨hok.own, hphase⟩
  | awaiting t =>
    rw [hp] at hphase
    obtain ⟨htask, -, hnone, h, ht, -⟩ := hphase
    exact hi.moveCaller rfl rfl rfl rfl (fun _ _ => rfl)
      (hkeeps { x with phase := .woken .cancelled, cancelling := x.cancelling + 1 } rfl rfl
        fun _ => ⟨nofun, rfl⟩) ⟨hok.own, hnone, t, h, htask, ht, nofun⟩
  | woken o =>
    rw [hp] at hphase
    obtain ⟨hnone, t, h, htask, ht, -⟩ := hphase
    exact hi.moveCaller rfl rfl rfl rfl (fun _ _ => rfl)
      (hkeeps { x with phase := .woken o, cancelling := x.cancelling + 1 } rfl rfl
        fun _ => ⟨nofun, rfl⟩) ⟨hok.own, hnone, t, h, htask, ht, nofun⟩
  | gathering t =>
    rw [hp] at hphase
    obtain ⟨htask, hnone, h, ht, hsession, hnames, hcreated⟩ := hphase
    exact hi.notify (y := { x with phase := .gathering t, cancelling := x.cancelling + 1 }) hc
      ⟨rfl, rfl, fun _ => ⟨nofun, rfl⟩⟩ rfl ht hsession hnames hcreated htask hnone
  | ended => exact hi

theorem HandlerOk.finished {s : State F} {t : Nat} {h : Handler F} (hh : HandlerOk s t h)
    {o : Outcome F} (ho : if h.asked = [] then o.answers else o = .cancelled) :
    HandlerOk s t { h with work := .done o } :=
  { hh with
    active := nofun
    fresh := nofun
    ended := fun o' ho' => by
      cases ho'
      exact ho }

theorem later_finished {h : Handler F} (hw : h.outcome? = none) (w : Work F) :
    Later h { h with work := w } := by
  refine ⟨rfl, rfl, rfl, fun o ho => ?_, fun h => h⟩
  rw [Handler.outcome?, ho] at hw
  cases hw

theorem Inv.run {s : State F} (hi : Inv s) {t : Nat} {h : Handler F} {m : Json F}
    (ht : s.handlers t = some h) (hw : h.work = .fresh m) : Inv (s.setHandler t (runHandler N h m)) := by
  have hh := hi.handler t h ht
  have hactive : h.outcome? = none := by rw [Handler.outcome?, hw]
  unfold runHandler
  by_cases hasked : h.asked = []
  · rw [if_neg (not_not_intro hasked)]
    cases hr : handleRequest N m with
    | ended o =>
      refine hi.moveHandler ht (later_finished hactive _) rfl (hh.finished ?_)
      rw [if_pos hasked]
      exact handleRequest_answers N (hh.fresh m hw) hr
    | waits id name k =>
      exact hi.moveHandler ht (later_finished hactive _) rfl
        { hh with active := fun _ => hh.active hactive, fresh := nofun, ended := nofun }
  · rw [if_pos hasked]
    refine hi.moveHandler ht (later_finished hactive _) rfl (hh.finished ?_)
    rw [if_neg hasked]

theorem Inv.backend {s : State F} (hi : Inv s) {B : Backend F} (hB : B.Cooperative) {t : Nat}
    {h : Handler F} {id : Json F} {name : Text} {k : Call} {e : BackendEnd F}
    (ht : s.handlers t = some h) (hw : h.work = .waiting id name k) (he : B (decide (h.asked ≠ [])) e) :
    Inv (s.setHandler t { h with work := .done (finishTool fl id name e) }) := by
  have hactive : h.outcome? = none := by rw [Handler.outcome?, hw]
  refine hi.moveHandler ht (later_finished hactive _) rfl ((hi.handler t h ht).finished ?_)
  have hcancelled := hB _ e he
  by_cases hasked : h.asked = []
  · rw [if_pos hasked, finishTool_answers]
    exact fun hcase => absurd (hcancelled.mp hcase) (by simp [hasked])
  · rw [if_neg hasked, hcancelled.mpr (by simp [hasked])]
    rfl

theorem suffix_cases {cb : Callback} {rest : List Callback} {c : Nat}
    (h : cb :: rest <:+ [.discard, .shield c]) :
    (cb = .discard ∧ rest = [.shield c]) ∨ (cb = .shield c ∧ rest = []) := by
  rcases List.suffix_cons_iff.mp h with h | h
  · cases h
    exact .inl ⟨rfl, rfl⟩
  · rcases List.suffix_cons_iff.mp h with h | h
    · cases h
      exact .inr ⟨rfl, rfl⟩
    · cases List.suffix_nil.mp h

/-- The done task with one callback less. -/
theorem later_callbacks (h : Handler F) (rest : List Callback) : Later h { h with callbacks := rest } :=
  ⟨rfl, rfl, rfl, fun _ ho => ⟨ho, rfl⟩, fun h => h⟩

theorem Inv.discard {s : State F} (hi : Inv s) {t : Nat} {h : Handler F} {o : Outcome F}
    {rest : List Callback} (ht : s.handlers t = some h) (ho : h.work = .done o)
    (hcb : h.callbacks = .discard :: rest) :
    Inv (runCallback (s.setHandler t { h with callbacks := rest }) t h o .discard) := by
  have hh := hi.handler t h ht
  have hentry : s.tables h.session h.id = some t := hh.listed.mp (hcb ▸ List.mem_cons_self ..)
  obtain ⟨c, hsuffix⟩ := hh.callbacks
  rw [hcb] at hsuffix
  obtain ⟨-, rfl⟩ | ⟨hcase, -⟩ := suffix_cases hsuffix
  swap
  · cases hcase
  rw [runCallback]
  have hentry' : (s.setHandler t { h with callbacks := [.shield c] }).tables h.session h.id = some t :=
    hentry
  rw [if_pos hentry']
  have htable : ∀ k id, (k, id) ≠ (h.session, h.id) →
      (Function.update s.tables h.session (Function.update (s.tables h.session) h.id none)) k id =
        s.tables k id := by
    intro k id hne
    by_cases hk : k = h.session
    · subst hk
      rw [Function.update_self, Function.update_of_ne fun he => hne (by rw [he])]
    · rw [Function.update_of_ne hk]
  have hgone : (Function.update s.tables h.session (Function.update (s.tables h.session) h.id none))
      h.session h.id = none := by
    rw [Function.update_self, Function.update_self]
  refine ⟨?_, ?_, ?_, hi.silent⟩
  · intro k id t' he
    have he : (Function.update s.tables h.session
      (Function.update (s.tables h.session) h.id none)) k id = some t' := he
    by_cases hk : (k, id) = (h.session, h.id)
    · cases hk
      rw [hgone] at he
      cases he
    · rw [htable k id hk] at he
      obtain ⟨g, hg, hsession, hid⟩ := hi.entry k id t' he
      have htt : t' ≠ t := by
        rintro rfl
        rw [ht] at hg
        cases hg
        exact hk (by rw [hsession, hid])
      exact ⟨g, (Function.update_of_ne htt ..).trans hg, hsession, hid⟩
  · intro t' g hg
    have hkeeps : KeepsCallers s ((s.setHandler t { h with callbacks := [.shield c] }).setEntry
      h.session h.id none) := keepsCallers_same rfl
    by_cases htt : t' = t
    · subst htt
      have hg : Function.update s.handlers t' _ t' = some g := hg
      rw [Function.update_self] at hg
      cases hg
      refine { hh with
        listed := ⟨fun hmem => absurd hmem (by simp), fun he => ?_⟩
        callbacks := ⟨c, ⟨[.discard], rfl⟩⟩
        active := fun hnone => ?_
        asked := fun c' hc' => (hh.asked c' hc').keeps hkeeps }
      · rw [show ((s.setHandler t' { h with callbacks := [.shield c] }).setEntry
          h.session h.id none).tables h.session h.id = none from hgone] at he
        cases he
      · rw [Handler.outcome?, ho] at hnone
        cases hnone
    · have hg : s.handlers t' = some g := (Function.update_of_ne htt ..).symm.trans hg
      refine (hi.handler t' g hg).keeps hkeeps (Nat.le_refl s.clock) ?_
      show (Function.update s.tables h.session
        (Function.update (s.tables h.session) h.id none)) g.session g.id = some t' ↔ _
      by_cases hk : (g.session, g.id) = (h.session, h.id)
      · obtain ⟨hsession, hid⟩ := Prod.mk.inj hk
        rw [hsession, hid, hgone, hentry]
        exact ⟨nofun, fun he => absurd (Option.some.inj he).symm htt⟩
      · rw [htable _ _ hk]
  · intro c' x hc'
    have hc' : s.callers c' = some x := hc'
    refine CallerOk.frame (s := s) ⟨rfl, fun t' g hg => ?_⟩ (hi.caller c' x hc')
    by_cases htt : t' = t
    · subst htt
      rw [ht] at hg
      cases hg
      refine ⟨_, Function.update_self .., later_callbacks h _, fun _ hmem => ?_⟩
      rw [hcb] at hmem
      simpa using hmem
    · exact ⟨g, (Function.update_of_ne htt ..).trans hg, .refl g, fun _ h => h⟩

/-- The shield's callback goes where its caller no longer waits for the task. -/
theorem Inv.dropShield {s : State F} (hi : Inv s) {t c : Nat} {h : Handler F} {o : Outcome F}
    (ht : s.handlers t = some h) (ho : h.work = .done o) (hcb : h.callbacks = [.shield c])
    (hc : ∀ x, s.callers c = some x → x.phase ≠ .awaiting t) :
    Inv (s.setHandler t { h with callbacks := [] }) := by
  refine ⟨?_, ?_, ?_, hi.silent⟩
  · intro k id t' he
    obtain ⟨g, hg, hsession, hid⟩ := hi.entry k id t' he
    by_cases htt : t' = t
    · subst htt
      rw [ht] at hg
      cases hg
      exact ⟨_, Function.update_self .., hsession, hid⟩
    · exact ⟨g, (Function.update_of_ne htt ..).trans hg, hsession, hid⟩
  · intro t' g hg
    have hkeeps : KeepsCallers s (s.setHandler t { h with callbacks := [] }) := keepsCallers_same rfl
    by_cases htt : t' = t
    · subst htt
      have hg : Function.update s.handlers t' _ t' = some g := hg
      rw [Function.update_self] at hg
      cases hg
      have hh := hi.handler t' h ht
      refine { hh with
        listed := ⟨fun hmem => absurd hmem (by simp), fun he => ?_⟩
        callbacks := ⟨c, List.nil_suffix⟩
        active := fun hnone => ?_
        asked := fun c' hc' => (hh.asked c' hc').keeps hkeeps }
      · have hmem := hh.listed.mpr he
        rw [hcb] at hmem
        simp at hmem
      · rw [Handler.outcome?, ho] at hnone
        cases hnone
    · have hg : s.handlers t' = some g := (Function.update_of_ne htt ..).symm.trans hg
      exact (hi.handler t' g hg).keeps hkeeps (Nat.le_refl s.clock) Iff.rfl
  · intro c' x hc'
    have hc' : s.callers c' = some x := hc'
    refine CallerOk.frame (s := s) ⟨rfl, fun t' g hg => ?_⟩ (hi.caller c' x hc')
    by_cases htt : t' = t
    · subst htt
      rw [ht] at hg
      cases hg
      refine ⟨_, Function.update_self .., later_callbacks h _, fun hp hmem => ?_⟩
      rw [hcb, List.mem_singleton] at hmem
      cases hmem
      exact absurd hp (hc x hc')
    · exact ⟨g, (Function.update_of_ne htt ..).trans hg, .refl g, fun _ h => h⟩

theorem Inv.wake {s : State F} (hi : Inv s) {t c : Nat} {h : Handler F} {o : Outcome F}
    (ht : s.handlers t = some h) (ho : h.work = .done o) (hcb : h.callbacks = [.shield c]) :
    Inv (runCallback (s.setHandler t { h with callbacks := [] }) t h o (.shield c)) := by
  have hdrop := hi.dropShield ht ho hcb
  have hcallers : (s.setHandler t { h with callbacks := [] }).callers c = s.callers c := rfl
  rw [runCallback, hcallers]
  cases hc : s.callers c with
  | none => exact hdrop (by rw [hc]; exact nofun)
  | some x =>
    by_cases hp : x.phase = .awaiting t
    · have hphase := (hi.caller c x hc).phase
      rw [PhaseOk, hp] at hphase
      obtain ⟨htask, -, hnone, -⟩ := hphase
      simp only [Phase.awaits_iff.mpr hp, if_true]
      have hwoken : Inv (s.setCaller c { x with phase := .woken o }) := by
        refine hi.moveCaller rfl rfl rfl rfl (fun _ _ => rfl) ?_
          ⟨(hi.caller c x hc).own, hnone, t, h, htask, ht, fun _ => ho⟩
        intro x' hx'
        rw [hc] at hx'
        cases hx'
        exact ⟨rfl, rfl, fun _ => ⟨nofun, rfl⟩⟩
      refine hwoken.dropShield ht ho hcb fun x' hx' => ?_
      have hx' : Function.update s.callers c _ c = some x' := hx'
      rw [Function.update_self] at hx'
      cases hx'
      exact nofun
    · have hawaits : x.phase.awaits t = false := Bool.eq_false_iff.mpr (mt Phase.awaits_iff.mp hp)
      simp only [hawaits, Bool.false_eq_true, if_false]
      refine hdrop fun x' hx' => ?_
      rw [hc] at hx'
      cases hx'
      exact hp

theorem Inv.callback {s : State F} (hi : Inv s) {t : Nat} {h : Handler F} {o : Outcome F}
    {cb : Callback} {rest : List Callback} (ht : s.handlers t = some h) (ho : h.work = .done o)
    (hcb : h.callbacks = cb :: rest) :
    Inv (runCallback (s.setHandler t { h with callbacks := rest }) t h o cb) := by
  obtain ⟨c, hsuffix⟩ := (hi.handler t h ht).callbacks
  rw [hcb] at hsuffix
  rcases suffix_cases hsuffix with ⟨rfl, -⟩ | ⟨rfl, rfl⟩
  · exact hi.discard ht ho hcb
  · exact hi.wake ht ho hcb

theorem step_inv {B : Backend F} (hB : B.Cooperative) {s s' : State F} (h : Step N fl B s s')
    (hi : Inv s) : Inv s' := by
  cases h with
  | arrive k message hc => exact hi.arrive k message hc
  | begin hc hp hx ht => exact hi.begin N hc hp hx ht
  | die hc hp hx => exact hi.die hc hp hx
  | resume hc hp hm => exact hi.resume hc hp
  | gathered hc hp ht ho => exact hi.gathered hc hp
  | cancelCaller hc => exact hi.cancelCaller hc
  | run ht hw => exact hi.run N ht hw
  | backend ht hw he => exact hi.backend fl hB ht hw he
  | callback ht ho hcb => exact hi.callback ht ho hcb
  | aclose k => exact hi.aclose k

theorem inv_init : Inv ({} : State F) := ⟨nofun, nofun, nofun, fun _ _ => rfl⟩

theorem reachable_inv {B : Backend F} (hB : B.Cooperative) {s : State F} (h : Reachable N fl B s) :
    Inv s := by
  induction h with
  | init => exact inv_init
  | step _ hs ih => exact step_inv N fl hB hs ih

/-! ## Every interleaving -/

/-- Every handler task is done and its done callbacks have run. -/
def Finished (s : State F) : Prop :=
  ∀ t h, s.handlers t = some h → h.outcome?.isSome ∧ h.callbacks = []

/-- Calls are answered once, and stopped by their own session. -/
structure Answered (B : Backend F) (s : State F) : Prop where
  one_active : ∀ t u h g, s.handlers t = some h → s.handlers u = some g → h.outcome? = none →
    g.outcome? = none → h.session = g.session → h.id = g.id → t = u
  own : ∀ c x t, s.callers c = some x → x.task = some t →
    ∃ h, s.handlers t = some h ∧ h.session = x.session ∧ IsCall x.message h.id
  once : ∀ c, s.replies c ≤ 1
  answered : ∀ c x id, s.callers c = some x → IsCall x.message id → x.phase = .ended →
    (s.replies c = 1 ∧ ¬ Stopped s x) ∨ (s.replies c = 0 ∧ Stopped s x)
  notified : ∀ t h c, s.handlers t = some h → .notification c ∈ h.asked → Notified s h c
  ends : Finished s → ∀ c x, s.callers c = some x → x.phase = .created ∨ x.phase = .ended ∨
    ∃ s' x', Step N fl B s s' ∧ s'.callers c = some x' ∧ x'.phase = .ended
  empty : Finished s → ∀ k id, s.tables k id = none

theorem Inv.once {s : State F} (hi : Inv s) (c : Nat) : s.replies c ≤ 1 := by
  cases hc : s.callers c with
  | none => exact (hi.silent c hc).trans_le (Nat.zero_le 1)
  | some x =>
    have hphase := (hi.caller c x hc).phase
    rw [PhaseOk] at hphase
    cases hp : x.phase <;> rw [hp] at hphase
    · exact hphase.2.trans_le (Nat.zero_le 1)
    · exact hphase.2.2.1.trans_le (Nat.zero_le 1)
    · exact hphase.1.trans_le (Nat.zero_le 1)
    · exact hphase.2.1.trans_le (Nat.zero_le 1)
    · exact hphase.1

/-- An active task has its entry. -/
theorem Inv.entry_of_active {s : State F} (hi : Inv s) {t : Nat} {h : Handler F}
    (ht : s.handlers t = some h) (ha : h.outcome? = none) : s.tables h.session h.id = some t :=
  (hi.handler t h ht).listed.mp ((hi.handler t h ht).active ha)

theorem Ended.exact {s : State F} {c : Nat} {x : Caller F} (h : Ended s c x) :
    (s.replies c = 1 ∧ ¬ Stopped s x) ∨ (s.replies c = 0 ∧ Stopped s x) := by
  refine h.imp_left fun ⟨hone, hzero, hdone⟩ => ⟨hone, ?_⟩
  rintro (hx | ⟨t, h, htask, ht, hasked⟩)
  · exact hx hzero
  · obtain ⟨h', o, ht', -, hnone⟩ := hdone t htask
    rw [ht] at ht'
    cases ht'
    exact hasked hnone

theorem Inv.empty {s : State F} (hi : Inv s) (hf : Finished s) (k : Nat) (id : Id) :
    s.tables k id = none := by
  by_contra hne
  obtain ⟨t, he⟩ := Option.ne_none_iff_exists'.mp hne
  obtain ⟨h, ht, rfl, rfl⟩ := hi.entry k id t he
  have hmem := (hi.handler t h ht).listed.mpr he
  rw [(hf t h ht).2] at hmem
  cases hmem

/-- Where every handler task is done, a begun message ends by a step of its own. -/
theorem Inv.ends {s : State F} (hi : Inv s) (B : Backend F) (hf : Finished s) {c : Nat} {x : Caller F}
    (hc : s.callers c = some x) : x.phase = .created ∨ x.phase = .ended ∨
      ∃ s' x', Step N fl B s s' ∧ s'.callers c = some x' ∧ x'.phase = .ended := by
  have hok := hi.caller c x hc
  have hphase := hok.phase
  rw [PhaseOk] at hphase
  cases hp : x.phase with
  | created => exact .inl rfl
  | awaiting t =>
    rw [hp] at hphase
    obtain ⟨-, -, -, h, ht, hmem⟩ := hphase
    rw [(hf t h ht).2] at hmem
    cases hmem
  | woken o =>
    rw [hp] at hphase
    obtain ⟨-, t, h, htask, -, -⟩ := hphase
    obtain ⟨-, -, -, m, hm, -, -⟩ := hok.own t htask
    exact .inr (.inr ⟨_, _, .resume hc hp hm, Function.update_self .., rfl⟩)
  | gathering t =>
    rw [hp] at hphase
    obtain ⟨-, -, h, ht, -, -, -⟩ := hphase
    have hdone := (hf t h ht).1
    cases hw : h.work with
    | done o => exact .inr (.inr ⟨_, _, .gathered hc hp ht hw, Function.update_self .., rfl⟩)
    | fresh m =>
      rw [Handler.outcome?, hw] at hdone
      cases hdone
    | waiting id name k =>
      rw [Handler.outcome?, hw] at hdone
      cases hdone
  | ended => exact .inr (.inl rfl)

/-- In every run, with a backend whose calls raise `CancelledError` exactly where they are cancelled. -/
theorem calls_answered {B : Backend F} (hB : B.Cooperative) {s : State F}
    (h : Reachable N fl B s) : Answered N fl B s := by
  have hi := reachable_inv N fl hB h
  refine ⟨?_, fun c x t hc => (hi.caller c x hc).own t, hi.once, ?_,
    fun t h c ht => (hi.handler t h ht).asked c, fun hf c x hc => hi.ends N fl B hf hc,
    hi.empty⟩
  · intro t u h g ht hu ha hb hsession hid
    have htable := hi.entry_of_active ht ha
    rw [hsession, hid, hi.entry_of_active hu hb] at htable
    exact (Option.some.inj htable).symm
  · intro c x id hc hcall hp
    have hphase := (hi.caller c x hc).phase
    rw [PhaseOk, hp] at hphase
    exact (hphase.2 id hcall).exact

/-! ## One call that is cancelled -/

/-- A backend that is done at once. -/
def promptBackend : Backend Unit := fun asked e => e = if asked then .cancelled else .unreachable

def plainNumbers : Numbers Unit := ⟨fun _ => true, fun _ => none, fun _ => none⟩

def sampleCall : Json Unit :=
  .obj [("method".toList, .str "tools/call".toList), ("id".toList, .int 1)]

def sampleCancel : Json Unit :=
  .obj [("method".toList, .str "notifications/cancelled".toList),
    ("params".toList, .obj [("requestId".toList, .int 1)])]

/-- The call 0 is stopped by the notification 1 before its task ran. -/
theorem calls_answered_cancel : ∃ s, Answered plainNumbers halves promptBackend s ∧
    s.replies 0 = 0 ∧ s.replies 1 = 0 ∧ s.tables 0 (.int 1) = none ∧
    ∃ x, s.callers 0 = some x ∧ x.phase = .ended := by
  have hB : promptBackend.Cooperative := by
    rintro asked e rfl
    cases asked <;> simp
  have h0 : Reachable plainNumbers halves promptBackend {} := .init
  have h1 := h0.step (.arrive (c := 0) 0 (some sampleCall) rfl)
  have h2 := h1.step (.begin (c := 0) (t := 0) rfl rfl rfl rfl)
  have h3 := h2.step (.arrive (c := 1) 0 (some sampleCancel) rfl)
  have h4 := h3.step (.begin (c := 1) (t := 1) rfl rfl rfl rfl)
  have h5 := h4.step (.run (t := 0) rfl rfl)
  have h6 := h5.step (.callback (t := 0) rfl rfl rfl)
  have h7 := h6.step (.callback (t := 0) rfl rfl rfl)
  have h8 := h7.step (.resume (c := 0) rfl rfl rfl)
  exact ⟨_, calls_answered plainNumbers halves hB h8, rfl, rfl, rfl, _, rfl, rfl⟩

end MainframeRag.Mcp.Dispatcher
