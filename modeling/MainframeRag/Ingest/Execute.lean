import MainframeRag.Lib.PyText
import Mathlib

/-!
# The parse and upsert streams

`_execute` of `ingest/run_ingest.py` as a step relation: one main thread that waits for futures,
handles what is done and refills the parse pool, and an environment in which parses and upserts
return and a worker may die at any moment.

A dead worker breaks the pool: its pending futures fail one after the other with
`BrokenProcessPool`, and a later `submit` raises it. `accounted` says what every run does in which no
submit meets a broken pool; `submit_meets_dead_pool` is a run where one does.
-/

namespace MainframeRag.Ingest.Execute

open PyText

/-! ## Records and results -/

inductive Status
  | error
  | empty
  | dry
  | upserted
  | skipped
  deriving DecidableEq

/-- Counted under `files_ok`, not `files_failed`. -/
def Status.ok : Status → Bool
  | .dry | .upserted | .skipped => true
  | .error | .empty => false

structure Record (T : Type) where
  task : T
  status : Status
  errorType : Option Text := none
  deriving DecidableEq

/-- The record a parse worker returns. -/
inductive Parsed
  | failed (errorType : Option Text)
  | chunks (n : Nat)
  deriving DecidableEq

inductive ParseResult
  | returned (p : Parsed)
  | raised (errorType : Text)
  | brokenPool
  deriving DecidableEq

inductive UpsertResult
  | raised (errorType : Text)
  | upserted
  | skipped
  | empty
  deriving DecidableEq

/-- A future in flight; `result` is `none` until it is done. -/
structure Future (T R : Type) where
  id : Nat
  task : T
  result : Option R := none
  deriving DecidableEq

/-! ## The state -/

structure Config (T : Type) where
  tasks : List T
  workers : Nat
  dryRun : Bool

/-- `_MIN_PARSE_CRASH_LIMIT` -/
def minParseCrashLimit : Nat := 3

variable {T : Type}

def Config.window (cfg : Config T) : Nat := max 2 (cfg.workers * 2)

def Config.crashLimit (cfg : Config T) : Nat := max minParseCrashLimit cfg.window

/-- Where the main thread is; `done` is what is left of the last wait's futures. -/
inductive Pc
  /-- about to call `refill_parse` -/
  | refill (done : List Nat)
  /-- in its submit loop -/
  | fill (done : List Nat)
  | handle (done : List Nat)
  | finished
  /-- parse workers keep dying -/
  | keepDying
  /-- `BrokenProcessPool` out of `pool.submit` -/
  | brokenPool
  deriving DecidableEq

structure State (T : Type) where
  pc : Pc
  todo : List T
  parsePending : List (Future T ParseResult)
  suspects : List T
  isolated : Option Nat
  poolBroken : Bool
  consecutiveCrashes : Nat
  upsertPending : List (Future T UpsertResult)
  records : List (Record T)
  filesOk : Nat
  filesFailed : Nat
  /-- the pool runs workers -/
  poolUsed : Bool
  /-- one of them died -/
  poolDead : Bool
  nextFuture : Nat
  /-- every parse submitted so far -/
  submitted : List T
  /-- every parse result handled so far, latest first, with whether it ran alone -/
  handled : List (Bool × ParseResult)
  deriving DecidableEq

def initial (cfg : Config T) : State T where
  pc := .refill []
  todo := cfg.tasks
  parsePending := []
  suspects := []
  isolated := none
  poolBroken := false
  consecutiveCrashes := 0
  upsertPending := []
  records := []
  filesOk := 0
  filesFailed := 0
  poolUsed := false
  poolDead := false
  nextFuture := 0
  submitted := []
  handled := []

def State.inFlight (s : State T) : Nat := s.parsePending.length + s.upsertPending.length

/-! ## Refilling -/

/-- `pool.submit(_parse_one, task)` -/
def submit (s : State T) (task : T) : State T :=
  { s with
    parsePending := s.parsePending ++ [{ id := s.nextFuture, task := task }]
    poolUsed := true
    nextFuture := s.nextFuture + 1
    submitted := s.submitted ++ [task] }

/-- Suspects run one at a time and alone; new tasks wait for them. -/
def chooseNext (done : List Nat) (s : State T) : State T :=
  match s.suspects with
  | task :: suspects =>
    if s.parsePending ≠ [] then { s with pc := .handle done }
    else if s.poolDead then { s with pc := .brokenPool }
    else { submit { s with suspects := suspects } task with
      isolated := some s.nextFuture, pc := .handle done }
  | [] => if s.isolated ≠ none then { s with pc := .handle done } else { s with pc := .fill done }

/-- A broken pool is replaced once its futures have drained. -/
def refillParse (done : List Nat) (s : State T) : State T :=
  if s.poolBroken then
    if s.parsePending ≠ [] then { s with pc := .handle done }
    else chooseNext done { s with poolBroken := false, poolUsed := false, poolDead := false }
  else chooseNext done s

/-- One round of the submit loop. -/
def fillStep (cfg : Config T) (done : List Nat) (s : State T) : State T :=
  if s.inFlight < cfg.window then
    match s.todo with
    | [] => { s with pc := .handle done }
    | task :: todo =>
      if s.poolDead then { s with pc := .brokenPool }
      else submit { s with todo := todo } task
  else { s with pc := .handle done }

/-! ## Handling a done future -/

/-- Append a record and count it. -/
def record (r : Record T) (s : State T) : State T :=
  { s with
    records := s.records ++ [r]
    filesOk := s.filesOk + (if r.status.ok then 1 else 0)
    filesFailed := s.filesFailed + (if r.status.ok then 0 else 1) }

/-- `upsert_pending[upsert_pool.submit(...)] = ...` -/
def submitUpsert (task : T) (s : State T) : State T :=
  { s with
    upsertPending := s.upsertPending ++ [{ id := s.nextFuture, task := task }]
    nextFuture := s.nextFuture + 1 }

/-- A parse that returned. -/
def handleParsed (cfg : Config T) (task : T) (p : Parsed) (s : State T) : State T :=
  match p with
  | .failed errorType => record ⟨task, .error, errorType⟩ s
  | .chunks n =>
    if cfg.dryRun then
      if n = 0 then record ⟨task, .empty, some "EmptyDocument".toList⟩ s
      else record ⟨task, .dry, none⟩ s
    else submitUpsert task s

/-- A parse future that is done, popped from `parse_pending`; `alone` where it was `isolated`. -/
def handleParse (cfg : Config T) (done : List Nat) (task : T) (alone : Bool) (r : ParseResult)
    (s : State T) : State T :=
  let s := { s with handled := (alone, r) :: s.handled }
  match r with
  | .returned p =>
    { handleParsed cfg task p { s with consecutiveCrashes := 0 } with pc := .refill done }
  | .raised errorType => { record ⟨task, .error, some errorType⟩ s with pc := .refill done }
  | .brokenPool =>
    if alone then
      if cfg.crashLimit ≤ s.consecutiveCrashes + 1 then
        { s with poolBroken := true, consecutiveCrashes := s.consecutiveCrashes + 1,
                 pc := .keepDying }
      else
        { record ⟨task, .error, some "BrokenProcessPool".toList⟩
            { s with poolBroken := true, consecutiveCrashes := s.consecutiveCrashes + 1 } with
          pc := .refill done }
    else { s with poolBroken := true, suspects := s.suspects ++ [task], pc := .refill done }

def handleUpsert (task : T) : UpsertResult → State T → State T
  | .raised errorType => record ⟨task, .error, some errorType⟩
  | .upserted => record ⟨task, .upserted, none⟩
  | .skipped => record ⟨task, .skipped, none⟩
  | .empty => record ⟨task, .empty, some "EmptyDocument".toList⟩

/-- One round of `for future in done`. -/
def handleNext (cfg : Config T) (f : Nat) (done : List Nat) (s : State T) : State T :=
  match s.parsePending.find? (fun p => p.id = f) with
  | some p =>
    match p.result with
    | none => s
    | some r =>
      handleParse cfg done p.task (s.isolated = some f) r
        { s with
          parsePending := s.parsePending.filter (fun p => p.id ≠ f)
          isolated := if s.isolated = some f then none else s.isolated }
  | none =>
    match s.upsertPending.find? (fun u => u.id = f) with
    | none => s
    | some u =>
      match u.result with
      | none => s
      | some r =>
        { handleUpsert u.task r
            { s with upsertPending := s.upsertPending.filter (fun u => u.id ≠ f) } with
          pc := .refill done }

/-! ## Steps -/

/-- A future in flight that is done. -/
def State.isDone (s : State T) (f : Nat) : Prop :=
  (∃ p ∈ s.parsePending, p.id = f ∧ p.result ≠ none) ∨
    ∃ u ∈ s.upsertPending, u.id = f ∧ u.result ≠ none

def setResult {R : Type} (f : Nat) (r : R) (fs : List (Future T R)) : List (Future T R) :=
  fs.map (fun p => if p.id = f then { p with result := some r } else p)

/-- A future in flight that is not done. -/
def pendingIn {R : Type} (f : Nat) (fs : List (Future T R)) : Prop :=
  ∃ p ∈ fs, p.id = f ∧ p.result = none

def running : Pc → Prop
  | .refill _ | .fill _ | .handle _ => True
  | _ => False

inductive Step (cfg : Config T) : State T → State T → Prop
  | refill {s : State T} {done : List Nat} : s.pc = .refill done → Step cfg s (refillParse done s)
  | fill {s : State T} {done : List Nat} : s.pc = .fill done → Step cfg s (fillStep cfg done s)
  | handle {s : State T} {f : Nat} {done : List Nat} :
      s.pc = .handle (f :: done) → Step cfg s (handleNext cfg f done s)
  /-- `concurrent.futures.wait` returns some of the done futures, in any order. -/
  | wait {s : State T} {done : List Nat} : s.pc = .handle [] → done ≠ [] → done.Nodup →
      (∀ f ∈ done, s.isDone f) → Step cfg s { s with pc := .handle done }
  | finish {s : State T} : s.pc = .handle [] → s.parsePending = [] → s.upsertPending = [] →
      Step cfg s { s with pc := .finished }
  /-- A worker dies. -/
  | die {s : State T} : running s.pc → s.poolUsed = true → s.poolDead = false →
      Step cfg s { s with poolDead := true }
  /-- A parse ends while the pool is whole. -/
  | parseEnds {s : State T} {f : Nat} {r : ParseResult} : running s.pc → s.poolDead = false →
      r ≠ .brokenPool → pendingIn f s.parsePending →
      Step cfg s { s with parsePending := setResult f r s.parsePending }
  /-- A pending parse of the broken pool fails. -/
  | parseBreaks {s : State T} {f : Nat} : running s.pc → s.poolDead = true →
      pendingIn f s.parsePending →
      Step cfg s { s with parsePending := setResult f .brokenPool s.parsePending }
  | upsertEnds {s : State T} {f : Nat} {r : UpsertResult} : running s.pc →
      pendingIn f s.upsertPending →
      Step cfg s { s with upsertPending := setResult f r s.upsertPending }

/-- The main thread is about to submit to a pool that is broken. -/
def MeetsDeadPool (cfg : Config T) (s : State T) : Prop :=
  s.poolDead = true ∧
    ((∃ done, s.pc = .refill done ∧ s.poolBroken = false ∧ s.suspects ≠ [] ∧ s.parsePending = []) ∨
      ∃ done, s.pc = .fill done ∧ s.inFlight < cfg.window ∧ s.todo ≠ [])

/-- A step that does not submit to a broken pool. -/
def CleanStep (cfg : Config T) (s s' : State T) : Prop := Step cfg s s' ∧ ¬MeetsDeadPool cfg s

/-! ## Futures -/

section

variable {R : Type} {f : Nat} {r : R} {fs : List (Future T R)}

@[simp] theorem setResult_task : (setResult f r fs).map Future.task = fs.map Future.task := by
  rw [setResult, List.map_map]
  refine List.map_congr_left fun p _ => ?_
  simp only [Function.comp_apply]
  split <;> rfl

@[simp] theorem setResult_id : (setResult f r fs).map Future.id = fs.map Future.id := by
  rw [setResult, List.map_map]
  refine List.map_congr_left fun p _ => ?_
  simp only [Function.comp_apply]
  split <;> rfl

@[simp] theorem setResult_length : (setResult f r fs).length = fs.length := by
  simp [setResult]

@[simp] theorem setResult_eq_nil : setResult f r fs = [] ↔ fs = [] := by
  simp [setResult]

theorem setResult_done {g : Nat} (h : ∃ p ∈ fs, p.id = g ∧ p.result ≠ none) :
    ∃ p ∈ setResult f r fs, p.id = g ∧ p.result ≠ none := by
  obtain ⟨p, hp, hg, hr⟩ := h
  refine ⟨_, List.mem_map_of_mem hp, ?_⟩
  split
  · exact ⟨hg, by simp⟩
  · exact ⟨hg, hr⟩

/-- Futures have different ids: popping one leaves the others. -/
theorem pop_future {p : Future T R} (hn : (fs.map Future.id).Nodup)
    (h : fs.find? (fun p => p.id = f) = some p) :
    p.id = f ∧ ∃ a b, fs = a ++ p :: b ∧ fs.filter (fun p => p.id ≠ f) = a ++ b := by
  have hid := List.find?_some h
  simp only [decide_eq_true_eq] at hid
  refine ⟨hid, ?_⟩
  obtain ⟨a, b, rfl⟩ := List.append_of_mem (List.mem_of_find?_eq_some h)
  refine ⟨a, b, rfl, ?_⟩
  rw [List.map_append, List.map_cons, List.nodup_append] at hn
  obtain ⟨-, hb, hab⟩ := hn
  have hka : a.filter (fun p => p.id ≠ f) = a := by
    refine List.filter_eq_self.mpr fun q hq => ?_
    have := hab q.id (List.mem_map_of_mem hq) p.id List.mem_cons_self
    simpa [hid] using this
  have hkb : b.filter (fun p => p.id ≠ f) = b := by
    refine List.filter_eq_self.mpr fun q hq => ?_
    have hq' : q.id ≠ p.id := fun e =>
      (List.nodup_cons.mp hb).1 (e ▸ List.mem_map_of_mem hq)
    simpa [hid] using hq'
  rw [List.filter_append, hka, List.filter_cons_of_neg (by simpa using hid), hkb]

theorem find_future {g : Nat} (h : ∃ p ∈ fs, p.id = g) :
    ∃ p, fs.find? (fun p => p.id = g) = some p := by
  obtain ⟨p, hp, hg⟩ := h
  cases hf : fs.find? (fun p => p.id = g) with
  | none => exact absurd (List.find?_eq_none.mp hf p hp) (by simpa using hg)
  | some q => exact ⟨q, rfl⟩

end

/-! ## The invariant -/

/-- The futures the main thread still has to handle of the last wait. -/
def Pc.left : Pc → List Nat
  | .refill done | .fill done | .handle done => done
  | _ => []

/-- Pending parses that may become suspects: the isolated one may not. -/
def State.firsts (s : State T) : List T :=
  if s.isolated = none then s.parsePending.map Future.task else []

/-- Crashes of isolated parses since the last parse that returned. -/
def crashStreak (handled : List (Bool × ParseResult)) : Nat :=
  (handled.takeWhile (fun h => match h.2 with | .returned _ => false | _ => true)).countP
    (fun h => h = (true, .brokenPool))

section

variable [DecidableEq T]

/-- Where a task is. -/
def State.holds (s : State T) (t : T) : Nat :=
  s.todo.count t + s.suspects.count t + (s.parsePending.map Future.task).count t +
    (s.upsertPending.map Future.task).count t + (s.records.map Record.task).count t

structure Inv (cfg : Config T) (s : State T) : Prop where
  conserved : s.pc ≠ .keepDying → ∀ t, s.holds t = cfg.tasks.count t
  twice : ∀ t, s.submitted.count t + 2 * s.todo.count t + s.suspects.count t + s.firsts.count t ≤
    2 * cfg.tasks.count t
  window : s.parsePending.length + s.upsertPending.length + s.suspects.length ≤ cfg.window
  alone : ∀ i, s.isolated = some i → ∃ p, s.parsePending = [p] ∧ p.id = i
  ids : (s.parsePending.map Future.id ++ s.upsertPending.map Future.id).Nodup
  ids_lt : ∀ i ∈ s.parsePending.map Future.id ++ s.upsertPending.map Future.id, i < s.nextFuture
  left : s.pc.left.Nodup ∧ ∀ f ∈ s.pc.left, s.isDone f
  ok : s.filesOk = s.records.countP (fun r => r.status.ok)
  failed : s.filesFailed = s.records.countP (fun r => !r.status.ok)
  streak : s.consecutiveCrashes = crashStreak s.handled
  limit : running s.pc → s.consecutiveCrashes < cfg.crashLimit
  stopped : s.pc = .keepDying → s.consecutiveCrashes = cfg.crashLimit
  filling : ∀ done, s.pc = .fill done → s.suspects = [] ∧ s.isolated = none
  refilled : ∀ done, s.pc = .handle done → (s.suspects ≠ [] → s.parsePending ≠ []) ∧
    (s.todo ≠ [] → s.parsePending ≠ [] ∨ s.upsertPending ≠ [])
  finished : s.pc = .finished →
    s.todo = [] ∧ s.suspects = [] ∧ s.parsePending = [] ∧ s.upsertPending = []
  whole : s.pc ≠ .brokenPool

variable {cfg : Config T} {s s' : State T}

omit [DecidableEq T] in
theorem window_pos (cfg : Config T) : 2 ≤ cfg.window := Nat.le_max_left _ _

omit [DecidableEq T] in
theorem crashLimit_pos (cfg : Config T) : 3 ≤ cfg.crashLimit := Nat.le_max_left _ _

theorem Inv.initial (cfg : Config T) : Inv cfg (initial cfg) where
  conserved := by simp [Execute.initial, State.holds]
  twice := by simp [Execute.initial, State.firsts]
  window := by simp [Execute.initial]
  alone := by simp [Execute.initial]
  ids := by simp [Execute.initial]
  ids_lt := by simp [Execute.initial]
  left := by simp [Execute.initial, Pc.left]
  ok := by simp [Execute.initial]
  failed := by simp [Execute.initial]
  streak := by simp [Execute.initial, crashStreak]
  limit := fun _ => by
    have := crashLimit_pos cfg
    simp only [Execute.initial]
    omega
  stopped := by simp [Execute.initial]
  filling := by simp [Execute.initial]
  refilled := by simp [Execute.initial]
  finished := by simp [Execute.initial]
  whole := by simp [Execute.initial]

/-! ## Refilling keeps it -/

/-- Nothing says what state the pool is in. -/
theorem Inv.pool (h : Inv cfg s) (broken used dead : Bool) :
    Inv cfg { s with poolBroken := broken, poolUsed := used, poolDead := dead } :=
  ⟨h.conserved, h.twice, h.window, h.alone, h.ids, h.ids_lt, h.left, h.ok, h.failed, h.streak,
    h.limit, h.stopped, h.filling, h.refilled, h.finished, h.whole⟩

/-- Back to the loop over the done futures. -/
theorem Inv.toHandle (h : Inv cfg s) {done : List Nat} (hrun : running s.pc)
    (hleft : s.pc.left = done) (hsus : s.suspects ≠ [] → s.parsePending ≠ [])
    (htodo : s.todo ≠ [] → s.parsePending ≠ [] ∨ s.upsertPending ≠ []) :
    Inv cfg { s with pc := .handle done } where
  conserved := fun _ => h.conserved (by rintro e; rw [e] at hrun; exact hrun)
  twice := h.twice
  window := h.window
  alone := h.alone
  ids := h.ids
  ids_lt := h.ids_lt
  left := hleft ▸ h.left
  ok := h.ok
  failed := h.failed
  streak := h.streak
  limit := fun _ => h.limit hrun
  stopped := nofun
  filling := nofun
  refilled := fun _ _ => ⟨hsus, htodo⟩
  finished := nofun
  whole := nofun

theorem Inv.toFill (h : Inv cfg s) {done : List Nat} (hrun : running s.pc)
    (hleft : s.pc.left = done) (hsus : s.suspects = []) (hiso : s.isolated = none) :
    Inv cfg { s with pc := .fill done } where
  conserved := fun _ => h.conserved (by rintro e; rw [e] at hrun; exact hrun)
  twice := h.twice
  window := h.window
  alone := h.alone
  ids := h.ids
  ids_lt := h.ids_lt
  left := hleft ▸ h.left
  ok := h.ok
  failed := h.failed
  streak := h.streak
  limit := fun _ => h.limit hrun
  stopped := nofun
  filling := fun _ _ => ⟨hsus, hiso⟩
  refilled := nofun
  finished := nofun
  whole := nofun

omit [DecidableEq T] in
theorem isDone_submit {f : Nat} {t : T} (h : s.isDone f) : (submit s t).isDone f := by
  rcases h with ⟨p, hp, hf⟩ | hu
  · exact .inl ⟨p, List.mem_append_left _ hp, hf⟩
  · exact .inr hu

/-- The new future's id is new. -/
theorem Inv.submit_ids (h : Inv cfg s) (t : T) :
    ((submit s t).parsePending.map Future.id ++ (submit s t).upsertPending.map Future.id).Nodup ∧
      ∀ i ∈ (submit s t).parsePending.map Future.id ++ (submit s t).upsertPending.map Future.id,
        i < (submit s t).nextFuture := by
  have hperm : ((submit s t).parsePending.map Future.id ++
      (submit s t).upsertPending.map Future.id).Perm
      (s.nextFuture :: (s.parsePending.map Future.id ++ s.upsertPending.map Future.id)) := by
    simp only [submit, List.map_append, List.map_cons, List.map_nil, List.append_assoc,
      List.singleton_append]
    exact List.perm_middle
  constructor
  · rw [hperm.nodup_iff, List.nodup_cons]
    exact ⟨fun hm => Nat.lt_irrefl _ (h.ids_lt _ hm), h.ids⟩
  · intro i hi
    rw [hperm.mem_iff, List.mem_cons] at hi
    show i < s.nextFuture + 1
    rcases hi with rfl | hi
    · omega
    · have := h.ids_lt i hi
      omega

/-- A suspect is submitted alone. -/
theorem Inv.submitSuspect (h : Inv cfg s) {done : List Nat} {t : T} {suspects : List T}
    (hrun : running s.pc) (hleft : s.pc.left = done) (hsus : s.suspects = t :: suspects)
    (hparse : s.parsePending = []) :
    Inv cfg { submit { s with suspects := suspects } t with
      isolated := some s.nextFuture, pc := .handle done } := by
  have hkeep : s.pc ≠ .keepDying := by rintro e; rw [e] at hrun; exact hrun
  have hids := h.submit_ids t
  refine { conserved := fun _ u => ?_, twice := fun u => ?_, window := ?_, alone := ?_,
           ids := hids.1, ids_lt := hids.2, left := ?_, ok := h.ok, failed := h.failed,
           streak := h.streak, limit := fun _ => h.limit hrun, stopped := nofun, filling := nofun,
           refilled := ?_, finished := nofun, whole := nofun }
  · have hc := h.conserved hkeep u
    simp only [State.holds, hsus, hparse, submit, List.count_cons, List.map_cons, List.map_nil,
      List.count_nil, List.nil_append] at hc ⊢
    omega
  · have ht := h.twice u
    simp only [hsus, State.firsts, submit, List.count_append, List.count_cons,
      List.count_nil, reduceCtorEq, if_false] at ht ⊢
    omega
  · have hw := h.window
    simp only [hsus, hparse, submit, List.length_append, List.length_cons, List.length_nil] at hw ⊢
    omega
  · intro i hi
    simp only [Option.some.injEq] at hi
    exact ⟨⟨s.nextFuture, t, none⟩, by simp [submit, hparse], hi⟩
  · refine ⟨hleft ▸ h.left.1, fun f hf => ?_⟩
    exact isDone_submit (s := { s with suspects := suspects }) (h.left.2 f (hleft ▸ hf))
  · intro _ _
    simp [submit]

theorem Inv.chooseNext (h : Inv cfg s) {done : List Nat} (hrun : running s.pc)
    (hleft : s.pc.left = done)
    (hclean : ¬(s.poolDead = true ∧ s.suspects ≠ [] ∧ s.parsePending = [])) :
    Inv cfg (chooseNext done s) := by
  unfold Execute.chooseNext
  split
  · next t suspects hsus =>
    split
    · next hp => exact h.toHandle hrun hleft (fun _ => hp) (fun _ => .inl hp)
    · next hp =>
      rw [ne_eq, not_not] at hp
      split
      · next hd => exact absurd ⟨hd, by simp [hsus], hp⟩ hclean
      · exact h.submitSuspect hrun hleft hsus hp
  · next hsus =>
    split
    · next hiso =>
      obtain ⟨i, hi⟩ := Option.ne_none_iff_exists'.mp hiso
      obtain ⟨p, hp, -⟩ := h.alone i hi
      have hne : s.parsePending ≠ [] := by simp [hp]
      exact h.toHandle hrun hleft (fun _ => hne) (fun _ => .inl hne)
    · next hiso => exact h.toFill hrun hleft hsus (not_not.mp hiso)

theorem Inv.refillParse (h : Inv cfg s) {done : List Nat} (hpc : s.pc = .refill done)
    (hclean : ¬MeetsDeadPool cfg s) : Inv cfg (refillParse done s) := by
  have hrun : running s.pc := by rw [hpc]; trivial
  have hleft : s.pc.left = done := by rw [hpc]; rfl
  unfold Execute.refillParse
  split
  · split
    · next hp => exact h.toHandle hrun hleft (fun _ => hp) (fun _ => .inl hp)
    · exact (h.pool false false false).chooseNext hrun hleft (by simp)
  · next hb =>
    refine h.chooseNext hrun hleft fun ⟨hd, hs, hp⟩ => hclean ⟨hd, .inl ⟨done, hpc, ?_, hs, hp⟩⟩
    simpa using hb

theorem Inv.fillStep (h : Inv cfg s) {done : List Nat} (hpc : s.pc = .fill done)
    (hclean : ¬MeetsDeadPool cfg s) : Inv cfg (fillStep cfg done s) := by
  have hrun : running s.pc := by rw [hpc]; trivial
  have hleft : s.pc.left = done := by rw [hpc]; rfl
  obtain ⟨hsus, hiso⟩ := h.filling done hpc
  unfold Execute.fillStep
  split
  · next hroom =>
    split
    · next htodo => exact h.toHandle hrun hleft (fun hs => absurd hsus hs) (fun ht => absurd htodo ht)
    · next t todo htodo =>
      split
      · next hd => exact absurd ⟨hd, .inr ⟨done, hpc, hroom, by simp [htodo]⟩⟩ hclean
      · have hids := h.submit_ids t
        refine { conserved := fun hk u => ?_, twice := fun u => ?_, window := ?_, alone := ?_,
                 ids := hids.1, ids_lt := hids.2, left := ?_, ok := h.ok, failed := h.failed,
                 streak := h.streak, limit := h.limit, stopped := h.stopped, filling := h.filling,
                 refilled := ?_, finished := ?_, whole := h.whole }
        · have hc := h.conserved hk u
          simp only [State.holds, htodo, submit, List.count_cons, List.count_append, List.map_append,
            List.map_cons, List.map_nil, List.count_nil] at hc ⊢
          omega
        · have ht := h.twice u
          simp only [htodo, State.firsts, hiso, submit, if_true, List.count_append, List.count_cons,
            List.map_append, List.map_cons, List.map_nil, List.count_nil] at ht ⊢
          omega
        · simp only [State.inFlight] at hroom
          simp only [submit, hsus, List.length_append, List.length_cons, List.length_nil]
          omega
        · intro i hi
          rw [show (submit { s with todo := todo } t).isolated = s.isolated from rfl, hiso] at hi
          cases hi
        · exact ⟨h.left.1, fun f hf => isDone_submit (s := { s with todo := todo }) (h.left.2 f hf)⟩
        · intro d hd
          rw [show (submit { s with todo := todo } t).pc = s.pc from rfl, hpc] at hd
          cases hd
        · intro hf
          rw [show (submit { s with todo := todo } t).pc = s.pc from rfl, hpc] at hf
          cases hf
  · next hfull =>
    refine h.toHandle hrun hleft (fun hs => absurd hsus hs) (fun _ => ?_)
    have := window_pos cfg
    by_contra hcon
    simp only [not_or, not_not] at hcon
    simp only [State.inFlight, hcon.1, hcon.2, List.length_nil] at hfull
    omega

/-! ## Handling keeps it -/

omit [DecidableEq T] in
@[simp] theorem crashStreak_returned (alone : Bool) (p : Parsed) (hs : List (Bool × ParseResult)) :
    crashStreak ((alone, .returned p) :: hs) = 0 := by
  simp [crashStreak]

omit [DecidableEq T] in
@[simp] theorem crashStreak_raised (alone : Bool) (e : Text) (hs : List (Bool × ParseResult)) :
    crashStreak ((alone, .raised e) :: hs) = crashStreak hs := by
  simp [crashStreak]

omit [DecidableEq T] in
@[simp] theorem crashStreak_broken (alone : Bool) (hs : List (Bool × ParseResult)) :
    crashStreak ((alone, .brokenPool) :: hs) = crashStreak hs + if alone then 1 else 0 := by
  cases alone <;> simp [crashStreak]

/-- A done future's task is in hand: neither in flight nor recorded. -/
structure Popped (cfg : Config T) (t : T) (alone : Bool) (done : List Nat) (s : State T) : Prop where
  conserved : ∀ u, s.holds u + [t].count u = cfg.tasks.count u
  twice : ∀ u, s.submitted.count u + 2 * s.todo.count u + s.suspects.count u + s.firsts.count u +
    (if alone then 0 else [t].count u) ≤ 2 * cfg.tasks.count u
  window : s.parsePending.length + s.upsertPending.length + s.suspects.length + 1 ≤ cfg.window
  alone : ∀ i, s.isolated = some i → ∃ p, s.parsePending = [p] ∧ p.id = i
  ids : (s.parsePending.map Future.id ++ s.upsertPending.map Future.id).Nodup
  ids_lt : ∀ i ∈ s.parsePending.map Future.id ++ s.upsertPending.map Future.id, i < s.nextFuture
  left : done.Nodup ∧ ∀ f ∈ done, s.isDone f
  ok : s.filesOk = s.records.countP (fun r => r.status.ok)
  failed : s.filesFailed = s.records.countP (fun r => !r.status.ok)

section

variable {t : T} {alone : Bool} {done : List Nat}

/-- It does not depend on what is known of crashes. -/
theorem Popped.crashes (h : Popped cfg t alone done s) (handled : List (Bool × ParseResult))
    (crashes : Nat) (broken : Bool) :
    Popped cfg t alone done
      { s with handled := handled, consecutiveCrashes := crashes, poolBroken := broken } :=
  ⟨h.conserved, h.twice, h.window, h.alone, h.ids, h.ids_lt, h.left, h.ok, h.failed⟩

theorem Popped.recorded (h : Popped cfg t alone done s)
    (hstreak : s.consecutiveCrashes = crashStreak s.handled)
    (hlimit : s.consecutiveCrashes < cfg.crashLimit) (status : Status) (errorType : Option Text) :
    Inv cfg { record ⟨t, status, errorType⟩ s with pc := .refill done } := by
  refine { conserved := fun _ u => ?_, twice := fun u => ?_, window := ?_, alone := h.alone,
           ids := h.ids, ids_lt := h.ids_lt, left := h.left, ok := ?_, failed := ?_,
           streak := hstreak, limit := fun _ => hlimit, stopped := nofun, filling := nofun,
           refilled := nofun, finished := nofun, whole := nofun }
  · have hc := h.conserved u
    simp only [State.holds, record, List.map_append, List.map_cons, List.map_nil,
      List.count_append] at hc ⊢
    omega
  · have ht := h.twice u
    show s.submitted.count u + 2 * s.todo.count u + s.suspects.count u + s.firsts.count u ≤ _
    omega
  · have := h.window
    simp only [record]
    omega
  · have := h.ok
    simp only [record, List.countP_append, List.countP_singleton]
    omega
  · have := h.failed
    simp only [record, List.countP_append, List.countP_singleton]
    cases status.ok <;> simp <;> omega

/-- A task whose pool broke around it is kept for a parse alone. -/
theorem Popped.suspected (h : Popped cfg t false done s)
    (hstreak : s.consecutiveCrashes = crashStreak s.handled)
    (hlimit : s.consecutiveCrashes < cfg.crashLimit) :
    Inv cfg { s with suspects := s.suspects ++ [t], pc := .refill done } := by
  refine { conserved := fun _ u => ?_, twice := fun u => ?_, window := ?_, alone := h.alone,
           ids := h.ids, ids_lt := h.ids_lt, left := h.left, ok := h.ok, failed := h.failed,
           streak := hstreak, limit := fun _ => hlimit, stopped := nofun, filling := nofun,
           refilled := nofun, finished := nofun, whole := nofun }
  · have hc := h.conserved u
    simp only [State.holds, List.count_append] at hc ⊢
    omega
  · have ht := h.twice u
    simp only [State.firsts, List.count_append, Bool.false_eq_true, if_false] at ht ⊢
    omega
  · have := h.window
    simp only [List.length_append, List.length_cons, List.length_nil]
    omega

theorem Popped.upserting (h : Popped cfg t alone done s)
    (hstreak : s.consecutiveCrashes = crashStreak s.handled)
    (hlimit : s.consecutiveCrashes < cfg.crashLimit) :
    Inv cfg { submitUpsert t s with pc := .refill done } := by
  have hperm : ((submitUpsert t s).parsePending.map Future.id ++
      (submitUpsert t s).upsertPending.map Future.id).Perm
      (s.nextFuture :: (s.parsePending.map Future.id ++ s.upsertPending.map Future.id)) := by
    simp only [submitUpsert, List.map_append, List.map_cons, List.map_nil, ← List.append_assoc]
    exact List.perm_append_singleton _ _
  refine { conserved := fun _ u => ?_, twice := fun u => ?_, window := ?_, alone := h.alone,
           ids := ?_, ids_lt := ?_, left := ⟨h.left.1, fun f hf => ?_⟩, ok := h.ok,
           failed := h.failed, streak := hstreak, limit := fun _ => hlimit, stopped := nofun,
           filling := nofun, refilled := nofun, finished := nofun, whole := nofun }
  · have hc := h.conserved u
    simp only [State.holds, submitUpsert, List.map_append, List.map_cons, List.map_nil,
      List.count_append] at hc ⊢
    omega
  · have ht := h.twice u
    show s.submitted.count u + 2 * s.todo.count u + s.suspects.count u + s.firsts.count u ≤ _
    omega
  · have := h.window
    simp only [submitUpsert, List.length_append, List.length_cons, List.length_nil]
    omega
  · rw [hperm.nodup_iff, List.nodup_cons]
    exact ⟨fun hm => Nat.lt_irrefl _ (h.ids_lt _ hm), h.ids⟩
  · intro i hi
    rw [hperm.mem_iff, List.mem_cons] at hi
    show i < s.nextFuture + 1
    rcases hi with rfl | hi
    · omega
    · have := h.ids_lt i hi
      omega
  · rcases h.left.2 f hf with hp | ⟨u, hu, hid⟩
    · exact .inl hp
    · exact .inr ⟨u, List.mem_append_left _ hu, hid⟩

/-- The run stops: the culprit is not recorded. -/
theorem Popped.keepDying (h : Popped cfg t alone done s)
    (hstreak : s.consecutiveCrashes = crashStreak s.handled)
    (hlimit : s.consecutiveCrashes = cfg.crashLimit) :
    Inv cfg { s with pc := .keepDying } := by
  refine { conserved := fun hk => absurd rfl hk, twice := fun u => ?_, window := ?_,
           alone := h.alone, ids := h.ids, ids_lt := h.ids_lt, left := ⟨List.nodup_nil, nofun⟩,
           ok := h.ok, failed := h.failed, streak := hstreak, limit := nofun,
           stopped := fun _ => hlimit, filling := nofun, refilled := nofun, finished := nofun,
           whole := nofun }
  · have ht := h.twice u
    show s.submitted.count u + 2 * s.todo.count u + s.suspects.count u + s.firsts.count u ≤ _
    omega
  · have := h.window
    show s.parsePending.length + s.upsertPending.length + s.suspects.length ≤ cfg.window
    omega

theorem Popped.handleParse (h : Popped cfg t alone done s)
    (hstreak : s.consecutiveCrashes = crashStreak s.handled)
    (hlimit : s.consecutiveCrashes < cfg.crashLimit) (r : ParseResult) :
    Inv cfg (handleParse cfg done t alone r s) := by
  have hpos := crashLimit_pos cfg
  cases r with
  | returned p =>
    have hp := h.crashes ((alone, .returned p) :: s.handled) 0 s.poolBroken
    have h0 : (0 : Nat) = crashStreak ((alone, .returned p) :: s.handled) := by simp
    simp only [Execute.handleParse]
    cases p with
    | failed errorType => exact hp.recorded h0 (by simp only; omega) .error errorType
    | chunks n =>
      simp only [handleParsed]
      split
      · split
        · exact hp.recorded h0 (by simp only; omega) .empty _
        · exact hp.recorded h0 (by simp only; omega) .dry none
      · exact hp.upserting h0 (by simp only; omega)
  | raised errorType =>
    refine (h.crashes ((alone, .raised errorType) :: s.handled) s.consecutiveCrashes
      s.poolBroken).recorded ?_ hlimit .error (some errorType)
    simpa using hstreak
  | brokenPool =>
    simp only [Execute.handleParse]
    cases alone with
    | true =>
      have hp := h.crashes ((true, .brokenPool) :: s.handled) (s.consecutiveCrashes + 1) true
      have hs : s.consecutiveCrashes + 1 = crashStreak ((true, .brokenPool) :: s.handled) := by
        simpa using hstreak
      simp only [if_true]
      split
      · next hmax => exact hp.keepDying hs (by simp only; omega)
      · next hmax => exact hp.recorded hs (by simp only; omega) .error _
    | false =>
      refine (h.crashes ((false, .brokenPool) :: s.handled) s.consecutiveCrashes true).suspected
        ?_ hlimit
      simpa using hstreak

theorem Popped.handleUpsert (h : Popped cfg t alone done s)
    (hstreak : s.consecutiveCrashes = crashStreak s.handled)
    (hlimit : s.consecutiveCrashes < cfg.crashLimit) (r : UpsertResult) :
    Inv cfg { handleUpsert t r s with pc := .refill done } := by
  cases r with
  | raised errorType => exact h.recorded hstreak hlimit .error _
  | upserted => exact h.recorded hstreak hlimit .upserted none
  | skipped => exact h.recorded hstreak hlimit .skipped none
  | empty => exact h.recorded hstreak hlimit .empty _

end

theorem Inv.popParse (h : Inv cfg s) {f : Nat} {done : List Nat} (hpc : s.pc = .handle (f :: done))
    {p : Future T ParseResult} (hp : s.parsePending.find? (fun p => p.id = f) = some p) :
    Popped cfg p.task (s.isolated = some f) done
      { s with
        parsePending := s.parsePending.filter (fun p => p.id ≠ f)
        isolated := if s.isolated = some f then none else s.isolated } := by
  have hrun : s.pc ≠ .keepDying := by rw [hpc]; nofun
  have hleft : (f :: done).Nodup ∧ ∀ g ∈ f :: done, s.isDone g := by
    have := h.left
    rwa [hpc] at this
  obtain ⟨hid, a, b, hab, hfilter⟩ := pop_future ((List.nodup_append.mp h.ids).1) hp
  have hsub : (s.parsePending.filter (fun p => p.id ≠ f)).Sublist s.parsePending :=
    List.filter_sublist
  have hnone : (if s.isolated = some f then none else s.isolated) = none := by
    cases hi : s.isolated with
    | none => simp
    | some g =>
      obtain ⟨q, hq, hqg⟩ := h.alone g hi
      have hpq : p ∈ s.parsePending := by rw [hab]; simp
      rw [hq, List.mem_singleton] at hpq
      rw [← hqg, ← hpq, hid]
      simp
  refine { conserved := fun u => ?_, twice := fun u => ?_, window := ?_, alone := ?_, ids := ?_,
           ids_lt := ?_, left := ⟨(List.nodup_cons.mp hleft.1).2, fun g hg => ?_⟩, ok := h.ok,
           failed := h.failed }
  · have hc := h.conserved hrun u
    simp only [State.holds, hfilter] at hc ⊢
    rw [hab] at hc
    simp only [List.map_append, List.map_cons, List.count_append, List.count_cons,
      List.count_nil] at hc ⊢
    omega
  · have ht := h.twice u
    simp only [State.firsts, hnone, if_true, hfilter] at ht ⊢
    cases hi : s.isolated with
    | none =>
      simp only [hi, if_true, hab, List.map_append, List.map_cons, List.count_append,
        List.count_cons, List.count_nil, reduceCtorEq, decide_false, Bool.false_eq_true,
        if_false] at ht ⊢
      omega
    | some g =>
      obtain ⟨q, hq, hqg⟩ := h.alone g hi
      rw [hab] at hq
      have ha : a = [] ∧ b = [] := by
        have := congrArg List.length hq
        simp only [List.length_append, List.length_cons, List.length_nil] at this
        exact ⟨List.eq_nil_of_length_eq_zero (by omega), List.eq_nil_of_length_eq_zero (by omega)⟩
      obtain ⟨rfl, rfl⟩ := ha
      have hgf : g = f := by
        simp only [List.nil_append, List.cons.injEq, and_true] at hq
        rw [← hqg, ← hq, hid]
      simp only [hi, hgf, reduceCtorEq, if_false, List.count_nil, decide_true, if_true,
        List.append_nil, List.map_nil] at ht ⊢
      omega
  · have hw := h.window
    rw [hab] at hw
    simp only [hfilter]
    simp only [List.length_append, List.length_cons] at hw ⊢
    omega
  · intro i hi
    simp only [hnone, reduceCtorEq] at hi
  · exact h.ids.sublist ((hsub.map _).append_right _)
  · intro i hi
    exact h.ids_lt i (((hsub.map _).append_right _).subset hi)
  · have hgf : g ≠ f := fun e => (List.nodup_cons.mp hleft.1).1 (e ▸ hg)
    rcases hleft.2 g (List.mem_cons_of_mem _ hg) with ⟨q, hq, hqg, hr⟩ | hu
    · exact .inl ⟨q, List.mem_filter.mpr ⟨hq, by simpa [hqg] using hgf⟩, hqg, hr⟩
    · exact .inr hu

theorem Inv.popUpsert (h : Inv cfg s) {f : Nat} {done : List Nat} (hpc : s.pc = .handle (f :: done))
    {u : Future T UpsertResult} (hu : s.upsertPending.find? (fun u => u.id = f) = some u) :
    Popped cfg u.task true done
      { s with upsertPending := s.upsertPending.filter (fun u => u.id ≠ f) } := by
  have hrun : s.pc ≠ .keepDying := by rw [hpc]; nofun
  have hleft : (f :: done).Nodup ∧ ∀ g ∈ f :: done, s.isDone g := by
    have := h.left
    rwa [hpc] at this
  obtain ⟨hid, a, b, hab, hfilter⟩ := pop_future ((List.nodup_append.mp h.ids).2.1) hu
  have hsub : (s.upsertPending.filter (fun u => u.id ≠ f)).Sublist s.upsertPending :=
    List.filter_sublist
  refine { conserved := fun v => ?_, twice := h.twice, window := ?_, alone := h.alone, ids := ?_,
           ids_lt := ?_, left := ⟨(List.nodup_cons.mp hleft.1).2, fun g hg => ?_⟩, ok := h.ok,
           failed := h.failed }
  · have hc := h.conserved hrun v
    simp only [State.holds, hfilter] at hc ⊢
    rw [hab] at hc
    simp only [List.map_append, List.map_cons, List.count_append, List.count_cons,
      List.count_nil] at hc ⊢
    omega
  · have hw := h.window
    rw [hab] at hw
    simp only [hfilter]
    simp only [List.length_append, List.length_cons] at hw ⊢
    omega
  · exact h.ids.sublist ((hsub.map _).append_left _)
  · intro i hi
    exact h.ids_lt i (((hsub.map _).append_left _).subset hi)
  · have hgf : g ≠ f := fun e => (List.nodup_cons.mp hleft.1).1 (e ▸ hg)
    rcases hleft.2 g (List.mem_cons_of_mem _ hg) with hp | ⟨q, hq, hqg, hr⟩
    · exact .inl hp
    · exact .inr ⟨q, List.mem_filter.mpr ⟨hq, by simpa [hqg] using hgf⟩, hqg, hr⟩

/-- The future handled next is found, with its result. -/
theorem Inv.next_done (h : Inv cfg s) {f : Nat} {done : List Nat}
    (hpc : s.pc = .handle (f :: done)) :
    (∃ p r, s.parsePending.find? (fun p => p.id = f) = some p ∧ p.result = some r) ∨
      (s.parsePending.find? (fun p => p.id = f) = none ∧
        ∃ u r, s.upsertPending.find? (fun u => u.id = f) = some u ∧ u.result = some r) := by
  have hdone : s.isDone f := by
    have := h.left.2 f
    rw [hpc] at this
    exact this List.mem_cons_self
  obtain ⟨hnp, hnu, hdis⟩ := List.nodup_append.mp h.ids
  have huniq : ∀ {R : Type} {fs : List (Future T R)} {p : Future T R},
      (fs.map Future.id).Nodup → p ∈ fs → p.id = f → p.result ≠ none →
      ∃ r, fs.find? (fun p => p.id = f) = some p ∧ p.result = some r := by
    intro R fs p hn hp hid hr
    obtain ⟨q, hq⟩ := find_future ⟨p, hp, hid⟩
    have hqid := List.find?_some hq
    simp only [decide_eq_true_eq] at hqid
    have := List.inj_on_of_nodup_map hn (List.mem_of_find?_eq_some hq) hp (hqid.trans hid.symm)
    obtain ⟨r, hr⟩ := Option.ne_none_iff_exists'.mp hr
    exact ⟨r, this ▸ hq, hr⟩
  rcases hdone with ⟨p, hp, hid, hr⟩ | ⟨u, hu, hid, hr⟩
  · obtain ⟨r, h1, h2⟩ := huniq hnp hp hid hr
    exact .inl ⟨p, r, h1, h2⟩
  · obtain ⟨r, h1, h2⟩ := huniq hnu hu hid hr
    refine .inr ⟨List.find?_eq_none.mpr fun p hp => ?_, u, r, h1, h2⟩
    have := hdis p.id (List.mem_map_of_mem hp) u.id (List.mem_map_of_mem hu)
    simpa [hid] using this

theorem Inv.handleNext (h : Inv cfg s) {f : Nat} {done : List Nat}
    (hpc : s.pc = .handle (f :: done)) : Inv cfg (handleNext cfg f done s) := by
  have hlimit : s.consecutiveCrashes < cfg.crashLimit := h.limit (by rw [hpc]; trivial)
  unfold Execute.handleNext
  rcases h.next_done hpc with ⟨p, r, hp, hr⟩ | ⟨hnone, u, r, hu, hr⟩
  · simp only [hp, hr]
    exact (h.popParse hpc hp).handleParse h.streak hlimit r
  · simp only [hnone, hu, hr]
    exact (h.popUpsert hpc hu).handleUpsert h.streak hlimit r

/-! ## Every clean step keeps it -/

omit [DecidableEq T] in
theorem isDone_parse {f g : Nat} {r : ParseResult} (h : s.isDone g) :
    ({ s with parsePending := setResult f r s.parsePending } : State T).isDone g := by
  rcases h with h | h
  · exact .inl (setResult_done h)
  · exact .inr h

omit [DecidableEq T] in
theorem isDone_upsert {f g : Nat} {r : UpsertResult} (h : s.isDone g) :
    ({ s with upsertPending := setResult f r s.upsertPending } : State T).isDone g := by
  rcases h with h | h
  · exact .inl h
  · exact .inr (setResult_done h)

theorem Inv.parseDone (h : Inv cfg s) (f : Nat) (r : ParseResult) :
    Inv cfg { s with parsePending := setResult f r s.parsePending } := by
  refine { conserved := fun hk u => ?_, twice := fun u => ?_, window := ?_, alone := ?_, ids := ?_,
           ids_lt := ?_, left := ⟨h.left.1, fun g hg => isDone_parse (h.left.2 g hg)⟩, ok := h.ok,
           failed := h.failed, streak := h.streak, limit := h.limit, stopped := h.stopped,
           filling := h.filling, refilled := ?_, finished := ?_, whole := h.whole }
  · have := h.conserved hk u
    simpa only [State.holds, setResult_task] using this
  · have := h.twice u
    simpa only [State.firsts, setResult_task] using this
  · simpa only [setResult_length] using h.window
  · intro i hi
    obtain ⟨p, hp, hid⟩ := h.alone i hi
    refine ⟨if p.id = f then { p with result := some r } else p, by simp [setResult, hp], ?_⟩
    split <;> exact hid
  · simpa only [setResult_id] using h.ids
  · simpa only [setResult_id] using h.ids_lt
  · simpa only [ne_eq, setResult_eq_nil] using h.refilled
  · simpa only [setResult_eq_nil] using h.finished

theorem Inv.upsertDone (h : Inv cfg s) (f : Nat) (r : UpsertResult) :
    Inv cfg { s with upsertPending := setResult f r s.upsertPending } := by
  refine { conserved := fun hk u => ?_, twice := h.twice, window := ?_, alone := h.alone, ids := ?_,
           ids_lt := ?_, left := ⟨h.left.1, fun g hg => isDone_upsert (h.left.2 g hg)⟩, ok := h.ok,
           failed := h.failed, streak := h.streak, limit := h.limit, stopped := h.stopped,
           filling := h.filling, refilled := ?_, finished := ?_, whole := h.whole }
  · have := h.conserved hk u
    simpa only [State.holds, setResult_task] using this
  · simpa only [setResult_length] using h.window
  · simpa only [setResult_id] using h.ids
  · simpa only [setResult_id] using h.ids_lt
  · simpa only [ne_eq, setResult_eq_nil] using h.refilled
  · simpa only [setResult_eq_nil] using h.finished

theorem Inv.step (h : Inv cfg s) (hs : CleanStep cfg s s') : Inv cfg s' := by
  obtain ⟨hs, hclean⟩ := hs
  cases hs with
  | refill hpc => exact h.refillParse hpc hclean
  | fill hpc => exact h.fillStep hpc hclean
  | handle hpc => exact h.handleNext hpc
  | wait hpc _ hnd hdone =>
    have hrun : running s.pc := by rw [hpc]; trivial
    obtain ⟨hsus, htodo⟩ := h.refilled _ hpc
    exact { @Inv.toHandle _ _ _ _ h [] hrun (by rw [hpc]; rfl) hsus htodo with
      left := ⟨hnd, hdone⟩
      limit := fun _ => h.limit hrun
      stopped := nofun
      filling := nofun
      refilled := fun _ _ => ⟨hsus, htodo⟩
      conserved := fun _ => h.conserved (by rw [hpc]; nofun)
      finished := nofun
      whole := nofun }
  | finish hpc hparse hupsert =>
    obtain ⟨hsus, htodo⟩ := h.refilled _ hpc
    have hsus : s.suspects = [] := by
      by_contra hne
      exact hsus hne hparse
    have htodo : s.todo = [] := by
      by_contra hne
      rcases htodo hne with hp | hu
      · exact hp hparse
      · exact hu hupsert
    exact { twice := h.twice
            window := h.window
            alone := h.alone
            ids := h.ids
            ids_lt := h.ids_lt
            ok := h.ok
            failed := h.failed
            streak := h.streak
            conserved := fun _ => h.conserved (by rw [hpc]; nofun)
            left := ⟨List.nodup_nil, nofun⟩
            limit := nofun
            stopped := nofun
            filling := nofun
            refilled := nofun
            finished := fun _ => ⟨htodo, hsus, hparse, hupsert⟩
            whole := nofun }
  | die => exact h.pool s.poolBroken s.poolUsed true
  | parseEnds => exact h.parseDone _ _
  | parseBreaks => exact h.parseDone _ _
  | upsertEnds => exact h.upsertDone _ _

theorem Inv.run (hr : Relation.ReflTransGen (CleanStep cfg) (Execute.initial cfg) s) :
    Inv cfg s := by
  induction hr with
  | refl => exact Inv.initial cfg
  | tail _ hs ih => exact ih.step hs

/-! ## Runs end -/

def Pc.rank : Pc → Nat
  | .refill _ => 4
  | .fill _ => 3
  | .handle [] => 2
  | .handle (_ :: _) => 1
  | _ => 0

/-- A future weighs one more until it is done. -/
def weight {R : Type} (base : Nat) (fs : List (Future T R)) : Nat :=
  (fs.map (fun p => base + if p.result.isNone then 1 else 0)).sum

/-- A parse alone has less ahead of it. -/
def parseBase : Option Nat → Nat
  | none => 6
  | some _ => 3

/-- What is left to do: a task passes through at most a parse, a parse alone and an upsert. -/
def State.work (s : State T) : Nat :=
  8 * s.todo.length + 5 * s.suspects.length +
    weight (parseBase s.isolated) s.parsePending + weight 1 s.upsertPending

def State.measure (s : State T) : Nat :=
  16 * s.work + 2 * s.pc.rank + if s.poolDead then 0 else 1

section

variable {R : Type} {fs : List (Future T R)}

omit [DecidableEq T] in
@[simp] theorem weight_nil (base : Nat) : weight base ([] : List (Future T R)) = 0 := rfl

omit [DecidableEq T] in
@[simp] theorem weight_append (base : Nat) (a b : List (Future T R)) :
    weight base (a ++ b) = weight base a + weight base b := by
  simp [weight]

omit [DecidableEq T] in
@[simp] theorem weight_cons (base : Nat) (p : Future T R) :
    weight base (p :: fs) = base + (if p.result.isNone then 1 else 0) + weight base fs := by
  simp [weight]

omit [DecidableEq T] in
theorem weight_setResult (base f : Nat) (r : R) : weight base (setResult f r fs) ≤ weight base fs := by
  induction fs with
  | nil => simp [setResult]
  | cons p fs ih =>
    rw [setResult, List.map_cons, weight_cons, weight_cons]
    rw [setResult] at ih
    split
    · simp only [Option.isNone_some, Bool.false_eq_true, if_false]
      omega
    · omega

omit [DecidableEq T] in
/-- A future that gets done weighs less. -/
theorem weight_done (base : Nat) {f : Nat} (r : R) (h : pendingIn f fs) :
    weight base (setResult f r fs) < weight base fs := by
  obtain ⟨p, hp, hid, hr⟩ := h
  obtain ⟨a, b, rfl⟩ := List.append_of_mem hp
  have ha : weight base (setResult f r a) ≤ weight base a := weight_setResult base f r
  have hb : weight base (setResult f r b) ≤ weight base b := weight_setResult base f r
  have hsplit : setResult f r (a ++ p :: b) =
      setResult f r a ++ { p with result := some r } :: setResult f r b := by
    simp [setResult, hid]
  rw [hsplit]
  simp only [weight_append, weight_cons, hr, Option.isNone_some, Option.isNone_none,
    Bool.false_eq_true, if_false, if_true]
  omega

end

omit [DecidableEq T] in
theorem rank_handle (done : List Nat) : (Pc.handle done).rank ≤ 2 := by
  cases done <;> simp [Pc.rank]

omit [DecidableEq T] in
theorem rank_le (pc : Pc) : pc.rank ≤ 4 := by
  unfold Pc.rank
  split <;> omega

omit [DecidableEq T] in
theorem chooseNext_measure (done : List Nat) (s : State T) :
    16 * (chooseNext done s).work + 2 * (chooseNext done s).pc.rank ≤ 16 * s.work + 6 := by
  have hh := rank_handle done
  unfold chooseNext
  split
  · next t suspects hsus =>
    split
    · simp only [State.work]
      omega
    · next hp =>
      rw [ne_eq, not_not] at hp
      split
      · simp only [State.work, Pc.rank]
        omega
      · simp only [State.work, submit, hp, hsus, List.nil_append, weight_cons, weight_nil,
          List.length_cons, parseBase, Option.isNone_none, if_true]
        omega
  · split
    · simp only [State.work]
      omega
    · simp only [State.work, Pc.rank]
      omega

omit [DecidableEq T] in
theorem refillParse_measure {done : List Nat} (hpc : s.pc = .refill done) :
    (refillParse done s).measure < s.measure := by
  have hh := rank_handle done
  have hr : s.pc.rank = 4 := by rw [hpc]; rfl
  have hdead : ∀ b : Bool, (if b = true then 0 else 1) ≤ 1 := by
    intro b
    split <;> omega
  unfold refillParse
  split
  · split
    · simp only [State.measure, State.work, hr]
      omega
    · have hc := chooseNext_measure done
        { s with poolBroken := false, poolUsed := false, poolDead := false }
      have hw : ({ s with poolBroken := false, poolUsed := false, poolDead := false } :
        State T).work = s.work := rfl
      have hb := hdead (chooseNext done
        { s with poolBroken := false, poolUsed := false, poolDead := false }).poolDead
      simp only [State.measure, hr]
      omega
  · have hc := chooseNext_measure done s
    have hb := hdead (chooseNext done s).poolDead
    simp only [State.measure, hr]
    omega

theorem Inv.fillStep_measure (h : Inv cfg s) {done : List Nat} (hpc : s.pc = .fill done) :
    (Execute.fillStep cfg done s).measure < s.measure := by
  have hh := rank_handle done
  have hr : s.pc.rank = 3 := by rw [hpc]; rfl
  obtain ⟨hsus, hiso⟩ := h.filling done hpc
  unfold Execute.fillStep
  split
  · split
    · simp only [State.measure, State.work, hr]
      omega
    · next t todo htodo =>
      split
      · have h0 : Pc.brokenPool.rank = 0 := rfl
        simp only [State.measure, State.work, hr, h0]
        omega
      · simp only [State.measure, State.work, submit, hiso, htodo, List.length_cons, parseBase,
          if_true, weight_append, weight_cons, weight_nil, Option.isNone_none]
        omega
  · simp only [State.measure, State.work, hr]
    omega

omit [DecidableEq T] in
/-- A popped task goes into an upsert, back to the suspects, or into the records. -/
theorem handleParse_work (done : List Nat) (t : T) (alone : Bool) (r : ParseResult) (s : State T) :
    (handleParse cfg done t alone r s).work ≤ s.work + (if alone then 2 else 5) ∧
      (handleParse cfg done t alone r s).poolDead = s.poolDead := by
  cases r with
  | returned p =>
    cases p with
    | failed errorType => exact ⟨Nat.le_add_right _ _, rfl⟩
    | chunks n =>
      simp only [handleParse, handleParsed]
      split
      · split
        · exact ⟨Nat.le_add_right _ _, rfl⟩
        · exact ⟨Nat.le_add_right _ _, rfl⟩
      · have h2 : 2 ≤ if alone = true then 2 else 5 := by split <;> omega
        refine ⟨?_, rfl⟩
        simp only [State.work, submitUpsert, weight_append, weight_cons, weight_nil,
          Option.isNone_none, if_true]
        omega
  | raised errorType => exact ⟨Nat.le_add_right _ _, rfl⟩
  | brokenPool =>
    simp only [handleParse]
    cases alone with
    | true =>
      simp only [if_true]
      split
      · exact ⟨Nat.le_add_right _ _, rfl⟩
      · exact ⟨Nat.le_add_right _ _, rfl⟩
    | false =>
      refine ⟨?_, rfl⟩
      simp only [State.work, Bool.false_eq_true, if_false, List.length_append, List.length_cons,
        List.length_nil]
      omega

omit [DecidableEq T] in
theorem handleUpsert_work (t : T) (r : UpsertResult) (s : State T) :
    (handleUpsert t r s).work = s.work ∧ (handleUpsert t r s).poolDead = s.poolDead := by
  cases r <;> exact ⟨rfl, rfl⟩

theorem Inv.popParse_work (h : Inv cfg s) {f : Nat} {p : Future T ParseResult} {r : ParseResult}
    (hp : s.parsePending.find? (fun p => p.id = f) = some p) (hr : p.result = some r) :
    ({ s with
        parsePending := s.parsePending.filter (fun p => p.id ≠ f)
        isolated := if s.isolated = some f then none else s.isolated } : State T).work +
      (if s.isolated = some f then 3 else 6) = s.work := by
  obtain ⟨hid, a, b, hab, hfilter⟩ := pop_future ((List.nodup_append.mp h.ids).1) hp
  cases hi : s.isolated with
  | none =>
    simp only [State.work, hfilter, hi, reduceCtorEq, if_false, parseBase]
    simp only [hab, weight_append, weight_cons, hr, Option.isNone_some, Bool.false_eq_true, if_false]
    omega
  | some g =>
    obtain ⟨q, hq, hqg⟩ := h.alone g hi
    rw [hab] at hq
    have ha : a = [] ∧ b = [] := by
      have := congrArg List.length hq
      simp only [List.length_append, List.length_cons, List.length_nil] at this
      exact ⟨List.eq_nil_of_length_eq_zero (by omega), List.eq_nil_of_length_eq_zero (by omega)⟩
    obtain ⟨rfl, rfl⟩ := ha
    have hgf : g = f := by
      simp only [List.nil_append, List.cons.injEq, and_true] at hq
      rw [← hqg, ← hq, hid]
    simp only [State.work, hfilter, hi, hgf, if_true, parseBase]
    simp only [hab, List.nil_append, weight_cons, weight_nil, hr, Option.isNone_some,
      Bool.false_eq_true, if_false]
    omega

theorem Inv.handleNext_measure (h : Inv cfg s) {f : Nat} {done : List Nat}
    (hpc : s.pc = .handle (f :: done)) : (Execute.handleNext cfg f done s).measure < s.measure := by
  have hrank : s.pc.rank = 1 := by rw [hpc]; rfl
  unfold Execute.handleNext
  rcases h.next_done hpc with ⟨p, r, hp, hr⟩ | ⟨hnone, u, r, hu, hr⟩
  · simp only [hp, hr]
    have hpop := h.popParse_work hp hr
    have hdead : ({ s with
        parsePending := s.parsePending.filter (fun p => p.id ≠ f)
        isolated := if s.isolated = some f then none else s.isolated } : State T).poolDead =
      s.poolDead := rfl
    generalize ({ s with
      parsePending := s.parsePending.filter (fun p => p.id ≠ f)
      isolated := if s.isolated = some f then none else s.isolated } : State T) = popped
      at hpop hdead ⊢
    obtain ⟨hw, hd⟩ := @handleParse_work _ cfg done p.task (s.isolated = some f) r popped
    have h4 := rank_le (handleParse cfg done p.task (s.isolated = some f) r popped).pc
    simp only [State.measure, hrank, hd, hdead]
    by_cases hi : s.isolated = some f
    · simp only [hi, decide_true, if_true] at hw hpop h4 ⊢
      omega
    · simp only [hi, decide_false, if_false, Bool.false_eq_true] at hw hpop h4 ⊢
      omega
  · simp only [hnone, hu, hr]
    obtain ⟨hid, a, b, hab, hfilter⟩ := pop_future ((List.nodup_append.mp h.ids).2.1) hu
    have hpop : ({ s with upsertPending := s.upsertPending.filter (fun u => u.id ≠ f) } :
        State T).work + 1 = s.work := by
      simp only [State.work, hfilter]
      simp only [hab, weight_append, weight_cons, hr, Option.isNone_some, Bool.false_eq_true,
        if_false]
      omega
    have hdead : ({ s with upsertPending := s.upsertPending.filter (fun u => u.id ≠ f) } :
        State T).poolDead = s.poolDead := rfl
    generalize ({ s with upsertPending := s.upsertPending.filter (fun u => u.id ≠ f) } : State T) =
      popped at hpop hdead ⊢
    obtain ⟨hw, hd⟩ := handleUpsert_work u.task r popped
    show 16 * (handleUpsert u.task r popped).work + 2 * 4 +
      (if (handleUpsert u.task r popped).poolDead then 0 else 1) < s.measure
    simp only [State.measure, hrank, hd, hdead]
    omega

/-- Every step, also one that meets a broken pool, leaves less to do. -/
theorem Inv.step_measure (h : Inv cfg s) (hs : Step cfg s s') : s'.measure < s.measure := by
  cases hs with
  | refill hpc => exact refillParse_measure hpc
  | fill hpc => exact h.fillStep_measure hpc
  | handle hpc => exact h.handleNext_measure hpc
  | wait hpc hne =>
    obtain ⟨f, done, rfl⟩ := List.exists_cons_of_ne_nil hne
    simp only [State.measure, State.work, hpc, Pc.rank]
    omega
  | finish hpc =>
    simp only [State.measure, State.work, hpc, Pc.rank]
    omega
  | die _ _ hd =>
    simp only [State.measure, State.work, hd]
    simp
  | parseEnds _ _ _ hp =>
    have := weight_done (parseBase s.isolated) ‹ParseResult› hp
    simp only [State.measure, State.work]
    omega
  | parseBreaks _ _ hp =>
    have := weight_done (parseBase s.isolated) .brokenPool hp
    simp only [State.measure, State.work]
    omega
  | upsertEnds _ hp =>
    have := weight_done 1 ‹UpsertResult› hp
    simp only [State.measure, State.work]
    omega

omit [DecidableEq T] in
/-- A run that has not stopped can go on. -/
theorem progress (hrun : running s.pc) : ∃ s', Step cfg s s' := by
  cases hpc : s.pc with
  | refill done => exact ⟨_, .refill hpc⟩
  | fill done => exact ⟨_, .fill hpc⟩
  | handle done =>
    cases done with
    | cons f done => exact ⟨_, .handle hpc⟩
    | nil =>
      by_cases hpend : ∃ p ∈ s.parsePending, p.result = none
      · obtain ⟨p, hp, hr⟩ := hpend
        cases hd : s.poolDead with
        | true => exact ⟨_, .parseBreaks hrun hd ⟨p, hp, rfl, hr⟩⟩
        | false => exact ⟨_, .parseEnds (r := .raised []) hrun hd (by simp) ⟨p, hp, rfl, hr⟩⟩
      · by_cases hpend' : ∃ u ∈ s.upsertPending, u.result = none
        · obtain ⟨u, hu, hr⟩ := hpend'
          exact ⟨_, .upsertEnds (r := .upserted) hrun ⟨u, hu, rfl, hr⟩⟩
        · have hwait : ∀ f, s.isDone f → ∃ s', Step cfg s s' := fun f hf =>
            ⟨_, @Step.wait _ _ _ [f] hpc (by simp) (by simp) (by simpa using hf)⟩
          cases hparse : s.parsePending with
          | cons p ps =>
            have hp : p ∈ s.parsePending := by simp [hparse]
            exact hwait p.id (.inl ⟨p, hp, rfl, fun hr => hpend ⟨p, hp, hr⟩⟩)
          | nil =>
            cases hups : s.upsertPending with
            | cons u us =>
              have hu : u ∈ s.upsertPending := by simp [hups]
              exact hwait u.id (.inr ⟨u, hu, rfl, fun hr => hpend' ⟨u, hu, hr⟩⟩)
            | nil => exact ⟨_, .finish hpc hparse hups⟩
  | finished => rw [hpc] at hrun; exact hrun.elim
  | keepDying => rw [hpc] at hrun; exact hrun.elim
  | brokenPool => rw [hpc] at hrun; exact hrun.elim

omit [DecidableEq T] in
/-- Once the main thread is about to submit to a broken pool, nothing keeps it from doing so. -/
theorem MeetsDeadPool.step (h : MeetsDeadPool cfg s) (hs : Step cfg s s') :
    s'.pc = .brokenPool ∨ MeetsDeadPool cfg s' := by
  obtain ⟨hdead, ⟨done, hpc, hb, hsus, hpar⟩ | ⟨done, hpc, hwin, htodo⟩⟩ := h
  · cases hs with
    | refill hpc' =>
      left
      obtain ⟨t, ts, hcons⟩ := List.exists_cons_of_ne_nil hsus
      simp [Execute.refillParse, Execute.chooseNext, hb, hcons, hpar, hdead]
    | upsertEnds => exact .inr ⟨hdead, .inl ⟨done, hpc, hb, hsus, hpar⟩⟩
    | parseBreaks _ _ hp => exact absurd hp (by simp [pendingIn, hpar])
    | parseEnds _ hd => exact absurd hdead (by simp [hd])
    | die _ _ hd => exact absurd hdead (by simp [hd])
    | fill hpc' | handle hpc' | wait hpc' | finish hpc' => exact absurd hpc (by simp [hpc'])
  · cases hs with
    | fill hpc' =>
      left
      obtain ⟨t, ts, hcons⟩ := List.exists_cons_of_ne_nil htodo
      simp [Execute.fillStep, hwin, hcons, hdead]
    | upsertEnds =>
      refine .inr ⟨hdead, .inr ⟨done, hpc, ?_, htodo⟩⟩
      simpa [State.inFlight] using hwin
    | parseBreaks =>
      refine .inr ⟨hdead, .inr ⟨done, hpc, ?_, htodo⟩⟩
      simpa [State.inFlight] using hwin
    | parseEnds _ hd => exact absurd hdead (by simp [hd])
    | die _ _ hd => exact absurd hdead (by simp [hd])
    | refill hpc' | handle hpc' | wait hpc' | finish hpc' => exact absurd hpc (by simp [hpc'])

/-! ## Accounting -/

/-- What a run of `_execute` owes its tasks, in every state it reaches. -/
structure Accounted (cfg : Config T) (s : State T) : Prop where
  /-- No `BrokenProcessPool` leaves the run. -/
  whole : s.pc ≠ .brokenPool
  /-- One record and one increment per task. -/
  finished : s.pc = .finished →
    (s.records.map Record.task).Perm cfg.tasks ∧
      s.filesOk = s.records.countP (fun r => r.status.ok) ∧
      s.filesFailed = s.records.countP (fun r => !r.status.ok) ∧
      s.filesOk + s.filesFailed = cfg.tasks.length
  keepDying : s.pc = .keepDying →
    s.consecutiveCrashes = cfg.crashLimit ∧ crashStreak s.handled = cfg.crashLimit
  kept : running s.pc → ∀ t, s.holds t = cfg.tasks.count t
  twice : ∀ t, s.submitted.count t ≤ 2 * cfg.tasks.count t
  window : s.inFlight ≤ cfg.window + 1
  /-- The run goes on until it stops, and it does stop. -/
  goesOn : running s.pc → ∃ s', Step cfg s s'
  ends : ∀ s', Step cfg s s' → s'.measure < s.measure

/-- A finished run has a record for each task, as often as it was listed. -/
theorem Inv.finished_perm (h : Inv cfg s) (hpc : s.pc = .finished) :
    (s.records.map Record.task).Perm cfg.tasks := by
  obtain ⟨htodo, hsus, hpar, hups⟩ := h.finished hpc
  refine List.perm_iff_count.mpr fun t => ?_
  have hc := h.conserved (by simp [hpc]) t
  simpa [State.holds, htodo, hsus, hpar, hups] using hc

/-- In every run that submits to no broken pool, every task is accounted for. -/
theorem accounted (cfg : Config T) (s : State T)
    (hr : Relation.ReflTransGen (CleanStep cfg) (initial cfg) s) : Accounted cfg s := by
  have h := Inv.run hr
  refine
    { whole := h.whole
      finished := fun hpc => ?_
      keepDying := fun hpc => ⟨h.stopped hpc, h.streak ▸ h.stopped hpc⟩
      kept := fun hrun => h.conserved (fun hpc => by rw [hpc] at hrun; exact hrun)
      twice := fun t => ?_
      window := ?_
      goesOn := progress
      ends := fun s' => h.step_measure }
  · have hperm := h.finished_perm hpc
    refine ⟨hperm, h.ok, h.failed, ?_⟩
    have hlen : s.records.length = cfg.tasks.length := by simpa using hperm.length_eq
    rw [h.ok, h.failed, ← hlen, List.length_eq_countP_add_countP (fun r => r.status.ok)]
    simp
  · have := h.twice t
    omega
  · have := h.window
    simp only [State.inFlight]
    omega

end

/-! ## Two runs -/

theorem Step.clean {cfg : Config T} {s s' : State T} (hs : Step cfg s s')
    (h : s.poolDead = false ∨ (∃ done, s.pc = .handle done) ∨
      s.poolBroken = true ∧ ∃ done, s.pc = .refill done) :
    CleanStep cfg s s' := by
  refine ⟨hs, fun ⟨hdead, hm⟩ => ?_⟩
  rcases h with hwhole | ⟨_, hpc⟩ | ⟨hb, _, hpc⟩
  · simp [hwhole] at hdead
  · rcases hm with ⟨_, hpc', _⟩ | ⟨_, hpc', _⟩ <;> simp [hpc] at hpc'
  · rcases hm with ⟨_, _, hb', _⟩ | ⟨_, hpc', _⟩
    · simp [hb] at hb'
    · simp [hpc] at hpc'

def oneTask : Config Nat := ⟨[7], 1, true⟩

/-- The worker dies during the only parse, which then succeeds alone. -/
theorem worker_dies_accounted :
    ∃ s, s.pc = .finished ∧ s.records = [⟨7, .dry, none⟩] ∧ Accounted oneTask s := by
  have h : Relation.ReflTransGen (CleanStep oneTask) (initial oneTask) (initial oneTask) := .refl
  have h := h.tail (Step.clean (.refill rfl) (.inl rfl))
  have h := h.tail (Step.clean (.fill rfl) (.inl rfl))
  have h := h.tail (Step.clean (.fill rfl) (.inl rfl))
  have h := h.tail (Step.clean (.die trivial rfl rfl) (.inl rfl))
  have h := h.tail (Step.clean (.parseBreaks (f := 0) trivial rfl (by unfold pendingIn; decide))
    (.inr (.inl ⟨_, rfl⟩)))
  have h := h.tail (Step.clean (@Step.wait _ _ _ [0] rfl (by decide) (by decide)
    (by unfold State.isDone; decide)) (.inr (.inl ⟨_, rfl⟩)))
  have h := h.tail (Step.clean (.handle rfl) (.inr (.inl ⟨_, rfl⟩)))
  have h := h.tail (Step.clean (.refill rfl) (.inr (.inr ⟨rfl, _, rfl⟩)))
  have h := h.tail (Step.clean (.parseEnds (f := 1) (r := .returned (.chunks 2)) trivial rfl
    (by decide) (by unfold pendingIn; decide)) (.inl rfl))
  have h := h.tail (Step.clean (@Step.wait _ _ _ [1] rfl (by decide) (by decide)
    (by unfold State.isDone; decide)) (.inl rfl))
  have h := h.tail (Step.clean (.handle rfl) (.inl rfl))
  have h := h.tail (Step.clean (.refill rfl) (.inl rfl))
  have h := h.tail (Step.clean (.fill rfl) (.inl rfl))
  have h := h.tail (Step.clean (.finish rfl rfl rfl) (.inl rfl))
  exact ⟨_, rfl, rfl, accounted _ _ h⟩

def threeTasks : Config Nat := ⟨[7, 8, 9], 1, true⟩

/-- The worker dies after the first parse returned: the refill that follows submits the third task
to the broken pool, and loses it. -/
theorem submit_meets_dead_pool :
    ¬∀ s, Relation.ReflTransGen (Step threeTasks) (initial threeTasks) s → Accounted threeTasks s := by
  intro hall
  have h : Relation.ReflTransGen (Step threeTasks) (initial threeTasks) (initial threeTasks) := .refl
  have h := h.tail (.refill rfl)
  have h := h.tail (.fill rfl)
  have h := h.tail (.fill rfl)
  have h := h.tail (.fill rfl)
  have h := h.tail (.parseEnds (f := 0) (r := .returned (.chunks 2)) trivial rfl
    (by decide) (by unfold pendingIn; decide))
  have h := h.tail (@Step.wait _ _ _ [0] rfl (by decide) (by decide)
    (by unfold State.isDone; decide))
  have h := h.tail (.die trivial rfl rfl)
  have h := h.tail (.handle rfl)
  have h := h.tail (.refill rfl)
  have h := h.tail (.fill rfl)
  exact (hall _ h).whole rfl

end MainframeRag.Ingest.Execute
