import MainframeRag.Agent.Prompt
import MainframeRag.Lib.PyJson
import Mathlib.Order.Hom.Basic

/-!
# Token counts

`agent/tokenizer.py`: the estimator, and `VllmTokenizer` as a step relation over threads. A count
clears the thread's flag, passes the locked gate, waits for its answer without the lock and settles
under the lock. The state keeps the log of what was recorded, in order.

`counts_confirmed` says that the flag is set by an answer to the thread's own last count only, that
an unusable endpoint is never asked again, and that a retry window holds as long as no success is
recorded for a request that had passed the gate before the failure.
-/

namespace MainframeRag.Agent

open PyText PyJson

/-- Runs of word characters, and the other characters without the blanks. -/
def tokensFrom (U : CharTables) : Bool → Text → Nat
  | _, [] => 0
  | inWord, c :: t =>
    if U.isWord c then (if inWord then 0 else 1) + tokensFrom U true t
    else (if isSpace c then 0 else 1) + tokensFrom U false t

/-- `estimate_tokens` -/
def estimateTokens (U : CharTables) (t : Text) : Nat :=
  if t = [] then 0 else max 1 (tokensFrom U false t)

namespace Tokenizer

variable {F T : Type}

/-! ## Requests and answers -/

def roleText : Role → Text
  | .system => "system".toList
  | .user => "user".toList
  | .assistant => "assistant".toList

/-- `FallbackTokenizer.count_messages` -/
def estimateMessages (U : CharTables) (messages : List ChatMessage) : Nat :=
  (messages.map fun m => estimateTokens U (roleText m.role ++ '\n' :: m.content)).sum

/-- A call of `count_tokens` or `count_messages`. -/
inductive Call
  | tokens (text : Text)
  | messages (messages : List ChatMessage) (reasoningEffort : Option Text)

def Call.isEmpty : Call → Bool
  | .tokens text => text = []
  | .messages ms _ => ms = []

def Call.estimate (U : CharTables) : Call → Nat
  | .tokens text => estimateTokens U text
  | .messages ms _ => estimateMessages U ms

def modelDump (m : ChatMessage) : Json F :=
  .obj [("role".toList, .str (roleText m.role)), ("content".toList, .str m.content)]

def templateKwargs (effort : Text) : Json F :=
  .obj [("reasoning_effort".toList, .str effort),
    ("enable_thinking".toList, .bool (effort ≠ "none".toList))]

/-- The body of the request. -/
def Call.payload (model : Text) : Call → Json F
  | .tokens text => .obj [("model".toList, .str model), ("prompt".toList, .str text)]
  | .messages ms effort =>
    .obj ([("model".toList, .str model), ("messages".toList, .arr (ms.map modelDump)),
      ("add_generation_prompt".toList, .bool true), ("add_special_tokens".toList, .bool false)] ++
      if effort.getD [] = [] then []
      else [("chat_template_kwargs".toList, templateKwargs (effort.getD []))])

/-- What came of a request; `none` is a body that is not JSON. -/
inductive Reply (F : Type)
  | raised
  | response (status : Int) (body : Option (Json F))

/-- The count of a document, if it has a usable one. -/
def countIn : Json F → Option Nat
  | .obj items =>
    match items.lookup "count".toList with
    | some (.int n) => if 0 ≤ n then some n.toNat else none
    | some _ => none
    | none =>
      match items.lookup "tokens".toList with
      | some (.arr tokens) => some tokens.length
      | _ => none
  | _ => none

def isAbsent (status : Int) : Bool := status = 404 || status = 405 || status = 501

def isTransient (status : Int) : Bool :=
  status = 408 || status = 429 || (500 ≤ status && !isAbsent status)

inductive Outcome
  | count (n : Nat)
  | failed (transient : Bool)

def outcome : Reply F → Outcome
  | .raised => .failed true
  | .response status body =>
    if status = 200 then
      match body with
      | none => .failed true
      | some d =>
        match countIn d with
        | some n => .count n
        | none => .failed (isTransient status)
    else .failed (isTransient status)

/-- The count of a usable answer. -/
def usable (r : Reply F) : Option Nat :=
  match outcome r with
  | .count n => some n
  | .failed _ => none

/-! ## Threads -/

/-- Where a thread stands in a count; `gate` is the place of its gate check in the log. -/
inductive Phase (F : Type)
  | idle
  | called (c : Call)
  | waiting (c : Call) (gate : Nat)
  | answered (c : Call) (gate : Nat) (reply : Reply F)

/-- A count that returned, with the answer to its own request if it made one. -/
structure Returned (F : Type) where
  call : Call
  value : Nat
  reply : Option (Reply F)

/-- `_local` of a thread, and its last count. -/
structure Thread (F : Type) where
  phase : Phase F := .idle
  remote : Bool := false
  last : Option (Returned F) := none

inductive Event (T : Type)
  | started (thread : Nat) (time : T)
  | failed (thread : Nat) (time : T)
  | unusable (thread : Nat)
  | succeeded (thread gate : Nat)
  deriving DecidableEq

structure State (F T : Type) where
  pinned : Bool := false
  retryAt : Option T := none
  now : T
  threads : Nat → Thread F := fun _ => {}
  log : List (Event T) := []

def State.setThread (s : State F T) (i : Nat) (t : Thread F) : State F T :=
  { s with threads := Function.update s.threads i t }

@[simp] theorem setThread_log (s : State F T) (i : Nat) (t : Thread F) :
    (s.setThread i t).log = s.log := rfl

@[simp] theorem setThread_pinned (s : State F T) (i : Nat) (t : Thread F) :
    (s.setThread i t).pinned = s.pinned := rfl

@[simp] theorem setThread_retryAt (s : State F T) (i : Nat) (t : Thread F) :
    (s.setThread i t).retryAt = s.retryAt := rfl

@[simp] theorem setThread_now (s : State F T) (i : Nat) (t : Thread F) :
    (s.setThread i t).now = s.now := rfl

@[simp] theorem setThread_threads (s : State F T) (i : Nat) (t : Thread F) :
    (s.setThread i t).threads = Function.update s.threads i t := rfl

/-! ## Steps -/

section

variable [LinearOrder T] (later : T →o T) (U : CharTables)

/-- The gate of `_remote_count`: shut, or open with what `_retry_at` becomes. -/
def gate (s : State F T) : Option (Option T) :=
  if s.pinned then none
  else match s.retryAt with
    | none => some none
    | some r => if s.now < r then none else some (some (later s.now))

inductive Act (F T : Type)
  | tick (time : T)
  | call (i : Nat) (c : Call)
  | gate (i : Nat)
  | reply (i : Nat) (r : Reply F)
  | settle (i : Nat)

/-- The value a count returns on the estimator. -/
def estimated (c : Call) (reply : Option (Reply F)) : Returned F := ⟨c, c.estimate U, reply⟩

/-- The end of `_remote_count`: `_recovered` or `_downgrade`. -/
def settle (s : State F T) (i : Nat) (c : Call) (gate : Nat) (r : Reply F) : State F T :=
  match outcome r with
  | .count n =>
    { s.setThread i ⟨.idle, true, some ⟨c, n, some r⟩⟩ with
      retryAt := none
      log := s.log ++ [.succeeded i gate] }
  | .failed true =>
    { s.setThread i ⟨.idle, (s.threads i).remote, some (estimated U c (some r))⟩ with
      retryAt := some (later s.now)
      log := s.log ++ [.failed i s.now] }
  | .failed false =>
    { s.setThread i ⟨.idle, (s.threads i).remote, some (estimated U c (some r))⟩ with
      pinned := true
      log := s.log ++ [.unusable i] }

/-- The gate check of a thread, and the return on the estimator where it is shut. -/
def passGate (s : State F T) (i : Nat) (c : Call) : State F T :=
  match gate later s with
  | none => s.setThread i ⟨.idle, (s.threads i).remote, some (estimated U c none)⟩
  | some r =>
    { s.setThread i { s.threads i with phase := .waiting c s.log.length } with
      retryAt := r
      log := s.log ++ [.started i s.now] }

/-- The start of a count; an empty one returns at once. -/
def begin (s : State F T) (i : Nat) (c : Call) : State F T :=
  if c.isEmpty then s.setThread i ⟨.idle, false, some ⟨c, 0, none⟩⟩
  else s.setThread i { s.threads i with phase := .called c, remote := false }

def step (s : State F T) : Act F T → Option (State F T)
  | .tick t => if s.now ≤ t then some { s with now := t } else none
  | .call i c =>
    match (s.threads i).phase with
    | .idle => some (begin s i c)
    | _ => none
  | .gate i =>
    match (s.threads i).phase with
    | .called c => some (passGate later U s i c)
    | _ => none
  | .reply i r =>
    match (s.threads i).phase with
    | .waiting c g => some (s.setThread i { s.threads i with phase := .answered c g r })
    | _ => none
  | .settle i =>
    match (s.threads i).phase with
    | .answered c g r => some (settle later U s i c g r)
    | _ => none

/-- The states of the runs whose steps all satisfy `ok`. -/
inductive Reachable (ok : State F T → Act F T → Prop) : State F T → Prop
  | init (now : T) : Reachable ok { now := now }
  | step {s s' : State F T} {a : Act F T} (h : Reachable ok s) (ha : ok s a)
    (hs : step later U s a = some s') : Reachable ok s'

def anyStep (_ : State F T) (_ : Act F T) : Prop := True

/-- What a step does. -/
inductive Steps (s : State F T) : Act F T → State F T → Prop
  | tick {t : T} (h : s.now ≤ t) : Steps s (.tick t) { s with now := t }
  | call {i : Nat} {c : Call} (h : (s.threads i).phase = .idle) : Steps s (.call i c) (begin s i c)
  | gate {i : Nat} {c : Call} (h : (s.threads i).phase = .called c) :
    Steps s (.gate i) (passGate later U s i c)
  | reply {i g : Nat} {c : Call} {r : Reply F} (h : (s.threads i).phase = .waiting c g) :
    Steps s (.reply i r) (s.setThread i { s.threads i with phase := .answered c g r })
  | settle {i g : Nat} {c : Call} {r : Reply F} (h : (s.threads i).phase = .answered c g r) :
    Steps s (.settle i) (settle later U s i c g r)

theorem step_cases {s s' : State F T} {a : Act F T} (h : step later U s a = some s') :
    Steps later U s a s' := by
  cases a with
  | tick t =>
    dsimp only [step] at h
    split at h
    · rename_i ht
      cases h
      exact .tick ht
    · cases h
  | call i c =>
    dsimp only [step] at h
    split at h
    · rename_i hp
      cases h
      exact .call hp
    · cases h
  | gate i =>
    dsimp only [step] at h
    split at h
    · rename_i hp
      cases h
      exact .gate hp
    · cases h
  | reply i r =>
    dsimp only [step] at h
    split at h
    · rename_i hp
      cases h
      exact .reply hp
    · cases h
  | settle i =>
    dsimp only [step] at h
    split at h
    · rename_i hp
      cases h
      exact .settle hp
    · cases h

end

/-! ## What the log says -/

/-- After an unusable answer no request starts. -/
def Shut (log : List (Event T)) : Prop :=
  ∀ (j k i i' : Nat) (t : T), log[j]? = some (.unusable i) → log[k]? = some (.started i' t) → k < j

/-- Between the places `k` and `n` a request succeeded that passed the gate behind `k`. -/
def Reopened (log : List (Event T)) (k n : Nat) : Prop :=
  ∃ j i g, k < j ∧ j < n ∧ log[j]? = some (.succeeded i g) ∧ k < g

theorem get_snoc {α : Type} {l : List α} {x y : α} {k : Nat} :
    (l ++ [x])[k]? = some y ↔ l[k]? = some y ∨ (k = l.length ∧ x = y) := by
  rcases Nat.lt_trichotomy k l.length with h | h | h
  · rw [List.getElem?_append_left h]
    constructor
    · exact .inl
    · rintro (hy | ⟨hk, _⟩)
      · exact hy
      · omega
  · subst h
    rw [List.getElem?_append_right (Nat.le_refl _)]
    simp
  · rw [List.getElem?_eq_none (by simp; omega), List.getElem?_eq_none (by omega)]
    constructor
    · intro hy
      cases hy
    · rintro (hy | ⟨hk, _⟩)
      · cases hy
      · omega

theorem lt_length_of_get {α : Type} {l : List α} {y : α} {k : Nat} (h : l[k]? = some y) :
    k < l.length := by
  by_contra hk
  rw [List.getElem?_eq_none (by omega)] at h
  cases h

theorem Reopened.snoc {log : List (Event T)} {k n : Nat} (e : Event T) (h : Reopened log k n) :
    Reopened (log ++ [e]) k n := by
  obtain ⟨j, i, g, h1, h2, h3, h4⟩ := h
  exact ⟨j, i, g, h1, h2, get_snoc.mpr (.inl h3), h4⟩

theorem Reopened.mono {log : List (Event T)} {k n m : Nat} (hnm : n ≤ m) (h : Reopened log k n) :
    Reopened log k m := by
  obtain ⟨j, i, g, h1, h2, h3⟩ := h
  exact ⟨j, i, g, h1, by omega, h3⟩

/-! ## What the flag says -/

/-- The value of a count is that of a usable answer to its own request. -/
def TakenFromAnswer (l : Returned F) : Prop :=
  ∃ r, l.reply = some r ∧ usable r = some l.value

/-- The flag during a count is down, and behind it says where the value came from. -/
def ThreadOk (t : Thread F) : Prop :=
  match t.phase with
  | .idle => (t.last = none → t.remote = false) ∧
    ∀ l, t.last = some l → (t.remote = true ↔ TakenFromAnswer l)
  | _ => t.remote = false

theorem threadOk_estimated (U : CharTables) (c : Call) {remote : Bool} (hr : remote = false)
    {reply : Option (Reply F)} (h : ∀ r, reply = some r → usable r = none) :
    ThreadOk ⟨.idle, remote, some (estimated U c reply)⟩ := by
  refine ⟨nofun, fun l hl => ?_⟩
  cases hl
  rw [hr]
  refine iff_of_false (by simp) ?_
  rintro ⟨r, hr', hu⟩
  rw [h r hr'] at hu
  cases hu

/-- What every run keeps. -/
structure Inv (s : State F T) : Prop where
  threads : ∀ i, ThreadOk (s.threads i)
  pinned : ∀ (k i : Nat), s.log[k]? = some (.unusable i) → s.pinned = true
  shut : Shut s.log

theorem threads_set {s : State F T} {i : Nat} {t : Thread F} (h : ∀ j, ThreadOk (s.threads j))
    (ht : ThreadOk t) (j : Nat) : ThreadOk ((s.setThread i t).threads j) := by
  rw [setThread_threads]
  by_cases hj : j = i
  · subst hj
    rwa [Function.update_self]
  · rw [Function.update_of_ne hj]
    exact h j

theorem Shut.snoc {log : List (Event T)} {e : Event T} (h : Shut log)
    (he : ∀ (i : Nat) (t : T), e = .started i t → ∀ (k i' : Nat), log[k]? ≠ some (.unusable i')) :
    Shut (log ++ [e]) := by
  intro j k i i' t hj hk
  rcases get_snoc.mp hj with hj | ⟨hj, hje⟩
  · rcases get_snoc.mp hk with hk | ⟨_, hke⟩
    · exact h j k i i' t hj hk
    · exact absurd hj (he i' t hke j i)
  · rcases get_snoc.mp hk with hk | ⟨_, hke⟩
    · have := lt_length_of_get hk
      omega
    · rw [hje] at hke
      cases hke

theorem begin_inv {s : State F T} {i : Nat} {c : Call} (h : Inv s) : Inv (begin s i c) := by
  unfold begin
  split
  · refine ⟨threads_set h.threads ?_, h.pinned, h.shut⟩
    refine ⟨nofun, fun l hl => ?_⟩
    cases hl
    refine iff_of_false (by simp) ?_
    rintro ⟨r, hr, _⟩
    cases hr
  · exact ⟨threads_set h.threads rfl, h.pinned, h.shut⟩

/-! ## Windows -/

section

variable [LinearOrder T] (later : T →o T)

/-- A request that starts at `t` is a window behind the failure at `t₀` and behind every request
that started in between. -/
def Spaced (log : List (Event T)) (k n : Nat) (t₀ t : T) : Prop :=
  later t₀ ≤ t ∧ ∀ (m i : Nat) (u : T), k < m → m < n → log[m]? = some (.started i u) → later u ≤ t

/-- After a transient failure requests start one window apart, until one that passed the gate behind
it succeeds. -/
def Windowed (log : List (Event T)) : Prop :=
  ∀ (k n i i' : Nat) (t₀ t : T), k < n → log[k]? = some (.failed i t₀) →
    log[n]? = some (.started i' t) → ¬ Reopened log k n → Spaced later log k n t₀ t

/-- No success is recorded in a retry window for a request that passed the gate before a failure. -/
def Punctual (s : State F T) : Act F T → Prop
  | .settle i =>
    match (s.threads i).phase with
    | .answered _ g r => (usable r).isSome → s.retryAt ≠ none →
      ∀ (k i' : Nat) (t : T), s.log[k]? = some (.failed i' t) → k < g
    | _ => True
  | _ => True

/-- A log stays windowed when what is added is no start, or a start one window behind. -/
theorem Windowed.snoc {log : List (Event T)} {e : Event T} (h : Windowed later log)
    (he : ∀ (i' : Nat) (t : T), e = .started i' t → ∀ (k i : Nat) (t₀ : T),
      log[k]? = some (.failed i t₀) → ¬ Reopened log k log.length →
        Spaced later log k log.length t₀ t) : Windowed later (log ++ [e]) := by
  intro k n i i' t₀ t hkn hk hn hr
  have hspaced : n ≤ log.length → Spaced later log k n t₀ t →
      Spaced later (log ++ [e]) k n t₀ t := by
    rintro hle ⟨h1, h2⟩
    refine ⟨h1, fun m j u hkm hmn hm => ?_⟩
    rcases get_snoc.mp hm with hm | ⟨hm, _⟩
    · exact h2 m j u hkm hmn hm
    · omega
  rcases get_snoc.mp hn with hn | ⟨rfl, he'⟩
  · have hlt := lt_length_of_get hn
    rcases get_snoc.mp hk with hk | ⟨hk, _⟩
    · exact hspaced (by omega) (h k n i i' t₀ t hkn hk hn (mt (Reopened.snoc e) hr))
    · omega
  · rcases get_snoc.mp hk with hk | ⟨hk, _⟩
    · exact hspaced (Nat.le_refl _) (he i' t he' k i t₀ hk (mt (Reopened.snoc e) hr))
    · omega

/-- A failure behind which nothing has reopened the endpoint holds the gate: the retry time is one
window behind it and behind every request that started since. -/
def Guarded (log : List (Event T)) (retryAt : Option T) : Prop :=
  ∀ (k i : Nat) (t₀ : T), log[k]? = some (.failed i t₀) → ¬ Reopened log k log.length →
    ∃ r, retryAt = some r ∧ later t₀ ≤ r ∧
      ∀ (m i : Nat) (u : T), k < m → log[m]? = some (.started i u) → later u ≤ r

/-- No event is later than the clock. -/
def Past (log : List (Event T)) (now : T) : Prop :=
  ∀ (k i : Nat) (t : T),
    (log[k]? = some (.failed i t) → t ≤ now) ∧ (log[k]? = some (.started i t) → t ≤ now)

theorem Past.snoc {log : List (Event T)} {now : T} {e : Event T} (h : Past log now)
    (he : ∀ i t, (e = .failed i t → t ≤ now) ∧ (e = .started i t → t ≤ now)) :
    Past (log ++ [e]) now := by
  intro k i t
  constructor
  · intro hk
    rcases get_snoc.mp hk with hk | ⟨_, hk⟩
    · exact (h k i t).1 hk
    · exact (he i t).1 hk
  · intro hk
    rcases get_snoc.mp hk with hk | ⟨_, hk⟩
    · exact (h k i t).2 hk
    · exact (he i t).2 hk

/-- A retry time one window behind now guards every log. -/
theorem Past.guarded {log : List (Event T)} {now : T} (hpast : Past log now) :
    Guarded later log (some (later now)) := by
  intro k i t₀ hk hr
  refine ⟨later now, rfl, later.mono ((hpast k i t₀).1 hk), fun m j u _ hm => ?_⟩
  exact later.mono ((hpast m j u).2 hm)

/-- An event that is neither a failure, a start nor a success leaves the guard as it is. -/
theorem Guarded.unusable {log : List (Event T)} {r : Option T} (h : Guarded later log r) (i : Nat) :
    Guarded later (log ++ [.unusable i]) r := by
  intro k j t₀ hk hr
  rcases get_snoc.mp hk with hk | ⟨_, hk⟩
  swap
  · cases hk
  have hr' : ¬ Reopened log k log.length := by
    intro hh
    exact hr ((hh.snoc _).mono (by simp))
  obtain ⟨x, hx, h1, h2⟩ := h k j t₀ hk hr'
  refine ⟨x, hx, h1, fun m j u hkm hm => ?_⟩
  rcases get_snoc.mp hm with hm | ⟨_, hm⟩
  · exact h2 m j u hkm hm
  · cases hm

/-- A success for a request behind every failure opens the gate. -/
theorem Guarded.succeeded {log : List (Event T)} {r : Option T} (h : Guarded later log r) {i g : Nat}
    (hp : r ≠ none → ∀ (k i' : Nat) (t : T), log[k]? = some (.failed i' t) → k < g) :
    Guarded later (log ++ [.succeeded i g]) none := by
  intro k j t₀ hk hr
  rcases get_snoc.mp hk with hk | ⟨_, hk⟩
  swap
  · cases hk
  have hr' : ¬ Reopened log k log.length := by
    intro hh
    exact hr ((hh.snoc _).mono (by simp))
  obtain ⟨x, hx, _⟩ := h k j t₀ hk hr'
  have hkg := hp (by simp [hx]) k j t₀ hk
  refine absurd ⟨log.length, i, g, lt_length_of_get hk, by simp, ?_, hkg⟩ hr
  exact get_snoc.mpr (.inr ⟨rfl, rfl⟩)

/-- A start through an open gate without a retry time leaves the log guarded, since no failure is
left that would hold the gate. -/
theorem Guarded.started {log : List (Event T)} (h : Guarded later log none) (i : Nat) (t : T) :
    Guarded later (log ++ [.started i t]) none := by
  intro k j t₀ hk hr
  rcases get_snoc.mp hk with hk | ⟨_, hk⟩
  swap
  · cases hk
  have hr' : ¬ Reopened log k log.length := by
    intro hh
    exact hr ((hh.snoc _).mono (by simp))
  obtain ⟨x, hx, _⟩ := h k j t₀ hk hr'
  cases hx

/-! ## Steps keep the invariants -/

variable {U : CharTables}

theorem passGate_inv {s : State F T} {i : Nat} {c : Call} (h : Inv s)
    (hp : (s.threads i).phase = .called c) : Inv (passGate later U s i c) := by
  have hremote : (s.threads i).remote = false := by
    have ht := h.threads i
    unfold ThreadOk at ht
    rwa [hp] at ht
  unfold passGate
  split
  · refine ⟨threads_set h.threads ?_, h.pinned, h.shut⟩
    exact threadOk_estimated U c hremote fun r hr => by cases hr
  · rename_i r hg
    have hpin : s.pinned = false := by
      unfold gate at hg
      split at hg
      · cases hg
      · rename_i hn
        simpa using hn
    have hnone : ∀ (k i' : Nat), s.log[k]? ≠ some (.unusable i') := by
      intro k i' hk
      rw [h.pinned k i' hk] at hpin
      cases hpin
    refine ⟨threads_set h.threads hremote, fun k j hk => ?_, h.shut.snoc fun _ _ _ => hnone⟩
    rcases get_snoc.mp hk with hk | ⟨_, hk⟩
    · exact absurd hk (hnone k j)
    · cases hk

theorem settle_inv {s : State F T} {i g : Nat} {c : Call} {r : Reply F} (h : Inv s)
    (hp : (s.threads i).phase = .answered c g r) : Inv (settle later U s i c g r) := by
  have hremote : (s.threads i).remote = false := by
    have ht := h.threads i
    unfold ThreadOk at ht
    rwa [hp] at ht
  unfold settle
  split
  · rename_i n ho
    refine ⟨threads_set h.threads ?_, fun k j hk => ?_, h.shut.snoc nofun⟩
    · refine ⟨nofun, fun l hl => ?_⟩
      cases hl
      refine iff_of_true rfl ⟨r, rfl, ?_⟩
      unfold usable
      rw [ho]
    · rcases get_snoc.mp hk with hk | ⟨_, hk⟩
      · exact h.pinned k j hk
      · cases hk
  · rename_i ho
    have hu : ∀ r', some r = some r' → usable r' = none := by
      intro r' hr
      cases hr
      unfold usable
      rw [ho]
    refine ⟨threads_set h.threads (threadOk_estimated U c hremote hu), fun k j hk => ?_,
      h.shut.snoc nofun⟩
    rcases get_snoc.mp hk with hk | ⟨_, hk⟩
    · exact h.pinned k j hk
    · cases hk
  · rename_i ho
    have hu : ∀ r', some r = some r' → usable r' = none := by
      intro r' hr
      cases hr
      unfold usable
      rw [ho]
    exact ⟨threads_set h.threads (threadOk_estimated U c hremote hu), fun _ _ _ => rfl,
      h.shut.snoc nofun⟩

theorem step_inv {s s' : State F T} {a : Act F T} (hs : step later U s a = some s') (h : Inv s) :
    Inv s' := by
  cases step_cases later U hs with
  | tick _ => exact ⟨h.threads, h.pinned, h.shut⟩
  | call _ => exact begin_inv h
  | gate hp => exact passGate_inv later h hp
  | reply hp =>
    rename_i i g c r
    refine ⟨threads_set h.threads ?_, h.pinned, h.shut⟩
    have ht := h.threads i
    unfold ThreadOk at ht ⊢
    rwa [hp] at ht
  | settle hp => exact settle_inv later h hp

theorem reachable_inv {ok : State F T → Act F T → Prop} {s : State F T}
    (h : Reachable later U ok s) : Inv s := by
  induction h with
  | init now =>
    refine ⟨fun i => ⟨fun _ => rfl, nofun⟩, fun k i hk => ?_,
      fun j k i i' t hj => ?_⟩
    · simp at hk
    · simp at hj
  | step _ _ hs ih => exact step_inv later hs ih

/-- What a run whose successes are punctual keeps. -/
structure Kept (s : State F T) : Prop where
  past : Past s.log s.now
  guarded : Guarded later s.log s.retryAt
  windowed : Windowed later s.log

theorem passGate_kept {s : State F T} {i : Nat} {c : Call} (h : Kept later s) :
    Kept later (passGate later U s i c) := by
  unfold passGate
  split
  · exact ⟨h.past, h.guarded, h.windowed⟩
  rename_i r hg
  have hpast : Past (s.log ++ [.started i s.now]) s.now := by
    refine h.past.snoc fun j t => ⟨nofun, fun he => ?_⟩
    cases he
    exact le_refl _
  unfold gate at hg
  split at hg
  · cases hg
  cases hr : s.retryAt with
  | none =>
    -- nothing holds the gate, so no failure is left that the start would have to be behind of
    rw [hr] at hg
    cases hg
    have hguard : Guarded later s.log none := hr ▸ h.guarded
    refine ⟨hpast, hguard.started later i s.now, h.windowed.snoc later ?_⟩
    intro i' t _ k j t₀ hk hopen
    obtain ⟨x, hx, _⟩ := hguard k j t₀ hk hopen
    cases hx
  | some x =>
    rw [hr] at hg
    dsimp only at hg
    split at hg
    · cases hg
    rename_i hnow
    cases hg
    refine ⟨hpast, hpast.guarded later, h.windowed.snoc later ?_⟩
    intro i' t he k j t₀ hk hopen
    cases he
    obtain ⟨y, hy, h1, h2⟩ := h.guarded k j t₀ hk hopen
    rw [hr] at hy
    cases hy
    exact ⟨h1.trans (not_lt.mp hnow), fun m j u hkm _ hm => (h2 m j u hkm hm).trans (not_lt.mp hnow)⟩

theorem settle_kept {s : State F T} {i g : Nat} {c : Call} {r : Reply F} (h : Kept later s)
    (hp : (s.threads i).phase = .answered c g r) (hok : Punctual s (.settle i)) :
    Kept later (settle later U s i c g r) := by
  have hok : (usable r).isSome → s.retryAt ≠ none →
      ∀ (k i' : Nat) (t : T), s.log[k]? = some (.failed i' t) → k < g := by
    unfold Punctual at hok
    dsimp only at hok
    rwa [hp] at hok
  unfold settle
  split
  · rename_i n ho
    have hu : (usable r).isSome := by
      unfold usable
      rw [ho]
      rfl
    exact ⟨h.past.snoc fun _ _ => ⟨nofun, nofun⟩,
      h.guarded.succeeded later (hok hu), h.windowed.snoc later nofun⟩
  · have hpast : Past (s.log ++ [.failed i s.now]) s.now := by
      refine h.past.snoc fun j t => ⟨fun he => ?_, nofun⟩
      cases he
      exact le_refl _
    exact ⟨hpast, hpast.guarded later, h.windowed.snoc later nofun⟩
  · exact ⟨h.past.snoc fun _ _ => ⟨nofun, nofun⟩,
      h.guarded.unusable later i, h.windowed.snoc later nofun⟩

theorem step_kept {s s' : State F T} {a : Act F T} (hs : step later U s a = some s')
    (h : Kept later s) (hok : Punctual s a) : Kept later s' := by
  cases step_cases later U hs with
  | tick ht =>
    exact ⟨fun k i t => ⟨fun hk => ((h.past k i t).1 hk).trans ht,
      fun hk => ((h.past k i t).2 hk).trans ht⟩, h.guarded, h.windowed⟩
  | call _ =>
    unfold begin
    split <;> exact ⟨h.past, h.guarded, h.windowed⟩
  | gate _ => exact passGate_kept later h
  | reply _ => exact ⟨h.past, h.guarded, h.windowed⟩
  | settle hp => exact settle_kept later h hp hok

theorem reachable_kept {s : State F T} (h : Reachable later U Punctual s) : Kept later s := by
  induction h with
  | init now =>
    refine ⟨fun k i t => ?_, fun k i t hk => ?_, fun k n i i' t₀ t _ hk => ?_⟩
    · simp
    · simp at hk
    · simp at hk
  | step _ hok hs ih => exact step_kept later hs ih hok

end

/-! ## Main results -/

/-- On every thread between counts the flag says whether the last count was answered. -/
def Confirmed (s : State F T) : Prop :=
  ∀ i, (s.threads i).phase = .idle → ((s.threads i).last = none → (s.threads i).remote = false) ∧
    ∀ l, (s.threads i).last = some l → ((s.threads i).remote = true ↔ TakenFromAnswer l)

/-- In every run counts are confirmed by their own answers and an unusable endpoint is not asked
again; where every success is punctual, retry windows hold too. -/
theorem counts_confirmed [LinearOrder T] (later : T →o T) (U : CharTables) :
    (∀ s : State F T, Reachable later U anyStep s → Confirmed s ∧ Shut s.log) ∧
      ∀ s : State F T, Reachable later U Punctual s → Windowed later s.log := by
  refine ⟨fun s h => ⟨fun i hi => ?_, (reachable_inv later h).shut⟩,
    fun s h => (reachable_kept later h).windowed⟩
  have ht := (reachable_inv later h).threads i
  unfold ThreadOk at ht
  rwa [hi] at ht

section

/-- Windows of 60 ticks. -/
def sixty : Nat →o Nat := ⟨fun t => t + 60, fun _ _ h => Nat.add_le_add_right h 60⟩

def counted : Reply Unit := .response 200 (some (.obj [("count".toList, .int 7)]))

def refusedReply : Reply Unit := .response 503 none

/-- Actions one after the other. -/
def runActs (s : State Unit Nat) : List (Act Unit Nat) → Option (State Unit Nat)
  | [] => some s
  | a :: acts => (step sixty asciiTables s a).bind fun s' => runActs s' acts

theorem runActs_reachable {acts : List (Act Unit Nat)} {s s' : State Unit Nat}
    (h : Reachable sixty asciiTables anyStep s) (hr : runActs s acts = some s') :
    Reachable sixty asciiTables anyStep s' := by
  induction acts generalizing s with
  | nil =>
    cases hr
    exact h
  | cons a acts ih =>
    obtain ⟨t, ht, hr⟩ := Option.bind_eq_some_iff.mp hr
    exact ih (h.step trivial ht) hr

/-- A count fails, and the first one a window later is answered. -/
theorem counts_confirmed_retry : ∃ s : State Unit Nat,
    s.log = [.started 0 0, .failed 0 0, .started 0 60, .succeeded 0 2] ∧
      (Confirmed s ∧ Shut s.log) ∧ Windowed sixty s.log := by
  have hrun : ∃ s : State Unit Nat, Reachable sixty asciiTables Punctual s ∧
      s.log = [.started 0 0, .failed 0 0, .started 0 60, .succeeded 0 2] := by
    refine ⟨_, .step (.step (.step (.step (.step (.step (.step (.step (.step (.init 0)
      trivial (a := .call 0 (.tokens ['a'])) rfl) trivial (a := .gate 0) rfl)
      trivial (a := .reply 0 refusedReply) rfl) nofun (a := .settle 0) rfl)
      trivial (a := .tick 60) rfl) trivial (a := .call 0 (.tokens ['a'])) rfl)
      trivial (a := .gate 0) rfl) trivial (a := .reply 0 counted) rfl) ?_ (a := .settle 0) rfl, rfl⟩
    intro _ _ k i t hk
    change k < 2
    by_contra hlt
    obtain rfl | h3 : k = 2 ∨ 3 ≤ k := by omega
    · cases hk
    · have hlen := lt_length_of_get hk
      change k < 3 at hlen
      omega
  obtain ⟨s, hs, hlog⟩ := hrun
  have hany : Reachable sixty asciiTables anyStep s := by
    clear hlog
    induction hs with
    | init now => exact .init now
    | step _ _ hs ih => exact ih.step trivial hs
  exact ⟨s, hlog, (counts_confirmed sixty asciiTables).1 s hany,
    (counts_confirmed sixty asciiTables).2 s hs⟩

/-- Two requests are out. The second fails, then the first is answered, and the next count asks the
endpoint in the window. -/
def lateSuccess : List (Act Unit Nat) :=
  [.call 0 (.tokens ['a']), .call 1 (.tokens ['a']), .gate 0, .gate 1, .reply 1 refusedReply,
    .settle 1, .reply 0 counted, .settle 0, .call 2 (.tokens ['a']), .gate 2]

theorem late_success_reopens : ∃ s : State Unit Nat, Reachable sixty asciiTables anyStep s ∧
    s.log = [.started 0 0, .started 1 0, .failed 1 0, .succeeded 0 0, .started 2 0] ∧
    ¬ Windowed sixty s.log := by
  have hrun : ∃ s, runActs { now := 0 } lateSuccess = some s ∧
      s.log = [.started 0 0, .started 1 0, .failed 1 0, .succeeded 0 0, .started 2 0] :=
    ⟨_, rfl, rfl⟩
  obtain ⟨s, hs, hlog⟩ := hrun
  refine ⟨s, runActs_reachable (.init 0) hs, hlog, fun h => ?_⟩
  rw [hlog] at h
  have hspaced := h 2 4 1 2 0 0 (by omega) rfl rfl ?_
  · have hlate : sixty 0 ≤ 0 := hspaced.1
    revert hlate
    decide
  · rintro ⟨j, i, g, h1, h2, h3, h4⟩
    obtain rfl : j = 3 := by omega
    cases h3
    omega

end

end Tokenizer

end MainframeRag.Agent
