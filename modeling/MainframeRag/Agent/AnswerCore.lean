import MainframeRag.Agent.ParseAnswer
import MainframeRag.Agent.Sse
import MainframeRag.Lib.Fallible
import MainframeRag.Retrieve.Filters

/-!
# The answer pipeline, buffered and streamed

`execute_answer_core` and `execute_answer_core_stream` of `agent/answer_core.py`, and the streams of
`agent/model_adapter.py`. Both executors retrieve, classify, build the prompt and check what it
supplies in the same way (`prepareAnswer`); one then asks the model for a whole completion, the other
folds the items of a stream.

A stream that carries a completion ends in its final (`stream_yields`), every other one raises without
one (`stream_refused`). The adapter lets through only streams of the first kind
(`adaptedStream_yields`).
-/

namespace MainframeRag.Agent.AnswerCore

open PyText Fallible
open Ingest.Chunking (natText)
open Retrieve (QueryIdentifiers)

/-! ## What an answer is -/

inductive VerificationState
  | accepted
  | unverifiedDraft
  | insufficientEvidence
  | generationIncomplete
  deriving DecidableEq

/-- What leaves an executor as an exception; `E` has those of the code it is given. -/
inductive CoreRaised (E : Type)
  | truncated (contentChunks : Nat) (reason : Reason)
  | evidenceBudget (retrieved : Nat)
  | llmChat (original : E)
  | other (e : E)
  deriving DecidableEq

structure ChatResult extends Agent.ChatResult where
  ttftMs : Option Int := none
  deriving DecidableEq

/-- `TokenUsage()` -/
def noUsage : TokenUsage := ⟨0, 0, 0, 0⟩

structure AnswerReaders extends Agent.AnswerReaders where
  /-- `has_answer_body` -/
  hasAnswerBody : Text → List Text → Bool
  /-- `parse_query` -/
  parseQuery : Text → QueryIdentifiers

def stopText : Text := "stop".toList

section

variable (U : CharTables) (A : AnswerReaders)

/-- `verification_state_for` -/
def verificationStateFor (answer : Text) (citations : List Text) (citationsInferred : Bool)
    (finishReason : Text) (abstained emptyHits scriptPresent : Bool) : VerificationState :=
  if emptyHits then .insufficientEvidence
  else if finishReason ≠ stopText then .generationIncomplete
  else if abstained then .insufficientEvidence
  else if A.hasAnswerBody answer citations = false then
    if scriptPresent then .unverifiedDraft else .generationIncomplete
  else if citations = [] ∨ citationsInferred = true then .unverifiedDraft
  else .accepted

structure AnswerCoreOutput where
  answer : Text
  citations : List Text
  citationsInferred : Bool
  inferredIndices : List Nat
  script : Option Text
  scriptLang : Option Text
  verificationState : VerificationState
  scriptReviewRequired : Bool
  queryKind : Text
  hits : List SearchHit
  finishReason : Text
  usage : TokenUsage
  timings : List (Text × Int)
  llmMs : Int
  ttftMs : Option Int
  complexity : Text
  parsed : ParsedAnswer
  evidence : PromptEvidence
  budgetVerified : Bool := false
  supplied : List SuppliedExcerpt := []
  reasoningEffort : Option Text := none
  deriving DecidableEq

/-- The output without `llm_ms` and `ttft_ms`. -/
def AnswerCoreOutput.untimed (o : AnswerCoreOutput) : AnswerCoreOutput :=
  { o with llmMs := 0, ttftMs := none }

/-- `_finalize_answer` -/
def finalizeAnswer (content : Text) (prepared : PreparedPrompt) (hits : List SearchHit) (kind : Text)
    (timings : List (Text × Int)) (complexity finishReason : Text) (usage : TokenUsage) (llmMs : Int)
    (ttftMs : Option Int) (reasoningEffort : Option Text) : AnswerCoreOutput :=
  let parsed := parseAnswer U A.toAnswerReaders content prepared.evidence
  { answer := parsed.answer
    citations := parsed.citations
    citationsInferred := parsed.citationsInferred
    inferredIndices := parsed.inferredIndices
    script := parsed.script
    scriptLang := parsed.scriptLang
    verificationState := verificationStateFor A parsed.answer parsed.citations
      parsed.citationsInferred finishReason parsed.abstained false
      (parsed.script.any (fun script => script ≠ []))
    scriptReviewRequired := parsed.script.isSome
    queryKind := kind
    hits := hits
    finishReason := finishReason
    usage := usage
    timings := timings
    llmMs := llmMs
    ttftMs := ttftMs
    complexity := complexity
    parsed := parsed
    evidence := prepared.evidence
    budgetVerified := prepared.budgetVerified
    supplied := prepared.supplied
    reasoningEffort := reasoningEffort }

def emptyAnswerMaxTerms : Nat := 5

/-- `empty_hits_answer` -/
def emptyHitsAnswer (query : Text) : Text :=
  let ids := A.parseQuery query
  let terms := ids.messageIds ++ ids.docIds ++ ids.members
  if terms = [] then "No supporting manual excerpts were found for this question.".toList
  else
    let shown := List.intercalate ", ".toList (terms.take emptyAnswerMaxTerms)
    let more := if terms.length > emptyAnswerMaxTerms then
      ", +".toList ++ natText (terms.length - emptyAnswerMaxTerms) ++ " more".toList else []
    "No manual excerpts carry ".toList ++ shown ++ more ++ ['.']

/-- `ParsedAnswer` with its defaults. -/
def parsedText (answer : Text) : ParsedAnswer where
  answer := answer
  citations := []
  script := none
  scriptLang := none
  citationsInferred := false
  inferredIndices := []
  abstained := false
  inlineBracketPresent := false
  citationsHeaderPresent := false
  citesRejectedShapeBad := 0
  citesRejectedUnmapped := 0

/-- `_empty_output` -/
def emptyOutput (query kind : Text) (timings : List (Text × Int)) (complexity : Text) :
    AnswerCoreOutput where
  answer := emptyHitsAnswer A query
  citations := []
  citationsInferred := false
  inferredIndices := []
  script := none
  scriptLang := none
  verificationState := .insufficientEvidence
  scriptReviewRequired := false
  queryKind := kind
  hits := []
  finishReason := stopText
  usage := noUsage
  timings := timings
  llmMs := 0
  ttftMs := none
  complexity := complexity
  parsed := parsedText (emptyHitsAnswer A query)
  evidence := {}

end

/-! ## What an executor is given -/

def reasoningEfforts : List Text := ["low", "medium", "high", "xhigh"].map String.toList

def complexText : Text := "complex".toList

/-- The fields of `Settings` the pipeline reads; `T` has the temperatures. -/
structure Settings (T : Type) where
  llmTemperature : T
  llmReasoningEffortSimple : Text
  llmReasoningEffortComplex : Text
  llmReservedOutputTokens : Int
  llmThinkingReserveTokensSimple : Int
  llmThinkingReserveTokensComplex : Int
  promptMaxContextChars : Int
  promptMaxContextCharsComplex : Int
  promptMaxChunkChars : Int
  promptMaxChunkCharsComplex : Int
  splunkContextMaxChars : Int
  promptOrder : PromptOrder

structure AnswerCoreInput (T : Type) where
  query : Text
  messages : Option (List ChatMessage) := none
  product : Option Text := none
  version : Option Text := none
  splunkContext : Option Text := none
  temperature : Option T := none
  isChat : Bool := false
  hits : Option (List SearchHit) := none
  queryKind : Option Text := none
  timings : Option (List (Text × Int)) := none
  reasoningEffort : Option Text := none

structure RetrievalResult where
  hits : List SearchHit
  kind : Text
  timings : List (Text × Int)

/-- What a prompt builder is called with besides the question and the hits. -/
structure PromptOptions where
  product : Option Text
  version : Option Text
  splunkContext : Option Text
  maxContextChars : Int
  maxChunkChars : Int
  maxChunkCharsNarrative : Option Int
  splunkContextMaxChars : Int
  complexity : Text
  order : PromptOrder
  reasoningEffort : Text

/-- The arguments of a model call. -/
structure ModelCall (T : Type) where
  messages : List ChatMessage
  reasoningEffort : Text
  temperature : T
  maxTokens : Option Int

/-- `ttft_ms` of an item: `None`, an `int`, or something else. -/
inductive Ttft
  | absent
  | ms (n : Int)
  | other
  deriving DecidableEq

/-- An item of a model stream; a field of another type than it should have is `none`. -/
inductive ModelItem
  | token (delta : Option Text) (ttft : Ttft)
  | done (finishReason : Option Text) (usage : Option TokenUsage) (ttft : Ttft)
  | other
  deriving DecidableEq

/-- The items a stream yields, and the exception it ends with if it does not just end. -/
structure ModelStream (E : Type) where
  items : List ModelItem
  raised : Option (CoreRaised E) := none

structure AnswerModel (E T : Type) where
  chat : ModelCall T → Except E ChatResult
  stream : ModelCall T → ModelStream E

structure AnswerCoreDeps (E T : Type) where
  settings : Settings T
  llm : AnswerModel E T
  /-- `assert_reasoning_model` -/
  reasoningModel : Except E Unit
  /-- `prepare_chat_turn`: the query and the messages of the turn -/
  chatTurn : List ChatMessage → Option Text → Except E (Text × List ChatMessage)
  /-- `resolve_search_query` and the retriever -/
  retrieve : AnswerCoreInput T → Except E RetrievalResult
  buildMessages : Text → List SearchHit → PromptOptions → Except E PreparedPrompt
  buildChatMessages : List ChatMessage → List SearchHit → PromptOptions → Except E PreparedPrompt
  classifyQueryComplexity : Text → Text

variable {E T : Type}

/-- `_prepare_chat_input` -/
def prepareChatInput (d : AnswerCoreDeps E T) (input : AnswerCoreInput T) :
    Except E (AnswerCoreInput T) := do
  if input.isChat = false then return input
  let turn ← d.chatTurn (input.messages.getD []) input.splunkContext
  return { input with query := turn.1, messages := some turn.2 }

def unknownKind : Text := "unknown".toList

/-- `x or y` on a text that may be missing. -/
def orText (x : Option Text) (y : Text) : Text := if x.getD [] = [] then y else x.getD []

/-- `_retrieve_inputs` -/
def retrieveInputs (d : AnswerCoreDeps E T) (input : AnswerCoreInput T) : Except E RetrievalResult :=
  match input.hits with
  | some hits => .ok ⟨hits, orText input.queryKind unknownKind, input.timings.getD []⟩
  | none => d.retrieve input

/-- `_resolve_reasoning_effort` -/
def resolveReasoningEffort (input : AnswerCoreInput T) (s : Settings T) (complexity : Text) : Text :=
  match input.reasoningEffort with
  | some effort =>
    if effort ∈ reasoningEfforts then effort
    else if complexity = complexText then s.llmReasoningEffortComplex else s.llmReasoningEffortSimple
  | none =>
    if complexity = complexText then s.llmReasoningEffortComplex else s.llmReasoningEffortSimple

/-- `_output_cap` -/
def outputCap (s : Settings T) (complexity : Text) (prepared : PreparedPrompt) : Option Int :=
  if prepared.budgetVerified = false then none
  else some (s.llmReservedOutputTokens +
    if complexity = complexText then s.llmThinkingReserveTokensComplex
    else s.llmThinkingReserveTokensSimple)

/-- `_build_prepared_prompt` -/
def buildPreparedPrompt (d : AnswerCoreDeps E T) (input : AnswerCoreInput T) (hits : List SearchHit)
    (complexity effort : Text) : Except E PreparedPrompt :=
  let s := d.settings
  let options : PromptOptions :=
    { product := input.product
      version := input.version
      splunkContext := input.splunkContext
      maxContextChars := if complexity = complexText then s.promptMaxContextCharsComplex
        else s.promptMaxContextChars
      maxChunkChars := s.promptMaxChunkChars
      maxChunkCharsNarrative := if complexity = complexText then some s.promptMaxChunkCharsComplex
        else none
      splunkContextMaxChars := s.splunkContextMaxChars
      complexity := complexity
      order := s.promptOrder
      reasoningEffort := effort }
  if input.isChat = true ∧ input.messages.getD [] ≠ [] then
    d.buildChatMessages (input.messages.getD []) hits options
  else d.buildMessages input.query hits options

/-- An entry that retains source text. -/
def suppliesText (prepared : PreparedPrompt) : Bool :=
  prepared.evidence.entries.any fun entry => 0 < entry.includedChars

/-- `_require_supplied_evidence` -/
def requireSuppliedEvidence (prepared : PreparedPrompt) (retrieved : Nat) :
    Except (CoreRaised E) Unit :=
  ensure (suppliesText prepared = true) (.evidenceBudget retrieved)

/-! ## Up to the model call -/

/-- The prompt and what the output takes over from before the call. -/
structure Ask (T : Type) where
  prepared : PreparedPrompt
  hits : List SearchHit
  kind : Text
  timings : List (Text × Int)
  complexity : Text
  call : ModelCall T

inductive Plan (T : Type)
  | empty (output : AnswerCoreOutput)
  | ask (a : Ask T)

def lift {α : Type} : Except E α → Except (CoreRaised E) α
  | .ok a => .ok a
  | .error e => .error (.other e)

variable (U : CharTables) (A : AnswerReaders)

/-- The steps both executors take before they call the model. -/
def prepareAnswer (d : AnswerCoreDeps E T) (source : AnswerCoreInput T) :
    Except (CoreRaised E) (Plan T) := do
  let input ← lift (prepareChatInput d source)
  lift d.reasoningModel
  let retrieved ← lift (retrieveInputs d input)
  let complexity := d.classifyQueryComplexity input.query
  if retrieved.hits = [] then
    return .empty (emptyOutput A input.query retrieved.kind retrieved.timings complexity)
  let effort := resolveReasoningEffort input d.settings complexity
  let prepared ← lift (buildPreparedPrompt d input retrieved.hits complexity effort)
  requireSuppliedEvidence prepared retrieved.hits.length
  return .ask
    { prepared := prepared
      hits := retrieved.hits
      kind := retrieved.kind
      timings := retrieved.timings
      complexity := complexity
      call :=
        { messages := prepared.messages
          reasoningEffort := effort
          temperature := input.temperature.getD d.settings.llmTemperature
          maxTokens := outputCap d.settings complexity prepared } }

/-- `_finalize_answer` with what came before the call. -/
def Ask.finalize (a : Ask T) (content finishReason : Text) (usage : TokenUsage) (llmMs : Int)
    (ttftMs : Option Int) : AnswerCoreOutput :=
  finalizeAnswer U A content a.prepared a.hits a.kind a.timings a.complexity finishReason usage llmMs
    ttftMs (some a.call.reasoningEffort)

/-! ## The buffered executor -/

/-- The model calls an executor made and what came of it. -/
structure Executed (E T : Type) where
  calls : List (ModelCall T)
  result : Except (CoreRaised E) AnswerCoreOutput

/-- `execute_answer_core`; `elapsed` is the clock's reading since the call, in milliseconds. -/
def executeAnswerCore (d : AnswerCoreDeps E T) (source : AnswerCoreInput T) (elapsed : Int) :
    Executed E T :=
  match prepareAnswer A d source with
  | .error e => ⟨[], .error e⟩
  | .ok (.empty output) => ⟨[], .ok output⟩
  | .ok (.ask a) =>
    ⟨[a.call], match d.llm.chat a.call with
      | .error e => .error (.llmChat e)
      | .ok r => .ok (a.finalize U A r.content r.finishReason r.usage elapsed r.ttftMs)⟩

/-! ## The streaming executor -/

inductive CoreEvent
  | token (delta : Text) (ttftMs : Option Int)
  | final (output : AnswerCoreOutput)
  deriving DecidableEq

structure StreamState where
  ttftMs : Option Int := none
  contentParts : List Text := []
  finishReason : Option Text := none
  usage : TokenUsage := noUsage

/-- The events of a stream, in order, and how it ended. -/
structure Streamed (E T : Type) where
  calls : List (ModelCall T)
  events : List CoreEvent
  raised : Option (CoreRaised E)

def Ttft.value : Ttft → Option Int
  | .ms n => some n
  | _ => none

def ModelItem.ttft : ModelItem → Ttft
  | .token _ ttft => ttft
  | .done _ _ ttft => ttft
  | .other => .absent

/-- `item.ttft_ms or …` -/
def Ttft.orClock (t : Ttft) (now : Int) : Int := if t.value.getD 0 = 0 then now else t.value.getD 0

def malformed (s : StreamState) : CoreRaised E := .truncated s.contentParts.length .malformedFrame

/-- One item of the loop over the stream: the next state and the token it yields. -/
def streamItem (now : Int) (s : StreamState) (item : ModelItem) :
    Except (CoreRaised E) (StreamState × List CoreEvent) := do
  ensure (s.finishReason = none ∧ item ≠ .other ∧ item.ttft ≠ .other) (malformed s)
  match item with
  | .token none _ => .error (malformed s)
  | .token (some []) _ => return (s, [])
  | .token (some delta) ttft =>
    let first := s.ttftMs.getD (ttft.orClock now)
    return ({ s with ttftMs := some first, contentParts := s.contentParts ++ [delta] },
      [.token delta (some first)])
  | .done finish usage ttft =>
    match finish, usage with
    | some finish, some usage =>
      ensure (finish ≠ []) (malformed s)
      return ({ s with finishReason := some finish, usage := usage,
                       ttftMs := if s.ttftMs = none then ttft.value else s.ttftMs }, [])
    | _, _ => .error (malformed s)
  | .other => .error (malformed s)

/-- The loop over the stream; the clock is read once for each item. -/
def streamItems (elapsed : Nat → Int) : Nat → StreamState → List ModelItem →
    List CoreEvent × Except (CoreRaised E) StreamState
  | _, s, [] => ([], .ok s)
  | n, s, item :: rest =>
    match streamItem (elapsed n) s item with
    | .error e => ([], .error e)
    | .ok (s', events) =>
      let r := streamItems elapsed (n + 1) s' rest
      (events ++ r.1, r.2)

/-- The end of the loop: the stream's own exception, or a stream without a finish. -/
def endOfStream (raised : Option (CoreRaised E)) (s : StreamState) :
    Except (CoreRaised E) (StreamState × Text) :=
  match raised with
  | some e => .error e
  | none =>
    match s.finishReason with
    | none => .error (.truncated s.contentParts.length .missingFinish)
    | some finish => .ok (s, finish)

/-- The stream of an asked model, from its first item to the final event. -/
def Ask.stream (a : Ask T) (stream : ModelStream E) (elapsed : Nat → Int) : Streamed E T :=
  let loop := streamItems elapsed 0 {} stream.items
  match loop.2 >>= endOfStream stream.raised with
  | .error e => ⟨[a.call], loop.1, some e⟩
  | .ok (s, finish) =>
    ⟨[a.call], loop.1 ++ [.final (a.finalize U A s.contentParts.flatten finish s.usage
      (elapsed stream.items.length) s.ttftMs)], none⟩

/-- `execute_answer_core_stream` -/
def executeAnswerCoreStream (d : AnswerCoreDeps E T) (source : AnswerCoreInput T)
    (elapsed : Nat → Int) : Streamed E T :=
  match prepareAnswer A d source with
  | .error e => ⟨[], [], some e⟩
  | .ok (.empty output) => ⟨[], [.final output], none⟩
  | .ok (.ask a) => a.stream U A (d.llm.stream a.call) elapsed

/-! ## What the loop makes of a stream -/

def CoreEvent.delta? : CoreEvent → Option Text
  | .token delta _ => some delta
  | .final _ => none

/-- The token texts of a stream's events, in order. -/
def deltasOf (events : List CoreEvent) : List Text := events.filterMap CoreEvent.delta?

/-- A token item of the right types. -/
def IsToken (item : ModelItem) (delta : Text) : Prop :=
  ∃ ttft, ttft ≠ .other ∧ item = .token (some delta) ttft

/-- Token items with these deltas, and one finish after them. -/
def Carries (items : List ModelItem) (deltas : List Text) (finish : Text) (usage : TokenUsage) :
    Prop :=
  ∃ tokens ttft, items = tokens ++ [.done (some finish) (some usage) ttft] ∧ ttft ≠ .other ∧
    List.Forall₂ IsToken tokens deltas

/-- The stream has these deltas and one finish, and ends. -/
def ModelStream.Yields (stream : ModelStream E) (deltas : List Text) (finish : Text)
    (usage : TokenUsage) : Prop :=
  stream.raised = none ∧ Carries stream.items deltas finish usage

/-- What a step of the loop does when it does not raise. -/
inductive Stepped (s : StreamState) : ModelItem → StreamState → List CoreEvent → Prop
  | blank {item : ModelItem} : IsToken item [] → Stepped s item s []
  | token {item : ModelItem} {delta : Text} (first : Int) : delta ≠ [] → IsToken item delta →
      Stepped s item { s with ttftMs := some first, contentParts := s.contentParts ++ [delta] }
        [.token delta (some first)]
  | done {finish : Text} {usage : TokenUsage} {ttft : Ttft} (first : Option Int) : finish ≠ [] →
      ttft ≠ .other → Stepped s (.done (some finish) (some usage) ttft)
        { s with finishReason := some finish, usage := usage, ttftMs := first } []

theorem streamItem_ok {now : Int} {s s' : StreamState} {item : ModelItem} {events : List CoreEvent}
    (h : streamItem (E := E) now s item = .ok (s', events)) :
    s.finishReason = none ∧ Stepped s item s' events := by
  simp only [streamItem, bind_ok, ensure_ok] at h
  obtain ⟨_, ⟨hfinish, -, httft⟩, h⟩ := h
  refine ⟨hfinish, ?_⟩
  split at h
  · cases h
  · rw [pure_ok, Prod.mk.injEq] at h
    obtain ⟨rfl, rfl⟩ := h
    exact .blank ⟨_, httft, rfl⟩
  · next hne =>
    rw [pure_ok, Prod.mk.injEq] at h
    obtain ⟨rfl, rfl⟩ := h
    exact .token _ hne ⟨_, httft, rfl⟩
  · split at h
    · simp only [bind_ok, ensure_ok, pure_ok, Prod.mk.injEq] at h
      obtain ⟨_, hne, rfl, rfl⟩ := h
      exact .done _ hne httft
    · cases h
  · cases h

theorem streamItem_token (now : Int) {s : StreamState} {item : ModelItem} {delta : Text}
    (hs : s.finishReason = none) (h : IsToken item delta) :
    ∃ s' events, streamItem (E := E) now s item = .ok (s', events) ∧ s'.finishReason = none ∧
      s'.contentParts = s.contentParts ++ [delta].filter (· ≠ []) ∧
      deltasOf events = [delta].filter (· ≠ []) := by
  obtain ⟨ttft, hne, rfl⟩ := h
  have hguard : s.finishReason = none ∧ ModelItem.token (some delta) ttft ≠ .other ∧
      (ModelItem.token (some delta) ttft).ttft ≠ .other := ⟨hs, nofun, hne⟩
  cases delta with
  | nil =>
    rw [streamItem, ensure_true _ hguard, ok_bind]
    exact ⟨s, [], rfl, hs, (List.append_nil _).symm, rfl⟩
  | cons c cs =>
    refine ⟨{ s with
      ttftMs := some (s.ttftMs.getD (ttft.orClock now))
      contentParts := s.contentParts ++ [c :: cs] },
      [.token (c :: cs) (some (s.ttftMs.getD (ttft.orClock now)))], ?_, hs, rfl, rfl⟩
    rw [streamItem, ensure_true _ hguard, ok_bind]
    · rfl
    · exact List.cons_ne_nil c cs

theorem streamItem_done (now : Int) {s : StreamState} {finish : Text} (usage : TokenUsage)
    {ttft : Ttft} (hs : s.finishReason = none) (hfinish : finish ≠ []) (hne : ttft ≠ .other) :
    ∃ first, streamItem (E := E) now s (.done (some finish) (some usage) ttft) =
      .ok ({ s with finishReason := some finish, usage := usage, ttftMs := first }, []) := by
  have hguard : s.finishReason = none ∧ ModelItem.done (some finish) (some usage) ttft ≠ .other ∧
      (ModelItem.done (some finish) (some usage) ttft).ttft ≠ .other := ⟨hs, nofun, hne⟩
  rw [streamItem, ensure_true _ hguard, ok_bind]
  exact ⟨_, by rw [ensure_true _ hfinish, ok_bind]; rfl⟩

theorem streamItems_cons (elapsed : Nat → Int) {n : Nat} {s s' : StreamState} {item : ModelItem}
    {rest : List ModelItem} {events : List CoreEvent}
    (h : streamItem (E := E) (elapsed n) s item = .ok (s', events)) :
    streamItems (E := E) elapsed n s (item :: rest) =
      (events ++ (streamItems (E := E) elapsed (n + 1) s' rest).1,
        (streamItems (E := E) elapsed (n + 1) s' rest).2) := by
  rw [streamItems, h]

/-- A stream that carries a completion is read to its end. -/
theorem streamItems_carries (elapsed : Nat → Int) {items : List ModelItem} {deltas : List Text}
    {finish : Text} {usage : TokenUsage} (h : Carries items deltas finish usage)
    (hfinish : finish ≠ []) : ∀ {n : Nat} {s : StreamState}, s.finishReason = none →
    ∃ s' events, streamItems (E := E) elapsed n s items = (events, .ok s') ∧
      s'.finishReason = some finish ∧ s'.usage = usage ∧
      s'.contentParts = s.contentParts ++ deltas.filter (· ≠ []) ∧
      deltasOf events = deltas.filter (· ≠ []) := by
  obtain ⟨tokens, ttft, rfl, hne, htokens⟩ := h
  induction htokens with
  | nil =>
    intro n s hs
    obtain ⟨first, hstep⟩ := streamItem_done (E := E) (elapsed n) usage hs hfinish hne
    refine ⟨_, _, streamItems_cons elapsed hstep, rfl, rfl, (List.append_nil _).symm, rfl⟩
  | @cons item delta tokens deltas hitem _ ih =>
    intro n s hs
    obtain ⟨s₁, events, hstep, hs₁, hparts, hevents⟩ :=
      streamItem_token (E := E) (elapsed n) hs hitem
    obtain ⟨s₂, more, hrun, hfin, husage, hparts', hmore⟩ := @ih (n + 1) s₁ hs₁
    refine ⟨s₂, events ++ more, ?_, hfin, husage, ?_, ?_⟩
    · rw [List.cons_append, streamItems_cons elapsed hstep, hrun]
    · rw [hparts', hparts, List.append_assoc, ← List.filter_append, List.singleton_append]
    · rw [deltasOf, List.filterMap_append, ← deltasOf, ← deltasOf, hevents, hmore,
        ← List.filter_append, List.singleton_append]

/-- Nothing is read after a finish. -/
theorem streamItems_finished (elapsed : Nat → Int) {n : Nat} {s s' : StreamState} {finish : Text}
    {items : List ModelItem} {events : List CoreEvent} (hs : s.finishReason = some finish)
    (h : streamItems (E := E) elapsed n s items = (events, .ok s')) : items = [] ∧ s' = s := by
  cases items with
  | nil =>
    rw [streamItems, Prod.mk.injEq, Except.ok.injEq] at h
    exact ⟨rfl, h.2.symm⟩
  | cons item rest =>
    cases hstep : streamItem (E := E) (elapsed n) s item with
    | error e =>
      rw [streamItems, hstep] at h
      cases h
    | ok r =>
      have := (streamItem_ok (E := E) hstep).1
      rw [hs] at this
      cases this

/-- A loop that came to a finish has read a stream that carries it. -/
theorem carries_of_streamItems (elapsed : Nat → Int) {items : List ModelItem} :
    ∀ {n : Nat} {s s' : StreamState} {events : List CoreEvent} {finish : Text},
      s.finishReason = none → streamItems (E := E) elapsed n s items = (events, .ok s') →
      s'.finishReason = some finish →
      finish ≠ [] ∧ ∃ deltas, Carries items deltas finish s'.usage := by
  induction items with
  | nil =>
    intro n s s' events finish hs h hfin
    rw [streamItems, Prod.mk.injEq, Except.ok.injEq] at h
    rw [← h.2, hs] at hfin
    cases hfin
  | cons item rest ih =>
    intro n s s' events finish hs h hfin
    cases hstep : streamItem (E := E) (elapsed n) s item with
    | error e =>
      rw [streamItems, hstep] at h
      cases h
    | ok r =>
      obtain ⟨s₁, first⟩ := r
      rw [streamItems_cons elapsed hstep, Prod.mk.injEq] at h
      have hrest : streamItems (E := E) elapsed (n + 1) s₁ rest =
          ((streamItems (E := E) elapsed (n + 1) s₁ rest).1, .ok s') := by rw [← h.2]
      cases (streamItem_ok (E := E) hstep).2 with
      | blank hitem =>
        obtain ⟨hne, deltas, tokens, ttft, rfl, hok, htokens⟩ := ih hs hrest hfin
        exact ⟨hne, [] :: deltas, item :: tokens, ttft, rfl, hok, .cons hitem htokens⟩
      | token _ _ hitem =>
        obtain ⟨hne, deltas, tokens, ttft, rfl, hok, htokens⟩ := ih (by exact hs) hrest hfin
        exact ⟨hne, _ :: deltas, item :: tokens, ttft, rfl, hok, .cons hitem htokens⟩
      | @done found usage ttft _ hne hok =>
        obtain ⟨rfl, rfl⟩ := streamItems_finished elapsed
          (show (StreamState.mk _ _ (some found) _).finishReason = some found from rfl) hrest
        obtain rfl := Option.some.inj hfin
        exact ⟨hne, [], [], ttft, rfl, hok, .nil⟩

/-- The loop yields tokens only. -/
theorem streamItems_tokens (elapsed : Nat → Int) (items : List ModelItem) : ∀ (n : Nat)
    (s : StreamState), ∀ event ∈ (streamItems (E := E) elapsed n s items).1, event.delta?.isSome := by
  induction items with
  | nil => intro n s event he; cases he
  | cons item rest ih =>
    intro n s event he
    cases hstep : streamItem (E := E) (elapsed n) s item with
    | error e =>
      rw [streamItems, hstep] at he
      cases he
    | ok r =>
      obtain ⟨s₁, events⟩ := r
      rw [streamItems_cons elapsed hstep] at he
      change event ∈ events ++ _ at he
      rcases List.mem_append.mp he with hnow | hlater
      · cases (streamItem_ok (E := E) hstep).2 with
        | blank => cases hnow
        | token =>
          obtain rfl := List.mem_singleton.mp hnow
          rfl
        | done => cases hnow
      · exact ih _ _ event hlater

/-! ## The two paths -/

/-- What the buffered executor and the stream make of one input. -/
structure PathsAgree (d : AnswerCoreDeps E T) (b : Executed E T) (s : Streamed E T) : Prop where
  /-- at most one call is made, the same on both paths -/
  calls : s.calls = b.calls ∧ b.calls.length ≤ 1
  /-- where no call is made, both end in the same way and nothing is streamed -/
  uncalled : b.calls = [] →
    (∃ output, b.result = .ok output ∧ s.events = [.final output] ∧ s.raised = none) ∨
      ∃ e, b.result = .error e ∧ s.events = [] ∧ s.raised = some e
  /-- one completion on both paths gives one output, up to the times -/
  agree : ∀ call ∈ b.calls, ∀ deltas finish usage ttft, finish ≠ [] →
    d.llm.chat call = .ok ⟨⟨deltas.flatten, finish, usage⟩, ttft⟩ →
    (d.llm.stream call).Yields deltas finish usage →
    ∃ output streamed tokens, b.result = .ok output ∧ s.events = tokens ++ [.final streamed] ∧
      s.raised = none ∧ streamed.untimed = output.untimed ∧
      (∀ event ∈ tokens, event.delta?.isSome) ∧ deltasOf tokens = deltas.filter (· ≠ [])
  /-- every other stream raises without a final -/
  refused : ∀ call ∈ b.calls,
    (¬ ∃ deltas finish usage, finish ≠ [] ∧ (d.llm.stream call).Yields deltas finish usage) →
    s.raised ≠ none ∧ ∀ event ∈ s.events, event.delta?.isSome

/-- Where a model is called, hits were retrieved and an excerpt of the prompt retains source text. -/
def Supported (d : AnswerCoreDeps E T) (source : AnswerCoreInput T) (call : ModelCall T) : Prop :=
  ∃ input retrieved complexity effort prepared, prepareChatInput d source = .ok input ∧
    retrieveInputs d input = .ok retrieved ∧ retrieved.hits ≠ [] ∧
    buildPreparedPrompt d input retrieved.hits complexity effort = .ok prepared ∧
    call.messages = prepared.messages ∧ ∃ entry ∈ prepared.evidence.entries, 0 < entry.includedChars

theorem lift_ok {α : Type} {r : Except E α} {a : α} : lift r = .ok a ↔ r = .ok a := by
  cases r <;> simp [lift]

theorem prepareAnswer_supported {d : AnswerCoreDeps E T} {source : AnswerCoreInput T} {a : Ask T}
    (h : prepareAnswer A d source = .ok (.ask a)) : Supported d source a.call := by
  simp only [prepareAnswer, bind_ok, lift_ok] at h
  obtain ⟨input, hinput, _, -, retrieved, hretrieved, h⟩ := h
  split at h
  · cases h
  · next hne =>
    simp only [bind_ok, lift_ok, requireSuppliedEvidence, ensure_ok, pure_ok, Plan.ask.injEq] at h
    obtain ⟨prepared, hprepared, _, hsupplies, rfl⟩ := h
    refine ⟨input, retrieved, _, _, prepared, hinput, hretrieved, hne, hprepared, rfl, ?_⟩
    simpa [suppliesText] using hsupplies

/-- A stream that carries a completion ends in its final. -/
theorem stream_yields (a : Ask T) {stream : ModelStream E} (elapsed : Nat → Int)
    {deltas : List Text} {finish : Text} {usage : TokenUsage} (h : stream.Yields deltas finish usage)
    (hfinish : finish ≠ []) :
    ∃ tokens llmMs ttftMs, a.stream U A stream elapsed =
        ⟨[a.call], tokens ++ [.final (a.finalize U A deltas.flatten finish usage llmMs ttftMs)], none⟩ ∧
      (∀ event ∈ tokens, event.delta?.isSome) ∧ deltasOf tokens = deltas.filter (· ≠ []) := by
  obtain ⟨hraised, hcarries⟩ := h
  obtain ⟨s, events, hrun, hfin, husage, hparts, hdeltas⟩ :=
    streamItems_carries (E := E) elapsed hcarries hfinish (n := 0) (s := {}) rfl
  have htokens := streamItems_tokens (E := E) elapsed stream.items 0 {}
  rw [hrun] at htokens
  have hcontent : s.contentParts.flatten = deltas.flatten := by
    rw [hparts]
    exact List.flatten_filter_ne_nil
  refine ⟨events, elapsed stream.items.length, s.ttftMs, ?_, htokens, hdeltas⟩
  simp only [Ask.stream, hrun, ok_bind, endOfStream, hraised, hfin, hcontent, husage]

/-- Any other stream raises, and streams nothing but tokens. -/
theorem stream_refused (a : Ask T) {stream : ModelStream E} (elapsed : Nat → Int)
    (h : ¬ ∃ deltas finish usage, finish ≠ [] ∧ stream.Yields deltas finish usage) :
    (a.stream U A stream elapsed).raised ≠ none ∧
      ∀ event ∈ (a.stream U A stream elapsed).events, event.delta?.isSome := by
  have htokens := streamItems_tokens (E := E) elapsed stream.items 0 {}
  simp only [Ask.stream]
  cases hend : (streamItems (E := E) elapsed 0 {} stream.items).2 >>= endOfStream stream.raised with
  | error e => exact ⟨nofun, htokens⟩
  | ok r =>
    obtain ⟨s, finish⟩ := r
    obtain ⟨s', hloop, hend⟩ := bind_ok.mp hend
    simp only [endOfStream] at hend
    split at hend
    · cases hend
    · next hraised =>
      split at hend
      · cases hend
      · next found hfin =>
        obtain ⟨hne, deltas, hcarries⟩ := carries_of_streamItems (E := E) elapsed
          (n := 0) (s := {}) rfl (Prod.ext rfl hloop) hfin
        exact absurd ⟨deltas, found, s'.usage, hne, hraised, hcarries⟩ h

/-- A stream of the executor is tokens and a final, or tokens and an exception. -/
theorem stream_ends (d : AnswerCoreDeps E T) (source : AnswerCoreInput T) (elapsed : Nat → Int) :
    ((executeAnswerCoreStream U A d source elapsed).raised = none ∧ ∃ tokens output,
      (executeAnswerCoreStream U A d source elapsed).events = tokens ++ [.final output] ∧
        ∀ event ∈ tokens, event.delta?.isSome) ∨
      ((executeAnswerCoreStream U A d source elapsed).raised ≠ none ∧
        ∀ event ∈ (executeAnswerCoreStream U A d source elapsed).events, event.delta?.isSome) := by
  unfold executeAnswerCoreStream
  split
  · exact .inr ⟨nofun, fun _ he => absurd he List.not_mem_nil⟩
  · next output _ => exact .inl ⟨rfl, [], output, rfl, fun _ he => absurd he List.not_mem_nil⟩
  · next a _ =>
    by_cases hyields : ∃ deltas finish usage, finish ≠ [] ∧
        (d.llm.stream a.call).Yields deltas finish usage
    · obtain ⟨deltas, finish, usage, hne, hyields⟩ := hyields
      obtain ⟨tokens, llmMs, ttftMs, hstream, htokens, -⟩ := stream_yields U A a elapsed hyields hne
      rw [hstream]
      exact .inl ⟨rfl, tokens, _, rfl, htokens⟩
    · exact .inr (stream_refused U A a elapsed hyields)

/-- A field of a mapping: absent or null, a value of its type, or something else. -/
inductive Field (α : Type)
  | absent
  | value (a : α)
  | other
  deriving DecidableEq

inductive ItemKind
  | token
  | done
  | other
  deriving DecidableEq

/-- An item of a client's own stream; `mapping` is false where it is no mapping at all. -/
structure LegacyItem where
  mapping : Bool := true
  error : Bool := false
  kind : ItemKind
  ttft : Ttft := .absent
  delta : Option Text := none
  finishReason : Field Text := .absent
  usage : Field TokenUsage := .absent

structure LegacyStream (E : Type) where
  items : List LegacyItem
  raised : Option E := none

/-- A client: `chat`, whose answer may be no `ChatResult`, and `chat_stream` where it has one. -/
structure Client (E T : Type) where
  supportsMaxTokens : Bool
  chat : ModelCall T → Except E (Option ChatResult)
  notChatResult : E
  chatStream : Option (ModelCall T → LegacyStream E)

/-- `_cap` -/
def Client.cap (c : Client E T) (call : ModelCall T) : ModelCall T :=
  if c.supportsMaxTokens then call else { call with maxTokens := none }

/-- `ModelAdapter.chat` -/
def Client.adaptedChat (c : Client E T) (call : ModelCall T) : Except E ChatResult := do
  let raw ← c.chat (c.cap call)
  orRaise raw c.notChatResult

def ofTtft : Option Int → Ttft
  | none => .absent
  | some n => .ms n

structure AdaptState where
  tokens : Nat := 0
  done : Bool := false

/-- One item of the adapter's loop, and what it yields. -/
def adaptItem (s : AdaptState) (item : LegacyItem) :
    Except (CoreRaised E) (AdaptState × List ModelItem) := do
  let bad := CoreRaised.truncated s.tokens .malformedFrame
  ensure (s.done = false ∧ item.mapping = true ∧ item.error = false) bad
  ensure (item.ttft ≠ .other) bad
  match item.kind with
  | .token =>
    match item.delta with
    | none => .error bad
    | some [] => return (s, [])
    | some delta => return ({ s with tokens := s.tokens + 1 }, [.token (some delta) item.ttft])
  | .done =>
    match item.finishReason with
    | .absent => .error (.truncated s.tokens .missingFinish)
    | .other => .error bad
    | .value finish =>
      ensure (finish ≠ []) bad
      match item.usage with
      | .other => .error bad
      | .absent => return ({ s with done := true }, [.done (some finish) (some noUsage) item.ttft])
      | .value usage => return ({ s with done := true }, [.done (some finish) (some usage) item.ttft])
  | .other => .error bad

def adaptItems (raised : Option E) : AdaptState → List LegacyItem → ModelStream E
  | s, [] =>
    ⟨[], match raised with
      | some e => some (.other e)
      | none => if s.done then none else some (.truncated s.tokens .missingFinish)⟩
  | s, item :: rest =>
    match adaptItem s item with
    | .error e => ⟨[], some e⟩
    | .ok (s', items) =>
      let r := adaptItems raised s' rest
      ⟨items ++ r.items, r.raised⟩

/-- `ModelAdapter.stream` -/
def Client.adaptedStream (c : Client E T) (call : ModelCall T) : ModelStream E :=
  match c.chatStream with
  | none =>
    match c.adaptedChat call with
    | .error e => ⟨[], some (.other e)⟩
    | .ok r => ⟨[.token (some r.content) (ofTtft r.ttftMs),
        .done (some r.finishReason) (some r.usage) (ofTtft r.ttftMs)], none⟩
  | some chatStream =>
    let stream := chatStream (c.cap call)
    adaptItems stream.raised {} stream.items

theorem ofTtft_ne (t : Option Int) : ofTtft t ≠ .other := by
  cases t <;> exact nofun

/-- A client without a stream is streamed as the completion it gives. -/
theorem adaptedStream_plain {c : Client E T} {call : ModelCall T} {r : ChatResult}
    (hplain : c.chatStream = none) (h : c.adaptedChat call = .ok r) :
    (c.adaptedStream call).Yields [r.content] r.finishReason r.usage := by
  rw [Client.adaptedStream, hplain, h]
  exact ⟨rfl, [_], _, rfl, ofTtft_ne _, .cons ⟨_, ofTtft_ne _, rfl⟩ .nil⟩

/-- What the adapter's loop yields is well typed, and a stream it ends has one finish, at its end. -/
theorem adaptItems_yields (raised : Option E) {items : List LegacyItem} : ∀ {s : AdaptState},
    (adaptItems raised s items).raised = none →
    if s.done then (adaptItems raised s items).items = []
    else ∃ deltas finish usage, finish ≠ [] ∧
      Carries (adaptItems raised s items).items deltas finish usage := by
  induction items with
  | nil =>
    intro s h
    simp only [adaptItems] at h ⊢
    split at h
    · cases h
    · split at h
      · next hdone =>
        rw [if_pos hdone]
        trivial
      · cases h
  | cons item rest ih =>
    intro s h
    simp only [adaptItems] at h ⊢
    cases hstep : adaptItem (E := E) s item with
    | error e =>
      rw [hstep] at h
      cases h
    | ok r =>
      obtain ⟨s', yielded⟩ := r
      rw [hstep] at h
      dsimp only at h ⊢
      have hrest := ih h
      simp only [adaptItem, bind_ok, ensure_ok] at hstep
      obtain ⟨_, ⟨hopen, -, -⟩, _, httft, hstep⟩ := hstep
      rw [hopen, if_neg (by simp)]
      split at hstep
      · split at hstep
        · cases hstep
        · simp only [pure_ok, Prod.mk.injEq] at hstep
          obtain ⟨rfl, rfl⟩ := hstep
          rwa [if_neg (by simp [hopen])] at hrest
        · next delta _ _ =>
          simp only [pure_ok, Prod.mk.injEq] at hstep
          obtain ⟨rfl, rfl⟩ := hstep
          rw [if_neg (by simp [hopen])] at hrest
          obtain ⟨deltas, finish, usage, hne, tokens, ttft, heq, hok, htokens⟩ := hrest
          refine ⟨delta :: deltas, finish, usage, hne, _ :: tokens, ttft, ?_, hok,
            .cons ⟨_, httft, rfl⟩ htokens⟩
          rw [List.singleton_append, heq, List.cons_append]
      · split at hstep
        · cases hstep
        · cases hstep
        · next finish _ =>
          simp only [bind_ok, ensure_ok] at hstep
          obtain ⟨_, hne, hstep⟩ := hstep
          split at hstep
          · cases hstep
          · simp only [pure_ok, Prod.mk.injEq] at hstep
            obtain ⟨rfl, rfl⟩ := hstep
            rw [if_pos rfl] at hrest
            exact ⟨[], finish, _, hne, [], _, congrArg (_ :: ·) hrest, httft, .nil⟩
          · simp only [pure_ok, Prod.mk.injEq] at hstep
            obtain ⟨rfl, rfl⟩ := hstep
            rw [if_pos rfl] at hrest
            exact ⟨[], finish, _, hne, [], _, congrArg (_ :: ·) hrest, httft, .nil⟩
      · cases hstep

/-- The executor's own checks refuse nothing that the adapter lets through from a streaming client. -/
theorem adaptedStream_yields {c : Client E T} {call : ModelCall T}
    {chatStream : ModelCall T → LegacyStream E} (hstream : c.chatStream = some chatStream)
    (h : (c.adaptedStream call).raised = none) :
    ∃ deltas finish usage, finish ≠ [] ∧ (c.adaptedStream call).Yields deltas finish usage := by
  rw [Client.adaptedStream, hstream] at h ⊢
  obtain ⟨deltas, finish, usage, hne, hcarries⟩ :=
    adaptItems_yields (chatStream (c.cap call)).raised (s := {}) h
  exact ⟨deltas, finish, usage, hne, h, hcarries⟩

/-! ## An empty finish reason -/

def someSettings : Settings Unit where
  llmTemperature := ()
  llmReasoningEffortSimple := "medium".toList
  llmReasoningEffortComplex := "medium".toList
  llmReservedOutputTokens := 1024
  llmThinkingReserveTokensSimple := 0
  llmThinkingReserveTokensComplex := 0
  promptMaxContextChars := 8000
  promptMaxContextCharsComplex := 8000
  promptMaxChunkChars := 3000
  promptMaxChunkCharsComplex := 3000
  splunkContextMaxChars := 4000
  promptOrder := .retrieval

def someHit : SearchHit where
  chunkId := "c".toList
  cite := "D p.1".toList
  text := "text".toList
  docId := "D".toList
  chunkType := "narrative".toList

def somePrompt : PreparedPrompt where
  messages := []
  evidence := { entries := [⟨1, "c".toList, "D".toList, "D p.1".toList, false, 4, 4, 1, 0, 0, 0⟩] }

/-- A model that answers `x` and labels it with an empty finish reason. -/
def unlabelledModel : AnswerModel Unit Unit where
  chat _ := .ok ⟨⟨['x'], [], noUsage⟩, none⟩
  stream _ := ⟨[.token (some ['x']) .absent, .done (some []) (some noUsage) .absent], none⟩

def unlabelledDeps : AnswerCoreDeps Unit Unit where
  settings := someSettings
  llm := unlabelledModel
  reasoningModel := .ok ()
  chatTurn messages _ := .ok ([], messages)
  retrieve _ := .ok ⟨[someHit], [], []⟩
  buildMessages _ _ _ := .ok somePrompt
  buildChatMessages _ _ _ := .ok somePrompt
  classifyQueryComplexity _ := "simple".toList

def someInput : AnswerCoreInput Unit where
  query := "q".toList
  hits := some [someHit]

def someReaders : AnswerReaders where
  isAbstention _ _ := false
  setOrder ids := ids
  hasAnswerBody _ _ := true
  parseQuery _ := {}

end MainframeRag.Agent.AnswerCore
