import MainframeRag.Agent.AnswerCore
import MainframeRag.Lib.PyJson

/-!
# Answer streams and their outcome

`_stream_answer_core` of `agent/app.py` with the frame builders of the answer, chat and console
routes, the frames of `agent/sse.py`, and the owner of the request, which records the outcome once.

A generator is the list of what it does while its frames are taken: frames and side effects in their
order (`Gen`). A client that goes away after some frames closes it at the last of them (`play`); what
stands between two frames runs only when the second is asked for.
-/

namespace MainframeRag.Agent.AnswerStream

open PyText PyJson AnswerCore
open Ingest.Chunking (natText)

variable {F : Type}

/-! ## Payloads -/

structure ScoredHit (F : Type) extends SearchHit where
  score : F
  messageIds : List Text := []
  rerankScore : Option F := none

/-- A finalized output with the scores of its hits. -/
structure Output (F : Type) extends AnswerCoreOutput where
  scored : List (ScoredHit F)
  hits_eq : hits = scored.map ScoredHit.toSearchHit

def optional {α : Type} (f : α → Json F) : Option α → Json F
  | none => .null
  | some a => f a

def texts (ts : List Text) : Json F := .arr (ts.map .str)

def nat (n : Nat) : Json F := .int n

def unitJson (u : Int × Int × Text) : Json F := .arr [.int u.1, .int u.2.1, .str u.2.2]

/-- `SearchHit.model_dump` -/
def ScoredHit.json (h : ScoredHit F) : Json F :=
  .obj [("chunk_id".toList, .str h.chunkId), ("score".toList, .float h.score),
    ("cite".toList, .str h.cite), ("heading".toList, .str h.heading), ("text".toList, .str h.text),
    ("doc_id".toList, .str h.docId), ("title".toList, .str h.title),
    ("page_label".toList, .str h.pageLabel), ("chunk_type".toList, .str h.chunkType),
    ("message_ids".toList, texts h.messageIds), ("product".toList, optional .str h.product),
    ("version".toList, optional .str h.version),
    ("rerank_score".toList, optional .float h.rerankScore),
    ("units".toList, optional (fun us => .arr (us.map unitJson)) h.units),
    ("page_start".toList, optional nat h.pageStart), ("page_end".toList, optional nat h.pageEnd)]

/-- `SuppliedExcerpt.model_dump` -/
def suppliedJson (e : SuppliedExcerpt) : Json F :=
  .obj [("index".toList, nat e.index), ("citation".toList, .str e.citation),
    ("duplicate_citation".toList, .bool e.duplicateCitation),
    ("product".toList, optional .str e.product), ("version".toList, optional .str e.version),
    ("doc_id".toList, .str e.docId), ("title".toList, .str e.title),
    ("heading".toList, .str e.heading), ("page_label".toList, .str e.pageLabel),
    ("pdf_page_start".toList, optional nat e.pdfPageStart),
    ("pdf_page_end".toList, optional nat e.pdfPageEnd), ("start_char".toList, nat e.startChar),
    ("end_char".toList, nat e.endChar), ("source_chars".toList, nat e.sourceChars),
    ("truncated_start".toList, .bool e.truncatedStart),
    ("truncated_end".toList, .bool e.truncatedEnd), ("text_clipped".toList, .bool e.textClipped),
    ("text".toList, .str e.text)]

def usageJson (u : TokenUsage) : Json F :=
  .obj [("prompt_tokens".toList, .int u.promptTokens),
    ("completion_tokens".toList, .int u.completionTokens),
    ("reasoning_tokens".toList, .int u.reasoningTokens), ("total_tokens".toList, .int u.totalTokens)]

def stateText : VerificationState → Text
  | .accepted => "accepted".toList
  | .unverifiedDraft => "unverified_draft".toList
  | .insufficientEvidence => "insufficient_evidence".toList
  | .generationIncomplete => "generation_incomplete".toList

/-- `final_payload`; the fields of the output that reach the wire, and the query kind of the route. -/
def finalPayload (requestId kind : Text) (o : Output F) : Json F :=
  .obj [("type".toList, .str "final".toList), ("request_id".toList, .str requestId),
    ("answer".toList, .str o.answer), ("citations".toList, texts o.citations),
    ("citations_inferred".toList, .bool o.citationsInferred),
    ("inferred_indices".toList, .arr (o.inferredIndices.map nat)),
    ("verification_state".toList, .str (stateText o.verificationState)),
    ("script".toList, optional .str o.script), ("script_lang".toList, optional .str o.scriptLang),
    ("script_review_required".toList, .bool o.scriptReviewRequired),
    ("supplied_evidence".toList, .arr (o.supplied.map suppliedJson)),
    ("evidence_omitted".toList, nat o.evidence.omittedIndices.length),
    ("query_kind".toList, .str kind), ("hits".toList, .arr (o.scored.map ScoredHit.json)),
    ("finish_reason".toList, .str o.finishReason), ("ttft_ms".toList, optional .int o.ttftMs),
    ("usage".toList, usageJson o.usage)]

/-- `empty_final_payload`: the payload of the output with nothing but its text and labels. -/
def emptyFinalPayload (requestId kind : Text) (o : Output F) : Json F :=
  finalPayload requestId kind
    { o with
      citations := []
      citationsInferred := false
      inferredIndices := []
      script := none
      scriptLang := none
      hits := []
      finishReason := stopText
      usage := noUsage
      ttftMs := none
      supplied := []
      evidence := {}
      scored := []
      hits_eq := rfl }

/-- `_answer_metadata` with the hits it is given. -/
def answerMetadata (o : Output F) (hits : List (Json F)) : Items F :=
  let hasHits := o.hits ≠ []
  [("citations".toList, texts (if hasHits then o.citations else [])),
    ("citations_inferred".toList, .bool (if hasHits then o.citationsInferred else false)),
    ("inferred_indices".toList, .arr ((if hasHits then o.inferredIndices else []).map nat)),
    ("hits".toList, .arr hits),
    ("verification_state".toList, .str (stateText o.verificationState)),
    ("script".toList, if hasHits then optional .str o.script else .null),
    ("script_lang".toList, if hasHits then optional .str o.scriptLang else .null),
    ("script_review_required".toList, .bool o.scriptReviewRequired),
    ("supplied_evidence".toList, .arr ((if hasHits then o.supplied else []).map suppliedJson)),
    ("evidence_omitted".toList, nat (if hasHits then o.evidence.omittedIndices.length else 0))]

/-! ## Frames -/

/-- A frame before it is written: a named event, a bare data line, or `[DONE]`. -/
inductive Frame (F : Type)
  | event (name : Text) (payload : Json F)
  | data (payload : Json F)
  | doneMark

/-- `json.dumps(payload, allow_nan=False)` does not raise. -/
def Frame.writes (finite : F → Bool) : Frame F → Bool
  | .event _ payload => allFinite finite payload
  | .data payload => allFinite finite payload
  | .doneMark => true

def tokenName : Text := "token".toList
def finalName : Text := "final".toList
def errorName : Text := "error".toList

inductive Role
  | token
  | final
  | error
  | done
  deriving DecidableEq

/-- What a client reads a frame as: by the name of an event; a data line by its `error`, else by the
finish reason of its choice. -/
def Frame.role : Frame F → Role
  | .event name _ => if name = finalName then .final else if name = errorName then .error else .token
  | .data (.obj items) =>
    if (get items "error".toList).isNull = false then .error
    else match get items "choices".toList with
      | .arr [.obj choice] =>
        if (get choice "finish_reason".toList).isNull then .token else .final
      | _ => .token
  | .data _ => .token
  | .doneMark => .done

/-- What a request carries to its frames. -/
structure Route (F : Type) where
  requestId : Text
  chatId : Text
  llmModel : Text
  kind : Text
  created : Int
  /-- whether `_record_feedback` submits a record: there is a client and the record is valid -/
  submits : Output F → Bool

/-- `format_openai_chunk` -/
def openaiChunk (r : Route F) (delta finish : Option Text) (extra : Items F) : Frame F :=
  .data (.obj [("id".toList, .str r.chatId), ("object".toList, .str "chat.completion.chunk".toList),
    ("created".toList, .int r.created), ("model".toList, .str r.llmModel),
    ("choices".toList, .arr [.obj ([("index".toList, .int 0),
      ("delta".toList, .obj (match delta with
        | some t => [("content".toList, .str t)]
        | none => [])),
      ("finish_reason".toList, optional .str finish)] ++ extra)])])

/-! ## What a stream does -/

inductive Outcome
  | ok
  | promptBudgetExceeded
  | deadlineExceeded
  | modelTimeout
  | upstreamError
  | clientDisconnect
  deriving DecidableEq

/-- The exceptions `_record_stream_failure` tells apart. -/
inductive Fault
  | promptBudget
  | deadline
  | modelTimeout
  | other
  deriving DecidableEq

inductive Effect
  | record (o : Outcome)
  | submit
  deriving DecidableEq

inductive Action (F : Type)
  | emit (f : Frame F)
  | effect (e : Effect)

/-- What a generator does when it is read to its end, and the exception it ends with. -/
structure Gen (F : Type) where
  actions : List (Action F)
  raised : Option Fault

inductive Builder
  | answer
  | chat
  | console
  deriving DecidableEq

variable (finite : F → Bool) (r : Route F)

def Gen.stop : Gen F := ⟨[], none⟩

def Gen.after (effects : List Effect) (g : Gen F) : Gen F :=
  ⟨effects.map .effect ++ g.actions, g.raised⟩

/-- `yield` of a frame, which is written first. -/
def Gen.emit (f : Frame F) (g : Gen F) : Gen F :=
  if f.writes finite then ⟨.emit f :: g.actions, g.raised⟩ else ⟨[], some .other⟩

/-- `_record_feedback` -/
def recordFeedback (o : Output F) : List Effect := if r.submits o then [.submit] else []

/-- `_answer_final_frames` -/
def answerFinalFrames (o : Output F) : Gen F :=
  if o.hits = [] then
    .after (.record .ok :: recordFeedback r o) <|
      .emit finite (.event finalName (emptyFinalPayload r.requestId r.kind o)) .stop
  else
    .after (recordFeedback r o ++ [.record .ok]) <|
      .emit finite (.event finalName (finalPayload r.requestId r.kind o)) .stop

/-- The citations as a chat shows them. -/
def citesDelta (citations : List Text) : Text :=
  "\n\n**Citations:**\n".toList ++
    List.intercalate ['\n'] (citations.map fun c => "- ".toList ++ c)

/-- `_chat_final_frames` -/
def chatFinalFrames (o : Output F) : Gen F :=
  if o.hits = [] then
    .emit finite (openaiChunk r (some o.answer) none []) <|
      .after (.record .ok :: recordFeedback r o) <|
        .emit finite (openaiChunk r none (some stopText) (answerMetadata o [])) <|
          .emit finite .doneMark .stop
  else
    let finish := Gen.after (.record .ok :: recordFeedback r o) <|
      .emit finite (openaiChunk r none (some o.finishReason)
        (answerMetadata o (o.scored.map ScoredHit.json))) <|
        .emit finite .doneMark .stop
    if o.citations = [] then finish
    else .emit finite (openaiChunk r (some (citesDelta o.citations)) none []) finish

/-- The final frames of the console: `_record_console_turn`, then the frame. -/
def consoleFinalFrames (o : Output F) : Gen F :=
  .after (.record .ok :: recordFeedback r o) <|
    .emit finite (.event finalName (finalPayload r.requestId r.kind o)) .stop

def finalFrames : Builder → Output F → Gen F
  | .answer => answerFinalFrames finite r
  | .chat => chatFinalFrames finite r
  | .console => consoleFinalFrames finite r

def tokenFrame (b : Builder) (delta : Text) : Frame F :=
  match b with
  | .chat => openaiChunk r (some delta) none []
  | _ => .event tokenName (.obj [("type".toList, .str tokenName), ("delta".toList, .str delta),
      ("token".toList, .str delta)])

/-- `stream_error_fields` -/
def streamErrorFields : Fault → Text × Text
  | .modelTimeout => ("model_timeout".toList, "model response timed out".toList)
  | _ => ("upstream_error".toList, "stream failed".toList)

/-- `error_payload` and `format_openai_error` -/
def errorFrames (b : Builder) (fault : Fault) : List (Frame F) :=
  let fields := streamErrorFields fault
  let incomplete : Text × Json F :=
    ("verification_state".toList, .str (stateText .generationIncomplete))
  match b with
  | .chat =>
    [.data (.obj [("error".toList, .obj [("code".toList, .str fields.1),
      ("message".toList, .str fields.2)]), incomplete]), .doneMark]
  | _ =>
    [.event errorName (.obj [("type".toList, .str errorName), ("code".toList, .str fields.1),
      ("message".toList, .str fields.2), incomplete])]

/-- The outcome `_record_stream_failure` records. -/
def Fault.outcome : Fault → Outcome
  | .promptBudget => .promptBudgetExceeded
  | .deadline => .deadlineExceeded
  | .modelTimeout => .modelTimeout
  | .other => .upstreamError

/-- How the events of the core end; an expired deadline is an exception of `_deadline_iter`. -/
inductive Ending (F : Type)
  | final (o : Output F)
  | raised (fault : Fault)

/-- The events of the core, as `AnswerCore.stream_ends` has them: token deltas, then the end. -/
structure CoreRun (F : Type) where
  deltas : List Text
  ending : Ending F

/-- The handler of `_stream_answer_core`. -/
def failure (b : Builder) (fault : Fault) : List (Action F) :=
  .effect (.record fault.outcome) :: (errorFrames b fault).map .emit

/-- `_stream_answer_core` -/
def streamAnswerCore (b : Builder) (core : CoreRun F) : List (Action F) :=
  (core.deltas.filter (· ≠ [])).map (fun delta => .emit (tokenFrame r b delta)) ++
    match core.ending with
    | .raised fault => failure b fault
    | .final o =>
      let g := finalFrames finite r b o
      g.actions ++ match g.raised with
        | none => []
        | some fault => failure b fault

/-! ## What a request makes of it -/

structure State (F : Type) where
  frames : List (Frame F) := []
  outcomes : List Outcome := []
  submitted : Nat := 0

/-- `_record_endpoint` records the first outcome of a request only. -/
def State.record (s : State F) (o : Outcome) : State F :=
  if s.outcomes = [] then { s with outcomes := [o] } else s

def State.apply (s : State F) : Effect → State F
  | .record o => s.record o
  | .submit => { s with submitted := s.submitted + 1 }

/-- The generator is read until the client has taken as many frames as it takes, or to its end. -/
def play : Option Nat → State F → List (Action F) → State F
  | some 0, s, _ => s
  | _, s, [] => s
  | n, s, .emit f :: rest => play (n.map (· - 1)) { s with frames := s.frames ++ [f] } rest
  | n, s, .effect e :: rest => play n (s.apply e) rest

/-- A request: its stream, taken up to a number of frames where the client goes away after these, and
the close of its owner (`_RequestSpan.abort`). -/
def request (b : Builder) (core : CoreRun F) (client : Option Nat) : State F :=
  (play client {} (streamAnswerCore finite r b core)).record .clientDisconnect

/-! ## Which frames can be written -/

/-- Neither score of the hit is `NaN` or infinite. -/
def ScoredHit.Finite (h : ScoredHit F) : Prop :=
  finite h.score = true ∧ ∀ x ∈ h.rerankScore, finite x = true

theorem texts_finite (ts : List Text) : allFinite finite (texts ts : Json F) = true :=
  (allFinite_arr_map finite .str ts).mpr fun _ _ => by rw [allFinite]

theorem optional_finite {α : Type} {f : α → Json F} {a : Option α} :
    allFinite finite (optional f a) = true ↔ ∀ x ∈ a, allFinite finite (f x) = true := by
  cases a <;> simp [optional, allFinite]

theorem optional_plain {α : Type} {f : α → Json F} (a : Option α)
    (h : ∀ x, allFinite finite (f x) = true) : allFinite finite (optional f a) = true :=
  (optional_finite finite).mpr fun x _ => h x

theorem str_finite (t : Text) : allFinite finite (.str t : Json F) = true := by rw [allFinite]

theorem int_finite (n : Int) : allFinite finite (.int n : Json F) = true := by rw [allFinite]

theorem nat_finite (n : Nat) : allFinite finite (nat n : Json F) = true := int_finite finite n

theorem unitJson_finite (u : Int × Int × Text) : allFinite finite (unitJson u : Json F) = true := by
  simp [unitJson, allFinite, allFiniteElems]

theorem ScoredHit.json_finite (h : ScoredHit F) :
    allFinite finite h.json = true ↔ h.Finite finite := by
  have hunits : ∀ us : List (Int × Int × Text), allFinite finite (.arr (us.map unitJson)) = true :=
    fun us => (allFinite_arr_map finite unitJson us).mpr fun u _ => unitJson_finite finite u
  have hrerank : allFinite finite (optional .float h.rerankScore) = true ↔
      ∀ x ∈ h.rerankScore, finite x = true := by
    rw [optional_finite]
    simp only [allFinite]
  simp only [ScoredHit.json, allFinite, allFiniteMembers, Bool.and_eq_true, texts_finite,
    optional_plain finite _ (str_finite finite), optional_plain finite _ hunits,
    optional_plain finite _ (nat_finite finite), hrerank, true_and, and_true, ScoredHit.Finite]

theorem suppliedJson_finite (e : SuppliedExcerpt) :
    allFinite finite (suppliedJson e : Json F) = true := by
  simp only [suppliedJson, allFinite, allFiniteMembers, Bool.and_eq_true, nat_finite,
    optional_plain finite _ (str_finite finite), optional_plain finite _ (nat_finite finite),
    and_self]

theorem hits_finite (o : Output F) :
    allFinite finite (.arr (o.scored.map ScoredHit.json)) = true ↔
      ∀ h ∈ o.scored, h.Finite finite := by
  rw [allFinite_arr_map]
  simp only [ScoredHit.json_finite]

theorem finalPayload_finite (requestId kind : Text) (o : Output F) :
    allFinite finite (finalPayload requestId kind o) = true ↔ ∀ h ∈ o.scored, h.Finite finite := by
  have hindices : allFinite finite (.arr (o.inferredIndices.map nat)) = true :=
    (allFinite_arr_map finite nat _).mpr fun n _ => nat_finite finite n
  have hsupplied : allFinite finite (.arr (o.supplied.map suppliedJson)) = true :=
    (allFinite_arr_map finite suppliedJson _).mpr fun e _ => suppliedJson_finite finite e
  have husage : allFinite finite (usageJson o.usage) = true := by
    simp [usageJson, allFinite, allFiniteMembers]
  rw [finalPayload, allFinite]
  simp only [allFiniteMembers, Bool.and_eq_true, str_finite, texts_finite, hindices, hsupplied,
    husage, optional_plain finite _ (str_finite finite), optional_plain finite _ (int_finite finite),
    nat_finite, hits_finite, true_and, and_true]
  simp only [allFinite, true_and]

theorem emptyFinalPayload_finite (requestId kind : Text) (o : Output F) :
    allFinite finite (emptyFinalPayload requestId kind o) = true := by
  rw [emptyFinalPayload, finalPayload_finite]
  exact fun _ hh => absurd hh List.not_mem_nil

theorem openaiChunk_writes (delta finish : Option Text) (extra : Items F) :
    (openaiChunk r delta finish extra).writes finite = allFiniteMembers finite extra := by
  have hdelta : allFinite finite (.obj (match delta with
      | some t => [("content".toList, .str t)]
      | none => [])) = true := by
    cases delta <;> simp [allFinite, allFiniteMembers]
  simp only [openaiChunk, Frame.writes, allFinite, allFiniteMembers, allFiniteElems,
    List.cons_append, List.nil_append, optional_plain finite _ (str_finite finite), Bool.true_and,
    Bool.and_true]
  rw [allFinite] at hdelta
  rw [hdelta, Bool.true_and]

theorem answerMetadata_finite (o : Output F) (hits : List (Json F)) :
    allFiniteMembers finite (answerMetadata o hits) = allFinite finite (.arr hits) := by
  have hindices : ∀ ns : List Nat, allFinite finite (.arr (ns.map nat)) = true :=
    fun ns => (allFinite_arr_map finite nat ns).mpr fun n _ => nat_finite finite n
  have hsupplied : ∀ es : List SuppliedExcerpt, allFinite finite (.arr (es.map suppliedJson)) = true :=
    fun es => (allFinite_arr_map finite suppliedJson es).mpr fun e _ => suppliedJson_finite finite e
  have htext : ∀ t : Option Text,
      allFinite finite (if o.hits ≠ [] then optional .str t else .null) = true := by
    intro t
    split
    · exact optional_plain finite t (str_finite finite)
    · rw [allFinite]
  have hbool : ∀ b : Bool, allFinite finite (.bool b : Json F) = true := fun b => by rw [allFinite]
  simp only [answerMetadata, allFiniteMembers, texts_finite, hindices, hsupplied, htext, hbool,
    str_finite, nat_finite, Bool.true_and, Bool.and_true]

/-! ## How a client reads the frames -/

theorem openaiChunk_token (delta : Option Text) (extra : Items F) :
    (openaiChunk r delta none extra).role = .token := rfl

theorem openaiChunk_final (delta : Option Text) (finish : Text) (extra : Items F) :
    (openaiChunk r delta (some finish) extra).role = .final := rfl

theorem event_final (payload : Json F) : (Frame.event finalName payload).role = .final := rfl

theorem tokenFrame_role (b : Builder) (delta : Text) : (tokenFrame r b delta).role = .token := by
  cases b <;> rfl

/-- An error, and the mark of the end where the route has one. -/
theorem errorFrames_roles (b : Builder) (fault : Fault) : ∃ t dones,
    (errorFrames b fault : List (Frame F)) = t :: dones ∧ t.role = .error ∧
      ∀ f ∈ dones, f.role = .done := by
  cases b
  · exact ⟨_, [], rfl, rfl, fun _ hf => absurd hf List.not_mem_nil⟩
  · exact ⟨_, [.doneMark], rfl, rfl, fun f hf => by rw [List.mem_singleton.mp hf]; rfl⟩
  · exact ⟨_, [], rfl, rfl, fun _ hf => absurd hf List.not_mem_nil⟩

/-! ## The final frames -/

/-- The frames of a builder that stand before the outcome is recorded. -/
def leadFrames (b : Builder) (o : Output F) : List (Frame F) :=
  match b with
  | .chat =>
    if o.hits = [] then [openaiChunk r (some o.answer) none []]
    else if o.citations = [] then []
    else [openaiChunk r (some (citesDelta o.citations)) none []]
  | _ => []

def finalEffects (b : Builder) (o : Output F) : List Effect :=
  if b = .answer ∧ o.hits ≠ [] then recordFeedback r o ++ [.record .ok]
  else .record .ok :: recordFeedback r o

/-- The final frame and what follows it. -/
def closingFrames (b : Builder) (o : Output F) : List (Frame F) :=
  match b with
  | .answer =>
    if o.hits = [] then [.event finalName (emptyFinalPayload r.requestId r.kind o)]
    else [.event finalName (finalPayload r.requestId r.kind o)]
  | .chat =>
    if o.hits = [] then [openaiChunk r none (some stopText) (answerMetadata o []), .doneMark]
    else [openaiChunk r none (some o.finishReason)
      (answerMetadata o (o.scored.map ScoredHit.json)), .doneMark]
  | .console => [.event finalName (finalPayload r.requestId r.kind o)]

theorem Gen.emit_writes {f : Frame F} (h : f.writes finite = true) (g : Gen F) :
    Gen.emit finite f g = ⟨.emit f :: g.actions, g.raised⟩ := if_pos h

theorem Gen.emit_fails {f : Frame F} (h : f.writes finite = false) (g : Gen F) :
    Gen.emit finite f g = ⟨[], some .other⟩ := if_neg (by simp [h])

theorem openaiChunk_plain (delta finish : Option Text) :
    (openaiChunk r delta finish []).writes finite = true := by
  rw [openaiChunk_writes, allFiniteMembers]

theorem leadFrames_role (b : Builder) (o : Output F) : ∀ f ∈ leadFrames r b o, f.role = .token := by
  intro f hf
  unfold leadFrames at hf
  split at hf
  · split at hf
    · rw [List.mem_singleton.mp hf, openaiChunk_token]
    · split at hf
      · cases hf
      · rw [List.mem_singleton.mp hf, openaiChunk_token]
  · cases hf

theorem closingFrames_roles (b : Builder) (o : Output F) : ∃ t dones,
    closingFrames r b o = t :: dones ∧ t.role = .final ∧ ∀ f ∈ dones, f.role = .done := by
  have hdone : ∀ f ∈ [(.doneMark : Frame F)], f.role = .done := by
    intro f hf
    rw [List.mem_singleton.mp hf]
    rfl
  cases b with
  | answer =>
    unfold closingFrames
    dsimp only
    split <;> exact ⟨_, [], rfl, event_final _, fun _ hf => absurd hf List.not_mem_nil⟩
  | chat =>
    unfold closingFrames
    dsimp only
    split <;> exact ⟨_, _, rfl, openaiChunk_final r none _ _, hdone⟩
  | console => exact ⟨_, [], rfl, rfl, fun _ hf => absurd hf List.not_mem_nil⟩

/-- Where the hits' floats are finite, the builder goes through. -/
theorem finalFrames_written (b : Builder) {o : Output F} (h : ∀ x ∈ o.scored, x.Finite finite) :
    finalFrames finite r b o =
      ⟨(leadFrames r b o).map .emit ++
        ((finalEffects r b o).map .effect ++ (closingFrames r b o).map .emit), none⟩ := by
  have hpayload : (Frame.event finalName (finalPayload r.requestId r.kind o)).writes finite = true :=
    (finalPayload_finite finite _ _ o).mpr h
  have hempty :
      (Frame.event finalName (emptyFinalPayload r.requestId r.kind o)).writes finite = true :=
    emptyFinalPayload_finite finite _ _ o
  have hchunk : ∀ finish : Text, (openaiChunk r none (some finish)
      (answerMetadata o (o.scored.map ScoredHit.json))).writes finite = true := by
    intro finish
    rw [openaiChunk_writes, answerMetadata_finite]
    exact (hits_finite finite o).mpr h
  have hnone : ∀ finish : Text,
      (openaiChunk r none (some finish) (answerMetadata o [])).writes finite = true := by
    intro finish
    rw [openaiChunk_writes, answerMetadata_finite, allFinite, allFiniteElems]
  have hmark : (.doneMark : Frame F).writes finite = true := rfl
  cases b with
  | answer =>
    by_cases hhits : o.hits = []
    · simp [finalFrames, answerFinalFrames, leadFrames, finalEffects, closingFrames, hhits,
        Gen.emit_writes finite hempty, Gen.after, Gen.stop]
    · simp [finalFrames, answerFinalFrames, leadFrames, finalEffects, closingFrames, hhits,
        Gen.emit_writes finite hpayload, Gen.after, Gen.stop]
  | chat =>
    by_cases hhits : o.hits = []
    · simp [finalFrames, chatFinalFrames, leadFrames, finalEffects, closingFrames, hhits,
        Gen.emit_writes finite (hnone stopText), Gen.emit_writes finite hmark,
        Gen.emit_writes finite (openaiChunk_plain finite r (some o.answer) none), Gen.after, Gen.stop]
    · by_cases hcites : o.citations = []
      · simp [finalFrames, chatFinalFrames, leadFrames, finalEffects, closingFrames, hhits, hcites,
          Gen.emit_writes finite (hchunk o.finishReason), Gen.emit_writes finite hmark, Gen.after,
          Gen.stop]
      · simp [finalFrames, chatFinalFrames, leadFrames, finalEffects, closingFrames, hhits, hcites,
          Gen.emit_writes finite (hchunk o.finishReason), Gen.emit_writes finite hmark,
          Gen.emit_writes finite (openaiChunk_plain finite r (some (citesDelta o.citations)) none),
          Gen.after, Gen.stop]
  | console =>
    simp [finalFrames, consoleFinalFrames, leadFrames, finalEffects, closingFrames,
      Gen.emit_writes finite hpayload, Gen.after, Gen.stop]

/-- Else the final frame is not written, after the outcome was recorded. -/
theorem finalFrames_unwritten (b : Builder) {o : Output F} (h : ¬ ∀ x ∈ o.scored, x.Finite finite) :
    finalFrames finite r b o =
      ⟨(leadFrames r b o).map .emit ++ (finalEffects r b o).map .effect, some .other⟩ := by
  have hhits : o.hits ≠ [] := by
    intro hnil
    rw [o.hits_eq, List.map_eq_nil_iff] at hnil
    rw [hnil] at h
    exact h fun _ hx => absurd hx List.not_mem_nil
  have hpayload : (Frame.event finalName (finalPayload r.requestId r.kind o)).writes finite = false :=
    Bool.eq_false_iff.mpr (mt (finalPayload_finite finite _ _ o).mp h)
  have hchunk : ∀ finish : Text, (openaiChunk r none (some finish)
      (answerMetadata o (o.scored.map ScoredHit.json))).writes finite = false := by
    intro finish
    rw [openaiChunk_writes, answerMetadata_finite]
    exact Bool.eq_false_iff.mpr (mt (hits_finite finite o).mp h)
  cases b with
  | answer =>
    simp [finalFrames, answerFinalFrames, leadFrames, finalEffects, hhits,
      Gen.emit_fails finite hpayload, Gen.after]
  | chat =>
    by_cases hcites : o.citations = []
    · simp [finalFrames, chatFinalFrames, leadFrames, finalEffects, hhits, hcites,
        Gen.emit_fails finite (hchunk o.finishReason), Gen.after]
    · simp [finalFrames, chatFinalFrames, leadFrames, finalEffects, hhits, hcites,
        Gen.emit_fails finite (hchunk o.finishReason), Gen.after,
        Gen.emit_writes finite (openaiChunk_plain finite r (some (citesDelta o.citations)) none)]
  | console =>
    simp [finalFrames, consoleFinalFrames, leadFrames, finalEffects,
      Gen.emit_fails finite hpayload, Gen.after]

/-! ## Runs -/

/-- The client goes away before it has taken more than `m` frames. -/
def Leaves (client : Option Nat) (m : Nat) : Prop := ∃ k, client = some k ∧ k ≤ m

theorem play_left {fs : List (Frame F)} {rest : List (Action F)} : ∀ {k : Nat} {s : State F},
    k ≤ fs.length →
    play (some k) s (fs.map .emit ++ rest) = { s with frames := s.frames ++ fs.take k } := by
  induction fs with
  | nil =>
    intro k s h
    obtain rfl := Nat.le_zero.mp h
    simp [play]
  | cons f fs ih =>
    intro k s h
    cases k with
    | zero => simp [play]
    | succ k =>
      rw [List.map_cons, List.cons_append, play, Option.map_some, Nat.add_sub_cancel,
        ih (Nat.le_of_succ_le_succ h)]
      · simp
      · intro hzero
        cases hzero

theorem play_passed {fs : List (Frame F)} {rest : List (Action F)} : ∀ {n : Option Nat} {s : State F},
    ¬ Leaves n fs.length → play n s (fs.map .emit ++ rest) =
      play (n.map (· - fs.length)) { s with frames := s.frames ++ fs } rest := by
  induction fs with
  | nil =>
    intro n s h
    cases n <;> simp
  | cons f fs ih =>
    intro n s h
    have hrest : ¬ Leaves (n.map (· - 1)) fs.length := by
      rintro ⟨k, hk, hle⟩
      obtain ⟨m, rfl, rfl⟩ := Option.map_eq_some_iff.mp hk
      exact h ⟨m, rfl, by simp only [List.length_cons]; omega⟩
    rw [List.map_cons, List.cons_append, play, ih hrest]
    · congr 1
      · cases n with
        | none => rfl
        | some m =>
          simp only [Option.map_some, List.length_cons, Option.some.injEq]
          omega
      · simp
    · intro hzero
      exact h ⟨0, hzero, Nat.zero_le _⟩

theorem play_effects {es : List Effect} {rest : List (Action F)} {n : Option Nat} (h : n ≠ some 0) :
    ∀ {s : State F}, play n s (es.map .effect ++ rest) = play n (es.foldl State.apply s) rest := by
  induction es with
  | nil => intro s; rfl
  | cons e es ih =>
    intro s
    rw [List.map_cons, List.cons_append, play, ih, List.foldl_cons]
    exact h

/-- How many of the frames a client takes. -/
def taken (n : Option Nat) (fs : List (Frame F)) : List (Frame F) :=
  match n with
  | none => fs
  | some k => fs.take k

theorem play_frames (n : Option Nat) (s : State F) (fs : List (Frame F)) :
    play n s (fs.map .emit) = { s with frames := s.frames ++ taken n fs } := by
  rw [← List.append_nil (fs.map Action.emit)]
  by_cases h : Leaves n fs.length
  · obtain ⟨k, rfl, hk⟩ := h
    rw [play_left hk, taken]
  · rw [play_passed h]
    have hall : taken n fs = fs := by
      cases n with
      | none => rfl
      | some k => exact List.take_of_length_le (Nat.le_of_not_le fun hk => h ⟨k, rfl, hk⟩)
    rw [hall]
    cases hn : n.map (· - fs.length) with
    | none => rfl
    | some k => cases k <;> rfl

@[simp] theorem record_nil (fs : List (Frame F)) (n : Nat) (o : Outcome) :
    (⟨fs, [], n⟩ : State F).record o = ⟨fs, [o], n⟩ := rfl

@[simp] theorem record_cons (fs : List (Frame F)) (n : Nat) (o o' : Outcome) (os : List Outcome) :
    (⟨fs, o' :: os, n⟩ : State F).record o = ⟨fs, o' :: os, n⟩ := rfl

theorem finalEffects_apply (b : Builder) (o : Output F) (fs : List (Frame F)) :
    (finalEffects r b o).foldl State.apply ⟨fs, [], 0⟩ =
      ⟨fs, [.ok], if r.submits o then 1 else 0⟩ := by
  unfold finalEffects recordFeedback
  split <;> split <;> rfl

/-- What a request comes to whose stream is frames, effects and closing frames. -/
theorem request_split {b : Builder} {core : CoreRun F} {lead closing : List (Frame F)}
    {es : List Effect} (h : streamAnswerCore finite r b core =
      lead.map .emit ++ (es.map .effect ++ closing.map .emit)) (client : Option Nat) :
    (∀ k, client = some k → k ≤ lead.length →
      request finite r b core client = ⟨lead.take k, [.clientDisconnect], 0⟩) ∧
    (¬ Leaves client lead.length → ∃ m, m = client.map (· - lead.length) ∧ m ≠ some 0 ∧
      ∀ os n, es.foldl State.apply ⟨lead, [], 0⟩ = ⟨lead, os, n⟩ → os ≠ [] →
        request finite r b core client = ⟨lead ++ taken m closing, os, n⟩) := by
  constructor
  · rintro k rfl hk
    rw [request, h, play_left hk]
    simp
  · intro hstay
    have hm : client.map (· - lead.length) ≠ some 0 := by
      intro hzero
      obtain ⟨k, rfl, hk⟩ := Option.map_eq_some_iff.mp hzero
      exact hstay ⟨k, rfl, by omega⟩
    refine ⟨_, rfl, hm, fun os n hes hne => ?_⟩
    rw [request, h, play_passed hstay, play_effects hm, play_frames]
    simp only [List.nil_append, hes]
    exact if_neg hne

/-! ## One accounted outcome -/

/-- A frame that ends an answer. -/
def Frame.terminal (f : Frame F) : Prop := f.role = .final ∨ f.role = .error

/-- What a request left behind is one accounted outcome. -/
structure Accounted (client : Option Nat) (s : State F) : Prop where
  /-- tokens, then at most one final or error, then nothing but the mark of the end -/
  shape : ∃ tokens closing, s.frames = tokens ++ closing ∧ (∀ f ∈ tokens, f.role = .token) ∧
    (closing = [] ∨ ∃ t dones, closing = t :: dones ∧ t.terminal ∧ ∀ f ∈ dones, f.role = .done)
  /-- one of them, unless the client went away -/
  ended : (∃ f ∈ s.frames, f.terminal) ∨ client = some s.frames.length
  /-- one outcome, and `ok` only with a final frame -/
  outcome : ∃ o, s.outcomes = [o] ∧ (o = .ok → ∃ f ∈ s.frames, f.role = .final)
  /-- feedback at most once, and only with a final frame -/
  submitted : s.submitted ≤ 1 ∧ (s.submitted ≠ 0 → ∃ f ∈ s.frames, f.role = .final)

theorem accounted_left {lead : List (Frame F)} {k : Nat} (hlead : ∀ f ∈ lead, f.role = .token)
    (hk : k ≤ lead.length) : Accounted (some k) ⟨lead.take k, [.clientDisconnect], 0⟩ where
  shape := ⟨lead.take k, [], (List.append_nil _).symm, fun f hf => hlead f (List.mem_of_mem_take hf),
    .inl rfl⟩
  ended := .inr (by simp [hk])
  outcome := ⟨_, rfl, nofun⟩
  submitted := ⟨Nat.zero_le _, fun h => absurd rfl h⟩

theorem taken_cons {m : Option Nat} (hm : m ≠ some 0) (t : Frame F) (dones : List (Frame F)) :
    ∃ rest, taken m (t :: dones) = t :: rest ∧ ∀ f ∈ rest, f ∈ dones := by
  match m with
  | none => exact ⟨dones, rfl, fun _ hf => hf⟩
  | some 0 => exact absurd rfl hm
  | some (k + 1) => exact ⟨dones.take k, rfl, fun _ hf => List.mem_of_mem_take hf⟩

/-- Past the token frames a request is accounted for exactly where it ended in a final, or was neither
recorded as answered nor submitted. -/
theorem accounted_closed {client m : Option Nat} {lead dones : List (Frame F)} {t : Frame F}
    {oc : Outcome} {n : Nat} (hlead : ∀ f ∈ lead, f.role = .token) (hm : m ≠ some 0)
    (ht : t.terminal) (hdones : ∀ f ∈ dones, f.role = .done) (hn : n ≤ 1) :
    Accounted client ⟨lead ++ taken m (t :: dones), [oc], n⟩ ↔
      t.role = .final ∨ (oc ≠ .ok ∧ n = 0) := by
  obtain ⟨rest, htaken, hrest⟩ := taken_cons hm t dones
  have hmem : t ∈ lead ++ t :: rest := List.mem_append_right _ List.mem_cons_self
  have hfinal : (∃ f ∈ lead ++ t :: rest, f.role = .final) ↔ t.role = .final := by
    constructor
    · rintro ⟨f, hf, hrole⟩
      rcases List.mem_append.mp hf with hf | hf
      · rw [hlead f hf] at hrole
        cases hrole
      · rcases List.mem_cons.mp hf with rfl | hf
        · exact hrole
        · rw [hdones f (hrest f hf)] at hrole
          cases hrole
    · exact fun h => ⟨t, hmem, h⟩
  rw [htaken]
  constructor
  · intro h
    obtain ⟨o, ho, hok⟩ := h.outcome
    obtain rfl := List.singleton_inj.mp ho
    by_cases hrole : t.role = .final
    · exact .inl hrole
    · refine .inr ⟨fun hoc => hrole (hfinal.mp (hok hoc)), ?_⟩
      by_contra hne
      exact hrole (hfinal.mp (h.submitted.2 hne))
  · intro h
    refine ⟨⟨lead, t :: rest, rfl, hlead, .inr ⟨t, rest, rfl, ht, fun f hf => hdones f (hrest f hf)⟩⟩,
      .inl ⟨t, hmem, ht⟩, ⟨oc, rfl, fun hoc => ?_⟩, hn, fun hne => ?_⟩
    · rcases h with h | ⟨h, -⟩
      · exact hfinal.mpr h
      · exact absurd hoc h
    · rcases h with h | ⟨-, h⟩
      · exact hfinal.mpr h
      · exact absurd h hne

/-- How many frames stand before the final one is written. -/
def beforeFinal (b : Builder) (core : CoreRun F) (o : Output F) : Nat :=
  (core.deltas.filter (· ≠ [])).length +
    if b = .chat ∧ (o.hits = [] ∨ o.citations ≠ []) then 1 else 0

theorem leadFrames_length (b : Builder) (o : Output F) : (leadFrames r b o).length =
    if b = .chat ∧ (o.hits = [] ∨ o.citations ≠ []) then 1 else 0 := by
  cases b with
  | chat =>
    by_cases hhits : o.hits = [] <;> by_cases hcites : o.citations = [] <;>
      simp [leadFrames, hhits, hcites]
  | answer => rfl
  | console => rfl

/-- A request is accounted for exactly where every float of the hits of its final is finite, or the
client went away before the final was written. -/
theorem stream_accounted (b : Builder) (core : CoreRun F) (client : Option Nat) :
    Accounted client (request finite r b core client) ↔ ∀ o, core.ending = .final o →
      (∀ h ∈ o.scored, h.Finite finite) ∨ Leaves client (beforeFinal b core o) := by
  let tokens := (core.deltas.filter (· ≠ [])).map (tokenFrame r b)
  have htokens : ∀ f ∈ tokens, f.role = .token := by
    intro f hf
    obtain ⟨delta, -, rfl⟩ := List.mem_map.mp hf
    exact tokenFrame_role r b delta
  have hmap : (core.deltas.filter (· ≠ [])).map (fun delta => Action.emit (tokenFrame r b delta)) =
      tokens.map .emit := List.map_map.symm
  cases hend : core.ending with
  | raised fault =>
    obtain ⟨t, dones, herror, hrole, hdones⟩ := errorFrames_roles (F := F) b fault
    have hsplit : streamAnswerCore finite r b core = tokens.map .emit ++
        ([.record fault.outcome].map .effect ++ (t :: dones).map .emit) := by
      rw [streamAnswerCore, hmap, hend, ← herror]
      rfl
    obtain ⟨hleft, hstay⟩ := request_split finite r hsplit client
    have hoc : fault.outcome ≠ .ok := by cases fault <;> exact nofun
    simp only [reduceCtorEq, false_implies, implies_true, iff_true]
    by_cases hl : Leaves client tokens.length
    · obtain ⟨k, rfl, hk⟩ := hl
      rw [hleft k rfl hk]
      exact accounted_left htokens hk
    · obtain ⟨m, -, hm, hrun⟩ := hstay hl
      rw [hrun [fault.outcome] 0 rfl (List.cons_ne_nil _ _)]
      exact (accounted_closed htokens hm (.inr hrole) hdones (Nat.zero_le _)).mpr (.inr ⟨hoc, rfl⟩)
  | final o =>
    have hlead : ∀ f ∈ tokens ++ leadFrames r b o, f.role = .token := by
      intro f hf
      rcases List.mem_append.mp hf with hf | hf
      · exact htokens f hf
      · exact leadFrames_role r b o f hf
    have hlength : (tokens ++ leadFrames r b o).length = beforeFinal b core o := by
      rw [List.length_append, leadFrames_length, List.length_map, beforeFinal]
    have hsubmits : (if r.submits o then 1 else 0) ≤ 1 := by split <;> omega
    have heffects := finalEffects_apply r b o (tokens ++ leadFrames r b o)
    by_cases hfin : ∀ h ∈ o.scored, h.Finite finite
    · obtain ⟨t, dones, hclosing, hrole, hdones⟩ := closingFrames_roles r b o
      have hsplit : streamAnswerCore finite r b core = (tokens ++ leadFrames r b o).map .emit ++
          ((finalEffects r b o).map .effect ++ (t :: dones).map .emit) := by
        rw [streamAnswerCore, hmap, hend, List.map_append, List.append_assoc, ← hclosing]
        simp only [finalFrames_written finite r b hfin, List.append_nil]
      obtain ⟨hleft, hstay⟩ := request_split finite r hsplit client
      refine iff_of_true ?_ fun o' ho => ?_
      · by_cases hl : Leaves client (tokens ++ leadFrames r b o).length
        · obtain ⟨k, rfl, hk⟩ := hl
          rw [hleft k rfl hk]
          exact accounted_left hlead hk
        · obtain ⟨m, -, hm, hrun⟩ := hstay hl
          rw [hrun _ _ heffects (List.cons_ne_nil _ _)]
          exact (accounted_closed hlead hm (.inl hrole) hdones hsubmits).mpr (.inl hrole)
      · cases ho
        exact .inl hfin
    · obtain ⟨t, dones, herror, hrole, hdones⟩ := errorFrames_roles (F := F) b .other
      have hsplit : streamAnswerCore finite r b core = (tokens ++ leadFrames r b o).map .emit ++
          ((finalEffects r b o ++ [Effect.record .upstreamError]).map .effect ++ (t :: dones).map .emit) := by
        rw [streamAnswerCore, hmap, hend, List.map_append, List.append_assoc, ← herror]
        simp only [finalFrames_unwritten finite r b hfin, List.append_assoc, List.map_append]
        rfl
      obtain ⟨hleft, hstay⟩ := request_split finite r hsplit client
      rw [hlength] at hleft hstay
      by_cases hl : Leaves client (beforeFinal b core o)
      · refine iff_of_true ?_ fun o' ho => ?_
        · obtain ⟨k, rfl, hk⟩ := hl
          rw [hleft k rfl hk]
          exact accounted_left hlead (hk.trans_eq hlength.symm)
        · cases ho
          exact .inr hl
      · refine iff_of_false ?_ fun h => ?_
        · obtain ⟨m, -, hm, hrun⟩ := hstay hl
          have hes : (finalEffects r b o ++ [Effect.record .upstreamError]).foldl State.apply
              ⟨tokens ++ leadFrames r b o, [], 0⟩ =
              ⟨tokens ++ leadFrames r b o, [.ok], if r.submits o then 1 else 0⟩ := by
            rw [List.foldl_append, heffects]
            rfl
          rw [hrun _ _ hes (List.cons_ne_nil _ _),
            accounted_closed hlead hm (.inr hrole) hdones hsubmits, hrole]
          simp
        · rcases h o rfl with h | h
          · exact hfin h
          · exact hl h

/-! ## A score that is not a number -/

/-- A route over floats of which `false` is `NaN`. -/
def someRoute : Route Bool where
  requestId := "r".toList
  chatId := "chatcmpl-r".toList
  llmModel := "m".toList
  kind := "nl".toList
  created := 0
  submits _ := true

def nanHit : ScoredHit Bool where
  toSearchHit := someHit
  score := false

def nanOutput : Output Bool where
  toAnswerCoreOutput := { emptyOutput someReaders "q".toList "nl".toList [] "simple".toList with
    hits := [someHit] }
  scored := [nanHit]
  hits_eq := rfl

/-- An answer whose hit has no finite score ends in an error, recorded as answered and submitted. -/
theorem nanScore_unaccounted (b : Builder) :
    request id someRoute b ⟨[], .final nanOutput⟩ none =
      ⟨errorFrames b .other, [.ok], 1⟩ := by
  cases b <;> rfl

theorem nanScore_answer : ¬ Accounted none
    (request id someRoute .answer ⟨[], .final nanOutput⟩ none) := by
  rw [nanScore_unaccounted]
  intro h
  obtain ⟨o, ho, hok⟩ := h.outcome
  obtain rfl := List.singleton_inj.mp ho
  obtain ⟨f, hf, hrole⟩ := hok rfl
  rw [List.mem_singleton.mp hf] at hrole
  cases hrole

end MainframeRag.Agent.AnswerStream
