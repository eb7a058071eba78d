import MainframeRag.Lib.PyJson

/-!
# Completion streams

`_feed_sse_line`, `chat_stream` and `_buffered_result_from_stream` of `agent/answer.py`, over the
lines of one upstream response and the outcome of the one request that may follow it.

What `json.loads` makes of a text is a parameter. Above the code stands what a line carries
(`frameOf`): a stream is complete when `[DONE]` is its first terminal frame and a finish came
before it. One line folds its frame into the state (`feedSseLine_frame`), so the loop stops in a
state the frames determine (`streamLines_eq`).

Two kinds of lines escape the labels. A payload on which `json.loads` raises anything but a
decode error leaves the loop with that exception, and a usage block of the wrong shape is kept
until the counts are read, after the stream was found complete.
-/

namespace MainframeRag.Agent

open PyText PyJson

/-! ## Keys -/

def errorKey : Text := "error".toList
def usageKey : Text := "usage".toList
def choicesKey : Text := "choices".toList
def deltaKey : Text := "delta".toList
def messageKey : Text := "message".toList
def contentKey : Text := "content".toList
def finishReasonKey : Text := "finish_reason".toList
def promptTokensKey : Text := "prompt_tokens".toList
def completionTokensKey : Text := "completion_tokens".toList
def reasoningTokensKey : Text := "reasoning_tokens".toList
def totalTokensKey : Text := "total_tokens".toList
def detailsKey : Text := "completion_tokens_details".toList

/-! ## Results -/

/-- The labels of `TruncatedStreamError` -/
inductive Reason
  | missingDone
  | upstreamError
  | malformedFrame
  | missingFinish
  deriving DecidableEq

/-- `other` is any exception besides `TruncatedStreamError`. -/
inductive Raised
  | truncated (contentChunks : Nat) (reason : Reason)
  | other
  deriving DecidableEq

structure TokenUsage where
  promptTokens : Int
  completionTokens : Int
  reasoningTokens : Int
  totalTokens : Int
  deriving DecidableEq

structure ChatResult where
  content : Text
  finishReason : Text
  usage : TokenUsage
  deriving DecidableEq

section

variable {F : Type} (N : Numbers F)

/-- `reasoning_tokens` of `_token_usage_from_dict` -/
def reasoningTokens (usageData : Items F) : Option (Json F) :=
  if (get usageData reasoningTokensKey).isTrue N then some (get usageData reasoningTokensKey)
  else
    match (get usageData detailsKey).orElse N (.obj []) with
    | .obj details => some ((get details reasoningTokensKey).orElse N (.int 0))
    | _ => none

/-- `int(usage_data.get(key) or 0)` -/
def tokenCount (usageData : Items F) (key : Text) : Option Int :=
  ((get usageData key).orElse N (.int 0)).toInt N

/-- `_token_usage_from_dict`; `none` is an exception -/
def tokenUsageFromDict : Json F → Option TokenUsage
  | .obj usageData => do
    let reasoning ← reasoningTokens N usageData
    let prompt ← tokenCount N usageData promptTokensKey
    let completion ← tokenCount N usageData completionTokensKey
    let reasoning ← reasoning.toInt N
    let total ← tokenCount N usageData totalTokensKey
    return ⟨prompt, completion, reasoning, total⟩
  | _ => none

def chatResult (content : Text) (finishReason : Text) (usage : Json F) : Except Raised ChatResult :=
  match tokenUsageFromDict N usage with
  | none => .error .other
  | some usage => .ok ⟨content, finishReason, usage⟩

/-- `_chat_result_from_response` -/
def chatResultFromResponse : Json F → Except Raised ChatResult
  | .obj data =>
    if !(get data errorKey).isNull then .error (.truncated 0 .upstreamError)
    else
      match get data choicesKey with
      | .arr (.obj choice :: _) =>
        match get choice messageKey with
        | .obj message =>
          match get choice finishReasonKey with
          | .null => .error (.truncated 0 .missingFinish)
          | .str finishReason =>
            if finishReason = [] then .error (.truncated 0 .malformedFrame)
            else
              match get message contentKey with
              | .null => chatResult N [] finishReason ((get data usageKey).orElse N (.obj []))
              | .str content =>
                chatResult N content finishReason ((get data usageKey).orElse N (.obj []))
              | _ => .error (.truncated 0 .malformedFrame)
          | _ => .error (.truncated 0 .malformedFrame)
        | _ => .error (.truncated 0 .malformedFrame)
      | _ => .error (.truncated 0 .malformedFrame)
  | _ => .error (.truncated 0 .malformedFrame)

/-! ## Feeding lines -/

structure SseStreamState (F : Type) where
  finishReason : Option Text := none
  usageData : Json F := .obj []
  contentParts : List Text := []
  sawDone : Bool := false
  error : Option Reason := none
  malformed : Option Reason := none

namespace SseStreamState

def incompleteReason (s : SseStreamState F) : Option Reason :=
  if s.error.isSome then s.error
  else if s.malformed.isSome then s.malformed
  else if !s.sawDone then some .missingDone
  else if s.finishReason.isNone then some .missingFinish
  else none

def terminalSeen (s : SseStreamState F) : Bool := s.sawDone || s.error.isSome || s.malformed.isSome

def setMalformed (s : SseStreamState F) : SseStreamState F :=
  { s with malformed := some .malformedFrame }

end SseStreamState

def stopReason : Text := "stop".toList

/-- `_ended_without_content` -/
def endedWithoutContent (s : SseStreamState F) : Bool :=
  s.contentParts.isEmpty && s.finishReason != none && s.finishReason != some stopReason

def feedContent (s : SseStreamState F) : Option Text → SseStreamState F × Option Text
  | none => (s, none)
  | some [] => (s, some [])
  | some content => ({ s with contentParts := s.contentParts ++ [content] }, some content)

def feedFinish (s : SseStreamState F) (choice : Items F) (content : Option Text) :
    SseStreamState F × Option Text :=
  match get choice finishReasonKey with
  | .null => feedContent s content
  | .str finish =>
    if finish = [] then (s.setMalformed, none)
    else feedContent { s with finishReason := some finish } content
  | _ => (s.setMalformed, none)

def feedDelta (s : SseStreamState F) (choice delta : Items F) : SseStreamState F × Option Text :=
  match get delta contentKey with
  | .null => feedFinish s choice none
  | .str content => feedFinish s choice (some content)
  | _ => (s.setMalformed, none)

def feedChoice (s : SseStreamState F) (choice : Items F) : SseStreamState F × Option Text :=
  match get choice deltaKey with
  | .null => feedDelta s choice []
  | .obj delta => feedDelta s choice delta
  | _ => (s.setMalformed, none)

def feedChoices (s : SseStreamState F) : Json F → SseStreamState F × Option Text
  | .null => (s, none)
  | .arr [] => (s, none)
  | .arr (.obj choice :: _) => feedChoice s choice
  | _ => (s.setMalformed, none)

/-- The lines after `isinstance(chunk, dict)` -/
def feedChunk (s : SseStreamState F) (chunk : Items F) : SseStreamState F × Option Text :=
  if !(get chunk errorKey).isNull then ({ s with error := some .upstreamError }, none)
  else
    feedChoices
      (if (get chunk usageKey).isTrue N then { s with usageData := get chunk usageKey } else s)
      (get chunk choicesKey)

def dataPrefix : Text := "data:".toList

def doneMark : Text := "[DONE]".toList

/-- `line.strip().startswith("data:")` -/
def isData (line : Text) : Bool := dataPrefix.isPrefixOf (strip line)

/-- `chunk_str` -/
def payload (line : Text) : Text := strip ((strip line).drop 5)

variable (loads : Text → Loaded F)

/-- `_feed_sse_line`; `none` when `json.loads` raises past its handler -/
def feedSseLine (s : SseStreamState F) (line : Text) :
    Option (SseStreamState F × Option Text) :=
  if !isData line then some (s, none)
  else if payload line = doneMark then some ({ s with sawDone := true }, none)
  else
    match loads (payload line) with
    | .decodeError => some (s.setMalformed, none)
    | .raised => none
    | .value (.obj chunk) => some (feedChunk N s chunk)
    | .value _ => some (s.setMalformed, none)

/-! ## The consumers -/

/-- The loop of the buffered callers -/
def readLines : List Text → SseStreamState F → Option (SseStreamState F)
  | [], s => some s
  | line :: rest, s =>
    match feedSseLine N loads s line with
    | none => none
    | some (s, _) => if s.terminalSeen then some s else readLines rest s

/-- `_buffered_result_from_stream` -/
def bufferedResultFromStream (s : SseStreamState F) : Except Raised ChatResult :=
  match s.incompleteReason with
  | some reason => .error (.truncated s.contentParts.length reason)
  | none =>
    match s.finishReason with
    | none => .error (.truncated s.contentParts.length .missingFinish)
    | some finishReason => chatResult N s.contentParts.flatten finishReason s.usageData

/-- `_achat_buffered_over_stream` on a response of lines -/
def bufferedChat (lines : List Text) : Except Raised ChatResult :=
  match readLines N loads lines {} with
  | none => .error .other
  | some s => bufferedResultFromStream N s

inductive Event
  | token (delta : Text)
  | done (finishReason : Option Text) (usage : TokenUsage)
  deriving DecidableEq

/-- The outcome of the non-streaming request; `failed` is any exception up to `resp.json()`. -/
inductive Fallback (F : Type)
  | failed
  | payload (data : Json F)

/-- What a consumer of `chat_stream` sees: the events, the exception after them, the number of
non-streaming requests sent. -/
structure StreamRun where
  events : List Event
  raised : Option Raised
  requests : Nat
  deriving DecidableEq

/-- The loop of `chat_stream`: the yielded deltas, and the state after it. -/
def streamLines : List Text → SseStreamState F → List Text × Option (SseStreamState F)
  | [], s => ([], some s)
  | line :: rest, s =>
    match feedSseLine N loads s line with
    | none => ([], none)
    | some (s, delta) =>
      if s.terminalSeen then ([], some s)
      else
        match delta with
        | some (c :: delta) =>
          ((c :: delta) :: (streamLines rest s).1, (streamLines rest s).2)
        | _ => streamLines rest s

/-- The end of `chat_stream`: the counts, then the `done` event. -/
def finishStream (events : List Event) (requests : Nat) (finishReason : Option Text)
    (usageData : Json F) : StreamRun :=
  match tokenUsageFromDict N usageData with
  | none => ⟨events, some .other, requests⟩
  | some usage => ⟨events ++ [.done finishReason usage], none, requests⟩

def TokenUsage.toDict (usage : TokenUsage) : Items F :=
  [(promptTokensKey, .int usage.promptTokens),
    (completionTokensKey, .int usage.completionTokens),
    (reasoningTokensKey, .int usage.reasoningTokens),
    (totalTokensKey, .int usage.totalTokens)]

/-- The recovery of a stream that yielded nothing. -/
def recoverStream : Fallback F → StreamRun
  | .failed => ⟨[], some .other, 1⟩
  | .payload data =>
    match chatResultFromResponse N data with
    | .error raised => ⟨[], some raised, 1⟩
    | .ok result =>
      if result.content = [] then ⟨[], some .other, 1⟩
      else
        finishStream N [.token result.content] 1 (some result.finishReason)
          (.obj result.usage.toDict)

/-- What `chat_stream` does in the state its loop ends in. -/
def concludeStream (tokens : List Text) (s : SseStreamState F) (fallback : Fallback F) :
    StreamRun :=
  match s.incompleteReason, tokens with
  | some reason, _ :: _ =>
    ⟨tokens.map .token, some (.truncated s.contentParts.length reason), 0⟩
  | reason, [] =>
    if reason = none ∧ endedWithoutContent s = true then
      finishStream N [] 0 s.finishReason s.usageData
    else recoverStream N fallback
  | none, _ :: _ =>
    if s.finishReason = none then
      ⟨tokens.map .token, some (.truncated s.contentParts.length .missingFinish), 0⟩
    else finishStream N (tokens.map .token) 0 s.finishReason s.usageData

/-- `chat_stream` -/
def chatStream (lines : List Text) (fallback : Fallback F) : StreamRun :=
  match streamLines N loads lines {} with
  | (tokens, none) => ⟨tokens.map .token, some .other, 0⟩
  | (tokens, some s) => concludeStream N tokens s fallback

/-! ## Frames -/

/-- What a line carries. A chunk without text has the empty delta. -/
inductive Frame (F : Type)
  | done
  | error
  | malformed
  | chunk (usage : Option (Json F)) (delta : Text) (finish : Option Text)

def Frame.isTerminal : Frame F → Bool
  | .chunk _ _ _ => false
  | _ => true

def Frame.isDone : Frame F → Bool
  | .done => true
  | _ => false

def readContent : Json F → Option Text
  | .null => some []
  | .str content => some content
  | _ => none

def readDelta : Json F → Option Text
  | .null => some []
  | .obj delta => readContent (get delta contentKey)
  | _ => none

def readFinish : Json F → Option (Option Text)
  | .null => some none
  | .str finish => if finish = [] then none else some (some finish)
  | _ => none

def readChoice (delta : Option Text) (choice : Items F) : Option (Text × Option Text) :=
  delta.bind (fun text => (readFinish (get choice finishReasonKey)).map (text, ·))

/-- The delta and the finish of a chunk's choices, unless they are misshapen. -/
def readChoices : Json F → Option (Text × Option Text)
  | .null => some ([], none)
  | .arr [] => some ([], none)
  | .arr (.obj choice :: _) => readChoice (readDelta (get choice deltaKey)) choice
  | _ => none

def readUsage (chunk : Items F) : Option (Json F) :=
  if (get chunk usageKey).isTrue N then some (get chunk usageKey) else none

def choiceFrame (usage : Option (Json F)) : Option (Text × Option Text) → Frame F
  | some (delta, finish) => .chunk usage delta finish
  | none => .malformed

def chunkFrame (chunk : Items F) : Frame F :=
  if !(get chunk errorKey).isNull then .error
  else choiceFrame (readUsage N chunk) (readChoices (get chunk choicesKey))

/-- The frame of a line; a payload that cannot be read is malformed, whatever reading it raises. -/
def frameOf (line : Text) : Frame F :=
  if !isData line then .chunk none [] none
  else if payload line = doneMark then .done
  else
    match loads (payload line) with
    | .value (.obj chunk) => chunkFrame N chunk
    | _ => .malformed

/-- Reading the payload raises past the handler. -/
def raises (line : Text) : Bool :=
  isData line && payload line != doneMark &&
    match loads (payload line) with
    | .raised => true
    | _ => false

/-! ## What the frames determine -/

/-- The content deltas of the frames before the first terminal one -/
def deltas : List (Frame F) → List Text
  | .chunk _ delta _ :: rest => if delta = [] then deltas rest else delta :: deltas rest
  | _ => []

/-- The finish reasons before the first terminal frame -/
def finishes : List (Frame F) → List Text
  | .chunk _ _ finish :: rest => finish.toList ++ finishes rest
  | _ => []

/-- The usage blocks before the first terminal frame -/
def usages : List (Frame F) → List (Json F)
  | .chunk usage _ _ :: rest => usage.toList ++ usages rest
  | _ => []

/-- The stream ended with `[DONE]`, before any error or malformed frame, and an explicit finish
was seen. -/
def CompleteFrames (frames : List (Frame F)) : Prop :=
  frames.find? Frame.isTerminal = some .done ∧ finishes frames ≠ []

instance (frames : List (Frame F)) : Decidable (CompleteFrames frames) :=
  decidable_of_iff ((frames.find? Frame.isTerminal).any Frame.isDone && finishes frames ≠ []) (by
    cases h : frames.find? Frame.isTerminal with
    | none => simp [CompleteFrames, h]
    | some f => cases f <;> simp [CompleteFrames, h, Frame.isDone])

/-! ## One line -/

namespace SseStreamState

def absorb (s : SseStreamState F) (usage : Option (Json F)) (delta : Text)
    (finish : Option Text) : SseStreamState F :=
  { s with
    usageData := usage.getD s.usageData
    contentParts := s.contentParts ++ (if delta = [] then [] else [delta])
    finishReason := finish.or s.finishReason }

/-- The state after the frames before the first terminal one -/
def absorbAll (s : SseStreamState F) : List (Frame F) → SseStreamState F
  | .chunk usage delta finish :: rest => (s.absorb usage delta finish).absorbAll rest
  | _ => s

end SseStreamState

/-- What feeding a line that can be read does, by its frame. A malformed chunk may have replaced
the usage data. -/
inductive Fed (s : SseStreamState F) : Frame F → SseStreamState F × Option Text → Prop
  | done : Fed s .done ({ s with sawDone := true }, none)
  | error : Fed s .error ({ s with error := some .upstreamError }, none)
  | malformed (usage : Option (Json F)) :
      Fed s .malformed ((s.absorb usage [] none).setMalformed, none)
  | chunk {usage : Option (Json F)} {finish delta : Option Text} :
      Fed s (.chunk usage (delta.getD []) finish) (s.absorb usage (delta.getD []) finish, delta)

theorem absorb_nil (s : SseStreamState F) : s.absorb none [] none = s := by
  simp [SseStreamState.absorb]

theorem feedContent_eq (s : SseStreamState F) (content : Option Text) :
    feedContent s content = (s.absorb none (content.getD []) none, content) := by
  rcases content with - | - | ⟨c, content⟩ <;> simp [feedContent, SseStreamState.absorb]

/-- A misshapen choice. -/
theorem Fed.setMalformed (s : SseStreamState F) : Fed s .malformed (s.setMalformed, none) := by
  have h := Fed.malformed (s := s) none
  rwa [absorb_nil] at h

theorem feedFinish_fed (s : SseStreamState F) (usage : Option (Json F)) (choice : Items F)
    (content : Option Text) :
    Fed s (choiceFrame usage (readChoice (some (content.getD [])) choice))
      (feedFinish (s.absorb usage [] none) choice content) := by
  unfold feedFinish readChoice
  cases get choice finishReasonKey with
  | null =>
    rw [feedContent_eq]
    have e : (s.absorb usage [] none).absorb none (content.getD []) none =
        s.absorb usage (content.getD []) none := by simp [SseStreamState.absorb]
    rw [e]
    exact .chunk
  | str finish =>
    by_cases h : finish = []
    · simp only [readFinish, h, if_true, Option.bind_some, Option.map_none, choiceFrame]
      exact .malformed usage
    · simp only [readFinish, h, if_false, Option.bind_some, Option.map_some, choiceFrame,
        feedContent_eq]
      have e : ({ s.absorb usage [] none with finishReason := some finish }
          : SseStreamState F).absorb none (content.getD []) none =
          s.absorb usage (content.getD []) (some finish) := by simp [SseStreamState.absorb]
      rw [e]
      exact .chunk
  | bool => exact .malformed usage
  | int => exact .malformed usage
  | float => exact .malformed usage
  | arr => exact .malformed usage
  | obj => exact .malformed usage

theorem feedDelta_fed (s : SseStreamState F) (usage : Option (Json F)) (choice delta : Items F) :
    Fed s (choiceFrame usage (readChoice (readContent (get delta contentKey)) choice))
      (feedDelta (s.absorb usage [] none) choice delta) := by
  unfold feedDelta
  cases get delta contentKey with
  | null => exact feedFinish_fed s usage choice none
  | str content => exact feedFinish_fed s usage choice (some content)
  | bool => exact .malformed usage
  | int => exact .malformed usage
  | float => exact .malformed usage
  | arr => exact .malformed usage
  | obj => exact .malformed usage

theorem feedChoice_fed (s : SseStreamState F) (usage : Option (Json F)) (choice : Items F) :
    Fed s (choiceFrame usage (readChoice (readDelta (get choice deltaKey)) choice))
      (feedChoice (s.absorb usage [] none) choice) := by
  unfold feedChoice
  cases get choice deltaKey with
  | null => exact feedDelta_fed s usage choice []
  | obj delta => exact feedDelta_fed s usage choice delta
  | bool => exact .malformed usage
  | int => exact .malformed usage
  | float => exact .malformed usage
  | arr => exact .malformed usage
  | str => exact .malformed usage

theorem feedChoices_fed (s : SseStreamState F) (usage : Option (Json F)) (choices : Json F) :
    Fed s (choiceFrame usage (readChoices choices))
      (feedChoices (s.absorb usage [] none) choices) := by
  have empty : Fed s (.chunk usage [] none) (s.absorb usage [] none, none) :=
    @Fed.chunk F s usage none none
  unfold feedChoices readChoices
  split
  · exact empty
  · exact empty
  · exact feedChoice_fed s usage _
  · exact .malformed usage

theorem feedChunk_fed (s : SseStreamState F) (chunk : Items F) :
    Fed s (chunkFrame N chunk) (feedChunk N s chunk) := by
  unfold feedChunk chunkFrame
  by_cases h : (!(get chunk errorKey).isNull) = true
  · rw [if_pos h, if_pos h]
    exact .error
  · rw [if_neg h, if_neg h]
    have e : (if (get chunk usageKey).isTrue N then { s with usageData := get chunk usageKey }
        else s) = s.absorb (readUsage N chunk) [] none := by
      unfold readUsage
      split <;> simp [SseStreamState.absorb]
    rw [e]
    exact feedChoices_fed s _ _

/-- **One line.** Either reading it raises, and then it counts as malformed, or it folds its frame
into the state. -/
theorem feedSseLine_frame (s : SseStreamState F) (line : Text) :
    (raises loads line = true ∧ frameOf N loads line = .malformed ∧
      feedSseLine N loads s line = none) ∨
    (raises loads line = false ∧
      ∃ r, feedSseLine N loads s line = some r ∧ Fed s (frameOf N loads line) r) := by
  unfold feedSseLine frameOf raises
  by_cases hd : isData line = true
  · by_cases hm : payload line = doneMark
    · right
      simp only [hd, hm, Bool.not_true, Bool.false_eq_true, if_false, if_true, bne_self_eq_false,
        Bool.and_false, Bool.false_and, Option.some.injEq, true_and]
      exact ⟨_, rfl, .done⟩
    · have hb : (payload line != doneMark) = true := by simpa using hm
      simp only [hd, hm, hb, Bool.not_true, Bool.false_eq_true, if_false, Bool.true_and]
      cases loads (payload line) with
      | raised => exact .inl ⟨rfl, rfl, rfl⟩
      | decodeError => exact .inr ⟨rfl, _, rfl, .setMalformed s⟩
      | value v =>
        right
        cases v with
        | obj chunk => exact ⟨rfl, _, rfl, feedChunk_fed N s chunk⟩
        | null => exact ⟨rfl, _, rfl, .setMalformed s⟩
        | bool => exact ⟨rfl, _, rfl, .setMalformed s⟩
        | int => exact ⟨rfl, _, rfl, .setMalformed s⟩
        | float => exact ⟨rfl, _, rfl, .setMalformed s⟩
        | str => exact ⟨rfl, _, rfl, .setMalformed s⟩
        | arr => exact ⟨rfl, _, rfl, .setMalformed s⟩
  · right
    have hb : isData line = false := by simpa using hd
    simp only [hb, Bool.not_false, Bool.false_and, if_true, true_and]
    have h := @Fed.chunk F s none none none
    simp only [Option.getD_none, absorb_nil] at h
    exact ⟨_, rfl, h⟩

/-! ## The loop -/

def terminalLine (line : Text) : Bool := (frameOf N loads line).isTerminal

def frames (lines : List Text) : List (Frame F) := lines.map (frameOf N loads)

/-- The first terminal line is a payload whose reading raises past the handler. -/
def RaisesFirst (lines : List Text) : Prop :=
  ∃ line, lines.find? (terminalLine N loads) = some line ∧ raises loads line = true

/-- The state the loop ends in, from the first terminal line and the state before it. `none` is
an exception. -/
inductive LoopEnds (s : SseStreamState F) : Option Text → Option (SseStreamState F) → Prop
  | closed : LoopEnds s none (some s)
  | done {line : Text} : frameOf N loads line = .done →
      LoopEnds s (some line) (some { s with sawDone := true })
  | error {line : Text} : frameOf N loads line = .error →
      LoopEnds s (some line) (some { s with error := some .upstreamError })
  | malformed {line : Text} (usage : Option (Json F)) : frameOf N loads line = .malformed →
      raises loads line = false → LoopEnds s (some line) (some (s.absorb usage [] none).setMalformed)
  | raised {line : Text} : frameOf N loads line = .malformed → raises loads line = true →
      LoopEnds s (some line) none

theorem terminalSeen_absorb (s : SseStreamState F) (usage : Option (Json F)) (delta : Text)
    (finish : Option Text) : (s.absorb usage delta finish).terminalSeen = s.terminalSeen := rfl

theorem deltas_terminal {f : Frame F} (h : f.isTerminal = true) (rest : List (Frame F)) :
    deltas (f :: rest) = [] := by
  cases f <;> first | rfl | cases h

theorem absorbAll_terminal {f : Frame F} (h : f.isTerminal = true) (s : SseStreamState F)
    (rest : List (Frame F)) : s.absorbAll (f :: rest) = s := by
  cases f <;> first | rfl | cases h

/-- A terminal frame stops the loop. -/
theorem Fed.loopEnds {s : SseStreamState F} {line : Text} {r : SseStreamState F × Option Text}
    (h : Fed s (frameOf N loads line) r) (hr : raises loads line = false)
    (ht : terminalLine N loads line = true) :
    r.1.terminalSeen = true ∧ LoopEnds N loads s (some line) (some r.1) := by
  unfold terminalLine at ht
  generalize hf : frameOf N loads line = f at h ht
  cases h with
  | done => exact ⟨by simp [SseStreamState.terminalSeen], .done hf⟩
  | error => exact ⟨by simp [SseStreamState.terminalSeen], .error hf⟩
  | malformed usage =>
    exact ⟨by simp [SseStreamState.terminalSeen, SseStreamState.setMalformed],
      .malformed usage hf hr⟩
  | chunk => cases ht

/-- **The loop.** It yields the deltas before the first terminal frame, and ends in the state
these frames and that one determine. -/
theorem streamLines_eq (lines : List Text) (s : SseStreamState F) (hs : s.terminalSeen = false) :
    (streamLines N loads lines s).1 = deltas (frames N loads lines) ∧
      LoopEnds N loads (s.absorbAll (frames N loads lines)) (lines.find? (terminalLine N loads))
        (streamLines N loads lines s).2 := by
  induction lines generalizing s with
  | nil => exact ⟨rfl, .closed⟩
  | cons line rest ih =>
    simp only [streamLines, frames, List.map_cons]
    rcases feedSseLine_frame N loads s line with ⟨hr, hf, e⟩ | ⟨hr, ⟨t, delta⟩, e, h⟩
    · have ht : terminalLine N loads line = true := by simp [terminalLine, hf, Frame.isTerminal]
      rw [e, deltas_terminal ht, absorbAll_terminal ht, List.find?_cons_of_pos ht]
      exact ⟨rfl, .raised hf hr⟩
    · rw [e]
      by_cases ht : terminalLine N loads line = true
      · obtain ⟨hseen, hstop⟩ := h.loopEnds N loads hr ht
        rw [deltas_terminal ht, absorbAll_terminal ht, List.find?_cons_of_pos ht]
        simp only [hseen, if_true]
        exact ⟨trivial, hstop⟩
      · rw [List.find?_cons_of_neg ht]
        unfold terminalLine at ht
        generalize frameOf N loads line = f at h ht
        cases h with
        | done => exact absurd rfl ht
        | error => exact absurd rfl ht
        | malformed => exact absurd rfl ht
        | @chunk usage finish _ =>
          have hseen := (terminalSeen_absorb s usage (delta.getD []) finish).trans hs
          obtain ⟨h1, h2⟩ := ih _ hseen
          simp only [hseen, Bool.false_eq_true, if_false, deltas, SseStreamState.absorbAll]
          rcases delta with - | - | ⟨c, delta⟩
          · exact ⟨h1, h2⟩
          · exact ⟨h1, h2⟩
          · refine ⟨?_, h2⟩
            simp only [Option.getD_some, List.cons_ne_nil, if_false]
            exact congrArg _ h1

/-- The buffered callers end in the same state. -/
theorem readLines_eq (lines : List Text) (s : SseStreamState F) :
    readLines N loads lines s = (streamLines N loads lines s).2 := by
  induction lines generalizing s with
  | nil => rfl
  | cons line rest ih =>
    simp only [readLines, streamLines]
    cases feedSseLine N loads s line with
    | none => rfl
    | some r =>
      obtain ⟨t, delta⟩ := r
      by_cases h : t.terminalSeen = true
      · simp only [h, if_true]
      · simp only [h, ih]
        rcases delta with - | - | ⟨c, delta⟩ <;> rfl

/-! ## The state after the loop -/

theorem getLast?_toList_append {α : Type} (o : Option α) (l : List α) :
    (o.toList ++ l).getLast? = l.getLast?.or o := by
  rw [List.getLast?_append]
  cases o <;> rfl

theorem absorbAll_fields (fs : List (Frame F)) (s : SseStreamState F) :
    (s.absorbAll fs).contentParts = s.contentParts ++ deltas fs ∧
      (s.absorbAll fs).finishReason = (finishes fs).getLast?.or s.finishReason ∧
      (s.absorbAll fs).usageData = (usages fs).getLast?.getD s.usageData ∧
      (s.absorbAll fs).sawDone = s.sawDone ∧ (s.absorbAll fs).error = s.error ∧
      (s.absorbAll fs).malformed = s.malformed := by
  induction fs generalizing s with
  | nil => simp [SseStreamState.absorbAll, deltas, finishes, usages]
  | cons f rest ih =>
    cases f with
    | done => simp [SseStreamState.absorbAll, deltas, finishes, usages]
    | error => simp [SseStreamState.absorbAll, deltas, finishes, usages]
    | malformed => simp [SseStreamState.absorbAll, deltas, finishes, usages]
    | chunk usage delta finish =>
      obtain ⟨h1, h2, h3, h4⟩ := ih (s.absorb usage delta finish)
      simp only [SseStreamState.absorbAll, deltas, finishes, usages]
      refine ⟨?_, ?_, ?_, h4⟩
      · rw [h1]
        by_cases h : delta = [] <;> simp [SseStreamState.absorb, h]
      · rw [h2, getLast?_toList_append, Option.or_assoc]
        rfl
      · rw [h3, getLast?_toList_append]
        cases (usages rest).getLast? <;> rfl

theorem find?_frames (lines : List Text) :
    (frames N loads lines).find? Frame.isTerminal =
      (lines.find? (terminalLine N loads)).map (frameOf N loads) := by
  rw [frames, List.find?_map]
  rfl

def lastUsage (fs : List (Frame F)) : Json F := (usages fs).getLast?.getD (.obj [])

/-- What the loop leaves to a consumer: an exception, a failure label, or a complete stream with
its finish and its usage. -/
inductive Outcome (lines : List Text) : Option (SseStreamState F) → Prop
  | raised : RaisesFirst N loads lines → ¬CompleteFrames (frames N loads lines) →
      Outcome lines none
  | incomplete {s : SseStreamState F} {reason : Reason} : ¬RaisesFirst N loads lines →
      ¬CompleteFrames (frames N loads lines) → s.incompleteReason = some reason →
      s.contentParts = deltas (frames N loads lines) → Outcome lines (some s)
  | complete {s : SseStreamState F} {finish : Text} : ¬RaisesFirst N loads lines →
      CompleteFrames (frames N loads lines) → s.incompleteReason = none →
      s.contentParts = deltas (frames N loads lines) → s.finishReason = some finish →
      (finishes (frames N loads lines)).getLast? = some finish →
      s.usageData = lastUsage (frames N loads lines) → Outcome lines (some s)

theorem not_complete {lines : List Text}
    (h : (lines.find? (terminalLine N loads)).map (frameOf N loads) ≠ some .done) :
    ¬CompleteFrames (frames N loads lines) := by
  rintro ⟨e, -⟩
  rw [find?_frames] at e
  exact h e

theorem not_raisesFirst {lines : List Text} {line : Text}
    (hl : lines.find? (terminalLine N loads) = some line) (h : raises loads line = false) :
    ¬RaisesFirst N loads lines := by
  rintro ⟨line', e, h'⟩
  rw [hl] at e
  cases e
  rw [h] at h'
  cases h'

theorem frameOf_of_raises {line : Text} (h : raises loads line = true) :
    frameOf N loads line = .malformed := by
  rcases feedSseLine_frame N loads {} line with ⟨-, e, -⟩ | ⟨e, -⟩
  · exact e
  · rw [h] at e
    cases e

theorem raises_eq_false {line : Text} (h : frameOf N loads line ≠ .malformed) :
    raises loads line = false := by
  by_contra hr
  exact h (frameOf_of_raises N loads (by simpa using hr))

theorem LoopEnds.outcome {lines : List Text} {r : Option (SseStreamState F)}
    (h : LoopEnds N loads (SseStreamState.absorbAll {} (frames N loads lines))
      (lines.find? (terminalLine N loads)) r) : Outcome N loads lines r := by
  obtain ⟨hparts, hfinish, husage, hdone, herror, hmalformed⟩ :=
    absorbAll_fields (frames N loads lines) ({} : SseStreamState F)
  generalize SseStreamState.absorbAll {} (frames N loads lines) = s at *
  generalize hl : lines.find? (terminalLine N loads) = first at h
  simp only [Option.or_none, List.nil_append] at hparts hfinish
  have hfirst : ∀ f, first.map (frameOf N loads) = some f → f ≠ .done →
      ¬CompleteFrames (frames N loads lines) := by
    intro f hf hne
    apply not_complete
    rw [hl, hf]
    exact fun e => hne (Option.some.inj e)
  cases h with
  | closed =>
    refine @Outcome.incomplete F N loads lines _ .missingDone ?_ ?_ ?_ hparts
    · rintro ⟨line, e, -⟩
      rw [hl] at e
      cases e
    · apply not_complete
      rw [hl]
      exact nofun
    · simp [SseStreamState.incompleteReason, hdone, herror, hmalformed]
  | @done line hf =>
    have hr := not_raisesFirst N loads hl (raises_eq_false N loads (by simp [hf]))
    cases hfs : (finishes (frames N loads lines)).getLast? with
    | none =>
      refine @Outcome.incomplete F N loads lines _ .missingFinish hr ?_ ?_ hparts
      · rintro ⟨-, hne⟩
        exact hne (List.getLast?_eq_none_iff.mp hfs)
      · simp [SseStreamState.incompleteReason, herror, hmalformed, hfinish, hfs]
    | some finish =>
      refine .complete hr ⟨?_, ?_⟩ ?_ hparts (hfinish.trans hfs) hfs husage
      · rw [find?_frames, hl, Option.map_some, hf]
      · rintro e
        rw [e] at hfs
        cases hfs
      · simp [SseStreamState.incompleteReason, herror, hmalformed, hfinish, hfs]
  | @error line hf =>
    refine @Outcome.incomplete F N loads lines _ .upstreamError ?_ ?_ ?_ hparts
    · exact not_raisesFirst N loads hl (raises_eq_false N loads (by simp [hf]))
    · exact hfirst .error (congrArg some hf) nofun
    · simp [SseStreamState.incompleteReason]
  | @malformed line usage hf hr =>
    refine @Outcome.incomplete F N loads lines _ .malformedFrame ?_ ?_ ?_ ?_
    · exact not_raisesFirst N loads hl hr
    · exact hfirst .malformed (congrArg some hf) nofun
    · simp [SseStreamState.incompleteReason, SseStreamState.setMalformed, SseStreamState.absorb,
        herror]
    · simpa [SseStreamState.setMalformed, SseStreamState.absorb] using hparts
  | @raised line hf hr =>
    exact .raised ⟨line, hl, hr⟩ (hfirst .malformed (congrArg some hf) nofun)

/-- **The outcome of the loop**, for every consumer. -/
theorem readLines_outcome (lines : List Text) :
    Outcome N loads lines (readLines N loads lines {}) := by
  rw [readLines_eq]
  exact (streamLines_eq N loads lines {} rfl).2.outcome N loads

/-! ## Usage counts -/

/-- Falsy, or a number `int` reads. -/
def Countable (v : Json F) : Prop := v.isTrue N = true → (v.toInt N).isSome = true

/-- The usage block is a dict, its counts are numbers, and so is the count of the details where
that one is read. -/
structure ReadableUsage (items : Items F) : Prop where
  counts : ∀ key ∈ [promptTokensKey, completionTokensKey, reasoningTokensKey, totalTokensKey],
    Countable N (get items key)
  details : (get items reasoningTokensKey).isTrue N = false →
    (get items detailsKey).isTrue N = true →
      ∃ details, get items detailsKey = .obj details ∧
        Countable N (get details reasoningTokensKey)

theorem tokenCount_isSome (items : Items F) (key : Text) :
    (tokenCount N items key).isSome = true ↔ Countable N (get items key) := by
  unfold tokenCount Countable
  cases h : (get items key).isTrue N with
  | true => simp [Json.orElse_of_true N h]
  | false => simp [Json.orElse_of_false N h, Json.toInt]

theorem reasoningTokens_isSome (items : Items F) :
    ((reasoningTokens N items).bind (Json.toInt N)).isSome = true ↔
      Countable N (get items reasoningTokensKey) ∧
        ((get items reasoningTokensKey).isTrue N = false →
          (get items detailsKey).isTrue N = true →
            ∃ details, get items detailsKey = .obj details ∧
              Countable N (get details reasoningTokensKey)) := by
  unfold reasoningTokens
  cases hr : (get items reasoningTokensKey).isTrue N with
  | true => simp [hr, Countable]
  | false =>
    have hc : Countable N (get items reasoningTokensKey) := by simp [Countable, hr]
    simp only [Bool.false_eq_true, if_false, hc, true_and, true_imp_iff]
    cases hd : (get items detailsKey).isTrue N with
    | false => simp [Json.orElse_of_false N hd, Json.toInt]
    | true =>
      rw [Json.orElse_of_true N hd]
      simp only [true_imp_iff]
      cases get items detailsKey with
      | obj details =>
        have h := tokenCount_isSome N details reasoningTokensKey
        simpa [tokenCount] using h
      | null => simp
      | bool => simp
      | int => simp
      | float => simp
      | str => simp
      | arr => simp

theorem tokenUsageFromDict_isSome (usage : Json F) :
    (tokenUsageFromDict N usage).isSome = true ↔
      ∃ items, usage = .obj items ∧ ReadableUsage N items := by
  cases usage with
  | obj items =>
    have hp := tokenCount_isSome N items promptTokensKey
    have hc := tokenCount_isSome N items completionTokensKey
    have ht := tokenCount_isSome N items totalTokensKey
    have hr := reasoningTokens_isSome N items
    have e : (tokenUsageFromDict N (.obj items)).isSome = true ↔
        (tokenCount N items promptTokensKey).isSome = true ∧
        (tokenCount N items completionTokensKey).isSome = true ∧
        ((reasoningTokens N items).bind (Json.toInt N)).isSome = true ∧
        (tokenCount N items totalTokensKey).isSome = true := by
      simp only [tokenUsageFromDict, Option.bind_eq_bind, Option.isSome_bind]
      cases reasoningTokens N items with
      | none => simp
      | some reasoning =>
        cases tokenCount N items promptTokensKey <;>
          cases tokenCount N items completionTokensKey <;>
          cases tokenCount N items totalTokensKey <;> simp
    rw [e, hp, hc, ht, hr]
    constructor
    · rintro ⟨h1, h2, ⟨h3, hd⟩, h4⟩
      exact ⟨items, rfl, by simpa using ⟨h1, h2, h3, h4⟩, hd⟩
    · rintro ⟨_, e, h⟩
      cases e
      have h1 := h.counts
      simp only [List.mem_cons, forall_eq_or_imp] at h1
      exact ⟨h1.1, h1.2.1, ⟨h1.2.2.1, h.details⟩, h1.2.2.2.1⟩
  | null => simp [tokenUsageFromDict]
  | bool => simp [tokenUsageFromDict]
  | int => simp [tokenUsageFromDict]
  | float => simp [tokenUsageFromDict]
  | str => simp [tokenUsageFromDict]
  | arr => simp [tokenUsageFromDict]

theorem tokenCount_toDict (usage : TokenUsage) :
    tokenCount N usage.toDict promptTokensKey = some usage.promptTokens ∧
    tokenCount N usage.toDict completionTokensKey = some usage.completionTokens ∧
    tokenCount N usage.toDict reasoningTokensKey = some usage.reasoningTokens ∧
    tokenCount N usage.toDict totalTokensKey = some usage.totalTokens := by
  unfold tokenCount TokenUsage.toDict
  refine ⟨?_, ?_, ?_, ?_⟩ <;>
    simp (disch := decide) only [get_cons_ne, get_cons_self, Json.toInt_orElse_zero]

theorem reasoningTokens_toDict (usage : TokenUsage) :
    reasoningTokens N usage.toDict =
      some ((get (usage.toDict : Items F) reasoningTokensKey).orElse N (.int 0)) := by
  have hd : get (usage.toDict : Items F) detailsKey = .null := by
    unfold TokenUsage.toDict
    simp (disch := decide) only [get_cons_ne, get_nil]
  unfold reasoningTokens
  cases h : (get (usage.toDict : Items F) reasoningTokensKey).isTrue N with
  | true => simp [Json.orElse_of_true N h]
  | false => simp [Json.orElse_of_false N h, hd]

theorem tokenUsageFromDict_toDict (usage : TokenUsage) :
    tokenUsageFromDict N (.obj usage.toDict) = some usage := by
  obtain ⟨h1, h2, h3, h4⟩ := tokenCount_toDict N usage
  unfold tokenCount at h3
  simp [tokenUsageFromDict, reasoningTokens_toDict, h1, h2, h3, h4]

/-! ## The fallback -/

/-- The payload carries the content and an explicit finish. -/
def Carries (data : Json F) (content finish : Text) : Prop :=
  ∃ items choice rest message, data = .obj items ∧
    get items choicesKey = .arr (.obj choice :: rest) ∧ get choice messageKey = .obj message ∧
    get message contentKey = .str content ∧ get choice finishReasonKey = .str finish ∧ finish ≠ []

theorem chatResult_ok {content finish : Text} {usage : Json F} {result : ChatResult}
    (h : chatResult N content finish usage = .ok result) :
    result.content = content ∧ result.finishReason = finish := by
  unfold chatResult at h
  split at h
  · cases h
  · cases h
    exact ⟨rfl, rfl⟩

theorem chatResultFromResponse_carries {data : Json F} {result : ChatResult}
    (h : chatResultFromResponse N data = .ok result) (hne : result.content ≠ []) :
    Carries data result.content result.finishReason := by
  unfold chatResultFromResponse at h
  split at h
  · next items =>
    split at h
    · cases h
    · split at h
      · next choice rest hc =>
        split at h
        · next message hm =>
          split at h
          · cases h
          · next finish hf =>
            split at h
            · cases h
            · next hfinish =>
              split at h
              · obtain ⟨e, -⟩ := chatResult_ok N h
                exact absurd e hne
              · next content ht =>
                obtain ⟨e1, e2⟩ := chatResult_ok N h
                rw [e1, e2]
                exact ⟨items, choice, rest, message, rfl, hc, hm, ht, hf, hfinish⟩
              · cases h
          · cases h
        · cases h
      · cases h
  · cases h

/-- The recovery fails, or shows the payload's content and finish. -/
theorem recoverStream_cases (fallback : Fallback F) :
    (∃ raised, recoverStream N fallback = ⟨[], some raised, 1⟩) ∨
    ∃ data content finish usage, fallback = .payload data ∧ Carries data content finish ∧
      recoverStream N fallback = ⟨[.token content, .done (some finish) usage], none, 1⟩ := by
  cases fallback with
  | failed => exact .inl ⟨_, rfl⟩
  | payload data =>
    simp only [recoverStream]
    cases h : chatResultFromResponse N data with
    | error raised => exact .inl ⟨_, rfl⟩
    | ok result =>
      by_cases hc : result.content = []
      · simp only [hc, if_true]
        exact .inl ⟨_, rfl⟩
      · right
        refine ⟨data, result.content, result.finishReason, result.usage, rfl,
          chatResultFromResponse_carries N h hc, ?_⟩
        simp only [hc, if_false, finishStream, tokenUsageFromDict_toDict]
        rfl

/-! ## Whole runs -/

/-- What one run of `chat_stream` does. -/
inductive Ran (lines : List Text) (fallback : Fallback F) : StreamRun → Prop
  | raised : RaisesFirst N loads lines → ¬CompleteFrames (frames N loads lines) →
      Ran lines fallback ⟨(deltas (frames N loads lines)).map .token, some .other, 0⟩
  | truncated {reason : Reason} : ¬RaisesFirst N loads lines →
      ¬CompleteFrames (frames N loads lines) → deltas (frames N loads lines) ≠ [] →
      Ran lines fallback ⟨(deltas (frames N loads lines)).map .token,
        some (.truncated (deltas (frames N loads lines)).length reason), 0⟩
  | recovered : ¬RaisesFirst N loads lines → deltas (frames N loads lines) = [] →
      Ran lines fallback (recoverStream N fallback)
  | complete {finish : Text} : ¬RaisesFirst N loads lines →
      CompleteFrames (frames N loads lines) →
      (finishes (frames N loads lines)).getLast? = some finish →
      Ran lines fallback (finishStream N ((deltas (frames N loads lines)).map .token) 0
        (some finish) (lastUsage (frames N loads lines)))

/-- **Every run of `chat_stream`** is one of these, whatever the lines and the fallback. -/
theorem chatStream_ran (lines : List Text) (fallback : Fallback F) :
    Ran N loads lines fallback (chatStream N loads lines fallback) := by
  have ht := (streamLines_eq N loads lines {} rfl).1
  have ho := readLines_outcome N loads lines
  rw [readLines_eq] at ho
  unfold chatStream
  generalize streamLines N loads lines {} = r at ht ho
  obtain ⟨tokens, o⟩ := r
  simp only at ht ho
  subst ht
  cases ho with
  | raised hr hc => exact .raised hr hc
  | @incomplete s reason hr hc hreason hparts =>
    simp only [concludeStream, hreason, hparts]
    cases hd : deltas (frames N loads lines) with
    | nil => exact .recovered hr hd
    | cons d rest =>
      have h := @Ran.truncated F N loads lines fallback reason hr hc (by simp [hd])
      rwa [hd] at h
  | @complete s finish hr hc hreason hparts hf hfs hu =>
    have h := @Ran.complete F N loads lines fallback finish hr hc hfs
    simp only [concludeStream, hreason, hf, hu]
    cases hd : deltas (frames N loads lines) with
    | nil =>
      by_cases he : endedWithoutContent s = true
      · simp only [he, and_self, if_true]
        rwa [hd] at h
      · simp only [he]
        exact .recovered hr hd
    | cons d rest =>
      simp only [reduceCtorEq, if_false]
      rwa [hd] at h

def StreamRun.tokens (run : StreamRun) : List Text :=
  run.events.filterMap (fun
    | .token delta => some delta
    | .done _ _ => none)

/-- What a consumer may rely on, for one response and one outcome of the fallback: the tokens are
the deltas before the first terminal frame, or the fallback's content when there were none; `done`
says that the stream is complete, or that the fallback's payload carried the finish; a stream that
breaks off after a delta is reported and not asked for again; there is at most one fallback; and
the buffered reader accepts exactly the complete streams. -/
structure StreamHonest (lines : List Text) (fallback : Fallback F) : Prop where
  tokens : (chatStream N loads lines fallback).tokens = deltas (frames N loads lines) ∨
    deltas (frames N loads lines) = [] ∧ ∃ data content finish, fallback = .payload data ∧
      Carries data content finish ∧ (chatStream N loads lines fallback).tokens = [content]
  done : ∀ finish usage, .done finish usage ∈ (chatStream N loads lines fallback).events →
    (CompleteFrames (frames N loads lines) ∧
        ∃ text, (finishes (frames N loads lines)).getLast? = some text ∧ text ≠ [] ∧
          finish = some text) ∨
      ∃ data content text, fallback = .payload data ∧ Carries data content text ∧
        finish = some text
  truncated : deltas (frames N loads lines) ≠ [] → ¬CompleteFrames (frames N loads lines) →
    (∃ chunks reason, (chatStream N loads lines fallback).raised = some (.truncated chunks reason))
      ∧ (chatStream N loads lines fallback).requests = 0
  requests : (chatStream N loads lines fallback).requests ≤ 1
  buffered : (∃ result, bufferedChat N loads lines = .ok result) ↔
    CompleteFrames (frames N loads lines)

theorem readChoices_finish {choices : Json F} {delta finish : Text}
    (h : readChoices choices = some (delta, some finish)) : finish ≠ [] := by
  unfold readChoices at h
  split at h
  · cases h
  · cases h
  · next choice _ =>
    unfold readChoice at h
    obtain ⟨text, -, h⟩ := Option.bind_eq_some_iff.mp h
    obtain ⟨f, hf, e⟩ := Option.map_eq_some_iff.mp h
    cases e
    unfold readFinish at hf
    split at hf
    · cases hf
    · split at hf
      · cases hf
      · next hne =>
        cases hf
        exact hne
    · cases hf
  · cases h

theorem frameOf_finish {line : Text} {usage : Option (Json F)} {delta finish : Text}
    (h : frameOf N loads line = .chunk usage delta (some finish)) : finish ≠ [] := by
  unfold frameOf at h
  split at h
  · cases h
  · split at h
    · cases h
    · split at h
      · next chunk _ =>
        unfold chunkFrame at h
        split at h
        · cases h
        · unfold choiceFrame at h
          split at h
          · next hc =>
            cases h
            exact readChoices_finish hc
          · cases h
      · cases h

theorem finishes_ne_nil {lines : List Text} {finish : Text}
    (h : finish ∈ finishes (frames N loads lines)) : finish ≠ [] := by
  induction lines with
  | nil => cases h
  | cons line rest ih =>
    simp only [frames, List.map_cons] at h
    cases hf : frameOf N loads line with
    | chunk usage delta f =>
      simp only [hf, finishes, List.mem_append, Option.mem_toList] at h
      rcases h with h | h
      · exact frameOf_finish N loads (h ▸ hf)
      · exact ih h
    | done => simp [hf, finishes] at h
    | error => simp [hf, finishes] at h
    | malformed => simp [hf, finishes] at h

/-- The buffered reader accepts the complete streams with a readable usage block. -/
theorem bufferedChat_ok_iff (lines : List Text) :
    (∃ result, bufferedChat N loads lines = .ok result) ↔
      CompleteFrames (frames N loads lines) ∧
        (tokenUsageFromDict N (lastUsage (frames N loads lines))).isSome = true := by
  have ho := readLines_outcome N loads lines
  unfold bufferedChat
  generalize readLines N loads lines {} = o at ho
  cases ho with
  | raised hr hc => simp [hc]
  | @incomplete s reason hr hc hreason hparts => simp [hc, bufferedResultFromStream, hreason]
  | @complete s finish hr hc hreason hparts hf hfs hu =>
    simp only [bufferedResultFromStream, hreason, hf, hu, chatResult, hc, true_and]
    cases tokenUsageFromDict N (lastUsage (frames N loads lines)) <;> simp

theorem tokens_map (ts : List Text) :
    (ts.map Event.token).filterMap (fun
      | .token delta => some delta
      | .done _ _ => none) = ts := by
  rw [List.filterMap_map]
  exact List.filterMap_some

theorem not_done_mem_map (ts : List Text) (finish : Option Text) (usage : TokenUsage) :
    Event.done finish usage ∉ ts.map Event.token := by
  simp

theorem Ran.requests_le {lines : List Text} {fallback : Fallback F} {run : StreamRun}
    (h : Ran N loads lines fallback run) : run.requests ≤ 1 := by
  cases h with
  | raised => exact Nat.zero_le 1
  | truncated => exact Nat.zero_le 1
  | recovered =>
    rcases recoverStream_cases N fallback with ⟨raised, e⟩ | ⟨_, _, _, _, -, -, e⟩ <;> rw [e]
  | complete =>
    unfold finishStream
    split <;> exact Nat.zero_le 1

theorem Ran.tokens_eq {lines : List Text} {fallback : Fallback F} {run : StreamRun}
    (h : Ran N loads lines fallback run) :
    run.tokens = deltas (frames N loads lines) ∨
      deltas (frames N loads lines) = [] ∧ ∃ data content finish, fallback = .payload data ∧
        Carries data content finish ∧ run.tokens = [content] := by
  cases h with
  | raised => exact .inl (tokens_map _)
  | truncated => exact .inl (tokens_map _)
  | recovered hr hd =>
    rcases recoverStream_cases N fallback with ⟨raised, e⟩ | ⟨data, content, finish, usage, hf, hc, e⟩
    · rw [e, hd]
      exact .inl rfl
    · rw [e]
      exact .inr ⟨hd, data, content, finish, hf, hc, rfl⟩
  | complete =>
    left
    unfold finishStream StreamRun.tokens
    split
    · exact tokens_map _
    · simp only [List.filterMap_append, tokens_map]
      simp

theorem Ran.done_mem {lines : List Text} {fallback : Fallback F} {run : StreamRun}
    (h : Ran N loads lines fallback run) {finish : Option Text} {usage : TokenUsage}
    (hd : .done finish usage ∈ run.events) :
    (CompleteFrames (frames N loads lines) ∧
        ∃ text, (finishes (frames N loads lines)).getLast? = some text ∧ text ≠ [] ∧
          finish = some text) ∨
      ∃ data content text, fallback = .payload data ∧ Carries data content text ∧
        finish = some text := by
  cases h with
  | raised => exact absurd hd (not_done_mem_map _ _ _)
  | truncated => exact absurd hd (not_done_mem_map _ _ _)
  | recovered =>
    right
    rcases recoverStream_cases N fallback with ⟨raised, e⟩ | ⟨data, content, text, u, hf, hc, e⟩
    · simp [e] at hd
    · simp only [e, List.mem_cons, reduceCtorEq, false_or, Event.done.injEq, List.not_mem_nil,
        or_false] at hd
      exact ⟨data, content, text, hf, hc, hd.1⟩
  | @complete text hr hc hfs =>
    left
    have hne := finishes_ne_nil N loads (List.mem_of_getLast? hfs)
    unfold finishStream at hd
    split at hd
    · exact absurd hd (not_done_mem_map _ _ _)
    · rcases List.mem_append.mp hd with hd | hd
      · exact absurd hd (not_done_mem_map _ _ _)
      · simp only [List.mem_singleton, Event.done.injEq] at hd
        exact ⟨hc, text, hfs, hne, hd.1⟩

theorem RaisesFirst.not_complete {lines : List Text} (h : RaisesFirst N loads lines) :
    ¬CompleteFrames (frames N loads lines) := by
  obtain ⟨line, hl, hr⟩ := h
  rintro ⟨e, -⟩
  rw [find?_frames, hl, Option.map_some, frameOf_of_raises N loads hr] at e
  cases e

theorem Ran.raised_eq {lines : List Text} {fallback : Fallback F} {run : StreamRun}
    (h : Ran N loads lines fallback run) (hr : RaisesFirst N loads lines) :
    run.raised = some .other := by
  cases h with
  | raised => rfl
  | truncated hn => exact absurd hr hn
  | recovered hn => exact absurd hr hn
  | complete hn => exact absurd hr hn

theorem Ran.truncated_eq {lines : List Text} {fallback : Fallback F} {run : StreamRun}
    (h : Ran N loads lines fallback run) (hr : ¬RaisesFirst N loads lines)
    (hd : deltas (frames N loads lines) ≠ []) (hc : ¬CompleteFrames (frames N loads lines)) :
    (∃ chunks reason, run.raised = some (.truncated chunks reason)) ∧ run.requests = 0 := by
  cases h with
  | raised hn => exact absurd hn hr
  | @truncated reason => exact ⟨⟨_, reason, rfl⟩, rfl⟩
  | recovered _ hn => exact absurd hn hd
  | complete _ hn => exact absurd hn hc

theorem not_honest_of_raises {line last : Text} (fallback : Fallback F)
    (hd : deltas [frameOf N loads line] ≠ []) (hr : raises loads last = true) :
    ¬StreamHonest N loads [line, last] fallback := by
  have hf := frameOf_of_raises N loads hr
  have ht : terminalLine N loads last = true := by simp [terminalLine, hf, Frame.isTerminal]
  have hl : terminalLine N loads line = false := by
    by_contra h
    exact hd (deltas_terminal (by simpa [terminalLine] using h) [])
  have raised : RaisesFirst N loads [line, last] := by
    refine ⟨last, ?_, hr⟩
    rw [List.find?_cons_of_neg (by simp [hl]), List.find?_cons_of_pos ht]
  have shown : deltas (frames N loads [line, last]) ≠ [] := by
    simp only [frames, List.map_cons, List.map_nil, hf]
    cases he : frameOf N loads line with
    | chunk usage delta finish => simpa [he, deltas] using hd
    | done => simp [he, deltas] at hd
    | error => simp [he, deltas] at hd
    | malformed => simp [he, deltas] at hd
  intro h
  obtain ⟨⟨chunks, reason, e⟩, -⟩ := h.truncated shown (raised.not_complete N loads)
  rw [(chatStream_ran N loads [line, last] fallback).raised_eq N loads raised] at e
  cases e

/-- **When a consumer may rely on the stream.** For every response and every outcome of the
fallback: exactly when no payload after the first delta and before the first terminal frame raises
past the handler, and the last usage block of a complete stream is readable. -/
theorem streamHonest_iff (lines : List Text) (fallback : Fallback F) :
    StreamHonest N loads lines fallback ↔
      (RaisesFirst N loads lines → deltas (frames N loads lines) = []) ∧
      (CompleteFrames (frames N loads lines) →
        ∃ items, lastUsage (frames N loads lines) = .obj items ∧ ReadableUsage N items) := by
  have hran := chatStream_ran N loads lines fallback
  have hbuf := bufferedChat_ok_iff N loads lines
  rw [tokenUsageFromDict_isSome] at hbuf
  constructor
  · intro h
    refine ⟨fun hr => ?_, fun hc => (hbuf.mp (h.buffered.mpr hc)).2⟩
    by_contra hd
    obtain ⟨⟨chunks, reason, hraised⟩, -⟩ := h.truncated hd (hr.not_complete N loads)
    rw [hran.raised_eq N loads hr] at hraised
    cases hraised
  · rintro ⟨hr, hu⟩
    refine ⟨hran.tokens_eq N loads, fun _ _ => hran.done_mem N loads, fun hd hc => ?_,
      hran.requests_le N loads, ⟨fun h => (hbuf.mp h).1, fun hc => hbuf.mpr ⟨hc, hu hc⟩⟩⟩
    exact hran.truncated_eq N loads (fun h => hd (hr h)) hd hc

end

/-! ## Lines that escape the labels -/

def sampleNumbers : Numbers Empty := ⟨Empty.elim, Empty.elim, fun _ => none⟩

def deltaPayload : Text :=
  "\x7b\"choices\": [\x7b\"delta\": \x7b\"content\": \"A\"\x7d\x7d]\x7d".toList

def finishPayload : Text :=
  "\x7b\"choices\": [\x7b\"finish_reason\": \"stop\"\x7d], \"usage\": \"x\"\x7d".toList

/-- One digit over the limit of `int` -/
def longInteger : Text := '1' :: List.replicate 4299 '1' ++ ['1']

def dataLine (text : Text) : Text := dataPrefix ++ ' ' :: text

def sampleLoads (t : Text) : Loaded Empty :=
  if t = deltaPayload then
    .value (.obj [(choicesKey, .arr [.obj [(deltaKey, .obj [(contentKey, .str ['A'])])]])])
  else if t = finishPayload then
    .value (.obj [(choicesKey, .arr [.obj [(finishReasonKey, .str stopReason)]]),
      (usageKey, .str ['x'])])
  else if t = longInteger then .raised
  else .decodeError

/-- A complete stream whose usage block is a string. -/
def misshapenUsage : List Text := [deltaPayload, finishPayload, doneMark].map dataLine

/-- A stream that breaks with an unreadable payload, after a delta. -/
def unreadablePayload : List Text := [dataLine deltaPayload, dataLine longInteger]

theorem dataLine_payload {a b : Char} (ha : isSpace a = false) (hb : isSpace b = false)
    (t : Text) :
    isData (dataLine (a :: t ++ [b])) = true ∧
      payload (dataLine (a :: t ++ [b])) = a :: t ++ [b] := by
  have e : strip (dataLine (a :: t ++ [b])) = dataLine (a :: t ++ [b]) :=
    strip_of_ends (a := 'd') rfl hb ("ata: ".toList ++ a :: t)
  unfold isData payload
  rw [e]
  refine ⟨rfl, ?_⟩
  have drop : (dataLine (a :: t ++ [b])).drop 5 = [' '] ++ (a :: t ++ [b]) := rfl
  rw [drop, strip_blank_append (by decide)]
  exact strip_of_ends ha hb t

theorem longInteger_raises : raises sampleLoads (dataLine longInteger) = true := by
  have ne : ∀ t : Text, t.head? ≠ some '1' → longInteger ≠ t := by
    rintro t ht rfl
    exact ht rfl
  have loaded : sampleLoads longInteger = .raised := by
    unfold sampleLoads
    rw [if_neg (ne deltaPayload (by decide +kernel)), if_neg (ne finishPayload (by decide +kernel)),
      if_pos rfl]
  have hm : (longInteger != doneMark) = true := bne_iff_ne.mpr (ne doneMark (by decide +kernel))
  obtain ⟨h1, h2⟩ := dataLine_payload (a := '1') (b := '1') rfl rfl (List.replicate 4299 '1')
  rw [← longInteger] at h1 h2
  unfold raises
  rw [h1, h2, hm, loaded]
  rfl

/-- The first stream is complete and refused; the second breaks off and is not reported as
truncated. -/
theorem unlabelled_streams :
    ¬StreamHonest sampleNumbers sampleLoads misshapenUsage .failed ∧
      ¬StreamHonest sampleNumbers sampleLoads unreadablePayload .failed := by
  constructor
  · intro h
    have complete : CompleteFrames (frames sampleNumbers sampleLoads misshapenUsage) := by
      decide +kernel
    have refused : bufferedChat sampleNumbers sampleLoads misshapenUsage = .error .other := by
      decide +kernel
    obtain ⟨result, e⟩ := h.buffered.mpr complete
    rw [refused] at e
    cases e
  · have hd : deltas [frameOf sampleNumbers sampleLoads (dataLine deltaPayload)] = [['A']] := by
      decide +kernel
    exact not_honest_of_raises sampleNumbers sampleLoads .failed (by simp [hd]) longInteger_raises

end MainframeRag.Agent
