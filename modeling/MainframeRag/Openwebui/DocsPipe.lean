import MainframeRag.Lib.PyJson

/-!
# The deltas of the chat pipe

`_deltas` of `docs_pipe.py` reads a chat stream line by line and hands on its content one delta
late: the held delta may turn out to be the validated list of the terminal choice, which goes to
`agent_list`. `deltas_forwards_iff` says on which streams every delta is handed on once: the held
delta of a stream that goes on after its finish is dropped at `[DONE]`, a second finish may take a
second list, and `RecursionError` is no `ValueError`.
-/

namespace MainframeRag.Openwebui.DocsPipe

open PyText PyJson

variable {F : Type}

/-- What `json.loads` comes to. -/
inductive Parsed (F : Type)
  | value (v : Json F)
  | valueError
  /-- a nesting over the recursion limit: a `RecursionError` -/
  | tooDeep

/-! ## Fixed texts -/

def rejected : Text :=
  ("The documentation service rejected the request. Ask an administrator to check " ++
    "the Rosetta Pipe configuration.").toList

def errorMessages : List (Text × Text) :=
  [("invalid_request".toList,
      "The request was refused as invalid. Shorten or rephrase the question and retry.".toList),
    ("prompt_budget_exceeded".toList,
      ("The question and conversation are too long for the model. " ++
        "Start a new chat or shorten the question.").toList),
    ("upstream_error".toList,
      "The documentation service could not complete this request. Retry in a moment.".toList),
    ("model_timeout".toList,
      "The reasoning model did not respond in time. Retry in a moment.".toList),
    ("deadline_exceeded".toList,
      ("The request took longer than the service allows. " ++
        "Retry, or ask a narrower question.").toList),
    ("overloaded".toList, "The documentation service is at capacity. Retry in a moment.".toList),
    ("not_configured".toList,
      ("The documentation service has no reasoning model configured. " ++
        "Contact the operators.").toList),
    ("representation_unavailable".toList,
      "The documentation index is not available right now. Retry later.".toList),
    ("internal".toList,
      ("The documentation service hit an internal error. Retry; if it persists, " ++
        "contact the operators.").toList),
    ("not_found".toList, rejected),
    ("method_not_allowed".toList, rejected),
    ("http_error".toList, rejected)]

def unreachable : Text :=
  ("The documentation service could not be reached. Retry; if it persists, " ++
    "contact the operators.").toList

def truncated : Text :=
  ("The answer stream ended before it completed. " ++
    "Treat any text above as incomplete and retry.").toList

def errorText : Json F → Text
  | .str code => (errorMessages.lookup code).getD unreachable
  | _ => unreachable

/-! ## The loop -/

/-- A delta handed on, or put into `agent_list`. -/
inductive Event
  | shown (t : Text)
  | listed (t : Text)
  deriving DecidableEq

def Event.text : Event → Text
  | .shown t => t
  | .listed t => t

inductive Ended
  | returned
  /-- a `_Failure` -/
  | failed (text : Text) (incomplete : Bool)
  /-- any other exception -/
  | raised
  deriving DecidableEq

structure State (F : Type) where
  finished : Bool := false
  held : Option Text := none
  final : Items F

/-- What the consumer sees, in order, and the terminal choice left in `final`. -/
structure Run (F : Type) where
  events : List Event
  final : Items F
  ended : Ended

def asText : Json F → Option Text
  | .str t => some t
  | _ => none

def validatedList (final : Items F) : Option Text :=
  match get final "citations".toList with
  | .arr (c :: cs) =>
    ((c :: cs).mapM asText).map fun citations =>
      "\n\n**Citations:**\n".toList ++ joinLines (citations.map ("- ".toList ++ ·))
  | _ => none

def release (s : State F) : List Event := s.held.toList.map .shown

def deltaContent (choice : Items F) : Json F :=
  match get choice "delta".toList with
  | .obj delta => get delta "content".toList
  | _ => .null

def takeContent (s : State F) : Json F → State F × List Event
  | .str (c :: t) => ({ s with held := some (c :: t) }, release s)
  | _ => (s, [])

/-- Where a held delta goes at a finish. -/
def settle (choice : Items F) (t : Text) : Event :=
  if some t = validatedList choice then .listed t else .shown t

def takeFinish (s : State F) (choice : Items F) : State F × List Event :=
  if (get choice "finish_reason".toList).isNull then (s, [])
  else (⟨true, none, choice⟩, s.held.toList.map (settle choice))

def choiceItems : Json F → Items F
  | .obj choice => choice
  | _ => []

def takeChoice (s : State F) (choice : Items F) : State F × List Event :=
  let content := takeContent s (deltaContent choice)
  let finish := takeFinish content.1 choice
  (finish.1, content.2 ++ finish.2)

def Run.after (r : Run F) (events : List Event) : Run F := { r with events := events ++ r.events }

def fail (s : State F) (text : Text) : Run F := ⟨release s, s.final, .failed text true⟩

/-- The code of an error frame. -/
def errorCode : Json F → Json F
  | .obj error => get error "code".toList
  | _ => .null

variable (loads : Text → Parsed F)

/-- `_deltas` on the lines of a stream. -/
def deltas : List Text → State F → Run F
  | [], s => fail s truncated
  | line :: rest, s =>
    if !"data:".toList.isPrefixOf line then deltas rest s
    else if strip (line.drop 5) = "[DONE]".toList then
      if s.finished then ⟨[], s.final, .returned⟩ else fail s truncated
    else
      match loads (strip (line.drop 5)) with
      | .tooDeep => ⟨[], s.final, .raised⟩
      | .valueError => fail s truncated
      | .value (.obj frame) =>
        match frame.lookup "error".toList with
        | some error => fail s (errorText (errorCode error))
        | none =>
          match get frame "choices".toList with
          | .arr (first :: _) =>
            let taken := takeChoice s (choiceItems first)
            (deltas rest taken.1).after taken.2
          | _ => deltas rest s
      | .value _ => fail s truncated

/-! ## What a line says -/

/-- What a frame gives the pipe: its content, empty where there is none, and its choice where that
has a finish reason. -/
structure Chunk (F : Type) where
  delta : Text
  finish : Option (Items F)

/-- What ends the reading of a stream. -/
inductive Stop
  | done
  | failure (text : Text)
  | tooDeep
  deriving DecidableEq

abbrev Frame (F : Type) := Chunk F ⊕ Stop

def readContent : Json F → Text
  | .str t => t
  | _ => []

def choiceChunk (choice : Items F) : Chunk F where
  delta := readContent (deltaContent choice)
  finish := if (get choice "finish_reason".toList).isNull then none else some choice

def objectFrame (frame : Items F) : Frame F :=
  match frame.lookup "error".toList with
  | some error => .inr (.failure (errorText (errorCode error)))
  | none =>
    match get frame "choices".toList with
    | .arr (first :: _) => .inl (choiceChunk (choiceItems first))
    | _ => .inl ⟨[], none⟩

def frameOf (line : Text) : Frame F :=
  if !"data:".toList.isPrefixOf line then .inl ⟨[], none⟩
  else if strip (line.drop 5) = "[DONE]".toList then .inr .done
  else
    match loads (strip (line.drop 5)) with
    | .tooDeep => .inr .tooDeep
    | .valueError => .inr (.failure truncated)
    | .value (.obj frame) => objectFrame frame
    | .value _ => .inr (.failure truncated)

/-- The chunks read before the reading ends. -/
def body : List (Frame F) → List (Chunk F)
  | .inl c :: rest => c :: body rest
  | _ => []

/-- What ends the reading, none at the end of the lines. -/
def ending : List (Frame F) → Option Stop
  | [] => none
  | .inl _ :: rest => ending rest
  | .inr stop :: _ => some stop

def contents (cs : List (Chunk F)) : Text := cs.flatMap (·.delta)

def texts (events : List Event) : Text := events.flatMap Event.text

def isListed : Event → Bool
  | .listed _ => true
  | .shown _ => false

/-- No chunk finishes. -/
def Open (cs : List (Chunk F)) : Prop := ∀ c ∈ cs, c.finish = none

/-- What is held behind chunks, `h` before them. -/
def pending (h : Option Text) (cs : List (Chunk F)) : Option Text :=
  cs.foldl (fun h c => if c.finish.isSome then none else if c.delta = [] then h else some c.delta) h

/-- What is held when a chunk behind others settles it. -/
def waiting (cs : List (Chunk F)) (c : Chunk F) : Option Text :=
  if c.delta = [] then pending none cs else some c.delta

/-- Every delta is handed on once, the stream ends as documented, and `agent_list` holds at most
the list that is the last content of the terminal choice. -/
structure Forwards (frames : List (Frame F)) (r : Run F) : Prop where
  once : texts r.events = contents (body frames)
  one_list : r.events.countP isListed ≤ 1
  returned : r.ended = .returned →
    ending frames = some .done ∧ ∃ c ∈ body frames, c.finish ≠ none
  failed : r.ended ≠ .returned → ∃ text, r.ended = .failed text true
  last_list : ∀ before t after, r.events = before ++ .listed t :: after →
    ∃ cs c rest choice, body frames = cs ++ c :: rest ∧ c.finish = some choice ∧ Open rest ∧
      validatedList choice = some t ∧ texts before ++ t = contents cs ++ c.delta

/-- No frame is nested too deep, no content stands behind the finish of a stream that is done, and
a list taken at a finish is that of the last finish, with no content between. -/
structure Orderly (frames : List (Frame F)) : Prop where
  readable : ending frames ≠ some .tooDeep
  settled : ending frames = some .done → ∀ cs c rest, body frames = cs ++ c :: rest →
    c.finish ≠ none → Open rest → contents rest = []
  one_list : ∀ cs c rest choice, body frames = cs ++ c :: rest → c.finish = some choice →
    validatedList choice ≠ none → waiting cs c = validatedList choice →
    ∀ mid d tail last, rest = mid ++ d :: tail → d.finish = some last → Open tail →
      contents mid ++ d.delta = [] ∧ validatedList last = validatedList choice

/-! ## The loop, chunk by chunk -/

def feed (s : State F) (c : Chunk F) : State F × List Event :=
  let held := if c.delta = [] then s.held else some c.delta
  let out := if c.delta = [] then [] else release s
  match c.finish with
  | none => ({ s with held := held }, out)
  | some choice => (⟨true, none, choice⟩, out ++ held.toList.map (settle choice))

def feedAll (s : State F) : List (Chunk F) → State F × List Event
  | [] => (s, [])
  | c :: cs =>
    let next := feed s c
    ((feedAll next.1 cs).1, next.2 ++ (feedAll next.1 cs).2)

def conclude (s : State F) : Option Stop → Run F
  | none => fail s truncated
  | some .done => if s.finished then ⟨[], s.final, .returned⟩ else fail s truncated
  | some (.failure text) => fail s text
  | some .tooDeep => ⟨[], s.final, .raised⟩

theorem Run.after_nil (r : Run F) : r.after [] = r := rfl

theorem Run.after_after (r : Run F) (a b : List Event) :
    (r.after b).after a = r.after (a ++ b) := by
  simp [Run.after]

theorem feed_blank (s : State F) : feed s ⟨[], none⟩ = (s, []) := rfl

theorem takeChoice_eq (s : State F) (choice : Items F) :
    takeChoice s choice = feed s (choiceChunk choice) := by
  unfold takeChoice feed choiceChunk takeFinish
  cases deltaContent choice with
  | str t => cases t <;> split <;> simp [takeContent, readContent]
  | _ => split <;> simp [takeContent, readContent]

theorem body_inl (c : Chunk F) (rest : List (Frame F)) :
    body (.inl c :: rest) = c :: body rest := rfl

theorem ending_inl (c : Chunk F) (rest : List (Frame F)) :
    ending (.inl c :: rest) = ending rest := rfl

/-- The run is that of the chunks before the end of the reading, then the end. -/
def runFrames (frames : List (Frame F)) (s : State F) : Run F :=
  (conclude (feedAll s (body frames)).1 (ending frames)).after (feedAll s (body frames)).2

theorem runFrames_inl (c : Chunk F) (rest : List (Frame F)) (s : State F) :
    runFrames (.inl c :: rest) s = (runFrames rest (feed s c).1).after (feed s c).2 := by
  rw [runFrames, runFrames, Run.after_after, body_inl, ending_inl, feedAll]

theorem runFrames_inr (stop : Stop) (rest : List (Frame F)) (s : State F) :
    runFrames (.inr stop :: rest) s = conclude s (some stop) := rfl

theorem deltas_eq (lines : List Text) (s : State F) :
    deltas loads lines s = runFrames (lines.map (frameOf loads)) s := by
  induction lines generalizing s with
  | nil => rfl
  | cons line rest ih =>
    rw [List.map_cons, deltas, frameOf]
    split
    · rw [runFrames_inl, feed_blank, Run.after_nil, ih]
    · split
      · rw [runFrames_inr]
        rfl
      · cases hl : loads (strip (line.drop 5)) with
        | tooDeep => rw [runFrames_inr]; rfl
        | valueError => rw [runFrames_inr]; rfl
        | value v =>
          cases v with
          | obj frame =>
            dsimp only
            rw [objectFrame]
            cases he : frame.lookup "error".toList with
            | some error => rw [runFrames_inr]; rfl
            | none =>
              dsimp only
              cases hc : get frame "choices".toList with
              | arr items =>
                cases items with
                | nil => rw [runFrames_inl, feed_blank, Run.after_nil]; exact ih s
                | cons first more =>
                  rw [runFrames_inl, ← takeChoice_eq]
                  dsimp only
                  rw [ih]
              | _ => rw [runFrames_inl, feed_blank, Run.after_nil]; exact ih s
          | _ => rw [runFrames_inr]; rfl

/-! ## What a run keeps -/

theorem contents_append (as bs : List (Chunk F)) :
    contents (as ++ bs) = contents as ++ contents bs := List.flatMap_append

theorem contents_cons (c : Chunk F) (cs : List (Chunk F)) :
    contents (c :: cs) = c.delta ++ contents cs := rfl

theorem texts_append (as bs : List Event) : texts (as ++ bs) = texts as ++ texts bs :=
  List.flatMap_append

theorem settle_text (choice : Items F) (t : Text) : (settle choice t).text = t := by
  unfold settle
  split <;> rfl

theorem texts_release (s : State F) : texts (release s) = s.held.getD [] := by
  cases h : s.held <;> simp [release, texts, Event.text, h]

theorem texts_settled (choice : Items F) (o : Option Text) :
    texts (o.toList.map (settle choice)) = o.getD [] := by
  cases o <;> simp [texts, settle_text]

/-- Nothing is lost or doubled by a chunk: what was held and the new delta are handed on or held. -/
theorem feed_texts (s : State F) (c : Chunk F) :
    texts (feed s c).2 ++ (feed s c).1.held.getD [] = s.held.getD [] ++ c.delta := by
  unfold feed
  cases c.finish with
  | none =>
    by_cases hd : c.delta = []
    · simp [hd, texts]
    · simp [hd, texts_release]
  | some choice =>
    by_cases hd : c.delta = []
    · simp [hd, texts_settled]
    · have hone := texts_settled choice (some c.delta)
      simp only [Option.toList_some, List.map_cons, List.map_nil, Option.getD_some] at hone
      simp [hd, texts_append, texts_release, hone]

theorem feedAll_texts (s : State F) (cs : List (Chunk F)) :
    texts (feedAll s cs).2 ++ (feedAll s cs).1.held.getD [] = s.held.getD [] ++ contents cs := by
  induction cs generalizing s with
  | nil => simp [feedAll, texts, contents]
  | cons c cs ih =>
    calc texts (feedAll s (c :: cs)).2 ++ (feedAll s (c :: cs)).1.held.getD []
        = texts (feed s c).2 ++ (texts (feedAll (feed s c).1 cs).2 ++
            (feedAll (feed s c).1 cs).1.held.getD []) := by
          simp only [feedAll, texts_append, List.append_assoc]
      _ = texts (feed s c).2 ++ (feed s c).1.held.getD [] ++ contents cs := by
          rw [ih, List.append_assoc]
      _ = s.held.getD [] ++ contents (c :: cs) := by
          rw [feed_texts, contents_cons, List.append_assoc]

theorem feed_held (s : State F) (c : Chunk F) : (feed s c).1.held = pending s.held [c] := by
  unfold feed pending
  cases hf : c.finish <;> simp [hf]

theorem pending_cons (h : Option Text) (c : Chunk F) (cs : List (Chunk F)) :
    pending h (c :: cs) = pending (pending h [c]) cs := rfl

theorem feedAll_held (s : State F) (cs : List (Chunk F)) :
    (feedAll s cs).1.held = pending s.held cs := by
  induction cs generalizing s with
  | nil => rfl
  | cons c cs ih => rw [feedAll, ih, feed_held, ← pending_cons]

theorem feedAll_finished (s : State F) (cs : List (Chunk F)) :
    (feedAll s cs).1.finished = true ↔ s.finished = true ∨ ∃ c ∈ cs, c.finish ≠ none := by
  induction cs generalizing s with
  | nil => simp [feedAll]
  | cons c cs ih =>
    rw [feedAll, ih]
    unfold feed
    cases hf : c.finish <;> simp [hf]

theorem feedAll_append (s : State F) (as bs : List (Chunk F)) :
    feedAll s (as ++ bs) =
      ((feedAll (feedAll s as).1 bs).1, (feedAll s as).2 ++ (feedAll (feedAll s as).1 bs).2) := by
  induction as generalizing s with
  | nil => rfl
  | cons a as ih => simp [feedAll, ih]

/-- Nothing is held behind an open end only if nothing was held before and no content came. -/
theorem pending_open {cs : List (Chunk F)} (hopen : Open cs) (h : Option Text) :
    pending h cs = none ↔ h = none ∧ contents cs = [] := by
  induction cs generalizing h with
  | nil => simp [pending, contents]
  | cons c cs ih =>
    have hc : c.finish = none := hopen c List.mem_cons_self
    rw [pending_cons, ih fun d hd => hopen d (List.mem_cons_of_mem _ hd), contents_cons]
    by_cases hd : c.delta = [] <;> simp [pending, hc, hd]

theorem pending_ne_nil (cs : List (Chunk F)) {h : Option Text} (hh : h ≠ some []) :
    pending h cs ≠ some [] := by
  induction cs generalizing h with
  | nil => exact hh
  | cons c cs ih =>
    rw [pending_cons]
    refine ih ?_
    unfold pending
    by_cases hd : c.delta = [] <;> by_cases hf : c.finish.isSome <;> simp_all

/-- The last finish. -/
theorem exists_last {cs : List (Chunk F)} (h : ∃ c ∈ cs, c.finish ≠ none) :
    ∃ before c after choice, cs = before ++ c :: after ∧ c.finish = some choice ∧ Open after := by
  induction cs with
  | nil => simp at h
  | cons d cs ih =>
    by_cases hlater : ∃ c ∈ cs, c.finish ≠ none
    · obtain ⟨before, c, after, choice, rfl, hc, hopen⟩ := ih hlater
      exact ⟨d :: before, c, after, choice, rfl, hc, hopen⟩
    · push Not at hlater
      obtain ⟨c, hc, hf⟩ := h
      rcases List.mem_cons.mp hc with rfl | hc
      · obtain ⟨choice, hchoice⟩ := Option.ne_none_iff_exists'.mp hf
        exact ⟨[], c, cs, choice, rfl, hchoice, hlater⟩
      · exact absurd (hlater c hc) hf

theorem last_unique {as bs as' bs' : List (Chunk F)} {c c' : Chunk F}
    (h : as ++ c :: bs = as' ++ c' :: bs') (hc : c.finish ≠ none) (hc' : c'.finish ≠ none)
    (hb : Open bs) (hb' : Open bs') : as = as' ∧ c = c' := by
  rcases List.append_eq_append_iff.mp h with ⟨mid, rfl, hmid⟩ | ⟨mid, rfl, hmid⟩
  · cases mid with
    | nil => exact ⟨by simp, (List.cons.inj hmid).1⟩
    | cons d mid =>
      obtain ⟨rfl, hbs⟩ := List.cons.inj hmid
      exact absurd (hb c' (by rw [hbs]; simp)) hc'
  · cases mid with
    | nil => exact ⟨by simp, (List.cons.inj hmid).1.symm⟩
    | cons d mid =>
      obtain ⟨rfl, hbs⟩ := List.cons.inj hmid
      exact absurd (hb' c (by rw [hbs]; simp)) hc

/-! ## Where the list comes from -/

/-- What a chunk settles, where it finishes. -/
def heldAt (s : State F) (c : Chunk F) : Option Text := if c.delta = [] then s.held else some c.delta

theorem feed_finish {s : State F} {c : Chunk F} {choice : Items F} (hc : c.finish = some choice) :
    feed s c = (⟨true, none, choice⟩,
      (if c.delta = [] then [] else release s) ++ (heldAt s c).toList.map (settle choice)) := by
  simp only [feed, hc, heldAt]

theorem not_listed_release (s : State F) (t : Text) : Event.listed t ∉ release s := by
  cases h : s.held <;> simp [release, h]

/-- A list is the last thing a chunk hands on. -/
theorem feed_listed {s : State F} {c : Chunk F} {pre post : List Event} {t : Text}
    (h : (feed s c).2 = pre ++ .listed t :: post) :
    ∃ choice, c.finish = some choice ∧ validatedList choice = some t ∧ heldAt s c = some t ∧
      texts pre ++ t = s.held.getD [] ++ c.delta := by
  have hmem : Event.listed t ∈ (feed s c).2 := by simp [h]
  have hshown : Event.listed t ∉ (if c.delta = [] then [] else release s) := by
    split
    · simp
    · exact not_listed_release s t
  cases hf : c.finish with
  | none => exact absurd (by simpa [feed, hf] using hmem) hshown
  | some choice =>
    rw [feed_finish hf] at h hmem
    rcases List.mem_append.mp hmem with hmem | hmem
    · exact absurd hmem hshown
    · obtain ⟨u, hu, hset⟩ := List.mem_map.mp hmem
      have hheld : heldAt s c = some u := Option.mem_toList.mp hu
      unfold settle at hset
      split at hset
      · next hval =>
        cases hset
        refine ⟨choice, rfl, hval.symm, hheld, ?_⟩
        have hlast : pre = (if c.delta = [] then [] else release s) ∧ post = [] := by
          simp only [hheld, Option.toList_some, List.map_cons, List.map_nil, settle, if_pos hval] at h
          rcases List.append_eq_append_iff.mp h with ⟨mid, rfl, hmid⟩ | ⟨mid, hpre, hmid⟩
          · cases mid with
            | nil => exact ⟨by simp, (List.cons.inj hmid).2.symm⟩
            | cons e mid => simp at hmid
          · cases mid with
            | nil => exact ⟨by simpa using hpre.symm, (List.cons.inj hmid).2⟩
            | cons e mid =>
              obtain ⟨rfl, -⟩ := List.cons.inj hmid
              exact absurd (by rw [hpre]; simp) hshown
        have htexts := feed_texts s c
        have hset : settle choice t = .listed t := if_pos hval
        rw [feed_finish hf, hheld, ← hlast.1] at htexts
        simpa [texts_append, hset, texts, Event.text] using htexts
      · cases hset

/-- A finish takes the list `t`, with the content before it handed on as `shown`. -/
def TakesList (s : State F) (cs : List (Chunk F)) (shown t : Text) : Prop :=
  ∃ as c bs choice, cs = as ++ c :: bs ∧ c.finish = some choice ∧ validatedList choice = some t ∧
    heldAt (feedAll s as).1 c = some t ∧ shown ++ t = s.held.getD [] ++ contents as ++ c.delta

theorem feedAll_listed {s : State F} {cs : List (Chunk F)} {pre post : List Event} {t : Text}
    (h : (feedAll s cs).2 = pre ++ .listed t :: post) : TakesList s cs (texts pre) t := by
  induction cs generalizing s pre with
  | nil => simp [feedAll] at h
  | cons d cs ih =>
    have hlater : ∀ mid, pre = (feed s d).2 ++ mid →
        (feedAll (feed s d).1 cs).2 = mid ++ .listed t :: post →
        TakesList s (d :: cs) (texts pre) t := fun mid hpre hrest => by
      obtain ⟨as, c, bs, choice, rfl, hc, hval, hheld, htexts⟩ := ih hrest
      refine ⟨d :: as, c, bs, choice, rfl, hc, hval, hheld, ?_⟩
      rw [hpre, texts_append, List.append_assoc, htexts, contents_cons, ← List.append_assoc,
        ← List.append_assoc, feed_texts, List.append_assoc (s.held.getD [])]
    rw [feedAll] at h
    rcases List.append_eq_append_iff.mp h with ⟨mid, hpre, hrest⟩ | ⟨mid, hfeed, hrest⟩
    · exact hlater mid hpre hrest
    · cases mid with
      | nil => exact hlater [] (by simpa using hfeed.symm) (by simpa using hrest.symm)
      | cons e mid =>
        obtain ⟨rfl, -⟩ := List.cons.inj hrest
        obtain ⟨choice, hc, hval, hheld, htexts⟩ := feed_listed hfeed
        exact ⟨[], d, cs, choice, rfl, hc, hval, hheld, by simpa [contents] using htexts⟩

theorem feedAll_lists {s : State F} {as : List (Chunk F)} {c : Chunk F} {choice : Items F}
    {t : Text} (bs : List (Chunk F)) (hc : c.finish = some choice)
    (hval : validatedList choice = some t)
    (hheld : heldAt (feedAll s as).1 c = some t) :
    ∃ pre post, (feedAll s (as ++ c :: bs)).2 = pre ++ .listed t :: post ∧
      texts pre ++ t = s.held.getD [] ++ contents as ++ c.delta := by
  have hlast : (feed (feedAll s as).1 c).2 =
      (if c.delta = [] then [] else release (feedAll s as).1) ++ [.listed t] := by
    simp [feed_finish hc, hheld, settle, hval]
  refine ⟨(feedAll s as).2 ++ (if c.delta = [] then [] else release (feedAll s as).1),
    (feedAll (feed (feedAll s as).1 c).1 bs).2, ?_, ?_⟩
  · rw [feedAll_append, feedAll, hlast]
    simp only [List.append_assoc, List.singleton_append]
  · have htexts := feed_texts (feedAll s as).1 c
    rw [hlast, feed_finish hc, Option.getD_none, List.append_nil] at htexts
    have hone : texts [Event.listed t] = t := by simp [texts, Event.text]
    rw [texts_append, hone] at htexts
    rw [texts_append, List.append_assoc, htexts, ← List.append_assoc, feedAll_texts]

/-! ## When every delta is handed on -/

theorem conclude_shown (s : State F) (stop : Option Stop) (t : Text) :
    Event.listed t ∉ (conclude s stop).events := by
  match stop with
  | none => exact not_listed_release s t
  | some .done =>
    rw [conclude]
    split
    · simp
    · exact not_listed_release s t
  | some (.failure _) => exact not_listed_release s t
  | some .tooDeep => simp [conclude]

theorem validatedList_ne_nil {final : Items F} : validatedList final ≠ some [] := by
  unfold validatedList
  split
  · next c cs h =>
    cases hm : (c :: cs).mapM asText <;> simp
  · simp

/-- Two lists would both be the end of the same content. -/
theorem one_list_of_last {events : List Event} (whole shown : Text)
    (h : ∀ before t after, events = before ++ .listed t :: after →
      t ≠ [] ∧ shown ++ texts before ++ t = whole) : events.countP isListed ≤ 1 := by
  induction events generalizing shown with
  | nil => simp
  | cons e events ih =>
    cases e with
    | shown x =>
      rw [List.countP_cons_of_neg (by simp [isListed])]
      refine ih (shown ++ x) fun before t after he => ?_
      have hlater := h (.shown x :: before) t after (by rw [he]; rfl)
      simpa [texts, Event.text] using hlater
    | listed t =>
      have hfirst := (h [] t events rfl).2
      have hnone : events.countP isListed = 0 := by
        rw [List.countP_eq_zero]
        intro e he
        cases e with
        | shown x => simp [isListed]
        | listed u =>
          obtain ⟨before, after, hsplit⟩ := List.append_of_mem he
          obtain ⟨hu, hwhole⟩ := h (.listed t :: before) u after (by rw [hsplit]; rfl)
          rw [← hwhole] at hfirst
          simp [texts, Event.text, hu] at hfirst
      rw [List.countP_cons_of_pos (by rfl), hnone]

variable {frames : List (Frame F)} {final : Items F}

theorem run_events (frames : List (Frame F)) (s : State F) :
    (runFrames frames s).events = (feedAll s (body frames)).2 ++
      (conclude (feedAll s (body frames)).1 (ending frames)).events := rfl

theorem run_ended (frames : List (Frame F)) (s : State F) :
    (runFrames frames s).ended = (conclude (feedAll s (body frames)).1 (ending frames)).ended := rfl

theorem finished_iff (final : Items F) (cs : List (Chunk F)) :
    (feedAll { final := final } cs).1.finished = true ↔ ∃ c ∈ cs, c.finish ≠ none := by
  rw [feedAll_finished]
  simp

/-- How a reading that returns has ended. -/
theorem conclude_returned {s : State F} {stop : Option Stop}
    (h : (conclude s stop).ended = .returned) : stop = some .done ∧ s.finished = true := by
  match stop with
  | none => cases h
  | some .done =>
    rw [conclude] at h
    split at h
    · next hf => exact ⟨rfl, hf⟩
    · cases h
  | some (.failure _) => cases h
  | some .tooDeep => cases h

theorem conclude_failed {s : State F} {stop : Option Stop} (hs : stop ≠ some .tooDeep)
    (h : (conclude s stop).ended ≠ .returned) :
    (∃ text, (conclude s stop).ended = .failed text true) ∧ (conclude s stop).events = release s := by
  match stop with
  | none => exact ⟨⟨_, rfl⟩, rfl⟩
  | some .done =>
    rw [conclude] at h ⊢
    split at h
    · exact absurd rfl h
    · next hf => exact ⟨⟨_, by rw [if_neg hf]; rfl⟩, by rw [if_neg hf]; rfl⟩
  | some (.failure _) => exact ⟨⟨_, rfl⟩, rfl⟩
  | some .tooDeep => exact absurd rfl hs

/-- Behind the last finish of a stream, nothing is held exactly where nothing came. -/
theorem held_after_finish (s : State F) (cs : List (Chunk F)) {rest : List (Chunk F)} {c : Chunk F}
    (hc : c.finish ≠ none) (hopen : Open rest) :
    (feedAll s (cs ++ c :: rest)).1.held = none ↔ contents rest = [] := by
  have hnone : pending (pending s.held cs) [c] = none := by
    obtain ⟨choice, hchoice⟩ := Option.ne_none_iff_exists'.mp hc
    simp [pending, hchoice]
  have happ : pending s.held (cs ++ c :: rest) = pending (pending (pending s.held cs) [c]) rest := by
    simp [pending]
  rw [feedAll_held, happ, hnone, pending_open hopen]
  simp

theorem heldAt_waiting (final : Items F) (cs : List (Chunk F)) (c : Chunk F) :
    heldAt (feedAll { final := final } cs).1 c = waiting cs c := by
  rw [heldAt, feedAll_held, waiting]

/-- A listed delta is among those of the chunks. -/
theorem listed_in_chunks {before after : List Event} {t : Text}
    (h : (runFrames frames { final := final }).events = before ++ .listed t :: after) :
    TakesList { final := final } (body frames) (texts before) t := by
  rw [run_events] at h
  rcases List.append_eq_append_iff.mp h with ⟨mid, -, hend⟩ | ⟨mid, hchunks, hend⟩
  · exact absurd (by rw [hend]; simp) (conclude_shown _ _ t)
  · cases mid with
    | nil =>
      rw [List.nil_append] at hend
      exact absurd (by rw [← hend]; simp) (conclude_shown _ _ t)
    | cons e mid =>
      obtain ⟨rfl, -⟩ := List.cons.inj hend
      exact feedAll_listed hchunks

theorem Orderly.last_list (h : Orderly frames) {before after : List Event} {t : Text}
    (he : (runFrames frames { final := final }).events = before ++ .listed t :: after) :
    ∃ cs c rest choice, body frames = cs ++ c :: rest ∧ c.finish = some choice ∧ Open rest ∧
      validatedList choice = some t ∧ texts before ++ t = contents cs ++ c.delta := by
  obtain ⟨cs, c, rest, choice, hbody, hc, hval, hheld, htexts⟩ := listed_in_chunks he
  rw [heldAt_waiting] at hheld
  by_cases hlater : ∃ d ∈ rest, d.finish ≠ none
  · obtain ⟨mid, d, tail, last, rfl, hd, hopen⟩ := exists_last hlater
    obtain ⟨hempty, hsame⟩ := h.one_list cs c _ choice hbody hc (by simp [hval])
      (by rw [hheld, hval]) mid d tail last rfl hd hopen
    obtain ⟨hmid, hdelta⟩ := List.append_eq_nil_iff.mp hempty
    refine ⟨cs ++ c :: mid, d, tail, last, by simp [hbody], hd, hopen, by rw [hsame, hval], ?_⟩
    simpa [contents_append, contents_cons, hmid, hdelta] using htexts
  · push Not at hlater
    exact ⟨cs, c, rest, choice, hbody, hc, hlater, hval, by simpa using htexts⟩

theorem Orderly.forwards (h : Orderly frames) :
    Forwards frames (runFrames frames { final := final }) := by
  have hall := feedAll_texts { final := final } (body frames)
  simp only [Option.getD_none, List.nil_append] at hall
  refine ⟨?_, ?_, fun hr => ?_, fun hr => ?_, fun before t after he => h.last_list he⟩
  · rw [run_events, texts_append, ← hall]
    congr 1
    by_cases hr : (conclude (feedAll { final := final } (body frames)).1 (ending frames)).ended =
        .returned
    · obtain ⟨hdone, hfin⟩ := conclude_returned hr
      obtain ⟨cs, c, rest, choice, hbody, hc, hopen⟩ := exists_last ((finished_iff _ _).mp hfin)
      have hne : c.finish ≠ none := by simp [hc]
      have hempty := h.settled hdone cs c rest hbody hne hopen
      have hheld := (held_after_finish { final := final } cs hne hopen).mpr hempty
      rw [hdone, conclude, if_pos hfin, hbody, hheld]
      rfl
    · rw [(conclude_failed h.readable hr).2, texts_release]
  · by_cases hl : ∃ before t after,
        (runFrames frames { final := final }).events = before ++ .listed t :: after
    · obtain ⟨before, t, after, he⟩ := hl
      obtain ⟨cs, c, rest, choice, hbody, hc, hopen, hval, htexts⟩ := h.last_list he
      refine one_list_of_last (contents cs ++ c.delta) [] fun before' t' after' he' => ?_
      obtain ⟨cs', c', rest', choice', hbody', hc', hopen', hval', htexts'⟩ := h.last_list he'
      obtain ⟨rfl, rfl⟩ := last_unique (hbody.symm.trans hbody') (by simp [hc]) (by simp [hc'])
        hopen hopen'
      exact ⟨fun ht => validatedList_ne_nil (ht ▸ hval'), htexts'⟩
    · push Not at hl
      exact one_list_of_last [] [] fun before t after he => absurd he (hl before t after)
  · rw [run_ended] at hr
    obtain ⟨hdone, hfin⟩ := conclude_returned hr
    exact ⟨hdone, (finished_iff _ _).mp hfin⟩
  · rw [run_ended] at hr ⊢
    exact (conclude_failed h.readable hr).1

theorem Forwards.orderly (h : Forwards frames (runFrames frames { final := final })) :
    Orderly frames := by
  have hall := feedAll_texts { final := final } (body frames)
  simp only [Option.getD_none, List.nil_append] at hall
  refine ⟨fun hdeep => ?_, fun hdone cs c rest hbody hc hopen => ?_,
    fun cs c rest choice hbody hc hval hwait mid d tail last hrest hd hopen => ?_⟩
  · have hraised : (runFrames frames { final := final }).ended = .raised := by
      rw [run_ended, hdeep]
      rfl
    obtain ⟨text, htext⟩ := h.failed (by rw [hraised]; decide)
    rw [hraised] at htext
    cases htext
  · have hfin := (finished_iff final (body frames)).mpr ⟨c, by rw [hbody]; simp, hc⟩
    have honce := h.once
    rw [run_events, hdone, conclude, if_pos hfin, List.append_nil, ← hall] at honce
    have hempty : (feedAll { final := final } (body frames)).1.held.getD [] = [] := by
      simpa using honce
    rw [hbody] at hempty
    refine (held_after_finish { final := final } cs hc hopen).mp ?_
    cases hheld : (feedAll { final := final } (cs ++ c :: rest)).1.held with
    | none => rfl
    | some t =>
      rw [hheld] at hempty
      cases hempty
      rw [feedAll_held] at hheld
      exact absurd hheld (pending_ne_nil _ (by simp))
  · obtain ⟨t, ht⟩ := Option.ne_none_iff_exists'.mp hval
    obtain ⟨before, after, hlists, htexts⟩ := feedAll_lists (s := { final := final }) rest hc ht
       (by rw [heldAt_waiting, hwait, ht])
    obtain ⟨cs', c', rest', choice', hbody', hc', hopen', hval', htexts'⟩ :=
      h.last_list before t _ (by rw [run_events, hbody, hlists, List.append_assoc]; rfl)
    have hboth : (cs ++ c :: mid) ++ d :: tail = cs' ++ c' :: rest' := by
      rw [← hbody', hbody, hrest, List.append_assoc]
      rfl
    obtain ⟨rfl, rfl⟩ := last_unique hboth (by simp [hd]) (by simp [hc']) hopen hopen'
    obtain rfl : last = choice' := Option.some.inj (hd.symm.trans hc')
    refine ⟨?_, hval'.trans ht.symm⟩
    rw [htexts] at htexts'
    simpa [contents_append, contents_cons] using htexts'

/-- The pipe forwards the deltas of a stream exactly when the stream is orderly. -/
theorem deltas_forwards_iff (loads : Text → Parsed F) (lines : List Text) (final : Items F) :
    Forwards (lines.map (frameOf loads)) (deltas loads lines { final := final }) ↔
      Orderly (lines.map (frameOf loads)) := by
  rw [deltas_eq]
  exact ⟨Forwards.orderly, Orderly.forwards⟩

/-! ## A delta behind the finish -/

def finishFrame : Text :=
  "\x7b\"choices\":[\x7b\"delta\":\x7b\x7d,\"finish_reason\":\"stop\"\x7d]\x7d".toList

def lateFrame : Text :=
  "\x7b\"choices\":[\x7b\"delta\":\x7b\"content\":\"late\"\x7d\x7d]\x7d".toList

def lateLoads (t : Text) : Parsed Unit :=
  if t = finishFrame then
    .value (.obj [("choices".toList, .arr [.obj [("delta".toList, .obj []),
      ("finish_reason".toList, .str "stop".toList)]])])
  else if t = lateFrame then
    .value (.obj [("choices".toList, .arr [.obj [("delta".toList,
      .obj [("content".toList, .str "late".toList)])]])])
  else .valueError

def lateLines : List Text :=
  ["data: ".toList ++ finishFrame, "data: ".toList ++ lateFrame, "data: [DONE]".toList]

/-- The delta behind the finish is dropped at `[DONE]`. -/
theorem late_delta_dropped :
    ¬ ∀ (loads : Text → Parsed Unit) (lines : List Text) (final : Items Unit),
      Forwards (lines.map (frameOf loads)) (deltas loads lines { final := final }) := by
  intro h
  exact absurd (h lateLoads lateLines []).once (by decide +kernel)

end MainframeRag.Openwebui.DocsPipe
