import MainframeRag.Agent.Sse

/-!
# Classified payloads

A payload is classified when it becomes a result with an explicit finish, or a failure with one of
the labels. Every field is checked before it is used but the usage block, and a data line may hold a
text on which `json.loads` raises past its handler (`payloads_classified_iff`).

The buffered callers stop at the first terminal line (`bufferedChat`). `foldedChat` feeds every line.
-/

namespace MainframeRag.Agent

open PyText PyJson

variable {F : Type} (N : Numbers F) (loads : Text → Loaded F)

/-- A result with a content and a nonempty finish of the payload, or a labelled failure. -/
def Classified (has : Text → Text → Prop) : Except Raised ChatResult → Prop
  | .ok result => has result.content result.finishReason ∧ result.finishReason ≠ []
  | .error (.truncated _ _) => True
  | .error .other => False

/-- The usage block is a dict of readable counts. -/
def Readable (usage : Json F) : Prop := ∃ items, usage = .obj items ∧ ReadableUsage N items

theorem classified_chatResult {has : Text → Text → Prop} {content finish : Text} {usage : Json F}
    (h : has content finish) (hne : finish ≠ []) :
    Classified has (chatResult N content finish usage) ↔ Readable N usage := by
  rw [Readable, ← tokenUsageFromDict_isSome, chatResult]
  cases tokenUsageFromDict N usage with
  | none => simp [Classified]
  | some counts => simp [Classified, h, hne]

/-! ## A response -/

/-- The payload is an answer: no error, a message whose content is a text or absent, an explicit
finish. -/
def Answers (data : Json F) (content finish : Text) : Prop :=
  ∃ items choice rest message, data = .obj items ∧ (get items errorKey).isNull = true ∧
    get items choicesKey = .arr (.obj choice :: rest) ∧ get choice messageKey = .obj message ∧
    (get message contentKey = .null ∧ content = [] ∨ get message contentKey = .str content) ∧
    get choice finishReasonKey = .str finish ∧ finish ≠ []

/-- `data.get("usage") or {}` -/
def usageBlock : Json F → Json F
  | .obj items => (get items usageKey).orElse N (.obj [])
  | _ => .obj []

/-- A payload is refused with a label, or it is an answer and its usage is counted. -/
inductive Parsed (data : Json F) : Except Raised ChatResult → Prop
  | refused {reason : Reason} : (∀ content finish, ¬Answers data content finish) →
      Parsed data (.error (.truncated 0 reason))
  | counted {content finish : Text} : Answers data content finish →
      Parsed data (chatResult N content finish (usageBlock N data))

theorem chatResultFromResponse_parsed (data : Json F) :
    Parsed N data (chatResultFromResponse N data) := by
  unfold chatResultFromResponse
  split
  · next items =>
    split
    · next herror =>
      refine .refused ?_
      rintro content finish ⟨_, _, _, _, ⟨⟩, hnull, -⟩
      rw [hnull] at herror
      cases herror
    · next herror =>
      split
      · next choice rest hchoices =>
        split
        · next message hmessage =>
          split
          · next hfinish =>
            refine .refused ?_
            rintro content finish ⟨_, _, _, _, ⟨⟩, -, hc, -, -, hf, -⟩
            cases hchoices.symm.trans hc
            cases hfinish.symm.trans hf
          · next finish hfinish =>
            split
            · next hempty =>
              refine .refused ?_
              rintro content finish' ⟨_, _, _, _, ⟨⟩, -, hc, -, -, hf, hne⟩
              cases hchoices.symm.trans hc
              cases hfinish.symm.trans hf
              exact hne hempty
            · next hne =>
              have hnull : (get items errorKey).isNull = true := by simpa using herror
              split
              · next hcontent =>
                exact .counted ⟨items, choice, rest, message, rfl, hnull, hchoices, hmessage,
                  .inl ⟨hcontent, rfl⟩, hfinish, hne⟩
              · next content hcontent =>
                exact .counted ⟨items, choice, rest, message, rfl, hnull, hchoices, hmessage,
                  .inr hcontent, hfinish, hne⟩
              · next hnone hstr =>
                refine .refused ?_
                rintro content finish' ⟨_, _, _, _, ⟨⟩, -, hc, hm, ht, -⟩
                cases hchoices.symm.trans hc
                cases hmessage.symm.trans hm
                rcases ht with ⟨ht, -⟩ | ht
                · exact hnone ht
                · exact hstr _ ht
          · next hnone hstr =>
            refine .refused ?_
            rintro content finish ⟨_, _, _, _, ⟨⟩, -, hc, -, -, hf, -⟩
            cases hchoices.symm.trans hc
            exact hstr _ hf
        · next hobj =>
          refine .refused ?_
          rintro content finish ⟨_, _, _, _, ⟨⟩, -, hc, hm, -⟩
          cases hchoices.symm.trans hc
          exact hobj _ hm
      · next harr =>
        refine .refused ?_
        rintro content finish ⟨_, _, _, _, ⟨⟩, -, hc, -⟩
        exact harr _ _ hc
  · next hobj =>
    refine .refused ?_
    rintro content finish ⟨items, _, _, _, e, -⟩
    exact hobj items e

theorem Answers.finish_ne_nil {data : Json F} {content finish : Text}
    (h : Answers data content finish) : finish ≠ [] := by
  obtain ⟨_, _, _, _, -, -, -, -, -, -, hne⟩ := h
  exact hne

theorem response_classified (data : Json F) :
    Classified (Answers data) (chatResultFromResponse N data) ↔
      ∀ content finish, Answers data content finish → Readable N (usageBlock N data) := by
  have hp := chatResultFromResponse_parsed N data
  generalize chatResultFromResponse N data = r at hp
  cases hp with
  | refused hnone =>
    exact iff_of_true trivial fun content finish h => absurd h (hnone content finish)
  | counted h =>
    rw [classified_chatResult N h h.finish_ne_nil]
    exact ⟨fun hr _ _ _ => hr, fun hr => hr _ _ h⟩

/-! ## A stream -/

/-- The content and the finish of the frames. -/
def Streamed (fs : List (Frame F)) (content finish : Text) : Prop :=
  content = (deltas fs).flatten ∧ (finishes fs).getLast? = some finish

theorem stream_classified (lines : List Text) :
    Classified (Streamed (frames N loads lines)) (bufferedChat N loads lines) ↔
      ¬RaisesFirst N loads lines ∧
        (CompleteFrames (frames N loads lines) → Readable N (lastUsage (frames N loads lines))) := by
  have ho := readLines_outcome N loads lines
  unfold bufferedChat
  generalize readLines N loads lines {} = o at ho
  cases ho with
  | raised hr _ => exact iff_of_false id fun h => h.1 hr
  | @incomplete s reason hr hc hreason _ =>
    simp only [bufferedResultFromStream, hreason]
    exact iff_of_true trivial ⟨hr, fun h => absurd h hc⟩
  | @complete s finish hr hc hreason hparts hf hfs hu =>
    have hne := finishes_ne_nil N loads (List.mem_of_getLast? hfs)
    simp only [bufferedResultFromStream, hreason, hf, hu, hparts]
    rw [classified_chatResult N ⟨rfl, hfs⟩ hne]
    exact ⟨fun h => ⟨hr, fun _ => h⟩, fun h => h.2 hc⟩

/-! ## The fold over every line -/

def feedLines (lines : List Text) (s : SseStreamState F) : Option (SseStreamState F) :=
  lines.foldlM (fun s line => (feedSseLine N loads s line).map Prod.fst) s

def foldedChat (lines : List Text) : Except Raised ChatResult :=
  match feedLines N loads lines {} with
  | none => .error .other
  | some s => bufferedResultFromStream N s

def Frame.isFailure : Frame F → Bool
  | .error => true
  | .malformed => true
  | _ => false

def chunks (fs : List (Frame F)) : List (Frame F) := fs.filter (fun f => !f.isTerminal)

theorem chunks_chunk (usage : Option (Json F)) (delta : Text) (finish : Option Text)
    (fs : List (Frame F)) :
    chunks (.chunk usage delta finish :: fs) = .chunk usage delta finish :: chunks fs := rfl

theorem chunks_terminal {f : Frame F} (h : f.isTerminal = true) (fs : List (Frame F)) :
    chunks (f :: fs) = chunks fs := by
  simp [chunks, h]

/-- `[DONE]` and a finish are among the frames and no failure is. -/
def CompleteFold (fs : List (Frame F)) : Prop :=
  fs.any Frame.isFailure = false ∧ fs.any Frame.isDone = true ∧ finishes (chunks fs) ≠ []

/-- The state after every frame was fed. -/
structure Folded (s : SseStreamState F) (fs : List (Frame F)) (t : SseStreamState F) : Prop where
  parts : t.contentParts = s.contentParts ++ deltas (chunks fs)
  finish : t.finishReason = (finishes (chunks fs)).getLast?.or s.finishReason
  usage : fs.any Frame.isFailure = false →
    t.usageData = (usages (chunks fs)).getLast?.getD s.usageData
  done : t.sawDone = (s.sawDone || fs.any Frame.isDone)
  failed : (t.error.isSome || t.malformed.isSome) =
    (s.error.isSome || s.malformed.isSome || fs.any Frame.isFailure)

theorem Folded.nil (s : SseStreamState F) : Folded s [] s := by
  constructor <;> simp [chunks, deltas, finishes, usages]

/-- One frame, then the others. -/
theorem Fed.folded {s t : SseStreamState F} {f : Frame F} {fs : List (Frame F)}
    {r : SseStreamState F × Option Text} (h : Fed s f r) (hf : Folded r.1 fs t) :
    Folded s (f :: fs) t := by
  obtain ⟨hparts, hfinish, husage, hdone, hfailed⟩ := hf
  cases h with
  | done =>
    refine ⟨hparts, hfinish, husage, ?_, hfailed⟩
    simpa [Frame.isDone] using hdone
  | error =>
    refine ⟨hparts, hfinish, fun h => ?_, hdone, ?_⟩
    · simp [Frame.isFailure] at h
    · simpa [Frame.isFailure] using hfailed
  | malformed usage =>
    refine ⟨?_, hfinish, fun h => ?_, hdone, ?_⟩
    · rw [chunks_terminal rfl]
      simpa [SseStreamState.absorb, SseStreamState.setMalformed] using hparts
    · simp [Frame.isFailure] at h
    · simpa [SseStreamState.setMalformed, Frame.isFailure] using hfailed
  | @chunk usage finish delta =>
    refine ⟨?_, ?_, fun h => ?_, hdone, hfailed⟩
    · rw [hparts, chunks_chunk]
      by_cases hd : delta.getD [] = [] <;> simp [SseStreamState.absorb, deltas, hd]
    · rw [hfinish, chunks_chunk, finishes, getLast?_toList_append, Option.or_assoc]
      rfl
    · rw [husage h, chunks_chunk, usages, getLast?_toList_append]
      cases (usages (chunks fs)).getLast? <;> rfl

/-- Either reading some line raises, or the state has every frame. -/
theorem feedLines_folded (lines : List Text) (s : SseStreamState F) :
    ((∃ line ∈ lines, raises loads line = true) ∧ feedLines N loads lines s = none) ∨
      (∀ line ∈ lines, raises loads line = false) ∧
        ∃ t, feedLines N loads lines s = some t ∧ Folded s (frames N loads lines) t := by
  induction lines generalizing s with
  | nil => exact .inr ⟨nofun, s, rfl, .nil s⟩
  | cons line rest ih =>
    have hcons : feedLines N loads (line :: rest) s =
        ((feedSseLine N loads s line).map Prod.fst).bind (feedLines N loads rest) :=
      List.foldlM_cons
    rcases feedSseLine_frame N loads s line with ⟨hr, -, e⟩ | ⟨hr, r, e, hfed⟩
    · refine .inl ⟨⟨line, List.mem_cons_self, hr⟩, ?_⟩
      rw [hcons, e]
      rfl
    · rw [hcons, e]
      rcases ih r.1 with ⟨⟨line', hl, hr'⟩, e'⟩ | ⟨hall, t, e', ht⟩
      · exact .inl ⟨⟨line', List.mem_cons_of_mem _ hl, hr'⟩, e'⟩
      · refine .inr ⟨?_, t, e', hfed.folded ht⟩
        rintro line' (_ | ⟨_, hl⟩)
        · exact hr
        · exact hall line' hl

theorem finishes_chunks {lines : List Text} {finish : Text}
    (h : finish ∈ finishes (chunks (frames N loads lines))) : finish ≠ [] := by
  induction lines with
  | nil => cases h
  | cons line rest ih =>
    rw [frames, List.map_cons] at h
    cases hf : frameOf N loads line with
    | chunk usage delta f =>
      rw [hf, chunks_chunk, finishes, List.mem_append, Option.mem_toList] at h
      rcases h with h | h
      · exact frameOf_finish N loads (h ▸ hf)
      · exact ih h
    | done =>
      rw [hf, chunks_terminal rfl] at h
      exact ih h
    | error =>
      rw [hf, chunks_terminal rfl] at h
      exact ih h
    | malformed =>
      rw [hf, chunks_terminal rfl] at h
      exact ih h

/-- A folded state is complete when its frames are. -/
theorem Folded.incompleteReason {fs : List (Frame F)} {t : SseStreamState F}
    (h : Folded {} fs t) : t.incompleteReason = none ↔ CompleteFold fs := by
  have hfailed : (t.error.isSome || t.malformed.isSome) = fs.any Frame.isFailure := h.failed
  have hdone : t.sawDone = fs.any Frame.isDone := h.done
  have hfinish : t.finishReason = (finishes (chunks fs)).getLast? := by simpa using h.finish
  have hnone : t.finishReason.isNone = false ↔ finishes (chunks fs) ≠ [] := by
    rw [hfinish]
    cases finishes (chunks fs) <;> simp
  unfold SseStreamState.incompleteReason CompleteFold
  rw [← hfailed, ← hdone, ← hnone]
  cases he : t.error with
  | some reason => simp
  | none =>
    cases hm : t.malformed with
    | some reason => simp
    | none => cases t.sawDone <;> cases t.finishReason <;> simp

theorem fold_classified (lines : List Text) :
    Classified (Streamed (chunks (frames N loads lines))) (foldedChat N loads lines) ↔
      (∀ line ∈ lines, raises loads line = false) ∧
        (CompleteFold (frames N loads lines) →
          Readable N (lastUsage (chunks (frames N loads lines)))) := by
  unfold foldedChat
  rcases feedLines_folded N loads lines {} with ⟨⟨line, hl, hr⟩, e⟩ | ⟨hall, t, e, ht⟩
  · rw [e]
    refine iff_of_false id fun h => ?_
    rw [h.1 line hl] at hr
    cases hr
  · simp only [e, bufferedResultFromStream]
    cases hreason : t.incompleteReason with
    | some reason =>
      refine iff_of_true trivial ⟨hall, fun hc => ?_⟩
      rw [ht.incompleteReason.mpr hc] at hreason
      cases hreason
    | none =>
      have hc := ht.incompleteReason.mp hreason
      have hparts : t.contentParts = deltas (chunks (frames N loads lines)) := ht.parts
      have hfinish : t.finishReason = (finishes (chunks (frames N loads lines))).getLast? := by
        simpa using ht.finish
      have husage : t.usageData = lastUsage (chunks (frames N loads lines)) := ht.usage hc.1
      cases hf : (finishes (chunks (frames N loads lines))).getLast? with
      | none => exact absurd (List.getLast?_eq_none_iff.mp hf) hc.2.2
      | some finish =>
        have hne := finishes_chunks N loads (List.mem_of_getLast? hf)
        simp only [hfinish, hf, hparts, husage]
        rw [classified_chatResult N ⟨rfl, hf⟩ hne]
        exact ⟨fun h => ⟨hall, fun _ => h⟩, fun h => h.2 hc⟩

/-- The payloads that are classified: those that are refused before their usage is read, and those
whose usage block is a dict of readable counts. -/
theorem payloads_classified_iff :
    (∀ data, Classified (Answers data) (chatResultFromResponse N data) ↔
      ∀ content finish, Answers data content finish → Readable N (usageBlock N data)) ∧
    (∀ lines, Classified (Streamed (frames N loads lines)) (bufferedChat N loads lines) ↔
      ¬RaisesFirst N loads lines ∧
        (CompleteFrames (frames N loads lines) → Readable N (lastUsage (frames N loads lines)))) ∧
    ∀ lines, Classified (Streamed (chunks (frames N loads lines))) (foldedChat N loads lines) ↔
      (∀ line ∈ lines, raises loads line = false) ∧
        (CompleteFold (frames N loads lines) →
          Readable N (lastUsage (chunks (frames N loads lines)))) :=
  ⟨response_classified N, stream_classified N loads, fold_classified N loads⟩

/-- A complete answer whose usage block is a text. -/
def textUsage : Json Empty :=
  .obj [(choicesKey, .arr [.obj [(messageKey, .obj [(contentKey, .str ['A'])]),
    (finishReasonKey, .str stopReason)]]), (usageKey, .str ['x'])]

theorem usage_escapes :
    chatResultFromResponse sampleNumbers textUsage = .error .other ∧
      ¬Classified (Answers textUsage) (chatResultFromResponse sampleNumbers textUsage) ∧
      ¬Classified (Streamed (frames sampleNumbers sampleLoads misshapenUsage))
        (bufferedChat sampleNumbers sampleLoads misshapenUsage) ∧
      ¬Classified (Streamed (chunks (frames sampleNumbers sampleLoads misshapenUsage)))
        (foldedChat sampleNumbers sampleLoads misshapenUsage) := by
  have hresponse : chatResultFromResponse sampleNumbers textUsage = .error .other := by
    decide +kernel
  have hstream : bufferedChat sampleNumbers sampleLoads misshapenUsage = .error .other := by
    decide +kernel
  have hfold : foldedChat sampleNumbers sampleLoads misshapenUsage = .error .other := by
    decide +kernel
  rw [hresponse, hstream, hfold]
  exact ⟨rfl, id, id, id⟩

end MainframeRag.Agent
