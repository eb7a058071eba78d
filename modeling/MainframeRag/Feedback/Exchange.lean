import MainframeRag.Feedback.Store

/-!
# Export and import files

`feedback/exchange.py`: a header, one line for each row and a trailer with the hash of what precedes
it. `buildExport` writes the lines with sorted keys; `parseExport` checks a whole file and returns its
rows.
-/

namespace MainframeRag.Feedback

open PyText PyJson JsonText Hex Fallible

variable {F : Type}

/-- A line's bytes as text, in the encoding `json` detects. -/
structure Decoder where
  decode : Bytes → Option Text
  object : ∀ t, JsonText.printable t = true →
    decode (encodeUtf8 ('\x7b' :: t)) = some ('\x7b' :: t)

variable (N : Numerics F) (H : Hash) (D : Decoder)

/-! ## Writing -/

/-- `FORMAT` -/
def exportFormat : Text := "feedback-export".toList

/-- `VERSION` -/
def exportVersion : Int := 1

/-- `SCHEMA_VERSION` -/
def schemaVersion : Int := 1

/-- `separators=(",", ":")` -/
def lineStyle : Style := ⟨true, false⟩

/-- What `_line` writes without raising. -/
def writable (v : Json F) : Bool := allFinite (finite N) v && shortInts v

/-- A line without its line break. -/
def lineText (obj : Items F) : Bytes := encodeUtf8 (dumps N.toFloats lineStyle (.obj obj))

/-- `_line` -/
def line (obj : Items F) : Option Bytes :=
  if writable N (.obj obj) then some (lineText N obj ++ [10]) else none

def headerItems (exportedAt : F) (retentionDays : Int) : Items F :=
  [("kind".toList, .str "header".toList), ("format".toList, .str exportFormat),
    ("version".toList, .int exportVersion), ("store_schema".toList, .int schemaVersion),
    ("exported_at".toList, .float exportedAt), ("retention_days".toList, .int retentionDays)]

def answerItems (a : AnswerRow F) : Items F :=
  [("kind".toList, .str "answer".toList), ("request_id".toList, .str a.requestId),
    ("created_at".toList, .float a.createdAt), ("endpoint".toList, .str a.endpoint.text),
    ("query".toList, .str a.query), ("answer".toList, .str a.answer),
    ("script".toList, a.script.elim .null .str), ("citations".toList, textsJson a.citations),
    ("supplied".toList, textsJson a.supplied), ("telemetry".toList, telemetryJson a.telemetry)]

def ratingItems (r : RatingRow F) : Items F :=
  [("kind".toList, .str "rating".toList), ("request_id".toList, .str r.requestId),
    ("created_at".toList, .float r.createdAt), ("rating".toList, .str r.rating.text),
    ("reasons".toList, textsJson (r.reasons.map Reason.text)),
    ("comment".toList, .str r.comment)]

def trailerItems (batch : Batch F) (body : Bytes) : Items F :=
  [("kind".toList, .str "trailer".toList), ("answers".toList, .int batch.answers.length),
    ("ratings".toList, .int batch.ratings.length), ("sha256".toList, .str (H.hexdigest body))]

/-- `build_export`; `none` where it raises. -/
def buildExport (batch : Batch F) (exportedAt : F) (retentionDays : Int) : Option Bytes := do
  let header ← line N (headerItems exportedAt retentionDays)
  let answers ← batch.answers.mapM fun a => line N (answerItems a)
  let ratings ← batch.ratings.mapM fun r => line N (ratingItems r)
  let body := header ++ answers.flatten ++ ratings.flatten
  let trailer ← line N (trailerItems H batch body)
  return body ++ trailer

/-! ## Reading -/

inductive Kind
  | answer
  | rating
  deriving DecidableEq

def Kind.text : Kind → Text
  | answer => "answer".toList
  | rating => "rating".toList

/-- `Refused`, and the `TypeError` of `hmac.compare_digest` on a text that is not ASCII. -/
inductive Refusal
  | badFormat
  | noTrailer
  | badHash
  | unsupportedVersion
  | schemaMismatch
  | countMismatch
  | badFormatLine (n : Nat)
  | invalidLine (kind : Kind) (n : Nat)
  | duplicateIdLine (n : Nat)
  | typeError
  deriving DecidableEq

/-- The code of a refusal; `none` where another exception is raised. -/
def Refusal.code : Refusal → Option Text
  | badFormat => some "bad_format".toList
  | noTrailer => some "no_trailer".toList
  | badHash => some "bad_hash".toList
  | unsupportedVersion => some "unsupported_version".toList
  | schemaMismatch => some "schema_mismatch".toList
  | countMismatch => some "count_mismatch".toList
  | badFormatLine n => some ("bad_format_line_".toList ++ decimal n)
  | invalidLine kind n => some ("invalid_".toList ++ kind.text ++ "_line_".toList ++ decimal n)
  | duplicateIdLine n => some ("duplicate_id_line_".toList ++ decimal n)
  | typeError => none

/-- `_load` -/
def load (raw : Bytes) : Except Refusal (Items F) :=
  match (D.decode raw).bind (loads N.toFloats) with
  | some (.obj pairs) => if shortInts (.obj pairs) then .ok (dictOf pairs) else .error .badFormat
  | _ => .error .badFormat

/-- `v == t` for a text `t` -/
def isText (v : Json F) (t : Text) : Bool := asText v = some t

/-- `v == n` for an integer `n` -/
def isNumber (v : Json F) (n : Int) : Bool :=
  match v with
  | .int m => m = n
  | .bool b => (if b then 1 else 0) = n
  | .float x => N.value x = some ((n : ℚ) : WithTop ℚ)
  | _ => false

/-- `x <= y` -/
def floatLe (x y : F) : Bool :=
  match N.value x, N.value y with
  | some v, some w => v ≤ w
  | _, _ => false

/-- `min(x, y)` -/
def floatMin (x y : F) : F := if floatLt N y x then y else x

/-- `float(v)` on a number -/
def asFloat : Json F → Option F
  | .int n => N.ofInt n
  | .float x => some x
  | _ => none

/-- `_timestamp` -/
def timestamp (v : Json F) (limit : F) : Option F :=
  (asFloat N v).filter fun out => finite N out && floatLe N out limit

/-- `set(d) == keys` -/
def keysAre (d : Items F) (keys : List Text) : Bool :=
  (d.map Prod.fst).all keys.contains && keys.all (d.map Prod.fst).contains

/-- `_HEADER_KEYS` -/
def headerKeys : List Text :=
  ["kind".toList, "format".toList, "version".toList, "store_schema".toList, "exported_at".toList,
    "retention_days".toList]

/-- `_ANSWER_KEYS` -/
def answerKeys : List Text :=
  ["kind".toList, "request_id".toList, "created_at".toList, "endpoint".toList, "query".toList,
    "answer".toList, "script".toList, "citations".toList, "supplied".toList, "telemetry".toList]

/-- `_RATING_KEYS` -/
def ratingKeys : List Text :=
  ["kind".toList, "request_id".toList, "created_at".toList, "rating".toList, "reasons".toList,
    "comment".toList]

/-- `_TRAILER_KEYS` -/
def trailerKeys : List Text :=
  ["kind".toList, "answers".toList, "ratings".toList, "sha256".toList]

/-- An optional text. -/
def asScript : Json F → Option (Option Text)
  | .null => some none
  | .str t => some (some t)
  | _ => none

/-- A dict of scalars, its repeated keys read as Python does. -/
def asTelemetry : Json F → Option (Telemetry F)
  | .obj pairs => readTelemetry (.obj (dictOf pairs))
  | _ => none

/-- `AnswerRecord(**fields)` -/
def validateAnswer (d : Items F) : Option (AnswerFields F) := do
  let requestId ← (asText (get d "request_id".toList)).filter isRequestId
  let endpoint ← (asText (get d "endpoint".toList)).bind Endpoint.ofText
  let query ← asText (get d "query".toList)
  let answer ← asText (get d "answer".toList)
  let script ← asScript (get d "script".toList)
  let citations ← readTexts (get d "citations".toList)
  let supplied ← readTexts (get d "supplied".toList)
  let telemetry ← asTelemetry (get d "telemetry".toList)
  return ⟨requestId, endpoint, query, answer, script, citations, supplied, telemetry⟩

/-- `Rating(**fields)` -/
def validateRating (d : Items F) : Option RatingFields := do
  let requestId ← (asText (get d "request_id".toList)).filter isRequestId
  let rating ← (asText (get d "rating".toList)).bind RatingValue.ofText
  let texts ← readTexts (get d "reasons".toList)
  let reasons ← (texts.mapM Reason.ofText).filter fun reasons => reasons.Nodup
  let comment ← (asText (get d "comment".toList)).filter fun t => t.length ≤ commentMaxChars
  return ⟨requestId, rating, reasons, comment⟩

/-- A telemetry number is a finite float or an integer of 64 bits. -/
def Scalar.bounded : Scalar F → Bool
  | .float x => finite N x
  | .int n => -2 ^ 63 ≤ n ∧ n < 2 ^ 63
  | _ => true

inductive Row (F : Type)
  | answer (a : AnswerRow F)
  | rating (r : RatingRow F)

/-- Line `n`, up to the check of repeated ids. -/
def readRow (limit : F) (n : Nat) (d : Items F) : Except Refusal (Row F) :=
  if isText (get d "kind".toList) Kind.answer.text then do
    ensure (keysAre d answerKeys = true) (.invalidLine .answer n)
    let created ← orRaise (timestamp N (get d "created_at".toList) limit) (.invalidLine .answer n)
    let fields ← orRaise (validateAnswer d) (.invalidLine .answer n)
    ensure (fields.telemetry.all (fun x => x.2.bounded N) = true) (.invalidLine .answer n)
    return .answer ⟨fields, created⟩
  else if isText (get d "kind".toList) Kind.rating.text then do
    ensure (keysAre d ratingKeys = true) (.invalidLine .rating n)
    let created ← orRaise (timestamp N (get d "created_at".toList) limit) (.invalidLine .rating n)
    let fields ← orRaise (validateRating d) (.invalidLine .rating n)
    return .rating ⟨fields, created⟩
  else .error (.badFormatLine n)

/-- A row behind those that were read; their ids are the set `seen`. -/
def addRow (n : Nat) (batch : Batch F) : Row F → Except Refusal (Batch F)
  | .answer a => do
    ensure (a.requestId ∉ batch.answers.map fun a => a.requestId) (.duplicateIdLine n)
    return { batch with answers := batch.answers ++ [a] }
  | .rating r => do
    ensure (r.requestId ∉ batch.ratings.map fun r => r.requestId) (.duplicateIdLine n)
    return { batch with ratings := batch.ratings ++ [r] }

/-- A turn of the loop of `parse_export`. -/
def readLine (limit : F) (batch : Batch F) (raw : Bytes × Nat) : Except Refusal (Batch F) := do
  let d ← load N D raw.1
  let row ← readRow N limit raw.2 d
  addRow raw.2 batch row

def checkDigest (digest : Text) (v : Json F) : Except Refusal Unit :=
  match asText v with
  | none => .error .badHash
  | some t =>
    if t.all fun c => c.toNat < 128 then ensure (digest = t) .badHash else .error .typeError

/-- `retention_days`, an integer that is no truth value. -/
def retentionOk : Json F → Bool
  | .int n => 1 ≤ n ∧ n ≤ 3650
  | _ => false

/-- The checks of the header; returns the limit of the rows' times. -/
def checkHeader (now : F) (d : Items F) : Except Refusal F := do
  ensure (isText (get d "kind".toList) "header".toList = true ∧
    isText (get d "format".toList) exportFormat = true ∧ keysAre d headerKeys = true) .badFormat
  let exported ← orRaise (timestamp N (get d "exported_at".toList) (N.skew now)) .badFormat
  ensure (retentionOk (get d "retention_days".toList) = true) .badFormat
  ensure (isNumber N (get d "version".toList) exportVersion = true) .unsupportedVersion
  ensure (isNumber N (get d "store_schema".toList) schemaVersion = true) .schemaMismatch
  return floatMin N (N.skew now) (N.skew exported)

/-- `parse_export` -/
def parseExport (data : Bytes) (now : F) : Except Refusal (Batch F) := do
  ensure (data.getLast? = some 10) .noTrailer
  let lines := (data.splitOn 10).dropLast
  ensure (2 ≤ lines.length) .noTrailer
  let last := lines.getLastD []
  let trailer ← load N D last
  ensure (isText (get trailer "kind".toList) "trailer".toList = true ∧
    keysAre trailer trailerKeys = true) .noTrailer
  let body := data.take (data.length - last.length - 1)
  checkDigest (H.hexdigest body) (get trailer "sha256".toList)
  let header ← load N D (lines.headD [])
  let limit ← checkHeader N now header
  let batch ← (lines.tail.dropLast.zipIdx 2).foldlM (readLine N D limit) ⟨[], []⟩
  ensure (isNumber N (get trailer "answers".toList) batch.answers.length = true ∧
    isNumber N (get trailer "ratings".toList) batch.ratings.length = true) .countMismatch
  return batch

/-! ## What is accepted -/

/-- What holds of the rows of a file that was accepted. -/
structure Batch.Accepted (batch : Batch F) : Prop extends batch.Valid where
  answerIds : (batch.answers.map fun a => a.requestId).Nodup
  ratingIds : (batch.ratings.map fun r => r.requestId).Nodup
  answerTimes : ∀ a ∈ batch.answers, finite N a.createdAt = true
  ratingTimes : ∀ r ∈ batch.ratings, finite N r.createdAt = true
  bounded : ∀ a ∈ batch.answers, a.telemetry.all (fun x => x.2.bounded N) = true

variable {N} {H} {D}

theorem readTelemetry_keys {pairs : Items F} {t : Telemetry F}
    (h : readTelemetry (.obj pairs) = some t) : t.map Prod.fst = pairs.map Prod.fst := by
  rw [readTelemetry, mapM_eq_some_iff] at h
  induction h with
  | nil => rfl
  | cons hx _ ih =>
    obtain ⟨v, -, rfl⟩ := Option.map_eq_some_iff.mp hx
    rw [List.map_cons, List.map_cons, ih]

theorem validateAnswer_valid {d : Items F} {fields : AnswerFields F}
    (h : validateAnswer d = some fields) : fields.Valid := by
  simp only [validateAnswer, Option.bind_eq_bind, Option.bind_eq_some_iff, Option.filter_eq_some_iff,
    Option.pure_def, Option.some.injEq] at h
  obtain ⟨requestId, ⟨-, hid⟩, endpoint, -, query, -, answer, -, script, -, citations, -, supplied, -,
    telemetry, htelemetry, rfl⟩ := h
  refine ⟨hid, ?_⟩
  unfold asTelemetry at htelemetry
  split at htelemetry
  · rw [readTelemetry_keys htelemetry]
    exact dictOf_nodup _
  · cases htelemetry

theorem validateRating_valid {d : Items F} {fields : RatingFields}
    (h : validateRating d = some fields) : fields.Valid := by
  simp only [validateRating, Option.bind_eq_bind, Option.bind_eq_some_iff, Option.filter_eq_some_iff,
    Option.pure_def, Option.some.injEq, decide_eq_true_eq] at h
  obtain ⟨requestId, ⟨-, hid⟩, rating, -, texts, -, reasons, ⟨-, hdistinct⟩, comment, ⟨-, hshort⟩,
    rfl⟩ := h
  exact ⟨hid, hdistinct, hshort⟩

theorem timestamp_some {v : Json F} {limit x : F} (h : timestamp N v limit = some x) :
    finite N x = true ∧ floatLe N x limit = true := by
  rw [timestamp, Option.filter_eq_some_iff, Bool.and_eq_true] at h
  exact h.2

theorem readRow_answer_ok {limit : F} {n : Nat} {d : Items F} {a : AnswerRow F}
    (h : readRow N limit n d = .ok (.answer a)) : a.toAnswerFields.Valid ∧
      finite N a.createdAt = true ∧ a.telemetry.all (fun x => x.2.bounded N) = true := by
  unfold readRow at h
  split at h
  · simp only [bind_ok, ensure_ok, orRaise_ok, pure_ok, Row.answer.injEq] at h
    obtain ⟨-, -, created, htime, fields, hfields, -, hbounded, rfl⟩ := h
    exact ⟨validateAnswer_valid hfields, (timestamp_some htime).1, hbounded⟩
  · split at h
    · simp only [bind_ok, ensure_ok, orRaise_ok, pure_ok] at h
      obtain ⟨-, -, created, -, fields, -, h⟩ := h
      cases h
    · cases h

theorem readRow_rating_ok {limit : F} {n : Nat} {d : Items F} {r : RatingRow F}
    (h : readRow N limit n d = .ok (.rating r)) :
    r.toRatingFields.Valid ∧ finite N r.createdAt = true := by
  unfold readRow at h
  split at h
  · simp only [bind_ok, ensure_ok, orRaise_ok, pure_ok] at h
    obtain ⟨-, -, created, -, fields, -, -, -, h⟩ := h
    cases h
  · split at h
    · simp only [bind_ok, ensure_ok, orRaise_ok, pure_ok, Row.rating.injEq] at h
      obtain ⟨-, -, created, htime, fields, hfields, rfl⟩ := h
      exact ⟨validateRating_valid hfields, (timestamp_some htime).1⟩
    · cases h

theorem nodup_concat {α β : Type} {f : α → β} {as : List α} {a : α} (h : (as.map f).Nodup)
    (ha : f a ∉ as.map f) : ((as ++ [a]).map f).Nodup := by
  rw [List.map_append, List.map_singleton, ← List.concat_eq_append]
  exact h.concat ha

theorem readLine_accepted {limit : F} {batch batch' : Batch F} {raw : Bytes × Nat}
    (hb : batch.Accepted N) (h : readLine N D limit batch raw = .ok batch') : batch'.Accepted N := by
  simp only [readLine, bind_ok] at h
  obtain ⟨d, -, row, hrow, h⟩ := h
  cases row with
  | answer a =>
    obtain ⟨hvalid, htime, hbounded⟩ := readRow_answer_ok hrow
    simp only [addRow, bind_ok, ensure_ok, pure_ok] at h
    obtain ⟨-, hnew, rfl⟩ := h
    refine ⟨⟨?_, hb.ratings⟩, nodup_concat hb.answerIds hnew, hb.ratingIds, ?_, hb.ratingTimes, ?_⟩
    · exact List.forall_mem_append.mpr ⟨hb.answers, List.forall_mem_singleton.mpr hvalid⟩
    · exact List.forall_mem_append.mpr ⟨hb.answerTimes, List.forall_mem_singleton.mpr htime⟩
    · exact List.forall_mem_append.mpr ⟨hb.bounded, List.forall_mem_singleton.mpr hbounded⟩
  | rating r =>
    obtain ⟨hvalid, htime⟩ := readRow_rating_ok hrow
    simp only [addRow, bind_ok, ensure_ok, pure_ok] at h
    obtain ⟨-, hnew, rfl⟩ := h
    refine ⟨⟨hb.answers, ?_⟩, hb.answerIds, nodup_concat hb.ratingIds hnew, hb.answerTimes, ?_,
      hb.bounded⟩
    · exact List.forall_mem_append.mpr ⟨hb.ratings, List.forall_mem_singleton.mpr hvalid⟩
    · exact List.forall_mem_append.mpr ⟨hb.ratingTimes, List.forall_mem_singleton.mpr htime⟩

theorem accepted_nil : (⟨[], []⟩ : Batch F).Accepted N := by
  refine ⟨⟨?_, ?_⟩, List.nodup_nil, List.nodup_nil, ?_, ?_, ?_⟩ <;> exact List.forall_mem_nil _

theorem parseExport_ok {data : Bytes} {now : F} {batch : Batch F}
    (h : parseExport N H D data now = .ok batch) :
    ∃ (limit : F) (trailer header : Items F) (lines : List (Bytes × Nat)),
      checkHeader N now header = .ok limit ∧
      lines.foldlM (readLine N D limit) ⟨[], []⟩ = .ok batch ∧
      isNumber N (get trailer "answers".toList) batch.answers.length = true ∧
      isNumber N (get trailer "ratings".toList) batch.ratings.length = true := by
  simp only [parseExport, bind_ok, ensure_ok, pure_ok] at h
  obtain ⟨-, -, -, -, trailer, -, -, -, -, -, header, -, limit, hlimit, batch, hlines, -, hcounts,
    rfl⟩ := h
  exact ⟨limit, trailer, header, _, hlimit, hlines, hcounts.1, hcounts.2⟩

/-- The rows of a file that was accepted. -/
theorem parseExport_accepted {data : Bytes} {now : F} {batch : Batch F}
    (h : parseExport N H D data now = .ok batch) : batch.Accepted N := by
  obtain ⟨limit, trailer, header, lines, -, hlines, -, -⟩ := parseExport_ok h
  exact foldlM_inv (P := fun b : Batch F => b.Accepted N) (fun _ _ _ _ hb => readLine_accepted hb)
    accepted_nil hlines

end MainframeRag.Feedback
