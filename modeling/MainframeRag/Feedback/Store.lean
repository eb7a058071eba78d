import MainframeRag.Lib.JsonDict
import MainframeRag.Lib.Hex
import MainframeRag.Lib.Keyed
import MainframeRag.Lib.Fallible
import Mathlib.Data.Rat.Defs
import Mathlib.Algebra.Order.Ring.Rat
import Mathlib.Order.WithBot

/-!
# Feedback store

The two tables of `feedback/store.py` and the operations on them. A row keeps its lists and its
telemetry as JSON text; `answerRow` and `ratingRow` read them back.
-/

namespace MainframeRag.Feedback

open PyText PyJson JsonText Hex Fallible

variable {F : Type}

/-! ## Vocabularies -/

inductive RatingValue
  | good
  | neutral
  | bad
  deriving DecidableEq

inductive Reason
  | wrong
  | incomplete
  | missingOrWrongCitation
  | shouldHaveDeclined
  | wronglyDeclined
  | tooSlow
  | other
  deriving DecidableEq

inductive Endpoint
  | answer
  | answerStream
  | chat
  | chatStream
  | console
  deriving DecidableEq

def RatingValue.text : RatingValue → Text
  | good => "good".toList
  | neutral => "neutral".toList
  | bad => "bad".toList

def Reason.text : Reason → Text
  | wrong => "wrong".toList
  | incomplete => "incomplete".toList
  | missingOrWrongCitation => "missing_or_wrong_citation".toList
  | shouldHaveDeclined => "should_have_declined".toList
  | wronglyDeclined => "wrongly_declined".toList
  | tooSlow => "too_slow".toList
  | other => "other".toList

def Endpoint.text : Endpoint → Text
  | answer => "answer".toList
  | answerStream => "answer_stream".toList
  | chat => "chat".toList
  | chatStream => "chat_stream".toList
  | console => "console".toList

/-- `RATINGS` -/
def RatingValue.all : List RatingValue := [good, neutral, bad]

/-- `REASONS` -/
def Reason.all : List Reason :=
  [wrong, incomplete, missingOrWrongCitation, shouldHaveDeclined, wronglyDeclined, tooSlow, other]

/-- `ENDPOINTS` -/
def Endpoint.all : List Endpoint := [answer, answerStream, chat, chatStream, console]

def RatingValue.ofText (t : Text) : Option RatingValue := all.find? fun r => r.text = t

def Reason.ofText (t : Text) : Option Reason := all.find? fun r => r.text = t

def Endpoint.ofText (t : Text) : Option Endpoint := all.find? fun e => e.text = t

@[simp] theorem RatingValue.ofText_text (r : RatingValue) : ofText r.text = some r := by
  cases r <;> decide +kernel

@[simp] theorem Reason.ofText_text (r : Reason) : ofText r.text = some r := by
  cases r <;> decide +kernel

@[simp] theorem Endpoint.ofText_text (e : Endpoint) : ofText e.text = some e := by
  cases e <;> decide +kernel

/-! ## Numbers -/

/-- The value of a number that is not `NaN`. -/
abbrev Value := WithBot (WithTop ℚ)

/-- The floats with their values, the conversions of the code and of a `REAL` column. -/
structure Numerics (F : Type) extends Floats F where
  /-- `none` for `NaN` -/
  value : F → Option Value
  /-- what a `REAL` column gives back; `NaN` is stored as `NULL` -/
  real : F → Option F
  /-- `float(n)`; `none` where it overflows -/
  ofInt : Int → Option F
  /-- `x + MAX_FUTURE_SKEW_S` -/
  skew : F → F
  real_isSome : ∀ x, (value x).isSome → (real x).isSome
  real_value : ∀ x y, real x = some y → (value y).isSome ∧ value y = value x ∧ real y = some y
  le_skew : ∀ x v, value x = some v → ∃ w, value (skew x) = some w ∧ v ≤ w
  skew_mono : ∀ x y v w, value x = some v → value y = some w → v ≤ w →
    ∃ v' w', value (skew x) = some v' ∧ value (skew y) = some w' ∧ v' ≤ w'

variable (N : Numerics F)

/-- `x < y` -/
def floatLt (x y : F) : Bool :=
  match N.value x, N.value y with
  | some v, some w => v < w
  | _, _ => false

/-- `math.isfinite` -/
def finite (x : F) : Bool :=
  match N.value x with
  | some v => v ≠ ⊥ ∧ v ≠ ⊤
  | none => false

/-! ## Rows -/

/-- A telemetry value. -/
inductive Scalar (F : Type)
  | null
  | bool (b : Bool)
  | int (n : Int)
  | float (x : F)
  | text (t : Text)

def Scalar.json : Scalar F → Json F
  | .null => .null
  | .bool b => .bool b
  | .int n => .int n
  | .float x => .float x
  | .text t => .str t

def Scalar.ofJson : Json F → Option (Scalar F)
  | .null => some .null
  | .bool b => some (.bool b)
  | .int n => some (.int n)
  | .float x => some (.float x)
  | .str t => some (.text t)
  | .arr _ => none
  | .obj _ => none

abbrev Telemetry (F : Type) := List (Text × Scalar F)

structure AnswerFields (F : Type) where
  requestId : Text
  endpoint : Endpoint
  query : Text
  answer : Text
  script : Option Text
  citations : List Text
  supplied : List Text
  telemetry : Telemetry F

structure RatingFields where
  requestId : Text
  rating : RatingValue
  reasons : List Reason
  comment : Text
  deriving DecidableEq

/-- `REQUEST_ID_RE` -/
def isRequestId (t : Text) : Bool := t.length = 12 && t.all isLowerDigit

/-- `COMMENT_MAX_CHARS` -/
def commentMaxChars : Nat := 2000

/-- What the model `AnswerRecord` accepts; a dict has a key once. -/
structure AnswerFields.Valid (fields : AnswerFields F) : Prop where
  idOk : isRequestId fields.requestId = true
  keys : (fields.telemetry.map Prod.fst).Nodup

/-- What the model `Rating` accepts. -/
structure RatingFields.Valid (fields : RatingFields) : Prop where
  idOk : isRequestId fields.requestId = true
  distinct : fields.reasons.Nodup
  short : fields.comment.length ≤ commentMaxChars

structure AnswerRecord (F : Type) extends AnswerFields F where
  finalizedAt : Option F
  valid : toAnswerFields.Valid

structure Rating extends RatingFields where
  valid : toRatingFields.Valid

/-- An answer as it is read and exchanged. -/
structure AnswerRow (F : Type) extends AnswerFields F where
  createdAt : F

structure RatingRow (F : Type) extends RatingFields where
  createdAt : F

/-! ## Columns -/

structure AnswerColumns (F : Type) where
  requestId : Text
  createdAt : F
  endpoint : Text
  query : Text
  answer : Text
  script : Option Text
  citations : Text
  supplied : Text
  telemetry : Text

structure RatingColumns (F : Type) where
  id : Nat
  requestId : Text
  createdAt : F
  rating : Text
  reasons : Text
  comment : Text

def textsJson (ts : List Text) : Json F := .arr (ts.map .str)

def telemetryJson (t : Telemetry F) : Json F := .obj (t.map fun x => (x.1, x.2.json))

def asText : Json F → Option Text
  | .str t => some t
  | _ => none

def readTexts : Json F → Option (List Text)
  | .arr items => items.mapM asText
  | _ => none

def readTelemetry : Json F → Option (Telemetry F)
  | .obj items => items.mapM fun x => (Scalar.ofJson x.2).map fun v => (x.1, v)
  | _ => none

/-- `json.dumps(ts)` -/
def textsColumn (ts : List Text) : Text := render N.toFloats plainStyle (textsJson ts)

/-- `json.dumps(t, sort_keys=True)` -/
def telemetryColumn (t : Telemetry F) : Text := dumps N.toFloats plainStyle (telemetryJson t)

def answerColumns (fields : AnswerFields F) (createdAt : F) : AnswerColumns F where
  requestId := fields.requestId
  createdAt := createdAt
  endpoint := fields.endpoint.text
  query := fields.query
  answer := fields.answer
  script := fields.script
  citations := textsColumn N fields.citations
  supplied := textsColumn N fields.supplied
  telemetry := telemetryColumn N fields.telemetry

def ratingColumns (rowid : Nat) (fields : RatingFields) (createdAt : F) : RatingColumns F where
  id := rowid
  requestId := fields.requestId
  createdAt := createdAt
  rating := fields.rating.text
  reasons := textsColumn N (fields.reasons.map Reason.text)
  comment := fields.comment

/-- `_answer_row`; `none` where a column does not hold what was written to it. -/
def answerRow (c : AnswerColumns F) : Option (AnswerRow F) := do
  let endpoint ← Endpoint.ofText c.endpoint
  let citations ← (loads N.toFloats c.citations).bind readTexts
  let supplied ← (loads N.toFloats c.supplied).bind readTexts
  let telemetry ← (loads N.toFloats c.telemetry).bind readTelemetry
  return ⟨⟨c.requestId, endpoint, c.query, c.answer, c.script, citations, supplied, telemetry⟩,
    c.createdAt⟩

/-- `_rating_row` -/
def ratingRow (c : RatingColumns F) : Option (RatingRow F) := do
  let rating ← RatingValue.ofText c.rating
  let texts ← (loads N.toFloats c.reasons).bind readTexts
  let reasons ← texts.mapM Reason.ofText
  return ⟨⟨c.requestId, rating, reasons, c.comment⟩, c.createdAt⟩

/-! ## Reading back -/

/-- The telemetry in key order. -/
def sortTelemetry (t : Telemetry F) : Telemetry F := t.insertionSort fun a b => a.1 ≤ b.1

theorem sortTelemetry_perm (t : Telemetry F) : (sortTelemetry t).Perm t :=
  List.perm_insertionSort _ t

def AnswerFields.sorted (fields : AnswerFields F) : AnswerFields F :=
  { fields with telemetry := sortTelemetry fields.telemetry }

theorem mapM_map {α β γ : Type} {f : β → Option γ} {g : α → β} {h : α → γ}
    (hf : ∀ a, f (g a) = some (h a)) (as : List α) : (as.map g).mapM f = some (as.map h) := by
  induction as with
  | nil => rfl
  | cons a as ih => simp [List.mapM_cons, hf, ih]

theorem readTexts_textsJson (ts : List Text) : readTexts (F := F) (textsJson ts) = some ts := by
  have := mapM_map (f := asText (F := F)) (g := Json.str) (h := id) (fun _ => rfl) ts
  rwa [List.map_id] at this

theorem ofJson_json (v : Scalar F) : Scalar.ofJson v.json = some v := by
  cases v <;> rfl

theorem readTelemetry_json (t : Telemetry F) : readTelemetry (telemetryJson t) = some t := by
  have := mapM_map (f := fun x : Text × Json F => (Scalar.ofJson x.2).map fun v => (x.1, v))
    (g := fun x : Text × Scalar F => (x.1, x.2.json)) (h := id)
    (fun x => by simp [ofJson_json]) t
  rwa [List.map_id] at this

theorem sortKeys_json (v : Scalar F) : sortKeys v.json = v.json := by
  cases v <;> rfl

theorem sortKeys_telemetryJson (t : Telemetry F) :
    sortKeys (telemetryJson t) = telemetryJson (sortTelemetry t) := by
  have hmap : (sortTelemetry t).map (fun x => (x.1, x.2.json)) =
      List.insertionSort (fun a b : Text × Json F => a.1 ≤ b.1) (t.map fun x => (x.1, x.2.json)) :=
    List.map_insertionSort _ _ (fun x : Text × Scalar F => (x.1, x.2.json)) t fun _ _ _ _ => Iff.rfl
  have hvalues : (t.map fun x => (x.1, x.2.json)).map (fun x => (x.1, sortKeys x.2)) =
      t.map fun x => (x.1, x.2.json) := by
    simp [sortKeys_json]
  rw [telemetryJson, sortKeys_obj, sortedItems, sortKeysMembers_eq, hvalues, ← hmap, telemetryJson]

/-- Rows read back as they were, the telemetry in key order. -/
theorem answerRow_columns (fields : AnswerFields F) (createdAt : F) :
    answerRow N (answerColumns N fields createdAt) = some ⟨fields.sorted, createdAt⟩ := by
  have htelemetry : (loads N.toFloats (telemetryColumn N fields.telemetry)).bind readTelemetry =
      some (sortTelemetry fields.telemetry) := by
    rw [telemetryColumn, dumps, loads_render, sortKeys_telemetryJson, Option.bind_some,
      readTelemetry_json]
  have htexts : ∀ ts : List Text, (loads N.toFloats (textsColumn N ts)).bind readTexts = some ts := by
    intro ts
    rw [textsColumn, loads_render, Option.bind_some, readTexts_textsJson]
  simp only [answerRow, answerColumns, Endpoint.ofText_text, htelemetry, htexts]
  rfl

theorem ratingRow_columns (rowid : Nat) (fields : RatingFields) (createdAt : F) :
    ratingRow N (ratingColumns N rowid fields createdAt) = some ⟨fields, createdAt⟩ := by
  have htexts : (loads N.toFloats (textsColumn N (fields.reasons.map Reason.text))).bind readTexts =
      some (fields.reasons.map Reason.text) := by
    rw [textsColumn, loads_render, Option.bind_some, readTexts_textsJson]
  have hreasons : (fields.reasons.map Reason.text).mapM Reason.ofText = some fields.reasons := by
    have := mapM_map (f := Reason.ofText) (g := Reason.text) (h := id) Reason.ofText_text
      fields.reasons
    rwa [List.map_id] at this
  simp only [ratingRow, ratingColumns, RatingValue.ofText_text, htexts]
  show (fields.reasons.map Reason.text).mapM Reason.ofText >>= _ = _
  rw [hreasons]
  rfl

/-! ## The tables -/

/-- The tables under their constraints. -/
structure Store (F : Type) where
  answers : Keyed (AnswerColumns F) AnswerColumns.requestId
  ratings : Keyed (RatingColumns F) RatingColumns.requestId
  nextId : Nat
  foreign : ∀ r ∈ ratings, ∃ a ∈ answers, a.requestId = r.requestId

/-- The counts of an import. -/
structure Counts where
  inserted : Nat := 0
  duplicate : Nat := 0
  conflict : Nat := 0
  superseded : Nat := 0
  expired : Nat := 0
  deriving DecidableEq

inductive StoreError
  | valueError
  /-- a constraint of the tables -/
  | integrity
  /-- a column does not hold what the store writes -/
  | unreadable
  | unknownAnswer (requestId : Text)
  | importConflict (counts : Counts)
  deriving DecidableEq

namespace Store

def empty : Store F where
  answers := .empty
  ratings := .empty
  nextId := 1
  foreign r hr := absurd hr (Keyed.not_mem_empty r)

def writeAnswer (s : Store F) (c : AnswerColumns F) : Store F where
  answers := s.answers.upsert c
  ratings := s.ratings
  nextId := s.nextId
  foreign r hr := by
    obtain ⟨a, ha, hid⟩ := s.foreign r hr
    by_cases h : a.requestId = c.requestId
    · exact ⟨c, Keyed.mem_upsert.mpr (.inl rfl), h ▸ hid⟩
    · exact ⟨a, Keyed.mem_upsert.mpr (.inr ⟨ha, h⟩), hid⟩

/-- A rating's row, under the foreign key. -/
def writeRating (s : Store F) (c : RatingColumns F) : Except StoreError (Store F) :=
  if h : (s.answers.find c.requestId).isSome = true then
    .ok {
      answers := s.answers
      ratings := s.ratings.upsert c
      nextId := max s.nextId (c.id + 1)
      foreign := by
        intro r hr
        rcases Keyed.mem_upsert.mp hr with rfl | ⟨hr, -⟩
        · obtain ⟨a, ha⟩ := Option.isSome_iff_exists.mp h
          exact ⟨a, Keyed.find_eq_some.mp ha⟩
        · exact s.foreign r hr }
  else .error .integrity

/-- Delete answers, and their ratings with them. -/
def delete (s : Store F) (p : AnswerColumns F → Bool) : Store F where
  answers := s.answers.remove p
  ratings := s.ratings.remove fun r => (s.answers.find r.requestId).any p
  nextId := s.nextId
  foreign r hr := by
    obtain ⟨hr, hkept⟩ := Keyed.mem_remove.mp hr
    obtain ⟨a, ha, hid⟩ := s.foreign r hr
    have hfind := Keyed.find_eq_some.mpr ⟨ha, hid⟩
    rw [hfind] at hkept
    exact ⟨a, Keyed.mem_remove.mpr ⟨ha, hkept⟩, hid⟩

end Store

/-! ## Operations -/

/-- `json.dumps` raises on an integer over the limit. -/
def printable (t : Telemetry F) : Bool := shortInts (telemetryJson t)

/-- `record_answer` -/
def recordAnswer (clock : F) (record : AnswerRecord F) (s : Store F) :
    Except StoreError (Bool × Store F) := do
  ensure (printable record.telemetry) .valueError
  let created ← orRaise (N.real (record.finalizedAt.getD clock)) .integrity
  match s.answers.find record.requestId with
  | some _ => return (false, s)
  | none => return (true, s.writeAnswer (answerColumns N record.toAnswerFields created))

/-- A rating written over the one the answer has, or as a new row. -/
def putRating (s : Store F) (fields : RatingFields) (created : F) : Except StoreError (Store F) :=
  s.writeRating (ratingColumns N
    (((s.ratings.find fields.requestId).map RatingColumns.id).getD s.nextId) fields created)

/-- `add_rating`, with the id of the row. -/
def addRating (clock : F) (rating : Rating) (s : Store F) : Except StoreError (Nat × Store F) := do
  ensure ((s.answers.find rating.requestId).isSome = true) (.unknownAnswer rating.requestId)
  let created ← orRaise (N.real clock) .integrity
  let s ← putRating N s rating.toRatingFields created
  let row ← orRaise (s.ratings.find rating.requestId) .unreadable
  return (row.id, s)

/-- `purge`, without its checkpoint. -/
def purge (retentionDays : Int) (cutoff : F) (s : Store F) : Except StoreError (Store F) := do
  ensure (1 ≤ retentionDays) .valueError
  return s.delete fun a => floatLt N a.createdAt cutoff

/-! ## Equal rows -/

/-- A telemetry value as `==` sees it. -/
inductive ScalarView
  | null
  | number (v : Value)
  | nan
  | text (t : Text)
  deriving DecidableEq

def Scalar.view : Scalar F → ScalarView
  | .null => .null
  | .bool b => .number ((if b then (1 : ℚ) else 0 : ℚ) : WithTop ℚ)
  | .int n => .number ((n : ℚ) : WithTop ℚ)
  | .float x => (N.value x).elim .nan .number
  | .text t => .text t

/-- An answer's row as `==` sees it. -/
structure AnswerView where
  requestId : Text
  createdAt : Option Value
  endpoint : Endpoint
  query : Text
  answer : Text
  script : Option Text
  citations : List Text
  supplied : List Text
  telemetry : List (Text × ScalarView)
  deriving DecidableEq

def AnswerRow.view (r : AnswerRow F) : AnswerView where
  requestId := r.requestId
  createdAt := N.value r.createdAt
  endpoint := r.endpoint
  query := r.query
  answer := r.answer
  script := r.script
  citations := r.citations
  supplied := r.supplied
  telemetry := (sortTelemetry r.telemetry).map fun x => (x.1, x.2.view N)

/-- A `NaN` is equal to nothing. -/
def AnswerView.comparable (v : AnswerView) : Bool :=
  v.createdAt.isSome && v.telemetry.all fun x => x.2 ≠ .nan

structure RatingView where
  fields : RatingFields
  createdAt : Option Value
  deriving DecidableEq

def RatingRow.view (r : RatingRow F) : RatingView := ⟨r.toRatingFields, N.value r.createdAt⟩

/-- `a == b` -/
def answerEq (a b : AnswerRow F) : Bool := a.view N = b.view N && (a.view N).comparable

def ratingEq (a b : RatingRow F) : Bool := a.view N = b.view N && (a.view N).createdAt.isSome

/-! ## Import -/

structure Progress (F : Type) where
  store : Store F
  counts : Counts := {}
  /-- the answers in conflict -/
  skipped : List Text := []

/-- A turn of the first loop of `import_records`. -/
def importAnswer (cutoff : F) (p : Progress F) (a : AnswerRow F) : Except StoreError (Progress F) :=
  match p.store.answers.find a.requestId with
  | none => do
    ensure (printable a.telemetry) .valueError
    let created ← orRaise (N.real a.createdAt) .integrity
    return { p with
      store := p.store.writeAnswer (answerColumns N a.toAnswerFields created)
      counts := { p.counts with
        inserted := p.counts.inserted + 1
        expired := p.counts.expired + if floatLt N a.createdAt cutoff then 1 else 0 } }
  | some c => do
    let existing ← orRaise (answerRow N c) .unreadable
    if answerEq N existing a then
      return { p with counts := { p.counts with duplicate := p.counts.duplicate + 1 } }
    else
      return { p with
        counts := { p.counts with conflict := p.counts.conflict + 1 }
        skipped := a.requestId :: p.skipped }

/-- A turn of the second loop. -/
def importRating (p : Progress F) (r : RatingRow F) : Except StoreError (Progress F) :=
  if r.requestId ∈ p.skipped then
    .ok { p with counts := { p.counts with conflict := p.counts.conflict + 1 } }
  else do
    ensure ((p.store.answers.find r.requestId).isSome = true) (.unknownAnswer r.requestId)
    match p.store.ratings.find r.requestId with
    | none => do
      let created ← orRaise (N.real r.createdAt) .integrity
      let store ← putRating N p.store r.toRatingFields created
      return { p with
        store := store, counts := { p.counts with inserted := p.counts.inserted + 1 } }
    | some c => do
      let row ← orRaise (ratingRow N c) .unreadable
      if ratingEq N row r then
        return { p with counts := { p.counts with duplicate := p.counts.duplicate + 1 } }
      else if floatLt N row.createdAt r.createdAt then do
        let created ← orRaise (N.real r.createdAt) .integrity
        let store ← putRating N p.store r.toRatingFields created
        return { p with
          store := store, counts := { p.counts with inserted := p.counts.inserted + 1 } }
      else if floatLt N r.createdAt row.createdAt then
        return { p with counts := { p.counts with superseded := p.counts.superseded + 1 } }
      else
        return { p with counts := { p.counts with conflict := p.counts.conflict + 1 } }

/-- The answers and the ratings of a file. -/
structure Batch (F : Type) where
  answers : List (AnswerRow F)
  ratings : List (RatingRow F)

/-- `import_records` between `BEGIN` and `COMMIT`. -/
def importBody (keepExisting : Bool) (cutoff : F) (batch : Batch F) (s : Store F) :
    Except StoreError (Counts × Store F) := do
  let p ← batch.answers.foldlM (importAnswer N cutoff) { store := s }
  let p ← batch.ratings.foldlM (importRating N) p
  ensure (keepExisting = true ∨ p.counts.conflict = 0) (.importConflict p.counts)
  return (p.counts, p.store)

/-- What raises is rolled back. -/
def transaction {α : Type} (body : Store F → Except StoreError (α × Store F)) (s : Store F) :
    Except StoreError α × Store F :=
  match body s with
  | .ok (a, s') => (.ok a, s')
  | .error e => (.error e, s)

/-- `import_records` -/
def importRecords (keepExisting : Bool) (cutoff : F) (batch : Batch F) (s : Store F) :
    Except StoreError Counts × Store F :=
  transaction (importBody N keepExisting cutoff batch) s

/-! ## Snapshots -/

/-- `ORDER BY request_id` -/
def byId {α : Type} (key : α → Text) (rows : List α) : List α :=
  rows.insertionSort fun a b => key a ≤ key b

/-- `read_snapshot` -/
def readSnapshot (s : Store F) : Option (Batch F) := do
  let answers ← (byId AnswerColumns.requestId s.answers.items).mapM (answerRow N)
  let ratings ← (byId RatingColumns.requestId s.ratings.items).mapM (ratingRow N)
  return ⟨answers, ratings⟩

/-! ## Runs -/

/-- Rows that the models accept. -/
structure Batch.Valid (batch : Batch F) : Prop where
  answers : ∀ a ∈ batch.answers, a.toAnswerFields.Valid
  ratings : ∀ r ∈ batch.ratings, r.toRatingFields.Valid

/-- The stores that the operations make. -/
inductive Reachable : Store F → Prop
  | empty : Reachable .empty
  | record {s s' : Store F} {clock : F} {record : AnswerRecord F} {recorded : Bool}
    (h : Reachable s) (hr : recordAnswer N clock record s = .ok (recorded, s')) : Reachable s'
  | rate {s s' : Store F} {clock : F} {rating : Rating} {rowid : Nat} (h : Reachable s)
    (hr : addRating N clock rating s = .ok (rowid, s')) : Reachable s'
  | imported {s : Store F} {keepExisting : Bool} {cutoff : F} {batch : Batch F} (h : Reachable s)
    (hb : batch.Valid) : Reachable (importRecords N keepExisting cutoff batch s).2
  | purged {s s' : Store F} {retentionDays : Int} {cutoff : F} (h : Reachable s)
    (hp : purge N retentionDays cutoff s = .ok s') : Reachable s'

/-! ## What a store holds -/

/-- Every row was written by the store. -/
structure Readable (s : Store F) : Prop where
  answers : ∀ c ∈ s.answers, ∃ fields : AnswerFields F, fields.Valid ∧
    c = answerColumns N fields c.createdAt ∧ N.real c.createdAt = some c.createdAt
  ratings : ∀ c ∈ s.ratings, ∃ fields : RatingFields, fields.Valid ∧
    c = ratingColumns N c.id fields c.createdAt ∧ N.real c.createdAt = some c.createdAt

variable {N}

theorem readable_empty : Readable N Store.empty where
  answers c hc := absurd hc (Keyed.not_mem_empty c)
  ratings c hc := absurd hc (Keyed.not_mem_empty c)

theorem Readable.writeAnswer {s : Store F} (h : Readable N s) {fields : AnswerFields F}
    (hv : fields.Valid) {x created : F} (hreal : N.real x = some created) :
    Readable N (s.writeAnswer (answerColumns N fields created)) where
  answers c hc := by
    rcases Keyed.mem_upsert.mp hc with rfl | ⟨hc, -⟩
    · exact ⟨fields, hv, rfl, (N.real_value _ _ hreal).2.2⟩
    · exact h.answers c hc
  ratings := h.ratings

theorem writeRating_ok {s s' : Store F} {c : RatingColumns F} (h : s.writeRating c = .ok s') :
    (s.answers.find c.requestId).isSome = true ∧ s'.answers = s.answers ∧
      s'.ratings = s.ratings.upsert c := by
  unfold Store.writeRating at h
  split at h
  · next hfind =>
    cases h
    exact ⟨hfind, rfl, rfl⟩
  · cases h

theorem Readable.putRating {s s' : Store F} (h : Readable N s) {fields : RatingFields}
    (hv : fields.Valid) {x created : F} (hreal : N.real x = some created)
    (hput : putRating N s fields created = .ok s') : Readable N s' := by
  obtain ⟨-, hanswers, hratings⟩ := writeRating_ok hput
  refine ⟨hanswers ▸ h.answers, ?_⟩
  intro c hc
  rw [hratings] at hc
  rcases Keyed.mem_upsert.mp hc with rfl | ⟨hc, -⟩
  · exact ⟨fields, hv, rfl, (N.real_value _ _ hreal).2.2⟩
  · exact h.ratings c hc

theorem Readable.delete {s : Store F} (h : Readable N s) (p : AnswerColumns F → Bool) :
    Readable N (s.delete p) where
  answers c hc := h.answers c (Keyed.mem_remove.mp hc).1
  ratings c hc := h.ratings c (Keyed.mem_remove.mp hc).1

theorem importAnswer_readable {cutoff : F} {p p' : Progress F} {a : AnswerRow F}
    (ha : a.toAnswerFields.Valid) (hp : Readable N p.store)
    (h : importAnswer N cutoff p a = .ok p') : Readable N p'.store := by
  unfold importAnswer at h
  split at h
  · simp only [bind_ok, ensure_ok, orRaise_ok, pure_ok] at h
    obtain ⟨-, -, created, hreal, rfl⟩ := h
    exact hp.writeAnswer ha hreal
  · simp only [bind_ok, orRaise_ok] at h
    obtain ⟨existing, -, h⟩ := h
    split at h
    · cases h; exact hp
    · cases h; exact hp

theorem importRating_readable {p p' : Progress F} {r : RatingRow F}
    (hr : r.toRatingFields.Valid) (hp : Readable N p.store) (h : importRating N p r = .ok p') :
    Readable N p'.store := by
  unfold importRating at h
  split at h
  · cases h; exact hp
  · simp only [bind_ok, ensure_ok] at h
    obtain ⟨-, -, h⟩ := h
    split at h
    · simp only [bind_ok, orRaise_ok, pure_ok] at h
      obtain ⟨created, hreal, store, hput, rfl⟩ := h
      exact hp.putRating hr hreal hput
    · simp only [bind_ok, orRaise_ok] at h
      obtain ⟨row, -, h⟩ := h
      split at h
      · cases h; exact hp
      · split at h
        · simp only [bind_ok, orRaise_ok, pure_ok] at h
          obtain ⟨created, hreal, store, hput, rfl⟩ := h
          exact hp.putRating hr hreal hput
        · split at h
          · cases h; exact hp
          · cases h; exact hp

theorem importBody_ok {keepExisting : Bool} {cutoff : F} {batch : Batch F} {s s' : Store F}
    {counts : Counts} (h : importBody N keepExisting cutoff batch s = .ok (counts, s')) :
    ∃ p q : Progress F, batch.answers.foldlM (importAnswer N cutoff) { store := s } = .ok p ∧
      batch.ratings.foldlM (importRating N) p = .ok q ∧
      (keepExisting = true ∨ q.counts.conflict = 0) ∧ counts = q.counts ∧ s' = q.store := by
  simp only [importBody, bind_ok, ensure_ok, pure_ok, Prod.mk.injEq] at h
  obtain ⟨p, hp, q, hq, -, hconflict, hcounts, hstore⟩ := h
  exact ⟨p, q, hp, hq, hconflict, hcounts.symm, hstore.symm⟩

theorem importRecords_readable {keepExisting : Bool} {cutoff : F} {batch : Batch F} {s : Store F}
    (hs : Readable N s) (hb : batch.Valid) :
    Readable N (importRecords N keepExisting cutoff batch s).2 := by
  unfold importRecords transaction
  split
  · next counts s' h =>
    obtain ⟨p, q, hp, hq, -, -, rfl⟩ := importBody_ok h
    have hanswers : Readable N p.store :=
      foldlM_inv (P := fun p : Progress F => Readable N p.store)
        (fun _ _ a ha hs h => importAnswer_readable (hb.answers a ha) hs h) hs hp
    exact foldlM_inv (P := fun p : Progress F => Readable N p.store)
      (fun _ _ r hr hs h => importRating_readable (hb.ratings r hr) hs h) hanswers hq
  · exact hs

theorem reachable_readable {s : Store F} (h : Reachable N s) : Readable N s := by
  induction h with
  | empty => exact readable_empty
  | record h hr ih =>
    simp only [recordAnswer, bind_ok, ensure_ok, orRaise_ok] at hr
    obtain ⟨-, -, created, hreal, hr⟩ := hr
    split at hr
    · cases hr; exact ih
    · cases hr; exact ih.writeAnswer (AnswerRecord.valid _) hreal
  | rate h hr ih =>
    simp only [addRating, bind_ok, ensure_ok, orRaise_ok, pure_ok, Prod.mk.injEq] at hr
    obtain ⟨-, -, created, hreal, t, hput, -, -, -, rfl⟩ := hr
    exact ih.putRating (Rating.valid _) hreal hput
  | imported h hb ih => exact importRecords_readable ih hb
  | purged h hp ih =>
    simp only [purge, bind_ok, ensure_ok, pure_ok] at hp
    obtain ⟨-, -, rfl⟩ := hp
    exact ih.delete _

end MainframeRag.Feedback
