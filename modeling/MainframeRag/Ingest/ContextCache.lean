import MainframeRag.Ingest.Context
import Mathlib

/-!
# The context cache

The sidecar file as a log of records (`sidecar`). A crash cuts an append at any byte; reading the file
gives what it held before and exactly the records that were written whole (`load_torn_appends`).
-/

namespace MainframeRag.Ingest.Context

open PyText PyJson JsonText Hex Chunking

variable {F : Type} (N : Floats F) (H : Hash) (equalsSchema : F → Bool)

/-! ## Records and their keys -/

/-- What one record is written from. -/
structure Entry where
  binding : ContextBinding
  chunk : Chunk
  context : Text

def Entry.key (e : Entry) : Text := e.binding.key N H e.chunk

/-- The entry is read back: its texts are not empty, and the context is within the cap. -/
def Entry.Valid (e : Entry) : Prop :=
  e.chunk.chunkId ≠ [] ∧ e.context ≠ [] ∧ e.context.length ≤ e.binding.maxChars

instance (e : Entry) : Decidable e.Valid := inferInstanceAs (Decidable (_ ∧ _ ∧ _))

/-- A valid entry is put under its key, any other is nothing. -/
def Entry.apply (cache : Cache) (e : Entry) : Cache :=
  if e.Valid then Dict.put cache (e.key N H) e.context else cache

theorem record_keys (b : ContextBinding) (chunk : Chunk) (context : Text) :
    ((b.record N H chunk context).map Prod.fst).Nodup := by
  simp only [ContextBinding.record, List.map_cons, List.map_nil]
  decide

theorem record_shortInts (b : ContextBinding) (chunk : Chunk) (context : Text) :
    shortInts (.obj (b.record N H chunk context)) = true := by
  have hschema : contextCacheSchema.natAbs < digitLimit :=
    lt_digitLimit (by unfold contextCacheSchema; omega)
  have hcap : b.maxChars < digitLimit :=
    lt_digitLimit (by have := b.maxChars_bounds; omega)
  rw [shortInts, allLeaves_obj]
  intro x hx
  simp only [ContextBinding.record, List.mem_cons, List.not_mem_nil, or_false] at hx
  rcases hx with rfl | rfl | rfl | rfl | rfl | rfl | rfl | rfl <;>
    simp [allLeaves, shortLeaf, hschema, hcap]

theorem hexdigest_ne_nil (b : Bytes) : H.hexdigest b ≠ [] := by
  have h := H.isHex64_hexdigest b
  intro hnil
  rw [hnil] at h
  cases h

theorem nonemptyStr_str {t : Text} (h : t ≠ []) : nonemptyStr (.str t : Json F) = some t := if_neg h

theorem get_record (b : ContextBinding) (chunk : Chunk) (context : Text) :
    get (b.record N H chunk context) "schema".toList = .int contextCacheSchema ∧
      get (b.record N H chunk context) "v".toList = .str contextPromptVersion ∧
      get (b.record N H chunk context) "doc_sha256".toList = .str b.docSha256 ∧
      get (b.record N H chunk context) "chunk_id".toList = .str chunk.chunkId ∧
      get (b.record N H chunk context) "model".toList = .str b.model ∧
      get (b.record N H chunk context) "max_chars".toList = .int b.maxChars ∧
      get (b.record N H chunk context) "input_sha256".toList =
        .str (inputDigest N H (b.messages chunk)) ∧
      get (b.record N H chunk context) "context".toList = .str context :=
  ⟨rfl, rfl, rfl, rfl, rfl, rfl, rfl, rfl⟩

/-- A record gives its own key, or none. -/
theorem recordKey_record (e : Entry) :
    recordKey N H equalsSchema (.obj (e.binding.record N H e.chunk e.context)) =
      if e.Valid then some (e.key N H, e.context) else none := by
  have hver : nonemptyStr (.str contextPromptVersion : Json F) = some contextPromptVersion :=
    nonemptyStr_str (by decide)
  have hsha := nonemptyStr_str (F := F) e.binding.docSha256_ne_nil
  have hmodel := nonemptyStr_str (F := F) e.binding.model_ne_nil
  have hdigest : nonemptyStr (.str (inputDigest N H (e.binding.messages e.chunk)) : Json F) =
      some (inputDigest N H (e.binding.messages e.chunk)) := nonemptyStr_str (hexdigest_ne_nil H _)
  obtain ⟨h1, h2, h3, h4, h5, h6, h7, h8⟩ := get_record N H e.binding e.chunk e.context
  simp only [recordKey, dictOf_eq (record_keys N H e.binding e.chunk e.context), h1, h2, h3, h4, h5,
    h6, h7, h8, isSchema, decide_true, if_true, hver, hsha, hmodel, hdigest, Option.bind_eq_bind,
    Option.bind_some]
  have hcap := e.binding.maxChars_bounds
  by_cases hchunk : e.chunk.chunkId = []
  · simp [nonemptyStr, hchunk, Entry.Valid]
  · rw [nonemptyStr_str hchunk, Option.bind_some]
    by_cases hcontext : e.context = []
    · simp [nonemptyStr, hcontext, Entry.Valid]
    · rw [nonemptyStr_str hcontext, Option.bind_some]
      refine if_congr ?_ rfl rfl
      simp only [Entry.Valid, ne_eq, hchunk, hcontext, not_false_eq_true, true_and]
      omega

/-! ## The sidecar file as a log -/

def Entry.text (e : Entry) : Text := recordText N H e.binding e.chunk e.context

theorem Entry.text_ends (e : Entry) : ∃ t, e.text N H = '\x7b' :: t ++ ['\x7d'] := by
  have hlast : ∀ items : Items F, ∃ t, renderMembers N plainStyle items = t ++ ['\x7d'] := by
    intro items
    induction items with
    | nil => exact ⟨[], by rw [renderMembers]; rfl⟩
    | cons m rest ih =>
      obtain ⟨t, ht⟩ := ih
      obtain ⟨k, v⟩ := m
      rw [renderMembers_eq]
      cases rest with
      | nil =>
        exact ⟨quote plainStyle k ++ ':' :: (gap plainStyle ++ render N plainStyle v), by
          simp [membersTail]⟩
      | cons m rest =>
        exact ⟨quote plainStyle k ++ ':' :: (gap plainStyle ++ (render N plainStyle v ++
          ',' :: (gap plainStyle ++ t))), by simp [membersTail, ht]⟩
  obtain ⟨t, ht⟩ := hlast (e.binding.record N H e.chunk e.context)
  exact ⟨t, by simp [Entry.text, recordText, render, ht]⟩

theorem loadLine_blank (cache : Cache) {line : Text} (h : blank line) :
    loadLine N H equalsSchema cache line = cache := by
  simp [loadLine, strip_eq_nil.mpr h]

/-- A whole record is read back. -/
theorem loadLine_text (cache : Cache) (e : Entry) :
    loadLine N H equalsSchema cache (e.text N H) = e.apply N H cache := by
  obtain ⟨t, ht⟩ := e.text_ends N H
  have hstrip : strip (e.text N H) = e.text N H := by
    rw [ht]
    exact strip_of_ends (by decide) (by decide) t
  have hloads : loads N (e.text N H) = some (.obj (e.binding.record N H e.chunk e.context)) :=
    loads_render N plainStyle _
  rw [loadLine, hstrip, if_neg (by simp [ht]), hloads,
    Option.filter_some_pos (record_shortInts N H e.binding e.chunk e.context), Option.bind_some,
    recordKey_record, Entry.apply]
  by_cases h : e.Valid
  · rw [if_pos h, if_pos h]
  · rw [if_neg h, if_neg h]

/-- The beginning of a record is skipped. -/
theorem loadLine_torn (cache : Cache) (e : Entry) {u z : Text} (h : e.text N H = u ++ z)
    (hz : z ≠ []) : loadLine N H equalsSchema cache u = cache := by
  have hnone : loads N (strip u) = none := by
    cases u with
    | nil => rfl
    | cons c u =>
      obtain ⟨t, ht⟩ := e.text_ends N H
      have hc : isSpace c = false := by
        rw [ht] at h
        rw [← (List.cons.inj h).1]
        decide
      obtain ⟨w, -, hw⟩ := rstrip_spec (c :: u)
      have hstrip : strip (c :: u) = rstrip (c :: u) := by
        rw [strip, lstrip_of_head hc]
      rw [hstrip]
      have hsplit : render N plainStyle (.obj (e.binding.record N H e.chunk e.context)) =
          rstrip (c :: u) ++ (w ++ z) := by
        rw [← List.append_assoc, ← hw]
        exact h
      exact loads_torn N plainStyle hsplit (by simp [hz])
  rw [loadLine, hnone]
  split <;> rfl

/-- The sidecar file, as a log of lines. -/
def sidecar : LineLog.Format Cache Entry where
  take := loadLine N H equalsSchema
  write e := e.text N H
  apply := Entry.apply N H
  take_blank cache _ h := loadLine_blank N H equalsSchema cache h
  take_write := loadLine_text N H equalsSchema
  take_torn cache e _ _ h hz := loadLine_torn N H equalsSchema cache e h hz
  write_plain _ _ hc := ⟨mem_printable (render_printable N plainStyle _) hc,
    mem_ascii (render_ascii N rfl _) hc⟩
  write_ne_nil _ := render_ne_nil N plainStyle _

theorem loadContextCache_eq (file : Bytes) : loadContextCache N H equalsSchema file =
    LineLog.load (sidecar N H equalsSchema) [] file := by
  rw [loadContextCache, LineLog.load, Option.map_map]
  rfl

/-! ## Appends -/

/-- The entries of a document, each with the chunk its id names. -/
def boundEntries (b : ContextBinding) (chunks : List Chunk) (entries : List (Text × Text)) :
    List Entry :=
  entries.filterMap fun e => (byId chunks e.1).map fun chunk => ⟨b, chunk, e.2⟩

theorem flatMap_entryLine (b : ContextBinding) (chunks : List Chunk)
    (entries : List (Text × Text)) : entries.flatMap (entryLine N H b chunks) =
      LineLog.lines (sidecar N H equalsSchema) (boundEntries b chunks entries) := by
  induction entries with
  | nil => rfl
  | cons e entries ih =>
    rw [List.flatMap_cons, ih, entryLine]
    unfold boundEntries
    rw [List.filterMap_cons]
    cases byId chunks e.1 <;> simp [LineLog.lines, sidecar, Entry.text]

/-- One call of `append_context_entries`, of which `n` bytes reach the file. -/
structure Append where
  binding : ContextBinding
  chunks : List Chunk
  entries : List (Text × Text)
  n : Nat

def Append.items (a : Append) : List Entry := boundEntries a.binding a.chunks a.entries

/-- Nothing is written without entries, nor where an id names no chunk. -/
def Append.writes (a : Append) : Bool :=
  a.entries ≠ [] && a.entries.all fun e => (byId a.chunks e.1).isSome

/-- The file after the call, which leaves it where it raises. -/
def Append.run (file : Bytes) (a : Append) : Bytes :=
  match appendContextEntries N H a.n file a.binding a.chunks a.entries with
  | .ok file => file
  | .error _ => file

/-- The records the call leaves: those that lie within its bytes. -/
def Append.landed (file : Bytes) (a : Append) : List Entry :=
  if a.writes then LineLog.landed (sidecar N H equalsSchema) file a.items a.n else []

theorem writes_iff {a : Append} : a.writes = true ↔ a.entries ≠ [] ∧
    (a.entries.map Prod.fst).filter (fun id => (byId a.chunks id).isNone) = [] := by
  simp [Append.writes, Option.isSome_iff_ne_none]

theorem run_eq (file : Bytes) (a : Append) : a.run N H file =
    if a.writes then LineLog.append (sidecar N H equalsSchema) file a.items a.n else file := by
  unfold Append.run appendContextEntries
  by_cases hnil : a.entries = []
  · simp [hnil, Append.writes]
  · rw [if_neg hnil]
    dsimp only
    by_cases hmissing : (a.entries.map Prod.fst).filter
        (fun id => (byId a.chunks id).isNone) = []
    · rw [if_neg (not_not.mpr hmissing), if_pos (writes_iff.mpr ⟨hnil, hmissing⟩),
        flatMap_entryLine N H equalsSchema]
      rfl
    · have hwrites : a.writes = false :=
        Bool.eq_false_iff.mpr fun h => hmissing (writes_iff.mp h).2
      rw [if_pos hmissing, hwrites]
      rfl

theorem load_run {file : Bytes} {d : Cache} (h : loadContextCache N H equalsSchema file = some d)
    (a : Append) : loadContextCache N H equalsSchema (a.run N H file) =
      some ((a.landed N H equalsSchema file).foldl (Entry.apply N H) d) := by
  rw [run_eq N H equalsSchema, Append.landed]
  split
  · rw [loadContextCache_eq] at h ⊢
    exact LineLog.load_append (sidecar N H equalsSchema) h a.items a.n
  · exact h

/-- The records a sequence of calls leaves. -/
def landedAll (file : Bytes) : List Append → List Entry
  | [] => []
  | a :: rest => a.landed N H equalsSchema file ++ landedAll (a.run N H file) rest

/-- A call that is not cut leaves all its records. -/
theorem landed_uncut {file : Bytes} {a : Append} (hw : a.writes = true)
    (h : (LineLog.lines (sidecar N H equalsSchema) a.items).length < a.n) :
    a.landed N H equalsSchema file = a.items := by
  rw [Append.landed, if_pos hw]
  refine LineLog.landed_all _ ?_
  rw [LineLog.written, List.length_append]
  split <;> simp <;> omega

theorem landed_begins (file : Bytes) (a : Append) :
    a.landed N H equalsSchema file <+: a.items := by
  unfold Append.landed
  split
  · exact LineLog.whole_begins _ _ _
  · exact List.nil_prefix

theorem load_landedAll {file : Bytes} {d : Cache}
    (h : loadContextCache N H equalsSchema file = some d) (appends : List Append) :
    loadContextCache N H equalsSchema (appends.foldl (Append.run N H) file) =
      some ((landedAll N H equalsSchema file appends).foldl (Entry.apply N H) d) := by
  induction appends generalizing file d with
  | nil => exact h
  | cons a rest ih =>
    rw [List.foldl_cons, ih (load_run N H equalsSchema h a), landedAll, List.foldl_append]

/-- The last valid entry of a key. -/
def lastOf (es : List Entry) (key : Text) : Option Entry :=
  (es.filter fun e => e.Valid ∧ e.key N H = key).getLast?

theorem get_foldl_apply (es : List Entry) (d : Cache) (key : Text) :
    Dict.get (es.foldl (Entry.apply N H) d) key =
      ((lastOf N H es key).map Entry.context).or (Dict.get d key) := by
  induction es using List.reverseRecOn with
  | nil => rfl
  | append_singleton es e ih =>
    rw [List.foldl_append, List.foldl_cons, List.foldl_nil, Entry.apply, lastOf, List.filter_append]
    by_cases hv : e.Valid
    · rw [if_pos hv, Dict.get_put]
      by_cases hk : e.key N H = key
      · simp [hv, hk]
      · rw [if_neg (Ne.symm hk), ih]
        simp [hv, hk, lastOf]
    · rw [if_neg hv, ih]
      simp [hv, lastOf]

/-- Whatever the file held, and wherever the appends to it were cut, reading it gives what it held
and the records that were written whole, the last one of a key. -/
theorem load_torn_appends {file : Bytes} {d : Cache}
    (h : loadContextCache N H equalsSchema file = some d) (appends : List Append) :
    ∃ d', loadContextCache N H equalsSchema (appends.foldl (Append.run N H) file) = some d' ∧
      ∀ key, Dict.get d' key =
        ((lastOf N H (landedAll N H equalsSchema file appends) key).map Entry.context).or
          (Dict.get d key) :=
  ⟨_, load_landedAll N H equalsSchema h appends, get_foldl_apply N H _ d⟩

/-! ## A concrete file -/

theorem flat_size (_ : Bytes) : (List.replicate 32 (0 : UInt8)).length = 32 :=
  List.length_replicate

/-- A hash that tells nothing apart. -/
def flatHash : Hash where
  digest _ := List.replicate 32 0
  size := flat_size

def guide : ContextBinding where
  docSha256 := "ab".toList
  product := some "IMS".toList
  version := none
  title := "Guide".toList
  model := "gist".toList
  maxChars := 50
  docSha256_ne_nil := by decide
  model_ne_nil := by decide
  maxChars_bounds := by omega

def guideChunk : Chunk where
  chunkId := "c1".toList
  docId := "SC1".toList
  headingPath := []
  pageStart := 0
  pageLabel := "1".toList
  chunkType := "narrative".toList
  text := "body".toList
  messageIds := []
  members := []
  ordinal := 0
  systemCodes := []
  units := none
  pageEnd := 0

/-- The first append is cut inside its record, the second is whole. -/
def tornThenWhole : List Append :=
  [⟨guide, [guideChunk], [("c1".toList, ['x'])], 40⟩,
    ⟨guide, [guideChunk], [("c1".toList, ['y'])], 4000⟩]

theorem load_torn_then_whole : ∃ d',
    loadContextCache halves flatHash (fun _ => false)
        (tornThenWhole.foldl (Append.run halves flatHash) []) = some d' ∧
      ∀ key, Dict.get d' key = ((lastOf halves flatHash
        (landedAll halves flatHash (fun _ => false) [] tornThenWhole) key).map Entry.context).or
          (Dict.get [] key) :=
  load_torn_appends halves flatHash (fun _ => false) rfl tornThenWhole

end MainframeRag.Ingest.Context
