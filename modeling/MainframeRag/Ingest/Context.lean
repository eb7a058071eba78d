import MainframeRag.Ingest.Chunking.Chunks
import MainframeRag.Lib.Dict
import MainframeRag.Lib.Hex
import MainframeRag.Lib.JsonDict
import MainframeRag.Lib.JsonTorn
import MainframeRag.Lib.LineLog
import MainframeRag.Lib.Words
import Mathlib

/-!
# Contextual prefixes

`context.py`: the prompt for a chunk, the key its context is cached under, the record of the sidecar
file, and the generation with its cache. `normalize_context` is from `payload.py`.

The hash and the model are parameters. A float of a record is only compared with the schema number.
-/

namespace MainframeRag.Ingest.Context

open PyText PyJson JsonText Hex Chunking

/-! ## Normalization -/

/-- `" ".join(text.split())[:max_chars].rstrip()` -/
def normalizeContext (text : Text) (maxChars : Nat) : Text :=
  rstrip ((List.intercalate [' '] (Words.words isSpace text)).take maxChars)

/-! ## The prompt -/

structure ChatMessage where
  role : Text
  content : Text
  deriving DecidableEq

def contextPromptVersion : Text := "v2".toList

def contextSystemPrompt : Text :=
  ("In one or two sentences, say what the passage states. " ++
    "Never repeat the manual title, document ID, or section path. " ++
    "No headings, lists, or preamble.").toList

def buildContextMessages (product version : Option Text) (docId title headingPath body : Text) :
    List ChatMessage :=
  let header := joinNonempty [' '] [product.getD [], version.getD [], docId]
  let user := joinNonempty ['\n'] [
    if header ≠ [] then "Manual: ".toList ++ title ++ " (".toList ++ header ++ ")".toList
    else "Manual: ".toList ++ title,
    if headingPath ≠ [] then "Section: ".toList ++ headingPath else [],
    "Passage:\n".toList ++ body]
  [⟨"system".toList, contextSystemPrompt⟩, ⟨"user".toList, user⟩]

/-! ## Keys -/

section

variable {F : Type} (N : Floats F) (H : Hash)

def contextCacheSchema : Int := 2

/-- `separators=(",", ":")` and no `ensure_ascii`. -/
def compactStyle : Style := ⟨false, false⟩

/-- The bytes `input_digest` hashes. -/
def inputPayload (messages : List ChatMessage) : Bytes :=
  encodeUtf8 (render N compactStyle
    (.arr (messages.map fun m => .arr [.str m.role, .str m.content])))

def inputDigest (messages : List ChatMessage) : Text := H.hexdigest (inputPayload N messages)

/-- The bytes `cache_key` hashes. -/
def boundPayload (promptVersion docSha256 chunkId model : Text) (maxChars : Int) (digest : Text) :
    Bytes :=
  encodeUtf8 (render N plainStyle (.arr [.str promptVersion, .str docSha256, .str chunkId,
    .str model, .int maxChars, .str digest]))

def cacheKey (promptVersion docSha256 chunkId model : Text) (maxChars : Int) (digest : Text) :
    Text :=
  "ctx".toList ++ decimal contextCacheSchema ++ [':'] ++
    H.hexdigest (boundPayload N promptVersion docSha256 chunkId model maxChars digest)

/-- What the contexts of one document depend on. The digest and the model's name are not empty, and
`context_max_chars` is within the bounds of its field. -/
structure ContextBinding where
  docSha256 : Text
  product : Option Text
  version : Option Text
  title : Text
  model : Text
  maxChars : Nat
  docSha256_ne_nil : docSha256 ≠ []
  model_ne_nil : model ≠ []
  maxChars_bounds : 50 ≤ maxChars ∧ maxChars ≤ 2000

def ContextBinding.messages (b : ContextBinding) (chunk : Chunk) : List ChatMessage :=
  buildContextMessages b.product b.version chunk.docId b.title chunk.headingPath chunk.text

def ContextBinding.key (b : ContextBinding) (chunk : Chunk) : Text :=
  cacheKey N H contextPromptVersion b.docSha256 chunk.chunkId b.model b.maxChars
    (inputDigest N H (b.messages chunk))

def ContextBinding.record (b : ContextBinding) (chunk : Chunk) (context : Text) : Items F :=
  [("schema".toList, .int contextCacheSchema),
    ("v".toList, .str contextPromptVersion),
    ("doc_sha256".toList, .str b.docSha256),
    ("chunk_id".toList, .str chunk.chunkId),
    ("model".toList, .str b.model),
    ("max_chars".toList, .int b.maxChars),
    ("input_sha256".toList, .str (inputDigest N H (b.messages chunk))),
    ("context".toList, .str context)]

/-! ## Records -/

/-- `isinstance(x, str) and x` -/
def nonemptyStr : Json F → Option Text
  | .str t => if t = [] then none else some t
  | _ => none

/-- `x == CONTEXT_CACHE_SCHEMA`; the argument says which floats are equal to it. -/
def isSchema (equalsSchema : F → Bool) : Json F → Bool
  | .int n => n = contextCacheSchema
  | .float x => equalsSchema x
  | _ => false

/-- `_record_key` -/
def recordKey (equalsSchema : F → Bool) : Json F → Option (Text × Text)
  | .obj items =>
    let obj := dictOf items
    if isSchema equalsSchema (get obj "schema".toList) then do
      let version ← nonemptyStr (get obj "v".toList)
      let docSha256 ← nonemptyStr (get obj "doc_sha256".toList)
      let chunkId ← nonemptyStr (get obj "chunk_id".toList)
      let model ← nonemptyStr (get obj "model".toList)
      let digest ← nonemptyStr (get obj "input_sha256".toList)
      let context ← nonemptyStr (get obj "context".toList)
      match get obj "max_chars".toList with
      | .int maxChars =>
        if 1 ≤ maxChars ∧ (context.length : Int) ≤ maxChars then
          some (cacheKey N H version docSha256 chunkId model maxChars digest, context)
        else none
      | _ => none
    else none
  | _ => none

/-- A cache: the contexts by key. -/
abbrev Cache := List (Text × Text)

/-- One line of the sidecar file. An integer over the digit limit is a `ValueError`. -/
def loadLine (equalsSchema : F → Bool) (entries : Cache) (line : Text) : Cache :=
  if strip line = [] then entries
  else
    match ((loads N (strip line)).filter shortInts).bind (recordKey N H equalsSchema) with
    | none => entries
    | some (key, context) => Dict.put entries key context

/-- `load_context_cache`; an absent file reads as an empty one. `none` is a file that is not
UTF-8. -/
def loadContextCache (equalsSchema : F → Bool) (file : Bytes) : Option Cache :=
  ((decodeUtf8 file).map universalNewlines).map fun raw =>
    (splitlines raw).foldl (loadLine N H equalsSchema) []

/-- `{c.chunk_id: c for c in chunks}.get(id)` -/
def byId (chunks : List Chunk) (id : Text) : Option Chunk :=
  Dict.get (chunks.foldl (fun d c => Dict.put d c.chunkId c) []) id

/-- The line of one entry, without its line break. -/
def recordText (b : ContextBinding) (chunk : Chunk) (context : Text) : Text :=
  render N plainStyle (.obj (b.record N H chunk context))

/-- What an append writes for one item of its entries. -/
def entryLine (b : ContextBinding) (chunks : List Chunk) (entry : Text × Text) : Text :=
  match byId chunks entry.1 with
  | some chunk => recordText N H b chunk entry.2 ++ ['\n']
  | none => []

/-- `append_context_entries`, of which `n` bytes reach the file. The error holds the unknown chunk
ids its text shows. -/
def appendContextEntries (n : Nat) (file : Bytes) (b : ContextBinding) (chunks : List Chunk)
    (entries : List (Text × Text)) : Except (List Text) Bytes :=
  if entries = [] then .ok file
  else
    let missing := (entries.map Prod.fst).filter fun id => (byId chunks id).isNone
    if missing ≠ [] then .error (missing.take 3)
    else
      let start := if LineLog.lacksFinalNewline file then ['\n'] else []
      .ok (file ++ (encodeUtf8 (start ++ entries.flatMap (entryLine N H b chunks))).take n)

/-! ## Generation -/

/-- What `generate_contexts` has come to. `calls` are the requests to the model, each with the
content of the answer, or `none` where the request failed. -/
structure Generated where
  full : List (Text × Text)
  new : List (Text × Text)
  cache : Cache
  calls : List (Chunk × Option Text)

inductive GenerateError
  | modelFailed
  | emptyGist (chunkId : Text)
  deriving DecidableEq

/-- `ContextLLMClient.complete`, from the content of the answer. -/
def complete (maxChars : Nat) (content : Text) : Text := normalizeContext content maxChars

/-- `if hit and normalize_context(hit, max_chars) == hit` -/
def usableHit (maxChars : Nat) (hit : Text) : Bool :=
  hit ≠ [] && normalizeContext hit maxChars = hit

/-- One round of the loop. `ask` answers the requests, by their number. -/
def generateChunk (ask : Nat → List ChatMessage → Option Text) (b : ContextBinding) (g : Generated)
    (chunk : Chunk) : Generated × Option GenerateError :=
  let key := b.key N H chunk
  match (Dict.get g.cache key).filter (usableHit b.maxChars) with
  | some hit => ({ g with full := Dict.put g.full chunk.chunkId hit }, none)
  | none =>
    let answer := ask g.calls.length (b.messages chunk)
    let g := { g with calls := g.calls ++ [(chunk, answer)] }
    match answer with
    | none => (g, some .modelFailed)
    | some content =>
      let context := normalizeContext (complete b.maxChars content) b.maxChars
      if context = [] then (g, some (.emptyGist chunk.chunkId))
      else
        ({ g with
            full := Dict.put g.full chunk.chunkId context
            new := Dict.put g.new chunk.chunkId context
            cache := Dict.put g.cache key context }, none)

def generateFrom (ask : Nat → List ChatMessage → Option Text) (b : ContextBinding) :
    Generated → List Chunk → Generated × Option GenerateError
  | g, [] => (g, none)
  | g, chunk :: chunks =>
    match generateChunk N H ask b g chunk with
    | (g, none) => generateFrom ask b g chunks
    | (g, some e) => (g, some e)

/-- `generate_contexts`. The cache is changed in place, also where it raises. -/
def generateContexts (ask : Nat → List ChatMessage → Option Text) (b : ContextBinding)
    (cache : Cache) (chunks : List Chunk) : Generated × Option GenerateError :=
  generateFrom N H ask b ⟨[], [], cache, []⟩ chunks

end

/-! ## Normal contexts -/

open Words

theorem rstrip_solid {w : Text} (h : Solid isSpace w) : rstrip w = w := by
  rcases List.eq_nil_or_concat w with rfl | ⟨t, c, rfl⟩
  · rfl
  · rw [List.concat_eq_append] at h ⊢
    exact rstrip_of_last (h.2 c (by simp)) t

theorem rstrip_append_of_ne {t u : Text} (h : rstrip u ≠ []) : rstrip (t ++ u) = t ++ rstrip u := by
  rcases List.eq_nil_or_concat (rstrip u) with hnil | ⟨v, c, hv⟩
  · exact absurd hnil h
  · obtain ⟨w, hw, hu⟩ := rstrip_spec u
    rw [List.concat_eq_append] at hv
    have hc : isSpace c = false := by
      have hlast : (rstrip u).getLast? = some c := by rw [hv, List.getLast?_concat]
      unfold rstrip at hlast
      rw [List.getLast?_reverse] at hlast
      have hnot := List.head?_dropWhile_not isSpace u.reverse
      rw [hlast] at hnot
      simpa using hnot
    conv_lhs => rw [hu, ← List.append_assoc, rstrip_append_blank hw, hv, ← List.append_assoc,
      rstrip_of_last hc]
    rw [hv, List.append_assoc]

/-- What is cut and stripped of joined words is joined words again. -/
theorem rstrip_take_intercalate {ws : List Text} (h : ∀ w ∈ ws, Solid isSpace w) (n : Nat) :
    ∃ vs : List Text, (∀ v ∈ vs, Solid isSpace v) ∧
      rstrip ((List.intercalate [' '] ws).take n) = List.intercalate [' '] vs := by
  induction ws generalizing n with
  | nil => exact ⟨[], by simp, by simp [rstrip]⟩
  | cons w ws ih =>
    have hw := h w List.mem_cons_self
    have hcut : ∀ m, ∃ vs : List Text, (∀ v ∈ vs, Solid isSpace v) ∧
        rstrip (w.take m) = List.intercalate [' '] vs := by
      intro m
      by_cases hm : w.take m = []
      · exact ⟨[], by simp, by rw [hm]; rfl⟩
      · have hsolid : Solid isSpace (w.take m) :=
          ⟨hm, fun c hc => hw.2 c (List.mem_of_mem_take hc)⟩
        exact ⟨[w.take m], by simpa using hsolid, by rw [rstrip_solid hsolid]; simp⟩
    cases ws with
    | nil => simpa using hcut n
    | cons v ws =>
      rw [List.intercalate_cons_cons, List.append_assoc]
      rcases Nat.lt_or_ge w.length n with hn | hn
      · obtain ⟨m, rfl⟩ : ∃ m, n = w.length + (m + 1) := ⟨n - w.length - 1, by omega⟩
        obtain ⟨vs, hvs, hrest⟩ := ih (fun x hx => h x (List.mem_cons_of_mem w hx)) m
        rw [List.take_length_add_append, List.singleton_append, List.take_succ_cons]
        by_cases hnil : rstrip ((List.intercalate [' '] (v :: ws)).take m) = []
        · have hblank : blank (' ' :: (List.intercalate [' '] (v :: ws)).take m) := by
            obtain ⟨u, hu, heq⟩ := rstrip_spec ((List.intercalate [' '] (v :: ws)).take m)
            rw [hnil, List.nil_append] at heq
            intro c hc
            rcases List.mem_cons.mp hc with rfl | hc
            · decide
            · exact hu c (heq ▸ hc)
          exact ⟨[w], by simpa using hw, by
            rw [rstrip_append_blank hblank, rstrip_solid hw]; simp⟩
        · have hvs' : vs ≠ [] := by
            rintro rfl
            exact hnil (by simpa using hrest)
          refine ⟨w :: vs, ?_, ?_⟩
          · rintro x hx
            rcases List.mem_cons.mp hx with rfl | hx
            · exact hw
            · exact hvs x hx
          · obtain ⟨x, xs, rfl⟩ := List.exists_cons_of_ne_nil hvs'
            rw [List.intercalate_cons_cons, List.append_assoc, ← hrest, ← List.singleton_append,
              ← List.append_assoc, rstrip_append_of_ne hnil, List.append_assoc]
      · rw [List.take_append_of_le_length hn]
        exact hcut n

theorem words_solid_intercalate {ws : List Text} (h : ∀ w ∈ ws, Solid isSpace w) :
    words isSpace (List.intercalate [' '] ws) = ws := by
  rw [words_intercalate (by decide), flatMap_words h]

theorem normalizeContext_length (t : Text) (n : Nat) : (normalizeContext t n).length ≤ n := by
  obtain ⟨w, -, h⟩ := rstrip_spec ((List.intercalate [' '] (words isSpace t)).take n)
  have := congrArg List.length h
  rw [List.length_append, List.length_take] at this
  unfold normalizeContext
  omega

/-- Normalizing twice is normalizing once. -/
theorem normalizeContext_twice (t : Text) (n : Nat) :
    normalizeContext (normalizeContext t n) n = normalizeContext t n := by
  have hsolid : ∀ w ∈ words isSpace t, Solid isSpace w := fun w hw => solid_of_mem hw
  obtain ⟨vs, hvs, h⟩ := rstrip_take_intercalate hsolid n
  have hlen := normalizeContext_length t n
  unfold normalizeContext at hlen ⊢
  rw [h] at hlen ⊢
  rw [words_solid_intercalate hvs, List.take_of_length_le hlen]
  rw [← h]
  obtain ⟨w, hw, hsplit⟩ := rstrip_spec ((List.intercalate [' '] (words isSpace t)).take n)
  conv_rhs => rw [hsplit, rstrip_append_blank hw]

theorem normalizeContext_complete (content : Text) (n : Nat) :
    normalizeContext (complete n content) n = normalizeContext content n :=
  normalizeContext_twice content n

theorem usableHit_normalizeContext {t : Text} {n : Nat} (h : normalizeContext t n ≠ []) :
    usableHit n (normalizeContext t n) = true := by
  simp [usableHit, h, normalizeContext_twice]

end MainframeRag.Ingest.Context
