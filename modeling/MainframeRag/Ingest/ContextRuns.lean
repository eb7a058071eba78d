import MainframeRag.Ingest.ContextCache
import Mathlib

/-!
# Runs of a contextual ingest

Workers take a snapshot of the sidecar file and generate the contexts of documents with it, the parent
appends what they return, and a crash empties every memory and leaves an append cut at any byte.

A context that is served was given by the model for the same input (`context_provenance`), and a
document whose contexts were written costs no further request (`reingest_without_requests`). Both
assume that the payloads hashed in the run do not collide (`Apart`).
-/

namespace MainframeRag.Ingest.Context

open PyText PyJson JsonText Hex Chunking

variable {F : Type} (N : Floats F) (H : Hash) (equalsSchema : F → Bool)

/-! ## States -/

/-- A request to the model, with the content of its answer. -/
structure Call where
  binding : ContextBinding
  chunk : Chunk
  answer : Option Text

/-- The contexts of a document on their way to the parent. -/
structure Returned where
  binding : ContextBinding
  chunks : List Chunk
  entries : List (Text × Text)

def Returned.append (p : Returned) (n : Nat) : Append := ⟨p.binding, p.chunks, p.entries, n⟩

def Returned.items (p : Returned) : List Entry := boundEntries p.binding p.chunks p.entries

/-- The file, the snapshot of each worker, what awaits the parent, and the requests so far. -/
structure State where
  file : Bytes
  caches : Nat → Option Cache
  returned : List Returned
  calls : List Call

def State.fresh : State := ⟨[], fun _ => none, [], []⟩

/-- The requests of one document. -/
def callsOf (b : ContextBinding) (g : Generated) : List Call :=
  g.calls.map fun c => ⟨b, c.1, c.2⟩

/-- A worker generates the contexts of a document. -/
def State.parse (s : State) (w : Nat) (ask : Nat → List ChatMessage → Option Text)
    (b : ContextBinding) (cache : Cache) (chunks : List Chunk) : State :=
  let r := generateContexts N H ask b cache chunks
  { s with
    caches := Function.update s.caches w (some r.1.cache)
    returned := if r.2 = none then s.returned ++ [⟨b, chunks, r.1.full⟩] else s.returned
    calls := s.calls ++ callsOf b r.1 }

/-- The parent takes a document and appends its contexts; `n` bytes reach the file. -/
def State.write (s : State) (before : List Returned) (p : Returned) (after : List Returned)
    (n : Nat) : State :=
  { s with
    file := (p.append n).run N H s.file
    returned := before ++ after }

inductive Step : State → State → Prop
  | snapshot {s : State} {w : Nat} {d : Cache} (hw : s.caches w = none)
    (hload : loadContextCache N H equalsSchema s.file = some d) :
    Step s { s with caches := Function.update s.caches w (some d) }
  | parse {s : State} {w : Nat} {d : Cache} (ask : Nat → List ChatMessage → Option Text)
    (b : ContextBinding) {chunks : List Chunk} (hw : s.caches w = some d)
    (hids : ∀ c ∈ chunks, c.chunkId ≠ []) : Step s (s.parse N H w ask b d chunks)
  | write {s : State} {before after : List Returned} {p : Returned} (n : Nat)
    (hp : s.returned = before ++ p :: after) : Step s (s.write N H before p after n)
  | crash (s : State) :
    Step s { s with
      caches := fun _ => none
      returned := [] }

def Steps : State → State → Prop := Relation.ReflTransGen (Step N H equalsSchema)

def Reachable (s : State) : Prop := Steps N H equalsSchema State.fresh s

/-! ## Keys tell inputs apart -/

/-- No two of the payloads that are hashed for these chunks have one digest. -/
def Apart (xs : List (ContextBinding × Chunk)) : Prop :=
  ∀ x ∈ xs, ∀ y ∈ xs,
    (inputDigest N H (x.1.messages x.2) = inputDigest N H (y.1.messages y.2) →
      inputPayload N (x.1.messages x.2) = inputPayload N (y.1.messages y.2)) ∧
    (x.1.key N H x.2 = y.1.key N H y.2 →
      boundPayload N contextPromptVersion x.1.docSha256 x.2.chunkId x.1.model x.1.maxChars
          (inputDigest N H (x.1.messages x.2)) =
        boundPayload N contextPromptVersion y.1.docSha256 y.2.chunkId y.1.model y.1.maxChars
          (inputDigest N H (y.1.messages y.2)))

/-- Everything a context depends on. -/
structure SameInput (b : ContextBinding) (c : Chunk) (b' : ContextBinding) (c' : Chunk) : Prop where
  docSha256 : b.docSha256 = b'.docSha256
  chunkId : c.chunkId = c'.chunkId
  model : b.model = b'.model
  maxChars : b.maxChars = b'.maxChars
  messages : b.messages c = b'.messages c'

theorem encodeUtf8_injective : Function.Injective encodeUtf8 := by
  intro t u h
  have := decodeUtf8_encodeUtf8 t
  rw [h, decodeUtf8_encodeUtf8] at this
  exact (Option.some.inj this).symm

theorem inputPayload_injective {ms ms' : List ChatMessage}
    (h : inputPayload N ms = inputPayload N ms') : ms = ms' := by
  have harr := render_injective N compactStyle (encodeUtf8_injective h)
  refine List.map_injective_iff.mpr ?_ (Json.arr.inj harr)
  rintro ⟨r, c⟩ ⟨r', c'⟩ heq
  simp_all

theorem sameInput_of_key {xs : List (ContextBinding × Chunk)} (h : Apart N H xs)
    {b b' : ContextBinding} {c c' : Chunk} (hx : (b, c) ∈ xs) (hy : (b', c') ∈ xs)
    (hkey : b.key N H c = b'.key N H c') : SameInput b c b' c' := by
  obtain ⟨hinput, hbound⟩ := h _ hx _ hy
  have harr := Json.arr.inj (render_injective N plainStyle (encodeUtf8_injective (hbound hkey)))
  simp only [List.cons.injEq, PyJson.Json.str.injEq, PyJson.Json.int.injEq, Nat.cast_inj, true_and,
    and_true] at harr
  obtain ⟨hsha, hid, hmodel, hcap, hdigest⟩ := harr
  exact ⟨hsha, hid, hmodel, hcap, inputPayload_injective N (hinput hdigest)⟩

theorem Apart.mono {xs ys : List (ContextBinding × Chunk)} (h : Apart N H ys) (hsub : xs ⊆ ys) :
    Apart N H xs := fun x hx y hy => h x (hsub hx) y (hsub hy)

/-- The chunks the model was asked about. -/
def asked (calls : List Call) : List (ContextBinding × Chunk) :=
  calls.map fun c => (c.binding, c.chunk)

/-! ## Where contexts come from -/

/-- A call of this key was answered, and the context is its answer in normal form. -/
def Sourced (calls : List Call) (key context : Text) : Prop :=
  context ≠ [] ∧ ∃ call ∈ calls, ∃ content, call.answer = some content ∧
    call.binding.key N H call.chunk = key ∧
    context = normalizeContext content call.binding.maxChars

theorem Sourced.mono {calls calls' : List Call} (hsub : calls ⊆ calls') {key context : Text}
    (h : Sourced N H calls key context) : Sourced N H calls' key context := by
  obtain ⟨hne, call, hcall, rest⟩ := h
  exact ⟨hne, call, hsub hcall, rest⟩

def SourcedCache (calls : List Call) (d : Cache) : Prop :=
  ∀ key context, Dict.get d key = some context → Sourced N H calls key context

theorem SourcedCache.put {calls : List Call} {d : Cache} (h : SourcedCache N H calls d)
    {key context : Text} (hs : Sourced N H calls key context) :
    SourcedCache N H calls (Dict.put d key context) := by
  intro k v hv
  rw [Dict.get_put] at hv
  split at hv
  · next hk => rwa [hk, ← Option.some.inj hv]
  · exact h k v hv

theorem mem_put {κ ν : Type} [DecidableEq κ] {d : List (κ × ν)} {key : κ} {value : ν} {e : κ × ν}
    (h : e ∈ Dict.put d key value) : e = (key, value) ∨ e.1 ≠ key ∧ e ∈ d := by
  unfold Dict.put at h
  split at h
  · obtain ⟨x, hx, rfl⟩ := List.mem_map.mp h
    split
    · exact .inl rfl
    · next hne => exact .inr ⟨hne, hx⟩
  · next hkey =>
    rcases List.mem_append.mp h with h | h
    · exact .inr ⟨fun he => hkey (he ▸ List.mem_map_of_mem h), h⟩
    · exact .inl (List.mem_singleton.mp h)

theorem byId_concat (chunks : List Chunk) (c : Chunk) (id : Text) :
    byId (chunks ++ [c]) id = if id = c.chunkId then some c else byId chunks id := by
  rw [byId, List.foldl_append, List.foldl_cons, List.foldl_nil, Dict.get_put]
  rfl

/-- Each context is that of the chunk its id names, and comes from a call. -/
def SourcedEntries (calls : List Call) (b : ContextBinding) (chunks : List Chunk)
    (entries : List (Text × Text)) : Prop :=
  ∀ e ∈ entries, ∃ c, byId chunks e.1 = some c ∧ Sourced N H calls (b.key N H c) e.2

/-! ## Generation -/

section

variable {N H} (ask : Nat → List ChatMessage → Option Text) {b : ContextBinding}

/-- What one document has come to, after some of its chunks. -/
structure Progress (N : Floats F) (H : Hash) (calls : List Call) (b : ContextBinding)
    (seen : List Chunk) (g : Generated) : Prop where
  cache : SourcedCache N H (calls ++ callsOf b g) g.cache
  full : SourcedEntries N H (calls ++ callsOf b g) b seen g.full
  covers : ∀ c ∈ seen, ∃ context, (c.chunkId, context) ∈ g.full

theorem mem_put_self {κ ν : Type} [DecidableEq κ] (d : List (κ × ν)) (key : κ) (value : ν) :
    (key, value) ∈ Dict.put d key value := Dict.mem_of_get (Dict.get_put_self d key value)

theorem covers_put {seen : List Chunk} {full : List (Text × Text)}
    (h : ∀ c ∈ seen, ∃ context, (c.chunkId, context) ∈ full) (chunk : Chunk) (context : Text) :
    ∀ c ∈ seen ++ [chunk], ∃ x, (c.chunkId, x) ∈ Dict.put full chunk.chunkId context := by
  intro c hc
  have hkey : c.chunkId ∈ (Dict.put full chunk.chunkId context).map Prod.fst := by
    rw [Dict.keys_put]
    rcases List.mem_append.mp hc with hc | hc
    · obtain ⟨x, hx⟩ := h c hc
      have := List.mem_map_of_mem (f := Prod.fst) hx
      split <;> simp_all
    · rw [List.mem_singleton.mp hc]
      split <;> simp_all
  obtain ⟨x, hx⟩ := Dict.exists_get hkey
  exact ⟨x, Dict.mem_of_get hx⟩

theorem sourcedEntries_put {calls : List Call} {seen : List Chunk} {full : List (Text × Text)}
    (h : SourcedEntries N H calls b seen full) {chunk : Chunk} {context : Text}
    (hs : Sourced N H calls (b.key N H chunk) context) :
    SourcedEntries N H calls b (seen ++ [chunk]) (Dict.put full chunk.chunkId context) := by
  intro e he
  rcases mem_put he with rfl | ⟨hne, he⟩
  · exact ⟨chunk, by rw [byId_concat, if_pos rfl], hs⟩
  · obtain ⟨c, hc, hsource⟩ := h e he
    exact ⟨c, by rw [byId_concat, if_neg hne, hc], hsource⟩

theorem SourcedEntries.mono {calls calls' : List Call} (hsub : calls ⊆ calls') {seen : List Chunk}
    {full : List (Text × Text)} (h : SourcedEntries N H calls b seen full) :
    SourcedEntries N H calls' b seen full := fun e he => by
  obtain ⟨c, hc, hs⟩ := h e he
  exact ⟨c, hc, hs.mono N H hsub⟩

/-- One round: served from the cache, or asked for. -/
theorem Progress.step {calls : List Call} {seen : List Chunk} {g : Generated}
    (h : Progress N H calls b seen g) (chunk : Chunk) :
    let r := generateChunk N H ask b g chunk
    (r.2 = none → Progress N H calls b (seen ++ [chunk]) r.1) ∧
      (r.2 ≠ none → Progress N H calls b seen r.1) := by
  unfold generateChunk
  dsimp only
  cases hhit : (Dict.get g.cache (b.key N H chunk)).filter (usableHit b.maxChars) with
  | some hit =>
    refine ⟨fun _ => ?_, fun hr => absurd rfl hr⟩
    have hget := (Option.filter_eq_some_iff.mp hhit).1
    exact ⟨h.cache, sourcedEntries_put h.full (h.cache _ _ hget), covers_put h.covers chunk hit⟩
  | none =>
    -- the request is logged before its answer is looked at
    have hsub : ∀ answer, calls ++ callsOf b g ⊆
        calls ++ callsOf b { g with calls := g.calls ++ [(chunk, answer)] } := by
      intro answer x hx
      simp only [callsOf, List.map_append, List.mem_append] at hx ⊢
      tauto
    have hfail : ∀ answer, Progress N H calls b seen
        { g with calls := g.calls ++ [(chunk, answer)] } := fun answer =>
      ⟨fun k v hv => (h.cache k v hv).mono N H (hsub answer), h.full.mono (hsub answer), h.covers⟩
    cases hanswer : ask g.calls.length (b.messages chunk) with
    | none => exact ⟨fun hr => by simp at hr, fun _ => hfail none⟩
    | some content =>
      dsimp only
      rw [normalizeContext_complete]
      split
      · exact ⟨fun hr => by simp at hr, fun _ => hfail (some content)⟩
      · next hne =>
        refine ⟨fun _ => ?_, fun hr => absurd rfl hr⟩
        have hsource : Sourced N H
            (calls ++ callsOf b { g with calls := g.calls ++ [(chunk, some content)] })
            (b.key N H chunk) (normalizeContext content b.maxChars) :=
          ⟨hne, ⟨b, chunk, some content⟩, by simp [callsOf], content, rfl, rfl, rfl⟩
        have hf := hfail (some content)
        exact ⟨SourcedCache.put N H hf.cache hsource, sourcedEntries_put hf.full hsource,
          covers_put h.covers chunk _⟩

theorem Progress.run {calls : List Call} {seen : List Chunk} {g : Generated}
    (h : Progress N H calls b seen g) (chunks : List Chunk) :
    let r := generateFrom N H ask b g chunks
    (r.2 = none → Progress N H calls b (seen ++ chunks) r.1) ∧
      ∃ part, part <+: chunks ∧ Progress N H calls b (seen ++ part) r.1 := by
  induction chunks generalizing seen g with
  | nil =>
    rw [generateFrom, List.append_nil]
    exact ⟨fun _ => h, [], List.nil_prefix, by rwa [List.append_nil]⟩
  | cons chunk chunks ih =>
    rw [generateFrom]
    obtain ⟨hok, herr⟩ := h.step ask chunk
    rcases hr : generateChunk N H ask b g chunk with ⟨g', e⟩
    rw [hr] at hok herr
    cases e with
    | none =>
      obtain ⟨hall, part, hpart, hprogress⟩ := ih (hok rfl)
      rw [List.append_assoc, List.singleton_append] at hall
      refine ⟨hall, chunk :: part, List.cons_prefix_cons.mpr ⟨rfl, hpart⟩, ?_⟩
      rwa [List.append_assoc, List.singleton_append] at hprogress
    | some e =>
      refine ⟨fun hr => by simp at hr, [], List.nil_prefix, ?_⟩
      rw [List.append_nil]
      exact herr (by simp)

theorem progress_contexts {calls : List Call} {d : Cache} (hd : SourcedCache N H calls d)
    (chunks : List Chunk) :
    let r := generateContexts N H ask b d chunks
    (r.2 = none → Progress N H calls b chunks r.1) ∧
      ∃ part, part <+: chunks ∧ Progress N H calls b part r.1 := by
  have h : Progress N H calls b [] ⟨[], [], d, []⟩ :=
    ⟨by simpa [callsOf] using hd, by simp [SourcedEntries], by simp⟩
  simpa [generateContexts] using h.run ask chunks

end

/-! ## The invariant -/

structure Inv (s : State) : Prop where
  file : ∃ d, loadContextCache N H equalsSchema s.file = some d ∧ SourcedCache N H s.calls d
  caches : ∀ w d, s.caches w = some d → SourcedCache N H s.calls d
  returned : ∀ p ∈ s.returned, SourcedEntries N H s.calls p.binding p.chunks p.entries ∧
    (∀ c ∈ p.chunks, ∃ context, (c.chunkId, context) ∈ p.entries) ∧ ∀ c ∈ p.chunks, c.chunkId ≠ []

theorem SourcedCache.mono {calls calls' : List Call} (hsub : calls ⊆ calls') {d : Cache}
    (h : SourcedCache N H calls d) : SourcedCache N H calls' d :=
  fun k v hv => (h k v hv).mono N H hsub

theorem sourced_items {calls : List Call} {p : Returned}
    (h : SourcedEntries N H calls p.binding p.chunks p.entries) :
    ∀ e ∈ p.items, Sourced N H calls (e.key N H) e.context := by
  intro e he
  obtain ⟨x, hx, hmap⟩ := List.mem_filterMap.mp he
  obtain ⟨c, hc, rfl⟩ := Option.map_eq_some_iff.mp hmap
  obtain ⟨c', hc', hs⟩ := h x hx
  obtain rfl := Option.some.inj (hc.symm.trans hc')
  exact hs

theorem sourced_foldl {calls : List Call} {es : List Entry} {d : Cache}
    (hd : SourcedCache N H calls d) (hes : ∀ e ∈ es, Sourced N H calls (e.key N H) e.context) :
    SourcedCache N H calls (es.foldl (Entry.apply N H) d) := by
  induction es generalizing d with
  | nil => exact hd
  | cons e es ih =>
    refine ih ?_ fun x hx => hes x (List.mem_cons_of_mem e hx)
    unfold Entry.apply
    split
    · exact hd.put N H (hes e List.mem_cons_self)
    · exact hd

theorem fresh_inv : Inv N H equalsSchema State.fresh where
  file := ⟨[], rfl, fun _ _ h => by cases h⟩
  caches := fun _ _ h => by cases h
  returned := fun _ h => by cases h

theorem step_inv {s s' : State} (h : Step N H equalsSchema s s') (hi : Inv N H equalsSchema s) :
    Inv N H equalsSchema s' := by
  cases h with
  | @snapshot w d hw hload =>
    obtain ⟨d', hd', hs⟩ := hi.file
    obtain rfl := Option.some.inj (hload.symm.trans hd')
    refine ⟨hi.file, fun v e he => ?_, hi.returned⟩
    dsimp only at he
    rcases eq_or_ne v w with rfl | hv
    · rw [Function.update_self] at he
      exact Option.some.inj he ▸ hs
    · rw [Function.update_of_ne hv] at he
      exact hi.caches v e he
  | @parse w d ask b chunks hw hids =>
    have hsub : s.calls ⊆ s.calls ++ callsOf b (generateContexts N H ask b d chunks).1 :=
      List.subset_append_left _ _
    obtain ⟨hall, part, -, hpart⟩ :=
      progress_contexts ask (b := b) (hi.caches w d hw) chunks
    refine ⟨?_, fun v e he => ?_, fun p hp => ?_⟩
    · obtain ⟨d', hd', hs⟩ := hi.file
      exact ⟨d', hd', hs.mono N H hsub⟩
    · dsimp only [State.parse] at he
      rcases eq_or_ne v w with rfl | hv
      · rw [Function.update_self] at he
        exact Option.some.inj he ▸ hpart.cache
      · rw [Function.update_of_ne hv] at he
        exact (hi.caches v e he).mono N H hsub
    · have hold : p ∈ s.returned → SourcedEntries N H
            (s.calls ++ callsOf b (generateContexts N H ask b d chunks).1) p.binding p.chunks
            p.entries ∧ (∀ c ∈ p.chunks, ∃ context, (c.chunkId, context) ∈ p.entries) ∧
          ∀ c ∈ p.chunks, c.chunkId ≠ [] := fun hp =>
        ⟨(hi.returned p hp).1.mono hsub, (hi.returned p hp).2⟩
      dsimp only [State.parse] at hp ⊢
      split at hp
      · next hok =>
        rcases List.mem_append.mp hp with hp | hp
        · exact hold hp
        · rw [List.mem_singleton.mp hp]
          exact ⟨(hall hok).full, (hall hok).covers, hids⟩
      · exact hold hp
  | @write before after p n hp =>
    refine ⟨?_, hi.caches, fun q hq => hi.returned q ?_⟩
    · obtain ⟨d, hd, hs⟩ := hi.file
      refine ⟨_, load_run N H equalsSchema hd (p.append n), sourced_foldl N H hs fun e he => ?_⟩
      have hmem := (landed_begins N H equalsSchema s.file (p.append n)).subset he
      exact sourced_items N H (hi.returned p (by rw [hp]; simp)).1 e hmem
    · rw [hp]
      dsimp only [State.write] at hq
      simp only [List.mem_append, List.mem_cons] at hq ⊢
      tauto
  | crash => exact ⟨hi.file, fun _ _ h => (by cases h), fun _ h => (by cases h)⟩

theorem reachable_inv {s : State} (h : Reachable N H equalsSchema s) : Inv N H equalsSchema s := by
  induction h with
  | refl => exact fresh_inv N H equalsSchema
  | tail _ hstep ih => exact step_inv N H equalsSchema hstep ih

/-! ## What is served -/

theorem mem_byId {chunks : List Chunk} {id : Text} {c : Chunk} (h : byId chunks id = some c) :
    c ∈ chunks ∧ c.chunkId = id := by
  induction chunks using List.reverseRecOn with
  | nil => cases h
  | append_singleton chunks x ih =>
    rw [byId_concat] at h
    split at h
    · next hid =>
      obtain rfl := Option.some.inj h
      exact ⟨by simp, hid.symm⟩
    · exact ⟨List.mem_append_left _ (ih h).1, (ih h).2⟩

/-- A context that a document is given, whether served from the cache or new, is the normal form of
what the model answered, in this run, for the same chunk of the same file under the same name, cap and
messages. -/
theorem context_provenance {s : State} (h : Reachable N H equalsSchema s) {w : Nat} {d : Cache}
    (hw : s.caches w = some d) (ask : Nat → List ChatMessage → Option Text) (b : ContextBinding)
    (chunks : List Chunk)
    (hapart : Apart N H (asked (s.parse N H w ask b d chunks).calls ++ chunks.map fun c => (b, c)))
    {id context : Text}
    (hcontext : Dict.get (generateContexts N H ask b d chunks).1.full id = some context) :
    context ≠ [] ∧ context.length ≤ b.maxChars ∧ ∃ c ∈ chunks, c.chunkId = id ∧
      ∃ call ∈ (s.parse N H w ask b d chunks).calls, SameInput call.binding call.chunk b c ∧
        ∃ content, call.answer = some content ∧ context = normalizeContext content b.maxChars := by
  obtain ⟨-, part, hprefix, hpart⟩ := progress_contexts ask (b := b)
    ((reachable_inv N H equalsSchema h).caches w d hw) chunks
  obtain ⟨c, hc, hne, call, hcall, content, hanswer, hkey, hnormal⟩ :=
    hpart.full _ (Dict.mem_of_get hcontext)
  obtain ⟨hmem, hid⟩ := mem_byId hc
  have hchunk := hprefix.subset hmem
  have hsame : SameInput call.binding call.chunk b c :=
    sameInput_of_key N H hapart (List.mem_append_left _ (List.mem_map_of_mem hcall))
      (List.mem_append_right _ (List.mem_map_of_mem hchunk)) hkey
  have hcap : context = normalizeContext content b.maxChars := by rw [← hsame.maxChars, ← hnormal]
  refine ⟨hne, ?_, c, hchunk, hid, call, hcall, hsame, content, hanswer, hcap⟩
  rw [hcap]
  exact normalizeContext_length content b.maxChars

/-! ## What is not asked again -/

/-- The cache has a usable context for the chunk. -/
def Warm (d : Cache) (b : ContextBinding) (c : Chunk) : Prop :=
  ∃ hit, Dict.get d (b.key N H c) = some hit ∧ usableHit b.maxChars hit = true

variable {N H equalsSchema}

theorem Warm.put {calls : List Call} {d : Cache} {b : ContextBinding} {c : Chunk}
    (h : Warm N H d b c) (hapart : Apart N H (asked calls ++ [(b, c)])) {key context : Text}
    (hs : Sourced N H calls key context) : Warm N H (Dict.put d key context) b c := by
  by_cases hk : b.key N H c = key
  · obtain ⟨hne, call, hcall, content, -, hkey, hnormal⟩ := hs
    have hsame := sameInput_of_key N H hapart
      (List.mem_append_left _ (List.mem_map_of_mem hcall)) (List.mem_append_right _ (by simp))
      (hkey.trans hk.symm)
    refine ⟨context, by rw [hk, Dict.get_put_self], ?_⟩
    rw [hnormal] at hne ⊢
    rw [← hsame.maxChars]
    exact usableHit_normalizeContext hne
  · obtain ⟨hit, hget, husable⟩ := h
    exact ⟨hit, by rw [Dict.get_put_ne hk, hget], husable⟩

/-- A usable context is not lost to contexts from calls. -/
theorem Warm.foldl {calls : List Call} {b : ContextBinding} {c : Chunk}
    (hapart : Apart N H (asked calls ++ [(b, c)])) {α : Type} {f : Cache → α → Cache} {xs : List α}
    (hf : ∀ x ∈ xs, ∀ d, f d x = d ∨ ∃ key context, Sourced N H calls key context ∧
      f d x = Dict.put d key context) {d : Cache} (h : Warm N H d b c) :
    Warm N H (xs.foldl f d) b c := by
  induction xs generalizing d with
  | nil => exact h
  | cons x xs ih =>
    refine ih (fun y hy => hf y (List.mem_cons_of_mem x hy)) ?_
    rcases hf x List.mem_cons_self d with heq | ⟨key, context, hs, heq⟩
    · rwa [heq]
    · rw [heq]
      exact h.put hapart hs

theorem apply_eq {calls : List Call} {e : Entry} (h : Sourced N H calls (e.key N H) e.context)
    (d : Cache) : e.apply N H d = d ∨ ∃ key context, Sourced N H calls key context ∧
      e.apply N H d = Dict.put d key context := by
  unfold Entry.apply
  split
  · exact .inr ⟨_, _, h, rfl⟩
  · exact .inl rfl

section

variable (ask : Nat → List ChatMessage → Option Text) {b : ContextBinding}

theorem generateChunk_calls (g : Generated) (chunk : Chunk) :
    g.calls ⊆ (generateChunk N H ask b g chunk).1.calls := by
  unfold generateChunk
  dsimp only
  split
  · exact List.Subset.refl _
  · split
    · exact List.subset_append_left _ _
    · split <;> exact List.subset_append_left _ _

theorem generateFrom_calls (chunks : List Chunk) (g : Generated) :
    g.calls ⊆ (generateFrom N H ask b g chunks).1.calls := by
  induction chunks generalizing g with
  | nil => exact List.Subset.refl _
  | cons chunk chunks ih =>
    have hstep := generateChunk_calls (N := N) (H := H) ask (b := b) g chunk
    rw [generateFrom]
    rcases hr : generateChunk N H ask b g chunk with ⟨g', e⟩
    rw [hr] at hstep
    cases e with
    | none => exact fun x hx => ih g' (hstep hx)
    | some e => exact hstep

/-- One round leaves the cache, or puts the answer to its request. -/
theorem generateChunk_cache (g : Generated) (chunk : Chunk) :
    (generateChunk N H ask b g chunk).1.cache = g.cache ∨ ∃ key context,
      Sourced N H (callsOf b (generateChunk N H ask b g chunk).1) key context ∧
        (generateChunk N H ask b g chunk).1.cache = Dict.put g.cache key context := by
  unfold generateChunk
  dsimp only
  split
  · exact .inl rfl
  · cases ask g.calls.length (b.messages chunk) with
    | none => exact .inl rfl
    | some content =>
      dsimp only
      rw [normalizeContext_complete]
      split
      · exact .inl rfl
      · next hne =>
        exact .inr ⟨_, _, ⟨hne, ⟨b, chunk, some content⟩, by simp [callsOf], content, rfl, rfl, rfl⟩,
          rfl⟩

theorem Warm.generate {calls : List Call} {b' : ContextBinding} {c : Chunk} (chunks : List Chunk)
    {g : Generated} (hapart : Apart N H (asked calls ++ [(b', c)]))
    (hcalls : callsOf b (generateFrom N H ask b g chunks).1 ⊆ calls)
    (h : Warm N H g.cache b' c) : Warm N H (generateFrom N H ask b g chunks).1.cache b' c := by
  induction chunks generalizing g with
  | nil => exact h
  | cons chunk chunks ih =>
    have hcache := generateChunk_cache (N := N) (H := H) ask (b := b) g chunk
    have hlater := generateFrom_calls (N := N) (H := H) ask (b := b) chunks
      (generateChunk N H ask b g chunk).1
    rw [generateFrom] at hcalls ⊢
    rcases hr : generateChunk N H ask b g chunk with ⟨g', e⟩
    rw [hr] at hcache hcalls hlater
    have hsub : callsOf b g' ⊆ calls := by
      cases e with
      | none => exact fun x hx => hcalls (List.map_subset _ hlater hx)
      | some e => exact hcalls
    have hwarm : Warm N H g'.cache b' c := by
      rcases hcache with heq | ⟨key, context, hs, heq⟩
      · rwa [heq]
      · rw [heq]
        exact h.put hapart (hs.mono N H hsub)
    cases e with
    | none => exact ih hcalls hwarm
    | some e => exact hwarm

/-- With a usable context for every chunk nothing is asked, put or raised. -/
theorem generateFrom_warm (chunks : List Chunk) {g : Generated}
    (h : ∀ c ∈ chunks, Warm N H g.cache b c) :
    (generateFrom N H ask b g chunks).2 = none ∧
      (generateFrom N H ask b g chunks).1.calls = g.calls ∧
      (generateFrom N H ask b g chunks).1.new = g.new ∧
      (generateFrom N H ask b g chunks).1.cache = g.cache ∧
      ∀ id, (id ∈ g.full.map Prod.fst ∨ ∃ c ∈ chunks, c.chunkId = id) →
        id ∈ (generateFrom N H ask b g chunks).1.full.map Prod.fst := by
  induction chunks generalizing g with
  | nil => simp [generateFrom]
  | cons chunk chunks ih =>
    obtain ⟨hit, hget, husable⟩ := h chunk List.mem_cons_self
    have hround : generateChunk N H ask b g chunk =
        ({ g with full := Dict.put g.full chunk.chunkId hit }, none) := by
      rw [generateChunk, hget, Option.filter_some_pos husable]
    rw [generateFrom, hround]
    obtain ⟨h1, h2, h3, h4, h5⟩ := ih (g := { g with full := Dict.put g.full chunk.chunkId hit })
      fun c hc => h c (List.mem_cons_of_mem chunk hc)
    refine ⟨h1, h2, h3, h4, fun id hid => h5 id ?_⟩
    have hput : id ∈ (Dict.put g.full chunk.chunkId hit).map Prod.fst ↔
        id ∈ g.full.map Prod.fst ∨ id = chunk.chunkId := by
      rw [Dict.keys_put]
      split <;> simp_all
    simp only [List.mem_cons, exists_eq_or_imp] at hid
    rw [hput]
    tauto

end

theorem byId_of_nodup {chunks : List Chunk} (hd : (chunks.map Chunk.chunkId).Nodup) {c : Chunk}
    (hc : c ∈ chunks) : byId chunks c.chunkId = some c := by
  induction chunks using List.reverseRecOn with
  | nil => cases hc
  | append_singleton chunks x ih =>
    rw [List.map_append, List.nodup_append] at hd
    rw [byId_concat]
    rcases List.mem_append.mp hc with hc | hc
    · have hne : c.chunkId ≠ x.chunkId := hd.2.2 _ (List.mem_map_of_mem hc) _ (by simp)
      rw [if_neg hne, ih hd.1 hc]
    · rw [List.mem_singleton.mp hc, if_pos rfl]

/-- What a whole append leaves warm. -/
theorem warm_landed {calls : List Call} {p : Returned} {n : Nat} {file : Bytes} {d : Cache}
    (hentries : SourcedEntries N H calls p.binding p.chunks p.entries)
    (hcovers : ∀ c ∈ p.chunks, ∃ context, (c.chunkId, context) ∈ p.entries)
    (hids : ∀ c ∈ p.chunks, c.chunkId ≠ []) (hd : (p.chunks.map Chunk.chunkId).Nodup)
    (hn : (LineLog.lines (sidecar N H equalsSchema) p.items).length < n) {c : Chunk}
    (hc : c ∈ p.chunks) (hapart : Apart N H (asked calls ++ [(p.binding, c)])) :
    Warm N H (((p.append n).landed N H equalsSchema file).foldl (Entry.apply N H) d) p.binding c := by
  obtain ⟨context, hcontext⟩ := hcovers c hc
  have hwrites : (p.append n).writes = true := by
    simp only [Append.writes, Returned.append, Bool.and_eq_true, List.all_eq_true]
    refine ⟨decide_eq_true (List.ne_nil_of_mem hcontext), fun e he => ?_⟩
    obtain ⟨x, hx, -⟩ := hentries e he
    rw [hx]
    rfl
  have hsourced := sourced_items N H hentries
  have hkept : (⟨p.binding, c, context⟩ : Entry) ∈ p.items :=
    List.mem_filterMap.mpr ⟨_, hcontext, by rw [byId_of_nodup hd hc]; rfl⟩
  -- under the key of the chunk only contexts in normal form for its own cap are written
  have hnormal : ∀ e ∈ p.items, e.key N H = p.binding.key N H c → e.context ≠ [] ∧
      ∃ content, e.context = normalizeContext content p.binding.maxChars := by
    intro e he hkey
    obtain ⟨hne, call, hcall, content, -, hk, hnormal⟩ := hsourced e he
    have hsame := sameInput_of_key N H hapart
      (List.mem_append_left _ (List.mem_map_of_mem hcall)) (List.mem_append_right _ (by simp))
      (hk.trans hkey)
    exact ⟨hne, content, hsame.maxChars ▸ hnormal⟩
  have hvalid : (⟨p.binding, c, context⟩ : Entry).Valid := by
    obtain ⟨hne, content, heq⟩ := hnormal _ hkept rfl
    refine ⟨hids c hc, hne, ?_⟩
    dsimp only at heq ⊢
    rw [heq]
    exact normalizeContext_length content _
  have hlast : (lastOf N H p.items (p.binding.key N H c)).isSome = true := by
    rw [lastOf, List.getLast?_isSome]
    exact List.ne_nil_of_mem (List.mem_filter.mpr ⟨hkept, by simpa using ⟨hvalid, rfl⟩⟩)
  obtain ⟨e, he⟩ := Option.isSome_iff_exists.mp hlast
  have hmem := List.mem_of_getLast? he
  simp only [List.mem_filter, decide_eq_true_eq] at hmem
  obtain ⟨hne, content, heq⟩ := hnormal e hmem.1 hmem.2.2
  refine ⟨e.context, ?_, ?_⟩
  · rw [landed_uncut N H equalsSchema hwrites hn]
    show Dict.get (p.items.foldl (Entry.apply N H) d) _ = _
    rw [get_foldl_apply, he]
    rfl
  · rw [heq] at hne ⊢
    exact usableHit_normalizeContext hne

/-- The file has a usable context for the chunk, and so has the snapshot of a worker that took it
since. -/
def KeptWarm (N : Floats F) (H : Hash) (equalsSchema : F → Bool) (s : State) (w : Nat)
    (b : ContextBinding) (c : Chunk) : Prop :=
  (∃ d, loadContextCache N H equalsSchema s.file = some d ∧ Warm N H d b c) ∧
    ∀ d, s.caches w = some d → Warm N H d b c

theorem step_calls {s s' : State} (h : Step N H equalsSchema s s') : s.calls ⊆ s'.calls := by
  cases h with
  | snapshot => exact List.Subset.refl _
  | parse => exact List.subset_append_left _ _
  | write => exact List.Subset.refl _
  | crash => exact List.Subset.refl _

theorem steps_calls {s s' : State} (h : Steps N H equalsSchema s s') : s.calls ⊆ s'.calls := by
  induction h with
  | refl => exact List.Subset.refl _
  | tail _ hstep ih => exact fun x hx => step_calls hstep (ih hx)

theorem apart_of_calls {calls calls' : List Call} (hsub : calls ⊆ calls')
    {x : ContextBinding × Chunk} (h : Apart N H (asked calls' ++ [x])) :
    Apart N H (asked calls ++ [x]) :=
  h.mono N H (List.append_subset.mpr ⟨List.subset_append_of_subset_left [x]
    (List.map_subset (fun c : Call => (c.binding, c.chunk)) hsub), List.subset_append_right _ [x]⟩)

theorem step_kept {s s' : State} (h : Step N H equalsSchema s s') (hi : Inv N H equalsSchema s)
    {w : Nat} {b : ContextBinding} {c : Chunk} (hapart : Apart N H (asked s'.calls ++ [(b, c)]))
    (hk : KeptWarm N H equalsSchema s w b c) : KeptWarm N H equalsSchema s' w b c := by
  obtain ⟨⟨d₀, hd₀, hwarm⟩, hcache⟩ := hk
  cases h with
  | @snapshot v d hv hload =>
    refine ⟨⟨d₀, hd₀, hwarm⟩, fun e he => ?_⟩
    dsimp only at he
    rcases eq_or_ne w v with rfl | hne
    · rw [Function.update_self] at he
      rw [← Option.some.inj he, Option.some.inj (hload.symm.trans hd₀)]
      exact hwarm
    · rw [Function.update_of_ne hne] at he
      exact hcache e he
  | @parse v d ask b' chunks hv hids =>
    refine ⟨⟨d₀, hd₀, hwarm⟩, fun e he => ?_⟩
    dsimp only [State.parse] at he
    rcases eq_or_ne w v with rfl | hne
    · rw [Function.update_self] at he
      rw [← Option.some.inj he]
      exact Warm.generate ask chunks hapart (List.subset_append_right _ _) (hcache d hv)
    · rw [Function.update_of_ne hne] at he
      exact hcache e he
  | @write before after p n hp =>
    refine ⟨⟨_, load_run N H equalsSchema hd₀ (p.append n), ?_⟩, hcache⟩
    refine Warm.foldl hapart (fun e he d => apply_eq ?_ d) hwarm
    exact sourced_items N H (hi.returned p (by rw [hp]; simp)).1 e
      ((landed_begins N H equalsSchema s.file (p.append n)).subset he)
  | crash => exact ⟨⟨d₀, hd₀, hwarm⟩, fun _ h => (by cases h)⟩

theorem steps_kept {s s' : State} (h : Steps N H equalsSchema s s')
    (hi : Inv N H equalsSchema s) {w : Nat} {b : ContextBinding} {c : Chunk}
    (hapart : Apart N H (asked s'.calls ++ [(b, c)])) (hk : KeptWarm N H equalsSchema s w b c) :
    Inv N H equalsSchema s' ∧ KeptWarm N H equalsSchema s' w b c := by
  induction h with
  | refl => exact ⟨hi, hk⟩
  | tail _ hstep ih =>
    obtain ⟨hi', hk'⟩ := ih (apart_of_calls (step_calls hstep) hapart)
    exact ⟨step_inv N H equalsSchema hstep hi', step_kept hstep hi' hapart hk'⟩

/-- Once the contexts of a document were appended whole, a worker that takes its snapshot later gives
the document its contexts without a request, whatever the model would answer, and whatever other
documents, torn appends and crashes came in between. -/
theorem reingest_without_requests {s s' : State} (h : Reachable N H equalsSchema s)
    {before after : List Returned} {p : Returned} {n : Nat} (hp : s.returned = before ++ p :: after)
    (hn : (LineLog.lines (sidecar N H equalsSchema) p.items).length < n)
    (hd : (p.chunks.map Chunk.chunkId).Nodup)
    (hrun : Steps N H equalsSchema (s.write N H before p after n) s') {w : Nat}
    (hw : s.caches w = none) {d : Cache} (hcache : s'.caches w = some d)
    (hapart : Apart N H (asked s'.calls ++ p.chunks.map fun c => (p.binding, c)))
    (ask : Nat → List ChatMessage → Option Text) :
    (generateContexts N H ask p.binding d p.chunks).2 = none ∧
      (generateContexts N H ask p.binding d p.chunks).1.calls = [] ∧
      (generateContexts N H ask p.binding d p.chunks).1.cache = d ∧
      ∀ c ∈ p.chunks, c.chunkId ∈
        (generateContexts N H ask p.binding d p.chunks).1.full.map Prod.fst := by
  have hi := reachable_inv N H equalsSchema h
  have hwrite : Step N H equalsSchema s (s.write N H before p after n) := .write n hp
  have hmem : p ∈ s.returned := by
    rw [hp]
    simp
  obtain ⟨hentries, hcovers, hids⟩ := hi.returned p hmem
  have hwarm : ∀ c ∈ p.chunks, Warm N H d p.binding c := by
    intro c hc
    have hone : Apart N H (asked s'.calls ++ [(p.binding, c)]) := by
      refine hapart.mono N H fun x hx => ?_
      simp only [List.mem_append, List.mem_singleton] at hx ⊢
      rcases hx with hx | rfl
      · exact .inl hx
      · exact .inr (List.mem_map_of_mem hc)
    have hbefore := apart_of_calls (steps_calls (Relation.ReflTransGen.head hwrite hrun)) hone
    obtain ⟨d₀, hd₀, -⟩ := hi.file
    have hfile : KeptWarm N H equalsSchema (s.write N H before p after n) w p.binding c :=
      ⟨⟨_, load_run N H equalsSchema hd₀ (p.append n),
        warm_landed hentries hcovers hids hd hn hc hbefore⟩,
        fun e he => by
          rw [show (s.write N H before p after n).caches w = s.caches w from rfl, hw] at he
          cases he⟩
    exact (steps_kept hrun (step_inv N H equalsSchema hwrite hi) hone hfile).2.2 d hcache
  obtain ⟨h1, h2, -, h4, h5⟩ := generateFrom_warm ask p.chunks
    (g := ⟨[], [], d, []⟩) hwarm
  exact ⟨h1, h2, h4, fun c hc => h5 _ (.inr ⟨c, hc, rfl⟩)⟩

/-! ## A concrete run -/

/-- One document of one chunk, and a model that answers with one letter. -/
def answered (_ : Nat) (_ : List ChatMessage) : Option Text := some ['x']

def snapshotTaken : State :=
  { State.fresh with caches := Function.update State.fresh.caches 0 (some []) }

theorem snapshotTaken_reachable :
    Reachable halves flatHash (fun _ => false) snapshotTaken :=
  Relation.ReflTransGen.single (.snapshot rfl rfl)

theorem guide_apart {xs : List (ContextBinding × Chunk)} (h : ∀ x ∈ xs, x = (guide, guideChunk)) :
    Apart halves flatHash xs := by
  intro x hx y hy
  rw [h x hx, h y hy]
  exact ⟨fun _ => rfl, fun _ => rfl⟩

theorem generate_guide : generateContexts halves flatHash answered guide [] [guideChunk] =
    (⟨[(guideChunk.chunkId, ['x'])], [(guideChunk.chunkId, ['x'])],
      [(guide.key halves flatHash guideChunk, ['x'])], [(guideChunk, some ['x'])]⟩, none) := by
  have hnormal : normalizeContext ['x'] guide.maxChars = ['x'] := by decide
  simp [generateContexts, generateFrom, generateChunk, answered, complete, hnormal, Dict.put]

theorem context_provenance_guide :
    (['x'] : Text) ≠ [] ∧ (['x'] : Text).length ≤ guide.maxChars ∧
      ∃ c ∈ [guideChunk], c.chunkId = guideChunk.chunkId ∧
        ∃ call ∈ (snapshotTaken.parse halves flatHash 0 answered guide [] [guideChunk]).calls,
          SameInput call.binding call.chunk guide c ∧ ∃ content, call.answer = some content ∧
            ['x'] = normalizeContext content guide.maxChars :=
  context_provenance halves flatHash (fun _ => false) snapshotTaken_reachable (w := 0) (d := [])
    rfl answered guide [guideChunk]
    (guide_apart (by
      simp [State.parse, snapshotTaken, State.fresh, callsOf, asked, generate_guide]))
    (by rw [generate_guide]; simp [Dict.get])

def guideReturned : Returned := ⟨guide, [guideChunk], [(guideChunk.chunkId, ['x'])]⟩

def guideParsed : State := snapshotTaken.parse halves flatHash 0 answered guide [] [guideChunk]

theorem guideParsed_reachable : Reachable halves flatHash (fun _ => false) guideParsed :=
  snapshotTaken_reachable.tail (.parse answered guide rfl (by
    intro c hc
    rw [List.mem_singleton.mp hc]
    decide))

theorem reingest_guide : ∃ n d,
    loadContextCache halves flatHash (fun _ => false)
        (guideParsed.write halves flatHash [] guideReturned [] n).file = some d ∧
      (generateContexts halves flatHash (fun _ _ => none) guide d [guideChunk]).2 = none ∧
      (generateContexts halves flatHash (fun _ _ => none) guide d [guideChunk]).1.calls = [] ∧
      (generateContexts halves flatHash (fun _ _ => none) guide d [guideChunk]).1.cache = d ∧
      ∀ c ∈ [guideChunk], c.chunkId ∈
        (generateContexts halves flatHash (fun _ _ => none) guide d [guideChunk]).1.full.map
          Prod.fst := by
  have hreturned : guideParsed.returned = [] ++ guideReturned :: [] := by
    simp [guideParsed, State.parse, generate_guide, snapshotTaken, State.fresh, guideReturned]
  obtain ⟨n, hn⟩ := exists_gt
    (LineLog.lines (sidecar halves flatHash fun _ => false) guideReturned.items).length
  have hwritten := step_inv halves flatHash (fun _ => false) (.write n hreturned)
    (reachable_inv halves flatHash (fun _ => false) guideParsed_reachable)
  obtain ⟨d, hd, -⟩ := hwritten.file
  refine ⟨n, d, hd, reingest_without_requests guideParsed_reachable hreturned hn
    (by simp [guideReturned]) (Relation.ReflTransGen.single (.snapshot (w := 1) ?_ hd))
    (w := 1) ?_ ?_ (guide_apart ?_) _⟩
  · simp [State.write, guideParsed, State.parse, snapshotTaken, State.fresh]
  · simp [guideParsed, State.parse, snapshotTaken, State.fresh]
  · simp
  · simp [guideReturned, State.write, guideParsed, State.parse, snapshotTaken, State.fresh, callsOf,
      asked, generate_guide]

end MainframeRag.Ingest.Context
