import MainframeRag.Ingest.Chunking.Chunks

/-!
# Unit spans from ingest to prompt

`point_payload` stores a chunk's unit spans, `_parse_unit_spans` reads them back from the stored
payload, and `_hit_spans` validates them against the stripped text before the prompt packer uses
them. The writer measures the joined block text: `unitsSurvive_iff` says that the spans come back
exactly when stripping that text changes nothing.
-/

namespace MainframeRag.Ingest.Chunking

open PyText

/-! ## The payload -/

/-- A stored payload value, as far as the readers tell values apart. -/
inductive Json
  | null
  | bool (b : Bool)
  | int (i : Int)
  | str (t : Text)
  | arr (xs : List Json)
  | other

def UnitKind.text : UnitKind → Text
  | .atomic => "atomic".toList
  | .prose => "prose".toList

structure PointPayload where
  vendor : Text
  product : Option Text
  version : Option Text
  docId : Text
  sourceRev : Text
  title : Text
  headingPath : Text
  pageLabel : Text
  pageStart : Nat
  pageEnd : Nat
  chunkType : Text
  messageIds : List Text
  members : List Text
  systemCodes : List Text
  sha256 : Text
  rulesV : Text
  text : Text
  /-- absent for prose and unbounded chunks -/
  units : Option Json
  context : Option Text

def unitsJson (units : List UnitSpan) : Json :=
  .arr (units.map fun s => .arr [.int s.start, .int s.stop, .str s.kind.text])

def pointPayload (U : CharTables) (parsed : ParsedDoc) (chunk : Chunk) (rulesV : Text)
    (context : Option Text) : PointPayload where
  vendor := parsed.vendor
  product := parsed.product
  version := parsed.version
  docId := chunk.docId
  sourceRev := sourceRevKey U (some parsed.vendor) parsed.product parsed.version parsed.sha256
  title := parsed.title
  headingPath := chunk.headingPath
  pageLabel := chunk.pageLabel
  pageStart := chunk.pageStart
  pageEnd := chunk.pageEnd
  chunkType := chunk.chunkType
  messageIds := chunk.messageIds
  members := chunk.members
  systemCodes := chunk.systemCodes
  sha256 := parsed.sha256
  rulesV := rulesV
  text := chunk.text
  units := match chunk.units with
    | none => none
    | some [] => none
    | some units => some (unitsJson units)
  context := context.bind (fun c => if c = [] then none else some c)

/-! ## Reading the spans -/

def parseUnitSpan : Json → Option (Int × Int × Text)
  | .arr [.int start, .int stop, .str kind] =>
    if (kind = "atomic".toList ∨ kind = "prose".toList) ∧ 0 ≤ start ∧ start ≤ stop then
      some (start, stop, kind)
    else none
  | _ => none

/-- `_parse_unit_spans` of `payload.get("units")` -/
def parseUnitSpans : Option Json → Option (List (Int × Int × Text))
  | some (.arr entries) => entries.mapM parseUnitSpan
  | _ => none

/-- Locates the parts in order, each behind the one before. -/
def locateParts (stripped : Text) : Nat → List (Text × UnitKind) → Option (List UnitSpan)
  | _, [] => some []
  | cursor, (part, kind) :: parts =>
    match find stripped part cursor with
    | none => none
    | some pos =>
      (locateParts stripped (pos + part.length) parts).map (⟨pos, pos + part.length, kind⟩ :: ·)

def unitsForText (U : CharTables) (t : Text) : List UnitSpan :=
  let stripped := strip t
  let located := fun parts => (locateParts stripped 0 parts).getD []
  if stripped = [] then []
  else match codeStatements U stripped with
    | some statements => located (statements.map (·, .atomic))
    | none =>
      if detectTableRegion U stripped then
        located ((nonblankLines stripped).map (·, .atomic))
      else
        let items := mixedJclItems stripped
        if 1 < items.length ∨ items.any (·.2) then
          located (items.map fun i => (i.1, if i.2 then .atomic else .prose))
        else []

def unitKind (kind : Text) : Option UnitKind :=
  if kind = "atomic".toList then some .atomic
  else if kind = "prose".toList then some .prose
  else none

/-- The validation loop of `_hit_spans`; `none` rejects the stored spans. -/
def validSpans (len : Nat) : Int → List (Int × Int × Text) → Option (List UnitSpan)
  | _, [] => some []
  | cursor, (start, stop, kind) :: spans =>
    match unitKind kind with
    | none => none
    | some k =>
      if 0 ≤ start ∧ start ≤ stop ∧ stop ≤ len ∧ cursor ≤ start then
        (validSpans len stop spans).map (⟨start.toNat, stop.toNat, k⟩ :: ·)
      else none

def hitSpans (U : CharTables) (units : Option (List (Int × Int × Text))) (stripped : Text) :
    List UnitSpan :=
  match units.bind (validSpans stripped.length 0) with
  | some spans => spans
  | none => unitsForText U stripped

/-! ## Spans tile the joined text -/

/-- The text a span selects. -/
def UnitSpan.select {α : Type} (s : UnitSpan) (t : List α) : List α := (t.take s.stop).drop s.start

/-- The spans follow each other from `cursor` on and the last one ends at `stop`. -/
inductive Tiles (stop : Nat) : Nat → List UnitSpan → Prop
  | last (cursor : Nat) (s : UnitSpan) :
      cursor ≤ s.start → s.start ≤ s.stop → s.stop = stop → Tiles stop cursor [s]
  | cons (cursor : Nat) (s : UnitSpan) (spans : List UnitSpan) :
      cursor ≤ s.start → s.start ≤ s.stop → Tiles stop s.stop spans → Tiles stop cursor (s :: spans)

theorem Tiles.stop_mem {stop cursor : Nat} {spans : List UnitSpan} (h : Tiles stop cursor spans) :
    cursor ≤ stop ∧ ∃ s ∈ spans, s.stop = stop := by
  induction h with
  | last c s h1 h2 h3 => exact ⟨by omega, s, by simp, h3⟩
  | cons c s spans h1 h2 _ ih =>
    obtain ⟨h3, x, hx, e⟩ := ih
    exact ⟨by omega, x, by simp [hx], e⟩

def spanEntry (s : UnitSpan) : Int × Int × Text := (s.start, s.stop, s.kind.text)

theorem unitKind_text (k : UnitKind) : unitKind k.text = some k := by cases k <;> rfl

/-- Tiling spans pass the validation exactly when they end inside the stripped text. -/
theorem validSpans_tiles {stop cursor : Nat} {spans : List UnitSpan}
    (h : Tiles stop cursor spans) (len : Nat) :
    validSpans len cursor (spans.map spanEntry) = if stop ≤ len then some spans else none := by
  induction h with
  | last c s h1 h2 h3 =>
    simp only [List.map_cons, List.map_nil, spanEntry, validSpans, unitKind_text]
    by_cases hl : stop ≤ len
    · rw [if_pos (by omega), if_pos hl]
      simp
    · rw [if_neg (by omega), if_neg hl]
  | cons c s spans h1 h2 ht ih =>
    have hs := ht.stop_mem.1
    simp only [List.map_cons, spanEntry, validSpans, unitKind_text] at ih ⊢
    by_cases hl : stop ≤ len
    · rw [if_pos (by omega), ih, if_pos hl, if_pos hl]
      simp
    · rw [ih, if_neg hl, if_neg hl]
      split <;> rfl

section

variable {α : Type} (nl : α)

theorem select_append (pre t post : List α) (k : UnitKind) :
    UnitSpan.select ⟨pre.length, pre.length + t.length, k⟩ (pre ++ t ++ post) = t := by
  have h : pre.length + t.length = (pre ++ t).length := by simp
  rw [UnitSpan.select, h, List.take_left, List.drop_left]

/-- Behind `pre`, the spans of the next items select their texts. -/
theorem rest_select (pre : List α) (prev : Bool) (items : List (Item α)) :
    (List.zipWith itemSpan items (offsetsRest nl pre.length prev items)).map
      (fun s => s.select (pre ++ joinRest nl prev items)) = items.map Item.text := by
  induction items generalizing pre prev with
  | nil => rfl
  | cons it items ih =>
    have hpre : pre.length + (separator nl prev it).length = (pre ++ separator nl prev it).length := by
      simp
    have hpos : (pre ++ separator nl prev it).length + it.text.length =
        (pre ++ separator nl prev it ++ it.text).length := by simp only [List.length_append]
    have htext : pre ++ joinRest nl prev (it :: items) =
        pre ++ separator nl prev it ++ it.text ++ joinRest nl it.atomic items := by
      simp [joinRest]
    have := ih (pre ++ separator nl prev it ++ it.text) it.atomic
    simp only [offsetsRest, List.zipWith_cons_cons, List.map_cons, htext]
    rw [hpre, hpos, this, itemSpan, select_append]

theorem rest_tiles (pos : Nat) (prev : Bool) (it : Item α) (items : List (Item α)) :
    Tiles (pos + (joinRest nl prev (it :: items)).length) pos
      (List.zipWith itemSpan (it :: items) (offsetsRest nl pos prev (it :: items))) := by
  induction items generalizing pos prev it with
  | nil =>
    refine .last _ _ (by simp [itemSpan]) (by simp [itemSpan]) ?_
    simp [itemSpan, joinRest]
    omega
  | cons i items ih =>
    have h := ih (pos + (separator nl prev it).length + it.text.length) it.atomic i
    refine .cons _ _ _ (by simp [itemSpan]) (by simp [itemSpan]) ?_
    have e : pos + (joinRest nl prev (it :: i :: items)).length =
        pos + (separator nl prev it).length + it.text.length +
          (joinRest nl it.atomic (i :: items)).length := by
      rw [joinRest]
      simp only [List.length_append]
      omega
    rw [e]
    exact h

theorem itemSpans_select (items : List (Item α)) :
    (itemSpans items (joinOffsets nl items)).map (fun s => s.select (joinText nl items)) =
      items.map Item.text := by
  cases items with
  | nil => rfl
  | cons it items =>
    have h0 := select_append ([] : List α) it.text (joinRest nl it.atomic items)
      (if it.atomic then .atomic else .prose)
    have hr := rest_select nl it.text it.atomic items
    simp only [List.length_nil, List.nil_append] at h0
    simp only [itemSpans, joinOffsets, joinText, List.zipWith_cons_cons, List.map_cons, hr]
    rw [itemSpan, h0]

theorem itemSpans_tiles {items : List (Item α)} (h : items ≠ []) :
    Tiles (joinText nl items).length 0 (itemSpans items (joinOffsets nl items)) := by
  rcases items with _ | ⟨it, _ | ⟨i, items⟩⟩
  · exact absurd rfl h
  · exact .last _ _ (Nat.zero_le _) (by simp [itemSpan]) (by simp [itemSpan, joinText, joinRest])
  · refine .cons _ _ _ (Nat.zero_le _) (by simp [itemSpan]) ?_
    have := rest_tiles nl it.text.length it.atomic i items
    simpa [joinText, itemSpan] using this

/-- The items a block was made of. -/
def Emission.items : Emission α → List (Item α)
  | .joined items => items
  | .whole it => [it]
  | .slice _ _ => []

theorem Emission.select_spans (e : Emission α) :
    (e.block nl).spans.map (fun s => s.select (e.block nl).text) = e.items.map Item.text := by
  cases e with
  | joined items => exact itemSpans_select nl items
  | whole it => simp [block, items, UnitSpan.select]
  | slice p t => rfl

theorem Emission.tiles_spans {e : Emission α} (h : (e.block nl).spans ≠ []) :
    Tiles (e.block nl).text.length 0 (e.block nl).spans := by
  cases e with
  | joined items =>
    refine itemSpans_tiles nl ?_
    rintro rfl
    exact h rfl
  | whole it => exact .last _ _ (Nat.zero_le _) (Nat.zero_le _) rfl
  | slice p t => exact absurd rfl h

end

/-! ## Redetected spans -/

theorem findAt_bound {sub t : Text} {i k : Nat} (h : findAt sub t i = some k) :
    k + sub.length ≤ i + t.length := by
  induction t generalizing i with
  | nil =>
    simp only [findAt] at h
    split at h
    · next e => cases h; simp [e]
    · cases h
  | cons c t ih =>
    simp only [findAt] at h
    split at h
    · next e =>
      cases h
      have := (List.isPrefixOf_iff_prefix.mp e).length_le
      omega
    · have := ih h
      simp only [List.length_cons]
      omega

theorem find_bound {t sub : Text} {start k : Nat} (h : find t sub start = some k) :
    k + sub.length ≤ t.length := by
  unfold find at h
  split at h
  · have := findAt_bound h
    rw [List.length_drop] at this
    omega
  · cases h

theorem locateParts_bound {stripped : Text} {cursor : Nat} {parts : List (Text × UnitKind)}
    {spans : List UnitSpan} (h : locateParts stripped cursor parts = some spans) :
    ∀ s ∈ spans, s.stop ≤ stripped.length := by
  induction parts generalizing cursor spans with
  | nil => cases h; simp
  | cons p parts ih =>
    obtain ⟨part, kind⟩ := p
    simp only [locateParts] at h
    cases hf : find stripped part cursor with
    | none => simp [hf] at h
    | some pos =>
      simp only [hf, Option.map_eq_some_iff] at h
      obtain ⟨rest, hr, rfl⟩ := h
      intro s hs
      rcases List.mem_cons.mp hs with rfl | hs
      · exact find_bound hf
      · exact ih hr s hs

theorem strip_length_le (t : Text) : (strip t).length ≤ t.length := by
  obtain ⟨v, w, -, -, e⟩ := strip_spec t
  have := congrArg List.length e
  simp only [List.length_append] at this
  omega

theorem strip_eq_of_length {t : Text} (h : t.length ≤ (strip t).length) : strip t = t := by
  obtain ⟨v, w, -, -, e⟩ := strip_spec t
  have hl := congrArg List.length e
  simp only [List.length_append] at hl
  have hv : v = [] := List.length_eq_zero_iff.mp (by omega)
  have hw : w = [] := List.length_eq_zero_iff.mp (by omega)
  rw [hv, hw] at e
  simpa using e.symm

theorem unitsForText_bound (U : CharTables) (t : Text) :
    ∀ s ∈ unitsForText U t, s.stop ≤ t.length := by
  have hloc : ∀ parts, ∀ s ∈ (locateParts (strip t) 0 parts).getD [], s.stop ≤ t.length := by
    intro parts s hs
    cases h : locateParts (strip t) 0 parts with
    | none => simp [h] at hs
    | some spans =>
      rw [h, Option.getD_some] at hs
      exact (locateParts_bound h s hs).trans (strip_length_le t)
  unfold unitsForText
  simp only
  split
  · simp
  · split
    · exact hloc _
    · split
      · exact hloc _
      · split
        · exact hloc _
        · simp

/-! ## The round trip -/

/-- `c` is the chunk of a block the document's pages were cut into. -/
def StemsFrom (U : CharTables) (X : Extractors) (parsed : ParsedDoc) (pageTexts : List Text)
    (labels : List (Option Text)) (c : Chunk) (e : Emission Char) : Prop :=
  ∃ s ordinal, (s, ordinal, e) ∈ docBlocks U parsed pageTexts ∧
    chunkOf U X parsed pageTexts labels s ordinal e = some c

theorem mem_of_mapM {α β : Type} {f : α → Option β} {xs : List α} {ys : List β}
    (h : xs.mapM f = some ys) {y : β} (hy : y ∈ ys) : ∃ x ∈ xs, f x = some y := by
  induction xs generalizing ys with
  | nil =>
    simp only [List.mapM_nil, Option.pure_def, Option.some.injEq] at h
    simp [← h] at hy
  | cons x xs ih =>
    simp only [List.mapM_cons, Option.bind_eq_bind, Option.bind_eq_some_iff, Option.pure_def,
      Option.some.injEq] at h
    obtain ⟨z, hz, zs, hzs, rfl⟩ := h
    rcases List.mem_cons.mp hy with rfl | hy
    · exact ⟨x, by simp, hz⟩
    · obtain ⟨w, hw, e⟩ := ih hzs hy
      exact ⟨w, by simp [hw], e⟩

/-- Every chunk stems from a block. -/
theorem stemsFrom_of_mem {U : CharTables} {X : Extractors} {parsed : ParsedDoc}
    {pageTexts : List Text} {labels : List (Option Text)} {chunks : List Chunk}
    (h : makeChunks U X parsed pageTexts labels = some chunks) {c : Chunk} (hc : c ∈ chunks) :
    ∃ e, StemsFrom U X parsed pageTexts labels c e := by
  obtain ⟨⟨s, ordinal, e⟩, hm, he⟩ := mem_of_mapM h hc
  exact ⟨e, s, ordinal, hm, he⟩

theorem StemsFrom.text_eq {U : CharTables} {X : Extractors} {parsed : ParsedDoc}
    {pageTexts : List Text} {labels : List (Option Text)} {c : Chunk} {e : Emission Char}
    (h : StemsFrom U X parsed pageTexts labels c e) :
    c.text = (e.block '\n').text ∧ c.units = storedSpans (e.block '\n').spans := by
  obtain ⟨s, ordinal, -, hc⟩ := h
  obtain ⟨l, -, rfl⟩ := Option.map_eq_some_iff.mp hc
  exact ⟨rfl, rfl⟩

theorem parseUnitSpans_unitsJson (spans : List UnitSpan) (h : ∀ s ∈ spans, s.start ≤ s.stop) :
    parseUnitSpans (some (unitsJson spans)) = some (spans.map spanEntry) := by
  have hk : ∀ k : UnitKind, k.text = "atomic".toList ∨ k.text = "prose".toList := by
    intro k
    cases k with
    | atomic => exact .inl rfl
    | prose => exact .inr rfl
  simp only [parseUnitSpans, unitsJson]
  induction spans with
  | nil => rfl
  | cons s spans ih =>
    have hs := h s (by simp)
    simp only [List.map_cons, List.mapM_cons, ih (fun x hx => h x (by simp [hx])), parseUnitSpan]
    rw [if_pos ⟨hk s.kind, by omega, by omega⟩]
    rfl

theorem Tiles.start_le {stop cursor : Nat} {spans : List UnitSpan} (h : Tiles stop cursor spans) :
    ∀ s ∈ spans, s.start ≤ s.stop := by
  induction h with
  | last c s h1 h2 h3 => simpa using h2
  | cons c s spans h1 h2 _ ih =>
    intro x hx
    rcases List.mem_cons.mp hx with rfl | hx
    · exact h2
    · exact ih x hx

theorem storedSpans_eq {spans units : List UnitSpan} (h : storedSpans spans = some units)
    (hne : units ≠ []) : units = spans := by
  unfold storedSpans at h
  split at h
  · split at h
    · cases h
    · cases h; rfl
  · cases h; exact absurd rfl hne

/-- Storing the chunk and reading it back gives its units, and each selects its item's text. -/
def UnitsSurvive (U : CharTables) (parsed : ParsedDoc) (c : Chunk) (e : Emission Char)
    (rulesV : Text) (context : Option Text) : Prop :=
  let payload := pointPayload U parsed c rulesV context
  let stripped := strip payload.text
  some (hitSpans U (parseUnitSpans payload.units) stripped) = c.units ∧
    (c.units.getD []).map (fun s => s.select stripped) = e.items.map Item.text

theorem StemsFrom.survive_iff {U : CharTables} {X : Extractors} {parsed : ParsedDoc}
    {pageTexts : List Text} {labels : List (Option Text)} {c : Chunk} {e : Emission Char}
    (he : StemsFrom U X parsed pageTexts labels c e) {units : List UnitSpan}
    (hu : c.units = some units) (hne : units ≠ []) (rulesV : Text) (context : Option Text) :
    UnitsSurvive U parsed c e rulesV context ↔ strip c.text = c.text := by
  obtain ⟨ht, hs⟩ := he.text_eq
  rw [hu] at hs
  have hspans := storedSpans_eq hs.symm hne
  have hsel := e.select_spans '\n'
  have htile := e.tiles_spans '\n' (by rw [← hspans]; exact hne)
  rw [← hspans, ← ht] at htile hsel
  have hpay : (pointPayload U parsed c rulesV context).units = some (unitsJson units) := by
    obtain ⟨u, us, rfl⟩ := List.exists_cons_of_ne_nil hne
    simp [pointPayload, hu]
  have hparse : parseUnitSpans (some (unitsJson units)) = some (units.map spanEntry) :=
    parseUnitSpans_unitsJson units htile.start_le
  have hvalid := validSpans_tiles htile (strip c.text).length
  simp only [UnitsSurvive, hpay, hparse, hu, Option.getD_some, hitSpans, Option.bind_some]
  show some _ = some units ∧ _ ↔ _
  have hcast : ((0 : Nat) : Int) = 0 := rfl
  rw [hcast] at hvalid
  rw [show strip (pointPayload U parsed c rulesV context).text = strip c.text from rfl, hvalid]
  constructor
  · rintro ⟨h, -⟩
    by_contra hst
    have hlt : (strip c.text).length < c.text.length := by
      by_contra hle
      exact hst (strip_eq_of_length (by omega))
    rw [if_neg (by omega), Option.some.injEq] at h
    obtain ⟨-, s, hm, hstop⟩ := htile.stop_mem
    have hre : unitsForText U (strip c.text) = units := h
    have := unitsForText_bound U (strip c.text) s (by rw [hre]; exact hm)
    omega
  · intro hst
    rw [hst, if_pos (Nat.le_refl _)]
    exact ⟨rfl, hsel⟩

/-- The units of a chunk survive exactly when its text has no blank at either end. -/
theorem unitsSurvive_iff {U : CharTables} {X : Extractors} {parsed : ParsedDoc}
    {pageTexts : List Text} {labels : List (Option Text)} {chunks : List Chunk} {c : Chunk}
    (h : makeChunks U X parsed pageTexts labels = some chunks) (hc : c ∈ chunks)
    {units : List UnitSpan} (hu : c.units = some units) (hne : units ≠ []) (rulesV : Text)
    (context : Option Text) :
    ∃ e, StemsFrom U X parsed pageTexts labels c e ∧
      (UnitsSurvive U parsed c e rulesV context ↔ strip c.text = c.text) := by
  obtain ⟨e, he⟩ := stemsFrom_of_mem h hc
  exact ⟨e, he, he.survive_iff hu hne rulesV context⟩

/-! ## Two tables -/

/-- Extractors for a document without identifiers. -/
def plainExtractors : Extractors where
  uuid5 key := key
  classify _ := "table".toList
  findMessageIds _ := []
  findMembers _ := []

def tableDoc : ParsedDoc where
  path := "t.pdf".toList
  sha256 := []
  docId := []
  title := "T".toList
  pageCount := 1

def smallTable : Text := "aa  bb\ncc  dd".toList

theorem smallTable_chunks :
    (makeChunks asciiTables plainExtractors tableDoc [smallTable] []).map
      (fun cs => cs.map (fun c => (c.text, c.units))) =
        some [(smallTable, some [⟨0, 6, .atomic⟩, ⟨7, 13, .atomic⟩])] := by
  decide +kernel

/-- The rows of a small table come back. -/
theorem smallTable_units_survive : ∃ c e,
    StemsFrom asciiTables plainExtractors tableDoc [smallTable] [] c e ∧
      UnitsSurvive asciiTables tableDoc c e [] none := by
  obtain ⟨cs, hm, hcs⟩ := Option.map_eq_some_iff.mp smallTable_chunks
  obtain ⟨c, rest, rfl, hc, hr⟩ := List.map_eq_cons_iff.mp hcs
  rw [Prod.mk.injEq] at hc
  obtain ⟨e, he, hiff⟩ := unitsSurvive_iff hm (List.mem_cons_self) hc.2 (by simp) [] none
  exact ⟨c, e, he, hiff.mpr (by rw [hc.1]; decide)⟩

/-- Rows of 100 characters, each with a trailing blank. -/
def tableRow : Text := "aa  ".toList ++ List.replicate 95 'b' ++ [' ']

def longTable : Text := joinLines (List.replicate 36 tableRow)

/-- The first block of the table ends with the blank of its last row. -/
theorem longTable_chunks :
    (makeChunks asciiTables plainExtractors tableDoc [longTable] []).map
      (fun cs => cs.map (fun c => (c.text.getLast?, c.units.map List.length))) =
        some [(some ' ', some 34), (some 'b', some 5)] := by
  decide +kernel

theorem trailing_blank_loses_units :
    ¬∀ U X parsed pageTexts labels chunks c e units rulesV context,
      makeChunks U X parsed pageTexts labels = some chunks → c ∈ chunks →
        StemsFrom U X parsed pageTexts labels c e → c.units = some units → units ≠ [] →
          UnitsSurvive U parsed c e rulesV context := by
  intro h
  obtain ⟨cs, hm, hcs⟩ := Option.map_eq_some_iff.mp longTable_chunks
  obtain ⟨c, rest, rfl, hc, -⟩ := List.map_eq_cons_iff.mp hcs
  rw [Prod.mk.injEq] at hc
  obtain ⟨units, hu, hlen⟩ := Option.map_eq_some_iff.mp hc.2
  have hne : units ≠ [] := by rintro rfl; cases hlen
  obtain ⟨e, he⟩ := stemsFrom_of_mem hm (List.mem_cons_self)
  have hs := h _ _ _ _ _ _ c e units [] none hm (List.mem_cons_self) he hu hne
  rw [he.survive_iff hu hne] at hs
  rw [← hs] at hc
  exact absurd (strip_getLast hc.1) (by decide)

end MainframeRag.Ingest.Chunking
