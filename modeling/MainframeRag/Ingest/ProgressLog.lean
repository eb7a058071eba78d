import MainframeRag.Ingest.Inventory

/-!
# Appends to the progress log

What `append_record` leaves for the next `load_inventory`, for every content of the file. The file
is cut at its last line break: the finished lines, and the beginning of a line that a crash left
unfinished. A record appended behind an unfinished line shares that line, and one whose text holds
a raw line break is cut apart by `splitlines`; in both cases no line of it validates
(`loadLines_lost`). Otherwise the record is read back (`loadLines_kept`).
-/

namespace MainframeRag.Ingest

open PyText JsonScan

section

variable {F : Type} {P : Pydantic F}

/-! ## One line -/

theorem loadLine_of_blank {line : Text} (h : blank line) (m : Inventory F) :
    loadLine P m line = m := by
  simp [loadLine, strip_eq_nil.mpr h]

/-- A line that does not scan as an object is skipped. -/
theorem loadLine_of_scan {line : Text} (h : scan .start line ≠ .done) (m : Inventory F) :
    loadLine P m line = m := by
  unfold loadLine
  split
  · rfl
  · cases hv : P.validate (strip line) with
    | none => rfl
    | some rec => exact absurd (scan_of_strip (P.validate_object _ _ hv)) h

theorem modelDumpJson_ends (floatText : F → Text) (r : InventoryRecord F) :
    ∃ t, modelDumpJson floatText r = '{' :: t ++ ['}'] :=
  ⟨member r.pathMember ++ members (r.rest floatText), by simp [modelDumpJson, object, members]⟩

theorem loadLine_dump {u : Text} (h : blank u) (rec : InventoryRecord F) (m : Inventory F) :
    loadLine P m (u ++ modelDumpJson P.floatText rec) = m.set rec := by
  obtain ⟨t, ht⟩ := modelDumpJson_ends P.floatText rec
  have hs : strip (u ++ modelDumpJson P.floatText rec) = modelDumpJson P.floatText rec := by
    rw [strip_blank_append h, ht]
    exact strip_of_ends (by decide) (by decide) t
  have hne : modelDumpJson P.floatText rec ≠ [] := by simp [ht]
  simp [loadLine, hs, hne, P.validate_dump]

/-! ## The lines after an append -/

theorem loadLines_append (xs ys : List Text) :
    loadLines P (xs ++ ys) = ys.foldl (loadLine P) (loadLines P xs) :=
  List.foldl_append

theorem loadLines_lines (s : Cut) :
    loadLines P s.lines = loadLine P (loadLines P s.done) s.rest := by
  unfold Cut.lines
  split
  · next h => rw [h, loadLine_of_blank (by intro c hc; simp at hc)]
  · rw [loadLines_append]; rfl

theorem foldl_loadLine_of_scan {xs : List Text} (h : ∀ x ∈ xs, scan .start x ≠ .done)
    (m : Inventory F) : xs.foldl (loadLine P) m = m := by
  induction xs with
  | nil => rfl
  | cons x xs ih =>
    rw [List.foldl_cons, loadLine_of_scan (h x (by simp)), ih (fun y hy => h y (by simp [hy]))]

theorem cutLines_recordLine {t : Text} {rec : InventoryRecord F}
    (h : ¬rec.hasRawBreak) : cutLines (t ++ recordLine P rec) =
      (cut t).done ++ [(cut t).rest ++ modelDumpJson P.floatText rec] := by
  have hb : ∀ c ∈ modelDumpJson P.floatText rec, isLineBreak c = false :=
    object_noBreak (record_fieldsOk P.floatText_numeral rec)
      (fun hr => h ((rawBreaks_iff P.floatText rec).mp hr))
  have hn : isLineBreak '\n' = true := by decide
  rw [cutLines, cut_append, recordLine, List.foldl_append, Cut.foldl_feed_noBreak hb]
  simp [Cut.feed, hn, Cut.lines]

/-- Behind a blank beginning, a record without raw line breaks is read back. -/
theorem loadLines_kept {t : Text} {rec : InventoryRecord F} (hu : blank (cut t).rest)
    (h : ¬rec.hasRawBreak) :
    loadLines P (cutLines (t ++ recordLine P rec)) = (loadLines P (cutLines t)).set rec := by
  rw [cutLines_recordLine h, loadLines_append, cutLines, loadLines_lines,
    loadLine_of_blank hu]
  exact loadLine_dump hu rec _

/-- Behind the beginning of a line, or with a raw line break, the record and the unfinished line
are lost. -/
theorem loadLines_lost {t : Text} {rec : InventoryRecord F}
    (h : ¬(blank (cut t).rest ∧ ¬rec.hasRawBreak)) :
    loadLines P (cutLines (t ++ recordLine P rec)) = loadLines P (cut t).done := by
  have hq : scan .start (cut t).rest ≠ .start ∨
      RawBreaks (rec.pathMember :: rec.rest P.floatText) := by
    by_cases hu : blank (cut t).rest
    · exact .inr ((rawBreaks_iff P.floatText rec).mpr (by by_contra hr; exact h ⟨hu, hr⟩))
    · exact .inl (fun e => hu (scan_start_eq.mp e))
  obtain ⟨q, e, hne⟩ :=
    lineScan_object_ne_done (record_fieldsOk P.floatText_numeral rec) hq
  have hn : isLineBreak '\n' = true := by decide
  have hl : lineScan (scan .start (cut t).rest) (recordLine P rec) = some .start := by
    rw [recordLine, lineScan_append, modelDumpJson, e]
    simp [lineScan, hn, hne]
  obtain ⟨xs, hd, hxs, hr⟩ := lineScan_cut rfl hl
  rw [← cut_append] at hd hr
  have hrest : loadLine P (loadLines P (cut (t ++ recordLine P rec)).done)
      (cut (t ++ recordLine P rec)).rest = loadLines P (cut (t ++ recordLine P rec)).done :=
    loadLine_of_scan (by rw [hr]; simp) _
  rw [cutLines, loadLines_lines, hrest, hd, loadLines_append, foldl_loadLine_of_scan hxs]

/-! ## The file after an append -/

theorem recordLine_noReturn (rec : InventoryRecord F) : '\r' ∉ recordLine P rec := by
  intro h
  rcases List.mem_append.mp h with h | h
  · have := object_break (record_fieldsOk P.floatText_numeral rec) _ h
    revert this; decide
  · revert h; decide

theorem recordLine_head (rec : InventoryRecord F) : ∃ t, recordLine P rec = '{' :: t := by
  obtain ⟨t, ht⟩ := modelDumpJson_ends P.floatText rec
  exact ⟨t ++ ['}'] ++ ['\n'], by simp [recordLine, ht]⟩

theorem readText_appendRecord {file : Bytes} {t : Text} (h : readText file = some t)
    (rec : InventoryRecord F) :
    readText (appendRecord P file rec) = some (t ++ recordLine P rec) := by
  obtain ⟨s, hs, rfl⟩ := Option.map_eq_some_iff.mp h
  have hd : decodeUtf8 (appendRecord P file rec) = some (s ++ recordLine P rec) := by
    rw [decodeUtf8_eq_some, encodeUtf8_append, ← decodeUtf8_eq_some.mp hs]
    rfl
  have hn := universalNewlines_id (recordLine_noReturn (P := P) rec)
  obtain ⟨u, hu⟩ := recordLine_head (P := P) rec
  rw [hu] at hn
  rw [readText, hd, Option.map_some, hu, universalNewlines_append (by decide), hn]

/-- A file that is not UTF-8, torn inside a character say, stays unreadable. -/
theorem readText_of_appendRecord {file : Bytes} {rec : InventoryRecord F} {t : Text}
    (h : readText (appendRecord P file rec) = some t) : ∃ s, readText file = some s := by
  obtain ⟨v, hv, -⟩ := Option.map_eq_some_iff.mp h
  obtain ⟨u, hu⟩ := recordLine_head (P := P) rec
  rw [appendRecord, hu] at hv
  obtain ⟨s, hs, -⟩ := decodeUtf8_append hv
  exact ⟨universalNewlines s, by rw [readText, hs, Option.map_some]⟩

/-! ## What an append keeps -/

theorem loadInventory_eq (P : Pydantic F) (file : Bytes) :
    loadInventory P file = (readText file).map (fun t => loadLines P (cutLines t)) := by
  cases h : decodeUtf8 file with
  | none => simp [loadInventory, readText, h]
  | some t =>
    simp [loadInventory, readText, h, splitlines,
      universalNewlines_id (universalNewlines_noReturn t)]

/-- The next load maps the record's path to the record and every other path as before. -/
def AppendKeeps (P : Pydantic F) (file : Bytes) (rec : InventoryRecord F) : Prop :=
  ∃ before after, loadInventory P file = some before ∧
    loadInventory P (appendRecord P file rec) = some after ∧ after rec.path = some rec ∧
      ∀ q, q ≠ rec.path → after q = before q

/-- The finished lines already end with this record for its path, and the unfinished line adds
nothing for other paths. -/
def AlreadyLatest (P : Pydantic F) (t : Text) (rec : InventoryRecord F) : Prop :=
  loadLines P (cut t).done rec.path = some rec ∧
    ∀ q, q ≠ rec.path → loadLines P (cutLines t) q = loadLines P (cut t).done q

/-- The file is UTF-8, ends in a finished line and the record has no raw line break; or the record
repeats what the finished lines already say. -/
def Appendable (P : Pydantic F) (file : Bytes) (rec : InventoryRecord F) : Prop :=
  ∃ t, readText file = some t ∧
    ((blank (cut t).rest ∧ ¬rec.hasRawBreak) ∨ AlreadyLatest P t rec)

theorem appendKeeps_of_readText {file : Bytes} {t : Text} (h : readText file = some t)
    (rec : InventoryRecord F) : AppendKeeps P file rec ↔
      loadLines P (cutLines (t ++ recordLine P rec)) rec.path = some rec ∧
        ∀ q, q ≠ rec.path →
          loadLines P (cutLines (t ++ recordLine P rec)) q = loadLines P (cutLines t) q := by
  simp only [AppendKeeps, loadInventory_eq, h, readText_appendRecord h, Option.map_some,
    Option.some.injEq]
  constructor
  · rintro ⟨_, _, rfl, rfl, h1, h2⟩
    exact ⟨h1, h2⟩
  · rintro ⟨h1, h2⟩
    exact ⟨_, _, rfl, rfl, h1, h2⟩

/-- An append keeps the log exactly when the file is appendable to. -/
theorem appendKeeps_iff (P : Pydantic F) (file : Bytes) (rec : InventoryRecord F) :
    AppendKeeps P file rec ↔ Appendable P file rec := by
  cases ht : readText file with
  | none =>
    constructor
    · rintro ⟨_, _, h, -⟩
      simp [loadInventory_eq, ht] at h
    · rintro ⟨t, h, -⟩
      rw [ht] at h
      cases h
  | some t =>
    rw [appendKeeps_of_readText ht]
    simp only [Appendable, ht, Option.some.injEq, exists_eq_left']
    by_cases h : blank (cut t).rest ∧ ¬rec.hasRawBreak
    · simp only [h, not_false_eq_true, and_self, true_or, iff_true]
      rw [loadLines_kept h.1 h.2]
      refine ⟨by simp [Inventory.set], ?_⟩
      intro q hq
      simp [Inventory.set, hq]
    · rw [or_iff_right h, loadLines_lost h, AlreadyLatest]
      constructor
      · rintro ⟨h1, h2⟩
        exact ⟨h1, fun q hq => (h2 q hq).symm⟩
      · rintro ⟨h1, h2⟩
        exact ⟨h1, fun q hq => (h2 q hq).symm⟩

/-- A crash-free log of records without raw line breaks reads back as its latest records. -/
theorem loadInventory_progress {recs : List (InventoryRecord F)}
    (h : ∀ r ∈ recs, ¬r.hasRawBreak) :
    loadInventory P (recs.foldl (appendRecord P) []) =
      some (recs.foldl Inventory.set Inventory.empty) := by
  suffices hs : ∃ t, readText (recs.foldl (appendRecord P) []) = some t ∧ (cut t).rest = [] ∧
      loadLines P (cutLines t) = recs.foldl Inventory.set Inventory.empty by
    obtain ⟨t, ht, -, hl⟩ := hs
    rw [loadInventory_eq, ht, Option.map_some, hl]
  induction recs using List.reverseRecOn with
  | nil => exact ⟨[], by rw [← show encodeUtf8 [] = [] from rfl, List.foldl_nil, readText,
      decodeUtf8_encodeUtf8]; rfl, rfl, rfl⟩
  | append_singleton recs r ih =>
    obtain ⟨t, ht, hr, hl⟩ := ih (fun x hx => h x (by simp [hx]))
    have hbr := h r (by simp)
    refine ⟨t ++ recordLine P r, ?_, ?_, ?_⟩
    · rw [List.foldl_append]
      exact readText_appendRecord ht r
    · have hn : isLineBreak '\n' = true := by decide
      rw [recordLine, ← List.append_assoc, cut_append]
      simp [Cut.feed, hn]
    · rw [loadLines_kept (by rw [hr]; simp [blank]) hbr, hl, List.foldl_append]
      rfl

/-- What completed appends leave. -/
inductive Progress (P : Pydantic F) : Bytes → Prop
  | empty : Progress P []
  | append {file : Bytes} (rec : InventoryRecord F) :
      Progress P file → Progress P (appendRecord P file rec)

/-- What the program can leave behind: the last append may be torn at any byte. -/
def LeftBehind (P : Pydantic F) (file : Bytes) : Prop :=
  ∃ log rec k, Progress P log ∧ file = log ++ (encodeUtf8 (recordLine P rec)).take k

end

/-- A first append torn behind its opening brace: the record appended next is lost. -/
theorem torn_brace_loses_next :
    ¬∀ file, LeftBehind wholeSeconds file → ∀ rec, AppendKeeps wholeSeconds file rec := by
  intro h
  let r : InventoryRecord Nat :=
    { path := "a.pdf".toList, sha256 := [], seconds := 0, finishedAt := 0 }
  obtain ⟨u, hu⟩ := recordLine_head (P := wholeSeconds) r
  have hleft : LeftBehind wholeSeconds (encodeUtf8 ['{']) :=
    ⟨[], r, 1, .empty, by rw [hu]; simp [encodeUtf8, String.utf8EncodeChar]⟩
  have hread : readText (encodeUtf8 ['{']) = some ['{'] := by
    rw [readText, decodeUtf8_encodeUtf8]; rfl
  obtain ⟨hrec, -⟩ := (appendKeeps_of_readText hread r).mp (h _ hleft r)
  have hbrace : ¬blank (cut ['{']).rest := by decide
  have hdone : (cut ['{']).done = [] := rfl
  rw [loadLines_lost (fun hb => hbrace hb.1), hdone] at hrec
  simp [loadLines, Inventory.empty] at hrec

end MainframeRag.Ingest
