import MainframeRag.Feedback.Exchange

/-!
# Restoring what was exported

The file that `buildExport` writes is read back line by line (`parseExport_built`), and importing its
rows into an empty store gives a store with the same snapshot. `restorable_iff` says which stores come
through.
-/

namespace MainframeRag.Feedback

open PyText PyJson JsonText Hex Fallible

variable {F : Type} {N : Numerics F} {H : Hash} {D : Decoder}

/-! ## One line -/

theorem lineText_head (obj : Items F) : ∃ t, JsonText.printable t = true ∧
    lineText N obj = encodeUtf8 ('\x7b' :: t) := by
  refine ⟨renderMembers N.toFloats lineStyle (sortedItems obj), ?_, ?_⟩
  · exact renderMembers_printable N.toFloats lineStyle _
  · rw [lineText, dumps, sortKeys_obj, render]

theorem lf_not_mem_lineText (obj : Items F) : (10 : UInt8) ∉ lineText N obj := by
  obtain ⟨t, ht, htext⟩ := lineText_head (N := N) obj
  rw [htext]
  apply lf_not_mem_encodeUtf8
  rw [List.mem_cons, not_or]
  refine ⟨by decide, fun h => ?_⟩
  have := mem_printable ht h
  revert this
  decide

theorem load_lineText {obj : Items F} (hd : (obj.map Prod.fst).Nodup)
    (hshort : shortInts (.obj obj) = true) : load N D (lineText N obj) = .ok (sortedItems obj) := by
  have hloads : loads N.toFloats (dumps N.toFloats lineStyle (.obj obj)) =
      some (.obj (sortedItems obj)) := by
    rw [dumps, loads_render, sortKeys_obj]
  obtain ⟨t, ht, htext⟩ := lineText_head (N := N) obj
  have hdecode : D.decode (lineText N obj) = some (dumps N.toFloats lineStyle (.obj obj)) := by
    have h : encodeUtf8 (dumps N.toFloats lineStyle (.obj obj)) = encodeUtf8 ('\x7b' :: t) := htext
    rw [htext, D.object t ht, ← decodeUtf8_encodeUtf8 ('\x7b' :: t), ← h, decodeUtf8_encodeUtf8]
  have hshort' : shortInts (.obj (sortedItems obj)) = true := by
    rw [← sortKeys_obj]
    exact allLeaves_sortKeys _ hshort
  rw [load, hdecode, Option.bind_some, hloads]
  simp only [hshort', if_true, dictOf_eq (sortedItems_nodup hd)]

/-- A value of a written line, as it reads back. -/
theorem get_sorted {obj : Items F} (hd : (obj.map Prod.fst).Nodup) {i : Nat} {k : Text} {v : Json F}
    (h : obj[i]? = some (k, v)) : get (sortedItems obj) k = sortKeys v :=
  get_sortedItems hd (List.mem_of_getElem? h)

theorem keysAre_sorted {obj : Items F} {keys : List Text} (h : obj.map Prod.fst = keys) :
    keysAre (sortedItems obj) keys = true := by
  have hperm := h ▸ sortedItems_keys obj
  rw [keysAre, Bool.and_eq_true, List.all_eq_true, List.all_eq_true]
  exact ⟨fun k hk => List.contains_iff_mem.mpr (hperm.mem_iff.mp hk),
    fun k hk => List.contains_iff_mem.mpr (hperm.mem_iff.mpr hk)⟩

theorem headerKeys_nodup : headerKeys.Nodup := by simp [headerKeys]

theorem answerKeys_nodup : answerKeys.Nodup := by simp [answerKeys]

theorem ratingKeys_nodup : ratingKeys.Nodup := by simp [ratingKeys]

theorem trailerKeys_nodup : trailerKeys.Nodup := by simp [trailerKeys]

theorem isText_self (t : Text) : isText (F := F) (.str t) t = true := decide_eq_true rfl

theorem sortKeys_str (t : Text) : sortKeys (F := F) (.str t) = .str t := by rw [sortKeys]

theorem sortKeys_textsJson (ts : List Text) : sortKeys (F := F) (textsJson ts) = textsJson ts := by
  rw [textsJson, sortKeys, sortKeysElems_eq, List.map_map]
  exact congrArg Json.arr (List.map_congr_left fun t _ => sortKeys_str t)

/-! ## The lines of a file -/

/-- Lines, each with its line break. -/
def terminated (lines : List Bytes) : Bytes := lines.flatMap fun l => l ++ [10]

theorem terminated_append (ls ls' : List Bytes) :
    terminated (ls ++ ls') = terminated ls ++ terminated ls' := List.flatMap_append

theorem terminated_singleton (l : Bytes) : terminated [l] = l ++ [10] := by
  rw [terminated, List.flatMap_singleton]

theorem splitOn_terminated {ls : List Bytes} (h : ∀ l ∈ ls, (10 : UInt8) ∉ l) :
    (terminated ls).splitOn 10 = ls ++ [[]] := by
  induction ls with
  | nil => rfl
  | cons l ls ih =>
    obtain ⟨hl, hls⟩ := List.forall_mem_cons.mp h
    rw [terminated, List.flatMap_cons, List.append_assoc, List.singleton_append,
      List.splitOn_append_cons_self_of_not_mem hl]
    exact congrArg _ (ih hls)

/-- A file with a first and a last line. -/
theorem parseExport_lines {first last : Bytes} {rows : List Bytes} (now : F)
    (hlf : ∀ l ∈ first :: rows ++ [last], (10 : UInt8) ∉ l) :
    parseExport N H D (terminated (first :: rows ++ [last])) now = (do
      let trailer ← load N D last
      ensure (isText (get trailer "kind".toList) "trailer".toList = true ∧
        keysAre trailer trailerKeys = true) .noTrailer
      checkDigest (H.hexdigest (terminated (first :: rows))) (get trailer "sha256".toList)
      let header ← load N D first
      let limit ← checkHeader N now header
      let batch ← (rows.zipIdx 2).foldlM (readLine N D limit) ⟨[], []⟩
      ensure (isNumber N (get trailer "answers".toList) batch.answers.length = true ∧
        isNumber N (get trailer "ratings".toList) batch.ratings.length = true) .countMismatch
      return batch) := by
  have hdata : terminated (first :: rows ++ [last]) = terminated (first :: rows) ++ (last ++ [10]) := by
    rw [terminated_append, terminated_singleton]
  have hlast : (terminated (first :: rows ++ [last])).getLast? = some 10 := by
    rw [hdata, ← List.append_assoc, List.getLast?_concat]
  have hlines : ((terminated (first :: rows ++ [last])).splitOn 10).dropLast =
      first :: (rows ++ [last]) := by
    rw [splitOn_terminated hlf, List.dropLast_concat, List.cons_append]
  have htake : (terminated (first :: rows ++ [last])).take
      ((terminated (first :: rows ++ [last])).length - last.length - 1) =
      terminated (first :: rows) := by
    rw [hdata, List.length_append, List.length_append, List.length_singleton]
    apply List.take_left'
    omega
  have hcount : 2 ≤ (first :: (rows ++ [last])).length := by
    rw [List.length_cons, List.length_append, List.length_singleton]
    omega
  have hgetLast : (first :: (rows ++ [last])).getLastD [] = last := by
    rw [← List.cons_append, List.getLastD_concat]
  rw [parseExport, ensure_true _ hlast, ok_bind]
  dsimp only
  rw [hlines, ensure_true _ hcount, ok_bind, hgetLast, htake, List.tail_cons, List.dropLast_concat]
  rfl

theorem line_some {obj : Items F} {l : Bytes} :
    line N obj = some l ↔ writable N (.obj obj) = true ∧ l = lineText N obj ++ [10] := by
  rw [line, Option.ite_none_right_eq_some, Option.some.injEq, eq_comm (a := l)]

theorem mapM_line {α : Type} {f : α → Items F} {as : List α} {ls : List Bytes} :
    as.mapM (fun a => line N (f a)) = some ls ↔ (∀ a ∈ as, writable N (.obj (f a)) = true) ∧
      ls = as.map fun a => lineText N (f a) ++ [10] := by
  induction as generalizing ls with
  | nil =>
    exact ⟨fun h => ⟨List.forall_mem_nil _, (Option.some.inj h).symm⟩,
      fun h => congrArg some h.2.symm⟩
  | cons a as ih =>
    simp only [List.mapM_cons, Option.bind_eq_bind, Option.bind_eq_some_iff, Option.pure_def,
      Option.some.injEq, ih, List.forall_mem_cons, List.map_cons, line_some]
    constructor
    · rintro ⟨l, ⟨hw, rfl⟩, rest, ⟨hws, rfl⟩, rfl⟩
      exact ⟨⟨hw, hws⟩, rfl⟩
    · rintro ⟨⟨hw, hws⟩, rfl⟩
      exact ⟨_, ⟨hw, rfl⟩, _, ⟨hws, rfl⟩, rfl⟩

variable (N) in
/-- The lines of the rows. -/
def rowLines (batch : Batch F) : List Bytes :=
  batch.answers.map (fun a => lineText N (answerItems a)) ++
    batch.ratings.map fun r => lineText N (ratingItems r)

variable (N) in
/-- The lines above the trailer. -/
def bodyLines (batch : Batch F) (exportedAt : F) (retentionDays : Int) : List Bytes :=
  lineText N (headerItems exportedAt retentionDays) :: rowLines N batch

variable (N H) in
/-- The whole file. -/
def exportFile (batch : Batch F) (exportedAt : F) (retentionDays : Int) : Bytes :=
  terminated (bodyLines N batch exportedAt retentionDays ++ [lineText N (trailerItems H batch
    (terminated (bodyLines N batch exportedAt retentionDays)))])

theorem buildExport_iff {batch : Batch F} {exportedAt : F} {retentionDays : Int} {data : Bytes} :
    buildExport N H batch exportedAt retentionDays = some data ↔
      writable N (.obj (headerItems exportedAt retentionDays)) = true ∧
      (∀ a ∈ batch.answers, writable N (.obj (answerItems a)) = true) ∧
      (∀ r ∈ batch.ratings, writable N (.obj (ratingItems r)) = true) ∧
      writable N (.obj (trailerItems H batch
        (terminated (bodyLines N batch exportedAt retentionDays)))) = true ∧
      data = exportFile N H batch exportedAt retentionDays := by
  have hbody : lineText N (headerItems exportedAt retentionDays) ++ [10] ++
      (batch.answers.map fun a => lineText N (answerItems a) ++ [10]).flatten ++
      (batch.ratings.map fun r => lineText N (ratingItems r) ++ [10]).flatten =
      terminated (bodyLines N batch exportedAt retentionDays) := by
    rw [terminated, bodyLines, rowLines, List.flatMap_cons, List.flatMap_append, List.flatMap_map,
      List.flatMap_map, ← List.flatMap_def, ← List.flatMap_def, List.append_assoc]
  simp only [buildExport, line_some, Option.bind_eq_bind, Option.bind_eq_some_iff, Option.pure_def,
    Option.some.injEq, mapM_line]
  constructor
  · rintro ⟨_, ⟨hheader, rfl⟩, _, ⟨hanswers, rfl⟩, _, ⟨hratings, rfl⟩, _, ⟨htrailer, rfl⟩, rfl⟩
    rw [hbody] at htrailer ⊢
    exact ⟨hheader, hanswers, hratings, htrailer, by
      rw [exportFile, terminated_append, terminated_singleton]⟩
  · rintro ⟨hheader, hanswers, hratings, htrailer, rfl⟩
    refine ⟨_, ⟨hheader, rfl⟩, _, ⟨hanswers, rfl⟩, _, ⟨hratings, rfl⟩, _, ⟨?_, rfl⟩, ?_⟩
    · rwa [hbody]
    · rw [hbody, exportFile, terminated_append, terminated_singleton]

/-! ## What can be written -/

theorem writable_obj {items : Items F} :
    writable N (.obj items) = true ↔ ∀ x ∈ items, writable N x.2 = true := by
  simp only [writable, shortInts, Bool.and_eq_true, allFinite, allFiniteMembers_iff, allLeaves_obj]
  exact ⟨fun h x hx => ⟨h.1 x hx, h.2 x hx⟩, fun h => ⟨fun x hx => (h x hx).1, fun x hx => (h x hx).2⟩⟩

theorem writable_str (t : Text) : writable N (.str t) = true := by
  simp [writable, shortInts, allFinite, allLeaves, shortLeaf]

theorem writable_float {x : F} : writable N (.float x) = true ↔ finite N x = true := by
  simp [writable, shortInts, allFinite, allLeaves, shortLeaf]

theorem writable_int {n : Int} (h : n.natAbs < 10 ^ 63) : writable N (.int n) = true := by
  simp [writable, shortInts, allFinite, allLeaves, shortLeaf, lt_digitLimit h]

theorem writable_texts (ts : List Text) : writable N (textsJson ts) = true := by
  have hleaf : ∀ t : Text, allFinite (finite N) (Json.str t) = true ∧
      allLeaves shortLeaf (Json.str (F := F) t) = true := fun t =>
    Bool.and_eq_true_iff.mp (writable_str t)
  rw [writable, textsJson, Bool.and_eq_true, allFinite_arr_map, shortInts, allLeaves_arr]
  exact ⟨fun t _ => (hleaf t).1, List.forall_mem_map.mpr fun t _ => (hleaf t).2⟩

theorem writable_scalar {v : Scalar F} (h : v.bounded N = true) : writable N v.json = true := by
  cases v with
  | null | bool => simp [Scalar.json, writable, shortInts, allFinite, allLeaves, shortLeaf]
  | int n =>
    simp only [Scalar.bounded, Bool.decide_and, Bool.and_eq_true, decide_eq_true_eq] at h
    apply writable_int
    omega
  | float x => exact writable_float.mpr h
  | text t => exact writable_str t

theorem writable_telemetry {t : Telemetry F} (h : t.all (fun x => x.2.bounded N) = true) :
    writable N (telemetryJson t) = true := by
  rw [telemetryJson, writable_obj]
  exact List.forall_mem_map.mpr fun x hx => writable_scalar (List.all_eq_true.mp h x hx)

theorem writable_header {exportedAt : F} {retentionDays : Int} (hf : finite N exportedAt = true)
    (hr : 1 ≤ retentionDays ∧ retentionDays ≤ 3650) :
    writable N (.obj (headerItems exportedAt retentionDays)) = true := by
  simp only [writable_obj, headerItems, List.forall_mem_cons, writable_str, writable_float, hf,
    true_and]
  refine ⟨writable_int (by decide), writable_int (by decide), writable_int (by omega), ?_⟩
  exact List.forall_mem_nil _

theorem finite_of_header {exportedAt : F} {retentionDays : Int}
    (h : writable N (.obj (headerItems exportedAt retentionDays)) = true) :
    finite N exportedAt = true := by
  rw [writable_obj] at h
  exact writable_float.mp (h ("exported_at".toList, .float exportedAt) (List.mem_of_getElem? (i := 4) rfl))

theorem writable_answer {a : AnswerRow F} (htime : finite N a.createdAt = true)
    (hbounded : a.telemetry.all (fun x => x.2.bounded N) = true) :
    writable N (.obj (answerItems a)) = true := by
  have hscript : writable N (a.script.elim .null .str) = true := by
    cases a.script with
    | none => simp [writable, shortInts, allFinite, allLeaves, shortLeaf]
    | some t => exact writable_str t
  simp only [writable_obj, answerItems, List.forall_mem_cons, writable_str, writable_float, htime,
    hscript, writable_texts, writable_telemetry hbounded, true_and]
  exact List.forall_mem_nil _

theorem writable_rating {r : RatingRow F} (htime : finite N r.createdAt = true) :
    writable N (.obj (ratingItems r)) = true := by
  simp only [writable_obj, ratingItems, List.forall_mem_cons, writable_str, writable_float, htime,
    writable_texts, true_and]
  exact List.forall_mem_nil _

/-! Request ids are short, so there are few. -/

theorem length_requestIds {ids : List Text} (hd : ids.Nodup)
    (hid : ∀ t ∈ ids, isRequestId t = true) : ids.length < 10 ^ 63 := by
  let code : Text → Fin 12 → Fin 128 := fun t i => Fin.ofNat 128 (t.getD i '0').toNat
  have hinj : ∀ t ∈ ids, ∀ u ∈ ids, code t = code u → t = u := by
    intro t ht u hu h
    have hchars : ∀ t ∈ ids, t.length = 12 ∧ ∀ c ∈ t, c.toNat < 128 := by
      intro t ht
      have hid := hid t ht
      rw [isRequestId, Bool.and_eq_true, decide_eq_true_eq, List.all_eq_true] at hid
      refine ⟨hid.1, fun c hc => ?_⟩
      have := hid.2 c hc
      simp only [isLowerDigit, Bool.or_eq_true, Bool.and_eq_true, decide_eq_true_eq] at this
      omega
    obtain ⟨htlen, htchars⟩ := hchars t ht
    obtain ⟨hulen, huchars⟩ := hchars u hu
    apply List.ext_getElem (htlen.trans hulen.symm)
    intro i hi hi'
    have hcode := congrArg Fin.val (congrFun h ⟨i, by omega⟩)
    simp only [code, Fin.val_ofNat, List.getD_eq_getElem _ _ hi, List.getD_eq_getElem _ _ hi',
      Nat.mod_eq_of_lt (htchars _ (List.getElem_mem hi)),
      Nat.mod_eq_of_lt (huchars _ (List.getElem_mem hi'))] at hcode
    exact Char.toNat_inj.mp hcode
  have hcard := (hd.map_on hinj).length_le_card
  rw [List.length_map, Fintype.card_fun, Fintype.card_fin, Fintype.card_fin] at hcard
  exact lt_of_le_of_lt hcard (by norm_num)

/-! ## Reading the lines -/

theorem timestamp_float {x limit : F} (hf : finite N x = true) (hle : floatLe N x limit = true) :
    timestamp N (.float x) limit = some x := by
  rw [timestamp, asFloat, Option.filter_some, if_pos]
  rw [hf, hle]
  rfl

theorem header_keys (exportedAt : F) (retentionDays : Int) :
    (headerItems exportedAt retentionDays).map Prod.fst = headerKeys := rfl

theorem answer_keys (a : AnswerRow F) : (answerItems a).map Prod.fst = answerKeys := rfl

theorem rating_keys (r : RatingRow F) : (ratingItems r).map Prod.fst = ratingKeys := rfl

theorem trailer_keys (batch : Batch F) (body : Bytes) :
    (trailerItems H batch body).map Prod.fst = trailerKeys := rfl

theorem headerItems_nodup (exportedAt : F) (retentionDays : Int) :
    ((headerItems exportedAt retentionDays).map Prod.fst).Nodup := headerKeys_nodup

theorem answerItems_nodup (a : AnswerRow F) : ((answerItems a).map Prod.fst).Nodup :=
  answerKeys_nodup

theorem ratingItems_nodup (r : RatingRow F) : ((ratingItems r).map Prod.fst).Nodup :=
  ratingKeys_nodup

theorem isNumber_int (n : Int) : isNumber N (.int n) n = true := decide_eq_true rfl

theorem sortKeys_float (x : F) : sortKeys (.float x) = .float x := by rw [sortKeys]

theorem sortKeys_int (n : Int) : sortKeys (F := F) (.int n) = .int n := by rw [sortKeys]

theorem checkHeader_written {now exportedAt : F} {retentionDays : Int}
    (hf : finite N exportedAt = true) (hle : floatLe N exportedAt (N.skew now) = true) :
    checkHeader N now (sortedItems (headerItems exportedAt retentionDays)) =
      if 1 ≤ retentionDays ∧ retentionDays ≤ 3650 then
        .ok (floatMin N (N.skew now) (N.skew exportedAt)) else .error .badFormat := by
  have hd := headerItems_nodup exportedAt retentionDays
  have hkind := get_sorted hd (i := 0) rfl
  have hformat := get_sorted hd (i := 1) rfl
  have hversion := get_sorted hd (i := 2) rfl
  have hschema := get_sorted hd (i := 3) rfl
  have hexported := get_sorted hd (i := 4) rfl
  have hretention := get_sorted hd (i := 5) rfl
  rw [checkHeader, hkind, hformat, hversion, hschema, hexported, hretention]
  simp only [sortKeys_str, sortKeys_float, sortKeys_int]
  rw [ensure_true _ ⟨isText_self _, isText_self _, keysAre_sorted (header_keys exportedAt retentionDays)⟩,
    ok_bind, timestamp_float hf hle, orRaise_some, ok_bind, retentionOk]
  by_cases h : 1 ≤ retentionDays ∧ retentionDays ≤ 3650
  · rw [if_pos h, ensure_true _ (decide_eq_true h), ok_bind, ensure_true _ (isNumber_int _), ok_bind,
      ensure_true _ (isNumber_int _)]
    rfl
  · rw [if_neg h, ensure, if_neg (by rwa [decide_eq_true_eq])]
    rfl

theorem asScript_script (o : Option Text) : asScript (F := F) (sortKeys (o.elim .null .str)) = some o := by
  cases o with
  | none => rw [Option.elim_none, sortKeys]; rfl
  | some t => rw [Option.elim_some, sortKeys]; rfl

theorem asTelemetry_written {t : Telemetry F} (hd : (t.map Prod.fst).Nodup)
    (hs : sortTelemetry t = t) : asTelemetry (sortKeys (telemetryJson t)) = some t := by
  have hkeys : ((t.map fun x => (x.1, x.2.json)).map Prod.fst).Nodup := by
    rwa [List.map_map]
  rw [sortKeys_telemetryJson, hs, telemetryJson, asTelemetry, dictOf_eq hkeys]
  exact readTelemetry_json t

theorem validateAnswer_written {a : AnswerRow F} (hv : a.toAnswerFields.Valid)
    (hs : sortTelemetry a.telemetry = a.telemetry) :
    validateAnswer (sortedItems (answerItems a)) = some a.toAnswerFields := by
  have hd := answerItems_nodup a
  rw [validateAnswer, get_sorted hd (i := 1) rfl, get_sorted hd (i := 3) rfl,
    get_sorted hd (i := 4) rfl, get_sorted hd (i := 5) rfl, get_sorted hd (i := 6) rfl,
    get_sorted hd (i := 7) rfl, get_sorted hd (i := 8) rfl, get_sorted hd (i := 9) rfl]
  simp only [sortKeys_str, sortKeys_textsJson, asText, Option.filter_some, hv.idOk, if_true,
    Option.bind_some, Endpoint.ofText_text, asScript_script, readTexts_textsJson,
    asTelemetry_written hv.keys hs]
  rfl

theorem validateRating_written {r : RatingRow F} (hv : r.toRatingFields.Valid) :
    validateRating (sortedItems (ratingItems r)) = some r.toRatingFields := by
  have hd := ratingItems_nodup r
  have hreasons : (r.reasons.map Reason.text).mapM Reason.ofText = some r.reasons := by
    have := mapM_map (f := Reason.ofText) (g := Reason.text) (h := id) Reason.ofText_text r.reasons
    rwa [List.map_id] at this
  rw [validateRating, get_sorted hd (i := 1) rfl, get_sorted hd (i := 3) rfl,
    get_sorted hd (i := 4) rfl, get_sorted hd (i := 5) rfl]
  simp only [sortKeys_str, sortKeys_textsJson, asText, Option.filter_some, hv.idOk, if_true,
    Option.bind_some, RatingValue.ofText_text, readTexts_textsJson, Option.bind_eq_bind, hreasons,
    decide_eq_true hv.distinct, decide_eq_true hv.short]
  rfl

theorem kind_ne : isText (F := F) (.str Kind.rating.text) Kind.answer.text = false := by
  show decide (some Kind.rating.text = some Kind.answer.text) = false
  decide +kernel

theorem readRow_answer {a : AnswerRow F} {limit : F} (n : Nat) (hv : a.toAnswerFields.Valid)
    (hs : sortTelemetry a.telemetry = a.telemetry) (hf : finite N a.createdAt = true)
    (hle : floatLe N a.createdAt limit = true)
    (hbounded : a.telemetry.all (fun x => x.2.bounded N) = true) :
    readRow N limit n (sortedItems (answerItems a)) = .ok (.answer a) := by
  have hd := answerItems_nodup a
  have hkind : isText (get (sortedItems (answerItems a)) "kind".toList) Kind.answer.text = true := by
    rw [get_sorted hd (i := 0) rfl, sortKeys_str]
    exact isText_self _
  rw [readRow, if_pos hkind, ensure_true _ (keysAre_sorted (answer_keys a)), ok_bind,
    get_sorted hd (i := 2) rfl, sortKeys_float, timestamp_float hf hle, orRaise_some, ok_bind,
    validateAnswer_written hv hs, orRaise_some, ok_bind, ensure_true _ hbounded]
  rfl

theorem readRow_rating {r : RatingRow F} {limit : F} (n : Nat) (hv : r.toRatingFields.Valid)
    (hf : finite N r.createdAt = true) (hle : floatLe N r.createdAt limit = true) :
    readRow N limit n (sortedItems (ratingItems r)) = .ok (.rating r) := by
  have hd := ratingItems_nodup r
  have hkind : get (sortedItems (ratingItems r)) "kind".toList = .str Kind.rating.text := by
    rw [get_sorted hd (i := 0) rfl, sortKeys_str]
    rfl
  rw [readRow, hkind, if_neg (by rw [kind_ne]; exact Bool.false_ne_true), if_pos (isText_self _),
    ensure_true _ (keysAre_sorted (rating_keys r)), ok_bind, get_sorted hd (i := 2) rfl,
    sortKeys_float, timestamp_float hf hle, orRaise_some, ok_bind, validateRating_written hv,
    orRaise_some]
  rfl

/-! ## Reading a file that was written -/

variable (N) in
/-- Rows as `read_snapshot` returns them. -/
structure Batch.Snapshot (batch : Batch F) : Prop extends batch.Valid where
  sorted : ∀ a ∈ batch.answers, sortTelemetry a.telemetry = a.telemetry
  answerIds : (batch.answers.map fun a => a.requestId).Nodup
  ratingIds : (batch.ratings.map fun r => r.requestId).Nodup

variable (N) in
/-- The values that a file may hold. -/
structure Batch.Bounded (batch : Batch F) : Prop where
  answerTimes : ∀ a ∈ batch.answers, finite N a.createdAt = true
  ratingTimes : ∀ r ∈ batch.ratings, finite N r.createdAt = true
  telemetry : ∀ a ∈ batch.answers, a.telemetry.all (fun x => x.2.bounded N) = true

variable (N) in
/-- No row is later than a limit. -/
structure Batch.Within (batch : Batch F) (limit : F) : Prop where
  answers : ∀ a ∈ batch.answers, floatLe N a.createdAt limit = true
  ratings : ∀ r ∈ batch.ratings, floatLe N r.createdAt limit = true

theorem readLine_answer {a : AnswerRow F} {limit : F} {batch : Batch F} (n : Nat)
    (hw : writable N (.obj (answerItems a)) = true)
    (hrow : readRow N limit n (sortedItems (answerItems a)) = .ok (.answer a))
    (hnew : a.requestId ∉ batch.answers.map fun a => a.requestId) :
    readLine N D limit batch (lineText N (answerItems a), n) =
      .ok { batch with answers := batch.answers ++ [a] } := by
  rw [readLine, load_lineText (answerItems_nodup a) (Bool.and_eq_true_iff.mp hw).2, ok_bind, hrow, ok_bind,
    addRow, ensure_true _ hnew]
  rfl

theorem readLine_rating {r : RatingRow F} {limit : F} {batch : Batch F} (n : Nat)
    (hw : writable N (.obj (ratingItems r)) = true)
    (hrow : readRow N limit n (sortedItems (ratingItems r)) = .ok (.rating r))
    (hnew : r.requestId ∉ batch.ratings.map fun r => r.requestId) :
    readLine N D limit batch (lineText N (ratingItems r), n) =
      .ok { batch with ratings := batch.ratings ++ [r] } := by
  rw [readLine, load_lineText (ratingItems_nodup r) (Bool.and_eq_true_iff.mp hw).2, ok_bind, hrow, ok_bind,
    addRow, ensure_true _ hnew]
  rfl

theorem readLines_answers {limit : F} : ∀ (as : List (AnswerRow F)) (n : Nat) (batch : Batch F),
    (∀ a ∈ as, writable N (.obj (answerItems a)) = true ∧
      ∀ n, readRow N limit n (sortedItems (answerItems a)) = .ok (.answer a)) →
    ((batch.answers ++ as).map fun a => a.requestId).Nodup →
    ((as.map fun a => lineText N (answerItems a)).zipIdx n).foldlM (readLine N D limit) batch =
      .ok { batch with answers := batch.answers ++ as }
  | [], _, batch, _, _ => by rw [List.append_nil]; rfl
  | a :: as, n, batch, hrows, hd => by
    obtain ⟨⟨hw, hrow⟩, hrows⟩ := List.forall_mem_cons.mp hrows
    have hnew : a.requestId ∉ batch.answers.map fun a => a.requestId := fun hm =>
      List.disjoint_of_nodup_append (List.map_append ▸ hd) hm List.mem_cons_self
    rw [List.map_cons, List.zipIdx_cons, List.foldlM_cons, readLine_answer n hw (hrow n) hnew, ok_bind,
      readLines_answers as _ _ hrows]
    · rw [List.append_assoc, List.singleton_append]
    · rwa [List.append_assoc, List.singleton_append]

theorem readLines_ratings {limit : F} : ∀ (rs : List (RatingRow F)) (n : Nat) (batch : Batch F),
    (∀ r ∈ rs, writable N (.obj (ratingItems r)) = true ∧
      ∀ n, readRow N limit n (sortedItems (ratingItems r)) = .ok (.rating r)) →
    ((batch.ratings ++ rs).map fun r => r.requestId).Nodup →
    ((rs.map fun r => lineText N (ratingItems r)).zipIdx n).foldlM (readLine N D limit) batch =
      .ok { batch with ratings := batch.ratings ++ rs }
  | [], _, batch, _, _ => by rw [List.append_nil]; rfl
  | r :: rs, n, batch, hrows, hd => by
    obtain ⟨⟨hw, hrow⟩, hrows⟩ := List.forall_mem_cons.mp hrows
    have hnew : r.requestId ∉ batch.ratings.map fun r => r.requestId := fun hm =>
      List.disjoint_of_nodup_append (List.map_append ▸ hd) hm List.mem_cons_self
    rw [List.map_cons, List.zipIdx_cons, List.foldlM_cons, readLine_rating n hw (hrow n) hnew, ok_bind,
      readLines_ratings rs _ _ hrows]
    · rw [List.append_assoc, List.singleton_append]
    · rwa [List.append_assoc, List.singleton_append]

theorem readLines_written {batch : Batch F} {limit : F} (hsnap : batch.Snapshot)
    (hb : batch.Bounded N) (hw : batch.Within N limit) :
    ((rowLines N batch).zipIdx 2).foldlM (readLine N D limit) ⟨[], []⟩ = .ok batch := by
  rw [rowLines, List.zipIdx_append, List.foldlM_append, readLines_answers, ok_bind, readLines_ratings]
  · rfl
  · intro r hr
    exact ⟨writable_rating (hb.ratingTimes r hr), fun n =>
      readRow_rating n (hsnap.ratings r hr) (hb.ratingTimes r hr) (hw.ratings r hr)⟩
  · exact hsnap.ratingIds
  · intro a ha
    exact ⟨writable_answer (hb.answerTimes a ha) (hb.telemetry a ha), fun n =>
      readRow_answer n (hsnap.answers a ha) (hsnap.sorted a ha) (hb.answerTimes a ha)
        (hw.answers a ha) (hb.telemetry a ha)⟩
  · exact hsnap.answerIds

theorem checkDigest_self (b : Bytes) : checkDigest (H.hexdigest b) (.str (F := F) (H.hexdigest b)) = .ok () := by
  have hascii : ((H.hexdigest b).all fun c => decide (c.toNat < 128)) = true := by
    rw [List.all_eq_true]
    intro c hc
    have := isLowerDigit_encode hc
    simp only [isLowerDigit, Bool.or_eq_true, Bool.and_eq_true, decide_eq_true_eq] at this ⊢
    omega
  rw [checkDigest, asText]
  dsimp only
  rw [if_pos hascii, ensure_true _ rfl]

/-- What reading a written file comes to. -/
theorem parseExport_built {batch : Batch F} {exportedAt now : F} {retentionDays : Int} {data : Bytes}
    (h : buildExport N H batch exportedAt retentionDays = some data) :
    parseExport N H D data now = (do
      let limit ← checkHeader N now (sortedItems (headerItems exportedAt retentionDays))
      let read ← ((rowLines N batch).zipIdx 2).foldlM (readLine N D limit) ⟨[], []⟩
      ensure (isNumber N (.int batch.answers.length) read.answers.length = true ∧
        isNumber N (.int batch.ratings.length) read.ratings.length = true) .countMismatch
      return read) := by
  obtain ⟨hheader, -, -, htrailer, rfl⟩ := buildExport_iff.mp h
  rw [exportFile]
  set body := terminated (bodyLines N batch exportedAt retentionDays) with hbody
  have hd : ((trailerItems H batch body).map Prod.fst).Nodup := trailerKeys_nodup
  rw [bodyLines, parseExport_lines]
  · have hdigest : checkDigest (H.hexdigest (terminated (lineText N (headerItems exportedAt
        retentionDays) :: rowLines N batch))) (.str (F := F) (H.hexdigest body)) = .ok () := by
      rw [hbody, bodyLines]
      exact checkDigest_self _
    rw [load_lineText hd (Bool.and_eq_true_iff.mp htrailer).2, ok_bind, get_sorted hd (i := 0) rfl,
      get_sorted hd (i := 1) rfl, get_sorted hd (i := 2) rfl, get_sorted hd (i := 3) rfl]
    simp only [sortKeys_str, sortKeys_int]
    rw [ensure_true _ ⟨isText_self _, keysAre_sorted (trailer_keys batch body)⟩, ok_bind, hdigest,
      ok_bind, load_lineText (headerItems_nodup exportedAt retentionDays)
        (Bool.and_eq_true_iff.mp hheader).2, ok_bind]
  · intro l hl
    simp only [rowLines, List.cons_append, List.mem_cons, List.mem_append, List.mem_map,
      List.not_mem_nil, or_false] at hl
    rcases hl with rfl | (⟨a, -, rfl⟩ | ⟨r, -, rfl⟩) | rfl
    all_goals exact lf_not_mem_lineText _

/-! ## Limits -/

theorem floatLe_iff {x y : F} : floatLe N x y = true ↔
    ∃ v w, N.value x = some v ∧ N.value y = some w ∧ v ≤ w := by
  unfold floatLe
  cases N.value x with
  | none => simp
  | some v =>
    cases N.value y with
    | none => simp
    | some w => simp

theorem floatLe_trans {x y z : F} (h : floatLe N x y = true) (h' : floatLe N y z = true) :
    floatLe N x z = true := by
  obtain ⟨v, w, hv, hw, hle⟩ := floatLe_iff.mp h
  obtain ⟨w', u, hw', hu, hle'⟩ := floatLe_iff.mp h'
  rw [hw] at hw'
  cases hw'
  exact floatLe_iff.mpr ⟨v, u, hv, hu, hle.trans hle'⟩

theorem floatLe_refl_of_finite {x : F} (h : finite N x = true) : floatLe N x x = true := by
  unfold finite at h
  split at h
  · next v hv => exact floatLe_iff.mpr ⟨v, v, hv, hv, le_refl v⟩
  · cases h

theorem floatLe_skew {x y : F} (h : floatLe N x y = true) :
    floatLe N (N.skew x) (N.skew y) = true := by
  obtain ⟨v, w, hv, hw, hle⟩ := floatLe_iff.mp h
  obtain ⟨v', w', hv', hw', hle'⟩ := N.skew_mono x y v w hv hw hle
  exact floatLe_iff.mpr ⟨v', w', hv', hw', hle'⟩

theorem floatLe_self_skew {x : F} (h : finite N x = true) : floatLe N x (N.skew x) = true := by
  obtain ⟨v, _, hv, -, -⟩ := floatLe_iff.mp (floatLe_refl_of_finite h)
  obtain ⟨w, hw, hle⟩ := N.le_skew x v hv
  exact floatLe_iff.mpr ⟨v, w, hv, hw, hle⟩

/-- The limit of a file read later is the limit of its own header. -/
theorem floatLe_min {x a b : F} (hab : floatLe N b a = true) (h : floatLe N x b = true) :
    floatLe N x (floatMin N a b) = true := by
  unfold floatMin
  split
  · exact h
  · exact floatLe_trans h hab

theorem parseExport_written {batch : Batch F} {exportedAt now : F} {retentionDays : Int}
    {data : Bytes} (h : buildExport N H batch exportedAt retentionDays = some data)
    (hsnap : batch.Snapshot) (hb : batch.Bounded N) (hw : batch.Within N (N.skew exportedAt))
    (hf : finite N exportedAt = true) (hr : 1 ≤ retentionDays ∧ retentionDays ≤ 3650)
    (hnow : floatLe N exportedAt now = true) : parseExport N H D data now = .ok batch := by
  have hskew := floatLe_skew hnow
  have hlimit : batch.Within N (floatMin N (N.skew now) (N.skew exportedAt)) :=
    ⟨fun a ha => floatLe_min hskew (hw.answers a ha), fun r hr => floatLe_min hskew (hw.ratings r hr)⟩
  rw [parseExport_built h, checkHeader_written hf (floatLe_trans (floatLe_self_skew hf) hskew),
    if_pos hr, ok_bind, readLines_written hsnap hb hlimit, ok_bind,
    ensure_true _ ⟨isNumber_int _, isNumber_int _⟩]
  rfl

theorem buildExport_bounded {batch : Batch F} {exportedAt : F} {retentionDays : Int}
    (hsnap : batch.Snapshot) (hb : batch.Bounded N) (hf : finite N exportedAt = true)
    (hr : 1 ≤ retentionDays ∧ retentionDays ≤ 3650) :
    buildExport N H batch exportedAt retentionDays =
      some (exportFile N H batch exportedAt retentionDays) := by
  refine buildExport_iff.mpr ⟨writable_header hf hr, ?_, ?_, ?_, rfl⟩
  · exact fun a ha => writable_answer (hb.answerTimes a ha) (hb.telemetry a ha)
  · exact fun r hr => writable_rating (hb.ratingTimes r hr)
  · have hanswers := length_requestIds hsnap.answerIds
      (List.forall_mem_map.mpr fun a ha => (hsnap.answers a ha).idOk)
    have hratings := length_requestIds hsnap.ratingIds
      (List.forall_mem_map.mpr fun r hr => (hsnap.ratings r hr).idOk)
    rw [List.length_map] at hanswers hratings
    simp only [writable_obj, trailerItems, List.forall_mem_cons, writable_str, true_and]
    refine ⟨writable_int (by omega), writable_int (by omega), ?_⟩
    exact List.forall_mem_nil _

/-- A file that reads back as its rows has a header in the range and values a file may hold. -/
theorem bounded_of_parseExport {batch : Batch F} {exportedAt : F} {retentionDays : Int}
    {data : Bytes} (h : buildExport N H batch exportedAt retentionDays = some data)
    (hparse : ∀ now, floatLe N exportedAt now = true → parseExport N H D data now = .ok batch) :
    finite N exportedAt = true ∧ (1 ≤ retentionDays ∧ retentionDays ≤ 3650) ∧ batch.Bounded N := by
  have hf := finite_of_header (buildExport_iff.mp h).1
  have hread := hparse exportedAt (floatLe_refl_of_finite hf)
  have haccepted := parseExport_accepted hread
  refine ⟨hf, ?_, haccepted.answerTimes, haccepted.ratingTimes, haccepted.bounded⟩
  by_contra hr
  rw [parseExport_built h, checkHeader_written hf (floatLe_self_skew hf), if_neg hr,
    error_bind] at hread
  cases hread

/-! ## Snapshots of a store -/

theorem answerRow_requestId {c : AnswerColumns F} {row : AnswerRow F} (h : answerRow N c = some row) :
    row.requestId = c.requestId := by
  simp only [answerRow, Option.bind_eq_bind, Option.bind_eq_some_iff, Option.pure_def,
    Option.some.injEq] at h
  obtain ⟨endpoint, -, citations, -, supplied, -, telemetry, -, rfl⟩ := h
  rfl

theorem ratingRow_requestId {c : RatingColumns F} {row : RatingRow F} (h : ratingRow N c = some row) :
    row.requestId = c.requestId := by
  simp only [ratingRow, Option.bind_eq_bind, Option.bind_eq_some_iff, Option.pure_def,
    Option.some.injEq] at h
  obtain ⟨rating, -, texts, -, reasons, -, rfl⟩ := h
  rfl

theorem sortTelemetry_sorted (t : Telemetry F) : sortTelemetry (sortTelemetry t) = sortTelemetry t :=
  (List.pairwise_insertionSort (fun a b : Text × Scalar F => a.1 ≤ b.1) t).insertionSort_eq

theorem sorted_valid {fields : AnswerFields F} (h : fields.Valid) : fields.sorted.Valid where
  idOk := h.idOk
  keys := ((sortTelemetry_perm _).map Prod.fst).nodup_iff.mpr h.keys

/-- A stored answer as it reads. -/
theorem Readable.answer {s : Store F} (h : Readable N s) {c : AnswerColumns F} (hc : c ∈ s.answers) :
    ∃ row, answerRow N c = some row ∧ row.toAnswerFields.Valid ∧
      sortTelemetry row.telemetry = row.telemetry ∧ row.createdAt = c.createdAt ∧
      c = answerColumns N row.toAnswerFields row.createdAt := by
  obtain ⟨fields, hv, hcols, -⟩ := h.answers c hc
  refine ⟨⟨fields.sorted, c.createdAt⟩, ?_, sorted_valid hv, sortTelemetry_sorted _, rfl, ?_⟩
  · rw [hcols, answerRow_columns]
    rfl
  · have htelemetry : telemetryColumn N fields.sorted.telemetry = telemetryColumn N fields.telemetry := by
      rw [telemetryColumn, telemetryColumn, dumps, dumps, sortKeys_telemetryJson,
        sortKeys_telemetryJson]
      exact congrArg (fun t => render N.toFloats plainStyle (telemetryJson t)) (sortTelemetry_sorted _)
    rw [answerColumns, htelemetry]
    exact hcols

theorem Readable.rating {s : Store F} (h : Readable N s) {c : RatingColumns F} (hc : c ∈ s.ratings) :
    ∃ row, ratingRow N c = some row ∧ row.toRatingFields.Valid ∧ row.createdAt = c.createdAt := by
  obtain ⟨fields, hv, hcols, -⟩ := h.ratings c hc
  refine ⟨⟨fields, c.createdAt⟩, ?_, hv, rfl⟩
  rw [hcols, ratingRow_columns]
  rfl

theorem mem_byId {α : Type} {key : α → Text} {rows : List α} {x : α} :
    x ∈ byId key rows ↔ x ∈ rows := (List.perm_insertionSort _ rows).mem_iff

theorem byId_ordered {α : Type} (key : α → Text) (rows : List α) :
    ((byId key rows).map key).Pairwise (· ≤ ·) :=
  List.pairwise_map.mpr (List.pairwise_insertionSort (fun a b => key a ≤ key b) rows)

theorem byId_eq {α : Type} {key : α → Text} {rows : List α}
    (h : (rows.map key).Pairwise (· ≤ ·)) : byId key rows = rows :=
  (List.pairwise_map.mp h).insertionSort_eq

theorem map_eq_of_forall₂ {α β γ : Type} {f : α → γ} {g : β → γ} {R : α → β → Prop}
    (hR : ∀ a b, R a b → g b = f a) {as : List α} {bs : List β} (h : List.Forall₂ R as bs) :
    bs.map g = as.map f := by
  induction h with
  | nil => rfl
  | cons hab _ ih => rw [List.map_cons, List.map_cons, hR _ _ hab, ih]

theorem readSnapshot_iff {s : Store F} {batch : Batch F} : readSnapshot N s = some batch ↔
    List.Forall₂ (fun c row => answerRow N c = some row)
      (byId AnswerColumns.requestId s.answers.items) batch.answers ∧
    List.Forall₂ (fun c row => ratingRow N c = some row)
      (byId RatingColumns.requestId s.ratings.items) batch.ratings := by
  simp only [readSnapshot, Option.bind_eq_bind, Option.bind_eq_some_iff, Option.pure_def,
    Option.some.injEq, mapM_eq_some_iff]
  constructor
  · rintro ⟨answers, hanswers, ratings, hratings, rfl⟩
    exact ⟨hanswers, hratings⟩
  · rintro ⟨hanswers, hratings⟩
    exact ⟨_, hanswers, _, hratings, rfl⟩

theorem exists_forall₂ {α β : Type} {R : α → β → Prop} {as : List α}
    (h : ∀ a ∈ as, ∃ b, R a b) : ∃ bs, List.Forall₂ R as bs := by
  induction as with
  | nil => exact ⟨[], .nil⟩
  | cons a as ih =>
    obtain ⟨⟨b, hb⟩, has⟩ := List.forall_mem_cons.mp h
    obtain ⟨bs, hbs⟩ := ih has
    exact ⟨b :: bs, .cons hb hbs⟩

theorem Readable.readSnapshot {s : Store F} (h : Readable N s) :
    ∃ batch, readSnapshot N s = some batch := by
  obtain ⟨answers, hanswers⟩ := exists_forall₂
    (R := fun c row => answerRow N c = some row)
    fun c (hc : c ∈ byId AnswerColumns.requestId s.answers.items) => by
      obtain ⟨row, hrow, -⟩ := h.answer (mem_byId.mp hc)
      exact ⟨row, hrow⟩
  obtain ⟨ratings, hratings⟩ := exists_forall₂
    (R := fun c row => ratingRow N c = some row)
    fun c (hc : c ∈ byId RatingColumns.requestId s.ratings.items) => by
      obtain ⟨row, hrow, -⟩ := h.rating (mem_byId.mp hc)
      exact ⟨row, hrow⟩
  exact ⟨⟨answers, ratings⟩, readSnapshot_iff.mpr ⟨hanswers, hratings⟩⟩

section

variable {s : Store F} {batch : Batch F}

theorem snapshot_answerIds (h : readSnapshot N s = some batch) :
    batch.answers.map (fun a => a.requestId) =
      (byId AnswerColumns.requestId s.answers.items).map AnswerColumns.requestId :=
  map_eq_of_forall₂ (g := fun a : AnswerRow F => a.requestId) (fun _ _ h => answerRow_requestId h)
    (readSnapshot_iff.mp h).1

theorem snapshot_ratingIds (h : readSnapshot N s = some batch) :
    batch.ratings.map (fun r => r.requestId) =
      (byId RatingColumns.requestId s.ratings.items).map RatingColumns.requestId :=
  map_eq_of_forall₂ (g := fun r : RatingRow F => r.requestId) (fun _ _ h => ratingRow_requestId h)
    (readSnapshot_iff.mp h).2

theorem byId_nodup {α : Type} {key : α → Text} (c : Keyed α key) :
    ((byId key c.items).map key).Nodup :=
  (((List.perm_insertionSort _ _).map key).nodup_iff).mpr c.distinct

/-- Each row of a snapshot is a stored one. -/
theorem snapshot_answer (h : readSnapshot N s = some batch) {row : AnswerRow F}
    (hrow : row ∈ batch.answers) : ∃ c ∈ s.answers, answerRow N c = some row := by
  obtain ⟨c, hc, hread⟩ := forall₂_right (readSnapshot_iff.mp h).1 hrow
  exact ⟨c, mem_byId.mp hc, hread⟩

theorem snapshot_rating (h : readSnapshot N s = some batch) {row : RatingRow F}
    (hrow : row ∈ batch.ratings) : ∃ c ∈ s.ratings, ratingRow N c = some row := by
  obtain ⟨c, hc, hread⟩ := forall₂_right (readSnapshot_iff.mp h).2 hrow
  exact ⟨c, mem_byId.mp hc, hread⟩

theorem snapshot_sound (hs : Readable N s) (h : readSnapshot N s = some batch) : batch.Snapshot := by
  refine ⟨⟨?_, ?_⟩, ?_, ?_, ?_⟩
  · intro row hrow
    obtain ⟨c, hc, hread⟩ := snapshot_answer h hrow
    obtain ⟨row', hread', hv, -⟩ := hs.answer hc
    rw [hread] at hread'
    cases hread'
    exact hv
  · intro row hrow
    obtain ⟨c, hc, hread⟩ := snapshot_rating h hrow
    obtain ⟨row', hread', hv, -⟩ := hs.rating hc
    rw [hread] at hread'
    cases hread'
    exact hv
  · intro row hrow
    obtain ⟨c, hc, hread⟩ := snapshot_answer h hrow
    obtain ⟨row', hread', -, hsorted, -⟩ := hs.answer hc
    rw [hread] at hread'
    cases hread'
    exact hsorted
  · rw [snapshot_answerIds h]
    exact byId_nodup _
  · rw [snapshot_ratingIds h]
    exact byId_nodup _

end

/-! ## Importing into an empty store -/

theorem importAnswers_fresh {cutoff : F} : ∀ (as : List (AnswerRow F)) (p : Progress F),
    (∀ a ∈ as, printable a.telemetry = true ∧ N.real a.createdAt = some a.createdAt) →
    (as.map fun a => a.requestId).Nodup → (∀ a ∈ as, p.store.answers.find a.requestId = none) →
    ∃ q, as.foldlM (importAnswer N cutoff) p = .ok q ∧ q.store.answers.items =
        p.store.answers.items ++ as.map (fun a => answerColumns N a.toAnswerFields a.createdAt) ∧
      q.store.ratings = p.store.ratings ∧ q.skipped = p.skipped ∧
      q.counts.conflict = p.counts.conflict
  | [], p, _, _, _ => ⟨p, rfl, (List.append_nil _).symm, rfl, rfl, rfl⟩
  | a :: as, p, hrows, hd, hfresh => by
    obtain ⟨⟨hprint, hreal⟩, hrows⟩ := List.forall_mem_cons.mp hrows
    obtain ⟨hnone, hfresh⟩ := List.forall_mem_cons.mp hfresh
    rw [List.map_cons, List.nodup_cons] at hd
    set p' : Progress F := { p with
      store := p.store.writeAnswer (answerColumns N a.toAnswerFields a.createdAt)
      counts := { p.counts with
        inserted := p.counts.inserted + 1
        expired := p.counts.expired + if floatLt N a.createdAt cutoff then 1 else 0 } } with hp'
    have hstep : importAnswer N cutoff p a = .ok p' := by
      rw [importAnswer, hnone]
      dsimp only
      rw [ensure_true _ hprint, ok_bind, hreal, orRaise_some, ok_bind]
      rfl
    have hitems : p'.store.answers.items =
        p.store.answers.items ++ [answerColumns N a.toAnswerFields a.createdAt] :=
      Keyed.upsert_items (Keyed.find_eq_none.mp hnone)
    obtain ⟨q, hq, hqitems, hratings, hskipped, hconflict⟩ := importAnswers_fresh as p' hrows hd.2
      fun b hb => by
        show (p.store.answers.upsert _).find b.requestId = none
        rw [Keyed.find_upsert, if_neg, hfresh b hb]
        exact fun e => hd.1 (List.mem_map.mpr ⟨b, hb, e.symm⟩)
    refine ⟨q, foldlM_cons_ok.mpr ⟨p', hstep, hq⟩, ?_, hratings, hskipped, hconflict⟩
    rw [hqitems, hitems, List.append_assoc, List.map_cons, List.singleton_append]

theorem importRatings_fresh : ∀ (rs : List (RatingRow F)) (p : Progress F),
    (∀ r ∈ rs, N.real r.createdAt = some r.createdAt ∧
      (p.store.answers.find r.requestId).isSome = true) →
    (rs.map fun r => r.requestId).Nodup → (∀ r ∈ rs, p.store.ratings.find r.requestId = none) →
    p.skipped = [] →
    ∃ q rows, rs.foldlM (importRating N) p = .ok q ∧
      q.store.ratings.items = p.store.ratings.items ++ rows ∧
      List.Forall₂ (fun c r => ratingRow N c = some r) rows rs ∧
      q.store.answers = p.store.answers ∧ q.counts.conflict = p.counts.conflict
  | [], p, _, _, _, _ => ⟨p, [], rfl, (List.append_nil _).symm, .nil, rfl, rfl⟩
  | r :: rs, p, hrows, hd, hfresh, hskip => by
    obtain ⟨⟨hreal, hknown⟩, hrows⟩ := List.forall_mem_cons.mp hrows
    obtain ⟨hnone, hfresh⟩ := List.forall_mem_cons.mp hfresh
    rw [List.map_cons, List.nodup_cons] at hd
    obtain ⟨store, hput⟩ : ∃ store, putRating N p.store r.toRatingFields r.createdAt = .ok store :=
      ⟨_, dif_pos hknown⟩
    obtain ⟨-, hanswers, hratings⟩ := writeRating_ok hput
    set p' : Progress F := { p with
      store := store, counts := { p.counts with inserted := p.counts.inserted + 1 } } with hp'
    have hstep : importRating N p r = .ok p' := by
      rw [importRating, if_neg (by rw [hskip]; exact List.not_mem_nil), ensure_true _ hknown, ok_bind, hnone]
      dsimp only
      rw [hreal, orRaise_some, ok_bind, hput, ok_bind]
      rfl
    set row := ratingColumns N (((p.store.ratings.find r.requestId).map RatingColumns.id).getD
      p.store.nextId) r.toRatingFields r.createdAt with hrow
    have hitems : p'.store.ratings.items = p.store.ratings.items ++ [row] := by
      show store.ratings.items = _
      rw [hratings]
      exact Keyed.upsert_items (Keyed.find_eq_none.mp hnone)
    obtain ⟨q, rows, hq, hqitems, hread, hqanswers, hconflict⟩ := importRatings_fresh rs p'
      (fun b hb => by
        show N.real b.createdAt = some b.createdAt ∧ (store.answers.find b.requestId).isSome = true
        rw [hanswers]
        exact hrows b hb)
      hd.2
      (fun b hb => by
        show store.ratings.find b.requestId = none
        rw [hratings, Keyed.find_upsert, if_neg, hfresh b hb]
        exact fun e => hd.1 (List.mem_map.mpr ⟨b, hb, e.symm⟩))
      hskip
    refine ⟨q, row :: rows, foldlM_cons_ok.mpr ⟨p', hstep, hq⟩, ?_,
      .cons (ratingRow_columns N _ _ _) hread, hqanswers.trans hanswers, hconflict⟩
    rw [hqitems, hitems, List.append_assoc, List.singleton_append]

section

variable {s : Store F} {batch : Batch F}

theorem snapshot_real (hs : Readable N s) (h : readSnapshot N s = some batch) :
    (∀ a ∈ batch.answers, N.real a.createdAt = some a.createdAt) ∧
      ∀ r ∈ batch.ratings, N.real r.createdAt = some r.createdAt := by
  constructor
  · intro row hrow
    obtain ⟨c, hc, hread⟩ := snapshot_answer h hrow
    obtain ⟨row', hread', -, -, htime, -⟩ := hs.answer hc
    obtain ⟨_, -, -, hreal⟩ := hs.answers c hc
    rw [hread] at hread'
    cases hread'
    rwa [htime]
  · intro row hrow
    obtain ⟨c, hc, hread⟩ := snapshot_rating h hrow
    obtain ⟨row', hread', -, htime⟩ := hs.rating hc
    obtain ⟨_, -, -, hreal⟩ := hs.ratings c hc
    rw [hread] at hread'
    cases hread'
    rwa [htime]

/-- Every rating of a snapshot has its answer there. -/
theorem snapshot_foreign (h : readSnapshot N s = some batch) {r : RatingRow F}
    (hr : r ∈ batch.ratings) : ∃ a ∈ batch.answers, a.requestId = r.requestId := by
  obtain ⟨c, hc, hread⟩ := snapshot_rating h hr
  obtain ⟨d, hd, hid⟩ := s.foreign c hc
  obtain ⟨a, ha, hread'⟩ := forall₂_left (readSnapshot_iff.mp h).1 (mem_byId.mpr hd)
  exact ⟨a, ha, by rw [answerRow_requestId hread', hid, ratingRow_requestId hread]⟩

theorem sorted_eq {a : AnswerRow F} (h : sortTelemetry a.telemetry = a.telemetry) :
    (⟨a.toAnswerFields.sorted, a.createdAt⟩ : AnswerRow F) = a := by
  simp only [AnswerFields.sorted, h]

/-- A snapshot that is imported into an empty store is the snapshot of the store it makes. -/
theorem import_empty (hs : Readable N s) (h : readSnapshot N s = some batch) (hb : batch.Bounded N)
    (keepExisting : Bool) (cutoff : F) : ∃ counts s',
      importRecords N keepExisting cutoff batch .empty = (.ok counts, s') ∧
        readSnapshot N s' = some batch := by
  have hsnap := snapshot_sound hs h
  obtain ⟨hanswersReal, hratingsReal⟩ := snapshot_real hs h
  obtain ⟨p, hp, hpitems, hpratings, hpskipped, hpconflict⟩ := @importAnswers_fresh F N cutoff
    batch.answers { store := Store.empty }
    (fun a ha => ⟨(Bool.and_eq_true_iff.mp (writable_telemetry (hb.telemetry a ha))).2,
      hanswersReal a ha⟩) hsnap.answerIds fun _ _ => rfl
  have hpitems' : p.store.answers.items =
      batch.answers.map fun a => answerColumns N a.toAnswerFields a.createdAt := hpitems
  have hknown : ∀ r ∈ batch.ratings, (p.store.answers.find r.requestId).isSome = true := by
    intro r hr
    obtain ⟨a, ha, hid⟩ := snapshot_foreign h hr
    rw [Option.isSome_iff_exists]
    refine ⟨answerColumns N a.toAnswerFields a.createdAt, Keyed.find_eq_some.mpr ⟨?_, hid⟩⟩
    rw [Keyed.mem_def, hpitems']
    exact List.mem_map_of_mem ha
  obtain ⟨q, rows, hq, hqitems, hread, hqanswers, hqconflict⟩ := importRatings_fresh (N := N)
    batch.ratings p (fun r hr => ⟨hratingsReal r hr, hknown r hr⟩) hsnap.ratingIds
    (fun r _ => by rw [hpratings]; rfl) hpskipped
  have hqitems' : q.store.ratings.items = rows := by
    rw [hqitems, hpratings]
    rfl
  refine ⟨q.counts, q.store, ?_, ?_⟩
  · have hzero : q.counts.conflict = 0 := hqconflict.trans hpconflict
    have hbody : importBody N keepExisting cutoff batch Store.empty = .ok (q.counts, q.store) := by
      rw [importBody, hp, ok_bind, hq, ok_bind, ensure_true _ (.inr hzero)]
      rfl
    rw [importRecords, transaction, hbody]
  · rw [readSnapshot_iff, hqanswers, hqitems', hpitems', byId_eq, byId_eq]
    · refine ⟨List.forall₂_map_left_iff.mpr (List.forall₂_same.mpr fun a ha => ?_), hread⟩
      rw [answerRow_columns, sorted_eq (hsnap.sorted a ha)]
    · have hids := map_eq_of_forall₂ (g := fun r : RatingRow F => r.requestId)
        (fun _ _ h => ratingRow_requestId h) hread
      rw [← hids, snapshot_ratingIds h]
      exact byId_ordered _ _
    · rw [List.map_map]
      show (batch.answers.map fun a => a.requestId).Pairwise (· ≤ ·)
      rw [snapshot_answerIds h]
      exact byId_ordered _ _

end

/-! ## Stores that come through -/

variable (N H D) in
/-- The snapshot is written, read back at any later time as it is, and restored into an empty
store. -/
def Restorable (s : Store F) (exportedAt : F) (retentionDays : Int) : Prop :=
  ∃ batch data, readSnapshot N s = some batch ∧
    buildExport N H batch exportedAt retentionDays = some data ∧
    ∀ now, floatLe N exportedAt now = true → parseExport N H D data now = .ok batch ∧
      ∀ keepExisting cutoff, ∃ counts s',
        importRecords N keepExisting cutoff batch .empty = (.ok counts, s') ∧
          readSnapshot N s' = some batch

variable (N) in
/-- The values of the rows are those that a file may hold. -/
structure Store.Bounded (s : Store F) : Prop where
  answers : ∀ c ∈ s.answers, finite N c.createdAt = true
  ratings : ∀ c ∈ s.ratings, finite N c.createdAt = true
  telemetry : ∀ c ∈ s.answers, ∀ row, answerRow N c = some row →
    row.telemetry.all (fun x => x.2.bounded N) = true

variable (N) in
/-- No row is later than the export's clock and the allowed skew. -/
structure Store.Within (s : Store F) (limit : F) : Prop where
  answers : ∀ c ∈ s.answers, floatLe N c.createdAt limit = true
  ratings : ∀ c ∈ s.ratings, floatLe N c.createdAt limit = true

theorem answerRow_createdAt {c : AnswerColumns F} {row : AnswerRow F} (h : answerRow N c = some row) :
    row.createdAt = c.createdAt := by
  simp only [answerRow, Option.bind_eq_bind, Option.bind_eq_some_iff, Option.pure_def,
    Option.some.injEq] at h
  obtain ⟨endpoint, -, citations, -, supplied, -, telemetry, -, rfl⟩ := h
  rfl

theorem ratingRow_createdAt {c : RatingColumns F} {row : RatingRow F} (h : ratingRow N c = some row) :
    row.createdAt = c.createdAt := by
  simp only [ratingRow, Option.bind_eq_bind, Option.bind_eq_some_iff, Option.pure_def,
    Option.some.injEq] at h
  obtain ⟨rating, -, texts, -, reasons, -, rfl⟩ := h
  rfl

theorem bounded_snapshot {s : Store F} {batch : Batch F}
    (h : readSnapshot N s = some batch) : batch.Bounded N ↔ s.Bounded N := by
  obtain ⟨hanswers, hratings⟩ := readSnapshot_iff.mp h
  constructor
  · rintro ⟨ha, hr, ht⟩
    refine ⟨fun c hc => ?_, fun c hc => ?_, fun c hc row hrow => ?_⟩
    · obtain ⟨row, hrow, hread⟩ := forall₂_left hanswers (mem_byId.mpr hc)
      exact answerRow_createdAt hread ▸ ha row hrow
    · obtain ⟨row, hrow, hread⟩ := forall₂_left hratings (mem_byId.mpr hc)
      exact ratingRow_createdAt hread ▸ hr row hrow
    · obtain ⟨row', hrow', hread⟩ := forall₂_left hanswers (mem_byId.mpr hc)
      rw [hrow] at hread
      cases hread
      exact ht row hrow'
  · rintro ⟨ha, hr, ht⟩
    refine ⟨fun row hrow => ?_, fun row hrow => ?_, fun row hrow => ?_⟩
    · obtain ⟨c, hc, hread⟩ := snapshot_answer h hrow
      exact (answerRow_createdAt hread).symm ▸ ha c hc
    · obtain ⟨c, hc, hread⟩ := snapshot_rating h hrow
      exact (ratingRow_createdAt hread).symm ▸ hr c hc
    · obtain ⟨c, hc, hread⟩ := snapshot_answer h hrow
      exact ht c hc row hread

theorem Restorable.bounded {s : Store F} {exportedAt : F} {retentionDays : Int}
    (h : Restorable N H D s exportedAt retentionDays) : finite N exportedAt = true ∧
      (1 ≤ retentionDays ∧ retentionDays ≤ 3650) ∧ s.Bounded N := by
  obtain ⟨batch, data, hsnap, hbuild, hread⟩ := h
  obtain ⟨hf, hr, hb⟩ := bounded_of_parseExport hbuild fun now hnow => (hread now hnow).1
  exact ⟨hf, hr, (bounded_snapshot hsnap).mp hb⟩

theorem Readable.restorable {s : Store F} (hs : Readable N s) {exportedAt : F} {retentionDays : Int}
    (hclock : s.Within N (N.skew exportedAt)) (hf : finite N exportedAt = true)
    (hr : 1 ≤ retentionDays ∧ retentionDays ≤ 3650) (hb : s.Bounded N) :
    Restorable N H D s exportedAt retentionDays := by
  obtain ⟨batch, hsnap⟩ := hs.readSnapshot
  have hbatch := (bounded_snapshot hsnap).mpr hb
  have hsound := snapshot_sound hs hsnap
  have hwithin : batch.Within N (N.skew exportedAt) := by
    refine ⟨fun row hrow => ?_, fun row hrow => ?_⟩
    · obtain ⟨c, hc, hread⟩ := snapshot_answer hsnap hrow
      exact (answerRow_createdAt hread).symm ▸ hclock.answers c hc
    · obtain ⟨c, hc, hread⟩ := snapshot_rating hsnap hrow
      exact (ratingRow_createdAt hread).symm ▸ hclock.ratings c hc
  have hdata := buildExport_bounded (H := H) hsound hbatch hf hr
  exact ⟨batch, _, hsnap, hdata, fun now hnow =>
    ⟨parseExport_written hdata hsound hbatch hwithin hf hr hnow, import_empty hs hsnap hbatch⟩⟩

/-- A reachable store can be exported and restored if and only if the clock, the retention and the
values of its rows are in the ranges that the reader checks. -/
theorem restorable_iff {s : Store F} (hs : Reachable N s) {exportedAt : F}
    (hclock : s.Within N (N.skew exportedAt)) (retentionDays : Int) :
    Restorable N H D s exportedAt retentionDays ↔ finite N exportedAt = true ∧
      (1 ≤ retentionDays ∧ retentionDays ≤ 3650) ∧ s.Bounded N :=
  ⟨Restorable.bounded, fun ⟨hf, hr, hb⟩ => (reachable_readable hs).restorable hclock hf hr hb⟩

/-! ## Concrete stores -/

/-- The bytes as UTF-8. -/
def utf8 : Decoder where
  decode := decodeUtf8
  object _ _ := decodeUtf8_encodeUtf8 _

def zeros : Hash where
  digest _ := List.replicate 32 0
  size _ := List.length_replicate

/-- Floats where only a half, `true`, and `NaN` occur. -/
def halfOrNaN : Numerics Bool where
  text x := if x then half else "NaN".toList
  read t := t = half
  atom x t h := by
    cases x with
    | true => rw [if_pos rfl, readAtom_number (numberToken_half h), if_pos rfl, decide_eq_true rfl]
    | false => rfl
  text_ne_nil x := by cases x <;> decide
  floatChars x := by cases x <;> exact List.all_eq_true.mp (by rfl)
  value x := if x then some (((1 / 2 : ℚ) : WithTop ℚ) : Value) else none
  real x := if x then some x else none
  ofInt _ := none
  skew := id
  real_isSome x h := by
    cases x
    · cases h
    · rfl
  real_value x y h := by
    cases x
    · cases h
    · cases h
      exact ⟨rfl, rfl, rfl⟩
  le_skew x v h := ⟨v, h, le_refl v⟩
  skew_mono x y v w hv hw h := ⟨v, w, hv, hw, h⟩

/-- An answer with one telemetry value. -/
def oneAnswer (v : Scalar Bool) : AnswerRecord Bool where
  requestId := List.replicate 12 '0'
  endpoint := .answer
  query := []
  answer := []
  script := none
  citations := []
  supplied := []
  telemetry := [("score".toList, v)]
  finalizedAt := none
  valid := ⟨by rfl, List.nodup_singleton _⟩

/-- The store that records it. -/
def oneStore (v : Scalar Bool) : Store Bool :=
  Store.empty.writeAnswer (answerColumns halfOrNaN (oneAnswer v).toAnswerFields true)

theorem record_one {v : Scalar Bool} (h : printable (oneAnswer v).telemetry = true) :
    recordAnswer halfOrNaN true (oneAnswer v) Store.empty = .ok (true, oneStore v) := by
  rw [recordAnswer, ensure_true _ h]
  rfl

theorem mem_one {v : Scalar Bool} {c : AnswerColumns Bool} (h : c ∈ (oneStore v).answers) :
    c = answerColumns halfOrNaN (oneAnswer v).toAnswerFields true := by
  rcases Keyed.mem_upsert.mp h with rfl | ⟨hc, -⟩
  · rfl
  · exact absurd hc (Keyed.not_mem_empty c)

theorem one_within (v : Scalar Bool) : (oneStore v).Within halfOrNaN (halfOrNaN.skew true) where
  answers c hc := by
    rw [mem_one hc]
    show floatLe halfOrNaN true true = true
    decide +kernel
  ratings c hc := absurd hc (Keyed.not_mem_empty c)

theorem one_row {v : Scalar Bool} {row : AnswerRow Bool}
    (h : answerRow halfOrNaN (answerColumns halfOrNaN (oneAnswer v).toAnswerFields true) =
      some row) : row.telemetry = [("score".toList, v)] := by
  rw [answerRow_columns] at h
  cases h
  rfl

/-- A truth value comes through. -/
theorem restorable_iff_truth : Restorable halfOrNaN zeros utf8 (oneStore (.bool true)) true 180 := by
  have hreach : Reachable halfOrNaN (oneStore (.bool true)) := .record .empty (record_one (by decide))
  refine (restorable_iff hreach (one_within _) 180).mpr ⟨by decide +kernel, by decide, ?_, ?_, ?_⟩
  · intro c hc
    rw [mem_one hc]
    show finite halfOrNaN true = true
    decide +kernel
  · exact fun c hc => absurd hc (Keyed.not_mem_empty c)
  · intro c hc row hrow
    rw [mem_one hc] at hrow
    rw [one_row hrow]
    rfl

/-- A telemetry value `NaN` is recorded, and the store can no longer be exported. -/
theorem nan_telemetry :
    recordAnswer halfOrNaN true (oneAnswer (.float false)) Store.empty =
        .ok (true, oneStore (.float false)) ∧
      Reachable halfOrNaN (oneStore (.float false)) ∧
      (oneStore (.float false)).Within halfOrNaN (halfOrNaN.skew true) ∧
      ¬ Restorable halfOrNaN zeros utf8 (oneStore (.float false)) true 180 := by
  have hrecord := record_one (v := .float false) (by rfl)
  refine ⟨hrecord, .record .empty hrecord, one_within _, fun h => ?_⟩
  have hc : answerColumns halfOrNaN (oneAnswer (.float false)).toAnswerFields true ∈
      (oneStore (.float false)).answers := Keyed.mem_upsert.mpr (.inl rfl)
  have hb := h.bounded.2.2.telemetry _ hc _ (answerRow_columns _ _ _)
  cases hb

end MainframeRag.Feedback
