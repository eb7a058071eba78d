import MainframeRag.Ingest.MarginBars
import MainframeRag.Lib.Fallible

/-!
# Rows from columns

What `extract_page_text` puts out has the words of the page, less those of the bars
(`extractPageText_keeps`): rebuilding a table moves the lines of the selected blocks into rows, one
row each, and leaves the other blocks where they stood.
-/

namespace MainframeRag.Ingest.PageTables

open PyText PageLayout Words

/-! ## Words -/

theorem isSpace_newline : isSpace '\n' = true := by decide

theorem words_strip (t : Text) : words isSpace (strip t) = words isSpace t := by
  obtain ⟨v, w, hv, hw, ht⟩ := strip_spec t
  have hhead : ∀ c ∈ w.head?, isSpace c = true := fun c hc => hw c (List.mem_of_mem_head? hc)
  conv_rhs => rw [ht]
  rw [words_append_of_head _ hhead, words_gap hv, words_eq_nil.mpr hw, List.append_nil]

theorem lines_text (number : Nat) (t : Text) : (linesAt number t).map Prod.snd = t.splitOn '\n' := by
  rw [linesAt, List.map_map]
  exact List.zipIdx_map_fst _ _

theorem lines_number {number : Nat} {t : Text} {l : Key × Text} (h : l ∈ linesAt number t) :
    l.1.1 = number := by
  obtain ⟨x, -, rfl⟩ := List.mem_map.mp h
  rfl

/-- The words of some lines. -/
def lineWords (lines : List (Key × Text)) : List Text := lines.flatMap fun l => words isSpace l.2

theorem lineWords_append (ls ms : List (Key × Text)) :
    lineWords (ls ++ ms) = lineWords ls ++ lineWords ms := List.flatMap_append

theorem words_joinLines (lines : List (Key × Text)) :
    words isSpace (joinLines (lines.map Prod.snd)) = lineWords lines := by
  rw [joinLines, words_intercalate isSpace_newline, List.flatMap_map]
  rfl

theorem joinLines_lines (number : Nat) (t : Text) :
    joinLines ((linesAt number t).map Prod.snd) = t := by
  rw [lines_text, joinLines]
  exact List.intercalate_splitOn _

theorem lineWords_linesAt (number : Nat) (t : Text) :
    lineWords (linesAt number t) = words isSpace t := by
  rw [← words_joinLines, joinLines_lines]

theorem lineWords_nonblank (lines : List (Key × Text)) :
    lineWords (nonblank lines) = lineWords lines := by
  induction lines with
  | nil => rfl
  | cons l lines ih =>
    have hcons : lineWords (l :: lines) = words isSpace l.2 ++ lineWords lines := rfl
    by_cases hl : strip l.2 = []
    · rw [nonblank, List.filter_cons_of_neg (by simpa using hl), hcons,
        words_eq_nil.mpr (strip_eq_nil.mp hl)]
      exact ih
    · rw [nonblank, List.filter_cons_of_pos (by simpa using hl), hcons, ← ih]
      rfl

/-! ## Cells -/

/-- The words of some cells. -/
def cellWords (cells : List Cell) : List Text := cells.flatMap fun c => words isSpace c.text

/-- The cells of the lines, one each. -/
def CellsOf (boxes : LineBoxes) (lines : List (Key × Text)) (cells : List Cell) : Prop :=
  List.Forall₂ (fun l c => cellAt boxes l = some c) lines cells

theorem cellsOf_tableCells {boxes : LineBoxes} {group : List (Nat × Text)} {cells : List Cell}
    (h : tableCells boxes group = some cells) :
    CellsOf boxes (nonblank (group.flatMap fun b => linesAt b.1 b.2)) cells :=
  Fallible.mapM_eq_some_iff.mp h

theorem CellsOf.cellWords {boxes : LineBoxes} {lines : List (Key × Text)} {cells : List Cell}
    (h : CellsOf boxes lines cells) (p : Nat → Bool) :
    cellWords (cells.filter fun c => p c.block) = lineWords (lines.filter fun l => p l.1.1) := by
  induction h with
  | nil => rfl
  | @cons l c lines cells hlc _ ih =>
    obtain ⟨box, -, rfl⟩ := Option.map_eq_some_iff.mp hlc
    cases hp : p l.1.1 with
    | true =>
      rw [List.filter_cons_of_pos (by simpa using hp), List.filter_cons_of_pos (by simpa using hp)]
      show words isSpace (strip l.2) ++ _ = words isSpace l.2 ++ _
      rw [words_strip]
      exact congrArg _ ih
    | false =>
      rw [List.filter_cons_of_neg (by simpa using hp), List.filter_cons_of_neg (by simpa using hp)]
      exact ih

/-- The cells of some blocks of a group have the words of these blocks. -/
theorem cellWords_group {boxes : LineBoxes} {group : List (Nat × Text)} {cells : List Cell}
    (h : tableCells boxes group = some cells) (p : Nat → Bool) :
    cellWords (cells.filter fun c => p c.block) =
      (group.filter fun b => p b.1).flatMap fun b => words isSpace b.2 := by
  rw [(cellsOf_tableCells h).cellWords p]
  have hswap : ∀ ls : List (Key × Text), (nonblank ls).filter (fun l => p l.1.1) =
      nonblank (ls.filter fun l => p l.1.1) := fun ls => by
    rw [nonblank, nonblank, List.filter_filter, List.filter_filter]
    exact List.filter_congr fun l _ => Bool.and_comm _ _
  rw [hswap, lineWords_nonblank]
  clear h hswap
  induction group with
  | nil => rfl
  | cons b group ih =>
    have hline : ∀ l ∈ linesAt b.1 b.2, l.1.1 = b.1 := fun l hl => lines_number hl
    rw [List.flatMap_cons, List.filter_append, lineWords_append, ih]
    cases hp : p b.1 with
    | true =>
      rw [List.filter_cons_of_pos (by simpa using hp), List.flatMap_cons,
        List.filter_eq_self.mpr fun l hl => by rw [hline l hl, hp], lineWords_linesAt]
    | false =>
      rw [List.filter_cons_of_neg (by simpa using hp),
        List.filter_eq_nil_iff.mpr fun l hl => by rw [hline l hl, hp]; simp]
      rfl

/-! ## Rows -/

theorem rowsFrom_flatten (first : Cell) (row cells : List Cell) :
    (rowsFrom first row cells).flatten = first :: (row ++ cells) := by
  induction cells generalizing first row with
  | nil => simp [rowsFrom]
  | cons c cells ih =>
    rw [rowsFrom]
    split
    · rw [ih, List.append_assoc, List.singleton_append]
    · rw [List.flatten_cons, ih]
      simp

theorem rowsOf_flatten (cells : List Cell) : (rowsOf cells).flatten = cells := by
  cases cells with
  | nil => rfl
  | cons c cells => exact rowsFrom_flatten c [] cells

/-- The cells behind the first of a row share a row with it. -/
theorem rowsFrom_sameRow {first : Cell} {row cells : List Cell}
    (hrow : ∀ c ∈ row, SameRow first.span c.span) :
    ∀ r ∈ rowsFrom first row cells, ∃ head tail, r = head :: tail ∧
      ∀ c ∈ tail, SameRow head.span c.span := by
  induction cells generalizing first row with
  | nil =>
    intro r hr
    rw [rowsFrom, List.mem_singleton] at hr
    exact ⟨first, row, hr, hrow⟩
  | cons c cells ih =>
    intro r hr
    rw [rowsFrom] at hr
    split at hr
    · next hsame =>
      refine ih (fun d hd => ?_) r hr
      rcases List.mem_append.mp hd with hd | hd
      · exact hrow d hd
      · rw [List.mem_singleton.mp hd]
        exact hsame
    · rcases List.mem_cons.mp hr with rfl | hr
      · exact ⟨first, row, rfl, hrow⟩
      · exact ih (by simp) r hr

theorem rowsOf_sameRow {cells r : List Cell} (h : r ∈ rowsOf cells) : ∃ head tail,
    r = head :: tail ∧ ∀ c ∈ tail, SameRow head.span c.span := by
  cases cells with
  | nil => cases h
  | cons c cells => exact rowsFrom_sameRow (by simp) r h

theorem sameRow_self {a : ℚ × ℚ} (h : a.1 ≤ a.2) : SameRow a a := by
  have hmid : a.1 ≤ (a.1 + a.2) / 2 ∧ (a.1 + a.2) / 2 ≤ a.2 := by constructor <;> linarith
  exact ⟨hmid, hmid⟩

/-- A line of the group shares a row with every cell of a row, or the row is one inverted cell. -/
theorem rowsOf_common {cells r : List Cell} (h : r ∈ rowsOf cells) :
    (∃ line ∈ cells, ∀ c ∈ r, SameRow line.span c.span) ∨ ∃ c, r = [c] ∧ c.y1 < c.y0 := by
  obtain ⟨head, tail, rfl, htail⟩ := rowsOf_sameRow h
  have hmem : head ∈ cells := by
    rw [← rowsOf_flatten cells]
    exact List.mem_flatten.mpr ⟨_, h, List.mem_cons_self⟩
  by_cases hspan : head.y0 ≤ head.y1
  · refine .inl ⟨head, hmem, fun c hc => ?_⟩
    rcases List.mem_cons.mp hc with rfl | hc
    · exact sameRow_self hspan
    · exact htail c hc
  · right
    cases tail with
    | nil => exact ⟨head, rfl, not_le.mp hspan⟩
    | cons c tail =>
      have hsame := (htail c List.mem_cons_self).1
      exact absurd (hsame.1.trans hsame.2) hspan

theorem selectedRows_flatten (cells : List Cell) (selected : List Nat) :
    (selectedRows cells selected).flatten = cells.filter (·.block ∈ selected) := by
  conv_rhs => rw [← rowsOf_flatten cells, List.filter_flatten]
  rw [selectedRows, List.flatten_filter_ne_nil]

/-! ## Tables -/

instance : Std.Total fun a b : Cell => a.x0 ≤ b.x0 := ⟨fun a b => le_total a.x0 b.x0⟩

instance : IsTrans Cell fun a b => a.x0 ≤ b.x0 := ⟨fun _ _ _ hab hbc => le_trans hab hbc⟩

theorem sortedRow_perm (row : List Cell) : (sortedRow row).Perm row := List.perm_insertionSort _ row

theorem flatten_sortedRow (rows : List (List Cell)) :
    (rows.map sortedRow).flatten.Perm rows.flatten := by
  induction rows with
  | nil => exact .refl _
  | cons row rows ih => exact (sortedRow_perm row).append ih

theorem tableUnder_eq_some {U : CharTables} {cells header : List Cell} {top : Cell} {t : Table}
    (h : tableUnder U cells top header = some t) :
    t.rows = (selectedRows cells t.selected).map sortedRow ∧
      (∀ n ∈ t.selected, n ∈ cells.map Cell.block) ∧ selectedRows cells t.selected ≠ [] := by
  obtain ⟨anchors, -, h⟩ := Option.bind_eq_some_iff.mp h
  dsimp only at h
  split_ifs at h with hcrowded hcompact hmixed hfew
  cases h
  refine ⟨rfl, fun n hn => ?_, fun hnil => ?_⟩
  · obtain ⟨c, hc, rfl⟩ := List.mem_map.mp hn
    exact List.mem_map_of_mem (List.mem_of_mem_filter hc)
  · rw [hnil] at hfew
    exact hfew (by decide)

/-- What a rebuilt table is made of: every line of a selected block goes to one row, the cells of a
row share it with a line of the group, and stand in the order of their left edges. -/
structure Rebuilds (boxes : LineBoxes) (group : List (Nat × Text)) (t : Table)
    (cells : List Cell) : Prop where
  stream : tableCells boxes group = some cells
  once : t.rows.flatten.Perm (cells.filter (·.block ∈ t.selected))
  common : ∀ row ∈ t.rows, (∃ line ∈ cells, ∀ c ∈ row, SameRow line.span c.span) ∨
    ∃ c, row = [c] ∧ c.y1 < c.y0
  ordered : ∀ row ∈ t.rows, row.Pairwise fun a b => a.x0 ≤ b.x0
  blocks : ∀ n ∈ t.selected, n ∈ group.map Prod.fst
  nonempty : ∃ n ∈ group.map Prod.fst, n ∈ t.selected

theorem block_of_cell {boxes : LineBoxes} {group : List (Nat × Text)} {cells : List Cell}
    (h : tableCells boxes group = some cells) {c : Cell} (hc : c ∈ cells) :
    c.block ∈ group.map Prod.fst := by
  obtain ⟨l, hl, hlc⟩ := Fallible.forall₂_right (cellsOf_tableCells h) hc
  obtain ⟨b, hb, hlb⟩ := List.mem_flatMap.mp (List.mem_of_mem_filter hl)
  obtain ⟨box, -, rfl⟩ := Option.map_eq_some_iff.mp hlc
  exact List.mem_map.mpr ⟨b, hb, (lines_number hlb).symm⟩

theorem selectedRows_common {cells row : List Cell} {selected : List Nat}
    (h : row ∈ selectedRows cells selected) :
    (∃ line ∈ cells, ∀ c ∈ row, SameRow line.span c.span) ∨ ∃ c, row = [c] ∧ c.y1 < c.y0 := by
  obtain ⟨hmem, hne⟩ := List.mem_filter.mp h
  obtain ⟨r, hr, rfl⟩ := List.mem_map.mp hmem
  rcases rowsOf_common hr with ⟨line, hline, hall⟩ | ⟨c, rfl, hc⟩
  · exact .inl ⟨line, hline, fun c hc => hall c (List.mem_of_mem_filter hc)⟩
  · refine .inr ⟨c, ?_, hc⟩
    cases hsel : decide (c.block ∈ selected) with
    | true => exact List.filter_cons_of_pos hsel
    | false => simp [List.filter_cons_of_neg, hsel] at hne

theorem rebuilds_of_tableOf {U : CharTables} {boxes : LineBoxes} {group : List (Nat × Text)}
    {t : Table} (h : tableOf U boxes group = some t) : ∃ cells, Rebuilds boxes group t cells := by
  obtain ⟨stream, hstream, h⟩ := Option.bind_eq_some_iff.mp h
  dsimp only at h
  split at h
  · next top rest hheader =>
    obtain ⟨hrows, hblocks, hne⟩ := tableUnder_eq_some h
    have hsort : ∀ c, c ∈ stream.insertionSort Cell.before ↔ c ∈ stream := fun c =>
      List.mem_insertionSort _
    have honce : t.rows.flatten.Perm (stream.filter (·.block ∈ t.selected)) := by
      rw [hrows]
      refine (flatten_sortedRow _).trans ?_
      rw [selectedRows_flatten]
      exact (List.perm_insertionSort _ stream).filter _
    have hselected : ∀ n ∈ t.selected, n ∈ group.map Prod.fst := fun n hn => by
      obtain ⟨c, hc, rfl⟩ := List.mem_map.mp (hblocks n hn)
      exact block_of_cell hstream ((hsort c).mp hc)
    refine ⟨stream, hstream, honce, fun row hrow => ?_, fun row hrow => ?_, hselected, ?_⟩
    · rw [hrows] at hrow
      obtain ⟨r, hr, rfl⟩ := List.mem_map.mp hrow
      rcases selectedRows_common hr with ⟨line, hline, hall⟩ | ⟨c, rfl, hc⟩
      · refine .inl ⟨line, (hsort line).mp hline, fun c hc => ?_⟩
        exact hall c ((sortedRow_perm r).mem_iff.mp hc)
      · exact .inr ⟨c, rfl, hc⟩
    · rw [hrows] at hrow
      obtain ⟨r, -, rfl⟩ := List.mem_map.mp hrow
      exact List.pairwise_insertionSort _ r
    · obtain ⟨row, hrow⟩ := List.exists_mem_of_ne_nil _ hne
      obtain ⟨hmem, hrowne⟩ := List.mem_filter.mp hrow
      obtain ⟨c, hc⟩ := List.exists_mem_of_ne_nil row (by simpa using hrowne)
      obtain ⟨r, -, rfl⟩ := List.mem_map.mp hmem
      have hsel : c.block ∈ t.selected := by simpa using (List.mem_filter.mp hc).2
      exact ⟨c.block, hselected _ hsel, hsel⟩
  · cases h

/-! ## What is put out -/

/-- The blocks that keep their text. -/
def keptOf (ps : List Piece) : List Entry :=
  ps.filterMap fun p => match p with
    | .kept e => some e
    | .table _ => none

def tablesOf (ps : List Piece) : List (List (List Cell)) :=
  ps.filterMap fun p => match p with
    | .kept _ => none
    | .table rows => some rows

@[simp] theorem keptOf_append (ps qs : List Piece) : keptOf (ps ++ qs) = keptOf ps ++ keptOf qs :=
  List.filterMap_append

@[simp] theorem tablesOf_append (ps qs : List Piece) :
    tablesOf (ps ++ qs) = tablesOf ps ++ tablesOf qs := List.filterMap_append

@[simp] theorem keptOf_kept (es : List Entry) : keptOf (es.map .kept) = es := by
  induction es with
  | nil => rfl
  | cons e es ih => exact congrArg (e :: ·) ih

@[simp] theorem tablesOf_kept (es : List Entry) : tablesOf (es.map .kept) = [] := by
  induction es with
  | nil => rfl
  | cons e es ih => exact ih

theorem keptOf_emitTable (t : Table) (emitted : Bool) (group : List Entry) :
    keptOf (emitTable t emitted group) = group.filter (·.number ∉ t.selected) := by
  induction group generalizing emitted with
  | nil => cases emitted <;> rfl
  | cons e group ih =>
    rw [emitTable]
    split
    · next hout =>
      rw [List.filter_cons_of_pos (by simpa using hout), ← ih emitted]
      rfl
    · next hin =>
      rw [List.filter_cons_of_neg (by simpa using hin)]
      split
      · exact ih emitted
      · rw [← ih true]
        rfl

theorem tablesOf_emitted (t : Table) (group : List Entry) :
    tablesOf (emitTable t true group) = [] := by
  induction group with
  | nil => rfl
  | cons e group ih =>
    rw [emitTable]
    split
    · exact ih
    · rw [if_pos rfl]
      exact ih

/-- A table with a selected block in the group is put out once. -/
theorem tablesOf_emitTable {t : Table} {group : List Entry}
    (h : ∃ e ∈ group, e.number ∈ t.selected) :
    tablesOf (emitTable t false group) = [t.rows] := by
  induction group with
  | nil =>
    obtain ⟨e, he, -⟩ := h
    cases he
  | cons e group ih =>
    rw [emitTable]
    split
    · next hout =>
      refine ih ?_
      obtain ⟨d, hd, hsel⟩ := h
      rcases List.mem_cons.mp hd with rfl | hd
      · exact absurd hsel hout
      · exact ⟨d, hd, hsel⟩
    · rw [if_neg (by decide)]
      exact congrArg (t.rows :: ·) (tablesOf_emitted t group)

/-- The lines that a group hands to the table. -/
def linesIn (group : List Entry) : List (Nat × Text) := group.map fun e => (e.number, e.stripped)

/-- The numbers of the blocks that the table of a group takes, if there is one. -/
def selectedIn (U : CharTables) (boxes : LineBoxes) (group : List Entry) : List Nat :=
  ((rebuilt U boxes group).map Table.selected).getD []

theorem rebuilt_eq_some {U : CharTables} {boxes : LineBoxes} {group : List Entry} {t : Table}
    (h : rebuilt U boxes group = some t) : ∃ cells, Rebuilds boxes (linesIn group) t cells := by
  unfold rebuilt at h
  split at h
  · exact rebuilds_of_tableOf h
  · cases h

theorem mem_linesIn {group : List Entry} {n : Nat} :
    n ∈ (linesIn group).map Prod.fst ↔ n ∈ group.map Entry.number := by
  rw [linesIn, List.map_map]
  rfl

theorem selectedIn_subset {U : CharTables} {boxes : LineBoxes} {group : List Entry} {n : Nat}
    (h : n ∈ selectedIn U boxes group) : n ∈ group.map Entry.number := by
  unfold selectedIn at h
  cases ht : rebuilt U boxes group with
  | none =>
    rw [ht] at h
    cases h
  | some t =>
    rw [ht] at h
    obtain ⟨cells, hcells⟩ := rebuilt_eq_some ht
    exact mem_linesIn.mp (hcells.blocks n h)

theorem keptOf_emit (U : CharTables) (boxes : LineBoxes) (group : List Entry) :
    keptOf (emit U boxes group) = group.filter (·.number ∉ selectedIn U boxes group) := by
  unfold emit selectedIn
  cases ht : rebuilt U boxes group with
  | none => simp
  | some t => exact keptOf_emitTable t false group

theorem tablesOf_emit (U : CharTables) (boxes : LineBoxes) (group : List Entry) :
    tablesOf (emit U boxes group) = ((rebuilt U boxes group).map Table.rows).toList := by
  unfold emit
  cases ht : rebuilt U boxes group with
  | none => simp
  | some t =>
    obtain ⟨cells, hcells⟩ := rebuilt_eq_some ht
    obtain ⟨n, hn, hsel⟩ := hcells.nonempty
    obtain ⟨e, he, rfl⟩ := List.mem_map.mp (mem_linesIn.mp hn)
    exact tablesOf_emitTable ⟨e, he, hsel⟩

/-! ## The words of what is put out -/

def pieceWords (ps : List Piece) : List Text := ps.flatMap fun p => words isSpace p.text

def entryWords (es : List Entry) : List Text := es.flatMap fun e => words isSpace e.stripped

theorem cellWords_flatten (rows : List (List Cell)) :
    cellWords rows.flatten = rows.flatMap cellWords := by
  induction rows with
  | nil => rfl
  | cons row rows ih =>
    rw [List.flatten_cons, List.flatMap_cons, ← ih]
    exact List.flatMap_append

theorem words_table (rows : List (List Cell)) :
    words isSpace (Piece.table rows).text = cellWords rows.flatten := by
  have hnl : words isSpace ['\n'] = [] := by decide
  have hrow : ∀ row : List Cell, words isSpace (rowText row) = cellWords row := fun row => by
    rw [rowText, words_intercalate (by decide), List.flatMap_map]
    rfl
  rw [Piece.text, words_append_of_head _ (by simp [isSpace_newline]), hnl, List.append_nil,
    joinLines, words_intercalate isSpace_newline, List.flatMap_map, cellWords_flatten]
  exact List.flatMap_congr fun row _ => hrow row

theorem pieceWords_perm (ps : List Piece) :
    (pieceWords ps).Perm
      (entryWords (keptOf ps) ++ (tablesOf ps).flatMap fun rows => cellWords rows.flatten) := by
  induction ps with
  | nil => exact .refl _
  | cons p ps ih =>
    cases p with
    | kept e =>
      show (words isSpace e.stripped ++ pieceWords ps).Perm
        (words isSpace e.stripped ++ entryWords (keptOf ps) ++ _)
      rw [List.append_assoc]
      exact ih.append_left _
    | table rows =>
      show (words isSpace (Piece.table rows).text ++ pieceWords ps).Perm
        (entryWords (keptOf ps) ++ (cellWords rows.flatten ++ _))
      rw [words_table]
      exact (ih.append_left _).trans (List.perm_append_comm_assoc _ _ _)

theorem entryWords_append (es fs : List Entry) :
    entryWords (es ++ fs) = entryWords es ++ entryWords fs := List.flatMap_append

/-- A group keeps its words. -/
theorem pieceWords_emit (U : CharTables) (boxes : LineBoxes) (group : List Entry) :
    (pieceWords (emit U boxes group)).Perm (entryWords group) := by
  refine (pieceWords_perm _).trans ?_
  rw [keptOf_emit, tablesOf_emit, selectedIn]
  cases ht : rebuilt U boxes group with
  | none => simp
  | some t =>
    obtain ⟨cells, hcells⟩ := rebuilt_eq_some ht
    have htable : (cellWords t.rows.flatten).Perm
        (entryWords (group.filter (·.number ∈ t.selected))) := by
      refine (hcells.once.flatMap_right _).trans (.of_eq ?_)
      have hwords := cellWords_group hcells.stream fun n => n ∈ t.selected
      rw [linesIn, List.filter_map, List.flatMap_map] at hwords
      exact hwords
    have hsplit : (entryWords (group.filter (·.number ∉ t.selected)) ++
        entryWords (group.filter (·.number ∈ t.selected))).Perm (entryWords group) := by
      rw [← entryWords_append]
      refine List.Perm.flatMap_right _ (List.perm_append_comm.trans ?_)
      have hnot : (group.filter fun e => e.number ∉ t.selected) =
          group.filter fun e => !decide (e.number ∈ t.selected) :=
        List.filter_congr fun e _ => decide_not
      rw [hnot]
      exact List.filter_append_perm _ group
    simpa using (htable.append_left _).trans hsplit

/-! ## The groups of a page -/

/-- Intervals that follow one another from `cursor` up to `n`. -/
def Fits (n : Nat) : Nat → List (Nat × Nat) → Prop
  | cursor, [] => cursor ≤ n
  | cursor, (start, stop) :: gs => cursor ≤ start ∧ start < stop ∧ stop ≤ n ∧ Fits n stop gs

/-- The open group starts behind the cursor and before the next block. -/
def Behind (cursor i : Nat) : Option Group → Prop
  | none => cursor ≤ i
  | some g => cursor ≤ g.start ∧ g.start < i

theorem groupsFrom_fits (i cursor : Nat) (g : Option Group) (entries : List Entry)
    (h : Behind cursor i g) : Fits (i + entries.length) cursor (groupsFrom i g entries) := by
  induction entries generalizing i cursor g with
  | nil =>
    cases g with
    | none => exact h
    | some g => exact ⟨h.1, h.2, le_refl _, le_refl _⟩
  | cons e entries ih =>
    have hlen : i + (e :: entries).length = i + 1 + entries.length := by
      rw [List.length_cons]
      omega
    rw [hlen]
    cases g with
    | none =>
      rw [groupsFrom]
      split
      · exact ih _ _ _ ⟨h, Nat.lt_succ_self i⟩
      · exact ih _ _ _ (Nat.le_succ_of_le h)
    | some g =>
      have hclose : ∀ gs, Fits (i + 1 + entries.length) i gs →
          Fits (i + 1 + entries.length) cursor ((g.start, i) :: gs) :=
        fun gs hgs => ⟨h.1, h.2, by omega, hgs⟩
      rw [groupsFrom]
      split
      · split
        · exact ih _ _ _ ⟨h.1, Nat.lt_succ_of_lt h.2⟩
        · exact hclose _ (ih _ _ _ ⟨le_refl i, Nat.lt_succ_self i⟩)
      · exact hclose _ (ih _ _ _ (Nat.le_succ i))

theorem groups_fits (entries : List Entry) : Fits entries.length 0 (groups entries) := by
  have h := groupsFrom_fits 0 0 none entries (le_refl 0)
  rwa [Nat.zero_add] at h

/-- The entries in and between the groups; a group is marked. -/
def segments (entries : List Entry) (cursor : Nat) : List (Nat × Nat) → List (Bool × List Entry)
  | [] => [(false, entries.drop cursor)]
  | (start, stop) :: gs =>
    (false, between entries cursor start) :: (true, between entries start stop) ::
      segments entries stop gs

theorem between_append_drop {entries : List Entry} {start stop : Nat} (h : start ≤ stop) :
    between entries start stop ++ entries.drop stop = entries.drop start := by
  have hrest : (entries.drop stop).drop (start - (entries.take stop).length) =
      entries.drop stop := by
    rw [List.length_take]
    by_cases hlen : stop ≤ entries.length
    · rw [Nat.min_eq_left hlen, Nat.sub_eq_zero_of_le h, List.drop_zero]
    · rw [List.drop_eq_nil_of_le (Nat.le_of_not_le hlen), List.drop_nil]
  conv_rhs => rw [← List.take_append_drop stop entries, List.drop_append, hrest]
  rfl

theorem segments_flatten {entries : List Entry} {cursor : Nat} {gs : List (Nat × Nat)}
    (h : Fits entries.length cursor gs) :
    (segments entries cursor gs).flatMap Prod.snd = entries.drop cursor := by
  induction gs generalizing cursor with
  | nil => simp [segments]
  | cons g gs ih =>
    obtain ⟨hstart, hstop, -, hgs⟩ := h
    rw [segments, List.flatMap_cons, List.flatMap_cons, ih hgs, between_append_drop hstop.le,
      between_append_drop hstart]

def segmentOut (U : CharTables) (boxes : LineBoxes) (seg : Bool × List Entry) : List Piece :=
  if seg.1 then emit U boxes seg.2 else seg.2.map .kept

def segmentSelected (U : CharTables) (boxes : LineBoxes) (seg : Bool × List Entry) : List Nat :=
  if seg.1 then selectedIn U boxes seg.2 else []

theorem outFrom_eq (U : CharTables) (boxes : LineBoxes) (entries : List Entry) (cursor : Nat)
    (gs : List (Nat × Nat)) : outFrom U boxes entries cursor gs =
      (segments entries cursor gs).flatMap (segmentOut U boxes) := by
  induction gs generalizing cursor with
  | nil => simp [outFrom, segments, segmentOut]
  | cons g gs ih =>
    rw [outFrom, ih, segments, List.flatMap_cons, List.flatMap_cons, List.append_assoc]
    rfl

theorem keptOf_segment (U : CharTables) (boxes : LineBoxes) (seg : Bool × List Entry) :
    keptOf (segmentOut U boxes seg) =
      seg.2.filter (·.number ∉ segmentSelected U boxes seg) := by
  unfold segmentOut segmentSelected
  split
  · exact keptOf_emit U boxes seg.2
  · simp

theorem segmentSelected_subset {U : CharTables} {boxes : LineBoxes} {seg : Bool × List Entry}
    {n : Nat} (h : n ∈ segmentSelected U boxes seg) : n ∈ seg.2.map Entry.number := by
  unfold segmentSelected at h
  split at h
  · exact selectedIn_subset h
  · cases h

theorem segmentWords (U : CharTables) (boxes : LineBoxes) (seg : Bool × List Entry) :
    (pieceWords (segmentOut U boxes seg)).Perm (entryWords seg.2) := by
  unfold segmentOut
  split
  · exact pieceWords_emit U boxes seg.2
  · exact .of_eq (List.flatMap_map ..)

/-- Where no number is repeated, a block is taken by its own group only. -/
theorem keptOf_segments {U : CharTables} {boxes : LineBoxes} {segs : List (Bool × List Entry)}
    (h : ((segs.flatMap Prod.snd).map Entry.number).Nodup) :
    keptOf (segs.flatMap (segmentOut U boxes)) = (segs.flatMap Prod.snd).filter
      (·.number ∉ segs.flatMap (segmentSelected U boxes)) := by
  induction segs with
  | nil => rfl
  | cons seg segs ih =>
    rw [List.flatMap_cons, List.map_append] at h
    obtain ⟨hseg, hsegs, hdisjoint⟩ := List.nodup_append.mp h
    have hlater : ∀ n ∈ segs.flatMap (segmentSelected U boxes),
        n ∈ (segs.flatMap Prod.snd).map Entry.number := fun n hn => by
      obtain ⟨other, hother, hn⟩ := List.mem_flatMap.mp hn
      obtain ⟨e, he, rfl⟩ := List.mem_map.mp (segmentSelected_subset hn)
      exact List.mem_map_of_mem (List.mem_flatMap.mpr ⟨other, hother, he⟩)
    rw [List.flatMap_cons, List.flatMap_cons, List.flatMap_cons, keptOf_append, ih hsegs,
      keptOf_segment, List.filter_append]
    congr 1
    · refine List.filter_congr fun e he => decide_eq_decide.mpr (not_congr ?_)
      rw [List.mem_append]
      refine ⟨.inl, fun hor => hor.resolve_right fun hn => ?_⟩
      exact hdisjoint _ (List.mem_map_of_mem he) _ (hlater _ hn) rfl
    · refine List.filter_congr fun e he => decide_eq_decide.mpr (not_congr ?_)
      rw [List.mem_append]
      refine ⟨.inr, fun hor => hor.resolve_left fun hn => ?_⟩
      exact hdisjoint _ (segmentSelected_subset hn) _ (List.mem_map_of_mem he) rfl

theorem pieceWords_segments (U : CharTables) (boxes : LineBoxes)
    (segs : List (Bool × List Entry)) :
    (pieceWords (segs.flatMap (segmentOut U boxes))).Perm (entryWords (segs.flatMap Prod.snd)) := by
  induction segs with
  | nil => exact .refl _
  | cons seg segs ih =>
    rw [List.flatMap_cons, List.flatMap_cons, entryWords_append, pieceWords, List.flatMap_append]
    exact (segmentWords U boxes seg).append ih

/-- The tables of the groups, in order. -/
def rebuiltTables (U : CharTables) (boxes : LineBoxes) (entries : List Entry)
    (gs : List (Nat × Nat)) : List Table :=
  gs.filterMap fun g => rebuilt U boxes (between entries g.1 g.2)

theorem rebuiltTables_cons (U : CharTables) (boxes : LineBoxes) (entries : List Entry)
    (g : Nat × Nat) (gs : List (Nat × Nat)) : rebuiltTables U boxes entries (g :: gs) =
      (rebuilt U boxes (between entries g.1 g.2)).toList ++ rebuiltTables U boxes entries gs := by
  rw [rebuiltTables, List.filterMap_cons]
  cases rebuilt U boxes (between entries g.1 g.2) <;> rfl

theorem tablesOf_outFrom (U : CharTables) (boxes : LineBoxes) (entries : List Entry)
    (cursor : Nat) (gs : List (Nat × Nat)) : tablesOf (outFrom U boxes entries cursor gs) =
      (rebuiltTables U boxes entries gs).map Table.rows := by
  induction gs generalizing cursor with
  | nil => exact tablesOf_kept _
  | cons g gs ih =>
    rw [outFrom, tablesOf_append, tablesOf_append, tablesOf_kept, tablesOf_emit, ih,
      rebuiltTables_cons]
    cases rebuilt U boxes (between entries g.1 g.2) <;> rfl

theorem segments_selected (U : CharTables) (boxes : LineBoxes) (entries : List Entry)
    (cursor : Nat) (gs : List (Nat × Nat)) :
    (segments entries cursor gs).flatMap (segmentSelected U boxes) =
      (rebuiltTables U boxes entries gs).flatMap Table.selected := by
  induction gs generalizing cursor with
  | nil => rfl
  | cons g gs ih =>
    have hgroup : selectedIn U boxes (between entries g.1 g.2) =
        (rebuilt U boxes (between entries g.1 g.2)).toList.flatMap Table.selected := by
      unfold selectedIn
      cases rebuilt U boxes (between entries g.1 g.2) <;> simp
    rw [rebuiltTables_cons, List.flatMap_append, ← hgroup, ← ih g.2]
    rfl

/-! ## The page -/

/-- A separator or nothing stands at the end. -/
def Ended (t : Text) : Prop := ∀ c ∈ t.getLast?, isSpace c = true

theorem ended_newline (t : Text) : Ended (t ++ ['\n']) := by
  intro c hc
  rw [List.getLast?_concat] at hc
  cases hc
  exact isSpace_newline

theorem words_flatMap {α : Type} {text : α → Text} {l : List α} (h : ∀ a ∈ l, Ended (text a)) :
    words isSpace (l.flatMap text) = l.flatMap fun a => words isSpace (text a) := by
  induction l with
  | nil => rfl
  | cons a l ih =>
    obtain ⟨ha, hl⟩ := List.forall_mem_cons.mp h
    rw [List.flatMap_cons, words_append_of_last ha, ih hl, List.flatMap_cons]

/-- Lines before an empty one, joined, all end with their newline. -/
theorem joinLines_concat (lines : List Text) :
    joinLines (lines ++ [[]]) = lines.flatMap (· ++ ['\n']) := by
  induction lines with
  | nil => rfl
  | cons l lines ih =>
    obtain ⟨m, ms, hms⟩ := List.exists_cons_of_ne_nil
      (List.append_ne_nil_of_right_ne_nil lines (List.cons_ne_nil [] []))
    rw [List.flatMap_cons, ← ih, List.cons_append, hms, joinLines, joinLines,
      List.intercalate_cons_cons]

theorem ended_joinLines (lines : List Text) : Ended (joinLines (lines ++ [[]])) := by
  rw [joinLines_concat]
  rcases List.eq_nil_or_concat lines with rfl | ⟨init, last, rfl⟩
  · intro c hc
    cases hc
  · rw [List.concat_eq_append, List.flatMap_append, List.flatMap_singleton, ← List.append_assoc]
    exact ended_newline _

/-- The last of the lines of a text with a newline at its end. -/
theorem linesAt_concat (number : Nat) (t : Text) : linesAt number (t ++ ['\n']) =
    linesAt number t ++ [((number, (t.splitOn '\n').length), [])] := by
  have hsplit : (t ++ ['\n']).splitOn '\n' = t.splitOn '\n' ++ [[]] := by
    rw [List.splitOn_eq_splitOnP]
    exact List.splitOnP_append_cons t [] (beq_self_eq_true '\n')
  rw [linesAt, hsplit, List.zipIdx_append, List.map_append, linesAt]
  simp

theorem mem_linesAt {number : Nat} {t : Text} {l : Key × Text} :
    l ∈ linesAt number t ↔ l.1.1 = number ∧ (t.splitOn '\n')[l.1.2]? = some l.2 := by
  rw [linesAt, List.mem_map]
  constructor
  · rintro ⟨⟨line, i⟩, hmem, rfl⟩
    exact ⟨rfl, List.mk_mem_zipIdx_iff_getElem?.mp hmem⟩
  · rintro ⟨rfl, hline⟩
    exact ⟨(l.2, l.1.2), List.mk_mem_zipIdx_iff_getElem?.mpr hline, rfl⟩

theorem lineWords_linesOf {blocks : List Block} (h : ∀ b ∈ blocks, ['\n'] <:+ b.text) :
    lineWords (linesOf blocks) = words isSpace (blocks.flatMap Block.text) := by
  have hended : ∀ b ∈ blocks, Ended b.text := fun b hb => by
    obtain ⟨t, ht⟩ := h b hb
    rw [← ht]
    exact ended_newline t
  rw [words_flatMap hended, lineWords, linesOf, List.flatMap_assoc]
  exact List.flatMap_congr fun b _ => lineWords_linesAt b.number b.text

theorem entryWords_entryOf (blocks : List Block) (bars : Finset Key) :
    entryWords (blocks.map (entryOf bars)) =
      lineWords ((linesOf blocks).filter fun l => l.1 ∉ bars) := by
  rw [entryWords, List.flatMap_map, linesOf, List.filter_flatMap, lineWords, List.flatMap_assoc]
  exact List.flatMap_congr fun b _ => words_joinLines _

/-- A block that ends with a newline still ends a line when its bars are gone. -/
theorem ended_entryOf {blocks : List Block} {boxes : LineBoxes} {bars : Finset Key}
    (hbars : bars ⊆ barLines blocks boxes) (hend : ∀ b ∈ blocks, ['\n'] <:+ b.text)
    (hnumbers : (blocks.map Block.number).Nodup) {b : Block} (hb : b ∈ blocks) :
    Ended (entryOf bars b).stripped := by
  obtain ⟨t, ht⟩ := hend b hb
  have hkeep : ((b.number, (t.splitOn '\n').length) : Key) ∉ bars := fun hin => by
    obtain ⟨l, hl, hkey⟩ := List.mem_map.mp (List.mem_toFinset.mp (hbars hin))
    obtain ⟨hl, hbar⟩ := List.mem_filter.mp hl
    obtain ⟨other, hother, hl⟩ := List.mem_flatMap.mp hl
    have hsame : other = b :=
      List.inj_on_of_nodup_map hnumbers hother hb (by rw [← lines_number hl, hkey])
    have hlast : ((b.number, (t.splitOn '\n').length), []) ∈ linesAt b.number b.text := by
      rw [← ht, linesAt_concat]
      exact List.mem_append_right _ List.mem_cons_self
    have hline := (mem_linesAt.mp hl).2
    rw [hsame, hkey, (mem_linesAt.mp hlast).2] at hline
    rw [← Option.some.inj hline] at hbar
    have hblank : strip [] = ['|'] := (of_decide_eq_true hbar).1
    exact absurd hblank (by decide)
  show Ended (joinLines (((linesAt b.number b.text).filter fun l => l.1 ∉ bars).map Prod.snd))
  rw [← ht, linesAt_concat, List.filter_append, List.filter_cons_of_pos (by simpa using hkeep),
    List.map_append]
  exact ended_joinLines _

theorem mem_keptOf {e : Entry} {ps : List Piece} : e ∈ keptOf ps ↔ .kept e ∈ ps := by
  rw [keptOf, List.mem_filterMap]
  constructor
  · rintro ⟨p, hp, he⟩
    cases p with
    | kept d =>
      cases he
      exact hp
    | table rows => cases he
  · exact fun h => ⟨_, h, rfl⟩

/-- The lines of the bars. -/
def barWords (page : Page) (bars : Finset Key) : List Text :=
  lineWords ((linesOf (textBlocks page)).filter fun l => l.1 ∈ bars)

/-- The blocks taken by a rebuilt table. -/
def selectedBlocks (U : CharTables) (page : Page) (bars : Finset Key) : List Nat :=
  (rebuiltTables U (lineBoxes page.words) (entriesOf page bars)
    (groups (entriesOf page bars))).flatMap Table.selected

theorem entries_numbers (page : Page) (bars : Finset Key) :
    (entriesOf page bars).map Entry.number = (textBlocks page).map Block.number := by
  rw [entriesOf, List.map_map]
  rfl

theorem out_kept (U : CharTables) {page : Page} (bars : Finset Key)
    (h : ((textBlocks page).map Block.number).Nodup) : keptOf (out U page bars) =
      (entriesOf page bars).filter (·.number ∉ selectedBlocks U page bars) := by
  have hflat := segments_flatten (groups_fits (entriesOf page bars))
  rw [List.drop_zero] at hflat
  rw [out, outFrom_eq, keptOf_segments (by rw [hflat, entries_numbers]; exact h), hflat,
    segments_selected]
  rfl

theorem out_words {U : CharTables} {page : Page} {bars : Finset Key} :
    (pieceWords (out U page bars)).Perm (entryWords (entriesOf page bars)) := by
  have hflat := segments_flatten (groups_fits (entriesOf page bars))
  rw [List.drop_zero] at hflat
  rw [out, outFrom_eq]
  exact (pieceWords_segments U _ _).trans (.of_eq (by rw [hflat]))

theorem extractPageText_eq (U : CharTables) {page : Page} (bars : Finset Key)
    (h : (textBlocks page).flatMap Block.text = page.plain) :
    extractPageText U page bars = (out U page bars).flatMap Piece.text := by
  unfold extractPageText
  split
  · next hplain =>
    have hnil : textBlocks page = [] := hplain.resolve_right fun hne => hne h
    rw [← h, out, entriesOf, hnil]
    rfl
  · rfl

/-- What a page loses is its bars: its words, its other blocks in order, and the lines of the
blocks that a table takes, each in one row. -/
theorem extractPageText_keeps (U : CharTables) (page : Page) (bars : Finset Key)
    (hplain : (textBlocks page).flatMap Block.text = page.plain)
    (hend : ∀ b ∈ textBlocks page, ['\n'] <:+ b.text)
    (hnumbers : ((textBlocks page).map Block.number).Nodup)
    (hbars : IsMarginBarLines page.dict (textBlocks page) (lineBoxes page.words) bars) :
    (words isSpace (extractPageText U page bars) ++ barWords page bars).Perm
        (words isSpace page.plain) ∧
      extractPageText U page bars = (out U page bars).flatMap Piece.text ∧
      keptOf (out U page bars) =
        (entriesOf page bars).filter (·.number ∉ selectedBlocks U page bars) ∧
      tablesOf (out U page bars) = (rebuiltTables U (lineBoxes page.words) (entriesOf page bars)
        (groups (entriesOf page bars))).map Table.rows ∧
      ∀ g ∈ groups (entriesOf page bars), ∀ t,
        rebuilt U (lineBoxes page.words) (between (entriesOf page bars) g.1 g.2) = some t →
          ∃ cells, Rebuilds (lineBoxes page.words)
            (linesIn (between (entriesOf page bars) g.1 g.2)) t cells := by
  have hkept := out_kept U bars hnumbers
  have hended : ∀ p ∈ out U page bars, Ended p.text := fun p hp => by
    cases p with
    | kept e =>
      have he := mem_keptOf.mpr hp
      rw [hkept] at he
      obtain ⟨b, hb, rfl⟩ := List.mem_map.mp (List.mem_of_mem_filter he)
      exact ended_entryOf (MarginBars.subset_barLines hbars) hend hnumbers hb
    | table rows => exact ended_newline _
  have hextract := extractPageText_eq U bars hplain
  refine ⟨?_, hextract, hkept, tablesOf_outFrom U _ _ _ _, fun g _ t ht => rebuilt_eq_some ht⟩
  rw [hextract, words_flatMap hended, ← hplain, ← lineWords_linesOf hend, barWords]
  refine (out_words.append_right _).trans ?_
  rw [entriesOf, entryWords_entryOf, ← lineWords_append]
  refine List.Perm.flatMap_right _ (List.perm_append_comm.trans ?_)
  have hnot : ((linesOf (textBlocks page)).filter fun l => l.1 ∉ bars) =
      (linesOf (textBlocks page)).filter fun l => !decide (l.1 ∈ bars) :=
    List.filter_congr fun l _ => decide_not
  rw [hnot]
  exact List.filter_append_perm _ _

def columnPage : Page where
  plain := "Parameter\nMAXJOBS\nMINJOBS\nOTHER\nDefault\n200\n5\n".toList
  blocks := [⟨⟨10, 100, 60, 170⟩, "Parameter\nMAXJOBS\nMINJOBS\nOTHER\n".toList, 0, some 0⟩,
    ⟨⟨100, 100, 150, 150⟩, "Default\n200\n5\n".toList, 1, some 0⟩]
  words := [⟨⟨10, 100, 60, 110⟩, 0, 0⟩, ⟨⟨10, 120, 50, 130⟩, 0, 1⟩, ⟨⟨10, 140, 50, 150⟩, 0, 2⟩,
    ⟨⟨10, 170, 40, 160⟩, 0, 3⟩, ⟨⟨100, 100, 150, 110⟩, 1, 0⟩, ⟨⟨100, 120, 120, 130⟩, 1, 1⟩,
    ⟨⟨100, 140, 120, 150⟩, 1, 2⟩]
  dict := []

theorem columnPage_bars : IsMarginBarLines columnPage.dict (textBlocks columnPage)
    (lineBoxes columnPage.words) ∅ := by
  have hbars : barLines (textBlocks columnPage) (lineBoxes columnPage.words) = ∅ := by
    decide +kernel
  rw [IsMarginBarLines, if_pos hbars]

theorem extractPageText_keeps_columns :
    (words isSpace (extractPageText asciiTables columnPage ∅) ++ barWords columnPage ∅).Perm
      (words isSpace columnPage.plain) :=
  (extractPageText_keeps asciiTables columnPage ∅ (by decide +kernel)
    (by intro b hb; exact List.isSuffixOf_iff_suffix.mp (by revert b; decide +kernel)) (by decide)
    columnPage_bars).1

/-- A word whose box is upside down gets a row of its own, and shares it with no line. -/
theorem inverted_box_alone : (0, 2) ∈ groups (entriesOf columnPage ∅) ∧ ∃ t cells,
    rebuilt asciiTables (lineBoxes columnPage.words) (between (entriesOf columnPage ∅) 0 2) =
      some t ∧
    tableCells (lineBoxes columnPage.words) (linesIn (between (entriesOf columnPage ∅) 0 2)) =
      some cells ∧
    ∃ row ∈ t.rows, ¬ ∃ line ∈ cells, ∀ c ∈ row, SameRow line.span c.span := by
  have hrun : ((rebuilt asciiTables (lineBoxes columnPage.words)
      (between (entriesOf columnPage ∅) 0 2)).any fun t =>
      (tableCells (lineBoxes columnPage.words)
        (linesIn (between (entriesOf columnPage ∅) 0 2))).any fun cells =>
          decide (∃ row ∈ t.rows, ¬ ∃ line ∈ cells, ∀ c ∈ row, SameRow line.span c.span)) =
      true := by decide +kernel
  obtain ⟨t, ht, hrun⟩ := (Option.any_eq_true _ _).mp hrun
  obtain ⟨cells, hcells, hrun⟩ := (Option.any_eq_true _ _).mp hrun
  exact ⟨by decide +kernel, t, cells, ht, hcells, of_decide_eq_true hrun⟩

end MainframeRag.Ingest.PageTables
