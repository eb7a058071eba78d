import MainframeRag.Ingest.Chunking.Expand

/-!
# The splitters keep the ink

The splitters move line breaks and blanks and nothing else: `ink`, the characters that are not
whitespace, passes through `expand` unchanged (`ink_expand`).
-/

namespace MainframeRag.Ingest.Chunking

open PyText

/-! ## Ink -/

/-- The characters of a text that are not whitespace. -/
def ink (t : Text) : Text := t.filter (fun c => !isSpace c)

@[simp] theorem ink_nil : ink [] = [] := rfl

@[simp] theorem ink_append (t u : Text) : ink (t ++ u) = ink t ++ ink u := List.filter_append ..

theorem ink_cons (c : Char) (t : Text) : ink (c :: t) = ink [c] ++ ink t := by
  rw [← ink_append, List.singleton_append]

theorem ink_blank {t : Text} (h : blank t) : ink t = [] :=
  List.filter_eq_nil_iff.mpr fun c hc => by simp [h c hc]

@[simp] theorem ink_lstrip (t : Text) : ink (lstrip t) = ink t := by
  obtain ⟨w, hw, e⟩ := lstrip_spec t
  conv_rhs => rw [e, ink_append, ink_blank hw, List.nil_append]

@[simp] theorem ink_rstrip (t : Text) : ink (rstrip t) = ink t := by
  obtain ⟨w, hw, e⟩ := rstrip_spec t
  conv_rhs => rw [e, ink_append, ink_blank hw, List.append_nil]

@[simp] theorem ink_strip (t : Text) : ink (strip t) = ink t := by
  rw [strip, ink_rstrip, ink_lstrip]

theorem ink_of_strip {t : Text} (h : strip t = []) : ink t = [] := ink_blank (strip_eq_nil.mp h)

/-- The ink of texts one after the other. -/
def inks (ts : List Text) : Text := ts.flatMap ink

@[simp] theorem inks_nil : inks [] = [] := rfl

@[simp] theorem inks_cons (t : Text) (ts : List Text) : inks (t :: ts) = ink t ++ inks ts := rfl

@[simp] theorem inks_append (ts us : List Text) : inks (ts ++ us) = inks ts ++ inks us :=
  List.flatMap_append

theorem inks_flatMap {α : Type} (f : α → List Text) (l : List α) :
    inks (l.flatMap f) = l.flatMap (fun a => inks (f a)) := List.flatMap_assoc

@[simp] theorem ink_joinLines (ts : List Text) : ink (joinLines ts) = inks ts := by
  induction ts with
  | nil => rfl
  | cons t ts ih =>
    cases ts with
    | nil => simp [joinLines]
    | cons u ts =>
      have hj : joinLines (t :: u :: ts) = t ++ ['\n'] ++ joinLines (u :: ts) := by
        simp [joinLines, List.intercalate]
      have hnl : ink ['\n'] = [] := by decide
      rw [hj, ink_append, ink_append, ih, hnl, List.append_nil, inks_cons t]

@[simp] theorem inks_nonblank (ts : List Text) : inks (ts.filter (fun t => strip t ≠ [])) = inks ts := by
  induction ts with
  | nil => rfl
  | cons t ts ih =>
    by_cases h : strip t = []
    · rw [List.filter_cons_of_neg (by simpa using h), ih, inks_cons, ink_of_strip h, List.nil_append]
    · rw [List.filter_cons_of_pos (by simpa using h), inks_cons, ih, inks_cons]

@[simp] theorem inks_map_rstrip (ts : List Text) : inks (ts.map rstrip) = inks ts := by
  simp [inks, List.flatMap_map]

@[simp] theorem inks_map_strip (ts : List Text) : inks (ts.map strip) = inks ts := by
  simp [inks, List.flatMap_map]

/-! ## Lines -/

theorem ink_universalNewlines (t : Text) : ink (universalNewlines t) = ink t := by
  fun_induction universalNewlines t with
  | case1 => rfl
  | case2 t ih =>
    have h : ink ['\r'] = [] ∧ ink ['\n'] = [] := by decide
    rw [ink_cons, ih, ink_cons '\r', ink_cons '\n', h.1, h.2]
    rfl
  | case3 c t _ ih =>
    rw [ink_cons, ih, ink_cons c]
    by_cases hc : c = '\r'
    · subst hc
      rfl
    · rw [if_neg hc]

theorem inks_cut (t : Text) : inks (cut t).done ++ ink (cut t).rest = ink t := by
  induction t using List.reverseRecOn with
  | nil => rfl
  | append_singleton t c ih =>
    rw [cut_append, List.foldl_cons, List.foldl_nil, ink_append, ← ih, Cut.feed]
    split
    · next h =>
      have hc : ink [c] = [] := ink_blank (by simpa [blank] using isSpace_of_isLineBreak h)
      simp [hc]
    · simp

@[simp] theorem inks_splitlines (t : Text) : inks (splitlines t) = ink t := by
  rw [splitlines, cutLines, ← ink_universalNewlines t, ← inks_cut, Cut.lines]
  split
  · next h => rw [h, ink_nil, List.append_nil]
  · simp

@[simp] theorem inks_nonblankLines (t : Text) : inks (nonblankLines t) = ink t := by
  rw [nonblankLines, inks_nonblank, inks_splitlines]

/-! ## JCL -/

theorem inks_joinWrapped (lines : List Text) : inks (joinWrapped lines) = inks lines := by
  fun_induction joinWrapped lines with
  | case1 => rfl
  | case2 => rfl
  | case3 line next lines h ih =>
    have hl : ink line = ['/', '/'] := by
      rw [← ink_strip, h.1]
      decide
    have hs : ink ('/' :: '/' :: lstrip next) = ['/', '/'] ++ ink next := by
      rw [ink_cons, ink_cons '/' (lstrip next), ink_lstrip]
      rfl
    rw [inks_cons, ih, hs, inks_cons, inks_cons, hl, List.append_assoc]
  | case4 line next lines _ ih => rw [inks_cons line, ih, inks_cons line]

/-- What the statements read so far hold. -/
def StmtState.ink (s : StmtState) : Text := inks s.statements ++ inks s.current

@[simp] theorem StmtState.ink_close (s : StmtState) : s.close.ink = s.ink := by
  unfold close
  split
  · rfl
  · simp [ink]

theorem StmtState.close_current (s : StmtState) : s.close.current = [] := by
  unfold close
  split <;> simp_all

theorem StmtState.ink_feed (s : StmtState) (line : Text) :
    (s.feed line).ink = s.ink ++ Chunking.ink line := by
  have hc : inks s.close.statements = s.ink := by
    rw [← ink_close s, ink, close_current, inks_nil, List.append_nil]
  unfold feed
  split_ifs with h1 h2 h3
  · simp [ink, hc]
  · simp [ink]
  · rw [ink_close, ink_of_strip h3, List.append_nil]
  · simp [ink, hc]

theorem StmtState.ink_foldl (lines : List Text) (s : StmtState) :
    (lines.foldl StmtState.feed s).ink = s.ink ++ inks lines := by
  induction lines generalizing s with
  | nil => simp
  | cons l lines ih => rw [List.foldl_cons, ih, ink_feed, inks_cons, List.append_assoc]

@[simp] theorem inks_splitJclStatements (t : Text) : inks (splitJclStatements t) = ink t := by
  have h := StmtState.ink_foldl (joinWrapped (splitlines t)) {}
  rw [inks_joinWrapped, inks_splitlines] at h
  unfold splitJclStatements
  simp only [inks_nonblank, inks_map_rstrip]
  rw [← StmtState.ink_close, StmtState.ink, StmtState.close_current] at h
  simpa [StmtState.ink] using h

/-! ## REXX -/

def RexxState.ink (s : RexxState) : Text := inks s.statements ++ Chunking.ink s.cur

theorem RexxState.ink_keep (s : RexxState) (t : Text) : (s.keep t).ink = s.ink ++ Chunking.ink t := by
  simp [ink, keep]

theorem ink_rexxChar (s : RexxState) (c : Char) : (rexxChar s c).ink = s.ink ++ ink [c] := by
  unfold rexxChar
  have hk : ∀ q, ({ s.keep [c] with quote := q } : RexxState).ink = s.ink ++ ink [c] :=
    fun q => s.ink_keep [c]
  by_cases hd : 0 < s.inComment
  · rw [if_pos hd]
    exact s.ink_keep [c]
  · rw [if_neg hd]
    cases s.quote with
    | some q =>
      dsimp only
      split_ifs
      · exact hk _
      · exact s.ink_keep [c]
    | none =>
      dsimp only
      split_ifs with h1 h2
      · exact hk _
      · subst h2
        simp [RexxState.ink]
      · exact s.ink_keep [c]

theorem ink_rexxPair {s s' : RexxState} {c d : Char} (h : rexxPair s c d = some s') :
    s'.ink = s.ink ++ ink [c, d] := by
  unfold rexxPair at h
  by_cases hd : 0 < s.inComment
  · rw [if_pos hd] at h
    split_ifs at h with h2 h3
    · cases h
      rw [h2.1, h2.2]
      exact s.ink_keep _
    · cases h
      rw [h3.1, h3.2]
      exact s.ink_keep _
  · rw [if_neg hd] at h
    cases hq : s.quote with
    | some q =>
      rw [hq] at h
      dsimp only at h
      split_ifs at h with h4
      cases h
      rw [← h4.2]
      exact s.ink_keep _
    | none =>
      rw [hq] at h
      dsimp only at h
      split_ifs at h with h4
      cases h
      rw [h4.1, h4.2]
      exact s.ink_keep _

theorem ink_rexxLine (s : RexxState) (line : Text) : (rexxLine s line).ink = s.ink ++ ink line := by
  fun_induction rexxLine s line with
  | case1 => simp
  | case2 s c => exact ink_rexxChar s c
  | case3 s c d t s' h ih =>
    rw [ih, ink_rexxPair h, List.append_assoc, ← ink_append]
    rfl
  | case4 s c d t h ih =>
    rw [ih, ink_rexxChar, List.append_assoc, ← ink_append]
    rfl

theorem ink_rexxEndLine (s : RexxState) : (rexxEndLine s).ink = s.ink := by
  have hnl : (s.keep ['\n']).ink = s.ink := by
    rw [RexxState.ink_keep]
    exact List.append_nil _
  unfold rexxEndLine
  split_ifs
  · exact hnl
  · simp [RexxState.ink]
  · rfl
  · exact hnl

@[simp] theorem inks_splitRexxStatements (t : Text) : inks (splitRexxStatements t) = ink t := by
  have h : ∀ (lines : List Text) (s : RexxState),
      (lines.foldl (fun s l => rexxEndLine (rexxLine s l)) s).ink = s.ink ++ inks lines := by
    intro lines
    induction lines with
    | nil => simp
    | cons l lines ih =>
      intro s
      rw [List.foldl_cons, ih, ink_rexxEndLine, ink_rexxLine, inks_cons, List.append_assoc]
  have h := h (splitlines t) {}
  rw [inks_splitlines] at h
  unfold splitRexxStatements
  simp only [inks_map_rstrip, inks_nonblank]
  rw [RexxState.ink] at h
  split
  · next hs =>
    rw [ink_of_strip hs, List.append_nil] at h
    simpa [RexxState.ink] using h
  · simpa [RexxState.ink] using h

/-! ## Code entries -/

def CapState.ink (s : CapState) : Text := inks s.pieces ++ inks s.current

theorem CapState.ink_feed (s : CapState) (line : Text) :
    (s.feed line).ink = s.ink ++ Chunking.ink line := by
  unfold feed
  by_cases h : s.current ≠ [] ∧ sectionMaxChars < s.size + 1 + line.length
  · rw [if_pos h]
    simp [ink]
  · rw [if_neg h]
    simp [ink]

theorem CapState.ink_foldl (lines : List Text) (s : CapState) :
    (lines.foldl CapState.feed s).ink = s.ink ++ inks lines := by
  induction lines generalizing s with
  | nil => simp
  | cons l lines ih => rw [List.foldl_cons, ih, ink_feed, inks_cons, List.append_assoc]

theorem inks_nonempty (ts : List Text) : inks (ts.filter (· ≠ [])) = inks ts := by
  induction ts with
  | nil => rfl
  | cons t ts ih =>
    by_cases h : t = []
    · rw [List.filter_cons_of_neg (by simpa using h), ih, h]
      rfl
    · rw [List.filter_cons_of_pos (by simpa using h), inks_cons, ih, inks_cons]

@[simp] theorem inks_capEntry (entry : Text) : inks (capEntry entry) = ink entry := by
  unfold capEntry
  split_ifs with h
  · simp
  · have hf := CapState.ink_foldl (splitlines entry) {}
    rw [inks_splitlines, CapState.ink] at hf
    simp only [inks_nonempty, inks_map_strip]
    split_ifs with hc
    · rw [hc] at hf
      simpa [CapState.ink] using hf
    · simpa [CapState.ink] using hf

theorem inks_window (lines : List Text) {start stop : Nat} (h : start ≤ stop) :
    inks ((lines.take stop).drop start) ++ inks (lines.drop stop) = inks (lines.drop start) := by
  have hs : lines.drop start = (lines.take stop).drop start ++ lines.drop stop := by
    conv_lhs => rw [← List.take_append_drop stop lines]
    by_cases hl : stop ≤ lines.length
    · rw [List.drop_append_of_le_length (by simp; omega)]
    · have hd : lines.drop stop = [] := List.drop_eq_nil_of_le (by omega)
      rw [hd, List.append_nil, List.append_nil]
  rw [hs, inks_append]

/-- Windows that follow one another cover the lines from the first start on. -/
theorem inks_windows (lines : List Text) (later : List Nat) (first : Nat)
    (hs : (first :: later).Pairwise (· < ·)) (hl : ∀ i ∈ first :: later, i < lines.length) :
    ((first :: later).zip (later ++ [lines.length])).flatMap
      (fun w => inks ((lines.take w.2).drop w.1)) = inks (lines.drop first) := by
  induction later generalizing first with
  | nil => simp
  | cons next later ih =>
    obtain ⟨hlt, hs⟩ := List.pairwise_cons.mp hs
    have h := ih next hs (fun i hi => hl i (List.mem_cons_of_mem _ hi))
    have hn : first ≤ next := Nat.le_of_lt (hlt next List.mem_cons_self)
    rw [List.cons_append, List.zip_cons_cons, List.flatMap_cons, h]
    exact inks_window lines hn

theorem entryStarts_sorted (U : CharTables) (lines : List Text) :
    (entryStarts U lines).Pairwise (· < ·) ∧ ∀ i ∈ entryStarts U lines, i < lines.length := by
  refine ⟨List.Pairwise.filter _ List.pairwise_lt_range, fun i hi => ?_⟩
  exact List.mem_range.mp (List.mem_filter.mp hi).1

/-- A blank window gives no item. -/
theorem inks_window_items {f : Text → List (Text × Bool)}
    (hf : ∀ t, inks ((f t).map Prod.fst) = ink t) (ls : List Text) :
    inks ((if strip (joinLines ls) = [] then [] else f (strip (joinLines ls))).map Prod.fst) =
      inks ls := by
  rw [← ink_joinLines ls]
  split
  · next hb => exact (ink_of_strip hb).symm
  · rw [hf, ink_strip]

theorem inks_codeEntries {U : CharTables} {t : Text} {items : List (Text × Bool)}
    (h : codeEntries U t = some items) : inks (items.map Prod.fst) = ink t := by
  obtain ⟨hs, hl⟩ := entryStarts_sorted U (splitlines t)
  unfold codeEntries at h
  simp only at h
  cases hst : entryStarts U (splitlines t) with
  | nil => simp [hst] at h
  | cons first later =>
    rw [hst] at hs hl
    simp only [hst] at h
    obtain ⟨-, h⟩ := Option.ite_none_left_eq_some.mp h
    obtain rfl := Option.some.inj h
    have hw := inks_windows (splitlines t) later first hs hl
    have hlead := inks_window_items (f := fun t => [(t, false)]) (fun t => by simp)
      ((splitlines t).take first)
    have hentry := inks_window_items (f := fun t => (capEntry t).map (·, true))
      (fun t => by simp [Function.comp_def])
    rw [List.map_append, inks_append, hlead, List.map_flatMap, inks_flatMap]
    simp only [hentry]
    rw [hw, ← inks_append, List.take_append_drop, inks_splitlines]

/-! ## Mixed paragraphs -/

/-- What the items, the open run and the open prose hold. -/
def MixedState.ink (s : MixedState) : Text :=
  inks (s.items.map Prod.fst) ++ inks s.run ++ inks s.prose

/-- A run of cards and a run of prose are never open together. -/
def MixedState.OneOpen (s : MixedState) : Prop := s.run = [] ∨ s.prose = []

theorem MixedState.closeRun_spec {s : MixedState} (h : s.OneOpen) :
    s.closeRun.run = [] ∧ s.closeRun.prose = s.prose ∧ s.closeRun.ink = s.ink := by
  unfold closeRun
  split_ifs with hr
  · exact ⟨hr, rfl, rfl⟩
  · rcases h with h | h
    · exact absurd h hr
    · simp [ink, h, Function.comp_def]

theorem MixedState.closeProse_spec {s : MixedState} (h : s.OneOpen) :
    s.closeProse.prose = [] ∧ s.closeProse.run = s.run ∧ s.closeProse.ink = s.ink := by
  unfold closeProse
  split_ifs with hp
  · exact ⟨hp, rfl, rfl⟩
  · rcases h with h | h
    · simp [ink, h]
    · exact absurd h hp

theorem MixedState.feed_spec {s : MixedState} (h : s.OneOpen) (line : Text) :
    (s.feed line).OneOpen ∧ (s.feed line).ink = s.ink ++ Chunking.ink line := by
  unfold feed
  split_ifs
  · obtain ⟨h1, -, h3⟩ := closeProse_spec h
    refine ⟨.inr h1, ?_⟩
    rw [← h3]
    simp [ink, h1]
  · obtain ⟨h1, -, h3⟩ := closeRun_spec h
    refine ⟨.inl h1, ?_⟩
    rw [← h3]
    simp [ink, h1]

theorem MixedState.foldl_spec (lines : List Text) {s : MixedState} (h : s.OneOpen) :
    (lines.foldl MixedState.feed s).OneOpen ∧
      (lines.foldl MixedState.feed s).ink = s.ink ++ inks lines := by
  induction lines generalizing s with
  | nil => exact ⟨h, by simp⟩
  | cons l lines ih =>
    obtain ⟨h1, h2⟩ := feed_spec h l
    obtain ⟨h3, h4⟩ := ih h1
    refine ⟨h3, ?_⟩
    rw [List.foldl_cons, h4, h2, inks_cons, List.append_assoc]

theorem inks_nonblankItems (items : List (Text × Bool)) :
    inks ((items.filter (fun i => strip i.1 ≠ [])).map Prod.fst) = inks (items.map Prod.fst) := by
  rw [← inks_nonblank (items.map Prod.fst), List.filter_map]
  rfl

@[simp] theorem inks_mixedJclItems (para : Text) :
    inks ((mixedJclItems para).map Prod.fst) = ink para := by
  unfold mixedJclItems
  dsimp only
  split_ifs
  · simp
  · simp
  · obtain ⟨h1, h2⟩ := MixedState.foldl_spec (splitlines para) (s := {}) (.inl rfl)
    obtain ⟨h3, -, h4⟩ := MixedState.closeRun_spec h1
    obtain ⟨h5, h6, h7⟩ := MixedState.closeProse_spec (.inl h3)
    rw [h4, h2, inks_splitlines, MixedState.ink, h5, h6, h3] at h7
    rw [inks_nonblankItems]
    simpa [MixedState.ink] using h7

/-! ## Expansion -/

theorem inks_codeStatements {U : CharTables} {t : Text} {statements : List Text}
    (h : codeStatements U t = some statements) : inks statements = ink t := by
  unfold codeStatements at h
  dsimp only at h
  split_ifs at h with hne
  obtain rfl := Option.some.inj h
  cases hk : detectCodeRegion U t with
  | none => simp [hk] at hne
  | some kind => cases kind <;> simp

theorem inks_expandPara (U : CharTables) (codeSection ddDataOpen : Bool) (para : Text) :
    inks ((expandPara U codeSection ddDataOpen para).1.map Prod.fst) = ink para := by
  unfold expandPara
  cases hs : codeStatements U para with
  | some statements => simp [Function.comp_def, inks_codeStatements hs]
  | none =>
    cases he : (if codeSection then codeEntries U para else none) with
    | some items =>
      split_ifs at he
      simp [inks_codeEntries he]
    | none =>
      dsimp only
      split_ifs <;> simp [Function.comp_def]

theorem inks_expandFrom (U : CharTables) (codeSection ddDataOpen : Bool)
    (paras : List (Nat × Text)) :
    inks ((expandFrom U codeSection ddDataOpen paras).map Item.text) =
      inks (paras.map Prod.snd) := by
  induction paras generalizing ddDataOpen with
  | nil => rfl
  | cons p paras ih =>
    have h := inks_expandPara U codeSection ddDataOpen p.2
    simp only [expandFrom, List.map_append, List.map_map, Function.comp_def, inks_append, ih, h,
      List.map_cons, inks_cons]

/-- Expansion keeps every character that is not whitespace, in order. -/
theorem ink_expand (U : CharTables) (paras : List (Nat × Text)) (codeSection : Bool) :
    inks ((expand U paras codeSection).map Item.text) = inks (paras.map Prod.snd) :=
  inks_expandFrom U codeSection false paras

end MainframeRag.Ingest.Chunking
