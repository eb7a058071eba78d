import MainframeRag.Ingest.Chunking.PageSpans
import MainframeRag.Ingest.Chunking.UnitSpans

/-!
# The shape of a chunk

What every splitter's output has in common: no item is empty, so no block is, the pages of a block
are in order and its stored spans are non-empty, in order and inside its text (`Chunk.Shaped`).
-/

namespace MainframeRag.Ingest.Chunking

open PyText

/-! ## Items are not empty -/

theorem rstrip_ne_nil {t : Text} (h : strip t ≠ []) : rstrip t ≠ [] := by
  intro hr
  obtain ⟨w, hw, e⟩ := rstrip_spec t
  rw [hr, List.nil_append] at e
  exact h (strip_eq_nil.mpr (e ▸ hw))

theorem ne_nil_of_strip {t : Text} (h : strip t ≠ []) : t ≠ [] := by
  rintro rfl
  exact h rfl

theorem splitJclStatements_ne {t x : Text} (h : x ∈ splitJclStatements t) : x ≠ [] := by
  have hx := (List.mem_filter.mp h).2
  exact ne_nil_of_strip (by simpa using hx)

theorem splitRexxStatements_ne {t x : Text} (h : x ∈ splitRexxStatements t) : x ≠ [] := by
  obtain ⟨y, hy, rfl⟩ := List.mem_map.mp h
  have := (List.mem_filter.mp hy).2
  exact rstrip_ne_nil (by simpa using this)

theorem nonblankLines_ne {t x : Text} (h : x ∈ nonblankLines t) : x ≠ [] := by
  have hx := (List.mem_filter.mp h).2
  exact ne_nil_of_strip (by simpa using hx)

theorem some_of_nonempty {α : Type} {xs ys : List α} [Decidable (xs = [])]
    (h : (if xs = [] then none else some xs) = some ys) : xs = ys := by
  split at h
  · cases h
  · exact Option.some.inj h

theorem codeStatements_ne {U : CharTables} {t : Text} {statements : List Text}
    (h : codeStatements U t = some statements) {x : Text} (hx : x ∈ statements) : x ≠ [] := by
  obtain rfl := some_of_nonempty h
  split at hx
  · cases hx
  · exact splitJclStatements_ne hx
  · exact splitRexxStatements_ne hx
  · exact nonblankLines_ne hx

theorem capEntry_ne {entry x : Text} (hne : entry ≠ []) (h : x ∈ capEntry entry) : x ≠ [] := by
  unfold capEntry at h
  split at h
  · rw [List.mem_singleton.mp h]
    exact hne
  · have hx := (List.mem_filter.mp h).2
    simpa using hx

theorem codeEntries_ne {U : CharTables} {t : Text} {items : List (Text × Bool)}
    (h : codeEntries U t = some items) {i : Text × Bool} (hi : i ∈ items) : i.1 ≠ [] := by
  cases hstarts : entryStarts U (splitlines t) with
  | nil =>
    simp only [codeEntries, hstarts] at h
    cases h
  | cons first later =>
    simp only [codeEntries, hstarts] at h
    obtain rfl := some_of_nonempty h
    rcases List.mem_append.mp hi with hi | hi
    · split at hi
      · cases hi
      · next hlead =>
        rw [List.mem_singleton.mp hi]
        exact hlead
    · obtain ⟨⟨start, stop⟩, -, hi⟩ := List.mem_flatMap.mp hi
      simp only at hi
      split at hi
      · cases hi
      · next hentry =>
        obtain ⟨x, hx, rfl⟩ := List.mem_map.mp hi
        exact capEntry_ne hentry hx

theorem mixedJclItems_ne {para : Text} (hne : para ≠ []) {i : Text × Bool}
    (h : i ∈ mixedJclItems para) : i.1 ≠ [] := by
  unfold mixedJclItems at h
  simp only at h
  split at h
  · rw [List.mem_singleton.mp h]
    exact hne
  · split at h
    · rw [List.mem_singleton.mp h]
      exact hne
    · have hx := (List.mem_filter.mp h).2
      exact ne_nil_of_strip (by simpa using hx)

theorem expandPara_ne {U : CharTables} {codeSection ddDataOpen : Bool} {para : Text}
    (hne : para ≠ []) {i : Text × Bool} (h : i ∈ (expandPara U codeSection ddDataOpen para).1) :
    i.1 ≠ [] := by
  have hlines : i ∈ (nonblankLines para).map (·, true) → i.1 ≠ [] := by
    intro hi
    obtain ⟨x, hx, rfl⟩ := List.mem_map.mp hi
    exact nonblankLines_ne hx
  unfold expandPara at h
  split at h
  · next statements hs =>
    obtain ⟨x, hx, rfl⟩ := List.mem_map.mp h
    exact codeStatements_ne hs hx
  · split at h
    · next items hitems =>
      split at hitems
      · exact codeEntries_ne hitems h
      · cases hitems
    · split at h
      · exact hlines h
      · split at h
        · split at h
          · rw [List.mem_singleton.mp h]
            exact hne
          · exact hlines h
        · exact mixedJclItems_ne hne h

theorem expandFrom_ne {U : CharTables} {codeSection ddDataOpen : Bool} {paras : List (Nat × Text)}
    (hne : ∀ p ∈ paras, p.2 ≠ []) {it : Item Char}
    (h : it ∈ expandFrom U codeSection ddDataOpen paras) : it.text ≠ [] := by
  induction paras generalizing ddDataOpen with
  | nil => cases h
  | cons p paras ih =>
    obtain ⟨hp, hrest⟩ := List.forall_mem_cons.mp hne
    rw [expandFrom] at h
    rcases List.mem_append.mp h with h | h
    · obtain ⟨i, hi, rfl⟩ := List.mem_map.mp h
      exact expandPara_ne hp hi
    · exact ih hrest h

theorem sectionParas_ne {s : Section} {pageTexts : List Text} {p : Nat × Text}
    (h : p ∈ sectionParas s pageTexts) : p.2 ≠ [] := by
  obtain ⟨x, -, hp⟩ := List.mem_flatMap.mp h
  obtain ⟨para, -, hp⟩ := List.mem_filterMap.mp hp
  split at hp
  · cases hp
  · next hne =>
    obtain rfl := Option.some.inj hp
    exact hne

/-! ## Blocks are not empty -/

section

variable {α : Type} (nl : α)

/-- The emission has text, and so has each of its items. -/
def Emission.Filled : Emission α → Prop
  | .joined is => is ≠ [] ∧ ∀ it ∈ is, it.text ≠ []
  | .whole it => it.text ≠ []
  | .slice _ t => t ≠ []

structure AllFilled (s : Acc α) : Prop where
  out : ∀ e ∈ s.out, e.Filled
  current : ∀ it ∈ s.current, it.text ≠ []

theorem joinText_ne {is : List (Item α)} (hne : is ≠ []) (h : ∀ it ∈ is, it.text ≠ []) :
    joinText nl is ≠ [] := by
  cases is with
  | nil => exact absurd rfl hne
  | cons it is =>
    intro e
    exact h it List.mem_cons_self (List.append_eq_nil_iff.mp e).1

theorem blindTail_ne {is : List (Item α)} (hne : is ≠ []) (h : ∀ it ∈ is, it.text ≠ []) {t : List α}
    (ht : blindTail nl is = some t) : t ≠ [] := by
  have hjoin := joinText_ne nl hne h
  unfold blindTail at ht
  simp only at ht
  split at ht
  · obtain rfl := Option.some.inj ht
    exact hjoin
  · next hlong =>
    split at ht
    · cases ht
    · obtain rfl := Option.some.inj ht
      intro e
      have := List.drop_eq_nil_iff.mp e
      have : splitOverlapChars = 400 := rfl
      omega

theorem overlapSeed_ne {is : List (Item α)} (hne : is ≠ []) (h : ∀ it ∈ is, it.text ≠ []) :
    ∀ it ∈ overlapSeed nl is, it.text ≠ [] := by
  rcases overlapSeed_cases nl is with ⟨t, ht, hs, -⟩ | ⟨-, hs⟩
  · intro it hit
    rw [hs] at hit
    rw [List.mem_singleton.mp hit]
    exact blindTail_ne nl hne h ht
  · exact fun it hit => h it (hs.subset hit)

theorem AllFilled.flush {s : Acc α} (h : AllFilled s) : AllFilled s.flush := by
  unfold Acc.flush
  split
  · exact h
  · next hne =>
    refine ⟨fun e he => ?_, nofun⟩
    rcases List.mem_append.mp he with he | he
    · exact h.out e he
    · rw [List.mem_singleton.mp he]
      exact ⟨hne, h.current⟩

theorem slices_ne {n fuel : Nat} (hn : 0 < n) {t x : List α} (h : x ∈ slices n fuel t) : x ≠ [] := by
  induction fuel generalizing t with
  | zero => cases h
  | succ fuel ih =>
    cases t with
    | nil => cases h
    | cons c t =>
      rcases List.mem_cons.mp h with rfl | h
      · obtain ⟨n, rfl⟩ := Nat.exists_eq_add_of_le' hn
        exact List.cons_ne_nil _ _
      · exact ih h

theorem AllFilled.push {s : Acc α} (h : AllFilled s) {it : Item α} (hit : it.text ≠ []) :
    AllFilled (s.push nl it) := by
  have happ : ∀ is : List (Item α), (∀ i ∈ is, i.text ≠ []) → ∀ i ∈ is ++ [it], i.text ≠ [] := by
    intro is his i hi
    rcases List.mem_append.mp hi with hi | hi
    · exact his i hi
    · rw [List.mem_singleton.mp hi]
      exact hit
  unfold Acc.push
  split_ifs with hbig hat hov
  · refine ⟨fun e he => ?_, h.flush.current⟩
    rcases List.mem_append.mp he with he | he
    · exact h.flush.out e he
    · rw [List.mem_singleton.mp he]
      exact hit
  · refine ⟨fun e he => ?_, h.flush.current⟩
    rcases List.mem_append.mp he with he | he
    · exact h.flush.out e he
    · obtain ⟨t, ht, rfl⟩ := List.mem_map.mp he
      exact slices_ne (by decide) ht
  · refine ⟨fun e he => ?_, happ _ (overlapSeed_ne nl hov.2 h.current)⟩
    rcases List.mem_append.mp he with he | he
    · exact h.out e he
    · rw [List.mem_singleton.mp he]
      exact ⟨hov.2, h.current⟩
  · exact ⟨h.out, happ _ h.current⟩

theorem emissions_filled {items : List (Item α)} (h : ∀ it ∈ items, it.text ≠ []) :
    ∀ e ∈ emissions nl items, e.Filled := by
  have hacc : ∀ s, AllFilled s → AllFilled (items.foldl (Acc.push nl) s) := by
    induction items with
    | nil => exact fun s hs => hs
    | cons it items ih =>
      intro s hs
      exact ih (fun i hi => h i (List.mem_cons_of_mem _ hi)) _ (hs.push nl (h it List.mem_cons_self))
  exact (hacc {} ⟨nofun, nofun⟩).flush.out

/-- What a filled emission's block is. -/
theorem Emission.Filled.block {e : Emission α} (h : e.Filled) :
    (e.block nl).text ≠ [] ∧ (e.block nl).pageStart ≤ (e.block nl).pageEnd ∧
      ∀ s ∈ (e.block nl).spans, s.start < s.stop := by
  have hspans : ∀ it ∈ e.items, it.text ≠ [] := by
    cases e with
    | joined is => exact h.2
    | whole it => simpa [items, Filled] using h
    | slice p t =>
      intro it hit
      cases hit
  refine ⟨?_, ?_, fun s hs => ?_⟩
  · cases e with
    | joined is => exact joinText_ne nl h.1 h.2
    | whole it => exact h
    | slice p t => exact h
  · cases e with
    | joined is =>
      obtain ⟨it, hit⟩ := List.exists_mem_of_ne_nil is h.1
      exact le_trans (blockSpan_mem hit).1 (blockSpan_mem hit).2
    | whole it => exact le_rfl
    | slice p t => exact le_rfl
  · -- an empty span selects nothing, and its item has text
    by_contra hle
    have hsel : s.select (e.block nl).text ∈ e.items.map Item.text := by
      rw [← e.select_spans nl]
      exact List.mem_map_of_mem hs
    obtain ⟨it, hit, htext⟩ := List.mem_map.mp hsel
    refine hspans it hit (htext.trans ?_)
    rw [UnitSpan.select, List.drop_eq_nil_iff, List.length_take]
    omega

end

/-! ## Chunks -/

/-- Spans that follow each other from `cursor` on, none empty, up to `stop`. -/
def SpansFrom (stop : Nat) : Nat → List UnitSpan → Prop
  | _, [] => True
  | cursor, s :: spans =>
    cursor ≤ s.start ∧ s.start < s.stop ∧ s.stop ≤ stop ∧ SpansFrom stop s.stop spans

theorem Tiles.spansFrom {stop cursor : Nat} {spans : List UnitSpan} (h : Tiles stop cursor spans)
    (hne : ∀ s ∈ spans, s.start < s.stop) : SpansFrom stop cursor spans := by
  induction h with
  | last cursor s h₁ _ h₃ => exact ⟨h₁, hne s List.mem_cons_self, h₃.le, trivial⟩
  | cons cursor s spans h₁ h₂ hrest ih =>
    obtain ⟨hs, hspans⟩ := List.forall_mem_cons.mp hne
    exact ⟨h₁, hs, hrest.stop_mem.1, ih hspans⟩

theorem SpansFrom.mem {stop cursor : Nat} {spans : List UnitSpan} (h : SpansFrom stop cursor spans)
    {s : UnitSpan} (hs : s ∈ spans) : cursor ≤ s.start ∧ s.start < s.stop ∧ s.stop ≤ stop := by
  induction spans generalizing cursor with
  | nil => cases hs
  | cons x spans ih =>
    obtain ⟨h₁, h₂, h₃, hrest⟩ := h
    rcases List.mem_cons.mp hs with rfl | hs
    · exact ⟨h₁, h₂, h₃⟩
    · obtain ⟨h₄, h₅⟩ := ih hrest hs
      exact ⟨by omega, h₅⟩

theorem SpansFrom.pairwise {stop cursor : Nat} {spans : List UnitSpan}
    (h : SpansFrom stop cursor spans) : spans.Pairwise fun s s' => s.stop ≤ s'.start := by
  induction spans generalizing cursor with
  | nil => exact .nil
  | cons x spans ih =>
    obtain ⟨-, -, -, hrest⟩ := h
    exact .cons (fun s hs => (hrest.mem hs).1) (ih hrest)

/-- What the readers of a stored chunk rely on. -/
structure Chunk.Shaped (c : Chunk) : Prop where
  text : c.text ≠ []
  pages : c.pageStart ≤ c.pageEnd
  units : ∀ units, c.units = some units → SpansFrom c.text.length 0 units

theorem chunk_shaped {U : CharTables} {X : Extractors} {parsed : ParsedDoc} {pageTexts : List Text}
    {labels : List (Option Text)} {chunks : List Chunk}
    (h : makeChunks U X parsed pageTexts labels = some chunks) {c : Chunk} (hc : c ∈ chunks) :
    c.Shaped := by
  obtain ⟨e, s, ordinal, hmem, hchunk⟩ := stemsFrom_of_mem h hc
  obtain ⟨s', hs', hblock⟩ := List.mem_flatMap.mp hmem
  obtain ⟨⟨e', n⟩, he', heq⟩ := List.mem_map.mp hblock
  obtain ⟨rfl, -, rfl⟩ : s' = s ∧ n = ordinal ∧ e' = e := by simpa using heq
  have hfilled : e'.Filled := by
    refine emissions_filled '\n' (fun it hit => ?_) e' (List.fst_mem_of_mem_zipIdx he')
    exact expandFrom_ne (fun p hp => sectionParas_ne hp) hit
  obtain ⟨htext, hpages, hspans⟩ := hfilled.block '\n'
  obtain ⟨l, -, rfl⟩ := Option.map_eq_some_iff.mp hchunk
  refine ⟨htext, hpages, fun units hunits => ?_⟩
  by_cases hne : units = []
  · rw [hne]
    trivial
  · have heq := storedSpans_eq hunits hne
    rw [heq] at hne ⊢
    exact (e'.tiles_spans '\n' hne).spansFrom hspans

end MainframeRag.Ingest.Chunking
