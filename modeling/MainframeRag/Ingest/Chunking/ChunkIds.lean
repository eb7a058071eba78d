import MainframeRag.Ingest.Chunking.SectionTiles
import MainframeRag.Ingest.Chunking.PageSpans
import MainframeRag.Ingest.Chunking.UnitSpans
import MainframeRag.Ingest.Inventory

/-!
# Chunk ids

A chunk id is `uuid5` of `revision|heading|page|ordinal`. The escaped labels of the revision decode
from the left and the two numbers from the right, so the key has one reading whatever the heading
holds. Within a document a block starts on a page of its section, and sections under one heading
share no page.
-/

namespace MainframeRag.Ingest.Chunking

open PyText

/-! ## Decoding the key -/

theorem escapeLabel_cons (c : Char) (t : Text) :
    escapeLabel (c :: t) = (if c = '\\' ∨ c = '|' then ['\\', c] else [c]) ++ escapeLabel t := rfl

/-- An escaped label ends at the first delimiter that no backslash escapes. -/
theorem escapeLabel_decode {a b x y : Text}
    (h : escapeLabel a ++ '|' :: x = escapeLabel b ++ '|' :: y) : a = b ∧ x = y := by
  have hne : ∀ (c : Char) (t u v : Text), '|' :: u ≠ escapeLabel (c :: t) ++ '|' :: v := by
    intro c t u v he
    rw [escapeLabel_cons] at he
    split at he
    · simp at he
    · next hc =>
      have : c = '|' := by simpa using (List.cons.inj he).1.symm
      exact hc (.inr this)
  induction a generalizing b with
  | nil =>
    cases b with
    | nil => exact ⟨rfl, (List.cons.inj h).2⟩
    | cons d b => exact absurd h (hne d b x y)
  | cons c a ih =>
    cases b with
    | nil => exact absurd h.symm (hne c a y x)
    | cons d b =>
      rw [escapeLabel_cons, escapeLabel_cons] at h
      split at h
      · next hc =>
        split at h
        · simp only [List.cons_append, List.nil_append, List.cons.injEq, true_and] at h
          obtain ⟨rfl, h⟩ := h
          exact ⟨congrArg _ (ih h).1, (ih h).2⟩
        · next hd =>
          simp only [List.cons_append, List.nil_append, List.cons.injEq] at h
          exact absurd (.inl h.1.symm) hd
      · next hc =>
        split at h
        · simp only [List.cons_append, List.nil_append, List.cons.injEq] at h
          exact absurd (.inl h.1) hc
        · simp only [List.cons_append, List.nil_append, List.cons.injEq] at h
          obtain ⟨rfl, h⟩ := h
          exact ⟨congrArg _ (ih h).1, (ih h).2⟩

theorem sourceRevKey_eq (U : CharTables) (vendor product version : Option Text) (sha256 : Text) :
    sourceRevKey U vendor product version sha256 =
      escapeLabel (normalizeLabel U vendor) ++ '|' :: (escapeLabel (normalizeLabel U product) ++
        '|' :: (escapeLabel (normalizeLabel U version) ++ '|' :: sha256)) := by
  simp [sourceRevKey, List.intercalate]

/-- What follows the labels is read the same way on both sides. -/
theorem labels_decode {U : CharTables} {v p w v' p' w' : Option Text} {x y : Text}
    (h : sourceRevKey U v p w x = sourceRevKey U v' p' w' y) :
    normalizeLabel U v = normalizeLabel U v' ∧ normalizeLabel U p = normalizeLabel U p' ∧
      normalizeLabel U w = normalizeLabel U w' ∧ x = y := by
  rw [sourceRevKey_eq, sourceRevKey_eq] at h
  obtain ⟨h1, h⟩ := escapeLabel_decode h
  obtain ⟨h2, h⟩ := escapeLabel_decode h
  obtain ⟨h3, h⟩ := escapeLabel_decode h
  exact ⟨h1, h2, h3, h⟩

/-- Keys are equal exactly when the normalized labels and the digests are. -/
theorem sourceRevKey_inj (U : CharTables) (v p w v' p' w' : Option Text) (sha sha' : Text) :
    sourceRevKey U v p w sha = sourceRevKey U v' p' w' sha' ↔
      normalizeLabel U v = normalizeLabel U v' ∧ normalizeLabel U p = normalizeLabel U p' ∧
        normalizeLabel U w = normalizeLabel U w' ∧ sha = sha' := by
  refine ⟨labels_decode, ?_⟩
  rintro ⟨h1, h2, h3, rfl⟩
  rw [sourceRevKey_eq, sourceRevKey_eq, h1, h2, h3]

def chunkKey (sourceRev headingPath : Text) (pageStart ordinal : Nat) : Text :=
  List.intercalate ['|'] [sourceRev, headingPath, natText pageStart, natText ordinal]

theorem chunkKey_eq (rev heading : Text) (page ordinal : Nat) :
    chunkKey rev heading page ordinal =
      rev ++ '|' :: (heading ++ '|' :: (natText page ++ '|' :: natText ordinal)) := by
  simp [chunkKey, List.intercalate]

theorem delimiter_not_digit (n : Nat) : '|' ∉ natText n := fun h => by
  have := Nat.isDigit_of_mem_toDigits (by decide) (by decide) h
  revert this
  decide

/-- A segment without delimiters comes off the right. -/
theorem segment_right {x y a b : Text} (ha : '|' ∉ a) (hb : '|' ∉ b)
    (h : x ++ '|' :: a = y ++ '|' :: b) : x = y ∧ a = b := by
  obtain rfl := last_segment ha hb h
  exact ⟨List.append_cancel_right h, rfl⟩

/-- A segment without delimiters comes off the left. -/
theorem segment_left {x y a b : Text} (ha : '|' ∉ a) (hb : '|' ∉ b)
    (h : a ++ '|' :: x = b ++ '|' :: y) : a = b ∧ x = y := by
  have hr := congrArg List.reverse h
  simp only [List.reverse_append, List.reverse_cons, List.append_assoc, List.singleton_append] at hr
  obtain ⟨h1, h2⟩ := segment_right (by simpa using ha) (by simpa using hb) hr
  exact ⟨List.reverse_inj.mp h2, List.reverse_inj.mp h1⟩

/-- The numbers of a key come off the right. -/
theorem chunkKey_numbers {x y : Text} {p o p' o' : Nat}
    (h : x ++ '|' :: (natText p ++ '|' :: natText o) =
      y ++ '|' :: (natText p' ++ '|' :: natText o')) : x = y ∧ p = p' ∧ o = o' := by
  have hassoc : ∀ (z : Text) (m n : Nat), z ++ '|' :: (natText m ++ '|' :: natText n) =
      (z ++ '|' :: natText m) ++ '|' :: natText n := by
    intro z m n
    simp
  rw [hassoc, hassoc] at h
  obtain ⟨h, ho⟩ := segment_right (delimiter_not_digit o) (delimiter_not_digit o') h
  obtain ⟨h, hp⟩ := segment_right (delimiter_not_digit p) (delimiter_not_digit p') h
  exact ⟨h, toDigits_inj hp, toDigits_inj ho⟩

theorem chunkKey_same_rev {rev heading heading' : Text} {p o p' o' : Nat}
    (h : chunkKey rev heading p o = chunkKey rev heading' p' o') :
    heading = heading' ∧ p = p' ∧ o = o' := by
  rw [chunkKey_eq, chunkKey_eq] at h
  exact chunkKey_numbers (List.cons.inj (List.append_cancel_left h)).2

def docRevision (U : CharTables) (parsed : ParsedDoc) : Text :=
  sourceRevKey U (some parsed.vendor) parsed.product parsed.version parsed.sha256

/-- Keys of any two documents have one reading: a digest holds no delimiter. -/
theorem chunkKey_decode {U : CharTables} {d d' : ParsedDoc} (hd : '|' ∉ d.sha256)
    (hd' : '|' ∉ d'.sha256) {heading heading' : Text} {p o p' o' : Nat}
    (h : chunkKey (docRevision U d) heading p o = chunkKey (docRevision U d') heading' p' o') :
    docRevision U d = docRevision U d' ∧ heading = heading' ∧ p = p' ∧ o = o' := by
  have hkey : ∀ (d : ParsedDoc) (r : Text), docRevision U d ++ r =
      sourceRevKey U (some d.vendor) d.product d.version (d.sha256 ++ r) := by
    intro d r
    simp [docRevision, sourceRevKey_eq]
  rw [chunkKey_eq, chunkKey_eq, hkey, hkey] at h
  obtain ⟨h1, h2, h3, h⟩ := labels_decode h
  obtain ⟨hs, h⟩ := segment_left hd hd' h
  refine ⟨?_, chunkKey_numbers h⟩
  rw [docRevision, docRevision, sourceRevKey_inj]
  exact ⟨h1, h2, h3, hs⟩

/-! ## Pages of blocks -/

section

variable {α : Type} (nl : α) {lo hi : Nat}

def InPages (lo hi : Nat) (is : List (Item α)) : Prop := ∀ it ∈ is, lo ≤ it.page ∧ it.page < hi

/-- Emitted blocks start on a page of the items. -/
structure PagesKept (lo hi : Nat) (s : Acc α) : Prop where
  out : ∀ e ∈ s.out, lo ≤ (e.block nl).pageStart ∧ (e.block nl).pageStart < hi
  current : InPages lo hi s.current

theorem joined_inPages {is : List (Item α)} (hne : is ≠ []) (h : InPages lo hi is) :
    lo ≤ ((Emission.joined is).block nl).pageStart ∧
      ((Emission.joined is).block nl).pageStart < hi := by
  obtain ⟨it, hit⟩ := List.exists_mem_of_ne_nil is hne
  have h1 := le_blockSpan hne (fun i hi => (h i hi).1)
  have h2 := (blockSpan_mem hit).1
  have h3 := (h it hit).2
  exact ⟨h1, Nat.lt_of_le_of_lt h2 h3⟩

theorem lastPage_mem {is : List (Item α)} (hne : is ≠ []) : ∃ it ∈ is, lastPage is = it.page := by
  induction is using List.reverseRecOn with
  | nil => exact absurd rfl hne
  | append_singleton is it => exact ⟨it, by simp, lastPage_append is it⟩

theorem overlapSeed_inPages {is : List (Item α)} (hne : is ≠ []) (h : InPages lo hi is) :
    InPages lo hi (overlapSeed nl is) := by
  rcases overlapSeed_cases nl is with ⟨t, -, hs, -⟩ | ⟨-, hs⟩
  · obtain ⟨it, hit, hl⟩ := lastPage_mem hne
    intro i hi
    rw [hs, List.mem_singleton] at hi
    rw [hi]
    exact hl ▸ h it hit
  · exact fun i hi => h i (hs.subset hi)

theorem PagesKept.flush {s : Acc α} (h : PagesKept nl lo hi s) : PagesKept nl lo hi s.flush := by
  unfold Acc.flush
  split
  · exact h
  · next hne =>
    refine ⟨fun e he => ?_, fun i hi => by cases hi⟩
    rcases List.mem_append.mp he with he | he
    · exact h.out e he
    · rw [List.mem_singleton.mp he]
      exact joined_inPages nl hne h.current

theorem PagesKept.push {s : Acc α} (h : PagesKept nl lo hi s) {it : Item α}
    (hit : lo ≤ it.page ∧ it.page < hi) : PagesKept nl lo hi (s.push nl it) := by
  have happ : ∀ is, InPages lo hi is → InPages lo hi (is ++ [it]) := by
    intro is his i hi
    rcases List.mem_append.mp hi with hi | hi
    · exact his i hi
    · rw [List.mem_singleton.mp hi]
      exact hit
  unfold Acc.push
  split_ifs with h1 h2 h3
  · refine ⟨fun e he => ?_, h.flush.current⟩
    rcases List.mem_append.mp he with he | he
    · exact h.flush.out e he
    · rw [List.mem_singleton.mp he]
      exact hit
  · refine ⟨fun e he => ?_, h.flush.current⟩
    rcases List.mem_append.mp he with he | he
    · exact h.flush.out e he
    · obtain ⟨t, -, rfl⟩ := List.mem_map.mp he
      exact hit
  · refine ⟨fun e he => ?_, happ _ (overlapSeed_inPages nl h3.2 h.current)⟩
    rcases List.mem_append.mp he with he | he
    · exact h.out e he
    · rw [List.mem_singleton.mp he]
      exact joined_inPages nl h3.2 h.current
  · exact ⟨h.out, happ _ h.current⟩

/-- A block starts on a page of the items it stems from. -/
theorem emissions_inPages {items : List (Item α)} (h : InPages lo hi items) :
    ∀ e ∈ emissions nl items, lo ≤ (e.block nl).pageStart ∧ (e.block nl).pageStart < hi := by
  have hacc : ∀ s, PagesKept nl lo hi s → PagesKept nl lo hi (items.foldl (Acc.push nl) s) := by
    induction items with
    | nil => exact fun s hs => hs
    | cons it items ih =>
      intro s hs
      exact ih (fun i hi => h i (List.mem_cons_of_mem _ hi)) _ (hs.push nl (h it List.mem_cons_self))
  exact (hacc {} ⟨by simp, fun i hi => by cases hi⟩).flush.out

end

theorem bodyPages_length (s : Section) (pageTexts : List Text) :
    (bodyPages s pageTexts).length ≤ s.pageEnd - s.pageStart := by
  have hl : ((pageTexts.take s.pageEnd).drop s.pageStart).length ≤ s.pageEnd - s.pageStart := by
    simp
    omega
  unfold bodyPages
  split
  · exact Nat.zero_le _
  · next p ps h =>
    rw [h] at hl
    exact hl

theorem sectionParas_page {s : Section} {pageTexts : List Text} {p : Nat × Text}
    (h : p ∈ sectionParas s pageTexts) : s.pageStart ≤ p.1 ∧ p.1 < s.pageEnd := by
  obtain ⟨⟨t, offset⟩, ht, hp⟩ := List.mem_flatMap.mp h
  obtain ⟨para, -, hp⟩ := List.mem_filterMap.mp hp
  split at hp
  · cases hp
  · cases hp
    have hlt := (List.mem_zipIdx ht).2.1
    have := bodyPages_length s pageTexts
    simp only
    omega

/-- A block starts on a page of its section. -/
theorem sectionEmissions_page {U : CharTables} {s : Section} {pageTexts : List Text}
    {e : Emission Char} (h : e ∈ sectionEmissions U s pageTexts) :
    s.pageStart ≤ (e.block '\n').pageStart ∧ (e.block '\n').pageStart < s.pageEnd := by
  refine emissions_inPages '\n' (fun it hit => ?_) e h
  obtain ⟨p, hp, he⟩ := expandFrom_page hit
  rw [he]
  exact sectionParas_page hp

/-! ## Sections under one heading -/

/-- One section ends where the other starts, or they differ in their headings. -/
def Apart (s t : Section) : Prop := s.pageEnd ≤ t.pageStart ∨ s.headingPath ≠ t.headingPath

theorem mem_pieceSections {start stop : Nat} (h : start < stop) {ps : List (Text × Nat)}
    {s : Section} (hs : s ∈ pieceSections start stop ps) :
    s.pageStart = start ∧ s.pageEnd ≤ stop ∧ s.headingPath ∈ ps.map Prod.fst := by
  induction ps with
  | nil => cases hs
  | cons p ps ih =>
    cases ps with
    | nil =>
      rw [List.mem_singleton.mp hs]
      exact ⟨rfl, Nat.le.refl, by simp⟩
    | cons q ps =>
      rcases List.mem_cons.mp hs with rfl | hs
      · exact ⟨rfl, h, by simp⟩
      · obtain ⟨h1, h2, h3⟩ := ih hs
        exact ⟨h1, h2, List.mem_cons_of_mem _ h3⟩

theorem pieceSections_apart {start stop : Nat} (h : start < stop) {ps : List (Text × Nat)}
    (hp : (ps.map Prod.fst).Nodup) : (pieceSections start stop ps).Pairwise Apart := by
  induction ps with
  | nil => exact .nil
  | cons p ps ih =>
    cases ps with
    | nil => exact List.pairwise_singleton _ _
    | cons q ps =>
      obtain ⟨hn, hp⟩ := List.nodup_cons.mp hp
      refine List.pairwise_cons.mpr ⟨fun s hs => .inr fun he => hn ?_, ih hp⟩
      have := (mem_pieceSections h hs).2.2
      rwa [← he] at this

theorem PageCover.apart {n : Nat} {skipped : Nat → Bool} {a b : Nat} {ss : List Section}
    (h : PageCover n skipped a b ss) : ss.Pairwise Apart ∧ ∀ s ∈ ss, a ≤ s.pageStart := by
  induction h with
  | nil a => exact ⟨.nil, by simp⟩
  | skip _ _ ih => exact ⟨ih.1, fun s hs => Nat.le_of_succ_le (ih.2 s hs)⟩
  | group lt ps _ rest ih =>
    refine ⟨List.pairwise_append.mpr ⟨pieceSections_apart lt ps.paths, ih.1, ?_⟩, ?_⟩
    · intro s hs t ht
      exact .inl ((mem_pieceSections lt hs).2.1.trans (ih.2 t ht))
    · intro s hs
      rcases List.mem_append.mp hs with hs | hs
      · exact (mem_pieceSections lt hs).1.ge
      · exact (Nat.le_of_lt lt).trans (ih.2 s hs)

theorem Windows.apart {a b : Nat} {ss : List Section} (h : Windows a b ss) :
    ss.Pairwise Apart ∧ ∀ s ∈ ss, a ≤ s.pageStart := by
  induction ss generalizing a with
  | nil => exact ⟨.nil, by simp⟩
  | cons s ss ih =>
    obtain ⟨h1, h2, -, -, -, h6⟩ := h
    obtain ⟨h7, h8⟩ := ih h6
    refine ⟨List.pairwise_cons.mpr ⟨fun t ht => .inl (h8 t ht), h7⟩, fun t ht => ?_⟩
    rcases List.mem_cons.mp ht with rfl | ht
    · exact h1.ge
    · exact (Nat.le_of_lt h2).trans (h8 t ht)

theorem docSections_apart (U : CharTables) (parsed : ParsedDoc) (pageTexts : List Text) :
    (docSections U parsed pageTexts).Pairwise Apart := by
  unfold docSections
  split
  · exact (fallbackSections_windows U pageTexts parsed.title).apart.1
  · next h =>
    obtain ⟨b, -, hc⟩ := outlineSections_cover U parsed (some pageTexts) h
    exact hc.apart.1

/-! ## Ids -/

/-- What the key of a block holds besides the revision. -/
def blockSpot (b : Section × Nat × Emission Char) : Text × Nat × Nat :=
  (b.1.headingPath, (b.2.2.block '\n').pageStart, b.2.1)

theorem docBlocks_spots (U : CharTables) (parsed : ParsedDoc) (pageTexts : List Text) :
    ((docBlocks U parsed pageTexts).map blockSpot).Nodup := by
  unfold docBlocks
  rw [List.map_flatMap, List.nodup_flatMap]
  refine ⟨fun s _ => ?_, ?_⟩
  · refine List.Nodup.of_map (fun x => x.2.2) ?_
    have e : (((sectionEmissions U s pageTexts).zipIdx.map (fun p => (s, p.2, p.1))).map
        blockSpot).map (fun x => x.2.2) = (sectionEmissions U s pageTexts).zipIdx.map Prod.snd := by
      simp [blockSpot, Function.comp_def]
    rw [e, List.zipIdx_map_snd]
    exact List.nodup_range'
  · refine (docSections_apart U parsed pageTexts).imp fun {s t} hst x hx hy => ?_
    simp only [List.mem_map] at hx hy
    obtain ⟨_, ⟨⟨e, i⟩, he, rfl⟩, rfl⟩ := hx
    obtain ⟨_, ⟨⟨e', i'⟩, he', rfl⟩, heq⟩ := hy
    simp only [blockSpot, Prod.mk.injEq] at heq
    have h1 := (sectionEmissions_page (List.fst_mem_of_mem_zipIdx he)).2
    have h2 := (sectionEmissions_page (List.fst_mem_of_mem_zipIdx he')).1
    rcases hst with hst | hst
    · dsimp only at h1 h2
      omega
    · exact hst heq.1.symm

theorem mapM_map {α β γ : Type} {f : α → Option β} {g : β → γ} {k : α → γ}
    (hf : ∀ a b, f a = some b → g b = k a) {xs : List α} {ys : List β}
    (h : xs.mapM f = some ys) : ys.map g = xs.map k := by
  induction xs generalizing ys with
  | nil =>
    simp only [List.mapM_nil, Option.pure_def, Option.some.injEq] at h
    rw [← h]
    rfl
  | cons x xs ih =>
    simp only [List.mapM_cons, Option.bind_eq_bind, Option.bind_eq_some_iff, Option.pure_def,
      Option.some.injEq] at h
    obtain ⟨z, hz, zs, hzs, rfl⟩ := h
    rw [List.map_cons, List.map_cons, hf x z hz, ih hzs]

/-- What a chunk's key holds besides the revision. -/
def Chunk.spot (c : Chunk) : Text × Nat × Nat := (c.headingPath, c.pageStart, c.ordinal)

theorem chunkOf_id {U : CharTables} {X : Extractors} {parsed : ParsedDoc} {pageTexts : List Text}
    {labels : List (Option Text)} {b : Section × Nat × Emission Char} {c : Chunk}
    (h : chunkOf U X parsed pageTexts labels b.1 b.2.1 b.2.2 = some c) :
    c.spot = blockSpot b ∧
      c.chunkId = X.uuid5 (chunkKey (docRevision U parsed) c.headingPath c.pageStart c.ordinal) := by
  obtain ⟨l, -, rfl⟩ := Option.map_eq_some_iff.mp h
  exact ⟨rfl, rfl⟩

theorem makeChunks_id {U : CharTables} {X : Extractors} {parsed : ParsedDoc}
    {pageTexts : List Text} {labels : List (Option Text)} {chunks : List Chunk}
    (h : makeChunks U X parsed pageTexts labels = some chunks) {c : Chunk} (hc : c ∈ chunks) :
    c.chunkId = X.uuid5 (chunkKey (docRevision U parsed) c.headingPath c.pageStart c.ordinal) := by
  obtain ⟨b, -, hb⟩ := mem_of_mapM h hc
  exact (chunkOf_id hb).2

theorem makeChunks_spots {U : CharTables} {X : Extractors} {parsed : ParsedDoc}
    {pageTexts : List Text} {labels : List (Option Text)} {chunks : List Chunk}
    (h : makeChunks U X parsed pageTexts labels = some chunks) :
    (chunks.map Chunk.spot).Nodup := by
  rw [mapM_map (k := blockSpot) (fun b c hb => (chunkOf_id hb).1) h]
  exact docBlocks_spots U parsed pageTexts

/-- Chunk ids are distinct within a document, and across documents an id tells where its chunk
stands in which revision; revisions are equal exactly when their labels and digests are. A digest
is hexadecimal, so it holds no delimiter. -/
structure IdsDistinct (U : CharTables) (X : Extractors) : Prop where
  within : ∀ parsed pageTexts labels chunks,
    makeChunks U X parsed pageTexts labels = some chunks → (chunks.map Chunk.chunkId).Nodup
  across : ∀ parsed pageTexts labels chunks parsed' pageTexts' labels' chunks',
    makeChunks U X parsed pageTexts labels = some chunks →
    makeChunks U X parsed' pageTexts' labels' = some chunks' →
    '|' ∉ parsed.sha256 → '|' ∉ parsed'.sha256 →
    ∀ c ∈ chunks, ∀ c' ∈ chunks', c.chunkId = c'.chunkId →
      docRevision U parsed = docRevision U parsed' ∧ c.headingPath = c'.headingPath ∧
        c.pageStart = c'.pageStart ∧ c.ordinal = c'.ordinal
  revision : ∀ vendor product version vendor' product' version' sha256 sha256',
    sourceRevKey U vendor product version sha256 = sourceRevKey U vendor' product' version' sha256' ↔
      normalizeLabel U vendor = normalizeLabel U vendor' ∧
        normalizeLabel U product = normalizeLabel U product' ∧
        normalizeLabel U version = normalizeLabel U version' ∧ sha256 = sha256'

/-- Point identities never collide when `uuid5` is injective. -/
theorem ids_distinct (U : CharTables) (X : Extractors) (h : Function.Injective X.uuid5) :
    IdsDistinct U X where
  within parsed pageTexts labels chunks hc := by
    have hs := makeChunks_spots hc
    refine List.Nodup.map_on ?_ (List.Nodup.of_map _ hs)
    intro c hm c' hm' he
    rw [makeChunks_id hc hm, makeChunks_id hc hm'] at he
    obtain ⟨h1, h2, h3⟩ := chunkKey_same_rev (h he)
    exact List.inj_on_of_nodup_map hs hm hm' (by rw [Chunk.spot, Chunk.spot, h1, h2, h3])
  across parsed pageTexts labels chunks parsed' pageTexts' labels' chunks' hc hc' hd hd' c hm c'
      hm' he := by
    rw [makeChunks_id hc hm, makeChunks_id hc' hm'] at he
    exact chunkKey_decode hd hd' (h he)
  revision := sourceRevKey_inj U

/-- Key texts as ids. -/
def keyIds : Extractors := { plainExtractors with uuid5 := id }

theorem keyIds_distinct : IdsDistinct asciiTables keyIds :=
  ids_distinct asciiTables keyIds Function.injective_id

end MainframeRag.Ingest.Chunking
