import MainframeRag.Ingest.Chunking.Chunks

/-!
# Sections tile the document

`outline_sections` files the pages in runs: the bookmarks of one page make a group, the group takes
the pages up to the next one, and only its first page is cut, at offsets that ascend from zero.
`PageCover` is that shape. Pages are left out in front of the first kept bookmark only, by name.

The text statement runs the cut of `make_chunks` on pages whose characters carry their place.
-/

namespace MainframeRag.Ingest.Chunking

open PyText

/-! ## Cuts -/

section

variable {α : Type}

/-- The cut of `bodyPages`, over any alphabet. -/
def cutPages (s : Section) (pages : List (List α)) : List (List α) :=
  match (pages.take s.pageEnd).drop s.pageStart with
  | [] => []
  | p :: ps =>
    (match s.endChar with
      | none => p.drop s.startChar
      | some stop => (p.take stop).drop s.startChar) :: ps

def cut (s : Section) (pages : List (List α)) : List α := (cutPages s pages).flatten

theorem cutPages_eq (s : Section) (pageTexts : List Text) :
    cutPages s pageTexts = bodyPages s pageTexts := by
  unfold cutPages bodyPages
  cases (pageTexts.take s.pageEnd).drop s.pageStart with
  | nil => rfl
  | cons p ps => cases s.endChar <;> rfl

theorem cutPages_map {β : Type} (f : α → β) (s : Section) (pages : List (List α)) :
    cutPages s (pages.map (List.map f)) = (cutPages s pages).map (List.map f) := by
  unfold cutPages
  rw [← List.map_take, ← List.map_drop]
  cases (pages.take s.pageEnd).drop s.pageStart with
  | nil => rfl
  | cons p ps => cases s.endChar <;> simp [List.map_take, List.map_drop]

/-- The pages from `a` up to `b`, one after the other. -/
def pageRun (pages : List (List α)) (a b : Nat) : List α := ((pages.take b).drop a).flatten

theorem pageRun_self (pages : List (List α)) (a : Nat) : pageRun pages a a = [] := by
  simp [pageRun]

theorem pageRun_append (pages : List (List α)) {a m b : Nat} (h : a ≤ m) (h' : m ≤ b) :
    pageRun pages a m ++ pageRun pages m b = pageRun pages a b := by
  have hm : pages.take m = (pages.take b).take m := by rw [List.take_take, min_eq_left h']
  rw [pageRun, pageRun, pageRun, ← List.flatten_append, hm]
  congr 1
  have hd : ((pages.take b).drop a).drop (m - a) = (pages.take b).drop m := by
    rw [List.drop_drop]
    congr 1
    omega
  rw [← hd, List.drop_take, List.take_append_drop]

theorem pageRun_succ (pages : List (List α)) (a : Nat) :
    pageRun pages a (a + 1) = pages[a]?.getD [] := by
  by_cases h : a < pages.length
  · have hd : a + 1 - a = 1 := by omega
    rw [pageRun, List.drop_take, List.drop_eq_getElem_cons h, List.getElem?_eq_getElem h, hd,
      List.take_succ_cons, List.take_zero, List.flatten_singleton, Option.getD_some]
  · have hd : (pages.take (a + 1)).drop a = [] := List.drop_eq_nil_of_le (by simp; omega)
    rw [pageRun, hd, List.getElem?_eq_none (by omega)]
    rfl

theorem pageRun_cons {pages : List (List α)} {a b : Nat} (h : a < b) :
    pageRun pages a b = pages[a]?.getD [] ++ pageRun pages (a + 1) b := by
  rw [← pageRun_succ, pageRun_append pages (by omega) h]

theorem cut_whole (path : Text) (a b : Nat) (pages : List (List α)) :
    cut ⟨path, a, b, 0, none⟩ pages = pageRun pages a b := by
  unfold cut cutPages pageRun
  cases (pages.take b).drop a <;> simp

/-- A cut section is its first page from the start on, and the pages behind it. -/
theorem cut_last (path : Text) {a b : Nat} (c : Nat) (pages : List (List α)) (h : a < b) :
    cut ⟨path, a, b, c, none⟩ pages = (pages[a]?.getD []).drop c ++ pageRun pages (a + 1) b := by
  have hr : (pages.take b).drop (a + 1) = ((pages.take b).drop a).drop 1 := by
    rw [List.drop_drop]
  have hp : pages[a]? = ((pages.take b).drop a)[0]? := by simp [h]
  unfold cut cutPages pageRun
  rw [hr, hp]
  cases (pages.take b).drop a <;> simp

theorem cut_piece (path : Text) (a c d : Nat) (pages : List (List α)) :
    cut ⟨path, a, a + 1, c, some d⟩ pages = ((pages[a]?.getD []).take d).drop c := by
  have hp : pages[a]? = ((pages.take (a + 1)).drop a)[0]? := by simp
  have hl : ((pages.take (a + 1)).drop a).length ≤ 1 := by simp
  unfold cut cutPages
  rw [hp]
  rcases hs : (pages.take (a + 1)).drop a with _ | ⟨p, _ | ⟨q, ps⟩⟩
  · simp
  · simp
  · rw [hs] at hl
    simp at hl

end

/-! ## Groups -/

/-- The sections of the pieces of one page; the last one takes the pages up to `stop`. -/
def pieceSections (start stop : Nat) : List (Text × Nat) → List Section
  | [] => []
  | [l] => [⟨l.1, start, stop, l.2, none⟩]
  | a :: b :: ps => ⟨a.1, start, start + 1, a.2, some b.2⟩ :: pieceSections start stop (b :: ps)

/-- Pieces start at offset zero, in order, under different headings. -/
structure Pieces (ps : List (Text × Nat)) : Prop where
  first : (ps.map Prod.snd).head? = some 0
  sorted : (ps.map Prod.snd).Pairwise (· ≤ ·)
  paths : (ps.map Prod.fst).Nodup

theorem pieces_single (path : Text) : Pieces [(path, 0)] where
  first := rfl
  sorted := List.pairwise_singleton _ _
  paths := List.nodup_singleton _

theorem pieceSections_zip (start stop : Nat) (ps : List (Text × Nat)) :
    (List.zipWith (fun a b => (⟨a.1, start, start + 1, a.2, some b.2⟩ : Section)) ps ps.tail) ++
      (ps.getLast?.map (fun l => (⟨l.1, start, stop, l.2, none⟩ : Section))).toList =
      pieceSections start stop ps := by
  induction ps with
  | nil => rfl
  | cons a ps ih =>
    cases ps with
    | nil => rfl
    | cons b ps =>
      simp only [List.tail_cons, List.zipWith_cons_cons, List.cons_append, pieceSections,
        List.getLast?_cons_cons] at ih ⊢
      rw [ih]

theorem cut_pieces_from {α : Type} {start stop : Nat} (h : start < stop) (pages : List (List α))
    (p : Text × Nat) (ps : List (Text × Nat))
    (hs : ((p :: ps).map Prod.snd).Pairwise (· ≤ ·)) :
    (pieceSections start stop (p :: ps)).flatMap (fun s => cut s pages) =
      (pages[start]?.getD []).drop p.2 ++ pageRun pages (start + 1) stop := by
  induction ps generalizing p with
  | nil => simp [pieceSections, cut_last _ _ _ h]
  | cons q ps ih =>
    obtain ⟨hle, hs⟩ := List.pairwise_cons.mp hs
    have hpq : p.2 ≤ q.2 := hle q.2 (by simp)
    have hsplit : ∀ t : List α, (t.take q.2).drop p.2 ++ t.drop q.2 = t.drop p.2 := by
      intro t
      have hd : t.drop q.2 = (t.drop p.2).drop (q.2 - p.2) := by
        rw [List.drop_drop]
        congr 1
        omega
      rw [hd, List.drop_take, List.take_append_drop]
    rw [pieceSections, List.flatMap_cons, cut_piece, ih q hs, ← List.append_assoc, hsplit]

/-- The pieces of a group make up its pages. -/
theorem Pieces.cut {α : Type} {ps : List (Text × Nat)} (hp : Pieces ps) {start stop : Nat}
    (h : start < stop) (pages : List (List α)) :
    (pieceSections start stop ps).flatMap (fun s => Chunking.cut s pages) =
      pageRun pages start stop := by
  cases ps with
  | nil => simpa using hp.first
  | cons p ps =>
    have h0 : p.2 = 0 := by simpa using hp.first
    rw [cut_pieces_from h pages p ps hp.sorted, h0, List.drop_zero, ← pageRun_cons h]

/-! ## The pieces of a page -/

theorem titleLineFrom_le {U : CharTables} {want : Text} {start offset k : Nat} {lines : List Text}
    (h : titleLineFrom U want start offset lines = some k) : start ≤ k := by
  induction lines generalizing offset with
  | nil => cases h
  | cons l lines ih =>
    simp only [titleLineFrom] at h
    split at h
    · next hc =>
      cases h
      exact hc.1
    · exact ih h

theorem laterStarts_sorted {U : CharTables} {t : Text} {last : Nat} {first : Bool}
    {es : List GroupEntry} {starts : List Nat} (h : laterStarts U t last first es = some starts) :
    (last :: starts).Pairwise (· ≤ ·) ∧ starts.length = es.length := by
  induction es generalizing last first starts with
  | nil =>
    cases h
    exact ⟨List.pairwise_singleton _ _, rfl⟩
  | cons e es ih =>
    unfold laterStarts at h
    split at h
    · cases h
    · next s hs =>
      obtain ⟨rest, hr, rfl⟩ := Option.map_eq_some_iff.mp h
      obtain ⟨h1, h2⟩ := ih hr
      have hls : last ≤ s := (Nat.le_add_right _ _).trans (titleLineFrom_le hs)
      refine ⟨List.pairwise_cons.mpr ⟨fun x hx => ?_, h1⟩, by simp [h2]⟩
      rcases List.mem_cons.mp hx with rfl | hx
      · exact hls
      · exact hls.trans ((List.pairwise_cons.mp h1).1 x hx)

/-- The pieces in front of the one that starts at `start`: named, and they start before it. -/
structure PieceBase (base : List (Text × Nat)) (start : Nat) : Prop where
  first : (base.map Prod.snd ++ [start]).head? = some 0
  sorted : (base.map Prod.snd ++ [start]).Pairwise (· ≤ ·)
  paths : (base.map Prod.fst).Nodup
  named : ∀ p ∈ base, p.1 ≠ []

/-- The pieces in front of the entry whose own line stands at `own`: the last one may be folded into
it. -/
def PieceState (own : Nat) (pieces : List (Text × Nat)) : Prop :=
  ∃ base start, PieceBase base start ∧ start ≤ own ∧
    (pieces = base ++ [([], start)] ∨ (pieces = base ∧ start = own))

theorem PieceBase.pieces {base : List (Text × Nat)} {start : Nat} (h : PieceBase base start)
    {path : Text} (hp : ∀ p ∈ base, p.1 ≠ path) : Pieces (base ++ [(path, start)]) where
  first := by simpa using h.first
  sorted := by simpa using h.sorted
  paths := by
    rw [List.map_append, List.map_singleton]
    refine List.nodup_append.mpr ⟨h.paths, List.nodup_singleton _, ?_⟩
    intro a ha b hb
    obtain ⟨p, hpb, rfl⟩ := List.mem_map.mp ha
    obtain rfl := List.mem_singleton.mp hb
    exact hp p hpb

theorem PieceBase.next {base : List (Text × Nat)} {start : Nat} (h : PieceBase base start)
    {path : Text} (hp : ∀ p ∈ base, p.1 ≠ path) {own : Nat} (ho : start ≤ own) :
    PieceState own (base ++ [(path, start)]) := by
  by_cases hpath : path = []
  · subst hpath
    exact ⟨base, start, h, ho, .inl rfl⟩
  · have hps := h.pieces hp
    refine ⟨base ++ [(path, start)], own, ⟨?_, ?_, hps.paths, ?_⟩, Nat.le.refl, .inr ⟨rfl, rfl⟩⟩
    · rw [List.head?_append, hps.first]
      rfl
    · refine List.pairwise_append.mpr ⟨hps.sorted, List.pairwise_singleton _ _, ?_⟩
      intro a ha b hb
      obtain rfl := List.mem_singleton.mp hb
      rw [List.map_append, List.mem_append] at ha
      rcases ha with ha | ha
      · exact ((List.pairwise_append.mp h.sorted).2.2 a ha start (by simp)).trans ho
      · obtain rfl : a = start := by simpa using ha
        exact ho
    · intro p hp'
      rcases List.mem_append.mp hp' with hp' | hp'
      · exact h.named p hp'
      · obtain rfl := List.mem_singleton.mp hp'
        exact hpath

/-- What the loop pops and where the next piece starts. -/
theorem PieceState.base {own : Nat} {pieces : List (Text × Nat)} (h : PieceState own pieces) :
    ∃ base start, PieceBase base start ∧ start ≤ own ∧
      (if (pieces.getLast?.map Prod.fst) = some [] then
        (pieces.getLast?.map Prod.snd).getD own else own) = start ∧
      (if (pieces.getLast?.map Prod.fst) = some [] then pieces.dropLast else pieces) = base := by
  obtain ⟨base, start, hb, hs, rfl | ⟨rfl, rfl⟩⟩ := h
  · exact ⟨base, start, hb, hs, by simp, by simp⟩
  · have hn : ¬(pieces.getLast?.map Prod.fst) = some [] := by
      intro hl
      obtain ⟨p, hp, hp'⟩ := Option.map_eq_some_iff.mp hl
      exact hb.named p (List.mem_of_getLast? hp) hp'
    exact ⟨pieces, start, hb, hs, if_neg hn, if_neg hn⟩

theorem path_new {base : List (Text × Nat)} {path : Text}
    (h : ¬(base.any fun p => p.1 = path) = true) : ∀ p ∈ base, p.1 ≠ path := by
  intro p hp he
  exact h (List.any_eq_true.mpr ⟨p, hp, by simpa using he⟩)

theorem foldPieces_spec {U : CharTables} {t : Text} (es : List (GroupEntry × Nat))
    {pieces ps : List (Text × Nat)} (e : GroupEntry) (own : Nat) (hp : PieceState own pieces)
    (hs : ((own :: es.map Prod.snd)).Pairwise (· ≤ ·))
    (h : foldPieces U t ((e, own) :: es) pieces = some ps) : Pieces ps := by
  induction es generalizing e own pieces with
  | nil =>
    obtain ⟨base, start, hb, -, h1, h2⟩ := hp.base
    unfold foldPieces at h
    simp only [h1, h2, Bool.false_eq_true, ↓reduceIte] at h
    split at h
    · cases h
    · next hany =>
      simp only [foldPieces, Option.some.injEq] at h
      subst h
      exact hb.pieces (path_new hany)
  | cons n es ih =>
    obtain ⟨base, start, hb, hle, h1, h2⟩ := hp.base
    obtain ⟨hlt, hs⟩ := List.pairwise_cons.mp hs
    have hn : start ≤ n.2 := hle.trans (hlt n.2 (by simp))
    unfold foldPieces at h
    simp only [h1, h2] at h
    split at h
    · exact ih n.1 n.2 (hb.next hb.named hn) hs h
    · split at h
      · cases h
      · next hany => exact ih n.1 n.2 (hb.next (path_new hany) hn) hs h

theorem sharedPagePieces_spec {U : CharTables} {group : List GroupEntry} {t : Text}
    {uniqueTitles : List Text} {ps : List (Text × Nat)} (hne : ps ≠ [])
    (h : sharedPagePieces U group t uniqueTitles = some ps) : Pieces ps := by
  cases group with
  | nil =>
    cases h
    exact absurd rfl hne
  | cons e es =>
    simp only [sharedPagePieces] at h
    split at h
    · cases h
    · next starts hst =>
      obtain ⟨hsort, hlen⟩ := laterStarts_sorted hst
      rw [List.zip_cons_cons] at h
      refine foldPieces_spec _ e 0 ⟨[], 0, ⟨rfl, by simp, by simp, by simp⟩, Nat.le.refl,
        .inr ⟨rfl, rfl⟩⟩ ?_ h
      rw [List.map_snd_zip (by omega)]
      exact hsort

theorem groupSections_pieces {U : CharTables} {pageTexts : Option (List Text)}
    {uniqueTitles : List Text} (group : List GroupEntry) (path : Text) (start stop : Nat) :
    ∃ ps, Pieces ps ∧
      groupSections U pageTexts uniqueTitles group path start stop =
        pieceSections start stop ps := by
  unfold groupSections
  dsimp only
  split
  · next p q rest hps =>
    refine ⟨p :: q :: rest, ?_, pieceSections_zip start stop _⟩
    split at hps
    · cases hps
    · split_ifs at hps
      exact sharedPagePieces_spec (by simp) hps
  · exact ⟨[(path, 0)], pieces_single path, rfl⟩

/-! ## Runs of pages -/

/-- Sections that take the pages from one number up to another, group by group, the skipped pages
and those from `n` on left out. -/
inductive PageCover (n : Nat) (skipped : Nat → Bool) : Nat → Nat → List Section → Prop
  | nil (a : Nat) : PageCover n skipped a a []
  | skip {a b : Nat} {ss : List Section} (h : skipped a = true ∨ n ≤ a)
      (rest : PageCover n skipped (a + 1) b ss) : PageCover n skipped a b ss
  | group {a m b : Nat} {ps : List (Text × Nat)} {ss : List Section} (lt : a < m)
      (pieces : Pieces ps) (body : ∀ p, a ≤ p → p < m → skipped p = false)
      (rest : PageCover n skipped m b ss) :
      PageCover n skipped a b (pieceSections a m ps ++ ss)

theorem PageCover.append {n : Nat} {skipped : Nat → Bool} {a m b : Nat} {xs ys : List Section}
    (h : PageCover n skipped a m xs) (h' : PageCover n skipped m b ys) :
    PageCover n skipped a b (xs ++ ys) := by
  induction h with
  | nil a => exact h'
  | skip hs _ ih => exact .skip hs (ih h')
  | group lt ps body _ ih =>
    rw [List.append_assoc]
    exact .group lt ps body (ih h')

theorem PageCover.le {n : Nat} {skipped : Nat → Bool} {a b : Nat} {ss : List Section}
    (h : PageCover n skipped a b ss) : a ≤ b := by
  induction h with
  | nil a => exact Nat.le.refl
  | skip _ _ ih => omega
  | group lt _ _ _ ih => omega

/-- Pages past the end leave nothing to cover. -/
theorem PageCover.skips {n : Nat} {skipped : Nat → Bool} {a b : Nat} (hn : n ≤ a) (h : a ≤ b) :
    PageCover n skipped a b [] := by
  induction b, h using Nat.le_induction with
  | base => exact .nil a
  | succ b hb ih => exact ih.append (.skip (.inr (hn.trans hb)) (.nil _))

/-- The pages from `a` up to `b` that are not skipped. -/
def bodyRun {α : Type} (skipped : Nat → Bool) (pages : List (List α)) (a b : Nat) : List α :=
  ((List.range' a (b - a)).filter (fun p => !skipped p)).flatMap (fun p => pages[p]?.getD [])

theorem bodyRun_cons {α : Type} {skipped : Nat → Bool} {pages : List (List α)} {a b : Nat}
    (h : a < b) : bodyRun skipped pages a b =
      (if skipped a then [] else pages[a]?.getD []) ++ bodyRun skipped pages (a + 1) b := by
  have hb : b - a = (b - (a + 1)) + 1 := by omega
  unfold bodyRun
  rw [hb, List.range'_succ, List.filter_cons]
  cases skipped a <;> simp

theorem bodyRun_append {α : Type} {skipped : Nat → Bool} {pages : List (List α)} {a m b : Nat}
    (h : a ≤ m) (h' : m ≤ b) :
    bodyRun skipped pages a b = bodyRun skipped pages a m ++ bodyRun skipped pages m b := by
  have hb : b - a = (m - a) + (b - m) := by omega
  have hm : a + (m - a) = m := by omega
  unfold bodyRun
  rw [hb, ← List.range'_append_1, hm, List.filter_append, List.flatMap_append]

theorem bodyRun_body {α : Type} {skipped : Nat → Bool} {pages : List (List α)} {a m : Nat}
    (h : a ≤ m) (hb : ∀ p, a ≤ p → p < m → skipped p = false) :
    bodyRun skipped pages a m = pageRun pages a m := by
  induction m, h using Nat.le_induction with
  | base => simp [bodyRun, pageRun_self]
  | succ m hm ih =>
    have hs : skipped m = false := hb m hm (by omega)
    rw [bodyRun_append hm (Nat.le_succ m), ih (fun p h1 h2 => hb p h1 (by omega)),
      ← pageRun_append pages hm (Nat.le_succ m), pageRun_succ]
    simp [bodyRun, hs]

theorem bodyRun_past {α : Type} {skipped : Nat → Bool} {pages : List (List α)} {a b : Nat}
    (h : pages.length ≤ a) : bodyRun skipped pages a b = [] := by
  refine List.flatMap_eq_nil_iff.mpr fun p hp => ?_
  have hp := (List.mem_range'_1.mp (List.mem_filter.mp hp).1).1
  rw [List.getElem?_eq_none (by omega)]
  rfl

/-- Sections that take a run of pages hold the run's body text, in order. -/
theorem PageCover.cut {α : Type} {n : Nat} {skipped : Nat → Bool} {a b : Nat} {ss : List Section}
    (h : PageCover n skipped a b ss) {pages : List (List α)} (hn : pages.length = n) :
    ss.flatMap (fun s => Chunking.cut s pages) = bodyRun skipped pages a b := by
  induction h with
  | nil a => simp [bodyRun]
  | @skip a b ss hs rest ih =>
    have hlt : a < b := rest.le
    rw [ih, bodyRun_cons hlt]
    rcases hs with hs | hs
    · rw [if_pos hs, List.nil_append]
    · rw [List.getElem?_eq_none (by omega)]
      simp
  | group lt ps body rest ih =>
    rw [List.flatMap_append, ps.cut lt, ih, bodyRun_append (Nat.le_of_lt lt) rest.le,
      bodyRun_body (Nat.le_of_lt lt) body]

/-! ## The main loop -/

def entryStart (e : TocEntry) : Nat := (e.page - 1).toNat

/-- The kept bookmarks take all pages from the first one's on. -/
theorem outlineLoop_cover {U : CharTables} {n : Nat} {pageTexts : Option (List Text)}
    {uniqueTitles : List Text} {skipped : Nat → Bool} (es : List TocEntry) (e : TocEntry)
    (hs : (e :: es).Pairwise (fun a b => a.page ≤ b.page))
    (hb : ∀ p, entryStart e ≤ p → skipped p = false) (stack : List (Int × Text))
    (group : List GroupEntry) :
    ∃ b, n ≤ b ∧ PageCover n skipped (entryStart e) b
      (outlineLoop U n pageTexts uniqueTitles stack group (e :: es)) := by
  induction es generalizing e stack group with
  | nil =>
    simp only [outlineLoop]
    split
    · next hlt =>
      obtain ⟨ps, hps, he⟩ := groupSections_pieces (U := U) _ _ (entryStart e) n
      refine ⟨n, Nat.le.refl, ?_⟩
      unfold entryStart at he ⊢
      rw [he]
      exact .group hlt hps (fun p hp _ => hb p hp) (.nil n)
    · next hlt => exact ⟨entryStart e, Nat.le_of_not_lt hlt, .nil _⟩
  | cons e' es ih =>
    obtain ⟨hle, hs⟩ := List.pairwise_cons.mp hs
    have hee : entryStart e ≤ entryStart e' := by
      have := hle e' List.mem_cons_self
      unfold entryStart
      omega
    have hmax : max (entryStart e) (entryStart e') = entryStart e' := max_eq_right hee
    have ih := ih e' hs (fun p hp => hb p (hee.trans hp))
    rw [outlineLoop]
    split
    · next hlt =>
      change entryStart e < max (entryStart e) (entryStart e') at hlt
      obtain ⟨ps, hps, he⟩ := groupSections_pieces (U := U) _ _ (entryStart e) (max (entryStart e) (entryStart e'))
      obtain ⟨b, hn, hc⟩ := ih _ _
      refine ⟨b, hn, ?_⟩
      unfold entryStart at he ⊢
      rw [he]
      refine .group hlt hps (fun p hp _ => hb p hp) ?_
      change PageCover n skipped (max (entryStart e) (entryStart e')) b _
      rw [hmax]
      exact hc
    · next hlt =>
      change ¬entryStart e < max (entryStart e) (entryStart e') at hlt
      rw [hmax] at hlt
      have heq : entryStart e = entryStart e' := by omega
      rw [heq]
      exact ih _ _

/-! ## Leading pages -/

/-- The bookmark a page falls under. -/
def pageOwner (entries : List TocEntry) (page : Nat) : Option TocEntry :=
  (entries.takeWhile (fun e => e.page ≤ (page : Int) + 1)).getLast?

/-- `_leading_sections` leaves the page out by name. -/
def leadingSkipped (entries : List TocEntry) (firstKept limit page : Nat) : Bool :=
  page < firstKept && (page < limit && match pageOwner entries page with
    | none => false
    | some e => namedSkip (cleanTitle e.title) e.page limit)

/-- The state in front of `page`: the bookmarks passed, and the open run of body pages. -/
structure LeadInv (entries : List TocEntry) (n : Nat) (skipped : Nat → Bool) (page : Nat)
    (s : LeadState) : Prop where
  passed : ∃ pre, entries = pre ++ s.entries ∧ (∀ e ∈ pre, e.page ≤ page) ∧
    s.owner = pre.getLast?.map (fun e => (cleanTitle e.title, e.page))
  cover : match s.runStart with
    | none => PageCover n skipped 0 page s.sections
    | some start => start < page ∧ PageCover n skipped 0 start s.sections ∧
        ∀ p, start ≤ p → p < page → skipped p = false

theorem pageOwner_passed {pre rest : List TocEntry} {page : Nat}
    (hp : ∀ e ∈ pre, e.page ≤ (page : Int)) :
    pageOwner (pre ++ rest) page =
      (pre ++ rest.takeWhile (fun e => e.page ≤ (page : Int) + 1)).getLast? := by
  rw [pageOwner, List.takeWhile_append_of_pos]
  intro e he
  have := hp e he
  simp
  omega

/-- The owner in front of the next page. -/
def LeadState.nextOwner (s : LeadState) (page : Nat) : Option (Text × Int) :=
  match (s.entries.takeWhile (fun e => e.page ≤ (page : Int) + 1)).getLast? with
  | none => s.owner
  | some e => some (cleanTitle e.title, e.page)

/-- The page of an owner is left out by name. -/
def ownerSkips (limit page : Nat) (owner : Option (Text × Int)) : Bool :=
  page < limit && match owner with
    | none => false
    | some o => namedSkip o.1 o.2 limit

theorem LeadState.feed_eq (title : Text) (firstKept limit : Nat) (s : LeadState) (page : Nat) :
    s.feed title firstKept limit page =
      if page < firstKept ∧ !ownerSkips limit page (s.nextOwner page) then
        ⟨s.sections, s.runStart.or (some page), s.nextOwner page,
          s.entries.dropWhile (fun e => e.page ≤ (page : Int) + 1)⟩
      else match s.runStart with
        | none => ⟨s.sections, none, s.nextOwner page,
            s.entries.dropWhile (fun e => e.page ≤ (page : Int) + 1)⟩
        | some start => ⟨s.sections ++ [⟨title, start, page, 0, none⟩], none, s.nextOwner page,
            s.entries.dropWhile (fun e => e.page ≤ (page : Int) + 1)⟩ := rfl

theorem leadingSkipped_iff (entries : List TocEntry) (firstKept limit page : Nat) :
    leadingSkipped entries firstKept limit page = true ↔ page < firstKept ∧
      ownerSkips limit page
        ((pageOwner entries page).map (fun e => (cleanTitle e.title, e.page))) = true := by
  unfold leadingSkipped ownerSkips
  cases pageOwner entries page <;> simp

/-- The bookmarks passed by a page are those in front of it. -/
theorem LeadInv.next {entries : List TocEntry} {n page : Nat} {skipped : Nat → Bool}
    {s : LeadState} (h : LeadInv entries n skipped page s) :
    s.nextOwner page = (pageOwner entries page).map (fun e => (cleanTitle e.title, e.page)) ∧
      ∃ pre, entries = pre ++ s.entries.dropWhile (fun e => e.page ≤ (page : Int) + 1) ∧
        (∀ e ∈ pre, e.page ≤ ((page + 1 : Nat) : Int)) ∧
        s.nextOwner page = pre.getLast?.map (fun e => (cleanTitle e.title, e.page)) := by
  obtain ⟨pre, hpre, hle, hown⟩ := h.passed
  have ho : s.nextOwner page =
      (pre ++ s.entries.takeWhile (fun e => e.page ≤ (page : Int) + 1)).getLast?.map
        (fun e => (cleanTitle e.title, e.page)) := by
    rw [LeadState.nextOwner, List.getLast?_append, hown]
    cases (s.entries.takeWhile (fun e => e.page ≤ (page : Int) + 1)).getLast? <;> rfl
  refine ⟨?_, _, ?_, ?_, ho⟩
  · rw [hpre, pageOwner_passed hle]
    exact ho
  · rw [List.append_assoc, List.takeWhile_append_dropWhile]
    exact hpre
  · intro e he
    rcases List.mem_append.mp he with he | he
    · have := hle e he
      omega
    · have := List.mem_takeWhile_imp he
      simpa using this

theorem LeadInv.feed {entries : List TocEntry} {n firstKept limit page : Nat} {s : LeadState}
    (title : Text) (h : LeadInv entries n (leadingSkipped entries firstKept limit) page s)
    (hlt : page < firstKept) :
    LeadInv entries n (leadingSkipped entries firstKept limit) (page + 1)
      (s.feed title firstKept limit page) := by
  obtain ⟨howner, hnext⟩ := h.next
  have hcov := h.cover
  have hiff := leadingSkipped_iff entries firstKept limit page
  rw [← howner] at hiff
  rw [LeadState.feed_eq]
  by_cases hs : ownerSkips limit page (s.nextOwner page) = true
  · have hsp : leadingSkipped entries firstKept limit page = true := hiff.mpr ⟨hlt, hs⟩
    rw [if_neg (by simp [hs])]
    cases hr : s.runStart with
    | none =>
      rw [hr] at hcov
      refine ⟨hnext, ?_⟩
      have := hcov.append (.skip (.inl hsp) (.nil _))
      rwa [List.append_nil] at this
    | some start =>
      rw [hr] at hcov
      obtain ⟨hst, hcv, hbody⟩ := hcov
      refine ⟨hnext, ?_⟩
      exact hcv.append (.group hst (pieces_single title) hbody (.skip (.inl hsp) (.nil _)))
  · have hsp : leadingSkipped entries firstKept limit page = false := by
      rw [← Bool.not_eq_true]
      exact fun h => hs (hiff.mp h).2
    rw [if_pos ⟨hlt, by simpa using hs⟩]
    refine ⟨hnext, ?_⟩
    cases hr : s.runStart with
    | none =>
      rw [hr] at hcov
      refine ⟨Nat.lt_succ_self page, hcov, fun p h1 h2 => ?_⟩
      obtain rfl : p = page := by omega
      exact hsp
    | some start =>
      rw [hr] at hcov
      obtain ⟨hst, hcv, hbody⟩ := hcov
      refine ⟨by omega, hcv, fun p h1 h2 => ?_⟩
      by_cases hpp : p = page
      · exact hpp ▸ hsp
      · exact hbody p h1 (by omega)

/-- The page of the first kept bookmark closes the last run. -/
theorem LeadInv.close {entries : List TocEntry} {n firstKept limit : Nat} {s : LeadState}
    {skipped : Nat → Bool} (title : Text) (h : LeadInv entries n skipped firstKept s) :
    PageCover n skipped 0 firstKept (s.feed title firstKept limit firstKept).sections := by
  have hcov := h.cover
  rw [LeadState.feed_eq, if_neg (fun h => Nat.lt_irrefl _ h.1)]
  cases hr : s.runStart with
  | none =>
    rw [hr] at hcov
    exact hcov
  | some start =>
    rw [hr] at hcov
    obtain ⟨hst, hcv, hbody⟩ := hcov
    exact hcv.append (.group hst (pieces_single title) hbody (.nil _))

theorem leadingSections_cover (title : Text) (entries : List TocEntry) (n firstKept limit : Nat) :
    PageCover n (leadingSkipped entries firstKept limit) 0 firstKept
      (leadingSections title entries firstKept limit) := by
  have hinv : ∀ k, k ≤ firstKept → LeadInv entries n (leadingSkipped entries firstKept limit) k
      ((List.range k).foldl (LeadState.feed title firstKept limit) { entries := entries }) := by
    intro k hk
    induction k with
    | zero => exact ⟨⟨[], rfl, by simp, rfl⟩, .nil 0⟩
    | succ k ih =>
      rw [List.range_succ, List.foldl_append]
      exact (ih (by omega)).feed title hk
  rw [leadingSections, List.range_succ, List.foldl_append]
  exact (hinv firstKept Nat.le.refl).close title

/-! ## The outline -/

/-- 0-based page of the first kept bookmark, within the document. -/
def firstKept (parsed : ParsedDoc) : Nat :=
  match keptEntries (parsed.toc.mergeSort (fun a b => a.page ≤ b.page))
      (frontMatterLimit parsed.pageCount) with
  | [] => parsed.pageCount
  | e :: _ => min parsed.pageCount (entryStart e)

/-- The pages `_leading_sections` leaves out. -/
def skippedPage (parsed : ParsedDoc) : Nat → Bool :=
  leadingSkipped (parsed.toc.mergeSort (fun a b => a.page ≤ b.page)) (firstKept parsed)
    (frontMatterLimit parsed.pageCount)

theorem keptEntries_sorted (parsed : ParsedDoc) :
    (keptEntries (parsed.toc.mergeSort (fun a b => a.page ≤ b.page))
      (frontMatterLimit parsed.pageCount)).Pairwise (fun a b => a.page ≤ b.page) := by
  have h := @List.pairwise_mergeSort _ (fun a b : TocEntry => decide (a.page ≤ b.page))
    (fun a b c h1 h2 => by simp at *; omega) (fun a b => by simp; omega) parsed.toc
  unfold keptEntries
  refine List.Pairwise.filter _ (List.pairwise_map.mpr (h.imp ?_))
  intro a b hab
  simpa using hab

theorem skippedPage_past {parsed : ParsedDoc} {p : Nat} (h : firstKept parsed ≤ p) :
    skippedPage parsed p = false := by
  unfold skippedPage leadingSkipped
  have : ¬p < firstKept parsed := by omega
  simp [this]

/-- The sections of an outline take every page but those skipped by name. -/
theorem outlineSections_cover (U : CharTables) (parsed : ParsedDoc)
    (pageTexts : Option (List Text)) (h : parsed.toc ≠ []) :
    ∃ b, parsed.pageCount ≤ b ∧ PageCover parsed.pageCount (skippedPage parsed) 0 b
      (outlineSections U parsed pageTexts) := by
  have hsort := keptEntries_sorted parsed
  have hlead : PageCover parsed.pageCount (skippedPage parsed) 0 (firstKept parsed) _ :=
    leadingSections_cover parsed.title _ parsed.pageCount _ _
  have hpast : ∀ p, firstKept parsed ≤ p → skippedPage parsed p = false :=
    fun p hp => skippedPage_past hp
  rw [outlineSections, if_neg h]
  dsimp only
  unfold firstKept at hlead hpast
  cases hk : keptEntries (parsed.toc.mergeSort (fun a b => a.page ≤ b.page))
      (frontMatterLimit parsed.pageCount) with
  | nil =>
    rw [hk] at hlead
    refine ⟨parsed.pageCount, Nat.le.refl, ?_⟩
    rw [outlineLoop, List.append_nil]
    exact hlead
  | cons e es =>
    rw [hk] at hlead hpast hsort
    dsimp only at hlead hpast
    obtain ⟨b, hb, hloop⟩ := outlineLoop_cover (U := U) (n := parsed.pageCount) es e hsort
      (fun p hp => hpast p ((min_le_right _ _).trans hp)) [] []
    refine ⟨b, hb, hlead.append ?_⟩
    -- a bookmark past the end leaves a gap of absent pages
    by_cases hlt : entryStart e ≤ parsed.pageCount
    · rw [min_eq_right hlt]
      exact hloop
    · rw [min_eq_left (by omega)]
      exact (PageCover.skips Nat.le.refl (by omega)).append hloop

theorem outlineSections_cut {α : Type} (U : CharTables) (parsed : ParsedDoc)
    (pageTexts : Option (List Text)) {pages : List (List α)}
    (h : pages.length = parsed.pageCount) :
    (outlineSections U parsed pageTexts).flatMap (fun s => cut s pages) =
      bodyRun (skippedPage parsed) pages 0 parsed.pageCount := by
  by_cases ht : parsed.toc = []
  · have hsk : ∀ p, skippedPage parsed p = false := by
      intro p
      simp [skippedPage, leadingSkipped, pageOwner, ht]
    rw [outlineSections, if_pos ht, bodyRun_body (Nat.zero_le _) (fun p _ _ => hsk p)]
    simp [cut_whole]
  · obtain ⟨b, hb, hc⟩ := outlineSections_cover U parsed pageTexts ht
    rw [hc.cut h, bodyRun_append (Nat.zero_le _) hb, bodyRun_past (a := parsed.pageCount) (by omega),
      List.append_nil]

/-! ## No outline -/

/-- Windows of at most `fallbackMaxPages` whole pages, one after the other. -/
def Windows : Nat → Nat → List Section → Prop
  | a, b, [] => a = b
  | a, b, s :: ss => s.pageStart = a ∧ a < s.pageEnd ∧ s.pageEnd ≤ a + fallbackMaxPages ∧
      s.startChar = 0 ∧ s.endChar = none ∧ Windows s.pageEnd b ss

theorem Windows.snoc {a b c : Nat} {ss : List Section} (h : Windows a b ss) (path : Text)
    (hlt : b < c) (hle : c ≤ b + fallbackMaxPages) : Windows a c (ss ++ [⟨path, b, c, 0, none⟩]) := by
  induction ss generalizing a with
  | nil =>
    obtain rfl : a = b := h
    exact ⟨rfl, hlt, hle, rfl, rfl, rfl⟩
  | cons s ss ih =>
    obtain ⟨h1, h2, h3, h4, h5, h6⟩ := h
    exact ⟨h1, h2, h3, h4, h5, ih h6⟩

theorem Windows.cut {α : Type} {a b : Nat} {ss : List Section} (h : Windows a b ss)
    (pages : List (List α)) :
    a ≤ b ∧ ss.flatMap (fun s => Chunking.cut s pages) = pageRun pages a b := by
  induction ss generalizing a with
  | nil =>
    obtain rfl : a = b := h
    exact ⟨Nat.le.refl, (pageRun_self pages a).symm⟩
  | cons s ss ih =>
    obtain ⟨path, pageStart, pageEnd, startChar, endChar⟩ := s
    obtain ⟨h1, h2, -, h4, h5, h6⟩ := h
    dsimp only at h1 h2 h4 h5 h6
    subst h1 h4 h5
    obtain ⟨hle, hcut⟩ := ih h6
    refine ⟨(Nat.le_of_lt h2).trans hle, ?_⟩
    rw [List.flatMap_cons, cut_whole, hcut, pageRun_append pages (Nat.le_of_lt h2) hle]

/-- The windows closed in front of page `k`, and the open one. -/
def WindowInv (k : Nat) (s : FallbackState) : Prop :=
  Windows 0 s.start s.sections ∧ s.start ≤ k ∧ k ≤ s.start + fallbackMaxPages

theorem WindowInv.feed {U : CharTables} {title : Text} {k : Nat} {s : FallbackState}
    (h : WindowInv k s) (t : Text) : WindowInv (k + 1) (s.feed U title (t, k)) := by
  obtain ⟨h1, h2, h3⟩ := h
  have hm : fallbackMaxPages = 10 := rfl
  unfold FallbackState.feed
  dsimp only
  split
  · next hc => exact ⟨h1.snoc _ hc.1 h3, Nat.le_succ k, by dsimp only; omega⟩
  · next hc =>
    refine ⟨h1, by omega, ?_⟩
    by_cases hlt : s.start < k
    · have : ¬fallbackMaxPages ≤ k - s.start := fun hfull => hc ⟨hlt, .inr hfull⟩
      omega
    · omega

theorem WindowInv.foldl {U : CharTables} {title : Text} (pageTexts : List Text) {k : Nat}
    {s : FallbackState} (h : WindowInv k s) :
    WindowInv (k + pageTexts.length)
      ((pageTexts.zipIdx k).foldl (FallbackState.feed U title) s) := by
  induction pageTexts generalizing k s with
  | nil => exact h
  | cons t pageTexts ih =>
    rw [List.zipIdx_cons, List.foldl_cons, List.length_cons, Nat.add_comm pageTexts.length,
      ← Nat.add_assoc]
    exact ih (h.feed t)

theorem Windows.filter {a b : Nat} {ss : List Section} (h : Windows a b ss) :
    ss.filter (fun s => s.pageStart < s.pageEnd) = ss := by
  induction ss generalizing a with
  | nil => rfl
  | cons s ss ih =>
    obtain ⟨h1, h2, -, -, -, h6⟩ := h
    rw [List.filter_cons_of_pos (by simpa [h1] using h2), ih h6]

theorem fallbackSections_windows (U : CharTables) (pageTexts : List Text) (title : Text) :
    Windows 0 pageTexts.length (fallbackSections U pageTexts title) := by
  have h := @WindowInv.foldl U title pageTexts 0 { headingPath := title }
    ⟨rfl, Nat.le.refl, Nat.zero_le _⟩
  unfold fallbackSections
  generalize pageTexts.zipIdx.foldl (FallbackState.feed U title) { headingPath := title } = s at h ⊢
  obtain ⟨h1, h2, h3⟩ := h
  rw [Nat.zero_add] at h2 h3
  dsimp only
  rw [List.filter_append, h1.filter]
  by_cases hlt : s.start < pageTexts.length
  · rw [List.filter_cons_of_pos (by simpa using hlt), List.filter_nil]
    exact h1.snoc _ hlt h3
  · rw [List.filter_cons_of_neg (by simpa using hlt), List.filter_nil, List.append_nil]
    have he : s.start = pageTexts.length := by omega
    rwa [← he]

/-! ## Tiling -/

/-- The pages, every character with its page and its offset there. -/
def placed (pageTexts : List Text) : List (List ((Nat × Nat) × Char)) :=
  pageTexts.zipIdx.map (fun p => p.1.zipIdx.map (fun c => ((p.2, c.2), c.1)))

theorem placed_erase (pageTexts : List Text) :
    (placed pageTexts).map (List.map Prod.snd) = pageTexts := by
  simp [placed, Function.comp_def, List.zipIdx_map_fst]

theorem placed_length (pageTexts : List Text) : (placed pageTexts).length = pageTexts.length := by
  simp [placed]

/-- No two characters share a place. -/
theorem placed_nodup (pageTexts : List Text) : (placed pageTexts).flatten.Nodup := by
  have hpage : ∀ (t : Text) (k : Nat), (t.zipIdx.map (fun c => ((k, c.2), c.1))).Nodup := by
    intro t k
    refine List.Nodup.of_map (fun x => x.1.2) ?_
    have e : (t.zipIdx.map (fun c => (((k, c.2), c.1) : (Nat × Nat) × Char))).map
        (fun x => x.1.2) = t.zipIdx.map Prod.snd := by simp [Function.comp_def]
    rw [e, List.zipIdx_map_snd]
    exact List.nodup_range'
  unfold placed
  rw [List.nodup_flatten]
  refine ⟨fun l hl => ?_, List.pairwise_map.mpr ?_⟩
  · obtain ⟨p, -, rfl⟩ := List.mem_map.mp hl
    exact hpage p.1 p.2
  · have hne : (pageTexts.zipIdx.map Prod.snd).Pairwise (· ≠ ·) := by
      rw [List.zipIdx_map_snd]
      exact List.nodup_range'
    refine (List.pairwise_map.mp hne).imp fun {p q} hpq x hx hy => hpq ?_
    obtain ⟨c, -, rfl⟩ := List.mem_map.mp hx
    obtain ⟨d, -, he⟩ := List.mem_map.mp hy
    exact (congrArg (fun x => x.1.1) he).symm

/-- The sections hold every placed character of the body pages once, in page order. -/
structure SectionsTile (U : CharTables) (parsed : ParsedDoc) (pageTexts : List Text) : Prop where
  /-- without the places, a cut is the text of the section -/
  text : ∀ s, (cutPages s (placed pageTexts)).map (List.map Prod.snd) = bodyPages s pageTexts
  outline : (outlineSections U parsed (some pageTexts)).flatMap
      (fun s => cut s (placed pageTexts)) =
    bodyRun (skippedPage parsed) (placed pageTexts) 0 parsed.pageCount
  once : ((outlineSections U parsed (some pageTexts)).flatMap
    (fun s => cut s (placed pageTexts))).Nodup
  fallback : ∀ title, Windows 0 pageTexts.length (fallbackSections U pageTexts title) ∧
    (fallbackSections U pageTexts title).flatMap (fun s => cut s (placed pageTexts)) =
      (placed pageTexts).flatten

theorem bodyRun_sublist {α : Type} (skipped : Nat → Bool) (pages : List (List α)) :
    (bodyRun skipped pages 0 pages.length).Sublist pages.flatten := by
  have h : (List.range' 0 (pages.length - 0)).flatMap (fun p => pages[p]?.getD []) =
      pages.flatten := by
    have hr : pageRun pages 0 pages.length = pages.flatten := by simp [pageRun]
    rw [← hr, ← @bodyRun_body _ (fun _ => false) _ _ _ (Nat.zero_le _) (fun _ _ _ => rfl)]
    simp [bodyRun]
  rw [← h]
  exact List.filter_sublist.flatMap _

/-- Sections tile the document. -/
theorem sectionsTile (U : CharTables) (parsed : ParsedDoc) (pageTexts : List Text)
    (h : pageTexts.length = parsed.pageCount) : SectionsTile U parsed pageTexts := by
  have hl : (placed pageTexts).length = parsed.pageCount := by rw [placed_length, h]
  have hout := outlineSections_cut U parsed (some pageTexts) hl
  refine ⟨fun s => ?_, hout, ?_, fun title => ?_⟩
  · rw [← cutPages_map, placed_erase, cutPages_eq]
  · rw [hout, ← hl]
    exact (placed_nodup pageTexts).sublist (bodyRun_sublist _ _)
  · have hw := fallbackSections_windows U pageTexts title
    refine ⟨hw, ?_⟩
    rw [(hw.cut _).2, ← placed_length]
    simp [pageRun]

def twoMessages : ParsedDoc where
  path := "m.pdf".toList
  sha256 := []
  docId := []
  title := "Messages".toList
  toc := [⟨1, "Figures".toList, 1⟩, ⟨1, "IEA1".toList, 2⟩, ⟨1, "IEA2".toList, 2⟩]
  pageCount := 3

def twoMessagesPages : List Text :=
  ["list".toList, "IEA1\na\nIEA2\nb".toList, "c".toList]

theorem twoMessages_tile : SectionsTile asciiTables twoMessages twoMessagesPages :=
  sectionsTile asciiTables twoMessages twoMessagesPages rfl

end MainframeRag.Ingest.Chunking
