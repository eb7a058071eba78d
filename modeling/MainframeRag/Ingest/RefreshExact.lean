import MainframeRag.Ingest.RefreshOrder

/-!
# The stored revision after a refresh

What `_upsert_one` leaves of the document's own revision, under whichever document it was stored.
The plan looks for it under the printed document only, and `delete_completion` drops its records
there only: a revision that was stored under another document keeps its old chunks and its old
record (`refreshExact_iff`).
-/

namespace MainframeRag.Ingest

open PyText Chunking

variable {N V : Type} [DecidableEq N] {U : CharTables}

section

variable (b : Build N) (d : Doc U V)

/-- The points of the revision are the new ones. -/
def PointsExact (s' : Store N V) : Prop :=
  ∀ p, p ∈ s'.points ∧ p.sourceRev = some d.revision ↔ p ∈ d.points b.rulesV

/-- The revision's only record for the target is the one just written. -/
def MarkersExact (hc : d.chunks ≠ []) (s' : Store N V) : Prop :=
  ∀ m, m ∈ s'.markers ∧ m.sourceRev = d.revision ∧
      m.targetCollection = b.settings.qdrantCollection ↔ m = completionRecord b d hc

/-- Whatever belongs to no revision of the plan stands as it stood. -/
def OthersKept (revDeletes : List Text) (s s' : Store N V) : Prop :=
  (∀ p, p.sourceRev ≠ some d.revision → (∀ r ∈ revDeletes, p.sourceRev ≠ some r) →
    (p ∈ s'.points ↔ p ∈ s.points)) ∧
  ∀ m, m.sourceRev ≠ d.revision → m.sourceRev ∉ revDeletes → (m ∈ s'.markers ↔ m ∈ s.markers)

/-- A refresh that returns `upserted` leaves the revision exactly as the document has it. -/
def RefreshExact (lineageRev : Option Text) (s : Store N V) : Prop :=
  ∀ (hc : d.chunks ≠ []) (s' : Store N V) (revDeletes : List Text),
    (upsertOne b d lineageRev).run s = (.ok .upserted, s') →
    planRefreshDeletes b s d.docId d.revision lineageRev = .ok revDeletes →
    PointsExact b d s' ∧ MarkersExact b d hc s' ∧ OthersKept d revDeletes s s'

/-! ## What the store has to hold -/

/-- The revision is stored under the document, or holds no point that is not written again. -/
def OwnPoints (s : Store N V) : Prop :=
  (∃ p ∈ s.points, p.docId = d.docId ∧ p.sourceRev = some d.revision) ∨
    ∀ p ∈ s.points, p.sourceRev = some d.revision → p.id ∈ d.texts.map (·.1)

/-- The revision is recorded for the target under the document only. -/
def OwnMarkers (s : Store N V) : Prop :=
  ∀ m ∈ s.markers, m.sourceRev = d.revision →
    m.targetCollection = b.settings.qdrantCollection → m.docId = d.docId

/-- The lineage has no record without a point. -/
def LineageMarkers (lineageRev : Option Text) (s : Store N V) : Prop :=
  ∀ l, lineageRev = some l → l ≠ d.revision →
    (∃ p ∈ s.points, p.sourceRev = some l) ∨ ∀ m ∈ s.markers, m.sourceRev ≠ l

end

variable {b : Build N} {d : Doc U V} {lineageRev : Option Text} {s : Store N V}
  {revDeletes : List Text}

omit [DecidableEq N] in
theorem mem_refreshed_points (hn : ((d.points b.rulesV).map Point.id).Nodup) {p : Point V} :
    p ∈ (refreshedStore b d lineageRev revDeletes s).points ↔ p ∈ d.points b.rulesV ∨
      (p ∈ s.points ∧ ∀ r ∈ revDeletes, p.sourceRev ≠ some r) ∧
        p.id ∉ (d.points b.rulesV).map Point.id := by
  have hcleared : p ∈ (clearedStore d lineageRev revDeletes s).points ↔
      p ∈ s.points ∧ ∀ r ∈ revDeletes, p.sourceRev ≠ some r := mem_clearedStore_points
  rw [← hcleared]
  exact Keyed.mem_upsertAll hn

/-- The old points of the revision go with the plan, or are overwritten. -/
theorem pointsExact_iff (hn : ((d.points b.rulesV).map Point.id).Nodup)
    (hids : (d.points b.rulesV).map Point.id = d.texts.map (·.1))
    (hplan : planRefreshDeletes b s d.docId d.revision lineageRev = .ok revDeletes)
    {m : CompletionRecord N} :
    PointsExact b d (writeMarker m (refreshedStore b d lineageRev revDeletes s)) ↔
      OwnPoints d s := by
  have hmem : ∀ p, p ∈ (writeMarker m (refreshedStore b d lineageRev revDeletes s)).points ↔ _ :=
    fun p => mem_refreshed_points hn (p := p)
  rw [OwnPoints, ← own_mem_planRefreshDeletes hplan]
  constructor
  · intro h
    by_contra hcon
    simp only [not_or, not_forall] at hcon
    obtain ⟨hkept, p, hp, hrev, hid⟩ := hcon
    rw [← hids] at hid
    have hstands : p ∈ (writeMarker m (refreshedStore b d lineageRev revDeletes s)).points := by
      refine (hmem p).mpr (.inr ⟨⟨hp, fun r hr e => ?_⟩, hid⟩)
      exact hkept (Option.some.inj (hrev.symm.trans e) ▸ hr)
    exact hid (List.mem_map_of_mem ((h p).mp ⟨hstands, hrev⟩))
  · intro hown p
    constructor
    · rintro ⟨hp, hrev⟩
      rcases (hmem p).mp hp with hnew | ⟨⟨hold, hdel⟩, hid⟩
      · exact hnew
      · rcases hown with hr | hids'
        · exact absurd hrev (hdel _ hr)
        · exact absurd (hids ▸ hids' p hold hrev) hid
    · exact fun hnew => ⟨(hmem p).mpr (.inl hnew), Doc.points_sourceRev hnew⟩

/-- The revision's records under other documents stay. -/
theorem markersExact_iff (hc : d.chunks ≠ []) :
    MarkersExact b d hc
        (writeMarker (completionRecord b d hc) (refreshedStore b d lineageRev revDeletes s)) ↔
      OwnMarkers b d s := by
  have hmem : ∀ m, m ∈ (writeMarker (completionRecord b d hc)
      (refreshedStore b d lineageRev revDeletes s)).markers ↔ m = completionRecord b d hc ∨
        (m ∈ (clearedStore d lineageRev revDeletes s).markers ∧
          m.id ≠ (completionRecord b d hc).id) := fun m => Keyed.mem_upsert
  constructor
  · intro h m hm hrev htarget
    by_contra hdoc
    have hne : m.id ≠ (completionRecord b d hc).id :=
      fun e => hdoc (congrArg CompletionKey.docId e)
    refine hne (congrArg _ ((h m).mp ⟨(hmem m).mpr (.inr ⟨?_, hne⟩), hrev, htarget⟩))
    exact mem_clearedStore_markers.mpr ⟨hm, fun e => hdoc e.1, fun e => absurd hrev e⟩
  · intro hown m
    constructor
    · rintro ⟨hm, hrev, htarget⟩
      rcases (hmem m).mp hm with hnew | ⟨hold, -⟩
      · exact hnew
      · obtain ⟨hold, hkept, -⟩ := mem_clearedStore_markers.mp hold
        exact absurd ⟨hown m hold hrev htarget, hrev⟩ hkept
    · rintro rfl
      exact ⟨(hmem _).mpr (.inl rfl), rfl, rfl⟩

/-- The lineage loses its records even where no point of it is stored. -/
theorem othersKept_iff (hc : d.chunks ≠ [])
    (hplan : planRefreshDeletes b s d.docId d.revision lineageRev = .ok revDeletes) :
    OthersKept d revDeletes s
        (writeMarker (completionRecord b d hc) (refreshedStore b d lineageRev revDeletes s)) ↔
      LineageMarkers d lineageRev s := by
  have hmem : ∀ m, m.sourceRev ≠ d.revision → (m ∈ (writeMarker (completionRecord b d hc)
      (refreshedStore b d lineageRev revDeletes s)).markers ↔
        m ∈ s.markers ∧ m.sourceRev ∉ revDeletes ∧ lineageRev ≠ some m.sourceRev) := by
    intro m hrev
    have hne : m ≠ completionRecord b d hc := fun e => hrev (congrArg CompletionRecord.sourceRev e)
    have hid : m.id ≠ (completionRecord b d hc).id :=
      fun e => hrev (congrArg CompletionKey.sourceRev e)
    refine Keyed.mem_upsert.trans ((or_iff_right hne).trans ((and_iff_left hid).trans ?_))
    refine mem_clearedStore_markers.trans (and_congr_right fun _ => ?_)
    rw [and_iff_right (fun e : m.docId = d.docId ∧ m.sourceRev = d.revision => hrev e.2)]
    exact ⟨fun h => h hrev, fun h _ => h⟩
  constructor
  · rintro ⟨-, hkept⟩ l hl hne
    by_contra hcon
    simp only [not_or, not_forall, not_not] at hcon
    obtain ⟨hpoints, m, hm, rfl⟩ := hcon
    have hout : m.sourceRev ∉ revDeletes := by
      rw [mem_planRefreshDeletes hplan hne]
      rintro (⟨-, hp⟩ | ⟨hnone, -⟩)
      · exact hpoints hp
      · rw [hl] at hnone
        cases hnone
    exact ((hmem m hne).mp ((hkept m hne hout).mpr hm)).2.2 hl
  · intro hlin
    refine ⟨fun p hrev hdel => ?_, fun m hrev hdel => ?_⟩
    · have hkey : p.id ∉ (d.points b.rulesV).map Point.id := by
        intro hk
        obtain ⟨q, hq, hqk⟩ := List.mem_map.mp hk
        refine hrev ?_
        rw [Point.sourceRev, ← hqk]
        exact Doc.points_sourceRev hq
      refine (Keyed.mem_upsertAll_of_not_mem hkey).trans (mem_clearedStore_points.trans ?_)
      exact and_iff_left hdel
    · rw [hmem m hrev]
      refine ⟨And.left, fun hm => ⟨hm, hdel, fun hl => ?_⟩⟩
      rcases hlin m.sourceRev hl hrev with hp | hnone
      · exact hdel ((mem_planRefreshDeletes hplan hrev).mpr (.inl ⟨hl, hp⟩))
      · exact hnone m hm rfl

/-- The stores on which a refresh leaves its revision as the document has it. -/
theorem refreshExact_iff (b : Build N) (d : Doc U V) (lineageRev : Option Text) (s : Store N V) :
    RefreshExact b d lineageRev s ↔ ∀ s', (upsertOne b d lineageRev).run s = (.ok .upserted, s') →
      OwnPoints d s ∧ OwnMarkers b d s ∧ LineageMarkers d lineageRev s := by
  have hstep : ∀ (hc : d.chunks ≠ []) (s' : Store N V) (revDeletes : List Text),
      (upsertOne b d lineageRev).run s = (.ok .upserted, s') →
      planRefreshDeletes b s d.docId d.revision lineageRev = .ok revDeletes →
      (PointsExact b d s' ∧ MarkersExact b d hc s' ∧ OthersKept d revDeletes s s' ↔
        OwnPoints d s ∧ OwnMarkers b d s ∧ LineageMarkers d lineageRev s) := by
    intro hc s' revDeletes hrun hplan
    rcases upsertOne_ok hrun with ⟨h1, -⟩ | ⟨h1, -⟩ | ⟨-, -, hlen, _, dels, hplan', rfl, hverified⟩
    · cases h1
    · cases h1
    cases Except.ok.inj (hplan.symm.trans hplan')
    have hids : (d.points b.rulesV).map Point.id = d.texts.map (·.1) := Doc.points_ids hlen
    have hn : ((d.points b.rulesV).map Point.id).Nodup := by
      rw [hids]
      exact (verified_texts hverified).1
    rw [pointsExact_iff hn hids hplan, markersExact_iff, othersKept_iff hc hplan]
  constructor
  · intro h s' hrun
    rcases upsertOne_ok hrun with ⟨h1, -⟩ | ⟨h1, -⟩ | ⟨-, -, -, hc, revDeletes, hplan, -⟩
    · cases h1
    · cases h1
    exact (hstep hc s' revDeletes hrun hplan).mp (h hc s' revDeletes hrun hplan)
  · intro h hc s' revDeletes hrun hplan
    exact (hstep hc s' revDeletes hrun hplan).mpr (h s' hrun)

/-! ## A document whose number was read anew -/

/-- The same bytes, stored as `SA` and refreshed as `SB`: the old chunk and the old record stay. -/
theorem renumbered_revision_kept :
    ¬∀ s, RefreshExact (plainBuild 0 none) (formDoc ['B'] ['1'])
      (some (formDoc ['B'] ['1']).revision) s := by
  intro h
  have hrun : ((upsertOne (plainBuild 0 none) (formDoc ['B'] ['1'])
      (some (formDoc ['B'] ['1']).revision)).run
      (storeOf (plainBuild 0 none) [formDoc ['A'] ['1']])).1 = .ok .upserted := by decide +kernel
  have hown : ∀ p ∈ (storeOf (plainBuild 0 none) [formDoc ['A'] ['1']]).points.items,
      p.docId ≠ (formDoc ['B'] ['1']).docId := by decide +kernel
  have hkept : ∃ p ∈ (storeOf (plainBuild 0 none) [formDoc ['A'] ['1']]).points.items,
      p.sourceRev = some (formDoc ['B'] ['1']).revision ∧
        p.id ∉ (formDoc ['B'] ['1']).texts.map (·.1) := by decide +kernel
  obtain ⟨p, hp, hrev, hid⟩ := hkept
  have hexact := (refreshExact_iff (plainBuild 0 none) (formDoc ['B'] ['1'])
    (some (formDoc ['B'] ['1']).revision) (storeOf (plainBuild 0 none) [formDoc ['A'] ['1']])).mp
    (h _) _ (Prod.ext hrun rfl)
  rcases hexact.1 with ⟨q, hq, hdoc, -⟩ | hids
  · exact hown q hq hdoc
  · exact hid (hids p hp hrev)

end MainframeRag.Ingest
