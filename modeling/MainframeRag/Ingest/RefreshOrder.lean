import MainframeRag.Ingest.Lineage

/-!
# Refreshes of one walk

`_plan` queues the walked files whose recorded generation the target does not hold; the upsert
stream then refreshes them in whatever order their parses return. A refresh deletes its path's
lineage, or the residue under its document, by source revision: `settlesWhereSpared` says for which
orders every walked revision is complete in the end, and that the final target does not depend on
the order where no refresh hits another walked revision.
-/

namespace MainframeRag.Ingest

open PyText Chunking

variable {N V F : Type} {U : CharTables}

/-- The walked paths with their documents, behind the identity gate: one path for each content, one
content for each document. -/
structure Walk (U : CharTables) (V : Type) where
  entries : List (Text × Doc U V)
  distinct_sha256 : (entries.map (fun e => e.2.sha256)).Nodup
  distinct_docId : (entries.map (fun e => e.2.docId)).Nodup
  hex : ∀ e ∈ entries, '|' ∉ e.2.sha256

theorem Walk.eq_of_revision (w : Walk U V) {e f : Text × Doc U V} (he : e ∈ w.entries)
    (hf : f ∈ w.entries) (h : e.2.revision = f.2.revision) : e = f :=
  List.inj_on_of_nodup_map w.distinct_sha256 he hf
    (sourceRevKey_sha256 (w.hex e he) (w.hex f hf) h)

/-! ## Revisions that look alike -/

/-- The stored texts of the document's revision are its chunks. -/
def HoldsChunks (d : Doc U V) (s : Store N V) : Prop :=
  (s.points.selected (Point.isOf d.docId d.revision)).map (fun p => (p.id, p.text)) =
    (d.texts : Multiset (ChunkKey × Text))

/-- The two targets hold the same of a revision. -/
def AgreeOn (sourceRev : Text) (s s' : Store N V) : Prop :=
  (∀ p, p.sourceRev = some sourceRev → (p ∈ s.points ↔ p ∈ s'.points)) ∧
    ∀ m, m.sourceRev = sourceRev → (m ∈ s.markers ↔ m ∈ s'.markers)

/-- The two targets hold the same. -/
def Same (s s' : Store N V) : Prop :=
  (∀ p, p ∈ s.points ↔ p ∈ s'.points) ∧ ∀ m, m ∈ s.markers ↔ m ∈ s'.markers

section

variable {d : Doc U V} {r : Text} {s s' s'' : Store N V}

theorem AgreeOn.refl (r : Text) (s : Store N V) : AgreeOn r s s :=
  ⟨fun _ _ => Iff.rfl, fun _ _ => Iff.rfl⟩

theorem AgreeOn.symm (h : AgreeOn r s s') : AgreeOn r s' s :=
  ⟨fun p hp => (h.1 p hp).symm, fun m hm => (h.2 m hm).symm⟩

theorem AgreeOn.trans (h : AgreeOn r s s') (h' : AgreeOn r s' s'') : AgreeOn r s s'' :=
  ⟨fun p hp => (h.1 p hp).trans (h'.1 p hp), fun m hm => (h.2 m hm).trans (h'.2 m hm)⟩

theorem AgreeOn.gone (h : AgreeOn r s s') (hg : Gone r s) : Gone r s' :=
  ⟨fun p hp hr => hg.1 p ((h.1 p hr).mpr hp) hr, fun m hm hr => hg.2 m ((h.2 m hr).mpr hm) hr⟩

theorem AgreeOn.verifyDocPoints (h : AgreeOn r s s') (docId sha256 rulesV : Text) (n : Nat)
    (ids : Multiset ChunkKey) (contents : Multiset (ChunkKey × Text)) :
    verifyDocPoints s.points docId sha256 rulesV r n ids contents =
      verifyDocPoints s'.points docId sha256 rulesV r n ids contents :=
  verifyDocPoints_congr (fun p _ hp => h.1 p hp) sha256 rulesV n ids contents

theorem AgreeOn.holdsChunks (h : AgreeOn d.revision s s') : HoldsChunks d s ↔ HoldsChunks d s' := by
  have hs : s.points.selected (Point.isOf d.docId d.revision) =
      s'.points.selected (Point.isOf d.docId d.revision) := by
    apply Keyed.selected_congr
    intro p hp
    simp only [Point.isOf, decide_eq_true_eq] at hp
    exact h.1 p hp.2
  rw [HoldsChunks, HoldsChunks, hs]

end

/-! ## Planning -/

section

variable [DecidableEq N]

/-- The bound skip of `_plan`: the inventory's latest record says the file is stored, and the
target holds the generation that record names. -/
def planSkips (b : Build N) (inventory : Inventory F) (resumeCheckpoints : Bool) (s : Store N V)
    (e : Text × Doc U V) : Bool :=
  match inventory e.1 with
  | none => false
  | some record =>
    shouldSkip (some record) e.2.sha256 false (some b.rulesV)
        (b.forceReingest && !resumeCheckpoints) &&
      match record.docId, record.sourceRev with
      | some boundDoc, some boundRev =>
        boundDoc ≠ [] && boundRev ≠ [] &&
          isDocComplete s b.settings boundDoc e.2.sha256 b.rulesV b.srcLabels boundRev
            (if resumeCheckpoints then some (manifestDigest b.settings b.rulesV) else none)
      | _, _ => false

def Walk.skipped (w : Walk U V) (b : Build N) (inventory : Inventory F) (resumeCheckpoints : Bool)
    (s : Store N V) : List (Text × Doc U V) :=
  w.entries.filter (planSkips b inventory resumeCheckpoints s)

def Walk.tasks (w : Walk U V) (b : Build N) (inventory : Inventory F) (resumeCheckpoints : Bool)
    (s : Store N V) : List (Text × Doc U V) :=
  w.entries.filter (fun e => !planSkips b inventory resumeCheckpoints s e)

/-! ## Execution -/

/-- One queued refresh; `none` is a failed document. -/
def refresh (b : Build N) (inventory : Inventory F) (t : Text × Doc U V) (s : Store N V) :
    Option (Store N V) :=
  match (upsertOne b t.2 (lineageByPath inventory t.1)).run s with
  | (.ok .upserted, s') => some s'
  | (.ok .skipped, s') => some s'
  | _ => none

def refreshAll (b : Build N) (inventory : Inventory F) :
    List (Text × Doc U V) → Store N V → Option (Store N V)
  | [], s => some s
  | t :: ts, s => (refresh b inventory t s).bind (refreshAll b inventory ts)

def Complete (b : Build N) (d : Doc U V) (s : Store N V) : Prop :=
  docComplete b d s = true ∧ HoldsChunks d s

/-- The document's refresh does not skip. -/
def Effective (b : Build N) (t : Text × Doc U V) (s : Store N V) : Prop :=
  b.forceReingest = true ∨ docComplete b t.2 s = false

/-- A refresh that does not skip finds the revision as its lineage, or as residue where it has no
lineage. -/
def Hits (b : Build N) (inventory : Inventory F) (t : Text × Doc U V) (sourceRev : Text)
    (s : Store N V) : Prop :=
  Effective b t s ∧ (lineageByPath inventory t.1 = some sourceRev ∨
    (lineageByPath inventory t.1 = none ∧ SweptAsResidue b t.2 sourceRev s))

/-- No refresh of the order hits a path that is settled before it: skipped by the plan or refreshed
earlier. -/
def SparesSettled (b : Build N) (inventory : Inventory F) :
    List (Text × Doc U V) → List (Text × Doc U V) → Store N V → Prop
  | _, [], _ => True
  | settled, t :: ts, s =>
    (∀ q ∈ settled, ¬Hits b inventory t q.2.revision s) ∧
      ∀ s', refresh b inventory t s = some s' → SparesSettled b inventory (t :: settled) ts s'

/-- No refresh of the order hits another walked path. -/
def SparesOthers (b : Build N) (inventory : Inventory F) (w : Walk U V) :
    List (Text × Doc U V) → Store N V → Prop
  | [], _ => True
  | t :: ts, s =>
    (∀ q ∈ w.entries, q ≠ t → ¬Hits b inventory t q.2.revision s) ∧
      ∀ s', refresh b inventory t s = some s' → SparesOthers b inventory w ts s'

/-! ## What a complete document is -/

section

variable {b : Build N} {d : Doc U V} {inventory : Inventory F} {t : Text × Doc U V} {r : Text}
  {s s' : Store N V}

theorem AgreeOn.docComplete (h : AgreeOn d.revision s s') :
    docComplete b d s = docComplete b d s' := by
  have hle : ∀ {s s' : Store N V}, AgreeOn d.revision s s' →
      Ingest.docComplete b d s = true → Ingest.docComplete b d s' = true := by
    intro s s' h hc
    obtain ⟨m, hm, hid, h1, h2, h3, h4⟩ := isDocComplete_iff.mp hc
    have hr : m.sourceRev = d.revision := congrArg CompletionKey.sourceRev hid
    refine isDocComplete_iff.mpr ⟨m, (h.2 m hr).mp hm, hid, h1, h2, h3, ?_⟩
    rw [← h.verifyDocPoints]
    exact h4
  exact Bool.eq_iff_iff.mpr ⟨hle h, hle h.symm⟩

theorem AgreeOn.effective (h : AgreeOn t.2.revision s s') : Effective b t s ↔ Effective b t s' := by
  rw [Effective, Effective, h.docComplete]

theorem AgreeOn.swept (h : AgreeOn r s s') : SweptAsResidue b d r s ↔ SweptAsResidue b d r s' := by
  have hc : isRevisionCommitted s b.settings d.docId r b.ancestor =
      isRevisionCommitted s' b.settings d.docId r b.ancestor := by
    have hle : ∀ {s s' : Store N V}, AgreeOn r s s' →
        isRevisionCommitted s b.settings d.docId r b.ancestor = true →
        isRevisionCommitted s' b.settings d.docId r b.ancestor = true := by
      intro s s' h hc
      obtain ⟨m, hm, hd, hr, ht, hv⟩ := isRevisionCommitted_iff.mp hc
      refine isRevisionCommitted_iff.mpr ⟨m, (h.2 m hr).mp hm, hd, hr, ht, ?_⟩
      rw [CompletionRecord.verifies, hr] at hv ⊢
      rw [← h.verifyDocPoints]
      exact hv
    exact Bool.eq_iff_iff.mpr ⟨hle h, hle h.symm⟩
  rw [SweptAsResidue, SweptAsResidue, hc]
  refine and_congr_left fun _ => ?_
  constructor
  · rintro ⟨p, hp, hd, hr⟩
    exact ⟨p, (h.1 p hr).mp hp, hd, hr⟩
  · rintro ⟨p, hp, hd, hr⟩
    exact ⟨p, (h.1 p hr).mpr hp, hd, hr⟩

theorem AgreeOn.hits (ht : AgreeOn t.2.revision s s') (h : AgreeOn r s s') :
    Hits b inventory t r s ↔ Hits b inventory t r s' := by
  rw [Hits, Hits, ht.effective, h.swept]

theorem AgreeOn.complete (h : AgreeOn d.revision s s') : Complete b d s ↔ Complete b d s' := by
  rw [Complete, Complete, h.docComplete, h.holdsChunks]

/-- A revision that is gone is not complete. -/
theorem Gone.not_complete (h : Gone d.revision s) : ¬Complete b d s := by
  rintro ⟨hc, -⟩
  obtain ⟨m, hm, hid, -⟩ := isDocComplete_iff.mp hc
  exact h.2 m hm (congrArg CompletionKey.sourceRev hid)

/-! ## One refresh -/

/-- A refresh leaves the target alone, or replaces the plan by the verified chunks. -/
theorem refresh_cases (h : refresh b inventory t s = some s') :
    (¬Effective b t s ∧ s' = s) ∨
    (Effective b t s ∧ t.2.chunks.length = t.2.vectors.length ∧
      ∃ (hc : t.2.chunks ≠ []) (revDeletes : List Text),
        planRefreshDeletes b s t.2.docId t.2.revision (lineageByPath inventory t.1) =
          .ok revDeletes ∧
        s' = writeMarker (completionRecord b t.2 hc)
          (refreshedStore b t.2 (lineageByPath inventory t.1) revDeletes s) ∧
        verifyDocPoints (refreshedStore b t.2 (lineageByPath inventory t.1) revDeletes s).points
          t.2.docId t.2.sha256 b.rulesV t.2.revision (expectedDigests t.2.texts).1
          (expectedDigests t.2.texts).2.1 (expectedDigests t.2.texts).2.2 = true) := by
  unfold refresh at h
  split at h
  · next hrun =>
    cases h
    rcases upsertOne_ok hrun with ⟨h1, -⟩ | ⟨h1, -⟩ | ⟨-, he, hlen, hrest⟩
    · cases h1
    · cases h1
    · exact .inr ⟨he, hlen, hrest⟩
  · next hrun =>
    cases h
    rcases upsertOne_ok hrun with ⟨h1, -⟩ | ⟨-, hs, hf, hd⟩ | ⟨h1, -⟩
    · cases h1
    · exact .inl ⟨by simp [Effective, hf, hd], hs⟩
    · cases h1
  · cases h

theorem mem_markers_refreshed {hc : t.2.chunks ≠ []} {revDeletes : List Text} {l : Option Text}
    {m : CompletionRecord N} :
    m ∈ (writeMarker (completionRecord b t.2 hc) (refreshedStore b t.2 l revDeletes s)).markers ↔
      m = completionRecord b t.2 hc ∨ (m ∈ (clearedStore t.2 l revDeletes s).markers ∧
        m.id ≠ (completionRecord b t.2 hc).id) :=
  Keyed.mem_upsert

/-- A hit revision is gone. -/
theorem refresh_hit (h : refresh b inventory t s = some s') (hr : r ≠ t.2.revision)
    (hh : Hits b inventory t r s) : Gone r s' := by
  unfold refresh at h
  split at h
  · next hrun =>
    cases h
    rcases hh.2 with hl | hl
    · exact (gone_after_upsert hr hrun).mpr (.inl hl)
    · exact (gone_after_upsert hr hrun).mpr (.inr (.inr hl))
  · next hrun =>
    rcases upsertOne_ok hrun with ⟨h1, -⟩ | ⟨-, -, hf, hd⟩ | ⟨h1, -⟩
    · cases h1
    · exact absurd hh.1 (by simp [Effective, hf, hd])
    · cases h1
  · cases h

/-- A revision that is neither hit nor the refreshed document's own stays as it is. -/
theorem refresh_spared (h : refresh b inventory t s = some s') (hr : r ≠ t.2.revision)
    (hh : ¬Hits b inventory t r s) : AgreeOn r s' s := by
  rcases refresh_cases h with ⟨-, rfl⟩ | ⟨he, -, hc, revDeletes, hplan, rfl, -⟩
  · exact .refl r _
  have hl : ¬(lineageByPath inventory t.1 = some r ∨
      (lineageByPath inventory t.1 = none ∧ SweptAsResidue b t.2 r s)) := fun h' => hh ⟨he, h'⟩
  have hdel : r ∉ revDeletes := by
    rw [mem_planRefreshDeletes hplan hr]
    rintro (⟨h1, -⟩ | h1)
    · exact hl (.inl h1)
    · exact hl (.inr h1)
  constructor
  · intro p hp
    have hkey : p.id ∉ (t.2.points b.rulesV).map Point.id := by
      intro hk
      obtain ⟨q, hq, hqk⟩ := List.mem_map.mp hk
      have hown := Doc.points_sourceRev hq
      rw [Point.sourceRev, hqk] at hown
      exact hr (Option.some.inj (hp.symm.trans hown))
    show p ∈ (refreshedStore b t.2 _ revDeletes s).points ↔ _
    refine (Keyed.mem_upsertAll_of_not_mem hkey).trans (mem_clearedStore_points.trans ?_)
    refine and_iff_left fun r' hr' hpr => hdel ?_
    rw [hp] at hpr
    exact Option.some.inj hpr ▸ hr'
  · intro m hm
    rw [mem_markers_refreshed, mem_clearedStore_markers]
    constructor
    · rintro (rfl | ⟨⟨hms, -⟩, -⟩)
      · exact absurd hm.symm hr
      · exact hms
    · intro hms
      refine .inr ⟨⟨hms, fun hk => hr (hm ▸ hk.2), fun _ => ?_⟩, ?_⟩
      · exact ⟨fun hk => hdel (hm ▸ hk), fun hk => hl (.inl (hm ▸ hk))⟩
      · exact fun hk => hr (hm ▸ congrArg CompletionKey.sourceRev hk)

/-- Points without a revision are never touched. -/
theorem refresh_sourceless (h : refresh b inventory t s = some s') {p : Point V}
    (hp : p.sourceRev = none) : p ∈ s'.points ↔ p ∈ s.points := by
  rcases refresh_cases h with ⟨-, rfl⟩ | ⟨-, -, hc, revDeletes, hplan, rfl, -⟩
  · rfl
  have hkey : p.id ∉ (t.2.points b.rulesV).map Point.id := by
    intro hk
    obtain ⟨q, hq, hqk⟩ := List.mem_map.mp hk
    have hown := Doc.points_sourceRev hq
    rw [Point.sourceRev, hqk] at hown
    exact absurd (hp.symm.trans hown) (by simp)
  show p ∈ (refreshedStore b t.2 _ revDeletes s).points ↔ _
  refine (Keyed.mem_upsertAll_of_not_mem hkey).trans (mem_clearedStore_points.trans ?_)
  exact and_iff_left fun r' _ hpr => by simp [hp] at hpr

/-- A revision that is gone stays gone while other documents are refreshed. -/
theorem refresh_gone (h : refresh b inventory t s = some s') (hr : r ≠ t.2.revision)
    (hg : Gone r s) : Gone r s' := by
  by_cases hh : Hits b inventory t r s
  · exact refresh_hit h hr hh
  · exact (refresh_spared h hr hh).symm.gone hg

/-! ## The document's own revision -/

omit [DecidableEq N] in
theorem Doc.points_ids {rulesV : Text} (h : d.chunks.length = d.vectors.length) :
    (d.points rulesV).map Point.id = d.texts.map (·.1) := by
  rw [Doc.points, Doc.texts, List.map_zipWith, List.map_map]
  have hz : ∀ (cs : List Chunk) (vs : List V), cs.length = vs.length →
      List.zipWith (fun c v => (d.point rulesV c v).id) cs vs = cs.map (d.chunkKey ·) := by
    intro cs
    induction cs with
    | nil => intro vs _; rfl
    | cons c cs ih =>
      intro vs hv
      cases vs with
      | nil => cases hv
      | cons v vs =>
        rw [List.zipWith_cons_cons, List.map_cons, ih vs (by simpa using hv)]
        rfl
  exact hz _ _ h

omit [DecidableEq N] in
theorem textById_of_nodup {texts : List (ChunkKey × Text)} (h : (texts.map (·.1)).Nodup) :
    (texts.map (·.1)).map (fun id => (id, textById texts id)) = texts := by
  rw [List.map_map]
  conv_rhs => rw [← List.map_id texts]
  apply List.map_congr_left
  intro c hc
  have hf : texts.reverse.find? (fun x => x.1 = c.1) = some c := by
    cases hf : texts.reverse.find? (fun x => x.1 = c.1) with
    | none => exact absurd (List.find?_eq_none.mp hf c (List.mem_reverse.mpr hc)) (by simp)
    | some x =>
      have hx := List.find?_some hf
      simp only [decide_eq_true_eq] at hx
      have hm := List.mem_reverse.mp (List.mem_of_find?_eq_some hf)
      rw [List.inj_on_of_nodup_map h hm hc hx]
  simp [textById, hf]

omit [DecidableEq N] in
/-- Points that verify against the document's digests have its ids, each once, and its texts. -/
theorem verified_texts {points : Points V} {docId sha256 rulesV sourceRev : Text} {n : Nat}
    (h : verifyDocPoints points docId sha256 rulesV sourceRev n (expectedDigests d.texts).2.1
      (expectedDigests d.texts).2.2 = true) :
    (d.texts.map (·.1)).Nodup ∧
      (points.selected (Point.isOf docId sourceRev)).map (fun p => (p.id, p.text)) =
        (d.texts : Multiset (ChunkKey × Text)) := by
  obtain ⟨-, -, -, hids, htexts⟩ := verifyDocPoints_iff.mp h
  have hn : (d.texts.map (·.1)).Nodup := by
    have hs : ((points.selected (Point.isOf docId sourceRev)).map Point.id).Nodup := by
      rw [Keyed.selected, Multiset.map_coe, Multiset.coe_nodup]
      exact points.distinct.sublist (List.filter_sublist.map _)
    rw [hids] at hs
    exact Multiset.coe_nodup.mp hs
  refine ⟨hn, ?_⟩
  rw [htexts]
  exact congrArg _ (textById_of_nodup hn)

/-- What a refresh leaves of its own revision depends only on what was there of it. -/
theorem refresh_own {s₁ s₂ s₁' s₂' : Store N V} (ha : AgreeOn t.2.revision s₁ s₂)
    (h₁ : refresh b inventory t s₁ = some s₁') (h₂ : refresh b inventory t s₂ = some s₂') :
    AgreeOn t.2.revision s₁' s₂' := by
  rcases refresh_cases h₁ with ⟨he₁, rfl⟩ | ⟨he₁, hlen, hc, del₁, hp₁, rfl, hv₁⟩
  · rcases refresh_cases h₂ with ⟨-, rfl⟩ | ⟨he₂, -⟩
    · exact ha
    · exact absurd (ha.effective.mpr he₂) he₁
  rcases refresh_cases h₂ with ⟨he₂, rfl⟩ | ⟨-, -, _, del₂, hp₂, rfl, -⟩
  · exact absurd (ha.effective.mp he₁) he₂
  have hnodup : ((t.2.points b.rulesV).map Point.id).Nodup := by
    rw [Doc.points_ids hlen]
    exact (verified_texts hv₁).1
  have hdel : t.2.revision ∈ del₁ ↔ t.2.revision ∈ del₂ := by
    rw [own_mem_planRefreshDeletes hp₁, own_mem_planRefreshDeletes hp₂]
    constructor
    · rintro ⟨p, hp, hd, hr⟩
      exact ⟨p, (ha.1 p hr).mp hp, hd, hr⟩
    · rintro ⟨p, hp, hd, hr⟩
      exact ⟨p, (ha.1 p hr).mpr hp, hd, hr⟩
  have hkept : ∀ {dels : List Text} {p : Point V}, p.sourceRev = some t.2.revision →
      ((∀ r ∈ dels, p.sourceRev ≠ some r) ↔ t.2.revision ∉ dels) := by
    intro dels p hp
    rw [hp]
    constructor
    · exact fun h hm => h _ hm rfl
    · exact fun h r hr heq => h (Option.some.inj heq ▸ hr)
  constructor
  · intro p hp
    show p ∈ (refreshedStore b t.2 _ del₁ s₁).points ↔ p ∈ (refreshedStore b t.2 _ del₂ s₂).points
    refine (Keyed.mem_upsertAll hnodup).trans (Iff.trans ?_ (Keyed.mem_upsertAll hnodup).symm)
    rw [mem_clearedStore_points, mem_clearedStore_points, hkept hp, hkept hp, ha.1 p hp, hdel]
  · intro m hm
    simp only [mem_markers_refreshed, mem_clearedStore_markers, hm, ne_eq, not_true_eq_false,
      false_implies, and_true, ha.2 m hm]

/-- The target's completion records for walked documents were written for their chunks. -/
def Certified (b : Build N) (w : Walk U V) (s : Store N V) : Prop :=
  ∀ e ∈ w.entries, ∀ m ∈ s.markers,
    m.id = ⟨b.settings.qdrantCollection, e.2.docId, e.2.revision,
      docGenerationId b.settings e.2.sha256 b.rulesV b.srcLabels⟩ →
    m.chunkIdsDigest = (expectedDigests e.2.texts).2.1 ∧
      m.contentDigest = (expectedDigests e.2.texts).2.2

variable {w : Walk U V}

theorem Certified.complete (hs : Certified b w s) (ht : t ∈ w.entries)
    (hc : docComplete b t.2 s = true) : Complete b t.2 s := by
  refine ⟨hc, ?_⟩
  obtain ⟨m, hm, hid, -, -, -, hv⟩ := isDocComplete_iff.mp hc
  obtain ⟨h1, h2⟩ := hs t ht m hm hid
  rw [h1, h2] at hv
  exact (verified_texts hv).2

theorem Certified.refresh (hs : Certified b w s) (ht : t ∈ w.entries)
    (h : refresh b inventory t s = some s') : Certified b w s' := by
  rcases refresh_cases h with ⟨-, rfl⟩ | ⟨-, -, hc, revDeletes, hplan, rfl, -⟩
  · exact hs
  intro e he m hm hid
  rcases mem_markers_refreshed.mp hm with rfl | ⟨hm, -⟩
  · obtain rfl := w.eq_of_revision ht he (congrArg CompletionKey.sourceRev hid)
    exact ⟨rfl, rfl⟩
  · exact hs e he m (mem_clearedStore_markers.mp hm).1 hid

/-- A refreshed document is complete. -/
theorem refresh_complete (hs : Certified b w s) (ht : t ∈ w.entries)
    (h : refresh b inventory t s = some s') : Complete b t.2 s' := by
  rcases refresh_cases h with ⟨he, rfl⟩ | ⟨-, -, hc, revDeletes, hplan, rfl, hv⟩
  · simp only [Effective, not_or, Bool.not_eq_true, Bool.not_eq_false] at he
    exact hs.complete ht he.2
  refine ⟨isDocComplete_iff.mpr ⟨completionRecord b t.2 hc, ?_, rfl, by simp, rfl, rfl, hv⟩,
    (verified_texts hv).2⟩
  exact mem_markers_refreshed.mpr (.inl rfl)

/-! ## Whole runs -/

variable {order ts settled : List (Text × Doc U V)}

theorem refreshAll_cons (h : refreshAll b inventory (t :: ts) s = some s') :
    ∃ s₁, refresh b inventory t s = some s₁ ∧ refreshAll b inventory ts s₁ = some s' := by
  rw [refreshAll, Option.bind_eq_some_iff] at h
  exact h

theorem refreshAll_sourceless (h : refreshAll b inventory ts s = some s') {p : Point V}
    (hp : p.sourceRev = none) : p ∈ s'.points ↔ p ∈ s.points := by
  induction ts generalizing s with
  | nil =>
    cases h
    rfl
  | cons t ts ih =>
    obtain ⟨s₁, h₁, h₂⟩ := refreshAll_cons h
    exact (ih h₂).trans (refresh_sourceless h₁ hp)

theorem refreshAll_gone (h : refreshAll b inventory ts s = some s')
    (hr : ∀ t ∈ ts, r ≠ t.2.revision) (hg : Gone r s) : Gone r s' := by
  induction ts generalizing s with
  | nil =>
    cases h
    exact hg
  | cons t ts ih =>
    obtain ⟨s₁, h₁, h₂⟩ := refreshAll_cons h
    exact ih h₂ (fun t ht => hr t (List.mem_cons_of_mem _ ht))
      (refresh_gone h₁ (hr t List.mem_cons_self) hg)

/-- Every walked path ends complete exactly when no settled path is hit. -/
theorem complete_iff_spares (hsub : ∀ q ∈ settled ++ order, q ∈ w.entries)
    (hnd : (settled ++ order).Nodup) (hcert : Certified b w s)
    (hset : ∀ q ∈ settled, Complete b q.2 s) (h : refreshAll b inventory order s = some s') :
    (∀ q ∈ settled ++ order, Complete b q.2 s') ↔ SparesSettled b inventory settled order s := by
  induction order generalizing settled s with
  | nil =>
    cases h
    simpa [SparesSettled] using hset
  | cons t ts ih =>
    obtain ⟨s₁, h₁, h₂⟩ := refreshAll_cons h
    have ht : t ∈ w.entries := hsub t (by simp)
    have hperm : (settled ++ t :: ts).Perm (t :: settled ++ ts) := List.perm_middle
    have hne : ∀ q ∈ settled, q ≠ t := by
      rintro q hq rfl
      exact (List.disjoint_of_nodup_append hnd) hq List.mem_cons_self
    have hrev : ∀ q ∈ settled, q.2.revision ≠ t.2.revision := fun q hq hr =>
      hne q hq (w.eq_of_revision (hsub q (by simp [hq])) ht hr)
    have hstep : (∀ q ∈ settled, ¬Hits b inventory t q.2.revision s) →
        ∀ q ∈ t :: settled, Complete b q.2 s₁ := by
      intro hsp q hq
      rcases List.mem_cons.mp hq with rfl | hq
      · exact refresh_complete hcert ht h₁
      · exact (refresh_spared h₁ (hrev q hq) (hsp q hq)).complete.mpr (hset q hq)
    have hih : (∀ q ∈ settled, ¬Hits b inventory t q.2.revision s) →
        ((∀ q ∈ settled ++ t :: ts, Complete b q.2 s') ↔
          SparesSettled b inventory (t :: settled) ts s₁) := by
      intro hsp
      rw [← ih (fun q hq => hsub q (hperm.mem_iff.mpr hq)) (hperm.nodup_iff.mp hnd)
        (hcert.refresh ht h₁) (hstep hsp) h₂]
      exact forall_congr' fun q => imp_congr_left hperm.mem_iff
    constructor
    · intro hall
      have hsp : ∀ q ∈ settled, ¬Hits b inventory t q.2.revision s := by
        intro q hq hh
        have hgone : Gone q.2.revision s' := by
          refine refreshAll_gone h₂ (fun u hu hr => ?_) (refresh_hit h₁ (hrev q hq) hh)
          have := w.eq_of_revision (hsub q (by simp [hq])) (hsub u (by simp [hu])) hr
          exact (List.disjoint_of_nodup_append hnd) hq (this ▸ List.mem_cons_of_mem _ hu)
        exact hgone.not_complete (hall q (by simp [hq]))
      refine ⟨hsp, fun s₂ hs₂ => ?_⟩
      rw [h₁] at hs₂
      exact Option.some.inj hs₂ ▸ (hih hsp).mp hall
    · rintro ⟨hsp, hrest⟩
      exact (hih hsp).mpr (hrest s₁ h₁)

theorem SparesOthers.cons (h : SparesOthers b inventory w (t :: ts) s) {s₁ : Store N V}
    (h₁ : refresh b inventory t s = some s₁) :
    (∀ q ∈ w.entries, q ≠ t → ¬Hits b inventory t q.2.revision s) ∧
      SparesOthers b inventory w ts s₁ := ⟨h.1, h.2 s₁ h₁⟩

/-- A walked path that is not in the order stays as it is. -/
theorem refreshAll_spared (hsub : ∀ q ∈ ts, q ∈ w.entries) {q : Text × Doc U V} (hq : q ∈ w.entries)
    (hn : q ∉ ts) (hsp : SparesOthers b inventory w ts s)
    (h : refreshAll b inventory ts s = some s') : AgreeOn q.2.revision s' s := by
  induction ts generalizing s with
  | nil =>
    cases h
    exact .refl _ _
  | cons t ts ih =>
    obtain ⟨s₁, h₁, h₂⟩ := refreshAll_cons h
    obtain ⟨hsp, hrest⟩ := hsp.cons h₁
    have hne : q ≠ t := fun e => hn (e ▸ List.mem_cons_self)
    have hrev : q.2.revision ≠ t.2.revision := fun hr =>
      hne (w.eq_of_revision hq (hsub t List.mem_cons_self) hr)
    exact (ih (fun u hu => hsub u (List.mem_cons_of_mem _ hu))
      (fun hu => hn (List.mem_cons_of_mem _ hu)) hrest h₂).trans
      (refresh_spared h₁ hrev (hsp q hq hne))

/-- A refreshed path ends as its refresh of the first target leaves it. -/
theorem refreshAll_own (hsub : ∀ q ∈ ts, q ∈ w.entries) (hnd : ts.Nodup) (ht : t ∈ ts)
    (hsp : SparesOthers b inventory w ts s) (h : refreshAll b inventory ts s = some s') :
    ∃ u u', AgreeOn t.2.revision u s ∧ refresh b inventory t u = some u' ∧
      AgreeOn t.2.revision s' u' := by
  induction ts generalizing s with
  | nil => cases ht
  | cons x ts ih =>
    obtain ⟨s₁, h₁, h₂⟩ := refreshAll_cons h
    obtain ⟨hsp, hrest⟩ := hsp.cons h₁
    have hsub' : ∀ q ∈ ts, q ∈ w.entries := fun q hq => hsub q (List.mem_cons_of_mem _ hq)
    obtain ⟨hx, hnd⟩ := List.nodup_cons.mp hnd
    rcases List.mem_cons.mp ht with rfl | ht
    · exact ⟨s, s₁, .refl _ _, h₁, refreshAll_spared hsub' (hsub t List.mem_cons_self) hx hrest h₂⟩
    · obtain ⟨u, u', hu, hr, hu'⟩ := ih hsub' hnd ht hrest h₂
      have hne : t ≠ x := fun e => hx (e ▸ ht)
      have hrev : t.2.revision ≠ x.2.revision := fun hr =>
        hne (w.eq_of_revision (hsub' t ht) (hsub x List.mem_cons_self) hr)
      exact ⟨u, u', hu.trans (refresh_spared h₁ hrev (hsp t (hsub' t ht) hne)), hr, hu'⟩

/-- A revision no walked file has is gone if a queued path finds it in the first target, and stays
as it is otherwise. -/
theorem refreshAll_unwalked (hsub : ∀ q ∈ ts, q ∈ w.entries) (hnd : ts.Nodup)
    (hr : ∀ q ∈ w.entries, r ≠ q.2.revision) (hsp : SparesOthers b inventory w ts s)
    (h : refreshAll b inventory ts s = some s') :
    ((∃ t ∈ ts, Hits b inventory t r s) → Gone r s') ∧
      ((¬∃ t ∈ ts, Hits b inventory t r s) → AgreeOn r s' s) := by
  induction ts generalizing s with
  | nil =>
    cases h
    exact ⟨by simp, fun _ => .refl _ _⟩
  | cons x ts ih =>
    obtain ⟨s₁, h₁, h₂⟩ := refreshAll_cons h
    obtain ⟨hsp, hrest⟩ := hsp.cons h₁
    have hsub' : ∀ q ∈ ts, q ∈ w.entries := fun q hq => hsub q (List.mem_cons_of_mem _ hq)
    obtain ⟨hx, hnd⟩ := List.nodup_cons.mp hnd
    have hrx := hr x (hsub x List.mem_cons_self)
    by_cases hh : Hits b inventory x r s
    · have hg := refreshAll_gone h₂ (fun q hq => hr q (hsub' q hq)) (refresh_hit h₁ hrx hh)
      exact ⟨fun _ => hg, fun hn => absurd ⟨x, List.mem_cons_self, hh⟩ hn⟩
    · have hag := refresh_spared h₁ hrx hh
      have hiff : (∃ t ∈ x :: ts, Hits b inventory t r s) ↔ ∃ t ∈ ts, Hits b inventory t r s₁ := by
        rw [List.exists_mem_cons_iff, or_iff_right hh]
        refine exists_congr fun t => and_congr_right fun ht => ?_
        have hne : t ≠ x := fun e => hx (e ▸ ht)
        have hrev : t.2.revision ≠ x.2.revision := fun hr =>
          hne (w.eq_of_revision (hsub' t ht) (hsub x List.mem_cons_self) hr)
        exact AgreeOn.hits (refresh_spared h₁ hrev (hsp t (hsub' t ht) hne)).symm hag.symm
      obtain ⟨h3, h4⟩ := ih hsub' hnd hrest h₂
      exact ⟨fun hex => h3 (hiff.mp hex), fun hn => (h4 (fun hex => hn (hiff.mpr hex))).trans hag⟩

/-- Two orders of the same refreshes that spare each other's paths end in the same target. -/
theorem refreshAll_same {o₁ o₂ : List (Text × Doc U V)} {s₁ s₂ : Store N V}
    (hsub : ∀ q ∈ o₁, q ∈ w.entries) (hnd : o₁.Nodup) (hperm : o₁.Perm o₂)
    (h₁ : refreshAll b inventory o₁ s = some s₁) (h₂ : refreshAll b inventory o₂ s = some s₂)
    (hsp₁ : SparesOthers b inventory w o₁ s) (hsp₂ : SparesOthers b inventory w o₂ s) :
    Same s₁ s₂ := by
  have hsub₂ : ∀ q ∈ o₂, q ∈ w.entries := fun q hq => hsub q (hperm.mem_iff.mpr hq)
  have hnd₂ := hperm.nodup_iff.mp hnd
  have hall : ∀ r, AgreeOn r s₁ s₂ ∨ (Gone r s₁ ∧ Gone r s₂) := by
    intro r
    by_cases hw : ∃ q ∈ w.entries, r = q.2.revision
    · obtain ⟨q, hq, rfl⟩ := hw
      refine .inl ?_
      by_cases ho : q ∈ o₁
      · obtain ⟨u, u', hu, hr, hu'⟩ := refreshAll_own hsub hnd ho hsp₁ h₁
        obtain ⟨v, v', hv, hr', hv'⟩ := refreshAll_own hsub₂ hnd₂ (hperm.mem_iff.mp ho) hsp₂ h₂
        exact hu'.trans ((refresh_own (hu.trans hv.symm) hr hr').trans hv'.symm)
      · exact (refreshAll_spared hsub hq ho hsp₁ h₁).trans
          (refreshAll_spared hsub₂ hq (fun h => ho (hperm.mem_iff.mpr h)) hsp₂ h₂).symm
    · have hr : ∀ q ∈ w.entries, r ≠ q.2.revision := fun q hq e => hw ⟨q, hq, e⟩
      obtain ⟨g₁, a₁⟩ := refreshAll_unwalked hsub hnd hr hsp₁ h₁
      obtain ⟨g₂, a₂⟩ := refreshAll_unwalked hsub₂ hnd₂ hr hsp₂ h₂
      have hiff : (∃ t ∈ o₁, Hits b inventory t r s) ↔ ∃ t ∈ o₂, Hits b inventory t r s :=
        exists_congr fun t => and_congr_left fun _ => hperm.mem_iff
      by_cases hh : ∃ t ∈ o₁, Hits b inventory t r s
      · exact .inr ⟨g₁ hh, g₂ (hiff.mp hh)⟩
      · exact .inl ((a₁ hh).trans (a₂ (fun h => hh (hiff.mpr h))).symm)
  constructor
  · intro p
    cases hp : p.sourceRev with
    | none => rw [refreshAll_sourceless h₁ hp, refreshAll_sourceless h₂ hp]
    | some r =>
      rcases hall r with ha | ⟨g₁, g₂⟩
      · exact ha.1 p hp
      · exact iff_of_false (fun hm => g₁.1 p hm hp) (fun hm => g₂.1 p hm hp)
  · intro m
    rcases hall m.sourceRev with ha | ⟨g₁, g₂⟩
    · exact ha.2 m rfl
    · exact iff_of_false (fun hm => g₁.2 m hm rfl) (fun hm => g₂.2 m hm rfl)

/-! ## Every order of one plan -/

/-- Completion records certify what the walk parses to, and the record a path is skipped by names
the path's own document. -/
structure Consistent (b : Build N) (w : Walk U V) (inventory : Inventory F)
    (resumeCheckpoints : Bool) (s : Store N V) : Prop where
  certified : Certified b w s
  own_record : ∀ e ∈ w.skipped b inventory resumeCheckpoints s, ∀ record, inventory e.1 = some record →
    record.docId = some e.2.docId ∧ record.sourceRev = some e.2.revision

variable {resumeCheckpoints : Bool}

/-- What the plan skips is complete. -/
theorem Consistent.skipped (hc : Consistent b w inventory resumeCheckpoints s)
    (ht : t ∈ w.skipped b inventory resumeCheckpoints s) : Complete b t.2 s := by
  have hown := hc.own_record t ht
  obtain ⟨hw, hskip⟩ := List.mem_filter.mp ht
  refine hc.certified.complete hw ?_
  unfold planSkips at hskip
  split at hskip
  · cases hskip
  · next record hrec =>
    obtain ⟨hd, hr⟩ := hown record hrec
    rw [hd, hr] at hskip
    simp only [Bool.and_eq_true] at hskip
    obtain ⟨m, hm, hid, -, h2, h3, h4⟩ := isDocComplete_iff.mp hskip.2.2
    exact isDocComplete_iff.mpr ⟨m, hm, hid, by simp, h2, h3, h4⟩

/-- Every order of the planned refreshes, run to success, ends with every walked path complete, and
all of them in the same target. -/
def RefreshesSettle (b : Build N) (w : Walk U V) (inventory : Inventory F)
    (resumeCheckpoints : Bool) (s : Store N V) : Prop :=
  (∀ order s', order.Perm (w.tasks b inventory resumeCheckpoints s) →
    refreshAll b inventory order s = some s' → ∀ e ∈ w.entries, Complete b e.2 s') ∧
  ∀ o₁ o₂ s₁ s₂, o₁.Perm (w.tasks b inventory resumeCheckpoints s) →
    o₂.Perm (w.tasks b inventory resumeCheckpoints s) →
    refreshAll b inventory o₁ s = some s₁ → refreshAll b inventory o₂ s = some s₂ → Same s₁ s₂

/-- A run ends with every walked path complete exactly when none of its refreshes hits a settled
path, and runs that hit no other walked path end in the same target. -/
def SettlesWhereSpared (b : Build N) (w : Walk U V) (inventory : Inventory F)
    (resumeCheckpoints : Bool) (s : Store N V) : Prop :=
  (∀ order s', order.Perm (w.tasks b inventory resumeCheckpoints s) →
    refreshAll b inventory order s = some s' →
    ((∀ e ∈ w.entries, Complete b e.2 s') ↔
      SparesSettled b inventory (w.skipped b inventory resumeCheckpoints s) order s)) ∧
  ∀ o₁ o₂ s₁ s₂, o₁.Perm (w.tasks b inventory resumeCheckpoints s) →
    o₂.Perm (w.tasks b inventory resumeCheckpoints s) →
    refreshAll b inventory o₁ s = some s₁ → refreshAll b inventory o₂ s = some s₂ →
    SparesOthers b inventory w o₁ s → SparesOthers b inventory w o₂ s → Same s₁ s₂

end

end

/-! ## Swapped contents -/

/-- Two files whose contents are `B` and `A`. -/
def swappedWalk : Walk asciiTables Unit where
  entries := [("p.pdf".toList, formDoc ['B'] ['2']), ("q.pdf".toList, formDoc ['A'] ['1'])]
  distinct_sha256 := by decide
  distinct_docId := by decide
  hex := by decide

end MainframeRag.Ingest
