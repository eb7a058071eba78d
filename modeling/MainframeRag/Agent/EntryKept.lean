import MainframeRag.Agent.Evidence

/-!
# Trimming and the requested entry

An excerpt that `_select_range` cut records where its first requested entry ends, and a trim that
would cut further drops it (`cut_keeps_entry`). A text that needed no cut is planned with nothing
recorded, so a trim may remove the entry and ship the rest (`entry_kept_iff`).
-/

namespace MainframeRag.Agent

open PyText Ingest.Chunking

section

variable (U : CharTables) (R : PromptReaders) (requested : Option (Text → Bool))

/-- The range holds a requested entry of the excerpt's text. -/
def HoldsEntry (p : PackedExcerpt) (start stop : Nat) : Prop :=
  ∃ a ∈ entryAnchors p.source (hitSpans U p.hit.units p.source) requested,
    start ≤ a.start ∧ a.stop ≤ stop

/-- The excerpt covers a requested entry. -/
def CoversEntry (p : PackedExcerpt) : Prop := HoldsEntry U requested p p.start p.stop

/-- The recorded end is that of an entry in the excerpt. -/
def Guarded (p : PackedExcerpt) : Prop :=
  p.requiredEnd ≤ p.stop ∧ HoldsEntry U requested p p.start p.requiredEnd

theorem HoldsEntry.mono {p : PackedExcerpt} {start stop stop' : Nat}
    (h : HoldsEntry U requested p start stop) (hle : stop ≤ stop') :
    HoldsEntry U requested p start stop' := by
  obtain ⟨a, ha, hstart, hstop⟩ := h
  exact ⟨a, ha, hstart, hstop.trans hle⟩

/-! ## What selection records -/

variable {source : Text} {spans : List UnitSpan} {maxChars : Int}

/-- The range holds an entry that ends where it says. -/
def Records (anchors : List UnitSpan) (r : Range) : Prop :=
  r.requiredEnd ≤ r.stop ∧ ∃ a ∈ anchors, r.start ≤ a.start ∧ a.stop = r.requiredEnd

theorem betterRange_records {anchors : List UnitSpan} {best : Option (Nat × Range)} {a : UnitSpan}
    (hb : ∀ b, best = some b → Records anchors b.2) {b : Nat × Range}
    (h : betterRange U source spans anchors maxChars best a = some b) : Records anchors b.2 := by
  unfold betterRange at h
  split at h
  · exact hb b h
  · split at h
    · exact hb b h
    · next wEnd _ =>
      split at h
      · exact hb b h
      · next first inside hinside =>
        have hfirst : first ∈ anchors ∧ a.start ≤ first.start ∧ first.stop ≤ wEnd := by
          have hmem : first ∈ first :: inside := List.mem_cons_self
          rw [← hinside, List.mem_filter, decide_eq_true_eq] at hmem
          exact hmem
        have hnew : Records anchors ⟨a.start, wEnd, first.stop⟩ :=
          ⟨hfirst.2.2, first, hfirst.1, hfirst.2.1, rfl⟩
        dsimp only at h
        split at h
        · cases h
          exact hnew
        · split at h
          · cases h
            exact hnew
          · cases h
            exact hb b rfl

/-- A selected range that holds entries records where the first of them ends. -/
theorem selectRange_records {r : Range}
    (h : selectRange U source spans maxChars requested = some r) :
    Records (entryAnchors source spans requested) r ∨
      r.requiredEnd = 0 ∧ ∀ a ∈ entryAnchors source spans requested,
        ¬(r.start ≤ a.start ∧ a.stop ≤ r.stop) := by
  have hfold : ∀ (l : List UnitSpan) (best : Option (Nat × Range)),
      (∀ b, best = some b → Records (entryAnchors source spans requested) b.2) →
      ∀ b, l.foldl (betterRange U source spans (entryAnchors source spans requested) maxChars)
        best = some b → Records (entryAnchors source spans requested) b.2 := by
    intro l
    induction l with
    | nil => exact fun best hb => hb
    | cons a l ih => exact fun best hb => ih _ fun b => betterRange_records U hb
  have hprefix : (snapWindow U source spans 0 maxChars).map (fun e => (⟨0, e,
      ((coveredBy (entryAnchors source spans requested)
        (snapWindow U source spans 0 maxChars)).head?.map UnitSpan.stop).getD 0⟩ : Range)) = some r →
      Records (entryAnchors source spans requested) r ∨
        r.requiredEnd = 0 ∧ ∀ a ∈ entryAnchors source spans requested,
          ¬(r.start ≤ a.start ∧ a.stop ≤ r.stop) := by
    intro hr
    obtain ⟨e, he, rfl⟩ := Option.map_eq_some_iff.mp hr
    rw [he]
    cases hc : coveredBy (entryAnchors source spans requested) (some e) with
    | nil =>
      refine .inr ⟨rfl, fun a ha hin => ?_⟩
      have := List.filter_eq_nil_iff.mp hc a ha
      simp only [decide_eq_true_eq] at this
      exact this hin.2
    | cons a rest =>
      have ha : a ∈ coveredBy (entryAnchors source spans requested) (some e) :=
        hc ▸ List.mem_cons_self
      obtain ⟨ha, hstop⟩ := List.mem_filter.mp ha
      exact .inl ⟨of_decide_eq_true hstop, a, ha, Nat.zero_le _, rfl⟩
  unfold selectRange at h
  dsimp only at h
  split at h
  · exact hprefix h
  · split at h
    · exact hprefix h
    · next b hb =>
      split at h
      · cases h
        exact .inl (hfold _ none nofun b hb)
      · exact hprefix h

/-! ## What planning records -/

/-- Something is recorded only for an entry of the excerpt, and for a cut text it is. -/
structure Planned (p : PackedExcerpt) : Prop where
  recorded : p.requiredEnd = 0 ∨ Guarded U requested p
  cut : p.truncated = true → CoversEntry U requested p → Guarded U requested p

theorem packedExcerpt_planned {hit : SearchHit} {r : Range} (i : Nat)
    (h : selectRange U (strip hit.text) (hitSpans U hit.units (strip hit.text)) maxChars requested =
      some r) : Planned U requested (packedExcerpt i hit (strip hit.text) r) := by
  rcases selectRange_records U requested h with ⟨hle, a, ha, hstart, hstop⟩ | ⟨hzero, hnone⟩
  · have hg : Guarded U requested (packedExcerpt i hit (strip hit.text) r) :=
      ⟨hle, a, ha, hstart, hstop.le⟩
    exact ⟨.inr hg, fun _ _ => hg⟩
  · refine ⟨.inl hzero, fun _ hcovers => ?_⟩
    obtain ⟨a, ha, hin⟩ := hcovers
    exact absurd hin (hnone a ha)

theorem wholeExcerpt_planned (hit : SearchHit) (i : Nat) :
    Planned U requested (packedExcerpt i hit (strip hit.text) ⟨0, (strip hit.text).length, 0⟩) := by
  refine ⟨.inl rfl, fun hcut => ?_⟩
  simp [packedExcerpt] at hcut

theorem cappedRange_planned {cap : Option Int} {hit : SearchHit} {r : Range} (i : Nat)
    (h : cappedRange U (hitSpans U hit.units (strip hit.text)) (strip hit.text) requested cap =
      some r) : Planned U requested (packedExcerpt i hit (strip hit.text) r) := by
  cases cap with
  | none =>
    cases h
    exact wholeExcerpt_planned U requested hit i
  | some n => exact packedExcerpt_planned U requested i h

theorem planFrom_planned (q : PromptRequest) (budget : Int) (cap : Nat) (complexity : Complexity)
    (hits : List (SearchHit × Nat)) (total : Nat) {packed : List PackedExcerpt}
    (h : ∀ p ∈ packed, Planned U requested p) :
    ∀ p ∈ planFrom U R q budget cap complexity requested hits total packed,
      Planned U requested p := by
  have hadd : ∀ {packed : List PackedExcerpt} {p : PackedExcerpt},
      (∀ p ∈ packed, Planned U requested p) → Planned U requested p →
        ∀ p' ∈ packed ++ [p], Planned U requested p' := by
    intro packed p hpacked hp p' hp'
    rcases List.mem_append.mp hp' with hp' | hp'
    · exact hpacked p' hp'
    · rw [List.mem_singleton.mp hp']
      exact hp
  induction hits generalizing total packed with
  | nil => exact h
  | cons hit rest ih =>
    obtain ⟨hit, i⟩ := hit
    rw [planFrom]
    dsimp only
    split
    · exact ih total h
    · next r hcap =>
      split
      · split
        · split
          · next r' hsel => exact hadd h (packedExcerpt_planned U requested i hsel)
          · exact h
        · exact h
      · exact ih _ (hadd h (cappedRange_planned U requested i hcap))

/-! ## Rounds -/

/-- Verification rounds, each with what was counted and the limit. -/
def trimRounds (packed : List PackedExcerpt) (rounds : List (Nat × Int)) : List PackedExcerpt :=
  rounds.foldl (fun packed round => verifyTrimLast U packed round.1 round.2) packed

/-- An excerpt that was planned with a requested entry still covers one, or is dropped. -/
def KeepsEntries (planned packed : List PackedExcerpt) : Prop :=
  ∀ p ∈ planned, CoversEntry U requested p →
    ∀ p' ∈ packed, p'.index = p.index → CoversEntry U requested p'

/-- Every state of the rounds keeps the entries. -/
def AlwaysKeeps (planned : List PackedExcerpt) : List PackedExcerpt → List (Nat × Int) → Prop
  | packed, [] => KeepsEntries U requested planned packed
  | packed, round :: rounds => KeepsEntries U requested planned packed ∧
      AlwaysKeeps planned (verifyTrimLast U packed round.1 round.2) rounds

/-- Where the round cuts the excerpt's text. -/
def cutAt (p : PackedExcerpt) (round : Nat × Int) : Option Nat :=
  snapWindow U p.source (hitSpans U p.hit.units p.source) p.start
    (max 0 (((p.stop : Int) - p.start) - (approxChars (round.1 - round.2) + trimOvercutChars)))

/-- The last excerpt was planned without an entry, or records one, or the round cuts its text behind
one or not at all. -/
def RoundSafe (planned packed : List PackedExcerpt) (round : Nat × Int) : Prop :=
  ∀ p ∈ planned, CoversEntry U requested p → ∀ last, packed.getLast? = some last →
    last.index = p.index → last.requiredEnd ≠ 0 ∨
      ∀ e, cutAt U last round = some e → HoldsEntry U requested last last.start e

/-- Every round is safe. -/
def AlwaysSafe (planned : List PackedExcerpt) : List PackedExcerpt → List (Nat × Int) → Prop
  | _, [] => True
  | packed, round :: rounds => RoundSafe U requested planned packed round ∧
      AlwaysSafe planned (verifyTrimLast U packed round.1 round.2) rounds

theorem trimExcerpt_eq {p : PackedExcerpt}
    (h : (p.start ≤ p.stop ∧ p.stop ≤ p.source.length) ∧ p.body = composeBody p.source p.start p.stop)
    (round : Nat × Int) : trimExcerpt U p round.1 round.2 = (cutAt U p round).bind fun e =>
      if e < p.requiredEnd then none
      else some { p with body := composeBody p.source p.start e, truncated := true, stop := e } := by
  unfold trimExcerpt cutAt
  dsimp only
  rw [if_pos ⟨h.1.1, h.1.2, h.2⟩]
  split
  · next hnone => rw [hnone, Option.bind_none]
  · next e hsome => rw [hsome, Option.bind_some]

/-- After a round there are the other excerpts, and the last one cut where the round cuts it. -/
theorem mem_verifyTrimLast {hits : List SearchHit} {k : Nat} {packed : List PackedExcerpt}
    (h : SuppliedList U hits k packed) {round : Nat × Int} {p' : PackedExcerpt} :
    p' ∈ verifyTrimLast U packed round.1 round.2 ↔ p' ∈ packed.dropLast ∨
      ∃ last e, packed.getLast? = some last ∧ cutAt U last round = some e ∧
        last.requiredEnd ≤ e ∧ p' =
          { last with body := composeBody last.source last.start e, truncated := true, stop := e } := by
  unfold verifyTrimLast
  cases hl : packed.getLast? with
  | none =>
    rw [List.getLast?_eq_none_iff.mp hl]
    simp
  | some last =>
    have hs := h.supplied last (List.mem_of_getLast? hl)
    simp only
    rw [trimExcerpt_eq U ⟨hs.range, hs.body⟩, List.mem_append, Option.mem_toList,
      Option.bind_eq_some_iff]
    refine or_congr_right ⟨?_, ?_⟩
    · rintro ⟨e, he, hp'⟩
      split at hp'
      · cases hp'
      · next hlt => exact ⟨last, e, rfl, he, not_lt.mp hlt, (Option.some.inj hp').symm⟩
    · rintro ⟨_, e, hlast, he, hle, rfl⟩
      cases hlast
      exact ⟨e, he, if_neg (not_lt.mpr hle)⟩

theorem SuppliedList.eq_of_index {hits : List SearchHit} {k : Nat} {packed : List PackedExcerpt}
    (h : SuppliedList U hits k packed) {p p' : PackedExcerpt} (hp : p ∈ packed) (hp' : p' ∈ packed)
    (hi : p'.index = p.index) : p' = p := by
  have hn : (packed.map PackedExcerpt.index).Nodup :=
    List.pairwise_map.mpr (h.sorted.imp fun hlt => hlt.ne)
  exact List.inj_on_of_nodup_map hn hp' hp hi

/-- What is recorded is an entry's end. -/
def Marked (p : PackedExcerpt) : Prop :=
  p.requiredEnd = 0 ∨ HoldsEntry U requested p p.start p.requiredEnd

variable {hits : List SearchHit} {n : Nat} {planned packed : List PackedExcerpt}

theorem Marked.trim (hs : SuppliedList U hits n packed) (h : ∀ p ∈ packed, Marked U requested p)
    (round : Nat × Int) : ∀ p ∈ verifyTrimLast U packed round.1 round.2, Marked U requested p := by
  intro p hp
  rcases (mem_verifyTrimLast U hs).mp hp with hp | ⟨last, e, hl, -, -, rfl⟩
  · exact h p (List.dropLast_subset _ hp)
  · exact h last (List.mem_of_getLast? hl)

/-- One round keeps the entries exactly when it is safe. -/
theorem keepsEntries_trim (hs : SuppliedList U hits n packed)
    (hm : ∀ p ∈ packed, Marked U requested p) (hk : KeepsEntries U requested planned packed)
    (round : Nat × Int) :
    KeepsEntries U requested planned (verifyTrimLast U packed round.1 round.2) ↔
      RoundSafe U requested planned packed round := by
  constructor
  · intro h p hp hcovers last hl hi
    refine or_iff_not_imp_left.mpr fun hzero e he => ?_
    have hle : last.requiredEnd ≤ e := by
      rw [not_not.mp hzero]
      exact Nat.zero_le e
    exact h p hp hcovers _ ((mem_verifyTrimLast U hs).mpr (.inr ⟨last, e, hl, he, hle, rfl⟩)) hi
  · intro h p hp hcovers p' hp' hi
    rcases (mem_verifyTrimLast U hs).mp hp' with hp' | ⟨last, e, hl, he, hle, rfl⟩
    · exact hk p hp hcovers p' (List.dropLast_subset _ hp') hi
    · rcases h p hp hcovers last hl hi with hne | hcut
      · have hheld := (hm last (List.mem_of_getLast? hl)).resolve_left hne
        exact hheld.mono U requested hle
      · exact hcut e he

theorem alwaysKeeps_iff (hs : SuppliedList U hits n packed)
    (hm : ∀ p ∈ packed, Marked U requested p) (hk : KeepsEntries U requested planned packed)
    (rounds : List (Nat × Int)) :
    AlwaysKeeps U requested planned packed rounds ↔ AlwaysSafe U requested planned packed rounds := by
  induction rounds generalizing packed with
  | nil => exact iff_of_true hk trivial
  | cons round rounds ih =>
    have hstep := keepsEntries_trim U requested hs hm hk round
    have hs' := verifyTrimLast_supplied U hs round.1 round.2
    have hm' := Marked.trim U requested hs hm round
    have hnext : ∀ {P : Prop}, AlwaysKeeps U requested planned
        (verifyTrimLast U packed round.1 round.2) rounds → (KeepsEntries U requested planned
          (verifyTrimLast U packed round.1 round.2) → P) → P := by
      intro P h hP
      refine hP ?_
      cases rounds with
      | nil => exact h
      | cons => exact h.1
    constructor
    · rintro ⟨-, h⟩
      have hkeeps := hnext h id
      exact ⟨hstep.mp hkeeps, (ih hs' hm' hkeeps).mp h⟩
    · rintro ⟨hsafe, h⟩
      exact ⟨hk, (ih hs' hm' (hstep.mpr hsafe)).mpr h⟩

/-- What becomes of an excerpt in the rounds. -/
def Remains (p : PackedExcerpt) (packed : List PackedExcerpt) : Prop :=
  ∀ p' ∈ packed, p'.index = p.index → p'.hit = p.hit ∧ p'.start = p.start ∧
    p'.requiredEnd = p.requiredEnd ∧ p.requiredEnd ≤ p'.stop

theorem Remains.trimRounds {p : PackedExcerpt} (hs : SuppliedList U hits n packed)
    (h : Remains p packed) (rounds : List (Nat × Int)) :
    Remains p (trimRounds U packed rounds) := by
  induction rounds generalizing packed with
  | nil => exact h
  | cons round rounds ih =>
    refine ih (verifyTrimLast_supplied U hs round.1 round.2) fun p' hp' hi => ?_
    rcases (mem_verifyTrimLast U hs).mp hp' with hp' | ⟨last, e, hl, -, hle, rfl⟩
    · exact h p' (List.dropLast_subset _ hp') hi
    · obtain ⟨hhit, hstart, hend, -⟩ := h last (List.mem_of_getLast? hl) hi
      exact ⟨hhit, hstart, hend, hend ▸ hle⟩

/-- An excerpt that records an entry covers it until it is dropped. -/
theorem guarded_kept (hs : SuppliedList U hits n planned) {p : PackedExcerpt} (hp : p ∈ planned)
    (hg : Guarded U requested p) (rounds : List (Nat × Int)) :
    ∀ p' ∈ trimRounds U planned rounds, p'.index = p.index → CoversEntry U requested p' := by
  have hstart : Remains p planned := by
    intro p' hp' hi
    rw [hs.eq_of_index U hp hp' hi]
    exact ⟨rfl, rfl, rfl, hg.1⟩
  intro p' hp' hi
  obtain ⟨hhit, hs', -, hle⟩ := hstart.trimRounds U hs rounds p' hp' hi
  obtain ⟨a, ha, hin, hstop⟩ := hg.2
  refine ⟨a, ?_, hs' ▸ hin, hstop.trans hle⟩
  unfold PackedExcerpt.source at ha ⊢
  rw [hhit]
  exact ha

/-- The entries are kept in every state of the rounds exactly when each round is safe; and an excerpt
that was cut when it was planned keeps its entry whatever the rounds. -/
theorem entry_kept_iff (q : PromptRequest) (budget : Int) (cap : Nat) (complexity : Complexity)
    (rounds : List (Nat × Int)) :
    (AlwaysKeeps U (R.requested q.query) (planPackedExcerpts U R q budget cap complexity)
        (planPackedExcerpts U R q budget cap complexity) rounds ↔
      AlwaysSafe U (R.requested q.query) (planPackedExcerpts U R q budget cap complexity)
        (planPackedExcerpts U R q budget cap complexity) rounds) ∧
    ∀ p ∈ planPackedExcerpts U R q budget cap complexity, p.truncated = true →
      CoversEntry U (R.requested q.query) p →
      ∀ p' ∈ trimRounds U (planPackedExcerpts U R q budget cap complexity) rounds,
        p'.index = p.index → CoversEntry U (R.requested q.query) p' := by
  have hs := planPackedExcerpts_supplied U R q budget cap complexity
  have hplanned : ∀ p ∈ planPackedExcerpts U R q budget cap complexity,
      Planned U (R.requested q.query) p :=
    planFrom_planned U R (R.requested q.query) q budget cap complexity (q.hits.zipIdx 1) 0 nofun
  refine ⟨alwaysKeeps_iff U (R.requested q.query) hs ?_ ?_ rounds, fun p hp hcut hcovers => ?_⟩
  · exact fun p hp => (hplanned p hp).recorded.imp_right And.right
  · intro p hp hcovers p' hp' hi
    rwa [hs.eq_of_index U hp hp' hi]
  · exact guarded_kept U (R.requested q.query) hs hp ((hplanned p hp).cut hcut hcovers) rounds

end

/-! ## An entry behind other text -/

/-- One line opens with `IEA1`. -/
def iea1Readers : PromptReaders where
  estimate := List.length
  classify _ := .simple
  requested _ := some fun line => "IEA1".toList.isPrefixOf line
  resolvedCodeNote _ := []

/-- A short message chunk: ten characters of another entry, then the requested one. -/
def iea1Request : PromptRequest where
  query := "IEA1".toList
  hits := [{
    chunkId := "c".toList, cite := "D p.1".toList, docId := "D".toList, chunkType := "message".toList
    text := List.replicate 10 'x' ++ '\n' :: "IEA1".toList ++ List.replicate 76 'y'
    units := some [(0, 10, "atomic".toList), (11, 91, "atomic".toList)] }]

/-- The excerpt is the whole chunk. One token too many, and the requested entry is cut away; the other
one is shipped. -/
theorem entry_removed :
    ¬AlwaysKeeps asciiTables (iea1Readers.requested "IEA1".toList)
      (planPackedExcerpts asciiTables iea1Readers iea1Request 8000 400 .simple)
      (planPackedExcerpts asciiTables iea1Readers iea1Request 8000 400 .simple) [(1001, 1000)] := by
  rintro ⟨-, h⟩
  have hcovers : ∀ p ∈ planPackedExcerpts asciiTables iea1Readers iea1Request 8000 400 .simple,
      p.index = 1 ∧ ∃ a ∈ entryAnchors p.source (hitSpans asciiTables p.hit.units p.source)
        (iea1Readers.requested "IEA1".toList), p.start ≤ a.start ∧ a.stop ≤ p.stop := by
    decide +kernel
  have hlost : ∃ p ∈ planPackedExcerpts asciiTables iea1Readers iea1Request 8000 400 .simple,
      ∃ p' ∈ verifyTrimLast asciiTables
        (planPackedExcerpts asciiTables iea1Readers iea1Request 8000 400 .simple) 1001 1000,
      p'.index = p.index ∧
        ∀ a ∈ entryAnchors p'.source (hitSpans asciiTables p'.hit.units p'.source)
          (iea1Readers.requested "IEA1".toList), ¬(p'.start ≤ a.start ∧ a.stop ≤ p'.stop) := by
    decide +kernel
  obtain ⟨p, hp, p', hp', hi, hnone⟩ := hlost
  obtain ⟨a, ha, hin⟩ := h p hp (hcovers p hp).2 p' hp' hi
  exact hnone a ha hin

end MainframeRag.Agent
