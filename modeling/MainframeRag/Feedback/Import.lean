import MainframeRag.Feedback.Restore
import MainframeRag.Lib.Register

/-!
# Importing into the feedback store

What an import makes of each row of a file (`AnswerTurn`, `RatingTurn`) and of the whole store
(`Imported`): answers are written once, a rating is written over an older one, and rows that are there
change nothing. As `==` sees it, a rating is a newest-wins register.
-/

namespace MainframeRag.Feedback

open PyText Fallible Hex

variable {F : Type}

/-! ## Verdicts -/

/-- What an import counts a row as. -/
inductive Verdict
  | inserted
  | duplicate
  | superseded
  | conflict
  deriving DecidableEq

def Counts.of (c : Counts) : Verdict → Nat
  | .inserted => c.inserted
  | .duplicate => c.duplicate
  | .superseded => c.superseded
  | .conflict => c.conflict

variable (N : Numerics F)

/-- An answer of a file, by what is stored under its id before and after. -/
inductive AnswerTurn (a : AnswerRow F) :
    Option (AnswerColumns F) → Option (AnswerColumns F) → Verdict → Prop
  | inserted {created : F} (hreal : N.real a.createdAt = some created) :
    AnswerTurn a none (some (answerColumns N a.toAnswerFields created)) .inserted
  | duplicate {c : AnswerColumns F} {row : AnswerRow F} (hrow : answerRow N c = some row)
    (heq : answerEq N row a = true) : AnswerTurn a (some c) (some c) .duplicate
  | conflict {c : AnswerColumns F} {row : AnswerRow F} (hrow : answerRow N c = some row)
    (hne : answerEq N row a = false) : AnswerTurn a (some c) (some c) .conflict

/-- A rating of a file; `skip` where its answer is in conflict. -/
inductive RatingTurn (r : RatingRow F) (skip : Prop) :
    Option (RatingColumns F) → Option (RatingColumns F) → Verdict → Prop
  | skipped {o : Option (RatingColumns F)} (hskip : skip) : RatingTurn r skip o o .conflict
  | inserted {rowid : Nat} {created : F} (hreal : N.real r.createdAt = some created) :
    RatingTurn r skip none (some (ratingColumns N rowid r.toRatingFields created)) .inserted
  | replaced {c : RatingColumns F} {row : RatingRow F} {created : F}
    (hrow : ratingRow N c = some row) (hlt : floatLt N row.createdAt r.createdAt = true)
    (hreal : N.real r.createdAt = some created) :
    RatingTurn r skip (some c) (some (ratingColumns N c.id r.toRatingFields created)) .inserted
  | duplicate {c : RatingColumns F} {row : RatingRow F} (hrow : ratingRow N c = some row)
    (heq : ratingEq N row r = true) : RatingTurn r skip (some c) (some c) .duplicate
  | superseded {c : RatingColumns F} {row : RatingRow F} (hrow : ratingRow N c = some row)
    (hlt : floatLt N r.createdAt row.createdAt = true) :
    RatingTurn r skip (some c) (some c) .superseded
  | conflict {c : RatingColumns F} {row : RatingRow F} (hrow : ratingRow N c = some row)
    (hne : ratingEq N row r = false) (hlt : floatLt N row.createdAt r.createdAt = false)
    (hgt : floatLt N r.createdAt row.createdAt = false) : RatingTurn r skip (some c) (some c) .conflict

variable {N}

/-! ## One turn -/

/-- What the store holds for an id, and whether the id is skipped. -/
def Progress.answerSlot (p : Progress F) (requestId : Text) : Option (AnswerColumns F) × Bool :=
  (p.store.answers.find requestId, decide (requestId ∈ p.skipped))

theorem importAnswer_turn {cutoff : F} {p p' : Progress F} {a : AnswerRow F}
    (h : importAnswer N cutoff p a = .ok p') : p'.store.ratings = p.store.ratings ∧
      (∀ k, k ≠ a.requestId → p'.answerSlot k = p.answerSlot k) ∧
      ∃ v, (AnswerTurn N a (p.answerSlot a.requestId).1 (p'.answerSlot a.requestId).1 v ∧
          (p'.answerSlot a.requestId).2 =
            ((p.answerSlot a.requestId).2 || decide (v = .conflict))) ∧
        ∀ w, p'.counts.of w = p.counts.of w + if v = w then 1 else 0 := by
  unfold importAnswer at h
  split at h
  · next hfind =>
    simp only [bind_ok, ensure_ok, orRaise_ok, pure_ok] at h
    obtain ⟨-, -, created, hreal, rfl⟩ := h
    refine ⟨rfl, fun k hk => ?_, .inserted, ⟨?_, by simp [Progress.answerSlot]⟩, fun w => ?_⟩
    · simp only [Progress.answerSlot, Store.writeAnswer, Keyed.find_upsert]
      rw [if_neg (by exact fun e => hk e.symm)]
    · simp only [Progress.answerSlot, Store.writeAnswer, Keyed.find_upsert, hfind]
      rw [if_pos (by rfl)]
      exact .inserted hreal
    · cases w <;> rfl
  · next c hfind =>
    simp only [bind_ok, orRaise_ok] at h
    obtain ⟨row, hrow, h⟩ := h
    split at h
    · next heq =>
      cases h
      refine ⟨rfl, fun k _ => rfl, .duplicate, ⟨?_, by simp [Progress.answerSlot]⟩, fun w => ?_⟩
      · simp only [Progress.answerSlot, hfind]
        exact .duplicate hrow heq
      · cases w <;> rfl
    · next hne =>
      cases h
      refine ⟨rfl, fun k hk => ?_, .conflict, ⟨?_, by simp [Progress.answerSlot]⟩, fun w => ?_⟩
      · simp [Progress.answerSlot, hk]
      · simp only [Progress.answerSlot, hfind]
        exact .conflict hrow (Bool.not_eq_true _ ▸ hne)
      · cases w <;> rfl

theorem putRating_find {s s' : Store F} {fields : RatingFields} {created : F}
    (h : putRating N s fields created = .ok s') : s'.answers = s.answers ∧
      (∀ k, k ≠ fields.requestId → s'.ratings.find k = s.ratings.find k) ∧
      s'.ratings.find fields.requestId = some (ratingColumns N
        (((s.ratings.find fields.requestId).map RatingColumns.id).getD s.nextId) fields created) := by
  obtain ⟨-, hanswers, hratings⟩ := writeRating_ok h
  refine ⟨hanswers, fun k hk => ?_, ?_⟩
  · rw [hratings, Keyed.find_upsert, if_neg (by exact fun e => hk e.symm)]
  · rw [hratings, Keyed.find_upsert, if_pos (by rfl)]

theorem importRating_turn {p p' : Progress F} {r : RatingRow F} (h : importRating N p r = .ok p') :
    p'.store.answers = p.store.answers ∧ p'.skipped = p.skipped ∧
      (∀ k, k ≠ r.requestId → p'.store.ratings.find k = p.store.ratings.find k) ∧
      ∃ v, (RatingTurn N r (r.requestId ∈ p.skipped) (p.store.ratings.find r.requestId)
          (p'.store.ratings.find r.requestId) v ∧
          (r.requestId ∈ p.skipped ∨ (p.store.answers.find r.requestId).isSome = true)) ∧
        ∀ w, p'.counts.of w = p.counts.of w + if v = w then 1 else 0 := by
  unfold importRating at h
  split at h
  · next hskip =>
    cases h
    exact ⟨rfl, rfl, fun _ _ => rfl, .conflict, ⟨.skipped hskip, .inl hskip⟩, fun w => by
      cases w <;> rfl⟩
  · simp only [bind_ok, ensure_ok] at h
    obtain ⟨-, hknown, h⟩ := h
    split at h
    · next hfind =>
      simp only [bind_ok, orRaise_ok, pure_ok] at h
      obtain ⟨created, hreal, store, hput, rfl⟩ := h
      obtain ⟨hanswers, hother, hown⟩ := putRating_find hput
      refine ⟨hanswers, rfl, hother, .inserted, ⟨?_, .inr hknown⟩, fun w => by cases w <;> rfl⟩
      rw [hfind]
      show RatingTurn N r _ none (store.ratings.find r.requestId) .inserted
      rw [hown]
      exact .inserted hreal
    · next c hfind =>
      simp only [bind_ok, orRaise_ok] at h
      obtain ⟨row, hrow, h⟩ := h
      have hstays : ∀ v, RatingTurn N r (r.requestId ∈ p.skipped) (some c) (some c) v →
          RatingTurn N r (r.requestId ∈ p.skipped) (p.store.ratings.find r.requestId)
            (p.store.ratings.find r.requestId) v := by
        rw [hfind]
        exact fun _ => id
      split at h
      · next heq =>
        cases h
        exact ⟨rfl, rfl, fun _ _ => rfl, .duplicate, ⟨hstays _ (.duplicate hrow heq), .inr hknown⟩,
          fun w => by cases w <;> rfl⟩
      · next hne =>
        split at h
        · next hlt =>
          simp only [bind_ok, orRaise_ok, pure_ok] at h
          obtain ⟨created, hreal, store, hput, rfl⟩ := h
          obtain ⟨hanswers, hother, hown⟩ := putRating_find hput
          refine ⟨hanswers, rfl, hother, .inserted, ⟨?_, .inr hknown⟩, fun w => by cases w <;> rfl⟩
          show RatingTurn N r _ (p.store.ratings.find r.requestId)
            (store.ratings.find r.requestId) .inserted
          rw [hown, hfind]
          exact .replaced hrow hlt hreal
        · next hlt =>
          split at h
          · next hgt =>
            cases h
            exact ⟨rfl, rfl, fun _ _ => rfl, .superseded,
              ⟨hstays _ (.superseded hrow hgt), .inr hknown⟩, fun w => by cases w <;> rfl⟩
          · next hgt =>
            cases h
            exact ⟨rfl, rfl, fun _ _ => rfl, .conflict,
              ⟨hstays _ (.conflict hrow (Bool.not_eq_true _ ▸ hne) (Bool.not_eq_true _ ▸ hlt)
                (Bool.not_eq_true _ ▸ hgt)), .inr hknown⟩, fun w => by cases w <;> rfl⟩

/-! ## The whole import -/

theorem AnswerTurn.unique {a : AnswerRow F} {x y y' : Option (AnswerColumns F)} {v v' : Verdict}
    (h : AnswerTurn N a x y v) (h' : AnswerTurn N a x y' v') : y = y' ∧ v = v' := by
  cases h with
  | inserted hreal =>
    cases h' with
    | inserted hreal' =>
      obtain rfl := Option.some.inj (hreal.symm.trans hreal')
      exact ⟨rfl, rfl⟩
  | duplicate hrow heq =>
    cases h' with
    | duplicate => exact ⟨rfl, rfl⟩
    | conflict hrow' hne =>
      obtain rfl := Option.some.inj (hrow.symm.trans hrow')
      rw [heq] at hne
      cases hne
  | conflict hrow hne =>
    cases h' with
    | duplicate hrow' heq =>
      obtain rfl := Option.some.inj (hrow.symm.trans hrow')
      rw [hne] at heq
      cases heq
    | conflict => exact ⟨rfl, rfl⟩

theorem AnswerTurn.unchanged {a : AnswerRow F} {x y : Option (AnswerColumns F)}
    (h : AnswerTurn N a x y .conflict) : y = x := by
  cases h; rfl

variable (N)

/-- An answer of the file differs from the stored one. -/
def Clashing (s : Store F) (answers : List (AnswerRow F)) (requestId : Text) : Prop :=
  ∃ a ∈ answers, a.requestId = requestId ∧
    AnswerTurn N a (s.answers.find requestId) (s.answers.find requestId) .conflict

/-- What an import that returned did, row by row. -/
structure Imported (keepExisting : Bool) (batch : Batch F) (s s' : Store F) (counts : Counts)
    (answerVerdicts ratingVerdicts : List Verdict) : Prop where
  answers : List.Forall₂ (fun a v =>
    AnswerTurn N a (s.answers.find a.requestId) (s'.answers.find a.requestId) v)
    batch.answers answerVerdicts
  ratings : List.Forall₂ (fun r v => RatingTurn N r (Clashing N s batch.answers r.requestId)
    (s.ratings.find r.requestId) (s'.ratings.find r.requestId) v) batch.ratings ratingVerdicts
  known : ∀ r ∈ batch.ratings,
    Clashing N s batch.answers r.requestId ∨ (s'.answers.find r.requestId).isSome = true
  otherAnswers : ∀ k, k ∉ batch.answers.map (fun a => a.requestId) →
    s'.answers.find k = s.answers.find k
  otherRatings : ∀ k, k ∉ batch.ratings.map (fun r => r.requestId) →
    s'.ratings.find k = s.ratings.find k
  counted : ∀ w, counts.of w = answerVerdicts.count w + ratingVerdicts.count w
  conflicts : keepExisting = true ∨ counts.conflict = 0

variable {N}

theorem importAnswers_slots {cutoff : F} {answers : List (AnswerRow F)} {s : Store F}
    {q : Progress F} (hd : (answers.map fun a => a.requestId).Nodup)
    (h : answers.foldlM (importAnswer N cutoff) { store := s } = .ok q) :
    q.store.ratings = s.ratings ∧
      (∀ k, k ∉ answers.map (fun a => a.requestId) → q.store.answers.find k = s.answers.find k) ∧
      (∀ k, k ∈ q.skipped ↔ Clashing N s answers k) ∧
      ∃ vs, List.Forall₂ (fun a v =>
          AnswerTurn N a (s.answers.find a.requestId) (q.store.answers.find a.requestId) v)
          answers vs ∧ ∀ w, q.counts.of w = vs.count w := by
  obtain ⟨hratings, hother, vs, hturns, hcounts⟩ := foldlM_slots (S := Progress.answerSlot)
    (P := fun p => p.store.ratings = s.ratings) (T := fun p => p.counts.of)
    (R := fun a x y v => AnswerTurn N a x.1 y.1 v ∧ y.2 = (x.2 || decide (v = .conflict)))
    (fun p p' a _ hp h => (importAnswer_turn h).imp (fun e => e.trans hp) id) hd rfl h
  refine ⟨hratings, fun k hk => congrArg Prod.fst (hother k hk), fun k => ⟨fun hk => ?_, ?_⟩, vs,
    hturns.imp fun _ _ h => h.1, fun w => ?_⟩
  · by_cases hmem : k ∈ answers.map fun a => a.requestId
    · obtain ⟨a, ha, rfl⟩ := List.mem_map.mp hmem
      obtain ⟨v, -, hturn, hskip⟩ := forall₂_left hturns ha
      have hv : v = .conflict := by simpa [Progress.answerSlot, hk] using hskip
      subst hv
      have hsame := hturn.unchanged
      rw [hsame] at hturn
      exact ⟨a, ha, rfl, hturn⟩
    · have := congrArg Prod.snd (hother k hmem)
      simp [Progress.answerSlot, hk] at this
  · rintro ⟨a, ha, rfl, hclash⟩
    obtain ⟨v, -, hturn, hskip⟩ := forall₂_left hturns ha
    have hv := (hturn.unique hclash).2
    simpa [Progress.answerSlot, hv] using hskip
  · rw [hcounts]
    cases w <;> simp [Counts.of]

theorem importRatings_slots {ratings : List (RatingRow F)} {p q : Progress F}
    (hd : (ratings.map fun r => r.requestId).Nodup)
    (h : ratings.foldlM (importRating N) p = .ok q) : q.store.answers = p.store.answers ∧
      (∀ k, k ∉ ratings.map (fun r => r.requestId) →
        q.store.ratings.find k = p.store.ratings.find k) ∧
      ∃ vs, List.Forall₂ (fun r v => RatingTurn N r (r.requestId ∈ p.skipped)
          (p.store.ratings.find r.requestId) (q.store.ratings.find r.requestId) v ∧
          (r.requestId ∈ p.skipped ∨ (p.store.answers.find r.requestId).isSome = true))
          ratings vs ∧ ∀ w, q.counts.of w = p.counts.of w + vs.count w := by
  obtain ⟨hsame, hother, vs, hturns, hcounts⟩ := foldlM_slots
    (S := fun t k => t.store.ratings.find k) (T := fun t => t.counts.of)
    (P := fun t => t.store.answers = p.store.answers ∧ t.skipped = p.skipped)
    (R := fun r x y v => RatingTurn N r (r.requestId ∈ p.skipped) x y v ∧
      (r.requestId ∈ p.skipped ∨ (p.store.answers.find r.requestId).isSome = true))
    (fun t t' r _ ht h => by
      obtain ⟨hanswers, hskipped, hother, v, hturn, htally⟩ := importRating_turn h
      rw [ht.1, ht.2] at hturn
      exact ⟨⟨hanswers.trans ht.1, hskipped.trans ht.2⟩, hother, v, hturn, htally⟩)
    hd ⟨rfl, rfl⟩ h
  exact ⟨hsame.1, hother, vs, hturns, hcounts⟩

theorem importBody_imported {keepExisting : Bool} {cutoff : F} {batch : Batch F} {s s' : Store F}
    {counts : Counts} (hb : batch.Accepted N)
    (h : importBody N keepExisting cutoff batch s = .ok (counts, s')) :
    ∃ va vr, Imported N keepExisting batch s s' counts va vr := by
  obtain ⟨p, q, hp, hq, hconflict, rfl, rfl⟩ := importBody_ok h
  obtain ⟨hratings, hothers, hskipped, va, hva, hca⟩ := importAnswers_slots hb.answerIds hp
  obtain ⟨hanswers, hothers', vr, hvr, hcr⟩ := importRatings_slots hb.ratingIds hq
  simp only [hskipped, hratings] at hvr
  refine ⟨va, vr, ?_, hvr.imp fun _ _ h => h.1, ?_, ?_, ?_, ?_, hconflict⟩
  · rwa [hanswers]
  · intro r hr
    obtain ⟨v, -, -, hknown⟩ := forall₂_left hvr hr
    rwa [hanswers]
  · rwa [hanswers]
  · rwa [hratings] at hothers'
  · intro w
    rw [hcr, hca]

/-! ## Rows that are kept -/

theorem AnswerTurn.keeps {a : AnswerRow F} {c : AnswerColumns F} {y : Option (AnswerColumns F)}
    {v : Verdict} (h : AnswerTurn N a (some c) y v) : y = some c := by
  cases h <;> rfl

theorem floatLt_irrefl (x : F) : floatLt N x x = false := by
  unfold floatLt
  cases N.value x with
  | none => rfl
  | some v => exact decide_eq_false (lt_irrefl v)

theorem floatLt_iff {x y : F} : floatLt N x y = true ↔
    ∃ v w, N.value x = some v ∧ N.value y = some w ∧ v < w := by
  unfold floatLt
  cases N.value x with
  | none => simp
  | some v =>
    cases N.value y with
    | none => simp
    | some w => simp

theorem RatingTurn.keeps {r : RatingRow F} {skip : Prop} {c : RatingColumns F}
    {y : Option (RatingColumns F)} {v : Verdict} (h : RatingTurn N r skip (some c) y v) :
    ∃ c', y = some c' ∧ c'.id = c.id ∧ floatLt N c'.createdAt c.createdAt = false := by
  cases h with
  | replaced hrow hlt hreal =>
    refine ⟨_, rfl, rfl, ?_⟩
    rw [← ratingRow_createdAt hrow]
    obtain ⟨v, w, hv, hw, hvw⟩ := floatLt_iff.mp hlt
    rw [Bool.eq_false_iff]
    intro hback
    obtain ⟨w', v', hw', hv', hwv⟩ := floatLt_iff.mp hback
    have hvalue : w' = w := by
      have := (N.real_value _ _ hreal).2.1
      exact Option.some.inj (hw'.symm.trans (this.trans hw))
    rw [hv] at hv'
    cases hv'
    exact absurd (hvalue ▸ hwv) (not_lt.mpr hvw.le)
  | _ => exact ⟨c, rfl, rfl, floatLt_irrefl _⟩

section

variable {keepExisting : Bool} {batch : Batch F} {s s' : Store F} {counts : Counts}
  {va vr : List Verdict}

theorem Imported.answers_stay (h : Imported N keepExisting batch s s' counts va vr) :
    ∀ c ∈ s.answers, c ∈ s'.answers := by
  intro c hc
  have hfind := Keyed.find_eq_some.mpr ⟨hc, rfl⟩
  have hafter : s'.answers.find c.requestId = some c := by
    by_cases hmem : c.requestId ∈ batch.answers.map fun a => a.requestId
    · obtain ⟨a, ha, hid⟩ := List.mem_map.mp hmem
      obtain ⟨v, -, hturn⟩ := forall₂_left h.answers ha
      rw [hid, hfind] at hturn
      exact hturn.keeps
    · rw [h.otherAnswers _ hmem, hfind]
  exact (Keyed.find_eq_some.mp hafter).1

theorem Imported.ratings_grow (h : Imported N keepExisting batch s s' counts va vr) :
    ∀ c ∈ s.ratings, ∃ c' ∈ s'.ratings, c'.requestId = c.requestId ∧ c'.id = c.id ∧
      floatLt N c'.createdAt c.createdAt = false := by
  intro c hc
  have hfind := Keyed.find_eq_some.mpr ⟨hc, rfl⟩
  have hafter : ∃ c', s'.ratings.find c.requestId = some c' ∧ c'.id = c.id ∧
      floatLt N c'.createdAt c.createdAt = false := by
    by_cases hmem : c.requestId ∈ batch.ratings.map fun r => r.requestId
    · obtain ⟨r, hr, hid⟩ := List.mem_map.mp hmem
      obtain ⟨v, -, hturn⟩ := forall₂_left h.ratings hr
      rw [hid, hfind] at hturn
      exact hturn.keeps
    · exact ⟨c, (h.otherRatings _ hmem).trans hfind, rfl, floatLt_irrefl _⟩
  obtain ⟨c', hc', hrowid, hlt⟩ := hafter
  obtain ⟨hmem, hid⟩ := Keyed.find_eq_some.mp hc'
  exact ⟨c', hmem, hid, hrowid, hlt⟩

theorem Imported.no_conflict (h : Imported N keepExisting batch s s' counts va vr)
    (hconflict : counts.conflict = 0) : .conflict ∉ va ∧ .conflict ∉ vr := by
  have hcount := h.counted .conflict
  rw [show counts.of .conflict = 0 from hconflict] at hcount
  exact ⟨List.count_eq_zero.mp (by omega), List.count_eq_zero.mp (by omega)⟩

theorem Imported.keeps_conflicts (h : Imported N keepExisting batch s s' counts va vr)
    (hmem : .conflict ∈ va ∨ .conflict ∈ vr) : keepExisting = true := by
  rcases h.conflicts with hkeep | hnone
  · exact hkeep
  · rcases hmem with hmem | hmem
    · exact absurd hmem (h.no_conflict hnone).1
    · exact absurd hmem (h.no_conflict hnone).2

end

/-! ## Importing again -/

/-- A stored answer reads as a row equal to what was written. -/
theorem stored_answer_view {a : AnswerRow F} {created : F}
    (hreal : N.real a.createdAt = some created) :
    (⟨a.toAnswerFields.sorted, created⟩ : AnswerRow F).view N = a.view N := by
  simp only [AnswerRow.view, AnswerFields.sorted, sortTelemetry_sorted,
    (N.real_value _ _ hreal).2.1]

theorem finite_value {x : F} (h : finite N x = true) : ∃ v, N.value x = some v := by
  unfold finite at h
  split at h
  · next v hv => exact ⟨v, hv⟩
  · cases h

theorem accepted_comparable {a : AnswerRow F} (htime : finite N a.createdAt = true)
    (hbounded : a.telemetry.all (fun x => x.2.bounded N) = true) :
    (a.view N).comparable = true := by
  obtain ⟨v, hv⟩ := finite_value htime
  rw [AnswerView.comparable, Bool.and_eq_true, AnswerRow.view]
  refine ⟨by rw [hv]; rfl, List.all_eq_true.mpr fun x hx => ?_⟩
  obtain ⟨y, hy, rfl⟩ := List.mem_map.mp hx
  have hb := List.all_eq_true.mp hbounded y ((sortTelemetry_perm _).mem_iff.mp hy)
  rw [decide_eq_true_eq]
  show y.2.view N ≠ .nan
  cases hy2 : y.2 with
  | float x =>
    rw [hy2] at hb
    obtain ⟨w, hw⟩ := finite_value (N := N) hb
    simp [Scalar.view, hw]
  | _ => simp [Scalar.view]

theorem answerEq_stored {a : AnswerRow F} {created : F} (hreal : N.real a.createdAt = some created)
    (htime : finite N a.createdAt = true)
    (hbounded : a.telemetry.all (fun x => x.2.bounded N) = true) :
    answerEq N ⟨a.toAnswerFields.sorted, created⟩ a = true := by
  rw [answerEq, stored_answer_view hreal, Bool.and_eq_true]
  exact ⟨decide_eq_true rfl, accepted_comparable htime hbounded⟩

theorem stored_rating_view {r : RatingRow F} {created : F}
    (hreal : N.real r.createdAt = some created) :
    (⟨r.toRatingFields, created⟩ : RatingRow F).view N = r.view N := by
  simp only [RatingRow.view, (N.real_value _ _ hreal).2.1]

theorem ratingEq_stored {r : RatingRow F} {created : F} (hreal : N.real r.createdAt = some created) :
    ratingEq N ⟨r.toRatingFields, created⟩ r = true := by
  obtain ⟨hsome, hvalue, -⟩ := N.real_value _ _ hreal
  rw [ratingEq, stored_rating_view hreal, Bool.and_eq_true]
  refine ⟨decide_eq_true rfl, ?_⟩
  rwa [RatingRow.view, ← hvalue]

/-- The turn of an answer that was imported before. -/
theorem AnswerTurn.again {a : AnswerRow F} {x y : Option (AnswerColumns F)} {v : Verdict}
    (h : AnswerTurn N a x y v) (htime : finite N a.createdAt = true)
    (hbounded : a.telemetry.all (fun x => x.2.bounded N) = true) :
    AnswerTurn N a y y (if v = .conflict then .conflict else .duplicate) := by
  cases h with
  | inserted hreal => exact .duplicate (answerRow_columns N _ _) (answerEq_stored hreal htime hbounded)
  | duplicate hrow heq => exact .duplicate hrow heq
  | conflict hrow hne => exact .conflict hrow hne

/-- A turn that leaves the store as it is. -/
def Quiet (keepExisting : Bool) (p p' : Progress F) : Prop :=
  p'.store = p.store ∧ p'.counts.inserted = p.counts.inserted ∧
    (keepExisting = true ∨ p'.counts.conflict = p.counts.conflict)

theorem importAnswer_quiet {keepExisting : Bool} {cutoff : F} {p : Progress F} {a : AnswerRow F}
    {v : Verdict} (h : AnswerTurn N a (p.store.answers.find a.requestId)
      (p.store.answers.find a.requestId) v) (hv : v = .conflict → keepExisting = true) :
    ∃ p', importAnswer N cutoff p a = .ok p' ∧ Quiet keepExisting p p' := by
  generalize hfind : p.store.answers.find a.requestId = o at h
  unfold importAnswer
  rw [hfind]
  cases o with
  | none => cases h
  | some c =>
    cases h with
    | duplicate hrow heq =>
      simp only [hrow, orRaise_some, ok_bind, heq, if_true]
      exact ⟨_, rfl, rfl, rfl, .inr rfl⟩
    | conflict hrow hne =>
      simp only [hrow, orRaise_some, ok_bind, hne, Bool.false_eq_true, if_false]
      exact ⟨_, rfl, rfl, rfl, .inl (hv rfl)⟩

theorem importRating_quiet {keepExisting : Bool} {p : Progress F} {r : RatingRow F}
    {c : RatingColumns F} {row : RatingRow F} (hskip : r.requestId ∉ p.skipped)
    (hknown : (p.store.answers.find r.requestId).isSome = true)
    (hfind : p.store.ratings.find r.requestId = some c) (hrow : ratingRow N c = some row)
    (hlt : floatLt N row.createdAt r.createdAt = false)
    (hkeep : ratingEq N row r = true ∨ floatLt N r.createdAt row.createdAt = true ∨
      keepExisting = true) :
    ∃ p', importRating N p r = .ok p' ∧ Quiet keepExisting p p' ∧ p'.skipped = p.skipped := by
  unfold importRating
  rw [if_neg hskip, ensure_true _ hknown, ok_bind, hfind]
  simp only [hrow, orRaise_some, ok_bind, hlt, Bool.false_eq_true, if_false]
  split
  · exact ⟨_, rfl, ⟨rfl, rfl, .inr rfl⟩, rfl⟩
  · next hne =>
    split
    · exact ⟨_, rfl, ⟨rfl, rfl, .inr rfl⟩, rfl⟩
    · next hgt =>
      rcases hkeep with heq | hgt' | hkeep
      · exact absurd heq hne
      · exact absurd hgt' hgt
      · exact ⟨_, rfl, ⟨rfl, rfl, .inl hkeep⟩, rfl⟩

theorem importRating_skipped {p : Progress F} {r : RatingRow F} (hskip : r.requestId ∈ p.skipped) :
    ∃ p', importRating N p r = .ok p' ∧ Quiet true p p' ∧ p'.skipped = p.skipped :=
  ⟨_, if_pos hskip, ⟨rfl, rfl, .inl rfl⟩, rfl⟩

theorem floatLt_asymm {x y : F} (h : floatLt N x y = true) : floatLt N y x = false := by
  obtain ⟨v, w, hv, hw, hlt⟩ := floatLt_iff.mp h
  unfold floatLt
  rw [hv, hw]
  exact decide_eq_false (not_lt.mpr hlt.le)

theorem ratingEq_times {a b : RatingRow F} (h : ratingEq N a b = true) :
    N.value a.createdAt = N.value b.createdAt := by
  rw [ratingEq, Bool.and_eq_true, decide_eq_true_eq] at h
  exact congrArg RatingView.createdAt h.1

theorem ratingEq_not_lt {a b : RatingRow F} (h : ratingEq N a b = true) :
    floatLt N a.createdAt b.createdAt = false := by
  unfold floatLt
  rw [ratingEq_times h]
  exact floatLt_irrefl b.createdAt

/-- The row of a rating that was imported before, or one that is no older. -/
theorem RatingTurn.again {r : RatingRow F} {skip : Prop} {x y : Option (RatingColumns F)}
    {v : Verdict} (h : RatingTurn N r skip x y v) (hskip : ¬ skip) :
    ∃ c row, y = some c ∧ ratingRow N c = some row ∧
      floatLt N row.createdAt r.createdAt = false ∧
      (ratingEq N row r = true ∨ floatLt N r.createdAt row.createdAt = true ∨ v = .conflict) := by
  cases h with
  | skipped hs => exact absurd hs hskip
  | inserted hreal =>
    exact ⟨_, _, rfl, ratingRow_columns N _ _ _, ratingEq_not_lt (ratingEq_stored hreal),
      .inl (ratingEq_stored hreal)⟩
  | replaced hrow hlt hreal =>
    exact ⟨_, _, rfl, ratingRow_columns N _ _ _, ratingEq_not_lt (ratingEq_stored hreal),
      .inl (ratingEq_stored hreal)⟩
  | duplicate hrow heq => exact ⟨_, _, rfl, hrow, ratingEq_not_lt heq, .inl heq⟩
  | superseded hrow hlt => exact ⟨_, _, rfl, hrow, floatLt_asymm hlt, .inr (.inl hlt)⟩
  | conflict hrow hne hlt hgt => exact ⟨_, _, rfl, hrow, hlt, .inr (.inr rfl)⟩

section

variable {keepExisting : Bool} {batch : Batch F} {s s' : Store F} {counts : Counts}
  {va vr : List Verdict}

theorem Imported.clashing_again (h : Imported N keepExisting batch s s' counts va vr)
    (hb : batch.Accepted N) (k : Text) :
    Clashing N s' batch.answers k ↔ Clashing N s batch.answers k := by
  constructor
  · rintro ⟨a, ha, rfl, hclash⟩
    obtain ⟨v, -, hturn⟩ := forall₂_left h.answers ha
    have hagain := hturn.again (hb.answerTimes a ha) (hb.bounded a ha)
    have hv := (hagain.unique hclash).2
    split at hv
    · next hconflict =>
      subst hconflict
      have hsame := hturn.unchanged
      rw [hsame] at hturn
      exact ⟨a, ha, rfl, hturn⟩
    · cases hv
  · rintro ⟨a, ha, rfl, hclash⟩
    obtain ⟨v, -, hturn⟩ := forall₂_left h.answers ha
    have hsame := (hturn.unique hclash).1
    exact ⟨a, ha, rfl, by rwa [hsame]⟩

/-- A file that was imported changes nothing when it is imported again. -/
theorem Imported.again (h : Imported N keepExisting batch s s' counts va vr)
    (hb : batch.Accepted N) (cutoff : F) :
    ∃ counts', importBody N keepExisting cutoff batch s' = .ok (counts', s') ∧
      counts'.inserted = 0 := by
  let P : Progress F → Prop := fun p => p.store = s' ∧ p.counts.inserted = 0 ∧
    (keepExisting = true ∨ p.counts.conflict = 0)
  have hquiet : ∀ p p', P p → Quiet keepExisting p p' → P p' := by
    rintro p p' ⟨hstore, hinserted, hconflict⟩ ⟨hsame, hins, hcon⟩
    refine ⟨hsame.trans hstore, hins.trans hinserted, ?_⟩
    rcases hconflict with hkeep | hzero
    · exact .inl hkeep
    · exact hcon.imp id fun e => e.trans hzero
  obtain ⟨p, hp, hP⟩ := foldlM_total (f := importAnswer N cutoff) (l := batch.answers) (P := P)
    (fun p a ha hP => by
      obtain ⟨v, hv, hturn⟩ := forall₂_left h.answers ha
      have hagain := hturn.again (hb.answerTimes a ha) (hb.bounded a ha)
      rw [← hP.1] at hagain
      obtain ⟨p', hp', hq⟩ := @importAnswer_quiet F N keepExisting cutoff _ _ _ hagain fun e => by
        split at e
        · next hc => exact h.keeps_conflicts (.inl (hc ▸ hv))
        · cases e
      exact ⟨p', hp', hquiet p p' hP hq⟩)
    (s := { store := s' }) ⟨rfl, rfl, .inr rfl⟩
  obtain ⟨-, -, hskipped, -⟩ := importAnswers_slots hb.answerIds hp
  obtain ⟨q, hq, hQ, -⟩ := foldlM_total (f := importRating N) (l := batch.ratings)
    (P := fun q => P q ∧ q.skipped = p.skipped)
    (fun q r hr hQ => by
      obtain ⟨v, hv, hturn⟩ := forall₂_left h.ratings hr
      by_cases hskip : r.requestId ∈ q.skipped
      · have hclash := (h.clashing_again hb _).mp ((hskipped _).mp (hQ.2 ▸ hskip))
        have hconflict : keepExisting = true := by
          obtain ⟨a, ha, hid, hclash⟩ := hclash
          obtain ⟨v, hv, hturn⟩ := forall₂_left h.answers ha
          rw [hid] at hturn
          exact h.keeps_conflicts (.inl ((hturn.unique hclash).2 ▸ hv))
        obtain ⟨q', hq', hquiet', hsame⟩ := importRating_skipped (N := N) hskip
        rw [← hconflict] at hquiet'
        exact ⟨q', hq', hquiet q q' hQ.1 hquiet', hsame.trans hQ.2⟩
      · have hno : ¬ Clashing N s batch.answers r.requestId := fun hc =>
          hskip (hQ.2 ▸ (hskipped _).mpr ((h.clashing_again hb _).mpr hc))
        obtain ⟨c, row, hy, hrow, hlt, hkeep⟩ := hturn.again hno
        have hknown := (h.known r hr).resolve_left hno
        have hkeep' : ratingEq N row r = true ∨ floatLt N r.createdAt row.createdAt = true ∨
            keepExisting = true := by
          rcases hkeep with heq | hgt | rfl
          · exact .inl heq
          · exact .inr (.inl hgt)
          · exact .inr (.inr (h.keeps_conflicts (.inr hv)))
        rw [← hQ.1.1] at hy hknown
        obtain ⟨q', hq', hquiet', hsame⟩ := importRating_quiet hskip hknown hy hrow hlt hkeep'
        exact ⟨q', hq', hquiet q q' hQ.1 hquiet', hsame.trans hQ.2⟩)
    ⟨hP, rfl⟩
  refine ⟨q.counts, ?_, hQ.2.1⟩
  rw [importBody, hp, ok_bind, hq, ok_bind, ensure_true _ hQ.2.2, ok_bind, hQ.1]
  rfl

end

/-! ## Two files in either order -/

variable (N)

/-- Nothing tells the answers apart but what `==` does not see. -/
def SameAnswer (x y : Option (AnswerColumns F)) : Prop :=
  x = y ∨ ∃ c d row row', x = some c ∧ y = some d ∧ answerRow N c = some row ∧
    answerRow N d = some row' ∧ answerEq N row row' = true

def SameRating (x y : Option (RatingColumns F)) : Prop :=
  x = y ∨ ∃ c d row row', x = some c ∧ y = some d ∧ ratingRow N c = some row ∧
    ratingRow N d = some row' ∧ ratingEq N row row' = true

/-- Under every id the stores hold equal rows. -/
def SameRows (s t : Store F) : Prop := ∀ requestId,
  SameAnswer N (s.answers.find requestId) (t.answers.find requestId) ∧
    SameRating N (s.ratings.find requestId) (t.ratings.find requestId)

/-- The register of an answer's rating. -/
def ratingRegister (o : Option (RatingColumns F)) : Option RatingView :=
  (o.bind (ratingRow N)).map (RatingRow.view N)

/-- The time of a rating in its register. -/
def RatingView.time (v : RatingView) : WithBot Value := v.createdAt

variable {N}

theorem time_lt {a b : RatingRow F} (h : floatLt N a.createdAt b.createdAt = true) :
    (a.view N).time < (b.view N).time := by
  obtain ⟨v, w, hv, hw, hlt⟩ := floatLt_iff.mp h
  rw [RatingView.time, RatingView.time, RatingRow.view, RatingRow.view, hv, hw]
  exact WithBot.coe_lt_coe.mpr hlt

theorem ratingEq_view {a b : RatingRow F} (h : ratingEq N a b = true) : a.view N = b.view N := by
  rw [ratingEq, Bool.and_eq_true, decide_eq_true_eq] at h
  exact h.1

theorem ratingRegister_some {c : RatingColumns F} {row : RatingRow F}
    (h : ratingRow N c = some row) : ratingRegister N (some c) = some (row.view N) := by
  rw [ratingRegister, Option.bind_some, h, Option.map_some]

theorem ratingRegister_stored {r : RatingRow F} {rowid : Nat} {created : F}
    (hreal : N.real r.createdAt = some created) :
    ratingRegister N (some (ratingColumns N rowid r.toRatingFields created)) = some (r.view N) := by
  rw [ratingRegister_some (ratingRow_columns N _ _ _), stored_rating_view hreal]

theorem no_clash_of_time {v w : RatingView} (h : v.time ≠ w.time) :
    ¬ Register.Clash RatingView.time (some v) w := by
  rintro ⟨u, hu, htime, -⟩
  cases hu
  exact h htime

/-- Without a conflict an import writes the register. -/
theorem RatingTurn.writes {r : RatingRow F} {skip : Prop} {x y : Option (RatingColumns F)}
    {v : Verdict} (h : RatingTurn N r skip x y v) (hv : v ≠ .conflict) :
    ratingRegister N y = Register.write RatingView.time (ratingRegister N x) (r.view N) ∧
      ¬ Register.Clash RatingView.time (ratingRegister N x) (r.view N) := by
  cases h with
  | skipped => exact absurd rfl hv
  | inserted hreal =>
    refine ⟨ratingRegister_stored hreal, ?_⟩
    rintro ⟨w, hw, -⟩
    cases hw
  | replaced hrow hlt hreal =>
    rw [ratingRegister_some hrow, ratingRegister_stored hreal]
    exact ⟨(Register.write_newer (time_lt hlt)).symm, no_clash_of_time (time_lt hlt).ne⟩
  | duplicate hrow heq =>
    rw [ratingRegister_some hrow, ratingEq_view heq]
    refine ⟨(Register.write_older (le_refl _)).symm, ?_⟩
    rintro ⟨w, hw, -, hne⟩
    cases hw
    exact hne rfl
  | superseded hrow hlt =>
    rw [ratingRegister_some hrow]
    exact ⟨(Register.write_older (time_lt hlt).le).symm, no_clash_of_time (time_lt hlt).ne'⟩
  | conflict => exact absurd rfl hv

theorem RatingTurn.readable {r : RatingRow F} {skip : Prop} {x y : Option (RatingColumns F)}
    {v : Verdict} (h : RatingTurn N r skip x y v) (hv : v ≠ .conflict) :
    ∃ c row, y = some c ∧ ratingRow N c = some row ∧ (row.view N).createdAt.isSome = true := by
  cases h with
  | skipped => exact absurd rfl hv
  | inserted hreal | replaced _ _ hreal =>
    exact ⟨_, _, rfl, ratingRow_columns N _ _ _, (N.real_value _ _ hreal).1⟩
  | duplicate hrow heq =>
    rw [ratingEq, Bool.and_eq_true] at heq
    exact ⟨_, _, rfl, hrow, heq.2⟩
  | superseded hrow hlt =>
    obtain ⟨v, w, -, hw, -⟩ := floatLt_iff.mp hlt
    exact ⟨_, _, rfl, hrow, by rw [RatingRow.view, hw]; rfl⟩
  | conflict => exact absurd rfl hv

theorem sameRating_of_register {x y : Option (RatingColumns F)}
    (hx : ∃ c row, x = some c ∧ ratingRow N c = some row ∧ (row.view N).createdAt.isSome = true)
    (h : ratingRegister N x = ratingRegister N y) : SameRating N x y := by
  obtain ⟨c, row, rfl, hrow, hsome⟩ := hx
  rw [ratingRegister_some hrow, eq_comm, ratingRegister, Option.map_eq_some_iff] at h
  obtain ⟨row', hbind, hview⟩ := h
  obtain ⟨d, rfl, hrow'⟩ := Option.bind_eq_some_iff.mp hbind
  refine .inr ⟨c, d, row, row', rfl, rfl, hrow, hrow', ?_⟩
  rw [ratingEq, hview, Bool.and_eq_true]
  exact ⟨decide_eq_true rfl, hsome⟩

/-- Equal answers stored by either of two files. -/
theorem sameAnswer_stored {a b : AnswerRow F} {ca cb : F} (ha : N.real a.createdAt = some ca)
    (hb : N.real b.createdAt = some cb)
    (heq : answerEq N ⟨a.toAnswerFields.sorted, ca⟩ b = true) :
    SameAnswer N (some (answerColumns N a.toAnswerFields ca))
      (some (answerColumns N b.toAnswerFields cb)) := by
  refine .inr ⟨_, _, _, _, rfl, rfl, answerRow_columns N _ _, answerRow_columns N _ _, ?_⟩
  rw [answerEq, stored_answer_view ha] at heq ⊢
  rwa [stored_answer_view hb]

variable (N) in
/-- An import that returned without a conflict. -/
def Settled (batch : Batch F) (s s' : Store F) : Prop :=
  ∃ keepExisting counts va vr, Imported N keepExisting batch s s' counts va vr ∧ counts.conflict = 0

section

variable {batch : Batch F} {s s' : Store F}

theorem Settled.answer (h : Settled N batch s s') {a : AnswerRow F} (ha : a ∈ batch.answers) :
    ∃ v, AnswerTurn N a (s.answers.find a.requestId) (s'.answers.find a.requestId) v ∧
      v ≠ .conflict := by
  obtain ⟨keepExisting, counts, va, vr, himp, hzero⟩ := h
  obtain ⟨v, hv, hturn⟩ := forall₂_left himp.answers ha
  exact ⟨v, hturn, fun e => (himp.no_conflict hzero).1 (e ▸ hv)⟩

theorem Settled.rating (h : Settled N batch s s') {r : RatingRow F} (hr : r ∈ batch.ratings) :
    ∃ skip v, RatingTurn N r skip (s.ratings.find r.requestId) (s'.ratings.find r.requestId) v ∧
      v ≠ .conflict := by
  obtain ⟨keepExisting, counts, va, vr, himp, hzero⟩ := h
  obtain ⟨v, hv, hturn⟩ := forall₂_left himp.ratings hr
  exact ⟨_, v, hturn, fun e => (himp.no_conflict hzero).2 (e ▸ hv)⟩

theorem Settled.otherAnswer (h : Settled N batch s s') {k : Text}
    (hk : k ∉ batch.answers.map fun a => a.requestId) : s'.answers.find k = s.answers.find k := by
  obtain ⟨keepExisting, counts, va, vr, himp, -⟩ := h
  exact himp.otherAnswers k hk

theorem Settled.otherRating (h : Settled N batch s s') {k : Text}
    (hk : k ∉ batch.ratings.map fun r => r.requestId) : s'.ratings.find k = s.ratings.find k := by
  obtain ⟨keepExisting, counts, va, vr, himp, -⟩ := h
  exact himp.otherRatings k hk

end

section

variable {A B : Batch F} {s sa sab sb sba : Store F}

theorem sameAnswer_swap (ha : Settled N A s sa) (hab : Settled N B sa sab)
    (hb : Settled N B s sb) (hba : Settled N A sb sba) (k : Text) :
    SameAnswer N (sab.answers.find k) (sba.answers.find k) := by
  by_cases hA : k ∈ A.answers.map fun a => a.requestId
  · obtain ⟨a, hmem, rfl⟩ := List.mem_map.mp hA
    obtain ⟨v, hv, hvc⟩ := ha.answer hmem
    obtain ⟨v', hv', hvc'⟩ := hba.answer hmem
    by_cases hB : a.requestId ∈ B.answers.map fun b => b.requestId
    · obtain ⟨b, hmem', hid⟩ := List.mem_map.mp hB
      obtain ⟨w, hw, hwc⟩ := hab.answer hmem'
      obtain ⟨w', hw', hwc'⟩ := hb.answer hmem'
      rw [hid] at hw hw'
      generalize s.answers.find a.requestId = x at hv hw'
      cases x with
      | some c =>
        rw [hv.keeps] at hw
        rw [hw'.keeps] at hv'
        exact .inl (hw.keeps.trans hv'.keeps.symm)
      | none =>
        -- the file that comes first writes the answer, the other finds it equal
        generalize sa.answers.find a.requestId = y at hv hw
        generalize sb.answers.find a.requestId = z at hv' hw'
        cases hv with
        | inserted hreal =>
          cases hw' with
          | inserted hreal' =>
            rw [hw.keeps, hv'.keeps]
            generalize sab.answers.find a.requestId = t at hw
            cases hw with
            | duplicate hrow heq =>
              rw [answerRow_columns] at hrow
              exact sameAnswer_stored hreal hreal' (Option.some.inj hrow ▸ heq)
            | conflict => exact absurd rfl hwc
    · rw [hab.otherAnswer hB]
      rw [hb.otherAnswer hB] at hv'
      exact .inl (hv.unique hv').1
  · rw [hba.otherAnswer hA]
    by_cases hB : k ∈ B.answers.map fun b => b.requestId
    · obtain ⟨b, hmem, rfl⟩ := List.mem_map.mp hB
      obtain ⟨v, hv, -⟩ := hab.answer hmem
      obtain ⟨v', hv', -⟩ := hb.answer hmem
      rw [ha.otherAnswer hA] at hv
      exact .inl (hv.unique hv').1
    · exact .inl (by rw [hab.otherAnswer hB, ha.otherAnswer hA, hb.otherAnswer hB])

theorem sameRating_swap (ha : Settled N A s sa) (hab : Settled N B sa sab)
    (hb : Settled N B s sb) (hba : Settled N A sb sba) (k : Text) :
    SameRating N (sab.ratings.find k) (sba.ratings.find k) := by
  by_cases hA : k ∈ A.ratings.map fun r => r.requestId
  · obtain ⟨a, hmem, rfl⟩ := List.mem_map.mp hA
    obtain ⟨_, v, hv, hvc⟩ := ha.rating hmem
    obtain ⟨_, v', hv', hvc'⟩ := hba.rating hmem
    by_cases hB : a.requestId ∈ B.ratings.map fun r => r.requestId
    · obtain ⟨b, hmem', hid⟩ := List.mem_map.mp hB
      obtain ⟨_, w, hw, hwc⟩ := hab.rating hmem'
      obtain ⟨_, w', hw', hwc'⟩ := hb.rating hmem'
      rw [hid] at hw hw'
      apply sameRating_of_register (hw.readable hwc)
      have hclash := (hw.writes hwc).2
      rw [(hv.writes hvc).1] at hclash
      rw [(hw.writes hwc).1, (hv.writes hvc).1, (hv'.writes hvc').1, (hw'.writes hwc').1,
        Register.write_comm hclash]
    · rw [hab.otherRating hB]
      apply sameRating_of_register (hv.readable hvc)
      rw [(hv.writes hvc).1, (hv'.writes hvc').1, hb.otherRating hB]
  · rw [hba.otherRating hA]
    by_cases hB : k ∈ B.ratings.map fun r => r.requestId
    · obtain ⟨b, hmem, rfl⟩ := List.mem_map.mp hB
      obtain ⟨_, v, hv, hvc⟩ := hab.rating hmem
      obtain ⟨_, v', hv', hvc'⟩ := hb.rating hmem
      apply sameRating_of_register (hv.readable hvc)
      rw [(hv.writes hvc).1, (hv'.writes hvc').1, ha.otherRating hA]
    · exact .inl (by rw [hab.otherRating hB, ha.otherRating hA, hb.otherRating hB])

end

/-! ## Imports of files -/

theorem importRecords_ok {keepExisting : Bool} {cutoff : F} {batch : Batch F} {s s' : Store F}
    {counts : Counts} (h : importRecords N keepExisting cutoff batch s = (.ok counts, s')) :
    importBody N keepExisting cutoff batch s = .ok (counts, s') := by
  unfold importRecords transaction at h
  split at h
  · next counts' t ht =>
    cases h
    exact ht
  · cases h

theorem importRecords_error {keepExisting : Bool} {cutoff : F} {batch : Batch F} {s s' : Store F}
    {e : StoreError} (h : importRecords N keepExisting cutoff batch s = (.error e, s')) : s' = s := by
  unfold importRecords transaction at h
  split at h
  · cases h
  · cases h
    rfl

theorem settled_of_ok {keepExisting : Bool} {cutoff : F} {batch : Batch F} {s s' : Store F}
    {counts : Counts} (hb : batch.Accepted N)
    (h : importRecords N keepExisting cutoff batch s = (.ok counts, s'))
    (hzero : counts.conflict = 0) : Settled N batch s s' := by
  obtain ⟨va, vr, himp⟩ := importBody_imported hb (importRecords_ok h)
  exact ⟨keepExisting, counts, va, vr, himp, hzero⟩

variable {H : Hash} {D : Decoder}

/-- An import of a file that was accepted raises and leaves the store as it is, or keeps every answer,
leaves no rating without its answer or with an earlier time, and accounts for every row; importing the
file again succeeds and changes nothing. Two files that are imported in either order without a conflict
leave stores with equal rows. -/
theorem import_laws {data : Bytes} {now : F} {batch : Batch F}
    (hparse : parseExport N H D data now = .ok batch) (s : Store F) :
    (∀ keepExisting cutoff e s', importRecords N keepExisting cutoff batch s = (.error e, s') →
      s' = s) ∧
    (∀ keepExisting cutoff counts s',
      importRecords N keepExisting cutoff batch s = (.ok counts, s') →
      (∀ c ∈ s.answers, c ∈ s'.answers) ∧
      (∀ r ∈ s'.ratings, ∃ a ∈ s'.answers, a.requestId = r.requestId) ∧
      (∀ c ∈ s.ratings, ∃ c' ∈ s'.ratings, c'.requestId = c.requestId ∧ c'.id = c.id ∧
        floatLt N c'.createdAt c.createdAt = false) ∧
      (∃ va vr, Imported N keepExisting batch s s' counts va vr) ∧
      ∀ cutoff', ∃ counts',
        importRecords N keepExisting cutoff' batch s' = (.ok counts', s') ∧ counts'.inserted = 0) ∧
    ∀ data' now' batch', parseExport N H D data' now' = .ok batch' →
      ∀ keepExisting (cutoff : Fin 4 → F) (counts : Fin 4 → Counts) sa sab sb sba,
      (∀ i, (counts i).conflict = 0) →
      importRecords N keepExisting (cutoff 0) batch s = (.ok (counts 0), sa) →
      importRecords N keepExisting (cutoff 1) batch' sa = (.ok (counts 1), sab) →
      importRecords N keepExisting (cutoff 2) batch' s = (.ok (counts 2), sb) →
      importRecords N keepExisting (cutoff 3) batch sb = (.ok (counts 3), sba) →
      SameRows N sab sba := by
  have hb := parseExport_accepted hparse
  refine ⟨fun _ _ _ _ => importRecords_error, ?_, ?_⟩
  · intro keepExisting cutoff counts s' h
    obtain ⟨va, vr, himp⟩ := importBody_imported hb (importRecords_ok h)
    refine ⟨himp.answers_stay, s'.foreign, himp.ratings_grow, ⟨va, vr, himp⟩, fun cutoff' => ?_⟩
    obtain ⟨counts', hagain, hzero⟩ := himp.again hb cutoff'
    exact ⟨counts', by rw [importRecords, transaction, hagain], hzero⟩
  · intro data' now' batch' hparse' keepExisting cutoff counts sa sab sb sba hzero ha hab hsb hba k
    have hb' := parseExport_accepted hparse'
    have hsa := settled_of_ok hb ha (hzero 0)
    have hsab := settled_of_ok hb' hab (hzero 1)
    have hsb := settled_of_ok hb' hsb (hzero 2)
    have hsba := settled_of_ok hb hba (hzero 3)
    exact ⟨sameAnswer_swap hsa hsab hsb hsba k, sameRating_swap hsa hsab hsb hsba k⟩

/-! ## Two equal answers -/

def oneRow (v : Scalar Bool) : AnswerRow Bool := ⟨(oneAnswer v).toAnswerFields, true⟩

def oneBatch (v : Scalar Bool) : Batch Bool := ⟨[oneRow v], []⟩

def oneFile (v : Scalar Bool) : Bytes := exportFile halfOrNaN zeros (oneBatch v) true 180

theorem parse_oneFile {v : Scalar Bool} (h : v.bounded halfOrNaN = true) :
    parseExport halfOrNaN zeros utf8 (oneFile v) true = .ok (oneBatch v) := by
  have hf : finite halfOrNaN true = true := by decide +kernel
  have hle : floatLe halfOrNaN true true = true := by decide +kernel
  have hsnap : (oneBatch v).Snapshot :=
    ⟨⟨List.forall_mem_singleton.mpr (oneAnswer v).valid, List.forall_mem_nil _⟩,
      List.forall_mem_singleton.mpr rfl, List.nodup_singleton _, List.nodup_nil⟩
  have hb : (oneBatch v).Bounded halfOrNaN :=
    ⟨List.forall_mem_singleton.mpr hf, List.forall_mem_nil _,
      List.forall_mem_singleton.mpr (List.all_eq_true.mpr (List.forall_mem_singleton.mpr h))⟩
  have hw : (oneBatch v).Within halfOrNaN (halfOrNaN.skew true) :=
    ⟨List.forall_mem_singleton.mpr hle, List.forall_mem_nil _⟩
  exact parseExport_written (buildExport_bounded hsnap hb hf (by decide)) hsnap hb hw hf (by decide) hle

/-- A loop over the one answer. -/
theorem importBody_one {v : Scalar Bool} {s : Store Bool} {p : Progress Bool}
    (hstep : importAnswer halfOrNaN true { store := s } (oneRow v) = .ok p)
    (hzero : p.counts.conflict = 0) :
    importRecords halfOrNaN false true (oneBatch v) s = (.ok p.counts, p.store) := by
  have hfold : (oneBatch v).answers.foldlM (importAnswer halfOrNaN true) { store := s } = .ok p := by
    rw [oneBatch, List.foldlM_cons, hstep, ok_bind]
    rfl
  have hbody : importBody halfOrNaN false true (oneBatch v) s = .ok (p.counts, p.store) := by
    rw [importBody, hfold, ok_bind]
    show (ensure (false = true ∨ p.counts.conflict = 0) _ >>= _) = _
    rw [ensure_true _ (.inr hzero)]
    rfl
  rw [importRecords, transaction, hbody]

theorem import_one {v : Scalar Bool} (h : printable (oneAnswer v).telemetry = true) :
    importRecords halfOrNaN false true (oneBatch v) Store.empty =
      (.ok { inserted := 1 }, oneStore v) := by
  refine importBody_one (p := { store := oneStore v, counts := { inserted := 1 } }) ?_ rfl
  have hlt : floatLt halfOrNaN true true = false := floatLt_irrefl true
  show (ensure (printable (oneAnswer v).telemetry = true) StoreError.valueError >>= _) = _
  rw [ensure_true _ h, ok_bind]
  show Except.ok (Progress.mk (oneStore v) { inserted := 1, expired :=
    (0 + if floatLt halfOrNaN true true = true then 1 else 0) } []) = _
  rw [hlt]
  rfl

theorem import_one_again {v w : Scalar Bool} (heq : answerEq halfOrNaN (oneRow v) (oneRow w) = true) :
    importRecords halfOrNaN false true (oneBatch w) (oneStore v) =
      (.ok { duplicate := 1 }, oneStore v) := by
  refine importBody_one (p := { store := oneStore v, counts := { duplicate := 1 } }) ?_ rfl
  have hfind : (oneStore v).answers.find (oneRow w).requestId =
      some (answerColumns halfOrNaN (oneAnswer v).toAnswerFields true) := Keyed.find_upsert.trans
    (if_pos rfl)
  rw [importAnswer, hfind]
  dsimp only
  rw [answerRow_columns, orRaise_some, ok_bind]
  exact if_pos heq

/-- Rows that tell apart what `==` does not. -/
theorem oneStore_injective {v w : Scalar Bool} (h : oneStore v = oneStore w) : v = w := by
  have hfind : ∀ v, (oneStore v).answers.find (List.replicate 12 '0') =
      some (answerColumns halfOrNaN (oneAnswer v).toAnswerFields true) := fun v =>
    Keyed.find_upsert.trans (if_pos rfl)
  have hcols := hfind v
  rw [h, hfind w, Option.some.injEq] at hcols
  have hrow := congrArg (answerRow halfOrNaN) hcols
  rw [answerRow_columns, answerRow_columns, Option.some.injEq] at hrow
  have htelemetry : [("score".toList, w)] = [("score".toList, v)] :=
    congrArg (fun r : AnswerRow Bool => r.telemetry) hrow
  simpa using htelemetry.symm

/-- Twice the file of one answer. -/
theorem import_laws_twice : ∃ counts', importRecords halfOrNaN false true (oneBatch (.int 1))
    (oneStore (.int 1)) = (.ok counts', oneStore (.int 1)) ∧ counts'.inserted = 0 :=
  ((import_laws (parse_oneFile (v := .int 1) (by decide)) Store.empty).2.1 false true _ _
    (import_one (by decide +kernel))).2.2.2.2 true

/-- One answer with telemetry `1` in one file and `true` in the other: the file that comes first counts. -/
theorem order_matters :
    parseExport halfOrNaN zeros utf8 (oneFile (.int 1)) true = .ok (oneBatch (.int 1)) ∧
    parseExport halfOrNaN zeros utf8 (oneFile (.bool true)) true = .ok (oneBatch (.bool true)) ∧
    importRecords halfOrNaN false true (oneBatch (.int 1)) Store.empty =
      (.ok { inserted := 1 }, oneStore (.int 1)) ∧
    importRecords halfOrNaN false true (oneBatch (.bool true)) (oneStore (.int 1)) =
      (.ok { duplicate := 1 }, oneStore (.int 1)) ∧
    importRecords halfOrNaN false true (oneBatch (.bool true)) Store.empty =
      (.ok { inserted := 1 }, oneStore (.bool true)) ∧
    importRecords halfOrNaN false true (oneBatch (.int 1)) (oneStore (.bool true)) =
      (.ok { duplicate := 1 }, oneStore (.bool true)) ∧
    oneStore (.int 1) ≠ oneStore (.bool true) := by
  refine ⟨parse_oneFile (by decide), parse_oneFile (by rfl), import_one (by decide +kernel),
    import_one_again (by decide +kernel), import_one (by decide +kernel),
    import_one_again (by decide +kernel), fun h => ?_⟩
  cases oneStore_injective h

end MainframeRag.Feedback
