import MainframeRag.Ingest.Inventory
import MainframeRag.Lib.Fallible

/-!
# Approved removals

`--retire-doc` requests, the history that approves them and the delete plan they come to:
`_parse_retire_flags` and `plan_approved_removals` of `ingest/publish.py`, `plan_retire_deletes` of
`ingest/completion.py`. A dict of sets is a `Finmap`.
-/

namespace MainframeRag.Ingest.Retirement

open PyText Fallible

/-- A dict from documents to sets of revisions; as a request or an approval `none` stands for a
whole document and for a record without a revision. -/
abbrev Requests := Finmap fun _ : Text => Finset (Option Text)

/-- `d.setdefault(doc_id, set()).update(revs)` -/
def addAll (d : Requests) (docId : Text) (revs : Finset (Option Text)) : Requests :=
  d.insert docId ((d.lookup docId).getD ∅ ∪ revs)

structure PlanEntry where
  revs : Finset Text
  whole : Bool
  deriving DecidableEq

abbrev Plan := Finmap fun _ : Text => PlanEntry

inductive Refused
  | malformed (flag : Text)
  | noHistory (docId : Text)
  | revisionless (docId : Text)
  | unapproved (docId : Text) (revs : Finset (Option Text))
  deriving DecidableEq

/-- One flag, `DOCID` or `DOCID@SOURCEREV`; the second part is `none` for the whole document. -/
def parseFlag (flag : Text) : Option (Text × Option Text) :=
  let docId := strip (flag.takeWhile (· ≠ '@'))
  match flag.dropWhile (· ≠ '@') with
  | [] => if docId = [] then none else some (docId, none)
  | _ :: rev => if docId = [] ∨ strip rev = [] then none else some (docId, some (strip rev))

/-- `_parse_retire_flags` -/
def parseRetireFlags : List Text → Requests → Except Refused Requests
  | [], requested => .ok requested
  | flag :: flags, requested =>
    match parseFlag flag with
    | none => .error (.malformed flag)
    | some (docId, rev) => parseRetireFlags flags (addAll requested docId {rev})

variable {F : Type}

/-- `rec.doc_id and rec.status in ("upserted", "skipped")` -/
def approves (rec : InventoryRecord F) : Bool :=
  (rec.docId.getD []) ≠ [] && (rec.status = "upserted".toList || rec.status = "skipped".toList)

/-- `_inventory_approvals` -/
def inventoryApprovals (inventory : List (InventoryRecord F)) : Requests :=
  inventory.foldl (fun approved rec =>
    if approves rec then addAll approved (rec.docId.getD []) {rec.sourceRev} else approved) ∅

/-- The approvals of `plan_approved_removals`: the inventory's, and the catalog's where the operator
asked for them. -/
def approvals (inventory : List (InventoryRecord F)) (catalog : List (Text × Finset Text)) :
    Requests :=
  catalog.foldl (fun approved x => addAll approved x.1 (x.2.image some)) (inventoryApprovals inventory)

/-- The texts of a set of revisions. -/
def named (revs : Finset (Option Text)) : Finset Text := revs.eraseNone

/-- The plan of one document in `plan_retire_deletes`. -/
def planEntry (approved : Requests) (docId : Text) (want : Finset (Option Text)) :
    Except Refused PlanEntry := do
  let history ← orRaise (approved.lookup docId) (.noHistory docId)
  ensure (none ∉ history) (.revisionless docId)
  if none ∈ want then return ⟨named history, true⟩
  else
    ensure (want ⊆ history) (.unapproved docId (want \ history))
    return ⟨named want, false⟩

/-- `plan_retire_deletes`, over the requested documents in order. -/
def planDeletes (approved requested : Requests) : List Text → Plan → Except Refused Plan
  | [], plan => .ok plan
  | docId :: docIds, plan => do
    let entry ← planEntry approved docId ((requested.lookup docId).getD ∅)
    planDeletes approved requested docIds (plan.insert docId entry)

/-- `plan_retire_deletes` -/
def planRetireDeletes (approved requested : Requests) : Except Refused Plan :=
  planDeletes approved requested (sorted requested.keys) ∅

/-- `plan_approved_removals` -/
def planApprovedRemovals (flags : List Text) (inventory : List (InventoryRecord F))
    (catalog : List (Text × Finset Text)) : Except Refused Plan := do
  let requested ← parseRetireFlags flags ∅
  planRetireDeletes (approvals inventory catalog) requested

/-! ## Requests -/

theorem lookup_addAll (d : Requests) (docId other : Text) (revs : Finset (Option Text)) :
    (addAll d docId revs).lookup other =
      if other = docId then some ((d.lookup docId).getD ∅ ∪ revs) else d.lookup other := by
  unfold addAll
  split
  · rename_i h
    rw [h, Finmap.lookup_insert]
  · rename_i h
    rw [Finmap.lookup_insert_of_ne _ h]

theorem strip_strip_ne_nil {t : Text} (h : strip t ≠ []) : strip (strip t) ≠ [] := by
  intro hnil
  obtain ⟨c, hc⟩ : ∃ c, (strip t).getLast? = some c := ⟨_, List.getLast?_eq_some_getLast h⟩
  have := strip_eq_nil.mp hnil c (List.mem_of_getLast? hc)
  rw [strip_getLast hc] at this
  cases this

theorem parseFlag_some {flag docId : Text} {rev : Option Text} (h : parseFlag flag = some (docId, rev)) :
    docId = strip (flag.takeWhile (· ≠ '@')) ∧ docId ≠ [] ∧ (rev = none ↔ '@' ∉ flag) ∧
      ∀ r, rev = some r → strip r ≠ [] := by
  have hat : flag.dropWhile (· ≠ '@') = [] ↔ '@' ∉ flag := by
    simp only [ne_eq, List.dropWhile_eq_nil_iff, decide_eq_true_eq]
    exact ⟨fun hall hmem => hall _ hmem rfl, fun hno c hc e => hno (e ▸ hc)⟩
  dsimp only [parseFlag] at h
  split at h
  · rename_i hd
    split at h
    · cases h
    · rename_i hne
      obtain ⟨rfl, rfl⟩ := Prod.mk.inj (Option.some.inj h)
      exact ⟨rfl, hne, by simpa using hat.mp hd, nofun⟩
  · rename_i x rev' hd
    split at h
    · cases h
    · rename_i hne
      rw [not_or] at hne
      obtain ⟨rfl, rfl⟩ := Prod.mk.inj (Option.some.inj h)
      refine ⟨rfl, hne.1, ?_, ?_⟩
      · have : '@' ∈ flag := by
          by_contra hno
          rw [hat.mpr hno] at hd
          cases hd
        simp [this]
      · rintro r ⟨⟩
        exact strip_strip_ne_nil hne.2

/-- What flags ask for: a request is some flag's. -/
structure Asked (flags : List Text) (requested : Requests) : Prop where
  keys : ∀ docId, docId ∈ requested → docId ≠ []
  some_flag : ∀ docId revs rev, requested.lookup docId = some revs → rev ∈ revs →
    ∃ flag ∈ flags, parseFlag flag = some (docId, rev)
  of_flag : ∀ flag ∈ flags, ∃ docId rev revs, parseFlag flag = some (docId, rev) ∧
    requested.lookup docId = some revs ∧ rev ∈ revs
  nonempty : ∀ docId revs, requested.lookup docId = some revs → revs.Nonempty

theorem asked_nil : Asked [] ∅ where
  keys docId h := absurd h Finmap.notMem_empty
  some_flag docId revs rev h := by simp at h
  of_flag flag h := by simp at h
  nonempty docId revs h := by simp at h

theorem Asked.concat {flags : List Text} {requested : Requests} (h : Asked flags requested)
    {flag docId : Text} {rev : Option Text} (hflag : parseFlag flag = some (docId, rev)) :
    Asked (flags ++ [flag]) (addAll requested docId {rev}) where
  keys other hmem := by
    obtain ⟨revs, hrevs⟩ := Finmap.mem_iff.mp hmem
    rw [lookup_addAll] at hrevs
    split at hrevs
    · rename_i e
      exact e ▸ (parseFlag_some hflag).2.1
    · exact h.keys other (Finmap.mem_iff.mpr ⟨revs, hrevs⟩)
  some_flag other revs r hrevs hr := by
    have hold : ∀ revs, requested.lookup other = some revs → r ∈ revs →
        ∃ flag' ∈ flags ++ [flag], parseFlag flag' = some (other, r) := by
      intro revs hrevs hr
      obtain ⟨f, hf, hp⟩ := h.some_flag other revs r hrevs hr
      exact ⟨f, List.mem_append_left _ hf, hp⟩
    rw [lookup_addAll] at hrevs
    split at hrevs
    · rename_i e
      subst e
      obtain rfl := Option.some.inj hrevs
      rcases Finset.mem_union.mp hr with hr | hr
      · cases hl : requested.lookup other with
        | none => simp [hl] at hr
        | some old =>
          rw [hl, Option.getD_some] at hr
          exact hold old hl hr
      · rw [Finset.mem_singleton.mp hr]
        exact ⟨flag, by simp, hflag⟩
    · exact hold revs hrevs hr
  of_flag f hf := by
    rcases List.mem_append.mp hf with hf | hf
    · obtain ⟨d, r, revs, hp, hl, hr⟩ := h.of_flag f hf
      by_cases e : d = docId
      · subst e
        refine ⟨d, r, _, hp, by rw [lookup_addAll, if_pos rfl], ?_⟩
        rw [hl, Option.getD_some]
        exact Finset.mem_union_left _ hr
      · exact ⟨d, r, revs, hp, by rw [lookup_addAll, if_neg e, hl], hr⟩
    · rw [List.mem_singleton.mp hf]
      refine ⟨docId, rev, _, hflag, by rw [lookup_addAll, if_pos rfl], ?_⟩
      exact Finset.mem_union_right _ (Finset.mem_singleton_self rev)
  nonempty other revs hrevs := by
    rw [lookup_addAll] at hrevs
    split at hrevs
    · obtain rfl := Option.some.inj hrevs
      exact ⟨rev, Finset.mem_union_right _ (Finset.mem_singleton_self rev)⟩
    · exact h.nonempty other revs hrevs

theorem parseRetireFlags_asked {flags : List Text} : ∀ {before : List Text} {start requested : Requests},
    Asked before start → parseRetireFlags flags start = .ok requested →
      Asked (before ++ flags) requested := by
  induction flags with
  | nil =>
    intro before start requested h hparse
    obtain rfl : start = requested := by simpa [parseRetireFlags] using hparse
    simpa using h
  | cons flag flags ih =>
    intro before start requested h hparse
    rw [parseRetireFlags] at hparse
    split at hparse
    · cases hparse
    · rename_i docId rev hflag
      have := ih (h.concat hflag) hparse
      rwa [List.append_assoc] at this

/-! ## The plan -/

theorem planEntry_ok {approved : Requests} {docId : Text} {want : Finset (Option Text)}
    {entry : PlanEntry} (h : planEntry approved docId want = .ok entry) :
    ∃ history, approved.lookup docId = some history ∧ none ∉ history ∧
      entry.whole = decide (none ∈ want) ∧
      entry.revs = named (if none ∈ want then history else want) := by
  simp only [planEntry, bind_ok, orRaise_ok, ensure_ok] at h
  obtain ⟨history, hl, _, hnone, h⟩ := h
  refine ⟨history, hl, hnone, ?_⟩
  split at h
  · rename_i hwant
    obtain rfl := pure_ok.mp h
    simp [hwant]
  · rename_i hwant
    simp only [bind_ok, ensure_ok] at h
    obtain ⟨_, -, h⟩ := h
    obtain rfl := pure_ok.mp h
    simp [hwant]

theorem planDeletes_ok {approved requested : Requests} {docIds : List Text} :
    ∀ {start plan : Plan}, planDeletes approved requested docIds start = .ok plan →
      ∀ docId, (docId ∈ docIds → ∃ entry, plan.lookup docId = some entry ∧
          planEntry approved docId ((requested.lookup docId).getD ∅) = .ok entry) ∧
        (docId ∉ docIds → plan.lookup docId = start.lookup docId) := by
  induction docIds with
  | nil =>
    intro start plan h docId
    obtain rfl : start = plan := by simpa [planDeletes] using h
    simp
  | cons d docIds ih =>
    intro start plan h docId
    simp only [planDeletes, bind_ok] at h
    obtain ⟨entry, hentry, h⟩ := h
    obtain ⟨hin, hout⟩ := ih h docId
    constructor
    · intro hmem
      by_cases hd : docId ∈ docIds
      · exact hin hd
      · obtain rfl : docId = d := by simpa [hd] using hmem
        exact ⟨entry, by rw [hout hd, Finmap.lookup_insert], hentry⟩
    · intro hmem
      rw [List.mem_cons, not_or] at hmem
      rw [hout hmem.2, Finmap.lookup_insert_of_ne _ hmem.1]

/-- What a plan holds: the requested documents, each with its entry. -/
theorem planRetireDeletes_ok {approved requested : Requests} {plan : Plan}
    (h : planRetireDeletes approved requested = .ok plan) (docId : Text) :
    (requested.lookup docId = none ∧ plan.lookup docId = none) ∨
      ∃ want entry, requested.lookup docId = some want ∧ plan.lookup docId = some entry ∧
        planEntry approved docId want = .ok entry := by
  obtain ⟨hin, hout⟩ := planDeletes_ok h docId
  cases hl : requested.lookup docId with
  | none =>
    refine .inl ⟨rfl, ?_⟩
    rw [hout, Finmap.lookup_empty]
    simp only [Finset.mem_sort, Finmap.mem_keys]
    exact Finmap.lookup_eq_none.mp hl
  | some want =>
    have hmem : docId ∈ sorted requested.keys := by
      simp only [Finset.mem_sort, Finmap.mem_keys]
      exact Finmap.mem_iff.mpr ⟨want, hl⟩
    obtain ⟨entry, hplan, hentry⟩ := hin hmem
    rw [hl, Option.getD_some] at hentry
    exact .inr ⟨want, entry, rfl, hplan, hentry⟩

theorem planApprovedRemovals_ok {flags : List Text} {inventory : List (InventoryRecord F)}
    {catalog : List (Text × Finset Text)} {plan : Plan}
    (h : planApprovedRemovals flags inventory catalog = .ok plan) :
    ∃ requested, parseRetireFlags flags ∅ = .ok requested ∧ Asked flags requested ∧
      planRetireDeletes (approvals inventory catalog) requested = .ok plan := by
  simp only [planApprovedRemovals, bind_ok] at h
  obtain ⟨requested, hreq, hplan⟩ := h
  exact ⟨requested, hreq, by simpa using parseRetireFlags_asked asked_nil hreq, hplan⟩

end MainframeRag.Ingest.Retirement
