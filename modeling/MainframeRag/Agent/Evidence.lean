import MainframeRag.Agent.Prompt

/-!
# The evidence manifest

Every producer of a packed excerpt keeps `Supplied`: the excerpt stands for a hit, its body is the
composed text of its range, and the range cuts no atomic unit. The blocks of the user message and
the manifest are both read off the packed list, so they agree (`prepared_manifest`).
-/

namespace MainframeRag.Agent

open PyText Ingest.Chunking

section

variable (U : CharTables) (G : TagTables) (R : PromptReaders)

/-! ## Packed excerpts -/

/-- What a packed excerpt says of its hit. -/
structure Supplied (hits : List SearchHit) (p : PackedExcerpt) : Prop where
  hit : 0 < p.index ∧ hits[p.index - 1]? = some p.hit
  range : p.start ≤ p.stop ∧ p.stop ≤ p.source.length
  body : p.body = composeBody p.source p.start p.stop
  wholeStart : WholeUnits p.source (hitSpans U p.hit.units p.source) p.start
  wholeStop : WholeUnits p.source (hitSpans U p.hit.units p.source) p.stop

/-- The excerpts of the first `k` hits, in order. -/
structure SuppliedList (hits : List SearchHit) (k : Nat) (packed : List PackedExcerpt) : Prop where
  supplied : ∀ p ∈ packed, Supplied U hits p
  bound : ∀ p ∈ packed, p.index ≤ k
  sorted : packed.Pairwise (fun p p' => p.index < p'.index)

theorem suppliedList_nil (hits : List SearchHit) (k : Nat) : SuppliedList U hits k [] :=
  ⟨by simp, by simp, .nil⟩

/-- A range that packing may use. -/
structure GoodRange (source : Text) (spans : List UnitSpan) (r : Range) : Prop where
  inText : InText source r
  wholeStart : WholeUnits source spans r.start
  wholeStop : WholeUnits source spans r.stop

theorem Snapped.good {source : Text} {spans : List UnitSpan} {m : Int} {r : Range}
    (ho : Ordered source.length 0 spans) (h : Snapped U source spans m r) :
    GoodRange source spans r := by
  obtain ⟨m, hw, -, hs⟩ := h
  have hstart : r.start ≤ source.length := by
    rcases hs with hs | ⟨s, hs, he⟩
    · omega
    · have := ho.mem hs
      omega
  exact ⟨snapWindow_inText hstart hw, wholeUnits_start ho hs, snapWindow_whole ho hw⟩

theorem goodRange_all {source : Text} {spans : List UnitSpan} (ho : Ordered source.length 0 spans) :
    GoodRange source spans ⟨0, source.length, 0⟩ :=
  ⟨⟨Nat.zero_le _, Nat.le.refl⟩, wholeUnits_start ho (.inl rfl), wholeUnits_end ho⟩

theorem cappedRange_good {source : Text} {spans : List UnitSpan} {requested : Option (Text → Bool)}
    {cap : Option Int} {r : Range} (ho : Ordered source.length 0 spans)
    (h : cappedRange U spans source requested cap = some r) : GoodRange source spans r := by
  cases cap with
  | none =>
    cases h
    exact goodRange_all ho
  | some n => exact (selectRange_snapped h).good U ho

theorem SuppliedList.mono {hits : List SearchHit} {k k' : Nat} {packed : List PackedExcerpt}
    (h : SuppliedList U hits k packed) (hk : k ≤ k') : SuppliedList U hits k' packed :=
  ⟨h.supplied, fun p hp => (h.bound p hp).trans hk, h.sorted⟩

theorem SuppliedList.pack {hits : List SearchHit} {k : Nat} {packed : List PackedExcerpt}
    (h : SuppliedList U hits k packed) {hit : SearchHit} (hh : hits[k]? = some hit) {r : Range}
    (hr : GoodRange (strip hit.text) (hitSpans U hit.units (strip hit.text)) r) :
    SuppliedList U hits (k + 1) (packed ++ [packedExcerpt (k + 1) hit (strip hit.text) r]) := by
  have hnew : Supplied U hits (packedExcerpt (k + 1) hit (strip hit.text) r) :=
    ⟨⟨Nat.succ_pos k, hh⟩, hr.inText, rfl, hr.wholeStart, hr.wholeStop⟩
  refine ⟨fun p hp => ?_, fun p hp => ?_, List.pairwise_append.mpr ⟨h.sorted,
    List.pairwise_singleton _ _, fun p hp p' hp' => ?_⟩⟩
  · rcases List.mem_append.mp hp with hp | hp
    · exact h.supplied p hp
    · rw [List.mem_singleton.mp hp]
      exact hnew
  · rcases List.mem_append.mp hp with hp | hp
    · exact (h.bound p hp).trans (Nat.le_succ k)
    · rw [List.mem_singleton.mp hp]
      exact Nat.le.refl
  · rw [List.mem_singleton.mp hp']
    exact Nat.lt_succ_of_le (h.bound p hp)

/-! ## Producers -/

theorem planFrom_supplied (q : PromptRequest) (budget : Int) (cap : Nat) (complexity : Complexity)
    (requested : Option (Text → Bool)) {hits : List SearchHit} (rest : List SearchHit) (k : Nat)
    (hr : ∀ i, (rest[i]?) = hits[k + i]?) (total : Nat) {packed : List PackedExcerpt}
    (h : SuppliedList U hits k packed) :
    SuppliedList U hits (k + rest.length)
      (planFrom U R q budget cap complexity requested (rest.zipIdx (k + 1)) total packed) := by
  induction rest generalizing k total packed with
  | nil => exact h
  | cons hit rest ih =>
    have hhit : hits[k]? = some hit := (hr 0).symm
    have hnext : ∀ i, rest[i]? = hits[k + 1 + i]? := by
      intro i
      have := hr (i + 1)
      rw [List.getElem?_cons_succ] at this
      rw [this]
      congr 1
      omega
    have hlen : k + (hit :: rest).length = k + 1 + rest.length := by simp; omega
    have ho := hitSpans_ordered U hit.units (strip hit.text)
    have hk : k + 1 ≤ k + (hit :: rest).length := by simp
    rw [List.zipIdx_cons, planFrom]
    dsimp only
    split
    · rw [hlen]
      exact ih (k + 1) hnext total (h.mono U (Nat.le_succ k))
    · next r hcap =>
      have hpack := h.pack U hhit (cappedRange_good U ho hcap)
      split
      · split
        · split
          · next r' hsel =>
            exact (h.pack U hhit ((selectRange_snapped hsel).good U ho)).mono U hk
          · exact h.mono U (Nat.le_add_right _ _)
        · exact h.mono U (Nat.le_add_right _ _)
      · rw [hlen]
        exact ih (k + 1) hnext _ hpack

theorem planPackedExcerpts_supplied (q : PromptRequest) (budget : Int) (cap : Nat)
    (complexity : Complexity) :
    SuppliedList U q.hits q.hits.length (planPackedExcerpts U R q budget cap complexity) := by
  have h := planFrom_supplied U R q budget cap complexity (R.requested q.query) q.hits 0
    (fun i => by rw [Nat.zero_add]) 0 (suppliedList_nil U q.hits 0)
  rwa [Nat.zero_add] at h

theorem packChars_supplied (q : PromptRequest) (requested : Option (Text → Bool))
    {hits : List SearchHit} (rest : List SearchHit) (k : Nat) (hr : ∀ i, (rest[i]?) = hits[k + i]?)
    (total : Nat) {packed : List PackedExcerpt} (h : SuppliedList U hits k packed) :
    SuppliedList U hits (k + rest.length)
      (packChars U q requested (rest.zipIdx (k + 1)) total packed) := by
  induction rest generalizing k total packed with
  | nil => exact h
  | cons hit rest ih =>
    have hhit : hits[k]? = some hit := (hr 0).symm
    have hnext : ∀ i, rest[i]? = hits[k + 1 + i]? := by
      intro i
      have := hr (i + 1)
      rw [List.getElem?_cons_succ] at this
      rw [this]
      congr 1
      omega
    have hlen : k + (hit :: rest).length = k + 1 + rest.length := by simp; omega
    have ho := hitSpans_ordered U hit.units (strip hit.text)
    have hk : k + 1 ≤ k + (hit :: rest).length := by simp
    rw [List.zipIdx_cons, packChars]
    dsimp only
    generalize (if q.isChat = true then 2 else 1) = sep
    split
    · rw [hlen]
      exact ih (k + 1) hnext total (h.mono U (Nat.le_succ k))
    · next r hsel =>
      have hpack := h.pack U hhit ((selectRange_snapped hsel).good U ho)
      split
      · split
        · split
          · next r' hsel' =>
            exact (h.pack U hhit ((selectRange_snapped hsel').good U ho)).mono U hk
          · exact h.mono U (Nat.le_add_right _ _)
        · exact h.mono U (Nat.le_add_right _ _)
      · rw [hlen]
        exact ih (k + 1) hnext _ hpack

/-- A trimmed excerpt keeps its hit and its start. -/
theorem trimExcerpt_supplied {hits : List SearchHit} {p p' : PackedExcerpt} {used : Nat}
    {limit : Int} (h : Supplied U hits p) (ht : trimExcerpt U p used limit = some p') :
    Supplied U hits p' ∧ p'.index = p.index := by
  have ho := hitSpans_ordered U p.hit.units p.source
  unfold trimExcerpt at ht
  dsimp only at ht
  split at ht
  · split at ht
    · cases ht
    · next newEnd hw =>
      split at ht
      · cases ht
      · cases ht
        have hin := snapWindow_inText (h.range.1.trans h.range.2) hw
        exact ⟨⟨h.hit, hin, rfl, h.wholeStart, snapWindow_whole ho hw⟩, rfl⟩
  · cases ht

theorem verifyTrimLast_supplied {hits : List SearchHit} {k : Nat} {packed : List PackedExcerpt}
    (h : SuppliedList U hits k packed) (used : Nat) (limit : Int) :
    SuppliedList U hits k (verifyTrimLast U packed used limit) := by
  unfold verifyTrimLast
  split
  · exact h
  · next last hl =>
    have hmem : last ∈ packed := List.mem_of_getLast? hl
    have hsplit : packed.dropLast ++ [last] = packed := List.dropLast_append_getLast? last hl
    have hdrop : ∀ p ∈ packed.dropLast, p ∈ packed := fun p hp => List.dropLast_subset _ hp
    have hsorted := h.sorted
    rw [← hsplit] at hsorted
    obtain ⟨h1, -, h3⟩ := List.pairwise_append.mp hsorted
    cases ht : trimExcerpt U last used limit with
    | none =>
      rw [Option.toList_none, List.append_nil]
      exact ⟨fun p hp => h.supplied p (hdrop p hp), fun p hp => h.bound p (hdrop p hp), h1⟩
    | some p' =>
      obtain ⟨hp', hidx⟩ := trimExcerpt_supplied U (h.supplied last hmem) ht
      rw [Option.toList_some]
      refine ⟨fun p hp => ?_, fun p hp => ?_, List.pairwise_append.mpr ⟨h1,
        List.pairwise_singleton _ _, fun p hp x hx => ?_⟩⟩
      · rcases List.mem_append.mp hp with hp | hp
        · exact h.supplied p (hdrop p hp)
        · rw [List.mem_singleton.mp hp]
          exact hp'
      · rcases List.mem_append.mp hp with hp | hp
        · exact h.bound p (hdrop p hp)
        · rw [List.mem_singleton.mp hp, hidx]
          exact h.bound last hmem
      · rw [List.mem_singleton.mp hx, hidx]
        exact h3 p hp last (by simp)

theorem trimRound_supplied {hits : List SearchHit} {k : Nat} {s : Trimmable}
    (h : SuppliedList U hits k s.packed) (used : Nat) (limit : Int) :
    SuppliedList U hits k (trimRound U used limit s).packed := by
  unfold trimRound
  split
  · exact h
  · exact verifyTrimLast_supplied U h used limit

/-- What every round keeps, the loop keeps. -/
theorem verifyLoop_induct {count : Trimmable → Nat} {limit : Int} {isChat : Bool}
    {P : Trimmable → Prop} (hstep : ∀ s, limit < count s → P s → P (trimRound U (count s) limit s))
    (rounds : Nat) {s : Trimmable} (h : P s) :
    P (verifyLoop U count limit isChat rounds s).1 := by
  induction rounds generalizing s with
  | zero => exact h
  | succ rounds ih =>
    rw [verifyLoop]
    split
    · exact h
    · split
      · exact h
      · next hfit =>
        split
        · exact h
        · exact ih (hstep s (by omega) h)

/-! ## The user message -/

theorem head_names {name : Text} (h : isHeadName name = true) :
    name ≠ questionName ∧ name ≠ tailName := by
  constructor
  · rintro rfl
    revert h
    decide
  · rintro rfl
    revert h
    decide

def contextBlocks (entries : List Text) : List PromptBlock :=
  if entries = [] then [] else [(contextName, List.intercalate "\n\n".toList entries)]

theorem contextBlocks_head (entries : List Text) :
    ∀ b ∈ contextBlocks entries, isHeadName b.1 = true ∧ b.1 ≠ excerptName := by
  intro b hb
  unfold contextBlocks at hb
  split at hb
  · cases hb
  · rw [List.mem_singleton.mp hb]
    exact ⟨(by decide : isHeadName contextName = true), (by decide : contextName ≠ excerptName)⟩

theorem excerptBlocks_head (packed : List PackedExcerpt) :
    ∀ b ∈ excerptBlocks packed, isHeadName b.1 = true := by
  intro b hb
  cases packed with
  | nil =>
    rw [List.mem_singleton.mp hb]
    decide
  | cons p ps =>
    rcases List.mem_cons.mp hb with rfl | hb
    · rfl
    · obtain ⟨p', -, rfl⟩ := List.mem_map.mp hb
      rfl

theorem filter_head {bs : List PromptBlock} (h : ∀ b ∈ bs, isHeadName b.1 = true) :
    (bs.map (frameBlock G)).filter (fun b => isHeadName b.1) = bs.map (frameBlock G) := by
  refine List.filter_eq_self.mpr fun b hb => ?_
  obtain ⟨b', hb', rfl⟩ := List.mem_map.mp hb
  rw [frameBlock_name]
  exact h b' hb'

theorem find_head {bs : List PromptBlock} (h : ∀ b ∈ bs, isHeadName b.1 = true) :
    (bs.map (frameBlock G)).find? (fun b => b.1 = questionName) = none ∧
      (bs.map (frameBlock G)).find? (fun b => b.1 = tailName) = none := by
  have hname : ∀ b ∈ bs.map (frameBlock G), b.1 ≠ questionName ∧ b.1 ≠ tailName := by
    intro b hb
    obtain ⟨b', hb', rfl⟩ := List.mem_map.mp hb
    rw [frameBlock_name]
    exact head_names (h b' hb')
  exact ⟨List.find?_eq_none.mpr fun b hb => by simpa using (hname b hb).1,
    List.find?_eq_none.mpr fun b hb => by simpa using (hname b hb).2⟩

/-- The blocks in front of the excerpts. -/
def frontBlocks (entries : List Text) (question : Text) : PromptOrder → List PromptBlock
  | .retrieval => contextBlocks entries ++ [(questionName, question)]
  | .stableCache => instructionsBlock :: contextBlocks entries

/-- The blocks behind the excerpts. -/
def backBlocks (question tail : Text) : PromptOrder → List PromptBlock
  | .retrieval => [(tailName, tail)]
  | .stableCache => [(questionName, question), (tailName, tail)]

theorem frontBlocks_other (entries : List Text) (question tail : Text) (policy : PromptOrder) :
    ∀ b ∈ frontBlocks entries question policy ++ backBlocks question tail policy,
      b.1 ≠ excerptName := by
  have hctx := contextBlocks_head entries
  have hqn : questionName ≠ excerptName := by decide
  have htn : tailName ≠ excerptName := by decide
  intro b hb
  cases policy with
  | retrieval =>
    simp only [frontBlocks, backBlocks, List.append_assoc, List.mem_append,
      List.mem_singleton] at hb
    rcases hb with hb | rfl | rfl
    · exact (hctx b hb).2
    · exact hqn
    · exact htn
  | stableCache =>
    simp only [frontBlocks, backBlocks, List.cons_append, List.mem_cons, List.mem_append,
      List.not_mem_nil, or_false] at hb
    rcases hb with rfl | hb | rfl | rfl
    · decide
    · exact (hctx b hb).2
    · exact hqn
    · exact htn

/-- The assembled blocks, framed. -/
theorem frame_assembled (entries : List Text) (question : Text) (packed : List PackedExcerpt)
    (tail : Text) :
    (assembleBlocks entries question packed tail).map (frameBlock G) =
      contextBlocks entries ++ [(questionName, question)] ++
        (excerptBlocks packed).map (frameBlock G) ++ [(tailName, tail)] := by
  have hqn : questionName ≠ excerptName := by decide
  have htn : tailName ≠ excerptName := by decide
  have hq : frameBlock G (questionName, question) = (questionName, question) :=
    frameBlock_other G hqn
  have ht : frameBlock G (tailName, tail) = (tailName, tail) := frameBlock_other G htn
  have hctx : (contextBlocks entries).map (frameBlock G) = contextBlocks entries := by
    conv_rhs => rw [← List.map_id (contextBlocks entries)]
    exact List.map_congr_left fun b hb => frameBlock_other G (contextBlocks_head entries b hb).2
  have hassem : assembleBlocks entries question packed tail =
      contextBlocks entries ++ [(questionName, question)] ++ excerptBlocks packed ++
        [(tailName, tail)] := rfl
  rw [hassem, List.map_append, List.map_append, List.map_append, hctx, List.map_singleton,
    List.map_singleton, hq, ht]

/-- `stable_cache` finds the question and the tail, and its head is the context and the excerpts. -/
theorem assembled_parts (entries : List Text) (question : Text) (packed : List PackedExcerpt)
    (tail : Text) :
    let framed := contextBlocks entries ++ [(questionName, question)] ++
      (excerptBlocks packed).map (frameBlock G) ++ [(tailName, tail)]
    framed.find? (fun b => b.1 = questionName) = some (questionName, question) ∧
      framed.find? (fun b => b.1 = tailName) = some (tailName, tail) ∧
      framed.filter (fun b => isHeadName b.1) =
        contextBlocks entries ++ (excerptBlocks packed).map (frameBlock G) := by
  have hctx : (contextBlocks entries).map (frameBlock G) = contextBlocks entries := by
    conv_rhs => rw [← List.map_id (contextBlocks entries)]
    exact List.map_congr_left fun b hb => frameBlock_other G (contextBlocks_head entries b hb).2
  have hqt : ¬decide (questionName = tailName) = true := by decide
  have hqh : ¬isHeadName questionName = true := by decide
  have hth : ¬isHeadName tailName = true := by decide
  have hfc := find_head G (fun b hb => (contextBlocks_head entries b hb).1)
  have hfe := find_head G (excerptBlocks_head packed)
  have hhc := filter_head G (fun b hb => (contextBlocks_head entries b hb).1)
  rw [hctx] at hfc hhc
  refine ⟨?_, ?_, ?_⟩
  · rw [List.append_assoc, List.append_assoc, List.find?_append, hfc.1]
    rfl
  · rw [List.append_assoc, List.append_assoc, List.find?_append, hfc.2,
      List.singleton_append, List.find?_cons_of_neg (by exact hqt), List.find?_append, hfe.2]
    rfl
  · rw [List.filter_append, List.filter_append, List.filter_append, hhc,
      filter_head G (excerptBlocks_head packed), List.filter_cons_of_neg (by exact hqh),
      List.filter_cons_of_neg (by exact hth), List.filter_nil, List.append_nil, List.append_nil]

/-- The assembled blocks are ordered under both policies, the framed excerpts in between. -/
theorem order_assembled (entries : List Text) (question : Text) (packed : List PackedExcerpt)
    (tail : Text) (policy : PromptOrder) :
    orderPromptBlocks G (assembleBlocks entries question packed tail) policy =
      some (frontBlocks entries question policy ++ (excerptBlocks packed).map (frameBlock G) ++
        backBlocks question tail policy) := by
  have hframed := frame_assembled G entries question packed tail
  cases policy with
  | retrieval =>
    rw [order_retrieval, hframed]
    rfl
  | stableCache =>
    obtain ⟨hq, ht, hhead⟩ := assembled_parts G entries question packed tail
    have hnames : (assembleBlocks entries question packed tail).map Prod.fst =
        (contextBlocks entries ++ [(questionName, question)] ++
          (excerptBlocks packed).map (frameBlock G) ++ [(tailName, tail)]).map Prod.fst := by
      rw [← hframed, framed_names]
    unfold orderPromptBlocks
    dsimp only
    rw [hframed, hq, ht, hhead]
    dsimp only
    rw [if_pos]
    · simp [frontBlocks, backBlocks]
    · rw [hnames, List.isPerm_iff]
      simp only [List.map_append, List.map_cons, List.map_nil, List.cons_append,
        List.append_assoc, List.nil_append]
      have hi : instructionsBlock.1 = instructionsName := rfl
      rw [hi]
      refine List.perm_iff_count.mpr fun x => ?_
      simp only [List.count_append, List.count_cons, List.count_nil]
      omega

theorem orderedBlocks_eq (q : PromptRequest) (packed : List PackedExcerpt) :
    orderedBlocks G R q packed = frontBlocks (contextEntries q) (questionText R q) q.order ++
      (excerptBlocks packed).map (frameBlock G) ++
        backBlocks (questionText R q) tailPart q.order := by
  rw [orderedBlocks, order_assembled]
  rfl

/-- The excerpt blocks among the assembled ones, the first with the section header. -/
def packedBlocks : List PackedExcerpt → List PromptBlock
  | [] => []
  | p :: ps => excerptBlock true p :: ps.map (excerptBlock false)

theorem excerptBlocks_filter (packed : List PackedExcerpt) :
    ((excerptBlocks packed).map (frameBlock G)).filter (fun b => b.1 = excerptName) =
      (packedBlocks packed).map (frameBlock G) := by
  cases packed with
  | nil =>
    have hn : excerptsName ≠ excerptName := by decide
    rw [excerptBlocks, List.map_singleton, frameBlock_other G hn]
    exact List.filter_cons_of_neg (by simpa using hn)
  | cons p ps =>
    refine List.filter_eq_self.mpr fun b hb => ?_
    obtain ⟨b', hb', rfl⟩ := List.mem_map.mp hb
    rw [frameBlock_name]
    rcases List.mem_cons.mp hb' with rfl | hb'
    · rfl
    · obtain ⟨p', -, rfl⟩ := List.mem_map.mp hb'
      rfl

theorem orderedBlocks_order (q : PromptRequest) (packed : List PackedExcerpt) :
    orderPromptBlocks G (assembleBlocks (contextEntries q) (questionText R q) packed tailPart)
      q.order = some (orderedBlocks G R q packed) := by
  rw [orderedBlocks_eq, order_assembled]

theorem orderedBlocks_filter (q : PromptRequest) (packed : List PackedExcerpt) :
    (orderedBlocks G R q packed).filter (fun b => b.1 = excerptName) =
      (packedBlocks packed).map (frameBlock G) := by
  have hother := frontBlocks_other (contextEntries q) (questionText R q) tailPart q.order
  have hnil : ∀ bs : List PromptBlock, (∀ b ∈ bs, b.1 ≠ excerptName) →
      bs.filter (fun b => b.1 = excerptName) = [] :=
    fun bs hbs => List.filter_eq_nil_iff.mpr fun b hb => by simpa using hbs b hb
  rw [orderedBlocks_eq, List.filter_append, List.filter_append, excerptBlocks_filter,
    hnil _ fun b hb => hother b (List.mem_append_left _ hb),
    hnil _ fun b hb => hother b (List.mem_append_right _ hb), List.nil_append, List.append_nil]

/-! ## The manifest -/

/-- Entry `i` of the manifest and its block: the header and the composed range of the hit it names,
escaped and framed. The section header rides on the first block. -/
def Ships (hits : List SearchHit) (e : EvidenceEntry × Nat) (b : PromptBlock) : Prop :=
  ∃ hit, 0 < e.1.promptIndex ∧ hits[e.1.promptIndex - 1]? = some hit ∧
    e.1.chunkId = hit.chunkId ∧ e.1.docId = hit.docId ∧ e.1.cite = hit.cite ∧
    b = (excerptName, frameExcerpt G ((if e.2 = 0 then excerptsHeader ++ ['\n'] else []) ++
      excerptHeader e.1.promptIndex hit ++ ['\n'] ++
        composeBody (strip hit.text) e.1.startChar e.1.includedChars))

/-- The range of an entry lies in its hit's text and cuts no atomic unit. -/
def Whole (hits : List SearchHit) (e : EvidenceEntry) : Prop :=
  ∃ hit, hits[e.promptIndex - 1]? = some hit ∧
    e.startChar ≤ e.includedChars ∧ e.includedChars ≤ (strip hit.text).length ∧
    WholeUnits (strip hit.text) (hitSpans U hit.units (strip hit.text)) e.startChar ∧
    WholeUnits (strip hit.text) (hitSpans U hit.units (strip hit.text)) e.includedChars

/-- The manifest of a prompt is what its user message holds. -/
structure ManifestExact (q : PromptRequest) (p : PreparedPrompt) : Prop where
  message : ∃ earlier packed blocks,
    p.messages = earlier ++ [⟨.user, List.intercalate "\n\n".toList (blocks.map Prod.snd)⟩] ∧
    orderPromptBlocks G (assembleBlocks (contextEntries q) (questionText R q) packed tailPart)
      q.order = some blocks ∧
    List.Forall₂ (Ships G q.hits) p.evidence.entries.zipIdx
      (blocks.filter (fun b => b.1 = excerptName))
  omitted : p.evidence.omittedIndices = (List.range' 1 q.hits.length).filter
    (fun i => !(p.evidence.entries.map EvidenceEntry.promptIndex).contains i)
  ascending : (p.evidence.entries.map EvidenceEntry.promptIndex).Pairwise (· < ·)
  whole : ∀ e ∈ p.evidence.entries, Whole U q.hits e

theorem Supplied.ships {hits : List SearchHit} {p : PackedExcerpt} (h : Supplied U hits p)
    (i : Nat) :
    Ships G hits (p.evidenceEntry U R, i) (frameBlock G (excerptBlock (decide (i = 0)) p)) := by
  refine ⟨p.hit, h.hit.1, h.hit.2, rfl, rfl, rfl, ?_⟩
  have hname : (excerptBlock (decide (i = 0)) p).1 = excerptName := rfl
  rw [frameBlock, if_pos hname, excerptBlock, h.body]
  simp only [decide_eq_true_eq]
  rfl

theorem ships_rest {hits : List SearchHit} {packed : List PackedExcerpt}
    (h : ∀ p ∈ packed, Supplied U hits p) (i : Nat) :
    List.Forall₂ (Ships G hits) ((packed.map (PackedExcerpt.evidenceEntry U R)).zipIdx (i + 1))
      ((packed.map (excerptBlock false)).map (frameBlock G)) := by
  induction packed generalizing i with
  | nil => exact .nil
  | cons p ps ih =>
    exact .cons ((h p List.mem_cons_self).ships U G R (i + 1))
      (ih (fun p hp => h p (List.mem_cons_of_mem _ hp)) (i + 1))

theorem ships_packed {hits : List SearchHit} {packed : List PackedExcerpt}
    (h : ∀ p ∈ packed, Supplied U hits p) :
    List.Forall₂ (Ships G hits) (packed.map (PackedExcerpt.evidenceEntry U R)).zipIdx
      ((packedBlocks packed).map (frameBlock G)) := by
  cases packed with
  | nil => exact .nil
  | cons p ps =>
    exact .cons ((h p List.mem_cons_self).ships U G R 0)
      (ships_rest U G R (fun p hp => h p (List.mem_cons_of_mem _ hp)) 0)

theorem prepared_manifest {q : PromptRequest} {s : Trimmable} {k : Nat} (verified : Bool)
    (h : SuppliedList U q.hits k s.packed) :
    ManifestExact U G R q (prepared U G R q s verified) where
  message := ⟨_, s.packed, orderedBlocks G R q s.packed, rfl, orderedBlocks_order G R q s.packed,
    by
      rw [orderedBlocks_filter]
      exact ships_packed U G R h.supplied⟩
  omitted := by
    simp only [prepared, promptEvidence, List.map_map]
    rfl
  ascending := by
    simp only [prepared, promptEvidence, List.map_map]
    exact List.pairwise_map.mpr h.sorted
  whole e he := by
    obtain ⟨p, hp, rfl⟩ := List.mem_map.mp he
    have hs := h.supplied p hp
    exact ⟨p.hit, hs.hit.2, hs.range.1, hs.range.2, hs.wholeStart, hs.wholeStop⟩

theorem buildVerified_state {q : PromptRequest} {T : Tokenizer} {settings : PromptSettings}
    {p : PreparedPrompt} (h : buildVerified U G R q T settings = .ok p) :
    ∃ s verified, p = prepared U G R q s verified ∧
      SuppliedList U q.hits q.hits.length s.packed := by
  unfold buildVerified at h
  dsimp only at h
  split at h
  · cases h
  · cases h
    refine ⟨_, _, rfl, ?_⟩
    exact verifyLoop_induct U (P := fun s => SuppliedList U q.hits q.hits.length s.packed)
      (fun s _ hs => trimRound_supplied U hs _ _) _ (planPackedExcerpts_supplied U R q _ _ _)

theorem buildUnverified_supplied (q : PromptRequest) :
    SuppliedList U q.hits q.hits.length
      (packChars U q (R.requested q.query) (q.hits.zipIdx 1) 0 []) := by
  have h := packChars_supplied U q (R.requested q.query) q.hits 0
    (fun i => by rw [Nat.zero_add]) 0 (suppliedList_nil U q.hits 0)
  rwa [Nat.zero_add] at h

end

/-- Every returned prompt has an exact manifest, with and without a tokenizer. -/
def ManifestsExact (U : CharTables) (G : TagTables) (R : PromptReaders) : Prop :=
  ∀ q verifier p, buildPrompt U G R q verifier = .ok p → ManifestExact U G R q p

theorem manifestsExact (U : CharTables) (G : TagTables) (R : PromptReaders) :
    ManifestsExact U G R := by
  intro q verifier p h
  cases verifier with
  | none =>
    cases h
    exact prepared_manifest U G R false (buildUnverified_supplied U R q)
  | some verifier =>
    obtain ⟨s, verified, rfl, hs⟩ := buildVerified_state U G R h
    exact prepared_manifest U G R verified hs

end MainframeRag.Agent
