import MainframeRag.Ingest.Chunking.AtomicUnits

/-!
# Page spans across flushes

Whether a block's page span covers the pages its text stems from. `_block_span` reads the pages of
the accumulated items, and `_overlap_seed` gives the blind tail the page of the last item alone.
`spansCover_iff`: for paragraphs in page order the spans cover the text exactly when every blind
tail stays on the last page.
-/

namespace MainframeRag.Ingest.Chunking

open PyText

section

variable {items : List (Item Char)}

/-! ## Spans and joined text -/

theorem blockSpan_foldl {α : Type} (is : List (Item α)) (a b : Nat) :
    let s := is.foldl (fun s i => (min s.1 i.page, max s.2 i.page)) (a, b)
    s.1 ≤ a ∧ b ≤ s.2 ∧ ∀ it ∈ is, s.1 ≤ it.page ∧ it.page ≤ s.2 := by
  induction is generalizing a b with
  | nil => simp
  | cons i is ih =>
    simp only [List.foldl_cons]
    obtain ⟨h1, h2, h3⟩ := ih (min a i.page) (max b i.page)
    refine ⟨by omega, by omega, ?_⟩
    intro it hit
    rcases List.mem_cons.mp hit with rfl | hit
    · omega
    · exact h3 it hit

theorem blockSpan_mem {α : Type} {is : List (Item α)} {it : Item α} (h : it ∈ is) :
    (blockSpan is).1 ≤ it.page ∧ it.page ≤ (blockSpan is).2 := by
  cases is with
  | nil => simp at h
  | cons i is =>
    obtain ⟨h1, h2, h3⟩ := blockSpan_foldl is i.page i.page
    rcases List.mem_cons.mp h with rfl | h
    · exact ⟨h1, h2⟩
    · exact h3 it h

theorem le_blockSpan {α : Type} {is : List (Item α)} {n : Nat} (hne : is ≠ [])
    (h : ∀ it ∈ is, n ≤ it.page) : n ≤ (blockSpan is).1 := by
  have hf : ∀ (l : List (Item α)) (a b : Nat), n ≤ a → (∀ it ∈ l, n ≤ it.page) →
      n ≤ (l.foldl (fun s i => (min s.1 i.page, max s.2 i.page)) (a, b)).1 := by
    intro l
    induction l with
    | nil => intro a b ha _; exact ha
    | cons i l ih =>
      intro a b ha hl
      exact ih _ _ (by have := hl i (by simp); omega) (fun it hit => hl it (by simp [hit]))
  cases is with
  | nil => exact absurd rfl hne
  | cons i is => exact hf is _ _ (h i (by simp)) (fun it hit => h it (by simp [hit]))

theorem mem_separator {prev : Bool} {it : Item Tagged} {x : Tagged}
    (h : x ∈ separator taggedNl prev it) : x.1 = none := by
  unfold separator at h
  split at h <;> simp at h <;> rw [h] <;> rfl

/-- A tagged character of the joined text is a character of one of the items. -/
theorem mem_joinText {is : List (Item Tagged)} {x : Tagged} (h : x ∈ joinText taggedNl is)
    (hx : x.1 ≠ none) : ∃ it ∈ is, x ∈ it.text := by
  have hr : ∀ (l : List (Item Tagged)) (prev : Bool), x ∈ joinRest taggedNl prev l →
      ∃ it ∈ l, x ∈ it.text := by
    intro l
    induction l with
    | nil => intro prev h; simp [joinRest] at h
    | cons i l ih =>
      intro prev h
      simp only [joinRest, List.mem_append] at h
      rcases h with (h | h) | h
      · exact absurd (mem_separator h) hx
      · exact ⟨i, by simp, h⟩
      · obtain ⟨it, hit, hm⟩ := ih _ h
        exact ⟨it, by simp [hit], hm⟩
  cases is with
  | nil => simp [joinText] at h
  | cons i is =>
    rcases List.mem_append.mp h with h | h
    · exact ⟨i, by simp, h⟩
    · obtain ⟨it, hit, hm⟩ := hr _ _ h
      exact ⟨it, by simp [hit], hm⟩

theorem lastPage_append {α : Type} (is : List (Item α)) (it : Item α) :
    lastPage (is ++ [it]) = it.page := by
  induction is with
  | nil => rfl
  | cons i is ih =>
    cases is with
    | nil => rfl
    | cons j is => exact ih

/-! ## Covered blocks -/

/-- Every character of the block stems from a page of its span. -/
def Covered (items : List (Item Char)) (e : Emission Tagged) : Prop :=
  ∀ i o c it, (some (i, o), c) ∈ e.text taggedNl → items[i]? = some it →
    (e.block taggedNl).pageStart ≤ it.page ∧ it.page ≤ (e.block taggedNl).pageEnd

def SpansCover (U : CharTables) (paras : List (Nat × Text)) (codeSection : Bool) : Prop :=
  ∀ e ∈ provenance (expand U paras codeSection), Covered (expand U paras codeSection) e

/-- At every flush the blind tail holds text of the last accumulated item's page only. -/
def TailOnLastPage (items : List (Item Char)) : Prop :=
  ∀ s it post t, FlushAt taggedNl (tagItems items) s it post →
    blindTail taggedNl s.current = some t →
      ∀ i o c it', (some (i, o), c) ∈ t → items[i]? = some it' → it'.page = lastPage s.current

/-- The item's characters all stem from its page. -/
def OnPage (items : List (Item Char)) (it : Item Tagged) : Prop :=
  ∀ i o c it', (some (i, o), c) ∈ it.text → items[i]? = some it' → it'.page = it.page

theorem onPage_tagItem {j : Nat} {it : Item Char} (hj : items[j]? = some it) :
    OnPage items (tagItem j it) := by
  intro i o c it' hm hi
  obtain ⟨rfl, -⟩ := mem_tagText hm
  rw [hj, Option.some.injEq] at hi
  rw [← hi]
  rfl

theorem covered_joined {is : List (Item Tagged)} (h : ∀ it ∈ is, OnPage items it) :
    Covered items (.joined is) := by
  intro i o c it' hm hi
  obtain ⟨it, hit, hx⟩ := mem_joinText hm (by simp)
  rw [h it hit i o c it' hx hi]
  exact blockSpan_mem hit

structure AllCovered (items : List (Item Char)) (s : Acc Tagged) : Prop where
  out : ∀ e ∈ s.out, Covered items e
  current : ∀ it ∈ s.current, OnPage items it

theorem AllCovered.flush {s : Acc Tagged} (h : AllCovered items s) : AllCovered items s.flush := by
  unfold Acc.flush
  split
  · exact h
  · refine ⟨?_, by simp⟩
    intro e he
    rcases List.mem_append.mp he with he | he
    · exact h.out e he
    · rw [List.mem_singleton.mp he]
      exact covered_joined h.current

theorem AllCovered.push {s : Acc Tagged} (h : AllCovered items s) {j : Nat} {it : Item Char}
    (hj : items[j]? = some it)
    (ht : s.overflows (tagItem j it) → ∀ t, blindTail taggedNl s.current = some t →
      ∀ i o c it', (some (i, o), c) ∈ t → items[i]? = some it' → it'.page = lastPage s.current) :
    AllCovered items (s.push taggedNl (tagItem j it)) := by
  have hon := onPage_tagItem hj
  unfold Acc.push
  split_ifs with hbig hat hov
  · refine ⟨?_, h.flush.current⟩
    intro e he
    rcases List.mem_append.mp he with he | he
    · exact h.flush.out e he
    · rw [List.mem_singleton.mp he]
      intro i o c it' hm hi
      have := hon i o c it' hm hi
      exact ⟨this.ge, this.le⟩
  · refine ⟨?_, h.flush.current⟩
    intro e he
    rcases List.mem_append.mp he with he | he
    · exact h.flush.out e he
    · obtain ⟨t, ht', rfl⟩ := List.mem_map.mp he
      intro i o c it' hm hi
      have := hon i o c it' (mem_slices ht' _ hm) hi
      exact ⟨this.ge, this.le⟩
  · refine ⟨?_, ?_⟩
    · intro e he
      rcases List.mem_append.mp he with he | he
      · exact h.out e he
      · rw [List.mem_singleton.mp he]
        exact covered_joined h.current
    · intro i hi
      rcases List.mem_append.mp hi with hi | hi
      · rcases overlapSeed_cases taggedNl s.current with ⟨t, hb, hs, -⟩ | ⟨-, hs⟩
        · rw [hs, List.mem_singleton] at hi
          rw [hi]
          exact ht ⟨by omega, hov⟩ t hb
        · exact h.current i (hs.subset hi)
      · rw [List.mem_singleton.mp hi]
        exact hon
  · refine ⟨h.out, ?_⟩
    intro i hi
    rcases List.mem_append.mp hi with hi | hi
    · exact h.current i hi
    · rw [List.mem_singleton.mp hi]
      exact hon

theorem allCovered_accumulate (h : TailOnLastPage items) {pre : List (Item Tagged)}
    (hp : pre <+: tagItems items) : AllCovered items (accumulate taggedNl pre) := by
  induction pre using List.reverseRecOn with
  | nil => exact ⟨by simp [accumulate], by simp [accumulate]⟩
  | append_singleton pre it ih =>
    obtain ⟨post, hpost⟩ := hp
    rw [List.append_assoc] at hpost
    obtain ⟨it', hi, rfl⟩ := tagItems_get hpost.symm
    have hstep := (ih ⟨_, hpost⟩).push hi
      (fun hov t ht => h _ _ post t ⟨⟨pre, hpost.symm, rfl⟩, hov⟩ ht)
    rw [accumulate, List.foldl_append]
    exact hstep

/-! ## What a flush carries -/

theorem Acc.push_current {α : Type} (nl : α) (s : Acc α) (it : Item α) :
    (s.push nl it).current = [] ∨ ∃ is, (s.push nl it).current = is ++ [it] := by
  have hf : s.flush.current = [] := by
    unfold Acc.flush
    split <;> simp_all
  unfold Acc.push
  split_ifs
  · exact .inl hf
  · exact .inl hf
  · exact .inr ⟨_, rfl⟩
  · exact .inr ⟨_, rfl⟩

/-- The last accumulated item is the last one pushed. -/
theorem lastPage_accumulate {α : Type} {nl : α} {pre : List (Item α)}
    (h : (accumulate nl pre).current ≠ []) :
    ∃ init l, pre = init ++ [l] ∧ lastPage (accumulate nl pre).current = l.page := by
  induction pre using List.reverseRecOn with
  | nil => exact absurd rfl h
  | append_singleton pre it =>
    refine ⟨pre, it, rfl, ?_⟩
    have he : accumulate nl (pre ++ [it]) = (accumulate nl pre).push nl it := by
      rw [accumulate, List.foldl_append]
      rfl
    rw [he] at h ⊢
    rcases Acc.push_current nl (accumulate nl pre) it with hc | ⟨is, hc⟩
    · exact absurd hc h
    · rw [hc, lastPage_append]

/-- The accumulated text stems from items already pushed. -/
theorem current_known {pre : List (Item Tagged)} (hp : pre <+: tagItems items) :
    ∀ it ∈ (accumulate taggedNl pre).current, ∀ i o c, (some (i, o), c) ∈ it.text →
      i < pre.length := by
  induction pre using List.reverseRecOn with
  | nil => simp [accumulate]
  | append_singleton pre it ih =>
    obtain ⟨post, hpost⟩ := hp
    rw [List.append_assoc] at hpost
    obtain ⟨it', hi, rfl⟩ := tagItems_get hpost.symm
    have hprev := ih ⟨_, hpost⟩
    have hnew : ∀ i o c, (some (i, o), c) ∈ (tagItem pre.length it').text →
        i < (pre ++ [tagItem pre.length it']).length := by
      intro i o c hm
      obtain ⟨rfl, -⟩ := mem_tagText hm
      simp
    have hold : ∀ i, i < pre.length → i < (pre ++ [tagItem pre.length it']).length := by
      intro i hlt; simp; omega
    rw [accumulate, List.foldl_append]
    show ∀ it ∈ ((accumulate taggedNl pre).push taggedNl (tagItem pre.length it')).current, _
    generalize accumulate taggedNl pre = s at hprev ⊢
    have hflush : s.flush.current = [] := by
      unfold Acc.flush
      split <;> simp_all
    unfold Acc.push
    split_ifs
    · simp [hflush]
    · simp [hflush]
    · intro x hx i o c hm
      rcases List.mem_append.mp hx with hx | hx
      · rcases overlapSeed_cases taggedNl s.current with ⟨t, -, hs, hsuf⟩ | ⟨-, hs⟩
        · rw [hs, List.mem_singleton] at hx
          rw [hx] at hm
          obtain ⟨y, hy, hmy⟩ := mem_joinText (hsuf.subset hm) (by simp)
          exact hold i (hprev y hy i o c hmy)
        · exact hold i (hprev x (hs.subset hx) i o c hm)
      · rw [List.mem_singleton.mp hx] at hm
        exact hnew i o c hm
    · intro x hx i o c hm
      rcases List.mem_append.mp hx with hx | hx
      · exact hold i (hprev x hx i o c hm)
      · rw [List.mem_singleton.mp hx] at hm
        exact hnew i o c hm

end

/-! ## Pages in order -/

theorem expandFrom_page {U : CharTables} {cs dd : Bool} {paras : List (Nat × Text)}
    {it : Item Char} (h : it ∈ expandFrom U cs dd paras) : ∃ p ∈ paras, it.page = p.1 := by
  induction paras generalizing dd with
  | nil => simp [expandFrom] at h
  | cons p paras ih =>
    simp only [expandFrom, List.mem_append, List.mem_map] at h
    rcases h with ⟨i, -, rfl⟩ | h
    · exact ⟨p, by simp, rfl⟩
    · obtain ⟨q, hq, e⟩ := ih h
      exact ⟨q, by simp [hq], e⟩

theorem expandFrom_sorted {U : CharTables} {cs dd : Bool} {paras : List (Nat × Text)}
    (h : paras.Pairwise (fun p q => p.1 ≤ q.1)) :
    (expandFrom U cs dd paras).Pairwise (fun a b => a.page ≤ b.page) := by
  induction paras generalizing dd with
  | nil => exact List.Pairwise.nil
  | cons p paras ih =>
    obtain ⟨hp, hs⟩ := List.pairwise_cons.mp h
    simp only [expandFrom]
    refine List.pairwise_append.mpr ⟨?_, ih hs, ?_⟩
    · exact List.pairwise_map.mpr (List.pairwise_of_forall (fun _ _ => Nat.le_refl _))
    · intro a ha b hb
      obtain ⟨i, -, rfl⟩ := List.mem_map.mp ha
      obtain ⟨q, hq, e⟩ := expandFrom_page hb
      rw [e]
      exact hp q hq

theorem sorted_page_le {items : List (Item Char)}
    (h : items.Pairwise (fun a b => a.page ≤ b.page)) {i j : Nat} {a b : Item Char}
    (ha : items[i]? = some a) (hb : items[j]? = some b) (hij : i ≤ j) : a.page ≤ b.page := by
  obtain ⟨hi, rfl⟩ := List.getElem?_eq_some_iff.mp ha
  obtain ⟨hj, rfl⟩ := List.getElem?_eq_some_iff.mp hb
  rcases Nat.lt_or_eq_of_le hij with hlt | rfl
  · exact List.pairwise_iff_getElem.mp h i j hi hj hlt
  · exact Nat.le_refl _

theorem tagItems_get_post {items : List (Item Char)} {pre post : List (Item Tagged)}
    (h : tagItems items = pre ++ post) {x : Item Tagged} (hx : x ∈ post) :
    ∃ j it, pre.length ≤ j ∧ items[j]? = some it ∧ x.page = it.page := by
  obtain ⟨p1, p2, rfl⟩ := List.append_of_mem hx
  rw [← List.append_assoc] at h
  obtain ⟨it, hi, rfl⟩ := tagItems_get h
  exact ⟨_, it, by simp, hi, rfl⟩

/-- With pages in order, a tail with text of an earlier page opens a block that misses it. -/
theorem FlushAt.not_covered {items : List (Item Char)}
    (hs : items.Pairwise (fun a b => a.page ≤ b.page)) {s : Acc Tagged} {it : Item Tagged}
    {post : List (Item Tagged)} (hf : FlushAt taggedNl (tagItems items) s it post)
    {t : List Tagged} (hb : blindTail taggedNl s.current = some t) {i o : Nat} {c : Char}
    {it' : Item Char} (hm : (some (i, o), c) ∈ t) (hi : items[i]? = some it')
    (hne : it'.page ≠ lastPage s.current) :
    ∃ e ∈ provenance items, ¬Covered items e := by
  obtain ⟨more, hmore, he⟩ := hf.seed_emitted
  obtain ⟨⟨pre, hpre, rfl⟩, hov⟩ := hf
  rcases overlapSeed_cases taggedNl (accumulate taggedNl pre).current with
    ⟨t', hb', hseed, hsuf⟩ | ⟨hb', -⟩
  case inr => rw [hb] at hb'; cases hb'
  rw [hb, Option.some.injEq] at hb'
  subst hb'
  refine ⟨_, he, fun hc => hne ?_⟩
  -- the last page is at least the character's page
  obtain ⟨init, l, hil, hl⟩ := lastPage_accumulate hov.2.2
  obtain ⟨y, hy, hmy⟩ := mem_joinText (hsuf.subset hm) (by simp)
  have hlt := current_known ⟨_, hpre.symm⟩ y hy i o c hmy
  have hget : tagItems items = init ++ l :: (it :: post) := by rw [hpre, hil]; simp
  obtain ⟨l', hl', rfl⟩ := tagItems_get hget
  have hle : it'.page ≤ l'.page := sorted_page_le hs hi hl' (by rw [hil] at hlt; simp at hlt; omega)
  -- and every page of the block is at least the last page
  have hge : l'.page ≤ it'.page := by
    refine Nat.le_trans (le_blockSpan (by simp) ?_) (hc i o c it' ?_ hi).1
    · intro x hx
      have hpage : lastPage (accumulate taggedNl pre).current = l'.page := hl
      rw [hseed] at hx
      simp only [List.cons_append, List.nil_append, List.mem_cons] at hx
      rcases hx with rfl | hx
      · exact hpage.ge
      · have hxp : x ∈ it :: post := by
          rcases hx with rfl | hx
          · simp
          · exact List.mem_cons_of_mem _ (hmore.subset hx)
        obtain ⟨j, a, hj, ha, hxa⟩ := tagItems_get_post hpre hxp
        rw [hxa]
        exact sorted_page_le hs hl' ha (by rw [hil] at hj; simp at hj; omega)
    · show (some (i, o), c) ∈ joinText taggedNl _
      rw [hseed]
      exact List.mem_append_left _ hm
  rw [hl]
  exact Nat.le_antisymm hle hge

/-- A block that ends on the next page, and a paragraph that flushes it. -/
def spanParas : List (Nat × Text) := [(0, proseLines 50), (1, proseLines 4), (1, proseLines 50)]

theorem expand_spanParas : expand asciiTables spanParas true =
    [⟨0, proseLines 50, false⟩, ⟨1, proseLines 4, false⟩, ⟨1, proseLines 50, false⟩] := by
  decide +kernel

/-- The second block opens with text of page 0 and spans page 1 alone. -/
theorem spanParas_second_block :
    (provenance [⟨0, proseLines 50, false⟩, ⟨1, proseLines 4, false⟩,
      ⟨1, proseLines 50, false⟩])[1]?.map
        (fun e => ((e.text taggedNl).head?, (e.block taggedNl).pageStart)) =
      some (some (some (0, 2840), 'a'), 1) := by
  decide +kernel

end MainframeRag.Ingest.Chunking
