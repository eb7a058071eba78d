import MainframeRag.Ingest.Chunking.Expand

/-!
# Where block text stems from

The accumulation loop run on tagged characters: each item character carries its item's index and
its offset in the item's text, a separator carries nothing. `erase_provenance` says that forgetting
the tags gives the blocks of the source.

`Inner` text starts strictly inside an atomic item. Items enter the loop uncut, and a flush keeps
them uncut unless the blind tail it carries over is inner; then the block the tail opens is cut.
-/

namespace MainframeRag.Ingest.Chunking

open PyText

/-- Item index and offset; `none` for separators. -/
abbrev Tagged := Option (Nat × Nat) × Char

def taggedNl : Tagged := (none, '\n')

def tagText (i : Nat) (t : Text) : List Tagged := t.zipIdx.map (fun p => (some (i, p.2), p.1))

def tagItem (i : Nat) (it : Item Char) : Item Tagged := ⟨it.page, tagText i it.text, it.atomic⟩

def tagItems (items : List (Item Char)) : List (Item Tagged) :=
  items.zipIdx.map (fun p => tagItem p.2 p.1)

def provenance (items : List (Item Char)) : List (Emission Tagged) :=
  emissions taggedNl (tagItems items)

theorem tagText_erase (i : Nat) (t : Text) : (tagText i t).map Prod.snd = t := by
  simp [tagText, Function.comp_def, List.zipIdx_map_fst]

theorem tagItems_erase (items : List (Item Char)) :
    (tagItems items).map (Item.map Prod.snd) = items := by
  have h : ∀ p : Item Char × Nat, (tagItem p.2 p.1).map Prod.snd = p.1 := by
    intro p
    simp [tagItem, Item.map, tagText_erase]
  simp [tagItems, Function.comp_def, h, List.zipIdx_map_fst]

/-- Without the tags, the tagged run is the source's. -/
theorem erase_provenance (items : List (Item Char)) :
    (provenance items).map (Emission.map Prod.snd) = emissions '\n' items := by
  have h := emissions_map taggedNl Prod.snd (tagItems items)
  rw [tagItems_erase] at h
  exact h.symm

theorem tagText_length (i : Nat) (t : Text) : (tagText i t).length = t.length := by
  simp [tagText]

theorem mem_tagText {i j o : Nat} {c : Char} {t : Text} (h : (some (j, o), c) ∈ tagText i t) :
    j = i ∧ o < t.length := by
  simp only [tagText, List.mem_map, Prod.mk.injEq, Option.some.injEq] at h
  obtain ⟨⟨d, k⟩, hm, ⟨rfl, rfl⟩, rfl⟩ := h
  have := List.mem_zipIdx hm
  exact ⟨rfl, by omega⟩

theorem tagText_tag {i : Nat} {t : Text} {x : Tagged} (h : x ∈ tagText i t) :
    ∃ o, x.1 = some (i, o) := by
  simp only [tagText, List.mem_map] at h
  obtain ⟨⟨d, k⟩, -, rfl⟩ := h
  exact ⟨k, rfl⟩

theorem tagText_get (i k : Nat) (t : Text) :
    (tagText i t)[k]? = t[k]?.map (fun c => (some (i, k), c)) := by
  simp [tagText, List.getElem?_zipIdx, Function.comp_def]

theorem tagText_split {i j o : Nat} {c : Char} {t : Text} {x y : List Tagged}
    (h : tagText i t = x ++ (some (j, o), c) :: y) : j = i ∧ o = x.length := by
  have hl : x.length < (tagText i t).length := by rw [h]; simp
  have hx : (tagText i t)[x.length] = (some (j, o), c) := by simp [h]
  simp only [tagText, List.getElem_map, List.getElem_zipIdx, Prod.mk.injEq, Option.some.injEq] at hx
  exact ⟨hx.1.1.symm, by omega⟩

theorem tagItems_get {items : List (Item Char)} {pre post : List (Item Tagged)} {it : Item Tagged}
    (h : tagItems items = pre ++ it :: post) :
    ∃ it', items[pre.length]? = some it' ∧ it = tagItem pre.length it' := by
  have hl : pre.length < (tagItems items).length := by rw [h]; simp
  have hx : (tagItems items)[pre.length] = it := by simp [h]
  have hl' : pre.length < items.length := by simpa [tagItems] using hl
  refine ⟨items[pre.length], List.getElem?_eq_getElem hl', ?_⟩
  rw [← hx]
  simp [tagItems]

/-! ## What the loop emits -/

section

variable {α : Type} (nl : α)

theorem Acc.flush_out_mem {s : Acc α} {e : Emission α} (h : e ∈ s.out) : e ∈ s.flush.out := by
  unfold flush
  split
  · exact h
  · simp [h]

theorem Acc.push_out_mem {s : Acc α} {e : Emission α} (h : e ∈ s.out) (it : Item α) :
    e ∈ (s.push nl it).out := by
  have hf := Acc.flush_out_mem h
  unfold push
  split_ifs <;> simp [h, hf]

theorem Acc.foldl_out_mem {s : Acc α} {e : Emission α} (h : e ∈ s.out) (items : List (Item α)) :
    e ∈ (items.foldl (Acc.push nl) s).flush.out := by
  induction items generalizing s with
  | nil => exact flush_out_mem h
  | cons it items ih => exact ih (push_out_mem nl h it)

theorem Acc.flush_joined {s : Acc α} (h : s.current ≠ []) : .joined s.current ∈ s.flush.out := by
  simp [flush, h]

/-- The accumulated items end up in one block, followed by some of the next items. -/
theorem Acc.current_emitted {s : Acc α} (h : s.current ≠ []) (items : List (Item α)) :
    ∃ more, more <+: items ∧
      .joined (s.current ++ more) ∈ (items.foldl (Acc.push nl) s).flush.out := by
  induction items generalizing s with
  | nil => exact ⟨[], List.prefix_rfl, by simpa using flush_joined h⟩
  | cons it items ih =>
    rw [List.foldl_cons]
    by_cases hbig : sectionMaxChars < it.text.length
    · refine ⟨[], List.nil_prefix, foldl_out_mem nl ?_ items⟩
      have := flush_joined h
      unfold push
      split_ifs <;> simp [this]
    · by_cases hov : sectionMaxChars < s.currentLen + it.text.length ∧ s.current ≠ []
      · refine ⟨[], List.nil_prefix, foldl_out_mem nl ?_ items⟩
        simp [push, hbig, hov]
      · have hp : s.push nl it = ⟨s.out, s.current ++ [it], s.currentLen + it.text.length + 2⟩ := by
          simp only [push, hbig, hov, ↓reduceIte]
        obtain ⟨more, hm, he⟩ := ih (s := s.push nl it) (by simp [hp])
        refine ⟨it :: more, List.cons_prefix_cons.mpr ⟨rfl, hm⟩, ?_⟩
        rw [hp] at he
        simpa [hp] using he

/-- The loop reaches `s` in front of `it` and flushes there, with `post` still to come. -/
structure FlushAt (items : List (Item α)) (s : Acc α) (it : Item α) (post : List (Item α)) :
    Prop where
  reached : ∃ pre, items = pre ++ it :: post ∧ s = accumulate nl pre
  overflows : s.overflows it

theorem Acc.push_overflow {s : Acc α} {it : Item α} (h : s.overflows it) :
    s.push nl it = ⟨s.out ++ [.joined s.current], overlapSeed nl s.current ++ [it],
      seedLen (overlapSeed nl s.current) it⟩ := by
  obtain ⟨h1, h2, h3⟩ := h
  have h1' : ¬sectionMaxChars < it.text.length := by omega
  simp only [push, h1', ↓reduceIte, h2, h3, ne_eq, not_false_eq_true, and_self]

/-- The seed of a flush opens a later block. -/
theorem FlushAt.seed_emitted {items : List (Item α)} {s : Acc α} {it : Item α}
    {post : List (Item α)} (h : FlushAt nl items s it post) :
    ∃ more, more <+: post ∧
      .joined (overlapSeed nl s.current ++ it :: more) ∈ emissions nl items := by
  obtain ⟨⟨pre, rfl, rfl⟩, hov⟩ := h
  have hp := Acc.push_overflow nl hov
  obtain ⟨more, hm, he⟩ :=
    Acc.current_emitted nl (s := (accumulate nl pre).push nl it) (by simp [hp]) post
  refine ⟨more, hm, ?_⟩
  have hc : ((accumulate nl pre).push nl it).current =
      overlapSeed nl (accumulate nl pre).current ++ [it] := by rw [hp]
  rw [hc, List.append_assoc] at he
  rw [emissions, accumulate, List.foldl_append, List.foldl_cons]
  exact he

/-- The tail the source takes when no cut inside an atomic item of the block forbids it. -/
def blindTail (items : List (Item α)) : Option (List α) :=
  let joined := joinText nl items
  if joined.length ≤ splitOverlapChars then some joined
  else
    let tailStart := joined.length - splitOverlapChars
    match backOff tailStart items (joinOffsets nl items) with
    | some _ => none
    | none => some (joined.drop tailStart)

theorem overlapSeed_cases (items : List (Item α)) :
    (∃ t, blindTail nl items = some t ∧ overlapSeed nl items = [⟨lastPage items, t, false⟩] ∧
        t <:+ joinText nl items) ∨
      (blindTail nl items = none ∧ overlapSeed nl items <:+ items) := by
  have hb : ∀ (k : Nat) (l : List (Item α)) (os : List Nat) (rest : List (Item α)),
      backOff k l os = some rest → rest <:+ l := by
    intro k l
    induction l with
    | nil => intro os rest h; simp [backOff] at h
    | cons it l ih =>
      intro os rest h
      cases os with
      | nil => simp [backOff] at h
      | cons o os =>
        simp only [backOff] at h
        split at h
        · cases h; exact List.suffix_cons it l
        · exact (ih os rest h).trans (List.suffix_cons it l)
  unfold blindTail overlapSeed
  simp only
  split
  · exact .inl ⟨_, rfl, rfl, List.suffix_rfl⟩
  · cases h : backOff ((joinText nl items).length - splitOverlapChars) items
        (joinOffsets nl items) with
    | some rest => exact .inr ⟨rfl, hb _ _ _ _ h⟩
    | none => exact .inl ⟨_, rfl, rfl, List.drop_suffix _ _⟩

end

end MainframeRag.Ingest.Chunking
