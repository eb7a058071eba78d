import MainframeRag.Ingest.Chunking.Ink
import MainframeRag.Ingest.Chunking.Provenance

/-!
# No text is lost

Every item of the accumulation loop is emitted: whole inside one block, or, as oversize prose, as
consecutive slices. Overlap only repeats what was emitted before, so the first occurrences of the
item characters in the blocks are the items in their order.
-/

namespace MainframeRag.Ingest.Chunking

open PyText

/-! ## Whole items -/

section

variable {α : Type} (nl : α)

theorem Acc.flush_out_prefix (s : Acc α) : s.out <+: s.flush.out := by
  unfold flush
  split
  · exact List.prefix_rfl
  · exact List.prefix_append _ _

theorem Acc.push_out_prefix (s : Acc α) (it : Item α) : s.out <+: (s.push nl it).out := by
  unfold push
  split_ifs
  · exact s.flush_out_prefix.trans (List.prefix_append _ _)
  · exact s.flush_out_prefix.trans (List.prefix_append _ _)
  · exact List.prefix_append _ _
  · exact List.prefix_rfl

/-- What is emitted stays emitted. -/
theorem Acc.foldl_out_prefix (items : List (Item α)) (s : Acc α) :
    s.out <+: (items.foldl (Acc.push nl) s).flush.out := by
  induction items generalizing s with
  | nil => exact s.flush_out_prefix
  | cons it items ih => exact (s.push_out_prefix nl it).trans (ih _)

theorem text_joinRest {prev : Bool} {items : List (Item α)} {it : Item α} (h : it ∈ items) :
    it.text <:+: joinRest nl prev items := by
  induction items generalizing prev with
  | nil => cases h
  | cons i items ih =>
    rw [joinRest]
    rcases List.mem_cons.mp h with rfl | h
    · exact (List.suffix_append _ _).isInfix.trans (List.prefix_append _ _).isInfix
    · exact (ih h).trans (List.suffix_append _ _).isInfix

theorem text_joinText {items : List (Item α)} {it : Item α} (h : it ∈ items) :
    it.text <:+: joinText nl items := by
  cases items with
  | nil => cases h
  | cons i items =>
    rw [joinText]
    rcases List.mem_cons.mp h with rfl | h
    · exact (List.prefix_append _ _).isInfix
    · exact (text_joinRest nl h).trans (List.suffix_append _ _).isInfix

theorem slices_flatten {n : Nat} (hn : 0 < n) (fuel : Nat) (t : List α) (hf : t.length ≤ fuel) :
    (slices n fuel t).flatten = t := by
  induction fuel generalizing t with
  | zero => exact (List.eq_nil_of_length_eq_zero (by omega)).symm
  | succ fuel ih =>
    cases t with
    | nil => rfl
    | cons c t =>
      have hl : ((c :: t).drop n).length ≤ fuel := by
        rw [List.length_cons] at hf
        rw [List.length_drop, List.length_cons]
        omega
      rw [slices, List.flatten_cons, ih _ hl, List.take_append_drop]
      exact List.cons_ne_nil c t

/-- An atomic item, or one that fits a block, is inside one block. -/
theorem emitted_whole {pre post : List (Item α)} {it : Item α}
    (h : it.atomic = true ∨ it.text.length ≤ sectionMaxChars) :
    ∃ e ∈ emissions nl (pre ++ it :: post), it.text <:+: e.text nl := by
  rw [emissions, accumulate, List.foldl_append, List.foldl_cons, ← accumulate]
  generalize accumulate nl pre = s
  by_cases hbig : sectionMaxChars < it.text.length
  · have ha : it.atomic = true := h.resolve_right (by omega)
    refine ⟨.whole it, Acc.foldl_out_mem nl ?_ post, List.infix_rfl⟩
    simp [Acc.push, hbig, ha]
  · obtain ⟨xs, hc⟩ : ∃ xs, (s.push nl it).current = xs ++ [it] := by
      unfold Acc.push
      rw [if_neg hbig]
      split
      · exact ⟨_, rfl⟩
      · exact ⟨_, rfl⟩
    obtain ⟨more, -, he⟩ := Acc.current_emitted nl (s := s.push nl it) (by simp [hc]) post
    refine ⟨_, he, text_joinText nl ?_⟩
    simp [hc]

/-- Oversize prose is emitted as consecutive slices. -/
theorem emitted_slices {pre post : List (Item α)} {it : Item α} (ha : it.atomic = false)
    (hbig : sectionMaxChars < it.text.length) :
    ∃ before mid after, emissions nl (pre ++ it :: post) = before ++ mid ++ after ∧
      (mid.map (Emission.text nl)).flatten = it.text := by
  rw [emissions, accumulate, List.foldl_append, List.foldl_cons, ← accumulate]
  generalize accumulate nl pre = s
  obtain ⟨after, he⟩ := Acc.foldl_out_prefix nl post (s.push nl it)
  refine ⟨s.flush.out, (slices sectionMaxChars it.text.length it.text).map (.slice it.page), after,
    ?_, ?_⟩
  · rw [← he]
    simp [Acc.push, hbig, ha]
  · have ht : (Emission.text nl ∘ .slice it.page : List α → List α) = id := rfl
    rw [List.map_map, ht, List.map_id, slices_flatten (by decide) _ _ Nat.le.refl]

end

/-! ## First appearance -/

/-- The item characters, separators left out. -/
def tagged (b : List Tagged) : List Tagged := b.filter (·.1.isSome)

@[simp] theorem tagged_append (a b : List Tagged) : tagged (a ++ b) = tagged a ++ tagged b :=
  List.filter_append ..

@[simp] theorem tagged_tagText (i : Nat) (t : Text) : tagged (tagText i t) = tagText i t := by
  refine List.filter_eq_self.mpr fun x hx => ?_
  obtain ⟨o, ho⟩ := tagText_tag hx
  rw [ho]
  rfl

@[simp] theorem tagged_separator (prev : Bool) (it : Item Tagged) :
    tagged (separator taggedNl prev it) = [] := by
  unfold separator
  split <;> rfl

theorem tagged_subset {a b : List Tagged} (h : a ⊆ b) : tagged a ⊆ tagged b := fun x hx => by
  obtain ⟨h1, h2⟩ := List.mem_filter.mp hx
  exact List.mem_filter.mpr ⟨h h1, h2⟩

/-- What was seen before adds nothing. -/
theorem eraseDups_old {l w : List Tagged} (h : w ⊆ l) : (l ++ w).eraseDups = l.eraseDups := by
  have hw : w.removeAll l = [] := List.filter_eq_nil_iff.mpr fun x hx => by simp [h hx]
  rw [List.eraseDups_append, hw, List.eraseDups_nil, List.append_nil]

theorem eraseDups_nodup {l : List Tagged} (h : l.Nodup) : l.eraseDups = l := by
  induction l with
  | nil => rfl
  | cons x l ih =>
    obtain ⟨hx, hl⟩ := List.nodup_cons.mp h
    have hf : l.filter (fun y => !y == x) = l := List.filter_eq_self.mpr fun y hy => by
      have : y ≠ x := fun e => hx (e ▸ hy)
      simpa using this
    rw [List.eraseDups_cons, hf, ih hl]

/-- New characters are appended. -/
theorem eraseDups_new {l t : List Tagged} (ht : t.Nodup) (hd : ∀ x ∈ t, x ∉ l) :
    (l ++ t).eraseDups = l.eraseDups ++ t := by
  have hw : t.removeAll l = t := List.filter_eq_self.mpr fun x hx => by simp [hd x hx]
  rw [List.eraseDups_append, hw, eraseDups_nodup ht]

theorem tagText_nodup (i : Nat) (t : Text) : (tagText i t).Nodup := by
  have h : ((tagText i t).map Prod.fst).Nodup := by
    have e : (tagText i t).map Prod.fst = (t.zipIdx.map Prod.snd).map (fun o => some (i, o)) := by
      rw [tagText, List.map_map, List.map_map]
      rfl
    rw [e, List.zipIdx_map_snd]
    refine List.Nodup.map (fun a b h => ?_) List.nodup_range'
    simpa using h
  exact List.Nodup.of_map _ h

/-- All the text the loop has emitted or holds. -/
def Acc.text (s : Acc Tagged) : List Tagged :=
  s.out.flatMap (Emission.text taggedNl) ++ joinText taggedNl s.current

theorem Acc.text_flush (s : Acc Tagged) : s.flush.text = s.text := by
  unfold flush
  split
  · rfl
  · simp [text, Emission.text, joinText]

theorem joinRest_concat (prev : Bool) (is : List (Item Tagged)) (it : Item Tagged) :
    tagged (joinRest taggedNl prev (is ++ [it])) =
      tagged (joinRest taggedNl prev is) ++ tagged it.text := by
  induction is generalizing prev with
  | nil =>
    have h := tagged_separator prev it
    simp only [List.nil_append, joinRest, List.append_nil, tagged_append, h]
    rfl
  | cons i is ih => simp [joinRest, ih]

theorem joinText_concat (is : List (Item Tagged)) (it : Item Tagged) :
    tagged (joinText taggedNl (is ++ [it])) =
      tagged (joinText taggedNl is) ++ tagged it.text := by
  cases is with
  | nil => simp [joinText, joinRest, tagged]
  | cons i is => simp [joinText, joinRest_concat]

theorem tagged_joinRest (prev : Bool) (is : List (Item Tagged)) :
    tagged (joinRest taggedNl prev is) = is.flatMap (fun i => tagged i.text) := by
  induction is generalizing prev with
  | nil => rfl
  | cons i is ih => simp [joinRest, ih]

theorem tagged_joinText (is : List (Item Tagged)) :
    tagged (joinText taggedNl is) = is.flatMap (fun i => tagged i.text) := by
  cases is with
  | nil => rfl
  | cons i is => simp [joinText, tagged_joinRest]

/-- The overlap repeats characters of the block it follows. -/
theorem seed_subset (is : List (Item Tagged)) :
    tagged (joinText taggedNl (overlapSeed taggedNl is)) ⊆ tagged (joinText taggedNl is) := by
  rcases overlapSeed_cases taggedNl is with ⟨t, -, hs, ht⟩ | ⟨-, hs⟩
  · rw [hs, joinText, joinRest, List.append_nil]
    exact tagged_subset ht.subset
  · rw [tagged_joinText, tagged_joinText]
    intro x hx
    obtain ⟨i, hi, hx⟩ := List.mem_flatMap.mp hx
    exact List.mem_flatMap.mpr ⟨i, hs.subset hi, hx⟩

/-- A step repeats old characters and then adds the item's. -/
theorem Acc.text_push (s : Acc Tagged) (it : Item Tagged) :
    ∃ w, w ⊆ tagged s.text ∧
      tagged (s.push taggedNl it).text = tagged s.text ++ w ++ tagged it.text := by
  have hf := s.text_flush
  have hc : s.flush.current = [] := by
    unfold flush
    split <;> simp_all
  unfold push
  split_ifs with h1 h2 h3
  · refine ⟨[], by simp, ?_⟩
    rw [← hf]
    simp [text, hc, Emission.text, joinText]
  · refine ⟨[], by simp, ?_⟩
    have hs : (slices sectionMaxChars it.text.length it.text).flatMap
        (fun t => Emission.text taggedNl (.slice it.page t)) = it.text := by
      have e := slices_flatten (n := sectionMaxChars) (by decide) _ it.text Nat.le.refl
      rwa [← List.flatMap_id'] at e
    rw [← hf]
    simp [text, hc, joinText, List.flatMap_map, hs]
  · refine ⟨tagged (joinText taggedNl (overlapSeed taggedNl s.current)), ?_, ?_⟩
    · exact List.Subset.trans (seed_subset s.current)
        (tagged_subset (List.subset_append_right _ _))
    · simp [text, Emission.text, joinText_concat]
  · refine ⟨[], by simp, ?_⟩
    simp [text, joinText_concat]

/-- The invariant of the loop: what was emitted or is held shows the items read, in order. -/
theorem accumulate_firsts {items : List (Item Char)} {pre : List (Item Tagged)}
    (hp : pre <+: tagItems items) :
    (tagged (accumulate taggedNl pre).text).eraseDups = pre.flatMap Item.text := by
  induction pre using List.reverseRecOn with
  | nil => rfl
  | append_singleton pre it ih =>
    have ih := ih ((List.prefix_append pre [it]).trans hp)
    obtain ⟨post, hpost⟩ := hp
    rw [List.append_assoc] at hpost
    obtain ⟨it', -, rfl⟩ := tagItems_get hpost.symm
    obtain ⟨w, hw, ht⟩ := (accumulate taggedNl pre).text_push (tagItem pre.length it')
    have hacc : accumulate taggedNl (pre ++ [tagItem pre.length it']) =
        (accumulate taggedNl pre).push taggedNl (tagItem pre.length it') := by
      rw [accumulate, List.foldl_append]
      rfl
    have htext : tagged (tagItem pre.length it').text = tagText pre.length it'.text :=
      tagged_tagText _ _
    have hmem : ∀ x ∈ tagged (accumulate taggedNl pre).text, ∃ i ∈ pre, x ∈ i.text := by
      intro x hx
      rw [← List.mem_eraseDups, ih] at hx
      exact List.mem_flatMap.mp hx
    -- the earlier items carry smaller indices
    have hnew : ∀ x ∈ tagText pre.length it'.text, x ∉ tagged (accumulate taggedNl pre).text ++ w := by
      intro x hx hold
      have hold := (List.mem_append.mp hold).elim id (fun h => hw h)
      obtain ⟨i, hi, hxi⟩ := hmem x hold
      obtain ⟨a, b, rfl⟩ := List.append_of_mem hi
      rw [List.append_assoc] at hpost
      obtain ⟨i', -, rfl⟩ := tagItems_get hpost.symm
      obtain ⟨o, ho⟩ := tagText_tag hx
      obtain ⟨o', ho'⟩ := tagText_tag hxi
      have : (a ++ tagItem a.length i' :: b).length = a.length := by
        simpa using (ho.symm.trans ho')
      simp at this
    rw [hacc, ht, htext, eraseDups_new (tagText_nodup _ _) hnew, eraseDups_old hw, ih]
    simp [tagItem]

/-- First occurrences in the blocks are the items, in order. -/
theorem provenance_firsts (items : List (Item Char)) :
    (tagged ((provenance items).flatMap (Emission.text taggedNl))).eraseDups =
      (tagItems items).flatMap Item.text := by
  have h := accumulate_firsts (List.prefix_refl (tagItems items))
  rw [← Acc.text_flush] at h
  have hc : (accumulate taggedNl (tagItems items)).flush.current = [] := by
    unfold Acc.flush
    split <;> simp_all
  rw [Acc.text, hc] at h
  simpa [joinText, provenance, emissions] using h

/-! ## The whole pass -/

/-- Expansion keeps the ink of the paragraphs; the blocks, seen through the tags of their
characters, hold every item and show the items in order. -/
structure TextKept (U : CharTables) (paras : List (Nat × Text)) (codeSection : Bool) : Prop where
  ink : inks ((expand U paras codeSection).map Item.text) = inks (paras.map Prod.snd)
  blocks : (buildBlocks U paras codeSection).map Block.text =
    (provenance (expand U paras codeSection)).map (fun e => (e.text taggedNl).map Prod.snd)
  whole : ∀ i it, (expand U paras codeSection)[i]? = some it →
    it.atomic = true ∨ it.text.length ≤ sectionMaxChars →
      ∃ e ∈ provenance (expand U paras codeSection), tagText i it.text <:+: e.text taggedNl
  sliced : ∀ i it, (expand U paras codeSection)[i]? = some it →
    it.atomic = false → sectionMaxChars < it.text.length →
      ∃ before mid after, provenance (expand U paras codeSection) = before ++ mid ++ after ∧
        (mid.map (Emission.text taggedNl)).flatten = tagText i it.text
  order : (tagged ((provenance (expand U paras codeSection)).flatMap
    (Emission.text taggedNl))).eraseDups = (tagItems (expand U paras codeSection)).flatMap Item.text

theorem tagItems_split {items : List (Item Char)} {i : Nat} {it : Item Char}
    (h : items[i]? = some it) :
    ∃ pre post, tagItems items = pre ++ tagItem i it :: post := by
  obtain ⟨hi, rfl⟩ := List.getElem?_eq_some_iff.mp h
  refine ⟨(tagItems items).take i, (tagItems items).drop (i + 1), ?_⟩
  have hl : i < (tagItems items).length := by simpa [tagItems] using hi
  have he : (tagItems items)[i] = tagItem i items[i] := by simp [tagItems]
  rw [← he, ← List.drop_eq_getElem_cons hl, List.take_append_drop]

theorem block_text (items : List (Item Char)) :
    ((emissions '\n' items).map (Emission.block '\n')).map Block.text =
      (provenance items).map (fun e => (e.text taggedNl).map Prod.snd) := by
  have hb : ∀ e : Emission Char, (e.block '\n').text = e.text '\n' := by
    intro e
    cases e <;> rfl
  rw [← erase_provenance]
  simp only [List.map_map, Function.comp_def, hb]
  exact List.map_congr_left fun e _ => Emission.text_map taggedNl Prod.snd e

/-- No text is lost between the paragraphs and the blocks. -/
theorem textKept (U : CharTables) (paras : List (Nat × Text)) (codeSection : Bool) :
    TextKept U paras codeSection where
  ink := ink_expand U paras codeSection
  blocks := block_text _
  whole i it h hfit := by
    obtain ⟨pre, post, hs⟩ := tagItems_split h
    have hfit' : (tagItem i it).atomic = true ∨ (tagItem i it).text.length ≤ sectionMaxChars := by
      rwa [tagItem, tagText_length]
    obtain ⟨e, he, hi⟩ := emitted_whole taggedNl hfit'
    exact ⟨e, by rwa [provenance, hs], hi⟩
  sliced i it h ha hbig := by
    obtain ⟨pre, post, hs⟩ := tagItems_split h
    have hbig' : sectionMaxChars < (tagItem i it).text.length := by rwa [tagItem, tagText_length]
    obtain ⟨b, m, a, he, hm⟩ :=
      emitted_slices taggedNl ha hbig'
    exact ⟨b, m, a, by rwa [provenance, hs], hm⟩
  order := provenance_firsts _

end MainframeRag.Ingest.Chunking
