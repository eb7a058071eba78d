import MainframeRag.Lib.PyText

/-!
# Lines of a text

Facts about `splitlines` that the line scanners share: lines hold no break and lie in the text,
joined lines are split again, and stripping a text strips its lines.
-/

namespace MainframeRag.PyText

def NoBreak (t : Text) : Prop := ∀ c ∈ t, isLineBreak c = false

theorem strip_append_space {c : Char} (h : isSpace c = true) (t : Text) :
    strip (t ++ [c]) = strip t := by
  obtain ⟨w, hw, he⟩ := lstrip_spec t
  have hc : blank [c] := by simpa [blank] using h
  rcases List.eq_nil_or_concat (lstrip t) with hn | ⟨s, d, hs⟩
  · -- the text is blank
    have ht : blank t := by
      rw [he, hn, List.append_nil]
      exact hw
    rw [strip_eq_nil.mpr ht, strip_eq_nil]
    intro x hx
    rcases List.mem_append.mp hx with hx | hx
    · exact ht x hx
    · exact hc x hx
  · have hl : lstrip (t ++ [c]) = lstrip t ++ [c] := by
      have hne : lstrip t ≠ [] := by simp [hs]
      unfold lstrip at hne ⊢
      rw [List.dropWhile_append, if_neg (by simpa using hne)]
    rw [strip, hl, rstrip_append_blank hc, strip]

theorem strip_head {t s : Text} {c : Char} (h : strip t = c :: s) : isSpace c = false := by
  obtain ⟨w, -, he⟩ := rstrip_spec (lstrip t)
  rw [← strip, h, lstrip] at he
  have := List.head?_dropWhile_not isSpace t
  rw [he] at this
  simpa using this

theorem strip_strip (t : Text) : strip (strip t) = strip t := by
  rcases List.eq_nil_or_concat' (strip t) with hn | ⟨s, d, hs⟩
  · rw [hn]
    rfl
  · have hd : isSpace d = false := strip_getLast (by rw [hs, List.getLast?_concat])
    have hl : lstrip (strip t) = strip t := by
      cases hc : strip t with
      | nil => rfl
      | cons c u => exact lstrip_of_head (strip_head hc) u
    rw [strip, hl, hs, rstrip_of_last hd]

theorem strip_length (t : Text) : (strip t).length ≤ t.length := by
  obtain ⟨v, w, -, -, he⟩ := strip_spec t
  have := congrArg List.length he
  simp only [List.length_append] at this
  omega

theorem strip_eq_of_length {t : Text} (h : (strip t).length = t.length) : strip t = t := by
  obtain ⟨v, w, -, -, he⟩ := strip_spec t
  have hlen := congrArg List.length he
  simp only [List.length_append] at hlen
  have hv : v = [] := List.eq_nil_of_length_eq_zero (by omega)
  have hw : w = [] := List.eq_nil_of_length_eq_zero (by omega)
  rw [hv, hw, List.nil_append, List.append_nil] at he
  exact he.symm

/-! ## The reader -/

theorem cut_concat (t : Text) (c : Char) : cut (t ++ [c]) = (cut t).feed c := by
  rw [cut_append]
  rfl

theorem Cut.mem_lines {s : Cut} {l : Text} (h : l ∈ s.lines) : l ∈ s.done ∨ (l = s.rest ∧ l ≠ []) := by
  unfold Cut.lines at h
  split at h
  · exact .inl h
  · next hr =>
    rcases List.mem_append.mp h with h | h
    · exact .inl h
    · obtain rfl := List.mem_singleton.mp h
      exact .inr ⟨rfl, hr⟩

theorem Cut.lines_of_rest {s : Cut} (h : s.rest ≠ []) : s.lines = s.done ++ [s.rest] := if_neg h

/-- Lines lie in the text; the unfinished one at its end. -/
theorem cut_within (t : Text) :
    (∀ l ∈ (cut t).done, l <:+: t ∧ NoBreak l) ∧ (cut t).rest <:+ t ∧ NoBreak (cut t).rest := by
  induction t using List.reverseRecOn with
  | nil => exact ⟨by simp [cut], List.suffix_refl _, by simp [cut, NoBreak]⟩
  | append_singleton t c ih =>
    obtain ⟨hd, hr, hn⟩ := ih
    rw [cut_concat]
    unfold Cut.feed
    split
    · refine ⟨fun l hl => ?_, List.nil_suffix, by simp [NoBreak]⟩
      rcases List.mem_append.mp hl with hl | hl
      · exact ⟨(hd l hl).1.trans (List.infix_append' [] t [c]), (hd l hl).2⟩
      · rw [List.mem_singleton.mp hl]
        exact ⟨hr.isInfix.trans (List.infix_append' [] t [c]), hn⟩
    · next hc =>
      refine ⟨fun l hl => ⟨(hd l hl).1.trans (List.infix_append' [] t [c]), (hd l hl).2⟩, ?_, ?_⟩
      · obtain ⟨p, hp⟩ := hr
        exact ⟨p, by rw [← List.append_assoc, hp]⟩
      · intro x hx
        rcases List.mem_append.mp hx with hx | hx
        · exact hn x hx
        · rw [List.mem_singleton.mp hx]
          simpa using hc

theorem cutLines_within {t l : Text} (h : l ∈ cutLines t) : l <:+: t ∧ NoBreak l := by
  obtain ⟨hd, hr, hn⟩ := cut_within t
  rcases Cut.mem_lines h with h | ⟨rfl, -⟩
  · exact hd l h
  · exact ⟨hr.isInfix, hn⟩

theorem splitlines_noBreak {t l : Text} (h : l ∈ splitlines t) : NoBreak l := (cutLines_within h).2

theorem universalNewlines_length (t : Text) : (universalNewlines t).length ≤ t.length := by
  fun_induction universalNewlines t with
  | case1 => exact Nat.le.refl
  | case2 t ih => simp; omega
  | case3 c t _ ih => simpa using ih

theorem universalNewlines_noFeed {t : Text} (h : '\n' ∉ universalNewlines t) :
    universalNewlines t = t := by
  refine universalNewlines_id fun hr => h ?_
  fun_induction universalNewlines t with
  | case1 => cases hr
  | case2 t ih => exact List.mem_cons_self
  | case3 c t _ ih =>
    rcases List.mem_cons.mp hr with rfl | hr
    · simp
    · exact List.mem_cons_of_mem _ (ih (fun hn => h (List.mem_cons_of_mem _ hn)) hr)

theorem splitlines_length {t l : Text} (h : l ∈ splitlines t) : l.length ≤ t.length :=
  (cutLines_within h).1.length_le.trans (universalNewlines_length t)

/-- A line as long as the text is the text. -/
theorem splitlines_eq {t l : Text} (h : l ∈ splitlines t) (hlen : t.length ≤ l.length) : l = t := by
  obtain ⟨hi, hn⟩ := cutLines_within h
  have hu : l = universalNewlines t :=
    hi.eq_of_length (Nat.le_antisymm hi.length_le ((universalNewlines_length t).trans hlen))
  rw [hu]
  refine universalNewlines_noFeed fun hm => ?_
  have := hn '\n' (hu ▸ hm)
  revert this
  decide

/-! ## Joined lines -/

theorem Cut.feed_break {c : Char} (h : isLineBreak c = true) (s : Cut) :
    s.feed c = ⟨s.done ++ [s.rest], []⟩ := if_pos h

theorem Cut.feed_plain {c : Char} (h : isLineBreak c = false) (s : Cut) :
    s.feed c = ⟨s.done, s.rest ++ [c]⟩ := if_neg (by simp [h])

theorem feed_done (t : Text) (d : List Text) (r : Text) :
    t.foldl Cut.feed ⟨d, r⟩ =
      ⟨d ++ (t.foldl Cut.feed ⟨[], r⟩).done, (t.foldl Cut.feed ⟨[], r⟩).rest⟩ := by
  induction t generalizing d r with
  | nil => simp
  | cons c t ih =>
    rw [List.foldl_cons, List.foldl_cons]
    cases hc : isLineBreak c with
    | true =>
      rw [Cut.feed_break hc, Cut.feed_break hc, ih, ih ([] ++ [r])]
      simp
    | false => rw [Cut.feed_plain hc, Cut.feed_plain hc, ih]

theorem cutLines_break {l : Text} (h : NoBreak l) (t : Text) :
    cutLines (l ++ '\n' :: t) = l :: cutLines t := by
  have hb : isLineBreak '\n' = true := by decide
  have hl : cut l = ⟨[], l⟩ := by
    rw [cut, Cut.foldl_feed_noBreak h]
    rfl
  rw [cutLines, cut_append, hl, List.foldl_cons, Cut.feed, if_pos hb, feed_done]
  unfold Cut.lines cutLines Cut.lines cut
  dsimp only
  split <;> rfl

theorem cutLines_noBreak {l : Text} (h : NoBreak l) : ∀ k ∈ cutLines l, k = l := by
  intro k hk
  rw [cutLines, cut, Cut.foldl_feed_noBreak h] at hk
  rcases Cut.mem_lines hk with hk | ⟨hk, -⟩
  · cases hk
  · exact hk

theorem joinLines_cons (x y : Text) (ys : List Text) :
    joinLines (x :: y :: ys) = x ++ '\n' :: joinLines (y :: ys) := by
  simp [joinLines, List.intercalate]

theorem joinLines_noReturn {ls : List Text} (h : ∀ l ∈ ls, NoBreak l) : '\r' ∉ joinLines ls := by
  have hr : ∀ l : Text, NoBreak l → '\r' ∉ l := fun l hl hm => by
    have := hl '\r' hm
    revert this
    decide
  induction ls with
  | nil => simp [joinLines]
  | cons x xs ih =>
    have hx := hr x (h x List.mem_cons_self)
    have hxs := ih fun l hl => h l (List.mem_cons_of_mem _ hl)
    cases xs with
    | nil => simpa [joinLines] using hx
    | cons y ys =>
      rw [joinLines_cons]
      simp [hx, hxs]

theorem splitlines_joinLines {ls : List Text} (h : ∀ l ∈ ls, NoBreak l) :
    ∀ l ∈ splitlines (joinLines ls), l ∈ ls := by
  rw [splitlines, universalNewlines_id (joinLines_noReturn h)]
  induction ls with
  | nil => exact fun l hl => by simp [joinLines, cutLines, cut, Cut.lines] at hl
  | cons x xs ih =>
    cases xs with
    | nil =>
      intro l hl
      rw [show joinLines [x] = x by simp [joinLines]] at hl
      rw [cutLines_noBreak (h x List.mem_cons_self) l hl]
      exact List.mem_cons_self
    | cons y ys =>
      intro l hl
      rw [joinLines_cons, cutLines_break (h x List.mem_cons_self)] at hl
      rcases List.mem_cons.mp hl with rfl | hl
      · exact List.mem_cons_self
      · exact List.mem_cons_of_mem _ (ih (fun l hl => h l (List.mem_cons_of_mem _ hl)) l hl)

/-! ## Stripped texts -/

/-- Each line of one reader state is, stripped, a line of the other. -/
structure Cut.Covers (s s' : Cut) : Prop where
  done : ∀ l ∈ s.done, ∃ k ∈ s'.done, strip k = strip l
  rest : ∃ v, blank v ∧ s'.rest = v ++ s.rest

theorem Cut.Covers.feed {s s' : Cut} (h : Covers s s') (c : Char) :
    Covers (s.feed c) (s'.feed c) := by
  obtain ⟨v, hv, hr⟩ := h.rest
  unfold Cut.feed
  split
  · refine ⟨fun l hl => ?_, [], by simp [blank], rfl⟩
    rcases List.mem_append.mp hl with hl | hl
    · obtain ⟨k, hk, he⟩ := h.done l hl
      exact ⟨k, List.mem_append_left _ hk, he⟩
    · rw [List.mem_singleton.mp hl]
      exact ⟨s'.rest, List.mem_append_right _ List.mem_cons_self, by rw [hr, strip_blank_append hv]⟩
  · exact ⟨h.done, v, hv, by simp [hr]⟩

theorem Cut.Covers.lines {s s' : Cut} (h : Covers s s') :
    ∀ l ∈ s.lines, ∃ k ∈ s'.lines, strip k = strip l := by
  intro l hl
  obtain ⟨v, hv, hr⟩ := h.rest
  have hdone : ∀ k ∈ s'.done, k ∈ s'.lines := fun k hk => by
    unfold Cut.lines
    split
    · exact hk
    · exact List.mem_append_left _ hk
  rcases Cut.mem_lines hl with hl | ⟨rfl, hne⟩
  · obtain ⟨k, hk, he⟩ := h.done l hl
    exact ⟨k, hdone k hk, he⟩
  · have hne' : s'.rest ≠ [] := fun hn => hne (List.append_eq_nil_iff.mp (hr ▸ hn)).2
    exact ⟨s'.rest, by simp [Cut.lines_of_rest hne'], by rw [hr, strip_blank_append hv]⟩

theorem cutLines_cons_space {c : Char} (hc : isSpace c = true) (t : Text) :
    ∀ l ∈ cutLines t, ∃ k ∈ cutLines (c :: t), strip k = strip l := by
  have hstart : Cut.Covers ⟨[], []⟩ (Cut.feed ⟨[], []⟩ c) := by
    unfold Cut.feed
    split
    · exact ⟨by simp, [], by simp [blank], rfl⟩
    · exact ⟨by simp, [c], by simpa [blank] using hc, rfl⟩
  have hall : Cut.Covers (cut t) (cut (c :: t)) := by
    rw [cut, cut, List.foldl_cons]
    generalize Cut.feed ⟨[], []⟩ c = s' at hstart
    generalize (⟨[], []⟩ : Cut) = s at hstart ⊢
    induction t generalizing s s' with
    | nil => exact hstart
    | cons d t ih => exact ih _ _ (hstart.feed d)
  exact hall.lines

theorem cutLines_append_space {c : Char} (hc : isSpace c = true) (t : Text) :
    ∀ l ∈ cutLines t, ∃ k ∈ cutLines (t ++ [c]), strip k = strip l := by
  intro l hl
  rw [cutLines, cut_concat]
  unfold Cut.feed
  split
  · rcases Cut.mem_lines hl with hl | ⟨rfl, -⟩
    · exact ⟨l, by simp [Cut.lines, hl], rfl⟩
    · exact ⟨_, by simp [Cut.lines], rfl⟩
  · rcases Cut.mem_lines hl with hl | ⟨rfl, -⟩
    · exact ⟨l, by simp [Cut.lines, hl], rfl⟩
    · exact ⟨(cut t).rest ++ [c], by simp [Cut.lines], strip_append_space hc _⟩

theorem cutLines_blank {v w : Text} (hv : blank v) (hw : blank w) (t : Text) :
    ∀ l ∈ cutLines t, ∃ k ∈ cutLines (v ++ t ++ w), strip k = strip l := by
  intro l hl
  have hfront : ∃ k ∈ cutLines (v ++ t), strip k = strip l := by
    induction v with
    | nil => exact ⟨l, hl, rfl⟩
    | cons c v ih =>
      obtain ⟨k, hk, he⟩ := ih (fun x hx => hv x (List.mem_cons_of_mem _ hx))
      obtain ⟨k', hk', he'⟩ := cutLines_cons_space (hv c List.mem_cons_self) (v ++ t) k hk
      exact ⟨k', hk', he'.trans he⟩
  induction w using List.reverseRecOn with
  | nil => simpa using hfront
  | append_singleton w c ih =>
    obtain ⟨k, hk, he⟩ := ih (fun x hx => hw x (List.mem_append_left _ hx))
    obtain ⟨k', hk', he'⟩ := cutLines_append_space (hw c (by simp)) (v ++ t ++ w) k hk
    exact ⟨k', by rwa [← List.append_assoc], he'.trans he⟩

/-- The lines of a stripped text are lines of the text, up to blanks around them. -/
theorem splitlines_strip {t : Text} (h : '\r' ∉ t) :
    ∀ l ∈ splitlines (strip t), ∃ k ∈ splitlines t, strip k = strip l := by
  obtain ⟨v, w, hv, hw, he⟩ := strip_spec t
  have hs : '\r' ∉ strip t := fun hm => h (by rw [he]; simp [hm])
  rw [splitlines, splitlines, universalNewlines_id h, universalNewlines_id hs]
  intro l hl
  have := cutLines_blank hv hw (strip t) l hl
  rwa [← he] at this

theorem universalNewlines_feed {l : Text} (h : '\r' ∉ l) (t : Text) :
    ∃ u, universalNewlines (t ++ '\n' :: l) = u ++ '\n' :: l := by
  have hl : universalNewlines ('\n' :: l) = '\n' :: l :=
    universalNewlines_id (by simp [h])
  fun_induction universalNewlines t with
  | case1 => exact ⟨[], hl⟩
  | case2 t ih =>
    obtain ⟨u, hu⟩ := ih
    exact ⟨'\n' :: u, by simp [universalNewlines, hu]⟩
  | case3 c t hne ih =>
    obtain ⟨u, hu⟩ := ih
    by_cases hc : c = '\r' ∧ t = []
    · obtain ⟨rfl, rfl⟩ := hc
      exact ⟨[], by simp [universalNewlines, universalNewlines_id h]⟩
    · refine ⟨(if c = '\r' then '\n' else c) :: u, ?_⟩
      rw [List.cons_append, universalNewlines.eq_3 c (t ++ '\n' :: l), hu]
      · rfl
      · intro x hc' hx
        cases t with
        | nil => exact hc ⟨hc', rfl⟩
        | cons e t =>
          rw [List.cons_append, List.cons.injEq] at hx
          exact hne t hc' (by rw [hx.1])

/-- A line behind a break is the last one. -/
theorem splitlines_last {l : Text} (h : NoBreak l) (hne : l ≠ []) (t : Text) :
    ∃ front, splitlines (t ++ '\n' :: l) = front ++ [l] := by
  have hr : '\r' ∉ l := fun hm => by
    have := h '\r' hm
    revert this
    decide
  have hb : isLineBreak '\n' = true := by decide
  obtain ⟨u, hu⟩ := universalNewlines_feed hr t
  refine ⟨(cut u).done ++ [(cut u).rest], ?_⟩
  rw [splitlines, hu, cutLines, cut_append, List.foldl_cons, Cut.feed_break hb,
    Cut.foldl_feed_noBreak h]
  simp [Cut.lines, hne]

end MainframeRag.PyText
