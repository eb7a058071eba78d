import MainframeRag.Lib.PyText

/-!
# Inert text

A text is inert for a set of tags when it is a row of tags of the set, entities and characters that
mean nothing in markup. Escaping makes a text inert (`escape_inert`); inert texts may be put one
behind the other (`Inert.append`) and cut at a character that no tag and no entity holds
(`Inert.cut`), so rewriting between such characters keeps them inert. In an inert text every `<`, `>`
and `&` belongs to a tag or an entity (`Inert.marked`).
-/

namespace MainframeRag.Markup

open PyText

def entities : List Text := ["&amp;".toList, "&lt;".toList, "&gt;".toList]

/-- A character that means nothing in markup. -/
def Plain (c : Char) : Prop := c ≠ '<' ∧ c ≠ '>' ∧ c ≠ '&'

instance (c : Char) : Decidable (Plain c) := inferInstanceAs (Decidable (_ ∧ _))

inductive Inert (tag : Text → Prop) : Text → Prop
  | nil : Inert tag []
  | plain {c : Char} {t : Text} (hc : Plain c) (h : Inert tag t) : Inert tag (c :: t)
  | entity {e t : Text} (he : e ∈ entities) (h : Inert tag t) : Inert tag (e ++ t)
  | tag {a t : Text} (ha : tag a) (h : Inert tag t) : Inert tag (a ++ t)

section

variable {tag : Text → Prop}

theorem Inert.append {t u : Text} (ht : Inert tag t) (hu : Inert tag u) : Inert tag (t ++ u) := by
  induction ht with
  | nil => exact hu
  | plain hc _ ih => exact .plain hc ih
  | entity he _ ih =>
    rw [List.append_assoc]
    exact .entity he ih
  | tag ha _ ih =>
    rw [List.append_assoc]
    exact .tag ha ih

theorem Inert.mono {tag' : Text → Prop} (hsub : ∀ a, tag a → tag' a) {t : Text} (h : Inert tag t) :
    Inert tag' t := by
  induction h with
  | nil => exact .nil
  | plain hc _ ih => exact .plain hc ih
  | entity he _ ih => exact .entity he ih
  | tag ha _ ih => exact .tag (hsub _ ha) ih

theorem Inert.ofPlain {t : Text} (h : ∀ c ∈ t, Plain c) : Inert tag t := by
  induction t with
  | nil => exact .nil
  | cons c t ih =>
    exact .plain (h c List.mem_cons_self) (ih fun d hd => h d (List.mem_cons_of_mem _ hd))

theorem Inert.ofTag {a : Text} (ha : tag a) : Inert tag a := by
  have h : Inert tag (a ++ []) := .tag ha .nil
  rwa [List.append_nil] at h

theorem Inert.flatten {ts : List Text} (h : ∀ t ∈ ts, Inert tag t) : Inert tag ts.flatten := by
  induction ts with
  | nil => exact .nil
  | cons t ts ih =>
    rw [List.flatten_cons]
    exact (h t List.mem_cons_self).append (ih fun u hu => h u (List.mem_cons_of_mem _ hu))

theorem Inert.intercalate {sep : Text} (hsep : Inert tag sep) {ts : List Text}
    (h : ∀ t ∈ ts, Inert tag t) : Inert tag (sep.intercalate ts) := by
  induction ts with
  | nil => exact .nil
  | cons t ts ih =>
    have ht := h t List.mem_cons_self
    cases ts with
    | nil => rwa [List.intercalate_singleton]
    | cons u us =>
      rw [List.intercalate_cons_cons, List.append_assoc]
      exact ht.append (hsep.append (ih fun v hv => h v (List.mem_cons_of_mem _ hv)))

/-! ## Escaping -/

def escapeChar (c : Char) : Text :=
  if c = '&' then "&amp;".toList
  else if c = '<' then "&lt;".toList
  else if c = '>' then "&gt;".toList
  else [c]

/-- `html.escape(t, quote=False)` -/
def escape (t : Text) : Text := t.flatMap escapeChar

theorem escapeChar_inert (c : Char) : Inert tag (escapeChar c) := by
  have hentity : ∀ {e : Text}, e ∈ entities → Inert tag e := by
    intro e he
    have h : Inert tag (e ++ []) := .entity he .nil
    rwa [List.append_nil] at h
  unfold escapeChar
  by_cases ha : c = '&'
  · rw [if_pos ha]
    exact hentity (by simp [entities])
  rw [if_neg ha]
  by_cases hl : c = '<'
  · rw [if_pos hl]
    exact hentity (by simp [entities])
  rw [if_neg hl]
  by_cases hg : c = '>'
  · rw [if_pos hg]
    exact hentity (by simp [entities])
  rw [if_neg hg]
  exact .plain ⟨hl, hg, ha⟩ .nil

theorem escape_inert (t : Text) : Inert tag (escape t) := by
  unfold escape
  rw [List.flatMap_def]
  refine Inert.flatten fun u hu => ?_
  obtain ⟨c, _, rfl⟩ := List.mem_map.mp hu
  exact escapeChar_inert c

/-! ## Cutting -/

/-- A character that is neither in a tag nor in an entity. -/
structure Joint (tag : Text → Prop) (c : Char) : Prop where
  plain : Plain c
  tag : ∀ a, tag a → c ∉ a
  entity : ∀ e ∈ entities, c ∉ e

/-- A row of pieces is cut in front of a character that the first piece does not hold. -/
theorem append_eq_cut {a t u v : Text} {c : Char} (hc : c ∉ a) (h : a ++ t = u ++ c :: v) :
    ∃ w, u = a ++ w ∧ t = w ++ c :: v := by
  rcases List.append_eq_append_iff.mp h with ⟨w, hu, ht⟩ | ⟨w, ha, hv⟩
  · exact ⟨w, hu, ht⟩
  · cases w with
    | nil =>
      rw [List.append_nil] at ha
      exact ⟨[], by rw [ha, List.append_nil], hv.symm⟩
    | cons d w =>
      cases hv
      refine absurd ?_ hc
      rw [ha]
      exact List.mem_append_right _ List.mem_cons_self

theorem Inert.cut {c : Char} (hj : Joint tag c) {u v : Text} (h : Inert tag (u ++ c :: v)) :
    Inert tag u ∧ Inert tag v := by
  generalize hw : u ++ c :: v = w at h
  induction h generalizing u with
  | nil => simp at hw
  | plain hd h ih =>
    cases u with
    | nil =>
      cases hw
      exact ⟨.nil, h⟩
    | cons d u =>
      cases hw
      obtain ⟨hu, hv⟩ := ih rfl
      exact ⟨.plain hd hu, hv⟩
  | entity he _ ih =>
    obtain ⟨w, rfl, ht⟩ := append_eq_cut (hj.entity _ he) hw.symm
    obtain ⟨hu, hv⟩ := ih ht.symm
    exact ⟨.entity he hu, hv⟩
  | tag ha _ ih =>
    obtain ⟨w, rfl, ht⟩ := append_eq_cut (hj.tag _ ha) hw.symm
    obtain ⟨hu, hv⟩ := ih ht.symm
    exact ⟨.tag ha hu, hv⟩

theorem Inert.cutAll {d : Text} (hj : ∀ c ∈ d, Joint tag c) (hne : d ≠ []) {u v : Text}
    (h : Inert tag (u ++ d ++ v)) : Inert tag u ∧ Inert tag v := by
  induction d generalizing u with
  | nil => exact absurd rfl hne
  | cons c d ih =>
    have h' : Inert tag (u ++ c :: (d ++ v)) := by simpa using h
    obtain ⟨hu, hv⟩ := h'.cut (hj c List.mem_cons_self)
    refine ⟨hu, ?_⟩
    cases d with
    | nil => exact hv
    | cons x d =>
      have hnil : Inert tag ([] ++ x :: d ++ v) := hv
      exact (ih (fun y hy => hj y (List.mem_cons_of_mem _ hy)) (List.cons_ne_nil _ _) hnil).2

/-! ## Where markup stands -/

/-- Tags open with `<`, close with `>` and hold nothing else of markup. -/
def Shaped (tag : Text → Prop) : Prop :=
  ∀ a, tag a → ∃ b, a = '<' :: b ++ ['>'] ∧ ∀ c ∈ b, Plain c

theorem not_mem_entity {e : Text} (he : e ∈ entities) : '<' ∉ e ∧ '>' ∉ e := by
  revert e
  decide

theorem Inert.lt (hs : Shaped tag) {u v : Text} (h : Inert tag (u ++ '<' :: v)) :
    ∃ a, tag a ∧ a <+: '<' :: v := by
  generalize hw : u ++ '<' :: v = w at h
  induction h generalizing u with
  | nil => simp at hw
  | plain hd _ ih =>
    cases u with
    | nil =>
      cases hw
      exact absurd rfl hd.1
    | cons d u =>
      cases hw
      exact ih rfl
  | entity he _ ih =>
    obtain ⟨w, rfl, ht⟩ := append_eq_cut (not_mem_entity he).1 hw.symm
    exact ih ht.symm
  | @tag a t ha _ ih =>
    obtain ⟨b, hb, hplain⟩ := hs a ha
    cases u with
    | nil => exact ⟨a, ha, t, hw.symm⟩
    | cons d u =>
      rw [hb] at hw
      obtain ⟨rfl, htail⟩ := List.cons.inj hw
      have hnot : '<' ∉ b ++ ['>'] := by
        intro hm
        rcases List.mem_append.mp hm with hm | hm
        · exact (hplain _ hm).1 rfl
        · simp at hm
      obtain ⟨w, rfl, ht⟩ := append_eq_cut hnot htail.symm
      exact ih ht.symm

theorem Inert.gt (hs : Shaped tag) {u v : Text} (h : Inert tag (u ++ '>' :: v)) :
    ∃ a, tag a ∧ a <:+ u ++ ['>'] := by
  generalize hw : u ++ '>' :: v = w at h
  induction h generalizing u with
  | nil => simp at hw
  | plain hd _ ih =>
    cases u with
    | nil =>
      cases hw
      exact absurd rfl hd.2.1
    | cons d u =>
      cases hw
      obtain ⟨a, ha, hsuf⟩ := ih rfl
      exact ⟨a, ha, hsuf.trans (List.suffix_cons _ _)⟩
  | entity he _ ih =>
    obtain ⟨w, rfl, ht⟩ := append_eq_cut (not_mem_entity he).2 hw.symm
    obtain ⟨a, ha, hsuf⟩ := ih ht.symm
    exact ⟨a, ha, by
      rw [List.append_assoc]
      exact hsuf.trans (List.suffix_append _ _)⟩
  | @tag a t ha _ ih =>
    obtain ⟨b, hb, hplain⟩ := hs a ha
    have hnot : '>' ∉ '<' :: b := by
      intro hm
      rcases List.mem_cons.mp hm with hm | hm
      · cases hm
      · exact (hplain _ hm).2.1 rfl
    rw [hb, List.append_assoc] at hw
    obtain ⟨w, rfl, ht⟩ := append_eq_cut hnot hw.symm
    cases w with
    | nil => exact ⟨a, ha, by rw [hb, List.append_nil]⟩
    | cons d w =>
      obtain ⟨rfl, htail⟩ := List.cons.inj ht
      obtain ⟨a', ha', hsuf⟩ := ih htail.symm
      refine ⟨a', ha', hsuf.trans ⟨'<' :: b ++ ['>'], ?_⟩⟩
      simp

theorem Inert.amp (hs : Shaped tag) {u v : Text} (h : Inert tag (u ++ '&' :: v)) :
    ∃ e ∈ entities, e <+: '&' :: v := by
  generalize hw : u ++ '&' :: v = w at h
  induction h generalizing u with
  | nil => simp at hw
  | plain hd _ ih =>
    cases u with
    | nil =>
      cases hw
      exact absurd rfl hd.2.2
    | cons d u =>
      cases hw
      exact ih rfl
  | @entity e t he _ ih =>
    cases u with
    | nil => exact ⟨e, he, t, hw.symm⟩
    | cons d u =>
      obtain ⟨b, rfl, hb⟩ : ∃ b, e = '&' :: b ∧ '&' ∉ b := by
        simp only [entities, List.mem_cons, List.not_mem_nil, or_false] at he
        rcases he with rfl | rfl | rfl
        · exact ⟨_, rfl, by decide⟩
        · exact ⟨_, rfl, by decide⟩
        · exact ⟨_, rfl, by decide⟩
      obtain ⟨rfl, htail⟩ := List.cons.inj hw
      obtain ⟨w, rfl, ht⟩ := append_eq_cut hb htail.symm
      exact ih ht.symm
  | @tag a t ha _ ih =>
    obtain ⟨b, hb, hplain⟩ := hs a ha
    have hnot : '&' ∉ a := by
      rw [hb]
      intro hm
      rcases List.mem_append.mp hm with hm | hm
      · rcases List.mem_cons.mp hm with hm | hm
        · cases hm
        · exact (hplain _ hm).2.2 rfl
      · simp at hm
    obtain ⟨w, rfl, ht⟩ := append_eq_cut hnot hw.symm
    exact ih ht.symm

/-- Every `<`, `>` and `&` of a text belongs to a tag or an entity. -/
structure Marked (tag : Text → Prop) (t : Text) : Prop where
  lt : ∀ u v, t = u ++ '<' :: v → ∃ a, tag a ∧ a <+: '<' :: v
  gt : ∀ u v, t = u ++ '>' :: v → ∃ a, tag a ∧ a <:+ u ++ ['>']
  amp : ∀ u v, t = u ++ '&' :: v → ∃ e ∈ entities, e <+: '&' :: v

theorem Inert.marked (hs : Shaped tag) {t : Text} (h : Inert tag t) : Marked tag t where
  lt _ _ ht := Inert.lt hs (ht ▸ h)
  gt _ _ ht := Inert.gt hs (ht ▸ h)
  amp _ _ ht := Inert.amp hs (ht ▸ h)

end

end MainframeRag.Markup
