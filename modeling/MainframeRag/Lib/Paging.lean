import Mathlib.Data.List.Sort
import Mathlib.Order.Basic

/-!
# Paging

Reading an ordered collection page by page. `scroll` is a store's answer from a position on.
`Pages` follows the positions a server hands out: where each page takes some of what is left and the
next position stands before the rest, the pages end and show everything once (`exists_pages`).
-/

namespace MainframeRag.Paging

/-! ## Positions in an ordered list -/

section

variable {α κ : Type} [LinearOrder κ] (key : α → κ)

/-- The items from a key on, or all. -/
def fromKey (xs : List α) : Option κ → List α
  | none => xs
  | some k => xs.filter fun x => k ≤ key x

/-- The first items from a position on and the key of the next one. -/
def scroll (xs : List α) (limit : Nat) (position : Option κ) : List α × Option κ :=
  ((fromKey key xs position).take limit, ((fromKey key xs position).drop limit).head?.map key)

def Ordered (xs : List α) : Prop := xs.Pairwise fun x y => key x < key y

variable {key} {xs : List α}

theorem fromKey_suffix (h : Ordered key xs) (position : Option κ) :
    ∃ before, xs = before ++ fromKey key xs position := by
  cases position with
  | none => exact ⟨[], rfl⟩
  | some k =>
    induction xs with
    | nil => exact ⟨[], rfl⟩
    | cons x xs ih =>
      obtain ⟨hx, hxs⟩ := List.pairwise_cons.mp h
      by_cases hk : k ≤ key x
      · have hall : (x :: xs).filter (fun y => k ≤ key y) = x :: xs := by
          refine List.filter_eq_self.mpr fun y hy => ?_
          rcases List.mem_cons.mp hy with rfl | hy
          · exact decide_eq_true hk
          · exact decide_eq_true (hk.trans (hx y hy).le)
        exact ⟨[], hall.symm⟩
      · obtain ⟨before, hbefore⟩ := ih hxs
        refine ⟨x :: before, ?_⟩
        show _ = x :: (before ++ (x :: xs).filter fun y => k ≤ key y)
        rw [List.filter_cons_of_neg (by simpa using hk)]
        exact congrArg (x :: ·) hbefore

/-- From the key of an item on, the list goes on with this item. -/
theorem fromKey_key (h : Ordered key xs) {position : Option κ} {before after : List α} {x : α}
    (hx : fromKey key xs position = before ++ x :: after) :
    fromKey key xs (some (key x)) = x :: after := by
  obtain ⟨first, hfirst⟩ := fromKey_suffix h position
  have hsplit : xs = (first ++ before) ++ x :: after := by rw [hfirst, hx, List.append_assoc]
  rw [Ordered, hsplit, List.pairwise_append, List.pairwise_cons] at h
  obtain ⟨-, ⟨hafter, -⟩, hbefore⟩ := h
  show xs.filter _ = _
  rw [hsplit, List.filter_append]
  have hgone : (first ++ before).filter (fun y => key x ≤ key y) = [] := by
    refine List.filter_eq_nil_iff.mpr fun y hy => ?_
    simpa using hbefore y hy x List.mem_cons_self
  have hkept : (x :: after).filter (fun y => key x ≤ key y) = x :: after := by
    refine List.filter_eq_self.mpr fun y hy => ?_
    rcases List.mem_cons.mp hy with rfl | hy
    · exact decide_eq_true le_rfl
    · exact decide_eq_true (hafter y hy).le
  rw [hgone, hkept, List.nil_append]

end

/-! ## Following positions -/

section

variable {σ α β : Type}

/-- The pages from a position on, the `i`-th request first. -/
inductive Pages (step : Nat → Option σ → List β → Option σ → Prop) :
    Nat → Option σ → List (List β) → Prop
  | last {i : Nat} {position : Option σ} {page : List β} :
      step i position page none → Pages step i position [page]
  | more {i : Nat} {position : Option σ} {page : List β} {next : σ} {pages : List (List β)} :
      step i position page (some next) → Pages step (i + 1) (some next) pages →
        Pages step i position (page :: pages)

/-- A page shows what `g` shows of the items it takes, and the next position stands before the others. -/
structure Takes (Before : Option σ → List α → Prop) (g : α → Option β) (items : List α)
    (page : List β) (next : Option σ) : Prop where
  split : ∃ taken left, items = taken ++ left ∧ page = taken.filterMap g ∧
    (next = none → left = []) ∧ (next ≠ none → taken ≠ [] ∧ Before next left)

variable {step : Nat → Option σ → List β → Option σ → Prop}

theorem exists_pages {Before : Option σ → List α → Prop} {g : α → Option β}
    (hstep : ∀ i position items, Before position items →
      ∃ page next, step i position page next ∧ Takes Before g items page next) :
    ∀ i position items, Before position items →
      ∃ pages, Pages step i position pages ∧ pages.flatten = items.filterMap g := by
  -- the items left decrease, as a page with a next position takes one at least
  intro i position items
  induction hn : items.length using Nat.strong_induction_on generalizing i position items with
  | _ n ih =>
    intro hbefore
    obtain ⟨page, next, hpage, ⟨taken, left, hsplit, hshown, hend, hmore⟩⟩ :=
      hstep i position items hbefore
    cases next with
    | none =>
      refine ⟨[page], .last hpage, ?_⟩
      rw [List.flatten_singleton, hshown, hsplit, hend rfl, List.append_nil]
    | some next =>
      obtain ⟨htaken, hleft⟩ := hmore nofun
      have hlt : left.length < n := by
        have := List.length_pos_iff.mpr htaken
        rw [← hn, hsplit, List.length_append]
        omega
      obtain ⟨pages, hpages, hflat⟩ := ih _ hlt (i + 1) (some next) left rfl hleft
      refine ⟨page :: pages, .more hpage hpages, ?_⟩
      rw [List.flatten_cons, hflat, hshown, hsplit, List.filterMap_append]

/-- A server with one answer to a request has one list of pages. -/
theorem Pages.unique
    (hstep : ∀ i position page page' next next', step i position page next →
      step i position page' next' → page = page' ∧ next = next')
    {i : Nat} {position : Option σ} {pages pages' : List (List β)} (h : Pages step i position pages)
    (h' : Pages step i position pages') : pages = pages' := by
  induction h generalizing pages' with
  | last hpage =>
    cases h' with
    | last hpage' => rw [(hstep _ _ _ _ _ _ hpage hpage').1]
    | more hpage' _ => cases (hstep _ _ _ _ _ _ hpage hpage').2
  | more hpage _ ih =>
    cases h' with
    | last hpage' => cases (hstep _ _ _ _ _ _ hpage hpage').2
    | more hpage' hrest =>
      obtain ⟨rfl, hnext⟩ := hstep _ _ _ _ _ _ hpage hpage'
      obtain rfl := Option.some.inj hnext
      rw [ih hrest]

end

end MainframeRag.Paging
