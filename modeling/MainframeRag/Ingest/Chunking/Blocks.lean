import MainframeRag.Lib.PyText
import Mathlib

/-!
# Block accumulation

The loop of `_build_blocks` behind the paragraph expansion: items `(page, text, atomic)` are
joined into blocks of at most `sectionMaxChars` characters, and each flush carries an overlap seed
into the next block.

The loop is written over any alphabet, with its line feed as a parameter `nl`: it looks at lengths,
pages and flags only, so it commutes with every renaming of the characters (`emissions_map`). Runs
on characters that carry their origin then say where the text of each block stems from.

An emission says how the source built a block: from joined items, from a single oversize statement,
or as a slice of oversize prose. `Emission.block` is the tuple the source appends.
-/

namespace MainframeRag.Ingest.Chunking

open PyText

def sectionMaxChars : Nat := 3500

def splitOverlapChars : Nat := 400

structure Item (α : Type) where
  page : Nat
  text : List α
  atomic : Bool
  deriving DecidableEq

inductive UnitKind
  | atomic
  | prose
  deriving DecidableEq

structure UnitSpan where
  start : Nat
  stop : Nat
  kind : UnitKind
  deriving DecidableEq

structure Block (α : Type) where
  pageStart : Nat
  pageEnd : Nat
  text : List α
  spans : List UnitSpan
  deriving DecidableEq

section

variable {α β : Type} (nl : α)

/-! ## Joining items -/

def separator (prevAtomic : Bool) (it : Item α) : List α :=
  if it.atomic && prevAtomic then [nl] else [nl, nl]

def joinRest : Bool → List (Item α) → List α
  | _, [] => []
  | prev, it :: items => separator nl prev it ++ it.text ++ joinRest it.atomic items

/-- The text `_join_items` returns. -/
def joinText : List (Item α) → List α
  | [] => []
  | it :: items => it.text ++ joinRest nl it.atomic items

def offsetsRest (pos : Nat) : Bool → List (Item α) → List Nat
  | _, [] => []
  | prev, it :: items =>
    let start := pos + (separator nl prev it).length
    start :: offsetsRest (start + it.text.length) it.atomic items

/-- Each item's start offset in the joined text. -/
def joinOffsets : List (Item α) → List Nat
  | [] => []
  | it :: items => 0 :: offsetsRest nl it.text.length it.atomic items

/-- `_block_span`: the least and the greatest page; the source calls it on non-empty lists. -/
def blockSpan : List (Item α) → Nat × Nat
  | [] => (0, 0)
  | it :: items =>
    items.foldl (fun s i => (min s.1 i.page, max s.2 i.page)) (it.page, it.page)

def itemSpan (it : Item α) (offset : Nat) : UnitSpan :=
  ⟨offset, offset + it.text.length, if it.atomic then .atomic else .prose⟩

def itemSpans (items : List (Item α)) (offsets : List Nat) : List UnitSpan :=
  List.zipWith itemSpan items offsets

/-! ## The overlap seed -/

/-- The items behind the atomic item that a cut at `tailStart` falls strictly inside. -/
def backOff (tailStart : Nat) : List (Item α) → List Nat → Option (List (Item α))
  | it :: items, offset :: offsets =>
    if offset ≤ tailStart ∧ tailStart < offset + it.text.length ∧ it.atomic = true ∧
        offset < tailStart then some items
    else backOff tailStart items offsets
  | _, _ => none

def lastPage : List (Item α) → Nat
  | [] => 0
  | [it] => it.page
  | _ :: items => lastPage items

def overlapSeed (items : List (Item α)) : List (Item α) :=
  let joined := joinText nl items
  if joined.length ≤ splitOverlapChars then [⟨lastPage items, joined, false⟩]
  else
    let tailStart := joined.length - splitOverlapChars
    match backOff tailStart items (joinOffsets nl items) with
    | some rest => rest
    | none => [⟨lastPage items, joined.drop tailStart, false⟩]

/-! ## The loop -/

inductive Emission (α : Type)
  /-- a flush of the accumulated items -/
  | joined (items : List (Item α))
  /-- one oversize statement, emitted whole -/
  | whole (it : Item α)
  /-- one slice of oversize prose -/
  | slice (page : Nat) (text : List α)
  deriving DecidableEq

def Emission.text : Emission α → List α
  | .joined items => joinText nl items
  | .whole it => it.text
  | .slice _ t => t

def Emission.block : Emission α → Block α
  | .joined items =>
    let span := blockSpan items
    ⟨span.1, span.2, joinText nl items, itemSpans items (joinOffsets nl items)⟩
  | .whole it => ⟨it.page, it.page, it.text, [⟨0, it.text.length, .atomic⟩]⟩
  | .slice page t => ⟨page, page, t, []⟩

/-- `text[i : i + n]` for `i = 0, n, 2n, …`; the fuel is the text's length. -/
def slices (n : Nat) : Nat → List α → List (List α)
  | 0, _ => []
  | _ + 1, [] => []
  | fuel + 1, t => t.take n :: slices n fuel (t.drop n)

structure Acc (α : Type) where
  out : List (Emission α) := []
  current : List (Item α) := []
  currentLen : Nat := 0

/-- Emits the accumulated items, if any. -/
def Acc.flush (s : Acc α) : Acc α :=
  if s.current = [] then s else ⟨s.out ++ [.joined s.current], [], 0⟩

/-- The next item does not fit behind the accumulated ones. -/
def Acc.overflows (s : Acc α) (it : Item α) : Prop :=
  it.text.length ≤ sectionMaxChars ∧ sectionMaxChars < s.currentLen + it.text.length ∧
    s.current ≠ []

def textLen (items : List (Item α)) : Nat := (items.map (fun i => i.text.length)).sum

def seedLen (seed : List (Item α)) (it : Item α) : Nat :=
  match seed with
  | [⟨_, t, false⟩] => t.length + it.text.length + 2
  | _ => textLen (seed ++ [it]) + 2 * (seed ++ [it]).length

def Acc.push (s : Acc α) (it : Item α) : Acc α :=
  if sectionMaxChars < it.text.length then
    if it.atomic then { s.flush with out := s.flush.out ++ [.whole it] }
    else { s.flush with
      out := s.flush.out ++
        (slices sectionMaxChars it.text.length it.text).map (.slice it.page) }
  else if sectionMaxChars < s.currentLen + it.text.length ∧ s.current ≠ [] then
    let seed := overlapSeed nl s.current
    ⟨s.out ++ [.joined s.current], seed ++ [it], seedLen seed it⟩
  else ⟨s.out, s.current ++ [it], s.currentLen + it.text.length + 2⟩

def accumulate (items : List (Item α)) : Acc α := items.foldl (Acc.push nl) {}

/-- What the loop emits, the final flush included. -/
def emissions (items : List (Item α)) : List (Emission α) := (accumulate nl items).flush.out

/-! ## Renaming characters -/

def Item.map (f : α → β) (it : Item α) : Item β := ⟨it.page, it.text.map f, it.atomic⟩

def Emission.map (f : α → β) : Emission α → Emission β
  | .joined items => .joined (items.map (Item.map f))
  | .whole it => .whole (it.map f)
  | .slice page t => .slice page (t.map f)

def Acc.map (f : α → β) (s : Acc α) : Acc β :=
  ⟨s.out.map (Emission.map f), s.current.map (Item.map f), s.currentLen⟩

@[simp] theorem Item.map_page (f : α → β) (it : Item α) : (it.map f).page = it.page := rfl
@[simp] theorem Item.map_text (f : α → β) (it : Item α) : (it.map f).text = it.text.map f := rfl
@[simp] theorem Item.map_atomic (f : α → β) (it : Item α) : (it.map f).atomic = it.atomic := rfl

theorem separator_map (f : α → β) (prev : Bool) (it : Item α) :
    separator (f nl) prev (it.map f) = (separator nl prev it).map f := by
  cases h : it.atomic && prev <;> simp [separator, h]

theorem joinRest_map (f : α → β) (prev : Bool) (items : List (Item α)) :
    joinRest (f nl) prev (items.map (Item.map f)) = (joinRest nl prev items).map f := by
  induction items generalizing prev with
  | nil => rfl
  | cons it items ih => simp [joinRest, separator_map, ih]

theorem joinText_map (f : α → β) (items : List (Item α)) :
    joinText (f nl) (items.map (Item.map f)) = (joinText nl items).map f := by
  cases items with
  | nil => rfl
  | cons it items => simp [joinText, joinRest_map]

theorem offsetsRest_map (f : α → β) (pos : Nat) (prev : Bool) (items : List (Item α)) :
    offsetsRest (f nl) pos prev (items.map (Item.map f)) = offsetsRest nl pos prev items := by
  induction items generalizing pos prev with
  | nil => rfl
  | cons it items ih => simp [offsetsRest, separator_map, ih]

theorem joinOffsets_map (f : α → β) (items : List (Item α)) :
    joinOffsets (f nl) (items.map (Item.map f)) = joinOffsets nl items := by
  cases items with
  | nil => rfl
  | cons it items => simp [joinOffsets, offsetsRest_map]

theorem backOff_map (f : α → β) (k : Nat) (items : List (Item α)) (offsets : List Nat) :
    backOff k (items.map (Item.map f)) offsets =
      (backOff k items offsets).map (List.map (Item.map f)) := by
  induction items generalizing offsets with
  | nil => rfl
  | cons it items ih =>
    cases offsets with
    | nil => rfl
    | cons o os =>
      simp only [List.map_cons, backOff, Item.map_text, Item.map_atomic, List.length_map]
      split
      · rfl
      · exact ih os

theorem lastPage_map (f : α → β) (items : List (Item α)) :
    lastPage (items.map (Item.map f)) = lastPage items := by
  induction items with
  | nil => rfl
  | cons it items ih =>
    cases items with
    | nil => rfl
    | cons i items => exact ih

theorem overlapSeed_map (f : α → β) (items : List (Item α)) :
    overlapSeed (f nl) (items.map (Item.map f)) = (overlapSeed nl items).map (Item.map f) := by
  simp only [overlapSeed, joinText_map, joinOffsets_map, lastPage_map, backOff_map,
    List.length_map]
  split
  · simp [Item.map]
  · cases backOff ((joinText nl items).length - splitOverlapChars) items (joinOffsets nl items) with
    | none => simp [Item.map, List.map_drop]
    | some rest => rfl

theorem slices_map (f : α → β) (n fuel : Nat) (t : List α) :
    slices n fuel (t.map f) = (slices n fuel t).map (List.map f) := by
  induction fuel generalizing t with
  | zero => rfl
  | succ fuel ih =>
    cases t with
    | nil => rfl
    | cons c t =>
      have h := ih ((c :: t).drop n)
      rw [List.map_drop] at h
      simp only [slices, List.map_cons] at h ⊢
      rw [h, ← List.map_cons, List.map_take]

theorem textLen_map (f : α → β) (items : List (Item α)) :
    textLen (items.map (Item.map f)) = textLen items := by
  simp [textLen, Function.comp_def]

theorem seedLen_map (f : α → β) (seed : List (Item α)) (it : Item α) :
    seedLen (seed.map (Item.map f)) (it.map f) = seedLen seed it := by
  have h : ∀ l : List (Item α), textLen (l.map (Item.map f) ++ [it.map f]) =
      textLen (l ++ [it]) := by
    intro l
    have := textLen_map f (l ++ [it])
    simpa using this
  rcases seed with _ | ⟨⟨p, t, a⟩, _ | ⟨i, rest⟩⟩
  · simp [seedLen, textLen]
  · cases a <;> simp [seedLen, Item.map, textLen]
  · have := h (⟨p, t, a⟩ :: i :: rest)
    simp only [List.map_cons, List.cons_append] at this
    simp [seedLen, this]

theorem Acc.flush_map (f : α → β) (s : Acc α) : (s.map f).flush = s.flush.map f := by
  by_cases h : s.current = [] <;> simp [flush, map, h, Emission.map]

theorem Acc.push_map (f : α → β) (s : Acc α) (it : Item α) :
    (s.map f).push (f nl) (it.map f) = (s.push nl it).map f := by
  unfold push
  simp only [Item.map_text, Item.map_atomic, List.length_map, flush_map]
  split
  · split
    · simp [map, Emission.map]
    · simp [map, slices_map, Emission.map, Function.comp_def]
  · have hc : (s.map f).current ≠ [] ↔ s.current ≠ [] := by simp [map]
    simp only [hc]
    have hl : (s.map f).currentLen = s.currentLen := rfl
    rw [hl]
    split
    · simp [map, Emission.map, overlapSeed_map, seedLen_map]
    · simp [map]

theorem accumulate_map (f : α → β) (items : List (Item α)) :
    accumulate (f nl) (items.map (Item.map f)) = (accumulate nl items).map f := by
  suffices h : ∀ s : Acc α, (items.map (Item.map f)).foldl (Acc.push (f nl)) (s.map f) =
      (items.foldl (Acc.push nl) s).map f from h {}
  induction items with
  | nil => intro s; rfl
  | cons it items ih =>
    intro s
    rw [List.map_cons, List.foldl_cons, Acc.push_map, ih, List.foldl_cons]

/-- The loop commutes with renaming characters. -/
theorem emissions_map (f : α → β) (items : List (Item α)) :
    emissions (f nl) (items.map (Item.map f)) = (emissions nl items).map (Emission.map f) := by
  rw [emissions, accumulate_map, Acc.flush_map]
  rfl

theorem Emission.text_map (f : α → β) (e : Emission α) :
    (e.map f).text (f nl) = (e.text nl).map f := by
  cases e with
  | joined items => exact joinText_map nl f items
  | whole it => rfl
  | slice p t => rfl

theorem blockSpan_map (f : α → β) (items : List (Item α)) :
    blockSpan (items.map (Item.map f)) = blockSpan items := by
  cases items with
  | nil => rfl
  | cons it items => simp [blockSpan, List.foldl_map]

end

end MainframeRag.Ingest.Chunking
