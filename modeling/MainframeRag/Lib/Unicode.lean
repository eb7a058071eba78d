import MainframeRag.Lib.PyText

/-!
# Normalization forms

The compatibility forms of `unicodedata.normalize`: every character decomposed, the marks behind a
starter put in canonical order and, for the composed form, starters joined with what follows them.
The tables of a Unicode version are the parameter.

A reading of characters that drops the marks and reads a composite as its parts is the same before
and after normalization (`flatMap_nfkd`, `flatMap_nfkc`).
-/

namespace MainframeRag.Unicode

open PyText

structure Tables where
  /-- canonical combining class; a starter has class 0 -/
  combining : Char → Nat
  /-- full compatibility decomposition -/
  decompose : Char → Text
  /-- primary composites, Hangul syllables included -/
  compose : Char → Char → Option Char

variable (U : Tables)

/-! ## Canonical order -/

/-- `c` before a text in canonical order: behind the marks of a lower class. -/
def putMark (c : Char) : Text → Text
  | [] => [c]
  | d :: t => if U.combining d ≠ 0 ∧ U.combining d < U.combining c then d :: putMark c t else c :: d :: t

def canonicalOrder : Text → Text
  | [] => []
  | c :: t => putMark U c (canonicalOrder t)

def nfkd (t : Text) : Text := canonicalOrder U (t.flatMap U.decompose)

/-! ## Composition -/

/-- No mark of the same or a higher class stands between the starter and `c`. -/
def unblocked (marks : Text) (c : Char) : Bool :=
  marks.getLast?.all fun m => U.combining m < U.combining c

/-- Composition behind the last starter, with the marks that stayed behind it. -/
def composeFrom (starter : Char) (marks : Text) : Text → Text
  | [] => starter :: marks
  | c :: t =>
    match if unblocked U marks c then U.compose starter c else none with
    | some composite => composeFrom composite marks t
    | none =>
      if U.combining c = 0 then starter :: marks ++ composeFrom c [] t
      else composeFrom starter (marks ++ [c]) t

def canonicalCompose : Text → Text
  | [] => []
  | c :: t => if U.combining c = 0 then composeFrom U c [] t else c :: canonicalCompose t

def nfkc (t : Text) : Text := canonicalCompose U (nfkd U t)

/-! ## Readings -/

variable {U} {β : Type} {f : Char → List β}

/-- Every mark of `t` is dropped. -/
def DropsMarks (U : Tables) (f : Char → List β) (t : Text) : Prop :=
  ∀ c ∈ t, U.combining c ≠ 0 → f c = []

theorem DropsMarks.tail {c : Char} {t : Text} (h : DropsMarks U f (c :: t)) : DropsMarks U f t :=
  fun d hd => h d (List.mem_cons_of_mem c hd)

theorem mem_putMark {c d : Char} {t : Text} : d ∈ putMark U c t ↔ d = c ∨ d ∈ t := by
  induction t with
  | nil => simp [putMark]
  | cons e t ih =>
    unfold putMark
    split
    · rw [List.mem_cons, ih, List.mem_cons]
      exact or_left_comm
    · rw [List.mem_cons]

theorem mem_canonicalOrder {d : Char} {t : Text} : d ∈ canonicalOrder U t ↔ d ∈ t := by
  induction t with
  | nil => rfl
  | cons c t ih => rw [canonicalOrder, mem_putMark, ih, List.mem_cons]

theorem flatMap_putMark {c : Char} {t : Text} (h : DropsMarks U f t) :
    (putMark U c t).flatMap f = f c ++ t.flatMap f := by
  induction t with
  | nil => rfl
  | cons d t ih =>
    unfold putMark
    split
    · next hd =>
      have hdrop : f d = [] := h d List.mem_cons_self hd.1
      rw [List.flatMap_cons, ih h.tail, List.flatMap_cons, hdrop]
      rfl
    · rfl

/-- Only dropped characters change places. -/
theorem flatMap_canonicalOrder {t : Text} (h : DropsMarks U f t) :
    (canonicalOrder U t).flatMap f = t.flatMap f := by
  induction t with
  | nil => rfl
  | cons c t ih =>
    have hrest : DropsMarks U f (canonicalOrder U t) := fun d hd =>
      h d (List.mem_cons_of_mem c (mem_canonicalOrder.mp hd))
    rw [canonicalOrder, flatMap_putMark hrest, ih h.tail, List.flatMap_cons]

theorem flatMap_nfkd {t : Text} (h : DropsMarks U f (t.flatMap U.decompose)) :
    (nfkd U t).flatMap f = t.flatMap fun c => (U.decompose c).flatMap f := by
  rw [nfkd, flatMap_canonicalOrder h, List.flatMap_assoc]

/-- A composite reads as its parts. -/
def ReadsParts (U : Tables) (f : Char → List β) : Prop :=
  ∀ a b c, U.compose a b = some c → f c = f a ++ f b

theorem flatMap_composeFrom (hf : ReadsParts U f) {starter : Char} {marks t : Text}
    (hmarks : marks.flatMap f = []) (h : DropsMarks U f t) :
    (composeFrom U starter marks t).flatMap f = f starter ++ t.flatMap f := by
  induction t generalizing starter marks with
  | nil => rw [composeFrom, List.flatMap_cons, hmarks]; rfl
  | cons c t ih =>
    unfold composeFrom
    split
    · next composite hc =>
      rw [Option.ite_none_right_eq_some] at hc
      rw [ih hmarks h.tail, hf _ _ _ hc.2, List.flatMap_cons, List.append_assoc]
    · split
      · rw [List.flatMap_append, List.flatMap_cons, hmarks, ih rfl h.tail, List.append_nil]
        rfl
      · next hc =>
        have hdrop : f c = [] := h c List.mem_cons_self hc
        rw [ih (by rw [List.flatMap_append, hmarks, List.flatMap_singleton, hdrop]; rfl) h.tail,
          List.flatMap_cons, hdrop]
        rfl

theorem flatMap_canonicalCompose (hf : ReadsParts U f) {t : Text} (h : DropsMarks U f t) :
    (canonicalCompose U t).flatMap f = t.flatMap f := by
  induction t with
  | nil => rfl
  | cons c t ih =>
    unfold canonicalCompose
    split
    · rw [flatMap_composeFrom hf rfl h.tail, List.flatMap_cons]
    · rw [List.flatMap_cons, ih h.tail, List.flatMap_cons]

theorem flatMap_nfkc (hf : ReadsParts U f) {t : Text} (h : DropsMarks U f (t.flatMap U.decompose)) :
    (nfkc U t).flatMap f = t.flatMap fun c => (U.decompose c).flatMap f := by
  have hnfkd : DropsMarks U f (nfkd U t) := fun c hc => h c (mem_canonicalOrder.mp hc)
  rw [nfkc, flatMap_canonicalCompose hf hnfkd, flatMap_nfkd h]

end MainframeRag.Unicode
