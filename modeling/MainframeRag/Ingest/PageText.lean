import MainframeRag.Lib.Marks
import MainframeRag.Lib.PyText
import Mathlib.Tactic.IntervalCases

/-!
# Page text without invisible characters

`sanitize_page_text` of `ibm_pdf.py` drops escape sequences, controls, bidi overrides and zero-width
characters, in this order and once each, and spells ligatures out. What is left holds none of them
(`Clean`), and a second pass changes nothing. Invisible characters put into a text change nothing
either, unless they stand inside an escape sequence of it (`sanitizePageText_padded_iff`).
-/

namespace MainframeRag.Ingest.PageText

open PyText Regex

/-! ## Patterns -/

def inRange (low high : Nat) (c : Char) : Bool := decide (low ≤ c.toNat) && decide (c.toNat ≤ high)

def esc : Char := '\x1b'

/-- `[0-?]` -/
def isParameter : Char → Bool := inRange 0x30 0x3f

/-- The class from the blank to the slash. -/
def isIntermediate : Char → Bool := inRange 0x20 0x2f

/-- `[@-~]` -/
def isFinal : Char → Bool := inRange 0x40 0x7e

/-- `_CSI_RE` -/
def csiRe : Pattern Char :=
  .seq (.one (· = esc)) (.seq (.one (· = '[')) (.seq (.star (.one isParameter))
    (.seq (.star (.one isIntermediate)) (.one isFinal))))

/-- `_CONTROL_RE` -/
def isControl (c : Char) : Bool :=
  inRange 0x00 0x08 c || inRange 0x0b 0x0b c || inRange 0x0c 0x0c c || inRange 0x0e 0x1f c ||
    inRange 0x7f 0x7f c

/-- `_BIDI_RE` -/
def isBidi (c : Char) : Bool := inRange 0x202a 0x202e c || inRange 0x2066 0x2069 c

/-- `_ZERO_WIDTH_RE` -/
def isZeroWidth (c : Char) : Bool := inRange 0x200b 0x200d c || inRange 0xfeff 0xfeff c

/-- `_LIGATURES` -/
def ligatures : List (Char × Text) :=
  [('\ufb00', ['f', 'f']), ('\ufb01', ['f', 'i']), ('\ufb02', ['f', 'l']),
    ('\ufb03', ['f', 'f', 'i']), ('\ufb04', ['f', 'f', 'l']), ('\ufb05', ['s', 't']),
    ('\ufb06', ['s', 't'])]

/-- `str.translate` at one character. -/
def translated (c : Char) : Text := (ligatures.lookup c).getD [c]

def sanitizePageText (text : Text) : Text :=
  let text := sub csiRe (fun _ => []) text
  let text := sub (.one isControl) (fun _ => []) text
  let text := sub (.one isBidi) (fun _ => []) text
  (sub (.one isZeroWidth) (fun _ => []) text).flatMap translated

/-! ## Invisible characters -/

def isInvisible (c : Char) : Bool := isControl c || isBidi c || isZeroWidth c

/-- An invisible character that opens no escape sequence. -/
def Quiet (c : Char) : Prop := isInvisible c = true ∧ c ≠ esc

/-- A complete escape sequence. -/
def IsCsi (w : Text) : Prop :=
  ∃ params inters final, w = esc :: '[' :: params ++ inters ++ [final] ∧
    (∀ c ∈ params, isParameter c = true) ∧ (∀ c ∈ inters, isIntermediate c = true) ∧
    isFinal final = true

/-- What a character shows behind the escape sequences. -/
def visible (c : Char) : Text := if isInvisible c then [] else translated c

def isLigature (c : Char) : Bool := inRange 0xfb00 0xfb06 c

/-- No invisible character and no ligature. -/
def Clean (t : Text) : Prop := ∀ c ∈ t, isInvisible c = false ∧ isLigature c = false

instance (t : Text) : Decidable (Clean t) :=
  inferInstanceAs (Decidable (∀ c ∈ t, isInvisible c = false ∧ isLigature c = false))

theorem csiRe_words : csiRe.Words IsCsi := by
  have hstar := fun f => Pattern.Words.many (α := Char) false f
  refine ((Pattern.Words.one _).seq ((Pattern.Words.one _).seq ((hstar _).seq
    ((hstar _).seq (Pattern.Words.one _))))).congr fun w => ?_
  constructor
  · rintro ⟨_, _, rfl, ⟨a, rfl, ha⟩, _, _, rfl, ⟨b, rfl, hb⟩, params, _, rfl, hp, inters, _, rfl, hi,
      final, rfl, hf⟩
    exact ⟨params, inters, final, by simp [of_decide_eq_true ha, of_decide_eq_true hb], hp, hi, hf⟩
  · rintro ⟨params, inters, final, rfl, hp, hi, hf⟩
    exact ⟨[esc], _, by simp, ⟨esc, rfl, by decide⟩, ['['], _, rfl, ⟨'[', rfl, by decide⟩, params, _,
      rfl, hp, inters, _, rfl, hi, final, rfl, hf⟩

theorem inRange_iff {low high : Nat} {c : Char} :
    inRange low high c = true ↔ low ≤ c.toNat ∧ c.toNat ≤ high := by
  simp [inRange]

theorem inRange_false {low high : Nat} {c : Char} :
    inRange low high c = false ↔ c.toNat < low ∨ high < c.toNat := by
  simp only [inRange, Bool.and_eq_false_iff, decide_eq_false_iff_not]
  omega

/-- The characters of an escape sequence behind its first. -/
def Printable (c : Char) : Prop := 0x20 ≤ c.toNat ∧ c.toNat ≤ 0x7e

theorem isParameter_printable {c : Char} (h : isParameter c = true) : Printable c := by
  have := inRange_iff.mp h
  unfold Printable
  omega

theorem isIntermediate_printable {c : Char} (h : isIntermediate c = true) : Printable c := by
  have := inRange_iff.mp h
  unfold Printable
  omega

theorem isFinal_printable {c : Char} (h : isFinal c = true) : Printable c := by
  have := inRange_iff.mp h
  unfold Printable
  omega

theorem Printable.not_invisible {c : Char} (h : Printable c) : isInvisible c = false := by
  unfold Printable at h
  simp only [isInvisible, isControl, isBidi, isZeroWidth, Bool.or_eq_false_iff, inRange_false]
  omega

/-- Only the ligatures are spelled out. -/
theorem translated_plain {c : Char} (h : isLigature c = false) : translated c = [c] := by
  have hne : ∀ d : Char, isLigature d = true → (c == d) = false := fun d hd => by
    rw [beq_eq_false_iff_ne]
    rintro rfl
    rw [h] at hd
    cases hd
  unfold translated ligatures
  simp only [List.lookup_cons, List.lookup_nil]
  rw [hne _ (by decide), hne _ (by decide), hne _ (by decide), hne _ (by decide), hne _ (by decide),
    hne _ (by decide), hne _ (by decide)]
  rfl

theorem Printable.visible_eq {c : Char} (h : Printable c) : visible c = [c] := by
  have hlig : isLigature c = false := by
    unfold Printable at h
    rw [isLigature, inRange_false]
    omega
  rw [visible, h.not_invisible]
  exact translated_plain hlig

/-- A run of one class ends where the class does. -/
theorem run_unique {f : Char → Bool} {a b t u : Text} {x y : Char} (ha : ∀ c ∈ a, f c = true)
    (hb : ∀ c ∈ b, f c = true) (hx : f x = false) (hy : f y = false)
    (h : a ++ x :: t = b ++ y :: u) : a = b ∧ x :: t = y :: u := by
  have htake : ∀ (l : Text) (z : Char) (r : Text), (∀ c ∈ l, f c = true) → f z = false →
      (l ++ z :: r).takeWhile f = l := fun l z r hl hz => by
    rw [List.takeWhile_append_of_pos hl, List.takeWhile_cons_of_neg (by simp [hz]), List.append_nil]
  have hab : a = b := by rw [← htake a x t ha hx, h, htake b y u hb hy]
  subst hab
  exact ⟨rfl, List.append_cancel_left h⟩

theorem isCsi_single (w v r s : Text) (hw : IsCsi w) (hv : IsCsi v) (h : w ++ r = v ++ s) :
    w = v := by
  obtain ⟨params, inters, final, rfl, hp, hi, hf⟩ := hw
  obtain ⟨params', inters', final', rfl, hp', hi', hf'⟩ := hv
  have hfinal : ∀ c, isFinal c = true → isParameter c = false ∧ isIntermediate c = false :=
    fun c hc => by
      have := inRange_iff.mp hc
      simp only [isParameter, isIntermediate, inRange_false]
      omega
  have hinter : ∀ c, isIntermediate c = true → isParameter c = false := fun c hc => by
    have := inRange_iff.mp hc
    simp only [isParameter, inRange_false]
    omega
  -- what follows the parameters is no parameter
  have hhead : ∀ (l : Text) (f : Char) (t : Text), (∀ c ∈ l, isIntermediate c = true) →
      isFinal f = true → ∃ x u, l ++ f :: t = x :: u ∧ isParameter x = false := fun l f t hl hf => by
    cases l with
    | nil => exact ⟨f, t, rfl, (hfinal f hf).1⟩
    | cons x l => exact ⟨x, l ++ f :: t, rfl, hinter x (hl x List.mem_cons_self)⟩
  obtain ⟨x, u, hx, hxp⟩ := hhead inters final r hi hf
  obtain ⟨y, u', hy, hyp⟩ := hhead inters' final' s hi' hf'
  have hbody : params ++ (inters ++ final :: r) = params' ++ (inters' ++ final' :: s) := by
    simpa using h
  rw [hx, hy] at hbody
  obtain ⟨rfl, hrest⟩ := run_unique hp hp' hxp hyp hbody
  rw [← hx, ← hy] at hrest
  obtain ⟨rfl, hend⟩ := run_unique hi hi' (hfinal _ hf).2 (hfinal _ hf').2 hrest
  rw [(List.cons.inj hend).1]

theorem csi_marks : Marks esc IsCsi Quiet visible where
  nonempty := by
    rintro w ⟨params, inters, final, rfl, -⟩
    simp
  single := isCsi_single
  opens := by
    rintro w ⟨params, inters, final, rfl, hp, hi, hf⟩
    refine ⟨'[' :: params ++ inters ++ [final], rfl, by simp, fun c hc => ?_⟩
    have hprint : Printable c := by
      simp only [List.cons_append, List.mem_cons, List.mem_append, List.not_mem_nil, or_false] at hc
      rcases hc with rfl | (hc | hc) | rfl
      · exact ⟨by decide, by decide⟩
      · exact isParameter_printable (hp c hc)
      · exact isIntermediate_printable (hi c hc)
      · exact isFinal_printable hf
    refine ⟨?_, fun hq => ?_, by rw [hprint.visible_eq]; simp⟩
    · rintro rfl
      exact absurd hprint.1 (by decide)
    · have hvis := hq.1
      rw [hprint.not_invisible] at hvis
      cases hvis
  esc_loud h := h.2 rfl
  esc_hidden := by decide
  quiet_hidden c hc := by rw [visible, if_pos hc.1]

/-- One pass: the escape sequences go, then each character shows by itself. -/
theorem sanitizePageText_eq (text : Text) : sanitizePageText text = shown csiRe visible text := by
  rw [sanitizePageText, shown, sub_one, sub_one, sub_one, List.filter_filter, List.filter_filter]
  induction sub csiRe (fun _ => []) text with
  | nil => rfl
  | cons c t ih =>
    rw [List.flatMap_cons, ← ih, List.filter_cons]
    unfold visible isInvisible
    cases isControl c <;> cases isBidi c <;> cases isZeroWidth c <;> rfl

/-! ## What is left -/

theorem translated_clean {c : Char} (hc : isInvisible c = false) : Clean (translated c) := by
  cases hl : isLigature c with
  | false =>
    rw [translated_plain hl]
    intro d hd
    rw [List.mem_singleton.mp hd]
    exact ⟨hc, hl⟩
  | true =>
    have hclean : (ligatures.all fun e => (translated e.1).all fun d =>
        !isInvisible d && !isLigature d) = true := by decide
    have hall : ∀ e ∈ ligatures, Clean (translated e.1) := fun e he d hd => by
      simpa using List.all_eq_true.mp (List.all_eq_true.mp hclean e he) d hd
    obtain ⟨hlow, hhigh⟩ := inRange_iff.mp hl
    have hmem : c.toNat ∈ ligatures.map fun e => e.1.toNat := by
      show c.toNat ∈ [0xfb00, 0xfb01, 0xfb02, 0xfb03, 0xfb04, 0xfb05, 0xfb06]
      simp only [List.mem_cons, List.not_mem_nil, or_false]
      omega
    obtain ⟨e, he, hec⟩ := List.mem_map.mp hmem
    rw [← Char.toNat_inj.mp hec]
    exact hall e he

theorem visible_clean (c : Char) : Clean (visible c) := by
  unfold visible
  split
  · intro d hd
    cases hd
  · next h => exact translated_clean (by simpa using h)

theorem sanitizePageText_clean (text : Text) : Clean (sanitizePageText text) := by
  rw [sanitizePageText_eq]
  intro c hc
  obtain ⟨d, -, hd⟩ := List.mem_flatMap.mp hc
  exact visible_clean d c hd

/-- A clean text is left alone: without an escape there is no escape sequence. -/
theorem sanitizePageText_of_clean {t : Text} (h : Clean t) : sanitizePageText t = t := by
  rw [sanitizePageText_eq]
  induction t with
  | nil => rfl
  | cons c t ih =>
    obtain ⟨hc, ht⟩ := List.forall_mem_cons.mp h
    have hesc : c ≠ esc := by
      rintro rfl
      exact absurd hc.1 (by decide)
    rw [shown_other csiRe_words csi_marks (csi_marks.not_begins hesc t), ih ht, visible, hc.1,
      if_neg (by decide), translated_plain hc.2]
    rfl

/-- Invisible characters and escape sequences put into a text, before its characters (`ps`) and
behind them, change nothing exactly when none stands inside an escape sequence of the text. -/
theorem sanitizePageText_padded_iff (ps : Padded Char) (last : Text)
    (hps : ∀ g ∈ ps, Padding IsCsi Quiet g.1) (hlast : Padding IsCsi Quiet last) :
    (sanitizePageText (weave ps last) = sanitizePageText (bare ps) ∧
        Clean (sanitizePageText (weave ps last)) ∧
        sanitizePageText (sanitizePageText (weave ps last)) = sanitizePageText (weave ps last)) ↔
      Unbroken IsCsi ps := by
  have hiff := shown_padded_iff csiRe_words csi_marks hps hlast
  rw [← sanitizePageText_eq, ← sanitizePageText_eq] at hiff
  have hclean := sanitizePageText_clean (weave ps last)
  exact ⟨fun h => hiff.mp h.1, fun h => ⟨hiff.mpr h, hclean, sanitizePageText_of_clean hclean⟩⟩

/-- `ESC NUL [31m`: the padding breaks the sequence, and its rest shows. -/
theorem broken_sequence_shows :
    ¬ ∀ (ps : Padded Char) (last : Text), (∀ g ∈ ps, Padding IsCsi Quiet g.1) →
      Padding IsCsi Quiet last →
        sanitizePageText (weave ps last) = sanitizePageText (bare ps) := by
  intro h
  have hnul : Padding IsCsi Quiet ['\x00'] := .quiet ⟨by decide, by decide⟩ .nil
  have hsame := h [([], esc), (['\x00'], '['), ([], '3'), ([], '1'), ([], 'm')] []
    (by simp [hnul, Padding.nil]) .nil
  exact absurd hsame (by decide +kernel)

theorem sanitizePageText_padded_iff_once :
    (sanitizePageText ['a', '\x00', 'b'] = sanitizePageText ['a', 'b'] ∧
        Clean (sanitizePageText ['a', '\x00', 'b']) ∧
        sanitizePageText (sanitizePageText ['a', '\x00', 'b']) =
          sanitizePageText ['a', '\x00', 'b']) ↔
      Unbroken IsCsi [([], 'a'), (['\x00'], 'b')] := by
  have hnul : Padding IsCsi Quiet ['\x00'] := .quiet ⟨by decide, by decide⟩ .nil
  exact sanitizePageText_padded_iff [([], 'a'), (['\x00'], 'b')] []
    (by simp [hnul, Padding.nil]) .nil

end MainframeRag.Ingest.PageText
