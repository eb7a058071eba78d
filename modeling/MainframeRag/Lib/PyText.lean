import Mathlib.Data.Char
import Mathlib.Data.Finset.Sort
import Mathlib.Data.List.Basic
import Mathlib.Data.List.Induction
import Mathlib.Data.List.Lex
import Mathlib.Data.List.TakeWhile

/-!
# Python text

Text is a list of characters, a file a list of bytes. The functions here follow CPython's
documented behaviour on them:

- `isSpace`, `lstrip`, `rstrip`, `strip`: `str.isspace` and the whitespace stripping.
- `isLineBreak`, `splitlines`: the line boundaries of `str.splitlines`. The reader folds over
  characters (`cut`), so cutting a concatenation is cutting its parts in turn (`cut_append`).
- `joinLines`, `nonblankLines`, `find`: `"\n".join`, the lines with content, `str.find`.
- `encodeUtf8`, `decodeUtf8`: strict UTF-8. A text written behind bytes only decodes when the
  bytes themselves do (`decodeUtf8_append`).
- `universalNewlines`: what text mode does to `\r` and `\r\n` on reading.
-/

namespace MainframeRag.PyText

abbrev Text := List Char
abbrev Bytes := List UInt8

instance : LawfulBEq Text := inferInstanceAs (LawfulBEq (List Char))

/-- `sorted` of a set of texts. -/
abbrev sorted (s : Finset Text) : List Text := s.sort (· ≤ ·)

/-! ## Whitespace -/

def isSpace (c : Char) : Bool :=
  let n := c.toNat
  (9 ≤ n && n ≤ 13) || (28 ≤ n && n ≤ 32) || n == 0x85 || n == 0xa0 || n == 0x1680 ||
    (0x2000 ≤ n && n ≤ 0x200a) || n == 0x2028 || n == 0x2029 || n == 0x202f || n == 0x205f ||
    n == 0x3000

def lstrip (t : Text) : Text := t.dropWhile isSpace

def rstrip (t : Text) : Text := (t.reverse.dropWhile isSpace).reverse

def strip (t : Text) : Text := rstrip (lstrip t)

def blank (t : Text) : Prop := ∀ c ∈ t, isSpace c

instance (t : Text) : Decidable (blank t) :=
  decidable_of_iff (t.all isSpace = true) (by simp [blank])

theorem lstrip_spec (t : Text) : ∃ w, blank w ∧ t = w ++ lstrip t :=
  ⟨t.takeWhile isSpace, fun _ h => List.mem_takeWhile_imp h, List.takeWhile_append_dropWhile.symm⟩

theorem rstrip_spec (t : Text) : ∃ w, blank w ∧ t = rstrip t ++ w := by
  obtain ⟨w, hw, e⟩ := lstrip_spec t.reverse
  refine ⟨w.reverse, fun c h => hw c (List.mem_reverse.mp h), ?_⟩
  have e' := congrArg List.reverse e
  simpa [rstrip, lstrip] using e'

theorem strip_spec (t : Text) : ∃ v w, blank v ∧ blank w ∧ t = v ++ strip t ++ w := by
  obtain ⟨v, hv, e1⟩ := lstrip_spec t
  obtain ⟨w, hw, e2⟩ := rstrip_spec (lstrip t)
  refine ⟨v, w, hv, hw, ?_⟩
  rw [List.append_assoc, strip, ← e2, ← e1]

theorem lstrip_blank_append {v : Text} (h : blank v) (t : Text) : lstrip (v ++ t) = lstrip t :=
  List.dropWhile_append_of_pos h

theorem lstrip_of_head {c : Char} (h : isSpace c = false) (t : Text) : lstrip (c :: t) = c :: t := by
  simp [lstrip, h]

theorem rstrip_append_blank {w : Text} (h : blank w) (t : Text) : rstrip (t ++ w) = rstrip t := by
  have hw : blank w.reverse := fun c hc => h c (List.mem_reverse.mp hc)
  simp only [rstrip, List.reverse_append]
  rw [List.dropWhile_append_of_pos hw]

theorem rstrip_of_last {c : Char} (h : isSpace c = false) (t : Text) : rstrip (t ++ [c]) = t ++ [c] := by
  simp [rstrip, h]

theorem strip_of_ends {a b : Char} (ha : isSpace a = false) (hb : isSpace b = false) (t : Text) :
    strip (a :: t ++ [b]) = a :: t ++ [b] := by
  rw [strip, List.cons_append, lstrip_of_head ha, ← List.cons_append, rstrip_of_last hb]

theorem strip_blank_append {v : Text} (h : blank v) (t : Text) : strip (v ++ t) = strip t := by
  rw [strip, lstrip_blank_append h, ← strip]

theorem strip_eq_nil {t : Text} : strip t = [] ↔ blank t := by
  constructor
  · intro h
    obtain ⟨v, w, hv, hw, e⟩ := strip_spec t
    rw [h, List.append_nil] at e
    intro c hc
    rw [e] at hc
    rcases List.mem_append.mp hc with hc | hc
    · exact hv c hc
    · exact hw c hc
  · intro h
    have e : lstrip t = [] := List.dropWhile_eq_nil_iff.mpr h
    simp [strip, e, rstrip]

theorem strip_getLast {t : Text} {c : Char} (h : (strip t).getLast? = some c) :
    isSpace c = false := by
  rw [strip, rstrip, List.getLast?_reverse] at h
  have := List.head?_dropWhile_not isSpace (lstrip t).reverse
  rw [h] at this
  simpa using this

/-- `re.sub(r"\s+", " ", …)`; the flag says that a blank was just written. -/
def collapseBlanks : Bool → Text → Text
  | _, [] => []
  | afterBlank, c :: t =>
    if isSpace c then
      if afterBlank then collapseBlanks true t else ' ' :: collapseBlanks true t
    else c :: collapseBlanks false t

/-- `" ".join(text.split())` -/
def squeeze (t : Text) : Text := strip (collapseBlanks false t)

/-! ## Character tables -/

/-- The Unicode tables behind the patterns and string methods. -/
structure CharTables where
  /-- `\d` -/
  isDecimal : Char → Bool
  /-- the value of a decimal -/
  decimalValue : Char → Nat
  /-- `str.isdigit`, which also holds of superscripts -/
  isDigit : Char → Bool
  /-- `\w` -/
  isWord : Char → Bool
  isAlpha : Char → Bool
  isLower : Char → Bool
  isUpper : Char → Bool
  isTitle : Char → Bool
  lower : Text → Text
  upper : Char → Text
  casefold : Char → Text

/-- The tables on ASCII text. -/
def asciiTables : CharTables where
  isDecimal := Char.isDigit
  decimalValue c := c.toNat - 48
  isDigit := Char.isDigit
  isWord c := c.isAlphanum || c == '_'
  isAlpha := Char.isAlpha
  isLower := Char.isLower
  isUpper := Char.isUpper
  isTitle _ := false
  lower t := t.map Char.toLower
  upper c := [c.toUpper]
  casefold c := [c.toLower]

/-! ## Lines -/

/-- The single-character boundaries of `str.splitlines`. -/
def isLineBreak (c : Char) : Bool :=
  let n := c.toNat
  (10 ≤ n && n ≤ 13) || (28 ≤ n && n ≤ 30) || n == 0x85 || n == 0x2028 || n == 0x2029

theorem isSpace_of_isLineBreak {c : Char} (h : isLineBreak c = true) : isSpace c = true := by
  simp only [isLineBreak, isSpace, Bool.or_eq_true, Bool.and_eq_true, decide_eq_true_eq,
    beq_iff_eq] at h ⊢
  omega

/-- The finished lines of a text and the characters after its last line break. -/
structure Cut where
  done : List Text
  rest : Text
  deriving DecidableEq

def Cut.feed (s : Cut) (c : Char) : Cut :=
  if isLineBreak c then ⟨s.done ++ [s.rest], []⟩ else ⟨s.done, s.rest ++ [c]⟩

def cut (t : Text) : Cut := t.foldl Cut.feed ⟨[], []⟩

def Cut.lines (s : Cut) : List Text := if s.rest = [] then s.done else s.done ++ [s.rest]

/-- The lines of a text in which every break is one character. -/
def cutLines (t : Text) : List Text := (cut t).lines

theorem cut_append (t u : Text) : cut (t ++ u) = u.foldl Cut.feed (cut t) := by
  simp [cut, List.foldl_append]

theorem Cut.foldl_feed_noBreak {u : Text} (h : ∀ c ∈ u, isLineBreak c = false) (s : Cut) :
    u.foldl Cut.feed s = ⟨s.done, s.rest ++ u⟩ := by
  induction u generalizing s with
  | nil => simp
  | cons c u ih =>
    simp only [List.mem_cons, forall_eq_or_imp] at h
    rw [List.foldl_cons, ih h.2]
    simp [Cut.feed, h.1]

/-- Text mode turns `\r\n` and a lone `\r` into `\n` on reading. -/
def universalNewlines : Text → Text
  | [] => []
  | '\r' :: '\n' :: t => '\n' :: universalNewlines t
  | c :: t => (if c = '\r' then '\n' else c) :: universalNewlines t

theorem universalNewlines_id {t : Text} (h : '\r' ∉ t) : universalNewlines t = t := by
  fun_induction universalNewlines t with
  | case1 => rfl
  | case2 t ih => simp at h
  | case3 c t _ ih =>
    simp only [List.mem_cons, not_or] at h
    simp [Ne.symm h.1, ih h.2]

theorem universalNewlines_noReturn (t : Text) : '\r' ∉ universalNewlines t := by
  fun_induction universalNewlines t with
  | case1 => simp
  | case2 t ih => simp [ih]
  | case3 c t _ ih =>
    intro h
    rcases List.mem_cons.mp h with h | h
    · split at h
      · simp at h
      · exact absurd h.symm ‹_›
    · exact ih h

/-- `str.splitlines`, which takes `\r\n` for one break. -/
def splitlines (t : Text) : List Text := cutLines (universalNewlines t)

/-- `str.splitlines(keepends=True)`; the second argument is the line read so far, reversed. -/
def splitlinesKeep : Text → Text → List Text
  | [], line => if line = [] then [] else [line.reverse]
  | '\r' :: '\n' :: t, line => (line.reverse ++ ['\r', '\n']) :: splitlinesKeep t []
  | c :: t, line =>
    if isLineBreak c then (line.reverse ++ [c]) :: splitlinesKeep t []
    else splitlinesKeep t (c :: line)

theorem universalNewlines_append {c : Char} (hc : c ≠ '\n') (t u : Text) :
    universalNewlines (t ++ c :: u) = universalNewlines t ++ universalNewlines (c :: u) := by
  fun_induction universalNewlines t with
  | case1 => rfl
  | case2 t ih => simp [universalNewlines, ih]
  | case3 d t hd ih =>
    cases t with
    | nil =>
      simp only [List.cons_append, List.nil_append]
      rw [universalNewlines.eq_3 _ _ (by intro t h e; cases e; exact hc rfl)]
      simp [universalNewlines]
    | cons e t =>
      simp only [List.cons_append]
      rw [universalNewlines.eq_3 d _ (by intro x h e; cases e; exact hd _ h rfl)]
      simpa using ih

/-- `"\n".join`. -/
def joinLines (lines : List Text) : Text := List.intercalate ['\n'] lines

/-- `sep.join(p for p in parts if p)` -/
def joinNonempty (sep : Text) (parts : List Text) : Text :=
  List.intercalate sep (parts.filter (· ≠ []))

/-- The lines of a text that hold more than whitespace. -/
def nonblankLines (t : Text) : List Text := (splitlines t).filter (fun l => strip l ≠ [])

/-- The index of the first occurrence of `sub` in `t`, counting from `i`. -/
def findAt (sub : Text) : Text → Nat → Option Nat
  | [], i => if sub = [] then some i else none
  | c :: t, i => if sub.isPrefixOf (c :: t) then some i else findAt sub t (i + 1)

/-- `str.find(sub, start)`. -/
def find (t sub : Text) (start : Nat) : Option Nat :=
  if start ≤ t.length then findAt sub (t.drop start) start else none

/-! ## UTF-8 -/

def encodeUtf8 (t : Text) : Bytes := t.flatMap String.utf8EncodeChar

/-- Strict decoding: `none` is a `UnicodeDecodeError`. -/
def decodeUtf8 (b : Bytes) : Option Text := b.toByteArray.utf8Decode?.map Array.toList

theorem decodeUtf8_eq_some {b : Bytes} {t : Text} : decodeUtf8 b = some t ↔ b = encodeUtf8 t := by
  constructor
  · intro h
    obtain ⟨a, ha, rfl⟩ := Option.map_eq_some_iff.mp h
    have hs : b.toByteArray.utf8Decode?.isSome := by simp [ha]
    have he := ByteArray.utf8Encode_get_utf8Decode? (h := hs)
    simp only [ha, Option.get_some] at he
    have hd := congrArg (fun x => x.data.toList) he
    simpa [List.utf8Encode, encodeUtf8] using hd.symm
  · rintro rfl
    have h := List.utf8Decode?_utf8Encode (l := t)
    rw [List.utf8Encode] at h
    simp [decodeUtf8, encodeUtf8, h]

theorem decodeUtf8_encodeUtf8 (t : Text) : decodeUtf8 (encodeUtf8 t) = some t :=
  decodeUtf8_eq_some.mpr rfl

theorem encodeUtf8_append (t u : Text) : encodeUtf8 (t ++ u) = encodeUtf8 t ++ encodeUtf8 u :=
  List.flatMap_append

/-- A first byte inside an encoded text starts one of its characters. -/
theorem encodeUtf8_split {t : Text} {f g : Bytes} {b : UInt8} (hb : b.IsUTF8FirstByte)
    (h : encodeUtf8 t = f ++ b :: g) : ∃ t₁ t₂, t = t₁ ++ t₂ ∧ f = encodeUtf8 t₁ := by
  induction t generalizing f with
  | nil => simp [encodeUtf8] at h
  | cons c t ih =>
    rcases f with _ | ⟨d, f⟩
    · exact ⟨[], c :: t, rfl, rfl⟩
    simp only [encodeUtf8, List.flatMap_cons] at h
    rcases List.append_eq_append_iff.mp h with ⟨m, hm, hr⟩ | ⟨m, hm, hr⟩
    · obtain ⟨t₁, t₂, rfl, e⟩ := ih hr
      exact ⟨c :: t₁, t₂, rfl, by simpa [encodeUtf8, e] using hm⟩
    · rcases m with _ | ⟨x, m⟩
      · exact ⟨[c], t, rfl, by simpa [encodeUtf8] using hm.symm⟩
      · obtain rfl : b = x := (List.cons.inj hr).1
        have hi : (d :: f).length < (String.utf8EncodeChar c).length := by simp [hm]
        have hx : (String.utf8EncodeChar c)[(d :: f).length] = b := by simp [hm]
        rw [← hx, UInt8.isUTF8FirstByte_getElem_utf8EncodeChar] at hb
        simp at hb

/-- Text written behind bytes that do not decode leaves a file that does not decode. -/
theorem decodeUtf8_append {f : Bytes} {c : Char} {t u : Text}
    (h : decodeUtf8 (f ++ encodeUtf8 (c :: t)) = some u) :
    ∃ v, decodeUtf8 f = some v ∧ u = v ++ c :: t := by
  have he := decodeUtf8_eq_some.mp h
  obtain ⟨b, g, hbg⟩ := List.exists_cons_of_ne_nil (String.utf8EncodeChar_ne_nil (c := c))
  have hb : b.IsUTF8FirstByte := by
    have hl : 0 < (String.utf8EncodeChar c).length := by simp [hbg]
    have h0 : (String.utf8EncodeChar c)[0] = b := by simp [hbg]
    rw [← h0, UInt8.isUTF8FirstByte_getElem_utf8EncodeChar]
  have hs : encodeUtf8 u = f ++ b :: (g ++ encodeUtf8 t) := by
    rw [← he]; simp [encodeUtf8, hbg]
  obtain ⟨v, w, rfl, rfl⟩ := encodeUtf8_split hb hs
  refine ⟨v, decodeUtf8_encodeUtf8 v, ?_⟩
  have h1 := decodeUtf8_encodeUtf8 (v ++ c :: t)
  rw [encodeUtf8_append, h, Option.some.injEq] at h1
  exact h1

theorem ofNat_ne_lf {n : Nat} (hn : n < 256) (h : n ≠ 10) : (10 : UInt8) ≠ UInt8.ofNat n := by
  intro e
  have hval := congrArg UInt8.toNat e
  simp at hval
  omega

theorem lf_not_mem_encodeChar {c : Char} (h : c ≠ '\n') : (10 : UInt8) ∉ String.utf8EncodeChar c := by
  have hval : c.val.toNat ≠ 10 := fun e => h (Char.ext (UInt32.toNat_inj.mp e))
  unfold String.utf8EncodeChar
  dsimp only
  split
  · rw [List.mem_singleton]
    exact ofNat_ne_lf (by omega) hval
  · split
    · simp only [List.mem_cons, List.not_mem_nil, or_false, not_or]
      constructor <;> apply ofNat_ne_lf <;> omega
    · split
      · simp only [List.mem_cons, List.not_mem_nil, or_false, not_or]
        refine ⟨?_, ?_, ?_⟩ <;> apply ofNat_ne_lf <;> omega
      · simp only [List.mem_cons, List.not_mem_nil, or_false, not_or]
        refine ⟨?_, ?_, ?_, ?_⟩ <;> apply ofNat_ne_lf <;> omega

/-- A text of one line has one line of bytes. -/
theorem lf_not_mem_encodeUtf8 {t : Text} (h : '\n' ∉ t) : (10 : UInt8) ∉ encodeUtf8 t := by
  unfold encodeUtf8
  rw [List.mem_flatMap]
  rintro ⟨c, hc, hmem⟩
  exact lf_not_mem_encodeChar (fun e => h (e ▸ hc)) hmem

end MainframeRag.PyText
