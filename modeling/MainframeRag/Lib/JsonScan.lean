import MainframeRag.Lib.PyText
import Mathlib

/-!
# Lexical scan of JSON objects

A `serde_json` style writer (`object`: compact, raw non-ASCII) and the part of every JSON reader
that does not depend on the values: brackets balance, quotes pair up, and outside strings only
structural characters, numbers, whitespace and the letters of the JSON constants appear. Every
text that parses as an object with a member ends the scan in `done`.

`lineScan` runs the scan over a text that is cut into lines, starting afresh after each line
break, and stops at an accepted line. The main lemma is `lineScan_object_ne_done`: an object
written behind the beginning of a line, or with a raw line break inside one of its strings,
leaves no line that scans as an object.
-/

namespace MainframeRag.JsonScan

open PyText

/-! ## Writing -/

def hexDigit (n : Nat) : Char := if n < 10 then Char.ofNat (48 + n) else Char.ofNat (87 + n)

def escChar (c : Char) : Text :=
  if c = '"' then ['\\', '"']
  else if c = '\\' then ['\\', '\\']
  else if c.toNat = 8 then ['\\', 'b']
  else if c.toNat = 9 then ['\\', 't']
  else if c.toNat = 10 then ['\\', 'n']
  else if c.toNat = 12 then ['\\', 'f']
  else if c.toNat = 13 then ['\\', 'r']
  else if c.toNat < 32 then
    ['\\', 'u', '0', '0', hexDigit (c.toNat / 16), hexDigit (c.toNat % 16)]
  else [c]

def escapes (s : Text) : Text := s.flatMap escChar

theorem escapes_cons (c : Char) (s : Text) : escapes (c :: s) = escChar c ++ escapes s := rfl

def quote (s : Text) : Text := '"' :: escapes s ++ ['"']

/-- A member value: a string, or a number or constant already rendered. -/
inductive Val
  | str (s : Text)
  | raw (t : Text)

def Val.render : Val → Text
  | .str s => quote s
  | .raw t => t

def member (f : Text × Val) : Text := '"' :: f.1 ++ ['"', ':'] ++ f.2.render

def object (f : Text × Val) (fs : List (Text × Val)) : Text :=
  '{' :: member f ++ fs.flatMap (fun g => ',' :: member g) ++ ['}']

/-! ## The scan -/

/-- `bare d` and `out d` are outside strings, before and after the first one, under `d` brackets
besides the outermost. -/
inductive State
  | start
  | bare (d : Nat)
  | out (d : Nat)
  | str (d : Nat)
  | esc (d : Nat)
  | done
  | bad
  deriving DecidableEq

/-- What may stand outside strings besides brackets: separators, number characters, JSON
whitespace and the letters of `true`, `false`, `null`, `NaN` and `Infinity`. -/
def legal (c : Char) : Bool :=
  c ∈ ",:0123456789+-.E \t\n\rtruefalsenNIiy".toList

def State.step : State → Char → State
  | .start, c => if c = '{' then .bare 0 else if isSpace c then .start else .bad
  | .bare d, c =>
    if c = '"' then .str d
    else if c = '{' ∨ c = '[' then .bare (d + 1)
    else if c = '}' ∨ c = ']' then (match d with | 0 => .bad | d + 1 => .bare d)
    else if legal c then .bare d else .bad
  | .out d, c =>
    if c = '"' then .str d
    else if c = '{' ∨ c = '[' then .out (d + 1)
    else if c = '}' ∨ c = ']' then (match d with | 0 => .done | d + 1 => .out d)
    else if legal c then .out d else .bad
  | .str d, c => if c = '"' then .out d else if c = '\\' then .esc d else .str d
  | .esc d, c => if c ∈ "\"\\/bfnrtu".toList then .str d else .bad
  | .done, c => if isSpace c then .done else .bad
  | .bad, _ => .bad

def scan (q : State) (t : Text) : State := t.foldl State.step q

@[simp] theorem scan_nil (q : State) : scan q [] = q := rfl

@[simp] theorem scan_cons (q : State) (c : Char) (t : Text) :
    scan q (c :: t) = scan (q.step c) t := rfl

theorem scan_append (q : State) (t u : Text) : scan q (t ++ u) = scan (scan q t) u :=
  List.foldl_append

@[simp] theorem scan_bad (t : Text) : scan .bad t = .bad := by
  induction t with
  | nil => rfl
  | cons c t ih => exact ih

theorem isSpace_ne_brace {c : Char} (h : isSpace c = true) : c ≠ '{' := by
  rintro rfl; revert h; decide

theorem scan_start_blank {t : Text} (h : blank t) : scan .start t = .start := by
  induction t with
  | nil => rfl
  | cons c t ih =>
    have hc := h c (by simp)
    simp [State.step, hc, isSpace_ne_brace hc, ih (fun d hd => h d (by simp [hd]))]

theorem scan_done_blank {t : Text} (h : blank t) : scan .done t = .done := by
  induction t with
  | nil => rfl
  | cons c t ih =>
    simp [State.step, h c (by simp), ih (fun d hd => h d (by simp [hd]))]

theorem scan_ne_start {q : State} (h : q ≠ .start) (t : Text) : scan q t ≠ .start := by
  induction t generalizing q with
  | nil => exact h
  | cons c t ih =>
    apply ih
    cases q <;> simp only [State.step] <;> (try split_ifs) <;> (try split) <;> simp_all

theorem scan_start_eq {t : Text} : scan .start t = .start ↔ blank t := by
  refine ⟨fun h => ?_, scan_start_blank⟩
  induction t with
  | nil => intro c hc; simp at hc
  | cons c t ih =>
    simp only [scan_cons, State.step] at h
    split_ifs at h with h1 h2
    · exact absurd h (scan_ne_start (by simp) t)
    · intro d hd
      rcases List.mem_cons.mp hd with rfl | hd
      · exact h2
      · exact ih h d hd
    · simp at h

/-- Stripping a line does not matter to the scan. -/
theorem scan_of_strip {t : Text} (h : scan .start (strip t) = .done) : scan .start t = .done := by
  obtain ⟨v, w, hv, hw, e⟩ := strip_spec t
  rw [e, scan_append, scan_append, scan_start_blank hv, h, scan_done_blank hw]

/-! ## Cutting and scanning -/

/-- The state of the unfinished last line; `none` once some finished line was an object. -/
def lineScan : State → Text → Option State
  | q, [] => some q
  | q, c :: t =>
    if isLineBreak c then (if q = .done then none else lineScan .start t)
    else lineScan (q.step c) t

theorem lineScan_append (q : State) (t u : Text) :
    lineScan q (t ++ u) = (lineScan q t).bind (fun q' => lineScan q' u) := by
  induction t generalizing q with
  | nil => rfl
  | cons c t ih =>
    simp only [List.cons_append, lineScan]
    split_ifs <;> simp [ih]

theorem lineScan_noBreak {t : Text} (h : ∀ c ∈ t, isLineBreak c = false) (q : State) :
    lineScan q t = some (scan q t) := by
  induction t generalizing q with
  | nil => rfl
  | cons c t ih =>
    simp only [List.mem_cons, forall_eq_or_imp] at h
    simp [lineScan, h.1, ih h.2]

theorem lineScan_cut {q r : State} {s : Cut} {t : Text} (hs : scan .start s.rest = q)
    (h : lineScan q t = some r) :
    ∃ xs, (t.foldl Cut.feed s).done = s.done ++ xs ∧ (∀ x ∈ xs, scan .start x ≠ .done) ∧
      scan .start (t.foldl Cut.feed s).rest = r := by
  induction t generalizing q s with
  | nil =>
    simp only [lineScan, Option.some.injEq] at h
    exact ⟨[], by simp, by simp, by simpa [hs] using h⟩
  | cons c t ih =>
    simp only [lineScan] at h
    split_ifs at h with hc hq
    · obtain ⟨xs, h1, h2, h3⟩ := ih (s := s.feed c) (by simp [Cut.feed, hc]) h
      refine ⟨s.rest :: xs, by simpa [Cut.feed, hc] using h1, ?_, h3⟩
      intro x hx
      rcases List.mem_cons.mp hx with rfl | hx
      · rw [hs]; exact hq
      · exact h2 x hx
    · obtain ⟨xs, h1, h2, h3⟩ :=
        ih (s := s.feed c) (by simp [Cut.feed, hc, scan_append, hs]) h
      exact ⟨xs, by simpa [Cut.feed, hc] using h1, h2, h3⟩

/-! ## Scanning what the writer wrote -/

/-- The line breaks JSON leaves unescaped: U+0085, U+2028 and U+2029. -/
def rawBreak (c : Char) : Bool := isLineBreak c && 32 ≤ c.toNat

def plain (c : Char) : Prop := c ≠ '"' ∧ c ≠ '\\' ∧ isLineBreak c = false

theorem hexDigit_plain {n : Nat} (h : n < 16) : plain (hexDigit n) := by
  unfold plain
  interval_cases n <;> decide

/-- A character is written as itself, or as a backslash escape of plain characters. -/
theorem rawBreak_control {c : Char} (h : c.toNat < 32) : rawBreak c = false := by
  simp [rawBreak]
  omega

theorem escChar_cases (c : Char) :
    (escChar c = [c] ∧ c ≠ '"' ∧ c ≠ '\\' ∧ isLineBreak c = rawBreak c) ∨
      ∃ e r, escChar c = '\\' :: e :: r ∧ e ∈ "\"\\/bfnrtu".toList ∧ isLineBreak e = false ∧
        (∀ x ∈ r, plain x) ∧ rawBreak c = false := by
  unfold escChar
  split_ifs with h1 h2 h3 h4 h5 h6 h7 h8
  · exact .inr ⟨'"', [], rfl, by decide +kernel, by decide, by simp, by subst h1; decide⟩
  · exact .inr ⟨'\\', [], rfl, by decide +kernel, by decide, by simp, by subst h2; decide⟩
  · exact .inr ⟨'b', [], rfl, by decide +kernel, by decide, by simp, rawBreak_control (by omega)⟩
  · exact .inr ⟨'t', [], rfl, by decide +kernel, by decide, by simp, rawBreak_control (by omega)⟩
  · exact .inr ⟨'n', [], rfl, by decide +kernel, by decide, by simp, rawBreak_control (by omega)⟩
  · exact .inr ⟨'f', [], rfl, by decide +kernel, by decide, by simp, rawBreak_control (by omega)⟩
  · exact .inr ⟨'r', [], rfl, by decide +kernel, by decide, by simp, rawBreak_control (by omega)⟩
  · refine .inr ⟨'u', _, rfl, by decide +kernel, by decide, ?_, rawBreak_control (by omega)⟩
    intro x hx
    simp only [List.mem_cons, List.not_mem_nil, or_false] at hx
    rcases hx with rfl | rfl | rfl | rfl
    · unfold plain; decide
    · unfold plain; decide
    · exact hexDigit_plain (by omega)
    · exact hexDigit_plain (by omega)
  · exact .inl ⟨rfl, h1, h2, by simp [rawBreak]; omega⟩

theorem scan_str_plain {t : Text} (h : ∀ c ∈ t, plain c) (d : Nat) : scan (.str d) t = .str d := by
  induction t with
  | nil => rfl
  | cons c t ih =>
    obtain ⟨h1, h2, -⟩ := h c (by simp)
    simp [State.step, h1, h2, ih (fun x hx => h x (by simp [hx]))]

theorem scan_str_escChar (d : Nat) (c : Char) : scan (.str d) (escChar c) = .str d := by
  rcases escChar_cases c with ⟨e, h1, h2, -⟩ | ⟨e, r, he, hm, -, hr, -⟩
  · simp [e, State.step, h1, h2]
  · rw [he, scan_cons, scan_cons]
    simp only [State.step, Char.reduceEq, ↓reduceIte, hm]
    exact scan_str_plain hr d

theorem scan_str_escapes (d : Nat) (s : Text) : scan (.str d) (escapes s) = .str d := by
  induction s with
  | nil => rfl
  | cons c s ih => rw [escapes_cons, scan_append, scan_str_escChar, ih]

theorem escChar_noBreak {c : Char} (h : rawBreak c = false) :
    ∀ x ∈ escChar c, isLineBreak x = false := by
  rcases escChar_cases c with ⟨e, -, -, hb⟩ | ⟨e, r, he, -, hb, hr, -⟩
  · simp [e, hb, h]
  · rw [he]
    intro x hx
    simp only [List.mem_cons] at hx
    rcases hx with rfl | rfl | hx
    · decide
    · exact hb
    · exact (hr x hx).2.2

theorem escapes_noBreak {s : Text} (h : ∀ c ∈ s, rawBreak c = false) :
    ∀ x ∈ escapes s, isLineBreak x = false := by
  intro x hx
  obtain ⟨c, hc, hx⟩ := List.mem_flatMap.mp hx
  exact escChar_noBreak (h c hc) x hx

/-- The states no string has been read in: where the scan of a line's text can be before its first
unescaped quote. -/
inductive Unquoted : State → Prop
  | start : Unquoted .start
  | bare (d : Nat) : Unquoted (.bare d)
  | bad : Unquoted .bad

theorem Unquoted.step {q : State} (h : Unquoted q) {c : Char} (hc : c ≠ '"') :
    Unquoted (q.step c) := by
  cases h with
  | start => simp only [State.step]; split_ifs <;> constructor
  | bare d =>
    simp only [State.step, hc, ↓reduceIte]
    split_ifs
    · constructor
    · cases d <;> constructor
    · constructor
    · constructor
  | bad => constructor

theorem Unquoted.backslash {q : State} (h : Unquoted q) : q.step '\\' = .bad := by
  cases h <;> rfl

theorem Unquoted.ne_done {q : State} (h : Unquoted q) : q ≠ .done := by cases h <;> simp

/-- Text from inside a string, read as if it began a line, reads no string. -/
theorem Unquoted.lineScan_escapes {q : State} (h : Unquoted q) (s : Text) :
    ∃ q', lineScan q (escapes s) = some q' ∧ Unquoted q' := by
  induction s generalizing q with
  | nil => exact ⟨q, rfl, h⟩
  | cons c s ih =>
    rw [escapes_cons, lineScan_append]
    rcases escChar_cases c with ⟨e, h1, -, -⟩ | ⟨e, r, he, -, -, -, hb⟩
    · by_cases hb : isLineBreak c = true
      · simpa [e, lineScan, hb, h.ne_done] using ih Unquoted.start
      · simpa [e, lineScan, hb] using ih (h.step h1)
    · rw [lineScan_noBreak (escChar_noBreak hb), he, scan_cons, h.backslash, scan_bad]
      exact ih Unquoted.bad

theorem lineScan_str_escapes (d : Nat) {s : Text} (hs : ∃ c ∈ s, rawBreak c = true) :
    ∃ q, lineScan (.str d) (escapes s) = some q ∧ Unquoted q := by
  induction s with
  | nil => simp at hs
  | cons c s ih =>
    rw [escapes_cons, lineScan_append]
    by_cases hb : rawBreak c = true
    · rcases escChar_cases c with ⟨e, -, -, h⟩ | ⟨e, r, -, -, -, -, h⟩
      · rw [hb] at h
        simpa [e, lineScan, h] using Unquoted.start.lineScan_escapes s
      · rw [h] at hb; simp at hb
    · simp only [Bool.not_eq_true] at hb
      rw [lineScan_noBreak (escChar_noBreak hb), scan_str_escChar]
      obtain ⟨x, hx, hr⟩ := hs
      rcases List.mem_cons.mp hx with rfl | hx
      · rw [hr] at hb; simp at hb
      · exact ih ⟨x, hx, hr⟩

/-- The states out of step with the writer behind a member value, which is a string or not: the
quotes the scan takes for closing ones open the next key. -/
inductive Off : Bool → State → Prop
  | str (d : Nat) : Off true (.str d)
  | bad (b : Bool) : Off b .bad

theorem Unquoted.quote {q : State} (h : Unquoted q) : Off true (q.step '"') := by
  cases h with
  | start => exact .bad true
  | bare d => exact .str d
  | bad => exact .bad true

def wordChar (c : Char) : Bool := c.isAlphanum || c == '_'

def word (k : Text) : Bool := k.all wordChar

/-- Some character of the key is in no JSON constant or number. -/
def alien (k : Text) : Bool := k.any (fun c => !legal c)

theorem word_plain {c : Char} (h : wordChar c = true) :
    plain c ∧ c ≠ '{' ∧ c ≠ '[' ∧ c ≠ '}' ∧ c ≠ ']' := by
  refine ⟨⟨?_, ?_, ?_⟩, ?_, ?_, ?_, ?_⟩
  iterate 2 rintro rfl; revert h; decide
  · by_contra hb
    simp only [Bool.not_eq_false, isLineBreak, Bool.or_eq_true, Bool.and_eq_true,
      decide_eq_true_eq, beq_iff_eq] at hb
    simp only [wordChar, Char.isAlphanum, Char.isAlpha, Char.isUpper, Char.isLower, Char.isDigit,
      Bool.or_eq_true, Bool.and_eq_true, decide_eq_true_eq, beq_iff_eq, ge_iff_le,
      UInt32.le_iff_toNat_le, Char.ext_iff, ← UInt32.toNat_inj] at h
    simp at h
    omega
  all_goals rintro rfl; revert h; decide

theorem plain_of_word {k : Text} (h : word k = true) : ∀ c ∈ k, plain c :=
  fun c hc => (word_plain (List.all_eq_true.mp h c hc)).1

theorem scan_out_alien {k : Text} (ha : word k = true) (hb : alien k = true) (d : Nat) :
    scan (.out d) k = .bad := by
  induction k with
  | nil => simp [alien] at hb
  | cons c k ih =>
    simp only [word, List.all_cons, Bool.and_eq_true] at ha
    obtain ⟨⟨h1, -, -⟩, h2, h3, h4, h5⟩ := word_plain ha.1
    simp only [scan_cons, State.step, h1, h2, h3, h4, h5, or_self, ↓reduceIte]
    split_ifs with hl
    · simp only [alien, List.any_cons, hl, Bool.not_true, Bool.false_or] at hb
      exact ih ha.2 hb
    · exact scan_bad k

theorem Off.key {b : Bool} {q : State} (h : Off b q) {k : Text} (hk : word k = true)
    (ha : b = true → alien k = true) : scan q (',' :: '"' :: k) = .bad := by
  cases h with
  | str d => simpa [State.step] using scan_out_alien hk (ha rfl) d
  | bad => exact scan_bad _

/-! ## Members and objects -/

def Val.rawBreaks : Val → Prop
  | .str s => ∃ c ∈ s, rawBreak c = true
  | .raw _ => False

def Val.isStr : Val → Bool
  | .str _ => true
  | .raw _ => false

/-- Rendered numbers and constants stay on their line and outside strings. -/
def Val.ok : Val → Prop
  | .str _ => True
  | .raw t => ∀ c ∈ t, legal c = true ∧ isLineBreak c = false ∧ c ≠ '"' ∧ c ≠ '{' ∧ c ≠ '[' ∧
      c ≠ '}' ∧ c ≠ ']'

theorem scan_out_raw {t : Text} (h : (Val.raw t).ok) (d : Nat) : scan (.out d) t = .out d := by
  induction t with
  | nil => rfl
  | cons c t ih =>
    obtain ⟨h1, -, h2, h3, h4, h5, h6⟩ := h c (by simp)
    simp [State.step, h1, h2, h3, h4, h5, h6, ih (fun x hx => h x (by simp [hx]))]

theorem quote_noBreak {s : Text} (h : ¬(Val.str s).rawBreaks) :
    ∀ c ∈ quote s, isLineBreak c = false := by
  have hs : ∀ c ∈ s, rawBreak c = false := by
    intro c hc
    by_contra hb
    exact h ⟨c, hc, by simpa using hb⟩
  intro c hc
  simp only [quote, List.mem_cons, List.mem_append, List.not_mem_nil, or_false,
    List.cons_append] at hc
  rcases hc with rfl | hc | rfl
  · decide
  · exact escapes_noBreak hs c hc
  · decide

theorem Val.render_noBreak {v : Val} (hv : v.ok) (h : ¬v.rawBreaks) :
    ∀ c ∈ v.render, isLineBreak c = false := by
  cases v with
  | str s => exact quote_noBreak h
  | raw t => exact fun c hc => (hv c hc).2.1

theorem Val.scan_out {v : Val} (hv : v.ok) (d : Nat) : scan (.out d) v.render = .out d := by
  cases v with
  | str s =>
    rw [Val.render, quote, List.cons_append, scan_cons, scan_append]
    simp [State.step, scan_str_escapes]
  | raw t => exact scan_out_raw hv d

/-- A value with a raw line break inside: no line ends as an object, and the last one is off. -/
theorem Val.lineScan_rawBreaks {v : Val} (h : v.rawBreaks) {q : State}
    (hq : q = .bad ∨ ∃ d, q = .out d) : ∃ q', lineScan q v.render = some q' ∧ Off v.isStr q' := by
  cases v with
  | raw t => exact h.elim
  | str s =>
    have hf : ∀ q', Unquoted q' → ∃ q'', lineScan q' ['"'] = some q'' ∧ Off true q'' := fun q' hu =>
      ⟨_, rfl, hu.quote⟩
    rw [Val.render, quote, List.cons_append]
    have hb : isLineBreak '"' = false := by decide
    rw [lineScan, hb, if_neg (by simp), lineScan_append]
    rcases hq with rfl | ⟨d, rfl⟩
    · obtain ⟨q', e, hu⟩ := Unquoted.bad.lineScan_escapes s
      simpa [State.step, e, isStr] using hf q' hu
    · obtain ⟨q', e, hu⟩ := lineScan_str_escapes d h
      simpa [State.step, e, isStr] using hf q' hu

theorem key_noBreak {k : Text} (hk : word k = true) :
    ∀ c ∈ '"' :: k ++ ['"', ':'], isLineBreak c = false := by
  intro c hc
  simp only [List.mem_cons, List.mem_append, List.not_mem_nil, or_false, List.cons_append] at hc
  rcases hc with rfl | hc | rfl | rfl
  · decide
  · exact (plain_of_word hk c hc).2.2
  · decide
  · decide

theorem scan_out_member_key {k : Text} (hk : word k = true) (d : Nat) :
    scan (.out d) ('"' :: k ++ ['"', ':']) = .out d := by
  rw [List.cons_append, scan_cons, scan_append]
  have hc : legal ':' = true := by decide
  simp [State.step, scan_str_plain (plain_of_word hk), hc]

theorem scan_out_comma (d : Nat) : (State.out d).step ',' = .out d := by
  have hc : legal ',' = true := by decide
  simp [State.step, hc]

theorem lineScan_member {f : Text × Val} (hk : word f.1 = true) (hv : f.2.ok) {q : State}
    (hq : q = .bad ∨ ∃ d, q = .out d) :
    (¬f.2.rawBreaks ∧ lineScan q (member f) = some q) ∨
      (f.2.rawBreaks ∧ ∃ q', lineScan q (member f) = some q' ∧ Off f.2.isStr q') := by
  have hkey : lineScan q ('"' :: f.1 ++ ['"', ':']) = some q := by
    rw [lineScan_noBreak (key_noBreak hk)]
    rcases hq with rfl | ⟨d, rfl⟩
    · rw [scan_bad]
    · rw [scan_out_member_key hk]
  by_cases h : f.2.rawBreaks
  · right
    obtain ⟨q', e, ho⟩ := Val.lineScan_rawBreaks h hq
    exact ⟨h, q', by rw [member, lineScan_append, hkey]; exact e, ho⟩
  · left
    refine ⟨h, ?_⟩
    rw [member, lineScan_append, hkey, Option.bind_some, lineScan_noBreak (Val.render_noBreak hv h)]
    rcases hq with rfl | ⟨d, rfl⟩
    · rw [scan_bad]
    · rw [Val.scan_out hv]

theorem lineScan_comma_off {g : Text × Val} {b : Bool} (hk : word g.1 = true)
    (ha : b = true → alien g.1 = true) (hv : g.2.ok) {q : State} (hq : Off b q) :
    ∃ q', lineScan q (',' :: member g) = some q' ∧ Off g.2.isStr q' := by
  have hb : ∀ c ∈ ',' :: '"' :: g.1 ++ ['"', ':'], isLineBreak c = false := by
    intro c hc
    rw [List.cons_append] at hc
    rcases List.mem_cons.mp hc with rfl | hc
    · decide
    · exact key_noBreak hk c hc
  have hkey : lineScan q (',' :: '"' :: g.1 ++ ['"', ':']) = some .bad := by
    rw [lineScan_noBreak hb, scan_append, hq.key hk ha, scan_bad]
  have hm : ',' :: member g = (',' :: '"' :: g.1 ++ ['"', ':']) ++ g.2.render := by simp [member]
  rw [hm, lineScan_append, hkey, Option.bind_some]
  by_cases h : g.2.rawBreaks
  · exact Val.lineScan_rawBreaks h (.inl rfl)
  · exact ⟨.bad, by rw [lineScan_noBreak (Val.render_noBreak hv h), scan_bad], .bad _⟩

def members (fs : List (Text × Val)) : Text := fs.flatMap (fun g => ',' :: member g)

/-- The members behind a string value or not: word keys, alien ones behind strings. -/
def FieldsOk : Bool → List (Text × Val) → Prop
  | _, [] => True
  | b, f :: fs => word f.1 = true ∧ (b = true → alien f.1 = true) ∧ f.2.ok ∧ FieldsOk f.2.isStr fs

theorem FieldsOk.mem {b : Bool} {fs : List (Text × Val)} (h : FieldsOk b fs) :
    ∀ f ∈ fs, word f.1 = true ∧ f.2.ok := by
  induction fs generalizing b with
  | nil => simp
  | cons g fs ih =>
    intro f hf
    rcases List.mem_cons.mp hf with rfl | hf
    · exact ⟨h.1, h.2.2.1⟩
    · exact ih h.2.2.2 f hf

def RawBreaks (fs : List (Text × Val)) : Prop := ∃ f ∈ fs, f.2.rawBreaks

def Val.texts : Val → List Text
  | .str s => [s]
  | .raw _ => []

theorem rawBreaks_iff_texts {fs : List (Text × Val)} :
    RawBreaks fs ↔ ∃ s ∈ fs.flatMap (fun f => f.2.texts), ∃ c ∈ s, rawBreak c = true := by
  have hv : ∀ v : Val, v.rawBreaks ↔ ∃ s ∈ v.texts, ∃ c ∈ s, rawBreak c = true := by
    intro v; cases v <;> simp [Val.rawBreaks, Val.texts]
  constructor
  · rintro ⟨f, hf, h⟩
    obtain ⟨s, hs, hc⟩ := (hv f.2).mp h
    exact ⟨s, List.mem_flatMap.mpr ⟨f, hf, hs⟩, hc⟩
  · rintro ⟨s, hs, hc⟩
    obtain ⟨f, hf, hs⟩ := List.mem_flatMap.mp hs
    exact ⟨f, hf, (hv f.2).mpr ⟨s, hs, hc⟩⟩

theorem lineScan_members_off {b : Bool} {fs : List (Text × Val)} (h : FieldsOk b fs) {q : State}
    (hq : Off b q) : ∃ b' q', lineScan q (members fs) = some q' ∧ Off b' q' := by
  induction fs generalizing q b with
  | nil => exact ⟨b, q, rfl, hq⟩
  | cons g fs ih =>
    obtain ⟨hk, ha, hv, hfs⟩ := h
    obtain ⟨q', e, hq'⟩ := lineScan_comma_off hk ha hv hq
    rw [members, List.flatMap_cons, lineScan_append, e]
    exact ih hfs hq'

theorem lineScan_comma (d : Nat) (t : Text) : lineScan (.out d) (',' :: t) = lineScan (.out d) t := by
  have hb : isLineBreak ',' = false := by decide
  simp [lineScan, hb, scan_out_comma]

/-- In step with the writer up to the first raw line break, off after it. -/
theorem lineScan_members_out {b : Bool} {fs : List (Text × Val)} (h : FieldsOk b fs) (d : Nat) :
    (¬RawBreaks fs ∧ lineScan (.out d) (members fs) = some (.out d)) ∨
      (RawBreaks fs ∧ ∃ b' q', lineScan (.out d) (members fs) = some q' ∧ Off b' q') := by
  induction fs generalizing b with
  | nil => exact .inl ⟨by simp [RawBreaks], rfl⟩
  | cons g fs ih =>
    obtain ⟨hk, -, hv, hfs⟩ := h
    rw [members, List.flatMap_cons, lineScan_append, lineScan_comma]
    rcases lineScan_member hk hv (q := .out d) (.inr ⟨d, rfl⟩) with ⟨hb, e⟩ | ⟨hb, q', e, ho⟩
    · rw [e, Option.bind_some]
      rcases ih hfs with ⟨hn, e'⟩ | ⟨hr, hq⟩
      · exact .inl ⟨by simpa [RawBreaks, hb] using hn, e'⟩
      · exact .inr ⟨by simpa [RawBreaks, hb] using hr, hq⟩
    · rw [e]
      exact .inr ⟨⟨g, by simp, hb⟩, lineScan_members_off hfs ho⟩

/-- The state behind an object's opening brace and first key. -/
def State.open : State → State
  | .start => .out 0
  | .bare d => .out (d + 1)
  | .out d => .out (d + 1)
  | _ => .bad

theorem scan_open {k : Text} (hk : word k = true) (ha : alien k = true) (q : State) :
    scan q ('{' :: '"' :: k ++ ['"', ':']) = q.open := by
  have hin : ∀ d, scan (.str d) (k ++ ['"', ':']) = .out d := by
    intro d
    have h := scan_out_member_key hk d
    rwa [List.cons_append, scan_cons] at h
  have hout : ∀ d, scan (.out d) (k ++ ['"', ':']) = .bad := by
    intro d; rw [scan_append, scan_out_alien hk ha, scan_bad]
  have hs : isSpace '{' = false := by decide
  cases q <;> simp [State.step, State.open, hin, hout, hs]

theorem open_noBreak {k : Text} (hk : word k = true) :
    ∀ c ∈ '{' :: '"' :: k ++ ['"', ':'], isLineBreak c = false := by
  intro c hc
  rw [List.cons_append] at hc
  rcases List.mem_cons.mp hc with rfl | hc
  · decide
  · exact key_noBreak hk c hc

theorem object_eq (f : Text × Val) (fs : List (Text × Val)) :
    object f fs = ('{' :: '"' :: f.1 ++ ['"', ':']) ++ (f.2.render ++ (members fs ++ ['}'])) := by
  simp [object, member, members]

theorem lineScan_close {b : Bool} {q : State} (hq : Off b q) :
    ∃ q', lineScan q ['}'] = some q' ∧ q' ≠ .done := by
  have hb : isLineBreak '}' = false := by decide
  cases hq with
  | str d => exact ⟨.str d, by simp [lineScan, hb, State.step], by simp⟩
  | bad => exact ⟨.bad, by simp [lineScan, hb, State.step], by simp⟩

theorem lineScan_brace (d : Nat) : lineScan (.out (d + 1)) ['}'] = some (.out d) := by
  have hb : isLineBreak '}' = false := by decide
  simp [lineScan, hb, State.step]

/-- An object written behind the beginning of a line, or with a raw line break in a string, leaves
no line that scans as an object. -/
theorem lineScan_object_ne_done {f : Text × Val} {fs : List (Text × Val)}
    (h : FieldsOk true (f :: fs)) {q : State} (hq : q ≠ .start ∨ RawBreaks (f :: fs)) :
    ∃ q', lineScan q (object f fs) = some q' ∧ q' ≠ .done := by
  obtain ⟨hk, ha, hv, hfs⟩ := h
  have hoff : ∀ q', Off f.2.isStr q' →
      ∃ r, lineScan q' (members fs ++ ['}']) = some r ∧ r ≠ .done := by
    intro q' hq'
    obtain ⟨b, r, e, hr⟩ := lineScan_members_off hfs hq'
    rw [lineScan_append, e]
    exact lineScan_close hr
  rw [object_eq, lineScan_append, lineScan_noBreak (open_noBreak hk), scan_open hk (ha rfl),
    Option.bind_some, lineScan_append]
  have hopen : q.open = .bad ∨ ∃ d, q.open = .out d := by cases q <;> simp [State.open]
  by_cases hb : f.2.rawBreaks
  · obtain ⟨q', e, ho⟩ := Val.lineScan_rawBreaks hb hopen
    rw [e]
    exact hoff q' ho
  · rw [lineScan_noBreak (Val.render_noBreak hv hb), Option.bind_some]
    rcases hopen with ho | ⟨d, ho⟩
    · rw [ho, scan_bad]
      exact hoff _ (.bad _)
    · rw [ho, Val.scan_out hv, lineScan_append]
      rcases lineScan_members_out hfs d with ⟨hn, e⟩ | ⟨-, b, q', e, hq'⟩
      · have hq0 : q ≠ .start := hq.resolve_right (by simpa [RawBreaks, hb] using hn)
        obtain ⟨e', rfl⟩ : ∃ e', d = e' + 1 := by
          cases q <;> simp [State.open] at ho hq0 <;> exact ⟨_, ho.symm⟩
        rw [e]
        exact ⟨.out e', lineScan_brace e', by simp⟩
      · rw [e]
        exact lineScan_close hq'

/-- The scan accepts every object the writer makes. -/
theorem scan_object {f : Text × Val} {fs : List (Text × Val)} (h : FieldsOk true (f :: fs)) :
    scan .start (object f fs) = .done := by
  have hm : ∀ gs : List (Text × Val), (∀ g ∈ gs, word g.1 = true ∧ g.2.ok) →
      scan (.out 0) (members gs) = .out 0 := by
    intro gs hgs
    induction gs with
    | nil => rfl
    | cons g gs ih =>
      obtain ⟨hk, hv⟩ := hgs g (by simp)
      rw [members, List.flatMap_cons, List.cons_append, scan_cons, scan_out_comma, scan_append,
        member, scan_append, scan_out_member_key hk, Val.scan_out hv]
      exact ih (fun f hf => hgs f (by simp [hf]))
  obtain ⟨hk, ha, hv, hfs⟩ := h
  rw [object_eq, scan_append, scan_open hk (ha rfl), scan_append, State.open, Val.scan_out hv,
    scan_append, hm fs hfs.mem]
  simp [State.step]

theorem object_noBreak {f : Text × Val} {fs : List (Text × Val)} {b : Bool} (h : FieldsOk b (f :: fs))
    (hb : ¬RawBreaks (f :: fs)) : ∀ c ∈ object f fs, isLineBreak c = false := by
  have hmem : ∀ g ∈ f :: fs, ∀ c ∈ member g, isLineBreak c = false := by
    intro g hg c hc
    obtain ⟨hk, hv⟩ := h.mem g hg
    rcases List.mem_append.mp hc with hc | hc
    · exact key_noBreak hk c hc
    · exact Val.render_noBreak hv (fun hr => hb ⟨g, hg, hr⟩) c hc
  intro c hc
  simp only [object, List.cons_append, List.append_assoc, List.mem_cons, List.mem_append,
    List.mem_flatMap, List.not_mem_nil, or_false] at hc
  rcases hc with rfl | hc | ⟨g, hg, rfl | hc⟩ | rfl
  · decide
  · exact hmem f (by simp) c hc
  · decide
  · exact hmem g (by simp [hg]) c hc
  · decide

/-- The writer leaves no line break but the raw ones; in particular no carriage return. -/
theorem object_break {f : Text × Val} {fs : List (Text × Val)} {b : Bool} (h : FieldsOk b (f :: fs)) :
    ∀ c ∈ object f fs, isLineBreak c = rawBreak c := by
  have hno : ∀ c, isLineBreak c = false → isLineBreak c = rawBreak c := by
    intro c hc; simp [rawBreak, hc]
  have hesc : ∀ c, ∀ x ∈ escChar c, isLineBreak x = rawBreak x := by
    intro c x hx
    rcases escChar_cases c with ⟨e, -, -, hb⟩ | ⟨-, -, -, -, -, -, hb⟩
    · rw [e, List.mem_singleton] at hx
      rw [hx, hb]
    · exact hno x (escChar_noBreak hb x hx)
  have hval : ∀ v : Val, v.ok → ∀ c ∈ v.render, isLineBreak c = rawBreak c := by
    intro v hv c hc
    cases v with
    | raw t => exact hno c (hv c hc).2.1
    | str s =>
      simp only [Val.render, quote, List.mem_cons, List.mem_append, List.not_mem_nil, or_false,
        List.cons_append] at hc
      rcases hc with rfl | hc | rfl
      · decide
      · obtain ⟨d, -, hc⟩ := List.mem_flatMap.mp hc
        exact hesc d c hc
      · decide
  have hmem : ∀ g ∈ f :: fs, ∀ c ∈ member g, isLineBreak c = rawBreak c := by
    intro g hg c hc
    obtain ⟨hk, hv⟩ := h.mem g hg
    rcases List.mem_append.mp hc with hc | hc
    · exact hno c (key_noBreak hk c hc)
    · exact hval g.2 hv c hc
  intro c hc
  simp only [object, List.cons_append, List.append_assoc, List.mem_cons, List.mem_append,
    List.mem_flatMap, List.not_mem_nil, or_false] at hc
  rcases hc with rfl | hc | ⟨g, hg, rfl | hc⟩ | rfl
  · decide
  · exact hmem f (by simp) c hc
  · decide
  · exact hmem g (by simp [hg]) c hc
  · decide

/-! ## Reading back -/

def hexVal (c : Char) : Nat := if c.toNat < 58 then c.toNat - 48 else c.toNat - 87

theorem hexVal_hexDigit {n : Nat} (h : n < 16) : hexVal (hexDigit n) = n := by
  interval_cases n <;> decide

/-- Reads one written character. -/
def unescChar : Text → Option (Char × Text)
  | '\\' :: 'u' :: _ :: _ :: h :: l :: t => some (Char.ofNat (hexVal h * 16 + hexVal l), t)
  | '\\' :: e :: t =>
    some (if e = 'b' then Char.ofNat 8 else if e = 't' then Char.ofNat 9
      else if e = 'n' then Char.ofNat 10 else if e = 'f' then Char.ofNat 12
      else if e = 'r' then Char.ofNat 13 else e, t)
  | c :: t => some (c, t)
  | [] => none

theorem unescChar_escChar (c : Char) (t : Text) : unescChar (escChar c ++ t) = some (c, t) := by
  have hc : ∀ n, c.toNat = n → Char.ofNat n = c := by rintro n rfl; exact Char.ofNat_toNat c
  unfold escChar
  split_ifs with h1 h2 h3 h4 h5 h6 h7 h8
  · subst h1; rfl
  · subst h2; rfl
  · simpa [unescChar] using hc 8 h3
  · simpa [unescChar] using hc 9 h4
  · simpa [unescChar] using hc 10 h5
  · simpa [unescChar] using hc 12 h6
  · simpa [unescChar] using hc 13 h7
  · have hn : c.toNat / 16 * 16 + c.toNat % 16 = c.toNat := by omega
    simp only [List.cons_append, List.nil_append, unescChar]
    rw [hexVal_hexDigit (by omega), hexVal_hexDigit (by omega), hn, Char.ofNat_toNat]
  · rw [List.singleton_append]
    unfold unescChar
    split <;> simp_all

theorem escChar_head_ne_quote (c : Char) (t u : Text) : escChar c ++ t ≠ '"' :: u := by
  rcases escChar_cases c with ⟨e, h, -⟩ | ⟨e, r, he, -⟩
  · simp [e, h]
  · simp [he]

theorem escapes_quote_inj {s s' x y : Text}
    (h : escapes s ++ '"' :: x = escapes s' ++ '"' :: y) : s = s' ∧ x = y := by
  induction s generalizing s' with
  | nil =>
    cases s' with
    | nil => simpa [escapes] using h
    | cons c s' =>
      rw [escapes_cons, List.append_assoc] at h
      exact absurd h.symm (escChar_head_ne_quote c _ _)
  | cons c s ih =>
    cases s' with
    | nil =>
      rw [escapes_cons, List.append_assoc] at h
      exact absurd h (escChar_head_ne_quote c _ _)
    | cons c' s' =>
      simp only [escapes_cons, List.append_assoc] at h
      have hu := congrArg unescChar h
      rw [unescChar_escChar, unescChar_escChar, Option.some.injEq, Prod.mk.injEq] at hu
      obtain ⟨rfl, hr⟩ := hu
      obtain ⟨rfl, rfl⟩ := ih hr
      exact ⟨rfl, rfl⟩

/-- A rendered number or constant ends before the next separator. -/
def Val.delimited : Val → Prop
  | .str _ => True
  | .raw t => ∀ c ∈ t, c ≠ '"' ∧ c ≠ ',' ∧ c ≠ '}'

theorem raw_inj {t t' x y : Text} {c d : Char} (hc : c = ',' ∨ c = '}') (hd : d = ',' ∨ d = '}')
    (ht : (Val.raw t).delimited) (ht' : (Val.raw t').delimited)
    (h : t ++ c :: x = t' ++ d :: y) : t = t' ∧ c :: x = d :: y := by
  induction t generalizing t' with
  | nil =>
    cases t' with
    | nil => exact ⟨rfl, h⟩
    | cons a t' =>
      obtain ⟨-, h1, h2⟩ := ht' a (by simp)
      simp only [List.nil_append, List.cons_append, List.cons.injEq] at h
      rcases hc with rfl | rfl
      · exact absurd h.1.symm h1
      · exact absurd h.1.symm h2
  | cons a t ih =>
    cases t' with
    | nil =>
      obtain ⟨-, h1, h2⟩ := ht a (by simp)
      simp only [List.nil_append, List.cons_append, List.cons.injEq] at h
      rcases hd with rfl | rfl
      · exact absurd h.1 h1
      · exact absurd h.1 h2
    | cons b t' =>
      simp only [List.cons_append, List.cons.injEq] at h
      obtain ⟨rfl, h⟩ := h
      obtain ⟨rfl, e⟩ := ih (fun c hc => ht c (by simp [hc])) (fun c hc => ht' c (by simp [hc])) h
      exact ⟨rfl, e⟩

theorem raw_ne_quote {t s x y : Text} {c : Char} (hc : c = ',' ∨ c = '}')
    (ht : (Val.raw t).delimited) : t ++ c :: x ≠ quote s ++ y := by
  cases t with
  | nil => rcases hc with rfl | rfl <;> simp [quote]
  | cons a t =>
    obtain ⟨h, -, -⟩ := ht a (by simp)
    simp [quote, h]

theorem Val.render_inj {v w : Val} (hv : v.delimited) (hw : w.delimited) {c d : Char} {x y : Text}
    (hc : c = ',' ∨ c = '}') (hd : d = ',' ∨ d = '}')
    (h : v.render ++ c :: x = w.render ++ d :: y) : v = w ∧ c :: x = d :: y := by
  cases v with
  | str s =>
    cases w with
    | str s' =>
      simp only [render, quote, List.cons_append, List.cons.injEq, true_and, List.append_assoc,
        List.nil_append] at h
      obtain ⟨rfl, e⟩ := escapes_quote_inj h
      exact ⟨rfl, e⟩
    | raw t => exact absurd h.symm (raw_ne_quote hd hw)
  | raw t =>
    cases w with
    | str s' => exact absurd h (raw_ne_quote hc hv)
    | raw t' =>
      obtain ⟨rfl, e⟩ := raw_inj hc hd hv hw h
      exact ⟨rfl, e⟩

theorem members_close (fs : List (Text × Val)) :
    ∃ c x, members fs ++ ['}'] = c :: x ∧ (c = ',' ∨ c = '}') := by
  cases fs with
  | nil => exact ⟨'}', [], rfl, .inr rfl⟩
  | cons g fs => exact ⟨',', _, rfl, .inl rfl⟩

theorem members_inj {fs gs : List (Text × Val)} (hk : fs.map Prod.fst = gs.map Prod.fst)
    (hf : ∀ f ∈ fs, f.2.delimited) (hg : ∀ g ∈ gs, g.2.delimited)
    (h : members fs ++ ['}'] = members gs ++ ['}']) : fs = gs := by
  induction fs generalizing gs with
  | nil =>
    cases gs with
    | nil => rfl
    | cons g gs => simp at hk
  | cons f fs ih =>
    rcases gs with _ | ⟨g, gs⟩
    · simp at hk
    obtain ⟨k, v⟩ := f
    obtain ⟨k', w⟩ := g
    simp only [List.map_cons, List.cons.injEq] at hk
    obtain ⟨rfl, hk⟩ := hk
    have h' : v.render ++ (members fs ++ ['}']) = w.render ++ (members gs ++ ['}']) := by
      simpa [members, member] using h
    obtain ⟨c, x, e1, hc⟩ := members_close fs
    obtain ⟨d, y, e2, hd⟩ := members_close gs
    rw [e1, e2] at h'
    obtain ⟨rfl, e⟩ := Val.render_inj (hf (k, v) (by simp)) (hg (k, w) (by simp)) hc hd h'
    rw [← e1, ← e2] at e
    rw [ih hk (fun f hf' => hf f (by simp [hf'])) (fun g hg' => hg g (by simp [hg'])) e]

/-- The writer is injective on objects with the same keys. -/
theorem object_inj {f g : Text × Val} {fs gs : List (Text × Val)}
    (hk : (f :: fs).map Prod.fst = (g :: gs).map Prod.fst)
    (hf : ∀ x ∈ f :: fs, x.2.delimited) (hg : ∀ x ∈ g :: gs, x.2.delimited)
    (h : object f fs = object g gs) : f :: fs = g :: gs := by
  apply members_inj hk hf hg
  have e : ∀ (a : Text × Val) as, members (a :: as) ++ ['}'] = ',' :: (object a as).drop 1 := by
    intro a as; simp [members, object]
  rw [e, e, h]

end MainframeRag.JsonScan
