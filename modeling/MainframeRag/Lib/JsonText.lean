import MainframeRag.Lib.Hex
import MainframeRag.Lib.PyJson
import Mathlib

/-!
# JSON text

The text `json.dumps` writes and the reader of `json.loads`, over the values of `PyJson`: ASCII
output or not, one space or none after separators, a dict as its items in order. Reading what was written
gives the value back (`loads_render`), so the writer is injective (`render_injective`).

How a float is written and read is a parameter (`Floats`).
-/

namespace MainframeRag.JsonText

open PyText PyJson Hex

/-- `ensure_ascii`, and whether a blank follows a separator. -/
structure Style where
  ascii : Bool
  spaced : Bool

/-- The defaults of `json.dumps`. -/
def plainStyle : Style := ⟨true, true⟩

/-! ## Strings -/

/-- Four digits of a `\u` escape. -/
def hex4 (n : Nat) : Text :=
  [digit (n / 4096 % 16), digit (n / 256 % 16), digit (n / 16 % 16), digit (n % 16)]

/-- `\uXXXX`, or a surrogate pair of them. -/
def unicodeEscape (n : Nat) : Text :=
  if n < 0x10000 then '\\' :: 'u' :: hex4 n
  else '\\' :: 'u' :: hex4 (0xd800 + (n - 0x10000) / 1024) ++
    '\\' :: 'u' :: hex4 (0xdc00 + (n - 0x10000) % 1024)

def escape (style : Style) (c : Char) : Text :=
  if c = '"' then ['\\', '"']
  else if c = '\\' then ['\\', '\\']
  else if c = '\n' then ['\\', 'n']
  else if c = '\r' then ['\\', 'r']
  else if c = '\t' then ['\\', 't']
  else if c.toNat = 12 then ['\\', 'f']
  else if c.toNat = 8 then ['\\', 'b']
  else if 32 ≤ c.toNat ∧ (c.toNat ≤ 126 ∨ style.ascii = false) then [c]
  else unicodeEscape c.toNat

def quote (style : Style) (s : Text) : Text := '"' :: s.flatMap (escape style) ++ ['"']

def readHex4 : Text → Option (Nat × Text)
  | a :: b :: c :: d :: t => do
    let a ← digitVal a
    let b ← digitVal b
    let c ← digitVal c
    let d ← digitVal d
    return (4096 * a + 256 * b + 16 * c + d, t)
  | _ => none

/-- What follows the backslash of an escape other than `\u`. -/
def simpleEscape (c : Char) : Option Char :=
  if c = '"' ∨ c = '\\' ∨ c = '/' then some c
  else if c = 'n' then some '\n'
  else if c = 'r' then some '\r'
  else if c = 't' then some '\t'
  else if c = 'f' then some (Char.ofNat 12)
  else if c = 'b' then some (Char.ofNat 8)
  else none

/-- The second half of a surrogate pair. -/
def readLow (high : Nat) (t : Text) : Option (Char × Text) :=
  match t with
  | '\\' :: 'u' :: t => do
    let (low, t) ← readHex4 t
    if 0xdc00 ≤ low ∧ low ≤ 0xdfff then
      some (Char.ofNat (0x10000 + (high - 0xd800) * 1024 + (low - 0xdc00)), t)
    else none
  | _ => none

/-- After `\u`. A lone surrogate is no character here. -/
def readUnicode (t : Text) : Option (Char × Text) := do
  let (n, t) ← readHex4 t
  if 0xd800 ≤ n ∧ n ≤ 0xdbff then readLow n t
  else if 0xdc00 ≤ n ∧ n ≤ 0xdfff then none
  else some (Char.ofNat n, t)

def readChar : Text → Option (Char × Text)
  | [] => none
  | c :: t =>
    if c = '\\' then
      match t with
      | [] => none
      | e :: t => if e = 'u' then readUnicode t else (simpleEscape e).map fun c => (c, t)
    else if c.toNat < 32 then none
    else some (c, t)

/-- The rest of a string, behind its opening quote. -/
def readString : Nat → Text → Option (Text × Text)
  | 0, _ => none
  | _ + 1, [] => none
  | n + 1, c :: t =>
    if c = '"' then some ([], t)
    else do
      let (x, t) ← readChar (c :: t)
      let (s, t) ← readString n t
      return (x :: s, t)

theorem readHex4_hex4 {n : Nat} (h : n < 65536) (t : Text) : readHex4 (hex4 n ++ t) = some (n, t) := by
  have hval : 4096 * (n / 4096 % 16) + 256 * (n / 256 % 16) + 16 * (n / 16 % 16) + n % 16 = n := by
    omega
  simp only [hex4, List.cons_append, List.nil_append, readHex4,
    digitVal_digit (Nat.mod_lt _ (Nat.zero_lt_succ 15)), Option.bind_eq_bind, Option.bind_some,
    Option.pure_def, hval]

theorem readUnicode_low {n : Nat} (h : n < 0xd800 ∨ 0xdfff < n ∧ n < 0x10000) (t : Text) :
    readUnicode (hex4 n ++ t) = some (Char.ofNat n, t) := by
  rw [readUnicode, readHex4_hex4 (by omega)]
  simp only [Option.bind_eq_bind, Option.bind_some]
  rw [if_neg (by omega), if_neg (by omega)]

theorem readUnicode_pair {high low : Nat} (hh : 0xd800 ≤ high ∧ high ≤ 0xdbff)
    (hl : 0xdc00 ≤ low ∧ low ≤ 0xdfff) (t : Text) :
    readUnicode (hex4 high ++ '\\' :: 'u' :: (hex4 low ++ t)) =
      some (Char.ofNat (0x10000 + (high - 0xd800) * 1024 + (low - 0xdc00)), t) := by
  rw [readUnicode, readHex4_hex4 (by omega)]
  simp only [Option.bind_eq_bind, Option.bind_some]
  rw [if_pos hh, readLow, readHex4_hex4 (by omega)]
  simp only [Option.bind_eq_bind, Option.bind_some]
  rw [if_pos hl]

theorem surrogates_value {n : Nat} (h : 0x10000 ≤ n) :
    0x10000 + (0xd800 + (n - 0x10000) / 1024 - 0xd800) * 1024 +
      (0xdc00 + (n - 0x10000) % 1024 - 0xdc00) = n := by
  rw [Nat.add_sub_cancel_left, Nat.add_sub_cancel_left]
  omega

theorem toNat_valid (c : Char) : c.toNat < 0xd800 ∨ 0xdfff < c.toNat ∧ c.toNat < 0x110000 :=
  c.valid

theorem readChar_escape (style : Style) (c : Char) (t : Text) :
    readChar (escape style c ++ t) = some (c, t) := by
  have hc : Char.ofNat c.toNat = c := Char.ofNat_toNat c
  have hback : ∀ e x : Char, e ≠ 'u' → simpleEscape e = some x →
      readChar (['\\', e] ++ t) = some (x, t) := by
    intro e x he hx
    simp only [List.cons_append, List.nil_append, readChar, if_pos, if_neg he, hx, Option.map_some]
  unfold escape
  split
  · rename_i h
    exact h ▸ hback '"' '"' (by decide) rfl
  split
  · rename_i h
    exact h ▸ hback '\\' '\\' (by decide) rfl
  split
  · rename_i h
    exact h ▸ hback 'n' '\n' (by decide) rfl
  split
  · rename_i h
    exact h ▸ hback 'r' '\r' (by decide) rfl
  split
  · rename_i h
    exact h ▸ hback 't' '\t' (by decide) rfl
  split
  · rename_i h
    rw [← hc, h]
    exact hback 'f' _ (by decide) rfl
  split
  · rename_i h
    rw [← hc, h]
    exact hback 'b' _ (by decide) rfl
  split
  · rename_i hne _ _ _ _ _ h
    simp only [List.cons_append, List.nil_append, readChar, if_neg hne]
    rw [if_neg (by omega)]
  · have hvalid := toNat_valid c
    unfold unicodeEscape
    split
    · simp only [List.cons_append, readChar, if_pos]
      rw [readUnicode_low (by omega), hc]
    · simp only [List.cons_append, List.append_assoc, readChar, if_pos]
      rw [readUnicode_pair (by omega) (by omega), surrogates_value (by omega), hc]

theorem escape_head (style : Style) (c : Char) : ∃ x t, escape style c = x :: t ∧ x ≠ '"' := by
  unfold escape
  split
  · exact ⟨_, _, rfl, by decide⟩
  · rename_i hne
    repeat' split
    all_goals first
      | exact ⟨_, _, rfl, by decide⟩
      | exact ⟨_, _, rfl, hne⟩
      | (unfold unicodeEscape; split <;> exact ⟨_, _, rfl, by decide⟩)

theorem readString_escape (style : Style) (s : Text) {n : Nat} (h : s.length < n) (t : Text) :
    readString n (s.flatMap (escape style) ++ '"' :: t) = some (s, t) := by
  induction s generalizing n with
  | nil =>
    obtain ⟨m, rfl⟩ : ∃ m, n = m + 1 := ⟨n - 1, by simp at h; omega⟩
    rfl
  | cons c s ih =>
    obtain ⟨m, rfl⟩ : ∃ m, n = m + 1 := ⟨n - 1, by simp at h; omega⟩
    have hread := readChar_escape style c (s.flatMap (escape style) ++ '"' :: t)
    obtain ⟨x, e, he, hx⟩ := escape_head style c
    rw [he, List.cons_append] at hread
    rw [List.flatMap_cons, he, List.append_assoc, List.cons_append, readString, if_neg hx, hread]
    simp only [Option.bind_eq_bind, Option.bind_some,
      ih (Nat.lt_of_succ_lt_succ (by simpa using h)), Option.pure_def]

/-! ## Numbers -/

/-- `str(n)` -/
def decimal : Int → Text
  | .ofNat n => Nat.toDigits 10 n
  | .negSucc n => '-' :: Nat.toDigits 10 (n + 1)

/-- `int(text)` on the text of an integer literal. -/
def intOf : Text → Int
  | '-' :: t => -(Nat.ofDigitChars 10 t 0 : Nat)
  | t => (Nat.ofDigitChars 10 t 0 : Nat)

/-- A sign, if there is one, and what follows. -/
def readSign : Text → Text × Text
  | [] => ([], [])
  | c :: t => if c = '-' then (['-'], t) else ([], c :: t)

/-- The fraction of a number and what follows. -/
def readFrac : Text → Text × Text
  | [] => ([], [])
  | c :: t =>
    if c = '.' ∧ t.takeWhile Char.isDigit ≠ [] then
      ('.' :: t.takeWhile Char.isDigit, t.dropWhile Char.isDigit)
    else ([], c :: t)

/-- The exponent of a number and what follows. -/
def readExp : Text → Text × Text
  | [] => ([], [])
  | c :: t =>
    let (sign, u) := match t with
      | [] => ([], [])
      | d :: u => if d = '+' ∨ d = '-' then ([d], u) else ([], d :: u)
    if (c = 'e' ∨ c = 'E') ∧ u.takeWhile Char.isDigit ≠ [] then
      (c :: sign ++ u.takeWhile Char.isDigit, u.dropWhile Char.isDigit)
    else ([], c :: t)

/-- The text of a number, whether it is a float, and what follows. -/
def numberToken (t : Text) : Option (Text × Bool × Text) :=
  let (sign, t) := readSign t
  let whole := t.takeWhile Char.isDigit
  if whole = [] ∨ (whole.head? = some '0' ∧ 1 < whole.length) then none
  else
    let (frac, t) := readFrac (t.dropWhile Char.isDigit)
    let (exp, t) := readExp t
    some (sign ++ whole ++ frac ++ exp, frac ≠ [] || exp ≠ [], t)

/-- No number goes on here. -/
def Stops (t : Text) : Prop :=
  ∀ c u, t = c :: u → c.isDigit = false ∧ c ≠ '.' ∧ c ≠ 'e' ∧ c ≠ 'E'

theorem stops_nil : Stops [] := nofun

theorem stops_cons {c : Char} {t : Text}
    (h : c.isDigit = false ∧ c ≠ '.' ∧ c ≠ 'e' ∧ c ≠ 'E') : Stops (c :: t) := by
  intro x u e
  obtain ⟨rfl, rfl⟩ := List.cons.inj e
  exact h

theorem takeWhile_digits {ds t : Text} (hd : ∀ c ∈ ds, c.isDigit = true) (ht : Stops t) :
    (ds ++ t).takeWhile Char.isDigit = ds ∧ (ds ++ t).dropWhile Char.isDigit = t := by
  have htail : t.takeWhile Char.isDigit = [] ∧ t.dropWhile Char.isDigit = t := by
    cases t with
    | nil => exact ⟨rfl, rfl⟩
    | cons c t => simp [(ht c t rfl).1]
  constructor
  · rw [List.takeWhile_append_of_pos hd, htail.1, List.append_nil]
  · rw [List.dropWhile_append_of_pos hd, htail.2]

theorem toDigits_isDigit (n : Nat) : ∀ c ∈ Nat.toDigits 10 n, c.isDigit = true := fun _ hc =>
  Nat.isDigit_of_mem_toDigits (by decide) (by decide) hc

/-- Only zero is written with a leading zero. -/
theorem head_toDigits {n : Nat} (h : (Nat.toDigits 10 n).head? = some '0') : n = 0 := by
  induction n using Nat.strong_induction_on with
  | _ n ih =>
    rw [Nat.toDigits_eq_if (by decide)] at h
    split at h
    · rename_i hn
      interval_cases n
      all_goals first
        | rfl
        | exact absurd h (by decide)
    · rw [List.head?_append_of_ne_nil _ Nat.toDigits_ne_nil] at h
      have := ih (n / 10) (by omega) h
      omega

theorem readFrac_stops {t : Text} (h : Stops t) : readFrac t = ([], t) := by
  cases t with
  | nil => rfl
  | cons c t => simp [readFrac, (h c t rfl).2.1]

theorem readExp_stops {t : Text} (h : Stops t) : readExp t = ([], t) := by
  cases t with
  | nil => rfl
  | cons c t =>
    obtain ⟨-, -, he, hE⟩ := h c t rfl
    simp [readExp, he, hE]

theorem numberToken_digits {sign : Text} (hs : sign = [] ∨ sign = ['-']) (n : Nat) {t : Text}
    (h : Stops t) :
    numberToken (sign ++ Nat.toDigits 10 n ++ t) = some (sign ++ Nat.toDigits 10 n, false, t) := by
  obtain ⟨htake, hdrop⟩ := takeWhile_digits (toDigits_isDigit n) h
  have hsign : readSign (sign ++ Nat.toDigits 10 n ++ t) = (sign, Nat.toDigits 10 n ++ t) := by
    rcases hs with rfl | rfl
    · cases hds : Nat.toDigits 10 n with
      | nil => exact absurd hds Nat.toDigits_ne_nil
      | cons d ds =>
        have hd := toDigits_isDigit n d (by rw [hds]; exact List.mem_cons_self)
        have hne : d ≠ '-' := by
          rintro rfl
          cases hd
        simp [readSign, hne]
    · rfl
  have hlead : ¬ (Nat.toDigits 10 n = [] ∨
      ((Nat.toDigits 10 n).head? = some '0' ∧ 1 < (Nat.toDigits 10 n).length)) := by
    rintro (hnil | ⟨hzero, hlen⟩)
    · exact Nat.toDigits_ne_nil hnil
    · rw [head_toDigits hzero, Nat.toDigits_zero] at hlen
      exact absurd hlen (Nat.lt_irrefl 1)
  simp only [numberToken, hsign, htake, hdrop]
  rw [if_neg hlead, readFrac_stops h, readExp_stops h]
  simp

theorem numberToken_decimal (n : Int) {t : Text} (h : Stops t) :
    numberToken (decimal n ++ t) = some (decimal n, false, t) := by
  cases n with
  | ofNat n => exact numberToken_digits (.inl rfl) n h
  | negSucc n => exact numberToken_digits (.inr rfl) (n + 1) h

theorem intOf_decimal (n : Int) : intOf (decimal n) = n := by
  cases n with
  | ofNat n =>
    cases hds : Nat.toDigits 10 n with
    | nil => exact absurd hds Nat.toDigits_ne_nil
    | cons d ds =>
      have hd := toDigits_isDigit n d (by rw [hds]; exact List.mem_cons_self)
      have hne : d ≠ '-' := by
        rintro rfl
        cases hd
      have := @Nat.ofDigitChars_ten_toDigits n
      rw [hds] at this
      simp only [decimal, hds, intOf]
      split
      · rename_i e
        exact absurd (List.cons.inj e).1 hne
      · rw [this]
        rfl
  | negSucc n =>
    simp only [decimal, intOf, Nat.ofDigitChars_ten_toDigits]
    rfl

/-! ## Atoms -/

variable {F : Type}

/-- `null`, a truth value or a float constant. -/
def constants (read : Text → F) : List (Text × Json F) :=
  [("null".toList, .null), ("true".toList, .bool true), ("false".toList, .bool false),
    ("NaN".toList, .float (read "NaN".toList)), ("Infinity".toList, .float (read "Infinity".toList)),
    ("-Infinity".toList, .float (read "-Infinity".toList))]

def readNumber (read : Text → F) (t : Text) : Option (Json F × Text) :=
  (numberToken t).map fun (token, isFloat, rest) =>
    (if isFloat then .float (read token) else .int (intOf token), rest)

def readAtom (read : Text → F) (t : Text) : Option (Json F × Text) :=
  match (constants read).find? fun c => c.1.isPrefixOf t with
  | some c => some (c.2, t.drop c.1.length)
  | none => readNumber read t

theorem numberToken_head {t : Text} {r : Text × Bool × Text} (h : numberToken t = some r) :
    ∃ c u, t = c :: u ∧ (c.isDigit = true ∨ c = '-' ∧ ∃ d u', u = d :: u' ∧ d.isDigit = true) := by
  have hdigit : ∀ u : Text, u.takeWhile Char.isDigit ≠ [] → ∃ d u', u = d :: u' ∧ d.isDigit = true := by
    intro u hu
    cases u with
    | nil => exact absurd rfl hu
    | cons d u' =>
      refine ⟨d, u', rfl, ?_⟩
      cases hd : d.isDigit
      · simp [hd] at hu
      · rfl
  have hwhole : (readSign t).2.takeWhile Char.isDigit ≠ [] := by
    intro hnil
    simp [numberToken, hnil] at h
  cases t with
  | nil => exact absurd rfl hwhole
  | cons c u =>
    refine ⟨c, u, rfl, ?_⟩
    by_cases hc : c = '-'
    · subst hc
      exact .inr ⟨rfl, hdigit u hwhole⟩
    · simp only [readSign, if_neg hc] at hwhole
      obtain ⟨d, u', he, hd⟩ := hdigit _ hwhole
      rw [List.cons.injEq] at he
      exact .inl (he.1 ▸ hd)

theorem readAtom_number {read : Text → F} {t token rest : Text} {isFloat : Bool}
    (h : numberToken t = some (token, isFloat, rest)) :
    readAtom read t = some (if isFloat then .float (read token) else .int (intOf token), rest) := by
  have hnone : (constants read).find? (fun c => c.1.isPrefixOf t) = none := by
    obtain ⟨c, u, rfl, hc⟩ := numberToken_head h
    have hne : ∀ x : Char, x.isDigit = false → x ≠ '-' → x ≠ c := by
      rintro x hx hm rfl
      rcases hc with hd | ⟨rfl, -⟩
      · rw [hx] at hd
        cases hd
      · exact hm rfl
    have hsecond : ¬ "-Infinity".toList.isPrefixOf (c :: u) = true := by
      intro hp
      obtain ⟨v, hv⟩ := List.isPrefixOf_iff_prefix.mp hp
      rcases hc with hd | ⟨rfl, d, u', rfl, hd⟩
      · obtain rfl := (List.cons.inj hv).1
        cases hd
      · obtain rfl := (List.cons.inj (List.cons.inj hv).2).1
        cases hd
    have hfirst : ∀ (x : Char) (k : Text), x ≠ c → (x :: k).isPrefixOf (c :: u) = false := by
      intro x k hx
      simp [List.isPrefixOf, hx]
    simp only [constants, List.find?_eq_none, List.mem_cons, List.not_mem_nil, or_false]
    rintro x (rfl | rfl | rfl | rfl | rfl | rfl)
    · exact Bool.eq_false_iff.mp (hfirst 'n' _ (hne _ rfl (by decide)))
    · exact Bool.eq_false_iff.mp (hfirst 't' _ (hne _ rfl (by decide)))
    · exact Bool.eq_false_iff.mp (hfirst 'f' _ (hne _ rfl (by decide)))
    · exact Bool.eq_false_iff.mp (hfirst 'N' _ (hne _ rfl (by decide)))
    · exact Bool.eq_false_iff.mp (hfirst 'I' _ (hne _ rfl (by decide)))
    · exact hsecond
  simp only [readAtom, hnone, readNumber, h, Option.map_some]

/-- What a float is written with. -/
def floatChar (c : Char) : Bool := c.isAlphanum || c = '+' || c = '-' || c = '.'

/-- The floats as `json` writes and reads them, `NaN` and the infinities included. -/
structure Floats (F : Type) where
  text : F → Text
  read : Text → F
  /-- what is written reads back -/
  atom : ∀ x t, Stops t → readAtom read (text x ++ t) = some (.float x, t)
  text_ne_nil : ∀ x, text x ≠ []
  floatChars : ∀ x, ∀ c ∈ text x, floatChar c = true

/-! ## Values -/

variable (N : Floats F)

/-- What follows a separator. -/
def gap (style : Style) : Text := if style.spaced then [' '] else []

mutual

/-- `json.dumps`, with the separators and escapes of `style`. -/
def render (style : Style) : Json F → Text
  | .null => "null".toList
  | .bool true => "true".toList
  | .bool false => "false".toList
  | .int n => decimal n
  | .float x => N.text x
  | .str s => quote style s
  | .arr items => '[' :: renderElems style items
  | .obj items => '\x7b' :: renderMembers style items

def renderElems (style : Style) : List (Json F) → Text
  | [] => [']']
  | [v] => render style v ++ [']']
  | v :: w :: rest => render style v ++ ',' :: gap style ++ renderElems style (w :: rest)

def renderMembers (style : Style) : List (Text × Json F) → Text
  | [] => ['\x7d']
  | [(k, v)] => quote style k ++ ':' :: gap style ++ render style v ++ ['\x7d']
  | (k, v) :: m :: rest =>
    quote style k ++ ':' :: gap style ++ render style v ++ ',' :: gap style ++
      renderMembers style (m :: rest)

end

def isBlank (c : Char) : Bool := c = ' ' || c = '\t' || c = '\n' || c = '\r'

def skip (t : Text) : Text := t.dropWhile isBlank

mutual

/-- One value at the head of a text, and what follows. -/
def readValue : Nat → Text → Option (Json F × Text)
  | 0, _ => none
  | _ + 1, [] => none
  | n + 1, c :: t =>
    if c = '"' then (readString (t.length + 1) t).map fun (s, t) => (.str s, t)
    else if c = '[' then
      if (skip t).head? = some ']' then some (.arr [], (skip t).tail)
      else (readElems n (skip t)).map fun (items, t) => (.arr items, t)
    else if c = '\x7b' then
      if (skip t).head? = some '\x7d' then some (.obj [], (skip t).tail)
      else (readMembers n (skip t)).map fun (items, t) => (.obj items, t)
    else readAtom N.read (c :: t)

/-- The items of a list, from the first to the closing bracket. -/
def readElems : Nat → Text → Option (List (Json F) × Text)
  | 0, _ => none
  | n + 1, t => do
    let (v, t) ← readValue n t
    match skip t with
    | [] => none
    | c :: t =>
      if c = ']' then some ([v], t)
      else if c = ',' then do
        let (items, t) ← readElems n (skip t)
        some (v :: items, t)
      else none

/-- The members of a dict, from the first to the closing brace. -/
def readMembers : Nat → Text → Option (List (Text × Json F) × Text)
  | 0, _ => none
  | _ + 1, [] => none
  | n + 1, c :: t =>
    if c = '"' then do
      let (k, t) ← readString (t.length + 1) t
      match skip t with
      | [] => none
      | c :: t =>
        if c = ':' then do
          let (v, t) ← readValue n (skip t)
          match skip t with
          | [] => none
          | c :: t =>
            if c = '\x7d' then some ([(k, v)], t)
            else if c = ',' then do
              let (items, t) ← readMembers n (skip t)
              some ((k, v) :: items, t)
            else none
        else none
    else none

end

/-- `json.loads`, a dict as the pairs its hook gets. -/
def loads (t : Text) : Option (Json F) :=
  match readValue N (t.length + 1) (skip t) with
  | some (v, rest) => if skip rest = [] then some v else none
  | none => none

/-! ## Reading what was written -/

theorem floatChar_plain {c : Char} (h : floatChar c = true) :
    isBlank c = false ∧ c ≠ ']' ∧ (c ≠ '"' ∧ c ≠ '[' ∧ c ≠ '\x7b') ∧ 32 ≤ c.toNat := by
  refine ⟨?_, ?_, ⟨?_, ?_, ?_⟩, ?_⟩
  · simp only [isBlank, Bool.or_eq_false_iff, decide_eq_false_iff_not]
    refine ⟨⟨⟨?_, ?_⟩, ?_⟩, ?_⟩ <;> rintro rfl <;> cases h
  · rintro rfl
    cases h
  · rintro rfl
    cases h
  · rintro rfl
    cases h
  · rintro rfl
    cases h
  · by_contra hlt
    have hsmall : ∀ k < 32, floatChar (Char.ofNat k) = false := by decide
    have := hsmall c.toNat (by omega)
    rw [Char.ofNat_toNat, h] at this
    cases this

theorem decimal_floatChars (n : Int) : ∀ c ∈ decimal n, floatChar c = true := by
  have hdigit : ∀ c : Char, c.isDigit = true → floatChar c = true := by
    intro c hc
    simp [floatChar, Char.isAlphanum, hc]
  cases n with
  | ofNat n => exact fun c hc => hdigit c (toDigits_isDigit n c hc)
  | negSucc n =>
    intro c hc
    rcases List.mem_cons.mp hc with rfl | hc
    · rfl
    · exact hdigit c (toDigits_isDigit (n + 1) c hc)

theorem decimal_ne_nil (n : Int) : decimal n ≠ [] := by
  cases n with
  | ofNat n => exact Nat.toDigits_ne_nil
  | negSucc n => exact List.cons_ne_nil _ _

/-- How a written value starts. -/
theorem render_head (style : Style) (v : Json F) :
    ∃ c t, render N style v = c :: t ∧ isBlank c = false ∧ c ≠ ']' := by
  have hatom : ∀ a : Text, a ≠ [] → (∀ c ∈ a, floatChar c = true) →
      ∃ c t, a = c :: t ∧ isBlank c = false ∧ c ≠ ']' := by
    intro a hne ha
    cases a with
    | nil => exact absurd rfl hne
    | cons c t =>
      have := floatChar_plain (ha c List.mem_cons_self)
      exact ⟨c, t, rfl, this.1, this.2.1⟩
  cases v with
  | null => exact ⟨_, _, rfl, by decide, by decide⟩
  | bool b => cases b <;> exact ⟨_, _, rfl, by decide, by decide⟩
  | int n => simpa only [render] using hatom _ (decimal_ne_nil n) (decimal_floatChars n)
  | float x => simpa only [render] using hatom _ (N.text_ne_nil x) (N.floatChars x)
  | str s => exact ⟨_, _, by rw [render, quote, List.cons_append], by decide, by decide⟩
  | arr items => exact ⟨_, _, by rw [render], by decide, by decide⟩
  | obj items => exact ⟨_, _, by rw [render], by decide, by decide⟩

theorem skip_cons {c : Char} {t : Text} (h : isBlank c = false) : skip (c :: t) = c :: t := by
  simp [skip, h]

theorem skip_gap (style : Style) (t : Text) : skip (gap style ++ t) = skip t := by
  unfold gap
  cases style.spaced <;> rfl

theorem skip_render (style : Style) (v : Json F) (t : Text) :
    skip (render N style v ++ t) = render N style v ++ t := by
  obtain ⟨c, u, he, hc, -⟩ := render_head N style v
  rw [he, List.cons_append, skip_cons hc]

theorem stops_close {c : Char} (t : Text) (h : c = ',' ∨ c = ']' ∨ c = '\x7d') : Stops (c :: t) := by
  rcases h with rfl | rfl | rfl <;> exact stops_cons (by decide)

theorem render_ne_nil (style : Style) (v : Json F) : render N style v ≠ [] := by
  obtain ⟨c, t, he, -⟩ := render_head N style v
  simp [he]

theorem readValue_const {n : Nat} {t : Text} {c : Char}
    (hc : c ≠ '"' ∧ c ≠ '[' ∧ c ≠ '\x7b') :
    readValue N (n + 1) (c :: t) = readAtom N.read (c :: t) := by
  rw [readValue, if_neg hc.1, if_neg hc.2.1, if_neg hc.2.2]

theorem readValue_atom {n : Nat} {a t : Text} (hne : a ≠ []) (ha : ∀ c ∈ a, floatChar c = true) :
    readValue N (n + 1) (a ++ t) = readAtom N.read (a ++ t) := by
  cases a with
  | nil => exact absurd rfl hne
  | cons c a => exact readValue_const N (floatChar_plain (ha c List.mem_cons_self)).2.2.1

theorem readString_quote (style : Style) (s t : Text) {n : Nat} (h : (quote style s ++ t).length ≤ n + 2) :
    readString (n + 1) (s.flatMap (escape style) ++ ['"'] ++ t) = some (s, t) := by
  have hlen : s.length ≤ (s.flatMap (escape style)).length := by
    clear h
    induction s with
    | nil => exact Nat.le_refl _
    | cons c s ih =>
      obtain ⟨x, u, he, -⟩ := escape_head style c
      simp only [List.flatMap_cons, he, List.length_append, List.length_cons]
      omega
  rw [List.append_assoc]
  refine readString_escape style s ?_ t
  simp only [quote, List.length_append, List.length_cons, List.length_nil] at h
  omega

mutual

theorem readValue_render (style : Style) : ∀ (v : Json F) (n : Nat) (t : Text),
    (render N style v).length ≤ n → Stops t → readValue N n (render N style v ++ t) = some (v, t)
  | v, 0, t, hlen, _ => absurd (List.length_eq_zero_iff.mp (Nat.le_zero.mp hlen))
      (render_ne_nil N style v)
  | .null, n + 1, t, _, _ => by
    simp only [render]
    exact readValue_const N (by decide)
  | .bool true, n + 1, t, _, _ => by
    simp only [render]
    exact readValue_const N (by decide)
  | .bool false, n + 1, t, _, _ => by
    simp only [render]
    exact readValue_const N (by decide)
  | .int i, n + 1, t, _, ht => by
    simp only [render]
    rw [readValue_atom N (decimal_ne_nil i) (decimal_floatChars i),
      readAtom_number (numberToken_decimal i ht), intOf_decimal]
    rfl
  | .float x, n + 1, t, _, ht => by
    simp only [render]
    rw [readValue_atom N (N.text_ne_nil x) (N.floatChars x), N.atom x t ht]
  | .str s, n + 1, t, _, _ => by
    simp only [render, quote, List.cons_append]
    rw [readValue, if_pos rfl, readString_quote style s t (by simp [quote]), Option.map_some]
  | .arr [], n + 1, t, _, _ => by
    simp only [render, renderElems, List.cons_append, List.nil_append]
    rw [readValue, if_neg (by decide), if_pos rfl]
    rfl
  | .arr (v :: rest), n + 1, t, hlen, _ => by
    simp only [render, List.length_cons] at hlen
    have ih := readElems_render style v rest n t (by omega)
    have hhead : (skip (renderElems N style (v :: rest) ++ t)).head? ≠ some ']' ∧
        skip (renderElems N style (v :: rest) ++ t) = renderElems N style (v :: rest) ++ t := by
      obtain ⟨c, u, he, hc, hne⟩ := render_head N style v
      have : ∃ w, renderElems N style (v :: rest) ++ t = c :: w := by
        cases rest <;> simp only [renderElems, he] <;> exact ⟨_, rfl⟩
      obtain ⟨w, hw⟩ := this
      rw [hw, skip_cons hc]
      exact ⟨by simpa using hne, rfl⟩
    simp only [render, List.cons_append]
    rw [readValue, if_neg (by decide), if_pos rfl, if_neg hhead.1, hhead.2, ih, Option.map_some]
  | .obj [], n + 1, t, _, _ => by
    simp only [render, renderMembers, List.cons_append, List.nil_append]
    rw [readValue, if_neg (by decide), if_neg (by decide), if_pos rfl]
    rfl
  | .obj ((k, v) :: rest), n + 1, t, hlen, _ => by
    simp only [render, List.length_cons] at hlen
    have ih := readMembers_render style k v rest n t (by omega)
    have hhead : ∃ w, renderMembers N style ((k, v) :: rest) ++ t = '"' :: w := by
      cases rest <;> simp only [renderMembers, quote, List.cons_append] <;> exact ⟨_, rfl⟩
    obtain ⟨w, hw⟩ := hhead
    simp only [render, List.cons_append]
    rw [hw] at ih ⊢
    rw [readValue, if_neg (by decide), if_neg (by decide), if_pos rfl, skip_cons (by decide),
      if_neg (by simp), ih, Option.map_some]

theorem readElems_render (style : Style) : ∀ (v : Json F) (rest : List (Json F))
    (n : Nat) (t : Text), (renderElems N style (v :: rest)).length ≤ n →
      readElems N n (renderElems N style (v :: rest) ++ t) = some (v :: rest, t)
  | v, rest, 0, t, hlen => by
    cases rest <;> simp [renderElems] at hlen
  | v, [], n + 1, t, hlen => by
    simp only [renderElems, List.length_append, List.length_cons, List.length_nil] at hlen
    have ih := readValue_render style v n (']' :: t) (by omega) (stops_close t (by simp))
    simp only [renderElems, List.append_assoc, List.cons_append, List.nil_append]
    rw [readElems, ih]
    rfl
  | v, w :: rest, n + 1, t, hlen => by
    simp only [renderElems, List.length_append, List.length_cons] at hlen
    have hv := readValue_render style v n
      (',' :: (gap style ++ (renderElems N style (w :: rest) ++ t))) (by omega)
      (stops_close _ (by simp))
    have hrest := readElems_render style w rest n t (by omega)
    have hskip : skip (gap style ++ (renderElems N style (w :: rest) ++ t)) =
        renderElems N style (w :: rest) ++ t := by
      rw [skip_gap]
      cases rest with
      | nil => simpa only [renderElems, List.append_assoc] using skip_render N style w _
      | cons x rest => simpa only [renderElems, List.append_assoc] using skip_render N style w _
    simp only [renderElems, List.append_assoc, List.cons_append]
    rw [readElems, hv]
    simp only [Option.bind_eq_bind, Option.bind_some]
    rw [skip_cons (by decide)]
    simp only
    rw [if_neg (by decide), if_pos trivial, hskip, hrest, Option.bind_some]

theorem readMembers_render (style : Style) : ∀ (k : Text) (v : Json F)
    (rest : List (Text × Json F)) (n : Nat) (t : Text),
      (renderMembers N style ((k, v) :: rest)).length ≤ n →
      readMembers N n (renderMembers N style ((k, v) :: rest) ++ t) = some ((k, v) :: rest, t)
  | k, v, rest, 0, t, hlen => by
    cases rest <;> simp [renderMembers] at hlen
  | k, v, [], n + 1, t, hlen => by
    simp only [renderMembers, List.length_append, List.length_cons, List.length_nil] at hlen
    have ih := readValue_render style v n ('\x7d' :: t) (by omega) (stops_close t (by simp))
    have hkey := readString_quote style k (':' :: (gap style ++ (render N style v ++ '\x7d' :: t)))
      (n := (k.flatMap (escape style) ++ ['"'] ++
        ':' :: (gap style ++ (render N style v ++ '\x7d' :: t))).length) (by simp [quote])
    simp only [renderMembers, List.append_assoc, List.cons_append, List.nil_append, quote]
      at hkey ⊢
    rw [readMembers, if_pos rfl, hkey]
    simp only [Option.bind_eq_bind, Option.bind_some]
    rw [skip_cons (by decide)]
    simp only
    rw [if_pos trivial, skip_gap, skip_render N, ih, Option.bind_some]
    rfl
  | k, v, (k', v') :: rest, n + 1, t, hlen => by
    simp only [renderMembers, List.length_append, List.length_cons] at hlen
    have hv := readValue_render style v n
      (',' :: (gap style ++ (renderMembers N style ((k', v') :: rest) ++ t))) (by omega)
      (stops_close _ (by simp))
    have hrest := readMembers_render style k' v' rest n t (by omega)
    have hskip : skip (gap style ++ (renderMembers N style ((k', v') :: rest) ++ t)) =
        renderMembers N style ((k', v') :: rest) ++ t := by
      rw [skip_gap]
      cases rest <;> simp only [renderMembers, quote, List.cons_append] <;>
        exact skip_cons (by decide)
    have hkey := readString_quote style k (':' :: (gap style ++ (render N style v ++
        ',' :: (gap style ++ (renderMembers N style ((k', v') :: rest) ++ t)))))
      (n := (k.flatMap (escape style) ++ ['"'] ++ ':' :: (gap style ++ (render N style v ++
        ',' :: (gap style ++ (renderMembers N style ((k', v') :: rest) ++ t))))).length)
      (by simp [quote])
    rw [renderMembers]
    simp only [List.append_assoc, List.cons_append, List.nil_append, quote] at hkey ⊢
    rw [readMembers, if_pos rfl, hkey]
    simp only [Option.bind_eq_bind, Option.bind_some]
    rw [skip_cons (by decide)]
    simp only
    rw [if_pos trivial, skip_gap, skip_render N, hv, Option.bind_some]
    simp only
    rw [skip_cons (by decide)]
    simp only
    rw [if_neg (by decide), if_pos trivial, hskip, hrest, Option.bind_some]

end

theorem loads_render (style : Style) (v : Json F) :
    loads N (render N style v) = some v := by
  have h := readValue_render N style v ((render N style v).length + 1) [] (Nat.le_succ _)
    stops_nil
  have hskip := skip_render N style v []
  rw [List.append_nil] at h hskip
  rw [loads, hskip, h]
  rfl

theorem render_injective (style : Style) : Function.Injective (render N style) := by
  intro v w h
  have := loads_render N style v
  rw [h, loads_render N] at this
  exact (Option.some.inj this).symm

/-! ## The text is printable -/

def printable (t : Text) : Bool := t.all fun c => 32 ≤ c.toNat

@[simp] theorem printable_nil : printable [] = true := rfl

@[simp] theorem printable_append (t u : Text) :
    printable (t ++ u) = (printable t && printable u) := List.all_append

@[simp] theorem printable_cons (c : Char) (t : Text) :
    printable (c :: t) = (decide (32 ≤ c.toNat) && printable t) := List.all_cons

theorem mem_printable {t : Text} (h : printable t = true) {c : Char} (hc : c ∈ t) : 32 ≤ c.toNat := by
  simpa using List.all_eq_true.mp h c hc

theorem floatChars_printable {t : Text} (h : ∀ c ∈ t, floatChar c = true) : printable t = true :=
  List.all_eq_true.mpr fun c hc => decide_eq_true (floatChar_plain (h c hc)).2.2.2

theorem digit_printable {d : Nat} (h : d < 16) : 32 ≤ (digit d).toNat := by
  interval_cases d <;> decide

theorem hex4_printable (n : Nat) : printable (hex4 n) = true := by
  simp [hex4, digit_printable (Nat.mod_lt _ (Nat.zero_lt_succ 15))]

theorem escape_printable (style : Style) (c : Char) : printable (escape style c) = true := by
  unfold escape
  repeat' split
  all_goals first
    | rfl
    | (rename_i h; simp [h.1])
    | skip
  unfold unicodeEscape
  split <;> simp [hex4_printable]

theorem quote_printable (style : Style) (s : Text) : printable (quote style s) = true := by
  have hs : printable (s.flatMap (escape style)) = true := by
    induction s with
    | nil => rfl
    | cons c s ih => simp [escape_printable, ih]
  simp [quote, hs]

theorem gap_printable (style : Style) : printable (gap style) = true := by
  unfold gap
  cases style.spaced <;> rfl

mutual

theorem render_printable (style : Style) :
    ∀ v : Json F, printable (render N style v) = true
  | .null => by rw [render]; rfl
  | .bool true => by rw [render]; rfl
  | .bool false => by rw [render]; rfl
  | .int n => by rw [render, floatChars_printable (decimal_floatChars n)]
  | .float x => by rw [render, floatChars_printable (N.floatChars x)]
  | .str s => by rw [render, quote_printable]
  | .arr items => by simp [render, renderElems_printable style items]
  | .obj items => by simp [render, renderMembers_printable style items]

theorem renderElems_printable (style : Style) :
    ∀ items : List (Json F), printable (renderElems N style items) = true
  | [] => by rw [renderElems]; rfl
  | [v] => by simp [renderElems, render_printable style v]
  | v :: w :: rest => by
    simp [renderElems, gap_printable, render_printable style v,
      renderElems_printable style (w :: rest)]

theorem renderMembers_printable (style : Style) :
    ∀ items : List (Text × Json F), printable (renderMembers N style items) = true
  | [] => by rw [renderMembers]; rfl
  | [(k, v)] => by
    simp [renderMembers, gap_printable, quote_printable, render_printable style v]
  | (k, v) :: m :: rest => by
    simp [renderMembers, gap_printable, quote_printable, render_printable style v,
      renderMembers_printable style (m :: rest)]

end

/-! ## Sorted keys -/

mutual

/-- `sort_keys=True`: every dict with its items in key order. -/
def sortKeys : Json F → Json F
  | .arr items => .arr (sortKeysElems items)
  | .obj items => .obj ((sortKeysMembers items).insertionSort fun a b => a.1 ≤ b.1)
  | .null => .null
  | .bool b => .bool b
  | .int n => .int n
  | .float x => .float x
  | .str s => .str s

def sortKeysElems : List (Json F) → List (Json F)
  | [] => []
  | v :: rest => sortKeys v :: sortKeysElems rest

def sortKeysMembers : List (Text × Json F) → List (Text × Json F)
  | [] => []
  | (k, v) :: rest => (k, sortKeys v) :: sortKeysMembers rest

end

/-- `json.dumps(v, sort_keys=True)` -/
def dumps (N : Floats F) (style : Style) (v : Json F) : Text := render N style (sortKeys v)

mutual

/-- No dict has a key twice. -/
def distinctKeys : Json F → Bool
  | .arr items => distinctKeysElems items
  | .obj items => decide ((items.map Prod.fst).Nodup) && distinctKeysMembers items
  | _ => true

def distinctKeysElems : List (Json F) → Bool
  | [] => true
  | v :: rest => distinctKeys v && distinctKeysElems rest

def distinctKeysMembers : List (Text × Json F) → Bool
  | [] => true
  | (_, v) :: rest => distinctKeys v && distinctKeysMembers rest

end

/-! ## What sorting keeps -/

theorem lookup_eq_some {α : Type} {items : List (Text × α)} (hd : (items.map Prod.fst).Nodup)
    {k : Text} {v : α} : items.lookup k = some v ↔ (k, v) ∈ items := by
  induction items with
  | nil => simp
  | cons x items ih =>
    obtain ⟨k', v'⟩ := x
    rw [List.map_cons, List.nodup_cons] at hd
    rw [List.lookup_cons, List.mem_cons, Prod.mk.injEq]
    by_cases h : k = k'
    · subst h
      have hno : (k, v) ∉ items := fun hm => hd.1 (List.mem_map.mpr ⟨_, hm, rfl⟩)
      simp [hno, eq_comm]
    · have hbeq : (k == k') = false := beq_eq_false_iff_ne.mpr h
      simp [hbeq, h, ih hd.2]

theorem lookup_perm {α : Type} {items items' : List (Text × α)} (h : items.Perm items')
    (hd : (items.map Prod.fst).Nodup) (k : Text) : items.lookup k = items'.lookup k := by
  ext v
  rw [lookup_eq_some hd, lookup_eq_some ((h.map Prod.fst).nodup_iff.mp hd), h.mem_iff]

theorem sortKeysMembers_eq (items : List (Text × Json F)) :
    sortKeysMembers items = items.map fun x => (x.1, sortKeys x.2) := by
  induction items with
  | nil => rfl
  | cons x items ih => rw [sortKeysMembers, ih, List.map_cons]

theorem sortKeysElems_eq (items : List (Json F)) : sortKeysElems items = items.map sortKeys := by
  induction items with
  | nil => rfl
  | cons x items ih => rw [sortKeysElems, ih, List.map_cons]

/-- The items of a dict with their values sorted, in key order. -/
def sortedItems (items : List (Text × Json F)) : List (Text × Json F) :=
  (sortKeysMembers items).insertionSort fun a b => a.1 ≤ b.1

theorem sortKeys_obj (items : List (Text × Json F)) :
    sortKeys (.obj items) = .obj (sortedItems items) := by rw [sortKeys, sortedItems]

theorem sortedItems_perm (items : List (Text × Json F)) :
    (sortedItems items).Perm (items.map fun x => (x.1, sortKeys x.2)) := by
  rw [sortedItems, sortKeysMembers_eq]
  exact List.perm_insertionSort _ _

theorem sortedItems_keys (items : List (Text × Json F)) :
    ((sortedItems items).map Prod.fst).Perm (items.map Prod.fst) := by
  have := (sortedItems_perm items).map Prod.fst
  rwa [List.map_map] at this

theorem lookup_sortedItems {items : List (Text × Json F)} (hd : (items.map Prod.fst).Nodup)
    (k : Text) : (sortedItems items).lookup k = (items.lookup k).map sortKeys := by
  have hmap : (items.map fun x => (x.1, sortKeys x.2)).lookup k = (items.lookup k).map sortKeys := by
    clear hd
    induction items with
    | nil => rfl
    | cons x items ih =>
      rw [List.map_cons, List.lookup_cons, List.lookup_cons, ih]
      split <;> rfl
  rw [← hmap]
  exact lookup_perm (sortedItems_perm items) ((sortedItems_keys items).nodup_iff.mpr hd) k

theorem get_sortedItems {items : List (Text × Json F)} (hd : (items.map Prod.fst).Nodup) {k : Text}
    {v : Json F} (h : (k, v) ∈ items) : get (sortedItems items) k = sortKeys v := by
  simp only [PyJson.get, lookup_sortedItems hd, (lookup_eq_some hd).mpr h, Option.map_some,
    Option.getD_some]

theorem distinctKeysMembers_iff {items : List (Text × Json F)} :
    distinctKeysMembers items = true ↔ ∀ x ∈ items, distinctKeys x.2 = true := by
  induction items with
  | nil => simp [distinctKeysMembers]
  | cons x items ih => simp [distinctKeysMembers, ih]

theorem distinctKeysElems_iff {items : List (Json F)} :
    distinctKeysElems items = true ↔ ∀ x ∈ items, distinctKeys x = true := by
  induction items with
  | nil => simp [distinctKeysElems]
  | cons x items ih => simp [distinctKeysElems, ih]

theorem distinctKeys_obj {items : List (Text × Json F)} : distinctKeys (.obj items) = true ↔
    (items.map Prod.fst).Nodup ∧ ∀ x ∈ items, distinctKeys x.2 = true := by
  rw [distinctKeys, Bool.and_eq_true, decide_eq_true_eq, distinctKeysMembers_iff]

theorem distinctKeys_arr {items : List (Json F)} :
    distinctKeys (.arr items) = true ↔ ∀ x ∈ items, distinctKeys x = true := by
  rw [distinctKeys, distinctKeysElems_iff]

theorem distinctKeys_str (t : Text) : distinctKeys (Json.str (F := F) t) = true := by
  rw [distinctKeys]
  all_goals nofun

mutual

theorem distinctKeys_sortKeys : ∀ v : Json F, distinctKeys (sortKeys v) = distinctKeys v
  | .null | .bool _ | .int _ | .float _ | .str _ => by simp only [sortKeys]
  | .arr items => by
    simp only [sortKeys, distinctKeys, distinctKeysElems_sortKeys items]
  | .obj items => by
    have hperm := sortedItems_perm items
    have hmem : distinctKeysMembers (sortedItems items) =
        distinctKeysMembers (sortKeysMembers items) := by
      rw [Bool.eq_iff_iff, distinctKeysMembers_iff, distinctKeysMembers_iff, sortKeysMembers_eq]
      exact forall_congr' fun x => by rw [hperm.mem_iff]
    rw [sortKeys_obj]
    simp only [distinctKeys, hmem, distinctKeysMembers_sortKeys items,
      (sortedItems_keys items).nodup_iff]

theorem distinctKeysElems_sortKeys : ∀ items : List (Json F),
    distinctKeysElems (sortKeysElems items) = distinctKeysElems items
  | [] => rfl
  | v :: rest => by
    simp only [sortKeysElems, distinctKeysElems, distinctKeys_sortKeys v,
      distinctKeysElems_sortKeys rest]

theorem distinctKeysMembers_sortKeys : ∀ items : List (Text × Json F),
    distinctKeysMembers (sortKeysMembers items) = distinctKeysMembers items
  | [] => rfl
  | (k, v) :: rest => by
    simp only [sortKeysMembers, distinctKeysMembers, distinctKeys_sortKeys v,
      distinctKeysMembers_sortKeys rest]

end

/-! ## A reader of one float -/

def half : Text := ['0', '.', '5']

theorem numberToken_half {t : Text} (h : Stops t) :
    numberToken (half ++ t) = some (half, true, t) := by
  have hfive : ('5' :: t).takeWhile Char.isDigit = ['5'] ∧ ('5' :: t).dropWhile Char.isDigit = t :=
    @takeWhile_digits ['5'] t (by simp) h
  have hfrac : readFrac ('.' :: '5' :: t) = (['.', '5'], t) := by
    simp only [readFrac, hfive.1, hfive.2]
    rfl
  show (let (frac, t) := readFrac ('.' :: '5' :: t)
    let (exp, t) := readExp t
    some (['0'] ++ frac ++ exp, (frac ≠ [] || exp ≠ [] : Bool), t)) = _
  rw [hfrac]
  simp only [readExp_stops h]
  rfl

/-- The floats where only a half occurs. -/
def halves : Floats Unit where
  text _ := half
  read _ := ()
  atom _ _ h := by rw [readAtom_number (numberToken_half h), if_pos rfl]
  text_ne_nil _ := List.cons_ne_nil _ _
  floatChars _ := List.all_eq_true.mp (by rfl)

end MainframeRag.JsonText
