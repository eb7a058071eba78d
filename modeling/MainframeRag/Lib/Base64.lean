import MainframeRag.Lib.PyText
import Mathlib

/-!
# URL-safe base64 without padding

`encode` is `urlsafe_b64encode` without its trailing `=`; `decode` adds them back and is
`urlsafe_b64decode`, which skips what is outside the alphabet. Decoding an encoding gives the bytes
back (`decode_encode`), so the encoding is injective.
-/

namespace MainframeRag.Base64

open PyText

/-- The character of six bits. -/
def digit (v : Nat) : Char :=
  if v < 26 then Char.ofNat (65 + v)
  else if v < 52 then Char.ofNat (71 + v)
  else if v < 62 then Char.ofNat (v - 4)
  else if v = 62 then '-' else '_'

/-- The bits of a character of either alphabet. -/
def digitVal (c : Char) : Option Nat :=
  let n := c.toNat
  if 65 ≤ n ∧ n ≤ 90 then some (n - 65)
  else if 97 ≤ n ∧ n ≤ 122 then some (n - 71)
  else if 48 ≤ n ∧ n ≤ 57 then some (n + 4)
  else if c = '-' ∨ c = '+' then some 62
  else if c = '_' ∨ c = '/' then some 63
  else none

def encode : Bytes → Text
  | [] => []
  | [a] => [digit (a.toNat / 4), digit (a.toNat % 4 * 16)]
  | [a, b] =>
    [digit (a.toNat / 4), digit (a.toNat % 4 * 16 + b.toNat / 16), digit (b.toNat % 16 * 4)]
  | a :: b :: c :: rest =>
    digit (a.toNat / 4) :: digit (a.toNat % 4 * 16 + b.toNat / 16) ::
      digit (b.toNat % 16 * 4 + c.toNat / 64) :: digit (c.toNat % 64) :: encode rest

/-- `binascii.a2b_base64`: the place in a group of four, the bits left over and the `=` seen. -/
def scan : Nat → Nat → Nat → Text → Option Bytes
  | quad, _, _, [] => if quad = 0 then some [] else none
  | quad, left, pads, c :: rest =>
    if c = '=' then
      if 2 ≤ quad then
        if 4 ≤ quad + (pads + 1) then some [] else scan quad left (pads + 1) rest
      else scan quad left pads rest
    else
      match digitVal c with
      | none => scan quad left pads rest
      | some v =>
        if quad = 0 then scan 1 v 0 rest
        else if quad = 1 then
          (scan 2 (v % 16) 0 rest).map (UInt8.ofNat (left * 4 + v / 16) :: ·)
        else if quad = 2 then
          (scan 3 (v % 4) 0 rest).map (UInt8.ofNat (left * 16 + v / 4) :: ·)
        else (scan 0 0 0 rest).map (UInt8.ofNat (left * 64 + v) :: ·)

/-- `"=" * (-n % 4)` -/
def padding (n : Nat) : Text := List.replicate ((4 - n % 4) % 4) '='

def decode (t : Text) : Option Bytes := scan 0 0 0 (t ++ padding t.length)

/-! ## Decoding an encoding -/

theorem digit_spec : ∀ v < 64, digitVal (digit v) = some v ∧ digit v ≠ '=' ∧ (digit v).toNat < 128 := by
  decide

theorem scan_digit {v : Nat} (h : v < 64) (quad left pads : Nat) (rest : Text) :
    scan quad left pads (digit v :: rest) =
      if quad = 0 then scan 1 v 0 rest
      else if quad = 1 then
        (scan 2 (v % 16) 0 rest).map (UInt8.ofNat (left * 4 + v / 16) :: ·)
      else if quad = 2 then
        (scan 3 (v % 4) 0 rest).map (UInt8.ofNat (left * 16 + v / 4) :: ·)
      else (scan 0 0 0 rest).map (UInt8.ofNat (left * 64 + v) :: ·) := by
  obtain ⟨hval, hpad, -⟩ := digit_spec v h
  rw [scan, if_neg hpad, hval]

theorem byte_of_halves (b : UInt8) {n : Nat} (h : n = b.toNat) : UInt8.ofNat n = b := by
  rw [h]
  exact UInt8.ofNat_toNat

theorem scan_encode (bs : Bytes) :
    scan 0 0 0 (encode bs ++ padding (encode bs).length) = some bs := by
  induction bs using encode.induct with
  | case1 => rfl
  | case2 a =>
    have ha := a.toNat_lt
    have hpad : padding (encode [a]).length = ['=', '='] := rfl
    rw [hpad, encode]
    simp only [List.cons_append, List.nil_append]
    rw [scan_digit (by omega), if_pos rfl, scan_digit (by omega)]
    simp only [Nat.one_ne_zero, if_false, if_true]
    rw [byte_of_halves a (by omega)]
    rfl
  | case3 a b =>
    have ha := a.toNat_lt
    have hb := b.toNat_lt
    have hpad : padding (encode [a, b]).length = ['='] := rfl
    rw [hpad, encode]
    simp only [List.cons_append, List.nil_append]
    rw [scan_digit (by omega), if_pos rfl, scan_digit (by omega)]
    simp only [Nat.one_ne_zero, if_false, if_true]
    rw [byte_of_halves a (by omega), scan_digit (by omega)]
    simp only [OfNat.ofNat_ne_zero, OfNat.ofNat_ne_one, if_false, if_true]
    rw [byte_of_halves b (by omega)]
    rfl
  | case4 a b c rest ih =>
    have ha := a.toNat_lt
    have hb := b.toNat_lt
    have hc := c.toNat_lt
    have hpad : padding (encode (a :: b :: c :: rest)).length = padding (encode rest).length := by
      simp only [encode, List.length_cons, padding]
      congr 1
      omega
    rw [hpad, encode]
    simp only [List.cons_append]
    rw [scan_digit (by omega), if_pos rfl, scan_digit (by omega)]
    simp only [Nat.one_ne_zero, if_false, if_true]
    rw [byte_of_halves a (by omega), scan_digit (by omega)]
    simp only [OfNat.ofNat_ne_zero, OfNat.ofNat_ne_one, if_false, if_true]
    rw [byte_of_halves b (by omega), scan_digit (by omega)]
    rw [if_neg (by omega), if_neg (by omega), if_neg (by omega), byte_of_halves c (by omega), ih]
    rfl

theorem decode_encode (bs : Bytes) : decode (encode bs) = some bs := scan_encode bs

theorem encode_injective : Function.Injective encode := by
  intro bs cs h
  have := decode_encode bs
  rw [h, decode_encode] at this
  exact (Option.some.inj this).symm

/-! ## Form -/

theorem length_encode (bs : Bytes) : (encode bs).length = (bs.length * 4 + 2) / 3 := by
  induction bs using encode.induct with
  | case1 => rfl
  | case2 a => simp [encode]
  | case3 a b => simp [encode]
  | case4 a b c rest ih =>
    simp only [encode, List.length_cons, ih]
    omega

/-- `str.isascii` -/
def isAscii (t : Text) : Bool := t.all fun c => c.toNat < 128

theorem isAscii_encode (bs : Bytes) : isAscii (encode bs) = true := by
  have hdigit : ∀ v, v < 64 → (digit v).toNat < 128 := fun v h => (digit_spec v h).2.2
  induction bs using encode.induct with
  | case1 => rfl
  | case2 a =>
    have ha := a.toNat_lt
    simp only [encode, isAscii, List.all_cons, List.all_nil, Bool.and_true, Bool.and_eq_true,
      decide_eq_true_eq]
    exact ⟨hdigit _ (by omega), hdigit _ (by omega)⟩
  | case3 a b =>
    have ha := a.toNat_lt
    have hb := b.toNat_lt
    simp only [encode, isAscii, List.all_cons, List.all_nil, Bool.and_true, Bool.and_eq_true,
      decide_eq_true_eq]
    exact ⟨hdigit _ (by omega), hdigit _ (by omega), hdigit _ (by omega)⟩
  | case4 a b c rest ih =>
    have ha := a.toNat_lt
    have hb := b.toNat_lt
    have hc := c.toNat_lt
    simp only [isAscii] at ih
    simp only [encode, isAscii, List.all_cons, ih, Bool.and_true, Bool.and_eq_true,
      decide_eq_true_eq]
    exact ⟨hdigit _ (by omega), hdigit _ (by omega), hdigit _ (by omega), hdigit _ (by omega)⟩

end MainframeRag.Base64
