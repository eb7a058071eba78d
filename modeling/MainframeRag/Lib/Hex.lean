import MainframeRag.Lib.PyText
import Mathlib.Tactic.IntervalCases

/-!
# Hexadecimal and UUIDs

Lower-case hexadecimal of a byte string and the canonical text of a UUID, each with its reader.
A canonical UUID text is the text of exactly one UUID (`Uuid.ofCanonical_iff`).
-/

namespace MainframeRag.Hex

open PyText

/-! ## Digits -/

def digit (d : Nat) : Char := if d < 10 then Char.ofNat (48 + d) else Char.ofNat (87 + d)

/-- The value of a digit of either case. -/
def digitVal (c : Char) : Option Nat :=
  let n := c.toNat
  if 48 ≤ n ∧ n ≤ 57 then some (n - 48)
  else if 97 ≤ n ∧ n ≤ 102 then some (n - 87)
  else if 65 ≤ n ∧ n ≤ 70 then some (n - 55)
  else none

theorem digitVal_digit {d : Nat} (h : d < 16) : digitVal (digit d) = some d := by
  interval_cases d <;> rfl

/-- Lower-case digits only. -/
def isLowerDigit (c : Char) : Bool :=
  (48 ≤ c.toNat && c.toNat ≤ 57) || (97 ≤ c.toNat && c.toNat ≤ 102)

theorem isLowerDigit_digit {d : Nat} (h : d < 16) : isLowerDigit (digit d) = true := by
  interval_cases d <;> rfl

theorem digit_ne_hyphen {d : Nat} (h : d < 16) : digit d ≠ '-' := by
  interval_cases d <;> decide

/-! ## Bytes -/

def byte (b : UInt8) : Text := [digit (b.toNat / 16), digit (b.toNat % 16)]

/-- `bytes.hex()` -/
def encode (bs : Bytes) : Text := bs.flatMap byte

/-- `bytes.fromhex` on text without blanks. -/
def decode : Text → Option Bytes
  | [] => some []
  | [_] => none
  | a :: b :: rest =>
    match digitVal a, digitVal b with
    | some x, some y => (decode rest).map (UInt8.ofNat (16 * x + y) :: ·)
    | _, _ => none

@[simp] theorem encode_nil : encode [] = [] := rfl

@[simp] theorem encode_cons (b : UInt8) (bs : Bytes) : encode (b :: bs) = byte b ++ encode bs := rfl

theorem encode_append (bs cs : Bytes) : encode (bs ++ cs) = encode bs ++ encode cs :=
  List.flatMap_append

theorem byte_halves (b : UInt8) : b.toNat / 16 < 16 ∧ b.toNat % 16 < 16 := by
  have := b.toNat_lt
  omega

theorem decode_encode (bs : Bytes) : decode (encode bs) = some bs := by
  induction bs with
  | nil => rfl
  | cons b bs ih =>
    have hb := byte_halves b
    have hval : 16 * (b.toNat / 16) + b.toNat % 16 = b.toNat := by omega
    simp only [encode_cons, byte, List.cons_append, List.nil_append, decode, digitVal_digit hb.1,
      digitVal_digit hb.2, ih, Option.map_some, hval, UInt8.ofNat_toNat]

theorem encode_injective : Function.Injective encode := by
  intro bs cs h
  have := decode_encode bs
  rw [h, decode_encode] at this
  exact (Option.some.inj this).symm

@[simp] theorem length_encode (bs : Bytes) : (encode bs).length = 2 * bs.length := by
  induction bs with
  | nil => rfl
  | cons b bs ih =>
    simp only [encode_cons, byte, List.cons_append, List.nil_append, List.length_cons, ih]
    omega

theorem mem_encode {bs : Bytes} {c : Char} (h : c ∈ encode bs) : ∃ d < 16, c = digit d := by
  obtain ⟨b, -, hc⟩ := List.mem_flatMap.mp h
  simp only [byte, List.mem_cons, List.not_mem_nil, or_false] at hc
  rcases hc with rfl | rfl
  · exact ⟨_, (byte_halves b).1, rfl⟩
  · exact ⟨_, (byte_halves b).2, rfl⟩

theorem isLowerDigit_encode {bs : Bytes} {c : Char} (h : c ∈ encode bs) : isLowerDigit c = true := by
  obtain ⟨d, hd, rfl⟩ := mem_encode h
  exact isLowerDigit_digit hd

theorem ne_hyphen_of_mem {bs : Bytes} {c : Char} (h : c ∈ encode bs) : c ≠ '-' := by
  obtain ⟨d, hd, rfl⟩ := mem_encode h
  exact digit_ne_hyphen hd

/-! ## Digests -/

/-- A hash with digests of 32 bytes. -/
structure Hash where
  digest : Bytes → Bytes
  size : ∀ b, (digest b).length = 32

def Hash.hexdigest (H : Hash) (b : Bytes) : Text := encode (H.digest b)

/-- `[0-9a-f]{64}` -/
def isHex64 (t : Text) : Bool := t.length = 64 && t.all isLowerDigit

theorem Hash.isHex64_hexdigest (H : Hash) (b : Bytes) : isHex64 (H.hexdigest b) = true := by
  simp only [isHex64, Hash.hexdigest, length_encode, H.size, Bool.and_eq_true, decide_eq_true_eq,
    List.all_eq_true]
  exact ⟨trivial, fun c hc => isLowerDigit_encode hc⟩

end MainframeRag.Hex

/-! ## UUIDs -/

namespace MainframeRag

/-- A UUID, as its sixteen bytes. -/
structure Uuid where
  bytes : PyText.Bytes
  size : bytes.length = 16
  deriving DecidableEq

end MainframeRag

namespace MainframeRag.Uuid

open PyText

@[ext] theorem ext {u v : Uuid} (h : u.bytes = v.bytes) : u = v := by
  cases u
  cases v
  cases h
  rfl

/-- The UUID with every byte one. -/
def ones : Uuid := ⟨List.replicate 16 1, rfl⟩

/-- `str(uuid)` -/
def str (u : Uuid) : Text :=
  List.intercalate ['-']
    [Hex.encode (u.bytes.take 4), Hex.encode ((u.bytes.drop 4).take 2),
      Hex.encode ((u.bytes.drop 6).take 2), Hex.encode ((u.bytes.drop 8).take 2),
      Hex.encode (u.bytes.drop 10)]

/-- `uuid.UUID(bytes=raw)` -/
def ofBytes (raw : Bytes) : Option Uuid := if h : raw.length = 16 then some ⟨raw, h⟩ else none

/-- `uuid.UUID(text)` where the text has no braces and no `urn:` or `uuid:` mark. -/
def parse (t : Text) : Option Uuid := (Hex.decode (t.filter (· ≠ '-'))).bind ofBytes

/-- `uuid.UUID(text)` where `str` gives the text back; none that has braces or a mark does. -/
def ofCanonical (t : Text) : Option Uuid := (parse t).filter fun u => u.str = t

/-- `uuid.int == 0` -/
def isNil (u : Uuid) : Bool := u.bytes.all (· == 0)

theorem ofBytes_bytes (u : Uuid) : ofBytes u.bytes = some u := by
  simp only [ofBytes, u.size, dif_pos]

theorem filter_str (u : Uuid) : u.str.filter (· ≠ '-') = Hex.encode u.bytes := by
  have hkeep : ∀ bs : Bytes, (Hex.encode bs).filter (· ≠ '-') = Hex.encode bs := fun bs =>
    List.filter_eq_self.mpr fun c hc => by simpa using Hex.ne_hyphen_of_mem hc
  have hcut : u.bytes = u.bytes.take 4 ++ ((u.bytes.drop 4).take 2 ++ ((u.bytes.drop 6).take 2 ++
      ((u.bytes.drop 8).take 2 ++ u.bytes.drop 10))) := by
    have hstep : ∀ k m, (u.bytes.drop k).take m ++ u.bytes.drop (k + m) = u.bytes.drop k := by
      intro k m
      rw [← List.drop_drop, List.take_append_drop]
    rw [hstep 8 2, hstep 6 2, hstep 4 2, List.take_append_drop]
  conv_rhs => rw [hcut]
  simp only [str, List.intercalate_cons_cons, List.intercalate_singleton, List.filter_append, hkeep,
    Hex.encode_append]
  simp

theorem parse_str (u : Uuid) : parse u.str = some u := by
  rw [parse, filter_str, Hex.decode_encode]
  exact ofBytes_bytes u

theorem str_injective : Function.Injective str := by
  intro u v h
  have := parse_str u
  rw [h, parse_str] at this
  exact (Option.some.inj this).symm

theorem ofCanonical_iff {t : Text} {u : Uuid} : ofCanonical t = some u ↔ t = u.str := by
  simp only [ofCanonical, Option.filter_eq_some_iff, decide_eq_true_eq]
  constructor
  · rintro ⟨-, h⟩
    exact h.symm
  · rintro rfl
    exact ⟨parse_str u, rfl⟩

@[simp] theorem ofCanonical_str (u : Uuid) : ofCanonical u.str = some u := ofCanonical_iff.mpr rfl

@[simp] theorem length_str (u : Uuid) : u.str.length = 36 := by
  simp only [str, List.intercalate_cons_cons, List.intercalate_singleton, List.length_append,
    Hex.length_encode, List.length_take, List.length_drop, u.size, List.length_singleton]
  rfl

end MainframeRag.Uuid
