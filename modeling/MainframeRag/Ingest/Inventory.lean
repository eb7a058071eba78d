import MainframeRag.Lib.JsonScan
import Mathlib.Logic.Function.Basic

/-!
# Ingest inventory

The JSONL progress log of `ingest/inventory.py`: `InventoryRecord`, the line `append_record`
writes for it, and `load_inventory`, which maps each path to its latest record.

`modelDumpJson` writes the record's fields in class order. `Pydantic` is what the module takes
from the library: how a finite float is written, and `model_validate_json`, known to read back
what was dumped and to accept only the text of a JSON object.
-/

namespace MainframeRag.Ingest

open PyText JsonScan

/-- `F` is the type of finite floats. An absent key and a default are the same here: the dump
writes every field. -/
structure InventoryRecord (F : Type) where
  path : Text
  sha256 : Text
  docId : Option Text := none
  pages : Int := 0
  chunks : Int := 0
  /-- upserted, skipped, dry, error, empty or retired -/
  status : Text := "pending".toList
  seconds : F
  error : Option Text := none
  errorType : Option Text := none
  rulesVersion : Option Text := none
  generationId : Option Text := none
  chunkIdsDigest : Option Text := none
  contentDigest : Option Text := none
  manifestDigest : Option Text := none
  sourceRev : Option Text := none
  finishedAt : F
  deriving DecidableEq

/-! ## The line of a record -/

def optText : Option Text → Val
  | none => .raw "null".toList
  | some s => .str s

def intText : Int → Text
  | .ofNat n => Nat.toDigits 10 n
  | .negSucc n => '-' :: Nat.toDigits 10 (n + 1)

section

variable {F : Type}

/-- The members after `path`. -/
def InventoryRecord.rest (floatText : F → Text) (r : InventoryRecord F) : List (Text × Val) :=
  [("sha256".toList, .str r.sha256),
    ("doc_id".toList, optText r.docId),
    ("pages".toList, .raw (intText r.pages)),
    ("chunks".toList, .raw (intText r.chunks)),
    ("status".toList, .str r.status),
    ("seconds".toList, .raw (floatText r.seconds)),
    ("error".toList, optText r.error),
    ("error_type".toList, optText r.errorType),
    ("rules_version".toList, optText r.rulesVersion),
    ("generation_id".toList, optText r.generationId),
    ("chunk_ids_digest".toList, optText r.chunkIdsDigest),
    ("content_digest".toList, optText r.contentDigest),
    ("manifest_digest".toList, optText r.manifestDigest),
    ("source_rev".toList, optText r.sourceRev),
    ("finished_at".toList, .raw (floatText r.finishedAt))]

def InventoryRecord.pathMember (r : InventoryRecord F) : Text × Val :=
  ("path".toList, .str r.path)

def modelDumpJson (floatText : F → Text) (r : InventoryRecord F) : Text :=
  object r.pathMember (r.rest floatText)

/-- The characters of a written number. -/
def numeral (c : Char) : Bool := c ∈ "0123456789+-.eE".toList

/-- What the module relies on in pydantic. -/
structure Pydantic (F : Type) where
  floatText : F → Text
  /-- `InventoryRecord.model_validate_json`; `none` is a `ValidationError`. -/
  validate : Text → Option (InventoryRecord F)
  floatText_numeral : ∀ x, ∀ c ∈ floatText x, numeral c = true
  validate_dump : ∀ r, validate (modelDumpJson floatText r) = some r
  validate_object : ∀ t r, validate t = some r → scan .start t = .done

/-! ## Reading and appending -/

/-- `load_inventory`'s dict: the latest record of each path. -/
def Inventory (F : Type) := Text → Option (InventoryRecord F)

def Inventory.empty : Inventory F := fun _ => none

def Inventory.set (m : Inventory F) (rec : InventoryRecord F) : Inventory F :=
  fun q => if q = rec.path then some rec else m q

def loadLine (P : Pydantic F) (latest : Inventory F) (line : Text) : Inventory F :=
  if strip line = [] then latest
  else match P.validate (strip line) with
    | none => latest
    | some rec => latest.set rec

def loadLines (P : Pydantic F) (lines : List Text) : Inventory F :=
  lines.foldl (loadLine P) Inventory.empty

/-- `read_text(encoding="utf-8")`; an absent file reads as an empty one. -/
def readText (file : Bytes) : Option Text := (decodeUtf8 file).map universalNewlines

def loadInventory (P : Pydantic F) (file : Bytes) : Option (Inventory F) :=
  (readText file).map (fun t => loadLines P (splitlines t))

def recordLine (P : Pydantic F) (rec : InventoryRecord F) : Text :=
  modelDumpJson P.floatText rec ++ ['\n']

def appendRecord (P : Pydantic F) (file : Bytes) (rec : InventoryRecord F) : Bytes :=
  file ++ encodeUtf8 (recordLine P rec)

def shouldSkip (record : Option (InventoryRecord F)) (sha256 : Text) (allowDry : Bool)
    (rulesVersion : Option Text) (forceReingest : Bool) : Bool :=
  if forceReingest then false
  else match record with
    | none => false
    | some r =>
      if r.sha256 ≠ sha256 then false
      else if r.rulesVersion ≠ rulesVersion then false
      else r.status == "upserted".toList || (allowDry && r.status == "dry".toList)

/-! ## The dump as an object -/

theorem numeral_ok {c : Char} (h : numeral c = true) :
    legal c = true ∧ isLineBreak c = false ∧ c ≠ '"' ∧ c ≠ '{' ∧ c ≠ '[' ∧ c ≠ '}' ∧ c ≠ ']' ∧
      c ≠ ',' := by
  have hall : "0123456789+-.eE".toList.all (fun x => legal x && !isLineBreak x && x != '"' &&
      x != '{' && x != '[' && x != '}' && x != ']' && x != ',') = true := by decide
  have hc := List.all_eq_true.mp hall c (by simpa [numeral] using h)
  simpa [and_assoc] using hc

theorem digits_numeral (n : Nat) : ∀ c ∈ Nat.toDigits 10 n, numeral c = true := by
  intro c hc
  have hd := Nat.isDigit_of_mem_toDigits (by decide) (by decide) hc
  have h : ∀ k, k < 10 → numeral (Char.ofNat (48 + k)) = true := by decide
  simp only [Char.isDigit, ge_iff_le, Bool.and_eq_true, decide_eq_true_eq, UInt32.le_iff_toNat_le] at hd
  have e : 48 + (c.toNat - 48) = c.toNat := by
    have := hd.1; simp at this; omega
  have := h (c.toNat - 48) (by have := hd.2; simp at this; omega)
  rwa [e, Char.ofNat_toNat] at this

theorem intText_numeral (i : Int) : ∀ c ∈ intText i, numeral c = true := by
  cases i with
  | ofNat n => exact digits_numeral n
  | negSucc n =>
    intro c hc
    rcases List.mem_cons.mp hc with rfl | hc
    · decide
    · exact digits_numeral (n + 1) c hc

theorem raw_numeral_ok {t : Text} (h : ∀ c ∈ t, numeral c = true) :
    (Val.raw t).ok ∧ (Val.raw t).delimited := by
  refine ⟨fun c hc => ?_, fun c hc => ?_⟩
  · obtain ⟨h1, h2, h3, h4, h5, h6, h7, -⟩ := numeral_ok (h c hc)
    exact ⟨h1, h2, h3, h4, h5, h6, h7⟩
  · obtain ⟨-, -, h3, -, -, h6, -, h8⟩ := numeral_ok (h c hc)
    exact ⟨h3, h8, h6⟩

theorem optText_ok (o : Option Text) : (optText o).ok ∧ (optText o).delimited := by
  cases o with
  | none =>
    constructor
    · show ∀ c ∈ ['n', 'u', 'l', 'l'], _
      simp [legal, isLineBreak]
    · show ∀ c ∈ ['n', 'u', 'l', 'l'], _
      simp
  | some s => exact ⟨trivial, trivial⟩

theorem record_fieldsOk {floatText : F → Text} (hf : ∀ x, ∀ c ∈ floatText x, numeral c = true)
    (r : InventoryRecord F) : FieldsOk true (r.pathMember :: r.rest floatText) := by
  have hi : ∀ i, (Val.raw (intText i)).ok := fun i => (raw_numeral_ok (intText_numeral i)).1
  have hx : ∀ x, (Val.raw (floatText x)).ok := fun x => (raw_numeral_ok (hf x)).1
  have ho : ∀ o, (optText o).ok := fun o => (optText_ok o).1
  simp only [InventoryRecord.pathMember, InventoryRecord.rest, FieldsOk]
  -- `status` is spelled with letters of JSON constants, but stands behind a number
  refine ⟨by decide, fun _ => by decide, trivial, by decide, fun _ => by decide, trivial,
    by decide, fun _ => by decide, ho _, by decide, fun _ => by decide, hi _,
    by decide, fun _ => by decide, hi _, by decide, nofun, trivial,
    by decide, fun _ => by decide, hx _, by decide, fun _ => by decide, ho _,
    by decide, fun _ => by decide, ho _, by decide, fun _ => by decide, ho _,
    by decide, fun _ => by decide, ho _, by decide, fun _ => by decide, ho _,
    by decide, fun _ => by decide, ho _, by decide, fun _ => by decide, ho _,
    by decide, fun _ => by decide, ho _, by decide, fun _ => by decide, hx _, trivial⟩

theorem record_delimited {floatText : F → Text} (hf : ∀ x, ∀ c ∈ floatText x, numeral c = true)
    (r : InventoryRecord F) : ∀ f ∈ r.pathMember :: r.rest floatText, f.2.delimited := by
  have hs : ∀ s, (Val.str s).delimited := fun s => trivial
  have hi : ∀ i, (Val.raw (intText i)).delimited := fun i => (raw_numeral_ok (intText_numeral i)).2
  have hx : ∀ x, (Val.raw (floatText x)).delimited := fun x => (raw_numeral_ok (hf x)).2
  simp [InventoryRecord.pathMember, InventoryRecord.rest, hs, hi, hx, fun o => (optText_ok o).2]

/-- The text of the record's string fields. -/
def InventoryRecord.texts (r : InventoryRecord F) : List Text :=
  [r.path, r.sha256] ++ r.docId.toList ++ [r.status] ++ r.error.toList ++ r.errorType.toList ++
    r.rulesVersion.toList ++ r.generationId.toList ++ r.chunkIdsDigest.toList ++
    r.contentDigest.toList ++ r.manifestDigest.toList ++ r.sourceRev.toList

/-- Some string field holds a line break that JSON leaves as it is. -/
def InventoryRecord.hasRawBreak (r : InventoryRecord F) : Prop :=
  ∃ s ∈ r.texts, ∃ c ∈ s, rawBreak c = true

instance (r : InventoryRecord F) : Decidable r.hasRawBreak :=
  decidable_of_iff (r.texts.any (fun s => s.any rawBreak) = true)
    (by simp [InventoryRecord.hasRawBreak])

theorem rawBreaks_iff (floatText : F → Text) (r : InventoryRecord F) :
    RawBreaks (r.pathMember :: r.rest floatText) ↔ r.hasRawBreak := by
  have ho : ∀ o, (optText o).texts = o.toList := by intro o; cases o <;> rfl
  have hs : ∀ t, (Val.str t).texts = [t] := fun _ => rfl
  have hr : ∀ t, (Val.raw t).texts = [] := fun _ => rfl
  rw [rawBreaks_iff_texts, InventoryRecord.hasRawBreak]
  simp only [InventoryRecord.pathMember, InventoryRecord.rest, List.flatMap_cons,
    List.flatMap_nil, ho, hs, hr, InventoryRecord.texts, List.append_assoc, List.nil_append,
    List.append_nil, List.cons_append]

/-! ## A codec -/

theorem optText_inj {a b : Option Text} (h : optText a = optText b) : a = b := by
  cases a <;> cases b <;> simp_all [optText]

theorem toDigits_inj {m n : Nat} (h : Nat.toDigits 10 m = Nat.toDigits 10 n) : m = n := by
  rw [← Nat.ofDigitChars_ten_toDigits (n := m), h, Nat.ofDigitChars_ten_toDigits]

theorem minus_not_digit {n : Nat} : '-' ∉ Nat.toDigits 10 n := fun h => by
  have := Nat.isDigit_of_mem_toDigits (by decide) (by decide) h
  revert this; decide

theorem intText_inj {i j : Int} (h : intText i = intText j) : i = j := by
  cases i with
  | ofNat m =>
    cases j with
    | ofNat n => rw [toDigits_inj h]
    | negSucc n =>
      have hm : '-' ∈ intText (.ofNat m) := by rw [h]; simp [intText]
      exact absurd hm minus_not_digit
  | negSucc m =>
    cases j with
    | ofNat n =>
      have hm : '-' ∈ intText (.ofNat n) := by rw [← h]; simp [intText]
      exact absurd hm minus_not_digit
    | negSucc n =>
      have := toDigits_inj (List.cons.inj h).2
      simp only [Nat.add_right_cancel_iff] at this
      rw [this]

theorem modelDumpJson_inj {floatText : F → Text}
    (hf : ∀ x, ∀ c ∈ floatText x, numeral c = true) (hi : Function.Injective floatText) :
    Function.Injective (modelDumpJson floatText) := by
  intro r s h
  have e := object_inj (by simp [InventoryRecord.pathMember, InventoryRecord.rest])
    (record_delimited hf r) (record_delimited hf s) h
  simp only [InventoryRecord.pathMember, InventoryRecord.rest, List.cons.injEq, Prod.mk.injEq,
    true_and, Val.str.injEq, Val.raw.injEq, and_true] at e
  obtain ⟨h1, h2, h3, h4, h5, h6, h7, h8, h9, h10, h11, h12, h13, h14, h15, h16⟩ := e
  cases r
  cases s
  simp only [InventoryRecord.mk.injEq]
  exact ⟨h1, h2, optText_inj h3, intText_inj h4, intText_inj h5, h6, hi h7, optText_inj h8,
    optText_inj h9, optText_inj h10, optText_inj h11, optText_inj h12, optText_inj h13,
    optText_inj h14, optText_inj h15, hi h16⟩

end

/-- A whole number of seconds as a float: `12.0`. -/
def wholeText (n : Nat) : Text := Nat.toDigits 10 n ++ ['.', '0']

theorem wholeText_numeral (n : Nat) : ∀ c ∈ wholeText n, numeral c = true := by
  intro c hc
  rcases List.mem_append.mp hc with hc | hc
  · exact digits_numeral n c hc
  · have h : ['.', '0'].all numeral = true := by decide
    exact List.all_eq_true.mp h c hc

theorem wholeText_inj : Function.Injective wholeText := fun _ _ h =>
  toDigits_inj (List.append_cancel_right h)

/-- Whole-second floats, and a reader that accepts what the dump writes. -/
noncomputable def wholeSeconds : Pydantic Nat where
  floatText := wholeText
  validate := Function.partialInv (modelDumpJson wholeText)
  floatText_numeral := wholeText_numeral
  validate_dump := Function.partialInv_left (modelDumpJson_inj wholeText_numeral wholeText_inj)
  validate_object := by
    intro t r h
    obtain rfl := ((modelDumpJson_inj wholeText_numeral wholeText_inj).isPartialInv r t).mp h
    exact scan_object (record_fieldsOk wholeText_numeral r)

end MainframeRag.Ingest
