import MainframeRag.Ingest.Representation
import MainframeRag.Lib.JsonText
import MainframeRag.Lib.Hex

/-!
# Generation identities as texts

`representation_fingerprint`, `source_labels` and `doc_generation_id` of `ingest/completion.py` as
the texts that skips, staging names and completion ids compare. `Representation` keeps them
symbolic; here the projection is written as JSON and hashed, and the id is joined with `|`.

Main results: `fingerprintText_eq_iff` (the text is the symbolic fingerprint) and
`generation_identity`. The id is not exact for labels that hold the delimiter: `a|b`, `c` and
`a`, `b|c` run together to one text.
-/

namespace MainframeRag.Ingest

open PyText PyJson JsonText Hex

variable {C F : Type}

/-! ## The fingerprint -/

/-- `separators=(",", ":")` -/
def compactStyle : Style := ⟨true, false⟩

def FieldValue.json : FieldValue → Json F
  | .nat n => .int n
  | .bool b => .bool b
  | .text t => .str t
  | .optText t => t.elim .null .str
  | .optNat n => n.elim .null fun n => .int n

/-- The dict of the `REEMBED_FIELDS`. -/
def projectionItems (m : RepresentationManifest) : Items F :=
  reembedFields.map fun f => (f.1, (f.2 m).json)

def projectionPayload (N : Floats F) (m : RepresentationManifest) : Bytes :=
  encodeUtf8 (dumps N compactStyle (.obj (projectionItems m)))

/-- `hexdigest()[:16]` -/
def shortDigest (H : Hash) (b : Bytes) : Text := (H.hexdigest b).take 16

/-- `representation_fingerprint` -/
def fingerprintText (N : Floats F) (H : Hash) (settings : Settings C) (rulesV : Text) : Text :=
  "rp".toList ++ decimal representationFingerprintVersion ++
    ':' :: shortDigest H (projectionPayload N (buildManifest settings rulesV))

theorem projectionItems_keys (m : RepresentationManifest) :
    (projectionItems (F := F) m).map Prod.fst = reembedFields.map Prod.fst := by
  rw [projectionItems, List.map_map]
  rfl

theorem reembedFields_nodup : (reembedFields.map Prod.fst).Nodup := by decide +kernel

/-- A field's type is fixed, so its JSON determines it. -/
theorem json_injective {f : Field} (hf : f ∈ reembedFields) {m m' : RepresentationManifest}
    (h : sortKeys ((f.2 m).json (F := F)) = sortKeys ((f.2 m').json)) : f.2 m = f.2 m' := by
  have hoptText : ∀ {t t' : Option Text}, sortKeys ((FieldValue.optText t).json (F := F)) =
      sortKeys ((FieldValue.optText t').json) → t = t' := by
    intro t t' h
    cases t <;> cases t' <;> simp_all [FieldValue.json, sortKeys]
  have hoptNat : ∀ {n n' : Option Nat}, sortKeys ((FieldValue.optNat n).json (F := F)) =
      sortKeys ((FieldValue.optNat n').json) → n = n' := by
    intro n n' h
    cases n <;> cases n' <;> simp_all [FieldValue.json, sortKeys]
  simp only [reembedFields, List.mem_cons, List.not_mem_nil, or_false] at hf
  rcases hf with rfl | rfl | rfl | rfl | rfl | rfl | rfl | rfl | rfl | rfl | rfl | rfl | rfl
  case inr.inr.inr.inr.inl => exact congrArg FieldValue.optText (hoptText h)
  case inr.inr.inr.inr.inr.inr.inl => exact congrArg FieldValue.optNat (hoptNat h)
  case inr.inr.inr.inr.inr.inr.inr.inr.inl => exact congrArg FieldValue.optText (hoptText h)
  all_goals simpa [FieldValue.json, sortKeys] using h

/-- The hashed text determines the projection. -/
theorem projectionPayload_injective {N : Floats F} {m m' : RepresentationManifest} :
    projectionPayload N m = projectionPayload N m' ↔ projection m = projection m' := by
  constructor
  · intro h
    have hdumps := Option.some.inj ((decodeUtf8_encodeUtf8 _).symm.trans
      ((congrArg decodeUtf8 h).trans (decodeUtf8_encodeUtf8 _)))
    have hsorted := render_injective N compactStyle hdumps
    rw [sortKeys_obj, sortKeys_obj, Json.obj.injEq] at hsorted
    have hnodup : ∀ m, ((projectionItems (F := F) m).map Prod.fst).Nodup := fun m =>
      projectionItems_keys (F := F) m ▸ reembedFields_nodup
    refine List.map_inj_left.mpr fun f hf => json_injective (F := F) hf ?_
    have hmem : ∀ m, (f.1, (f.2 m).json) ∈ projectionItems (F := F) m := fun m =>
      List.mem_map.mpr ⟨f, hf, rfl⟩
    rw [← get_sortedItems (hnodup m) (hmem m), hsorted, get_sortedItems (hnodup m') (hmem m')]
  · intro h
    have hfields := List.map_inj_left.mp h
    have hitems : projectionItems (F := F) m = projectionItems m' :=
      List.map_inj_left.mpr fun f hf => by rw [hfields f hf]
    rw [projectionPayload, hitems, projectionPayload]

/-- The payloads of two contracts are kept apart by the short digest. -/
def Distinguishes (N : Floats F) (H : Hash) (m m' : RepresentationManifest) : Prop :=
  shortDigest H (projectionPayload N m) = shortDigest H (projectionPayload N m') →
    projectionPayload N m = projectionPayload N m'

/-- The text is equal exactly when the symbolic fingerprint is. -/
theorem fingerprintText_eq_iff {N : Floats F} {H : Hash} {s s' : Settings C} {rules rules' : Text}
    (hH : Distinguishes N H (buildManifest s rules) (buildManifest s' rules')) :
    fingerprintText N H s rules = fingerprintText N H s' rules' ↔
      representationFingerprint s rules = representationFingerprint s' rules' := by
  have hprojection : representationFingerprint s rules = representationFingerprint s' rules' ↔
      projection (buildManifest s rules) = projection (buildManifest s' rules') := by
    simp [representationFingerprint]
  rw [hprojection, fingerprintText, fingerprintText, List.append_cancel_left_eq,
    List.cons.injEq, ← projectionPayload_injective (N := N)]
  exact ⟨fun h => hH h.2, fun h => ⟨rfl, by rw [h]⟩⟩

/-! ## Labels -/

/-- The CLI triple. -/
structure LabelTriple where
  vendor : Option Text
  product : Option Text
  version : Option Text

/-- `x or ''` for each label. -/
def LabelTriple.labels (l : LabelTriple) : List Text :=
  [l.vendor.getD [], l.product.getD [], l.version.getD []]

/-- The pieces of the labels between `|`, run together. -/
def LabelTriple.pieces (l : LabelTriple) : List Text := l.labels.flatMap (List.splitOn '|')

def LabelTriple.joined (l : LabelTriple) : Text := sourceLabels l.vendor l.product l.version

theorem joined_eq (l : LabelTriple) :
    l.joined = l.vendor.getD [] ++ '|' :: (l.product.getD [] ++ '|' :: l.version.getD []) := by
  simp [LabelTriple.joined, sourceLabels, List.intercalate]

theorem splitOn_joined (l : LabelTriple) : l.joined.splitOn '|' = l.pieces := by
  rw [joined_eq, List.splitOn_append_cons_self, List.splitOn_append_cons_self]
  simp [LabelTriple.pieces, LabelTriple.labels]

theorem rejoin (t : Text) : ['|'].intercalate (t.splitOn '|') = t :=
  List.intercalate_splitOn '|'

/-- The joined text keeps the pieces and forgets which label each is of. -/
theorem joined_eq_iff {l l' : LabelTriple} : l.joined = l'.joined ↔ l.pieces = l'.pieces := by
  rw [← splitOn_joined, ← splitOn_joined]
  constructor
  · exact congrArg _
  · intro h
    rw [← rejoin l.joined, h, rejoin]

theorem pieces_of_labels {l l' : LabelTriple} (h : l.labels = l'.labels) : l.pieces = l'.pieces := by
  rw [LabelTriple.pieces, h, LabelTriple.pieces]

theorem splitOn_of_length_one {t : Text} (h : (t.splitOn '|').length = 1) : t.splitOn '|' = [t] := by
  obtain ⟨x, hx⟩ := List.length_eq_one_iff.mp h
  have := rejoin t
  rw [hx] at this
  simp only [List.intercalate, List.intersperse, List.flatten_cons, List.flatten_nil,
    List.append_nil] at this
  rw [hx, this]

/-- Three pieces are the three labels. -/
theorem pieces_eq_labels {l : LabelTriple} (h : l.pieces.length = 3) : l.pieces = l.labels := by
  have hone : ∀ t : Text, 1 ≤ (t.splitOn '|').length := fun t =>
    List.length_pos_iff.mpr (List.splitOn_ne_nil '|' t)
  simp only [LabelTriple.pieces, LabelTriple.labels, List.flatMap_cons, List.flatMap_nil,
    List.append_nil, List.length_append] at h ⊢
  have hv := hone (l.vendor.getD [])
  have hp := hone (l.product.getD [])
  have hr := hone (l.version.getD [])
  rw [splitOn_of_length_one (by omega), splitOn_of_length_one (by omega),
    splitOn_of_length_one (by omega)]
  rfl

/-- Labels without the delimiter are not mistaken for any others. -/
theorem labels_of_pieces {l l' : LabelTriple} (hplain : ∀ t ∈ l.labels, '|' ∉ t)
    (h : l.pieces = l'.pieces) : l.labels = l'.labels := by
  have hlen : l.pieces.length = 3 := by
    simp only [LabelTriple.labels, List.forall_mem_cons] at hplain
    simp [LabelTriple.pieces, LabelTriple.labels, List.splitOn_eq_singleton hplain.1,
      List.splitOn_eq_singleton hplain.2.1, List.splitOn_eq_singleton hplain.2.2.1]
  rw [← pieces_eq_labels hlen, h, pieces_eq_labels (h ▸ hlen)]

/-- A label that holds the delimiter can be cut there and shared out differently. -/
theorem exists_same_pieces {l : LabelTriple} {t : Text} (ht : t ∈ l.labels) (hbar : '|' ∈ t) :
    ∃ l' : LabelTriple, l'.pieces = l.pieces ∧ l'.labels ≠ l.labels := by
  obtain ⟨x, y, rfl⟩ := List.append_of_mem hbar
  obtain ⟨v, p, r⟩ := l
  simp only [LabelTriple.labels, List.mem_cons, List.not_mem_nil, or_false] at ht
  rcases ht with ht | ht | ht
  · refine ⟨⟨some x, some (y ++ '|' :: p.getD []), r⟩, ?_, ?_⟩
    · simp [LabelTriple.pieces, LabelTriple.labels, ← ht, List.splitOn_append_cons_self]
    · simp [LabelTriple.labels, ← ht]
  · refine ⟨⟨v, some x, some (y ++ '|' :: r.getD [])⟩, ?_, ?_⟩
    · simp [LabelTriple.pieces, LabelTriple.labels, ← ht, List.splitOn_append_cons_self]
    · simp [LabelTriple.labels, ← ht]
  · refine ⟨⟨some (v.getD [] ++ '|' :: p.getD []), some x, some y⟩, ?_, ?_⟩
    · simp [LabelTriple.pieces, LabelTriple.labels, ← ht, List.splitOn_append_cons_self]
    · simp [LabelTriple.labels, ← ht]

/-! ## The document generation -/

/-- The sha256 of a document's bytes, in lower-case hexadecimal. -/
abbrev DocDigest := { t : Text // isHex64 t = true }

def zeroDigest : DocDigest := ⟨List.replicate 64 '0', by decide⟩

/-- `doc_generation_id` -/
def docGenerationText (N : Floats F) (H : Hash) (settings : Settings C) (sha256 rulesV : Text)
    (sourceLabels : Text) : Text :=
  sha256 ++ '|' :: (fingerprintText N H settings rulesV ++ '|' :: sourceLabels)

theorem lowerDigit_ne_bar {t : Text} (h : ∀ c ∈ t, isLowerDigit c = true) : '|' ∉ t := by
  intro hbar
  exact absurd (h _ hbar) (by decide)

theorem DocDigest.plain (d : DocDigest) : '|' ∉ d.val := by
  have h := d.property
  simp only [isHex64, Bool.and_eq_true, List.all_eq_true] at h
  exact lowerDigit_ne_bar h.2

theorem fingerprintText_plain (N : Floats F) (H : Hash) (s : Settings C) (rules : Text) :
    '|' ∉ fingerprintText N H s rules := by
  have hdigest : '|' ∉ shortDigest H (projectionPayload N (buildManifest s rules)) :=
    lowerDigit_ne_bar fun c hc => isLowerDigit_encode (List.mem_of_mem_take hc)
  have hversion : '|' ∉ "rp".toList ++ decimal representationFingerprintVersion := by decide +kernel
  rw [fingerprintText, List.mem_append, List.mem_cons]
  rintro (h | h | h)
  · exact hversion h
  · exact absurd h (by decide)
  · exact hdigest h

/-- The id reads back as its digest, its fingerprint and its joined labels. -/
theorem docGenerationText_eq_iff {N : Floats F} {H : Hash} {s s' : Settings C} {d d' : DocDigest}
    {rules rules' labels labels' : Text} :
    docGenerationText N H s d.val rules labels = docGenerationText N H s' d'.val rules' labels' ↔
      d = d' ∧ fingerprintText N H s rules = fingerprintText N H s' rules' ∧ labels = labels' := by
  constructor
  · intro h
    have hsplit := congrArg (List.splitOn '|') h
    simp only [docGenerationText, List.splitOn_append_cons_self,
      List.splitOn_eq_singleton d.plain, List.splitOn_eq_singleton d'.plain,
      List.splitOn_eq_singleton (fingerprintText_plain N H s rules),
      List.splitOn_eq_singleton (fingerprintText_plain N H s' rules'), List.singleton_append,
      List.cons.injEq] at hsplit
    obtain ⟨hd, hf, -⟩ := hsplit
    simp only [docGenerationText, hd, hf, List.append_cancel_left_eq, List.cons.injEq,
      true_and] at h
    exact ⟨Subtype.ext hd, hf, h⟩
  · rintro ⟨rfl, hf, rfl⟩
    rw [docGenerationText, hf, docGenerationText]

/-- Equal ids for a pair of documents exactly when the digests, the fingerprints and the labels
agree. -/
def ExactIdentity (N : Floats F) (H : Hash) (s s' : Settings C) (rules rules' : Text)
    (d d' : DocDigest) (l l' : LabelTriple) : Prop :=
  docGenerationText N H s d.val rules l.joined = docGenerationText N H s' d'.val rules' l'.joined ↔
    d = d' ∧ fingerprintText N H s rules = fingerprintText N H s' rules' ∧ l.labels = l'.labels

theorem exactIdentity_iff {N : Floats F} {H : Hash} {s s' : Settings C} {rules rules' : Text}
    {d d' : DocDigest} {l l' : LabelTriple} : ExactIdentity N H s s' rules rules' d d' l l' ↔
      (d = d' → fingerprintText N H s rules = fingerprintText N H s' rules' →
        l.pieces = l'.pieces → l.labels = l'.labels) := by
  rw [ExactIdentity, docGenerationText_eq_iff, joined_eq_iff]
  constructor
  · intro h hd hf hpieces
    exact (h.mp ⟨hd, hf, hpieces⟩).2.2
  · intro h
    exact ⟨fun ⟨hd, hf, hpieces⟩ => ⟨hd, hf, h hd hf hpieces⟩,
      fun ⟨hd, hf, hlabels⟩ => ⟨hd, hf, pieces_of_labels hlabels⟩⟩

/-- The fingerprint is the contract that the serving gate compares. The document id is exact but for
labels cut at other places: against every other triple, exactly for labels without `|`. -/
theorem generation_identity {N : Floats F} {H : Hash} {s s' : Settings C} {rules rules' : Text}
    (hH : Distinguishes N H (buildManifest s rules) (buildManifest s' rules')) :
    (fingerprintText N H s rules = fingerprintText N H s' rules' ↔
      (compareManifests (buildManifest s rules) (buildManifest s' rules')).1 ≠ .reembedRequired) ∧
    (∀ d d' l l', ExactIdentity N H s s' rules rules' d d' l l' ↔
      (d = d' →
        (compareManifests (buildManifest s rules) (buildManifest s' rules')).1 ≠ .reembedRequired →
        l.pieces = l'.pieces → l.labels = l'.labels)) ∧
    (∀ l, (∀ d d' l', ExactIdentity N H s s' rules rules' d d' l l') ↔
      ((compareManifests (buildManifest s rules) (buildManifest s' rules')).1 ≠ .reembedRequired →
        ∀ t ∈ l.labels, '|' ∉ t)) := by
  have hfingerprint : fingerprintText N H s rules = fingerprintText N H s' rules' ↔
      (compareManifests (buildManifest s rules) (buildManifest s' rules')).1 ≠ .reembedRequired := by
    rw [fingerprintText_eq_iff hH, compareManifests_reembed]
    simp [representationFingerprint]
  refine ⟨hfingerprint, ?_, ?_⟩
  · intro d d' l l'
    rw [exactIdentity_iff, hfingerprint]
  · intro l
    constructor
    · intro h hsame t ht hbar
      obtain ⟨l', hpieces, hlabels⟩ := exists_same_pieces ht hbar
      have hexact := exactIdentity_iff.mp (h zeroDigest zeroDigest l')
      exact hlabels (hexact rfl (hfingerprint.mpr hsame) hpieces.symm).symm
    · intro h d d' l'
      exact exactIdentity_iff.mpr fun _ hf => labels_of_pieces (h (hfingerprint.mp hf))

/-! ## Concrete contracts -/

/-- A hash that tells texts of different lengths apart. -/
def byLength : Hash where
  digest b := List.replicate 32 (UInt8.ofNat b.length)
  size _ := List.length_replicate

def revised (revision : Text) : Settings Text where
  qdrantCollection := "corpus".toList
  embedMode := "vllm".toList
  embedModelRevision := revision
  denseDim := some 4096

theorem generation_identity_revised :
    Distinguishes halves byLength (buildManifest (revised []) "r1".toList)
      (buildManifest (revised "b".toList) "r1".toList) ∧
    (fingerprintText halves byLength (revised []) "r1".toList =
        fingerprintText halves byLength (revised "b".toList) "r1".toList ↔
      (compareManifests (buildManifest (revised []) "r1".toList)
        (buildManifest (revised "b".toList) "r1".toList)).1 ≠ .reembedRequired) := by
  have hH : Distinguishes halves byLength (buildManifest (revised []) "r1".toList)
      (buildManifest (revised "b".toList) "r1".toList) := by
    intro h
    exact absurd h (by decide +kernel)
  exact ⟨hH, (generation_identity hH).1⟩

/-- `a|b`, `c` and `a`, `b|c` are one generation of one document. -/
theorem delimiter_moved :
    ¬ ExactIdentity halves byLength (revised []) (revised []) "r1".toList "r1".toList
      zeroDigest zeroDigest ⟨some "a|b".toList, some "c".toList, none⟩
      ⟨some "a".toList, some "b|c".toList, none⟩ := by
  rw [exactIdentity_iff]
  intro h
  exact absurd (h rfl rfl (by decide)) (by decide)

end MainframeRag.Ingest
