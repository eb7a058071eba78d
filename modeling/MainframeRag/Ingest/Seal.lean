import MainframeRag.Lib.Fallible
import MainframeRag.Lib.JsonDict
import MainframeRag.Lib.Keyed

/-!
# The content seal

`ingest/seal.py`: the digest of everything a build stores, read back page by page. The scan follows
the offsets of a store it does not trust: every answer of the store is a parameter (`Reader`), and a
page is taken only where it has the points it announced (`scan`).

Whatever the pages are, the same content has the same seal (`digest_serves`), equal seals are of the
same content, and an answer that contradicts itself raises (`scan_fault`).

Which floats JSON has no text for is a parameter, as is the hash.
-/

namespace MainframeRag.Ingest.Seal

open PyText PyJson JsonText Fallible Hex

variable {F : Type}

/-! ## Data model -/

/-- `int | str | UUID` -/
inductive PointId
  | int (n : Int)
  | text (t : Text)
  | uuid (u : Uuid)
  deriving DecidableEq

/-- `str(id)` -/
def PointId.str : PointId → Text
  | .int n => decimal n
  | .text t => t
  | .uuid u => u.str

def PointId.asText : PointId → Option Text
  | .text t => some t
  | _ => none

/-- A named vector. -/
inductive Vector (F : Type)
  | dense (values : List F)
  | sparse (indices : List Int) (values : List F)

/-- What `retrieve` returns of a point; `none` is anything but a dict. -/
structure Record (F : Type) where
  id : PointId
  payload : Option (Items F)
  vector : Option (List (Text × Vector F))

/-- The answers of a collection during one scan, numbered by the calls. -/
structure Reader (F : Type) where
  /-- the ids of a page and the next offset -/
  scroll : Nat → Option PointId → List PointId × Option PointId
  retrieve : Nat → List Text → List (Record F)

inductive SealError
  | missingContent
  | nonTextId
  | incomplete
  | pointIdentity
  | duplicate
  | stalled
  /-- `allow_nan=False` -/
  | outOfRange
  | notSerializable
  deriving DecidableEq

/-! ## The digest of a point -/

variable (N : Floats F) (finite : F → Bool)

def sealStyle : Style := ⟨true, false⟩

/-- `_json` -/
def json (v : Json F) : Except SealError Text := do
  ensure (allFinite finite v = true) .outOfRange
  return dumps N sealStyle v

/-- The value of an id in JSON. -/
def PointId.value : PointId → Except SealError (Json F)
  | .int n => .ok (.int n)
  | .text t => .ok (.str t)
  | .uuid _ => .error .notSerializable

/-- `_json(next_offset)` -/
def PointId.token (o : PointId) : Except SealError Text := do
  let value ← o.value
  json N finite value

/-- A vector as `_point_digest` projects it. -/
def Vector.json : Vector F → Json F
  | .dense values => .arr (values.map .float)
  | .sparse indices values =>
    .obj [("indices".toList, .arr (indices.map .int)), ("values".toList, .arr (values.map .float))]

def projected (vectors : List (Text × Vector F)) : Items F := vectors.map fun x => (x.1, x.2.json)

variable (H : Hash)

/-- `_point_digest` -/
def pointDigest (p : Record F) : Except SealError Bytes := do
  let payload ← orRaise p.payload .missingContent
  let vectors ← orRaise p.vector .missingContent
  ensure (vectors ≠ []) .missingContent
  let id ← p.id.value
  let text ← json N finite (.arr [id, .obj payload, .obj (projected vectors)])
  return H.digest (encodeUtf8 text)

/-! ## The scan -/

/-- Identity and digest of the points seen. -/
abbrev Leaves := List (Text × Bytes)

/-- The loop over the points of one page. -/
def addLeaves (excluded : Option Text) : List (Record F) → Leaves → Except SealError Leaves
  | [], leaves => .ok leaves
  | p :: rest, leaves => do
    let id ← orRaise p.id.asText .pointIdentity
    let identity ← json N finite (.str id)
    if some id = excluded then
      addLeaves excluded rest leaves
    else do
      ensure (identity ∉ leaves.map Prod.fst) .duplicate
      let digest ← pointDigest N finite H p
      addLeaves excluded rest (leaves ++ [(identity, digest)])

/-- The texts of a page's ids. -/
def applicationIds : List PointId → Except SealError (List Text)
  | [] => .ok []
  | id :: rest => do
    let t ← orRaise id.asText .nonTextId
    let ts ← applicationIds rest
    return t :: ts

def sorted (ts : List Text) : List Text := ts.insertionSort (· ≤ ·)

/-- One page: its points are read back and their leaves added. -/
def readPage (c : Reader F) (excluded : Option Text) (call : Nat) (page : List PointId)
    (leaves : Leaves) : Except SealError Leaves := do
  let ids ← applicationIds page
  let points := if ids = [] then [] else c.retrieve call ids
  ensure (ids.Nodup ∧ sorted (points.map fun p => p.id.str) = sorted ids) .incomplete
  addLeaves N finite H excluded points leaves

/-- The loop over the pages; `none` where the pages do not end within `fuel` calls. -/
def scan (c : Reader F) (excluded : Option Text) :
    Nat → Nat → Option PointId → List Text → Leaves → Except SealError (Option Leaves)
  | 0, _, _, _, _ => .ok none
  | fuel + 1, call, offset, offsets, leaves => do
    let leaves ← readPage N finite H c excluded call (c.scroll call offset).1 leaves
    match (c.scroll call offset).2 with
    | none => return some leaves
    | some next => do
      let token ← next.token N finite
      ensure ((c.scroll call offset).1 ≠ [] ∧ token ∉ offsets) .stalled
      scan c excluded fuel (call + 1) (some next) (token :: offsets) leaves

structure Part where
  count : Nat
  sha256 : Text
  deriving DecidableEq

/-- The first item the root hashes. -/
def header (binding : List Text) (role : Text) (count : Nat) : Json F :=
  .arr [.str "build-content-seal".toList, .int 1, .arr (binding.map .str), .str role, .int count]

/-- `sorted(leaves)`, and what lies under the identities. -/
def digests (leaves : Leaves) : Bytes :=
  (leaves.insertionSort fun a b => a.1 ≤ b.1).flatMap Prod.snd

def root (binding : List Text) (role : Text) (leaves : Leaves) : Except SealError Part := do
  let text ← json N finite (header binding role leaves.length)
  return ⟨leaves.length, H.hexdigest (encodeUtf8 text ++ digests leaves)⟩

/-- `_collection_digest` -/
def collectionDigest (c : Reader F) (binding : List Text) (role : Text) (excluded : Option Text)
    (fuel : Nat) : Except SealError (Option Part) := do
  match ← scan N finite H c excluded fuel 0 none [] [] with
  | none => return none
  | some leaves => do
    let part ← root N finite H binding role leaves
    return some part

structure BuildName where
  buildId : Text
  aliasName : Text
  physical : Text
  genFp : Text
  corpusFp : Text
  receiptId : Text

def BuildName.binding (b : BuildName) : List Text :=
  [b.buildId, b.aliasName, b.physical, b.genFp, b.corpusFp]

structure ContentSeal where
  schema : Int
  data : Part
  control : Part
  deriving DecidableEq

/-- `capture_content_seal`; each collection has its answers. -/
def captureContentSeal (store : Text → Reader F) (b : BuildName) (fuel : Nat) :
    Except SealError (Option ContentSeal) := do
  match ← collectionDigest N finite H (store b.physical) b.binding "data".toList none fuel with
  | none => return none
  | some data => do
    match ← collectionDigest N finite H (store (b.physical ++ "__completions".toList)) b.binding
        "control".toList (some b.receiptId) fuel with
    | none => return none
    | some control => return some ⟨1, data, control⟩

/-! ## What a collection holds -/

/-- A point with a string id, its payload and its named vectors. -/
structure Point (F : Type) where
  id : Text
  payload : Items F
  vectors : List (Text × Vector F)
  named : vectors ≠ []
  names_distinct : (vectors.map Prod.fst).Nodup
  keys_distinct : distinctKeys (.obj payload) = true

abbrev Collection (F : Type) := Keyed (Point F) Point.id

namespace Point

/-- The point as `retrieve` returns it. -/
def record (p : Point F) : Record F where
  id := .text p.id
  payload := some p.payload
  vector := some p.vectors

/-- What is hashed of a point. -/
def content (p : Point F) : Json F := .arr [.str p.id, .obj p.payload, .obj (projected p.vectors)]

def message (p : Point F) : Bytes := encodeUtf8 (dumps N sealStyle p.content)

def identity (p : Point F) : Text := dumps N sealStyle (.str p.id)

def leaf (p : Point F) : Text × Bytes := (p.identity N, H.digest (p.message N))

end Point

/-- Same id, payload and vectors; dicts are compared without regard to the order of their items. -/
structure SamePoint (p q : Point F) : Prop where
  id : p.id = q.id
  payload : JsonText.Same (.obj p.payload) (.obj q.payload)
  vectors : ∀ name, p.vectors.lookup name = q.vectors.lookup name

/-- The points of two lists are the same ones. -/
def SameContent (ps qs : List (Point F)) : Prop :=
  (∀ p ∈ ps, ∃ q ∈ qs, SamePoint p q) ∧ ∀ q ∈ qs, ∃ p ∈ ps, SamePoint p q

/-! ## Vectors in JSON -/

theorem sortKeys_ints (ns : List Int) : sortKeys (.arr (ns.map .int) : Json F) = .arr (ns.map .int) := by
  rw [sortKeys, sortKeysElems_eq, List.map_map]
  exact congrArg Json.arr (List.map_congr_left fun _ _ => by rw [Function.comp_apply, sortKeys])

theorem sortKeys_floats (xs : List F) : sortKeys (.arr (xs.map .float)) = .arr (xs.map .float) := by
  rw [sortKeys, sortKeysElems_eq, List.map_map]
  exact congrArg Json.arr (List.map_congr_left fun _ _ => by rw [Function.comp_apply, sortKeys])

@[simp] theorem sortKeys_vector (v : Vector F) : sortKeys v.json = v.json := by
  cases v with
  | dense values => exact sortKeys_floats values
  | sparse indices values =>
    have hle : "indices".toList ≤ "values".toList := by decide
    rw [Vector.json, sortKeys_obj, sortedItems, sortKeysMembers_eq]
    simp only [List.map_cons, List.map_nil, sortKeys_ints, sortKeys_floats, List.insertionSort_cons,
      List.insertionSort_nil, List.orderedInsert_cons, List.orderedInsert_nil, if_pos hle]

theorem vector_distinct (v : Vector F) : distinctKeys v.json = true := by
  have hints : ∀ ns : List Int, distinctKeys (.arr (ns.map .int) : Json F) = true := by
    intro ns
    rw [distinctKeys_arr]
    simp [distinctKeys]
  have hfloats : ∀ xs : List F, distinctKeys (.arr (xs.map .float)) = true := by
    intro xs
    rw [distinctKeys_arr]
    simp [distinctKeys]
  cases v with
  | dense values => exact hfloats values
  | sparse indices values =>
    have hkeys : ["indices".toList, "values".toList].Nodup := by decide +kernel
    rw [Vector.json, distinctKeys_obj]
    refine ⟨hkeys, ?_⟩
    simp only [List.mem_cons, List.not_mem_nil, or_false, forall_eq_or_imp, forall_eq]
    exact ⟨hints indices, hfloats values⟩

theorem vector_injective : Function.Injective (Vector.json (F := F)) := by
  have hfloats : Function.Injective (List.map (Json.float (F := F))) :=
    List.map_injective_iff.mpr fun _ _ => Json.float.inj
  have hints : Function.Injective (List.map (Json.int (F := F))) :=
    List.map_injective_iff.mpr fun _ _ => Json.int.inj
  intro v w h
  cases v with
  | dense xs =>
    cases w with
    | dense ys => exact congrArg Vector.dense (hfloats (Json.arr.inj h))
    | sparse js ys => cases h
  | sparse is xs =>
    cases w with
    | dense ys => cases h
    | sparse js ys =>
      simp only [Vector.json, Json.obj.injEq, List.cons.injEq, Prod.mk.injEq, Json.arr.injEq,
        true_and, and_true] at h
      rw [hints h.1, hfloats h.2]

theorem projected_keys (vectors : List (Text × Vector F)) :
    (projected vectors).map Prod.fst = vectors.map Prod.fst := by
  rw [projected, List.map_map]
  rfl

theorem lookup_projected (vectors : List (Text × Vector F)) (name : Text) :
    (projected vectors).lookup name = (vectors.lookup name).map Vector.json := by
  induction vectors with
  | nil => rfl
  | cons x vectors ih =>
    rw [projected, List.map_cons, List.lookup_cons, List.lookup_cons, ← projected, ih]
    split <;> rfl

theorem same_projected {vs ws : List (Text × Vector F)} (hv : (vs.map Prod.fst).Nodup)
    (hw : (ws.map Prod.fst).Nodup) : sortedItems (projected vs) = sortedItems (projected ws) ↔
      ∀ name, vs.lookup name = ws.lookup name := by
  have hkeep : ∀ o : Option (Vector F), (o.map Vector.json).map sortKeys = o.map Vector.json := by
    intro o
    cases o <;> simp
  rw [sortedItems_eq_iff (by rwa [projected_keys]) (by rwa [projected_keys])]
  refine forall_congr' fun name => ?_
  rw [lookup_projected, lookup_projected, hkeep, hkeep]
  exact (Option.map_injective vector_injective).eq_iff

/-! ## Points in JSON -/

theorem Point.content_distinct (p : Point F) : distinctKeys p.content = true := by
  rw [content, distinctKeys_arr]
  simp only [List.mem_cons, List.not_mem_nil, or_false, forall_eq_or_imp, forall_eq]
  refine ⟨distinctKeys_str p.id, p.keys_distinct, distinctKeys_obj.mpr ⟨?_, fun x hx => ?_⟩⟩
  · rw [projected_keys]
    exact p.names_distinct
  · obtain ⟨y, -, rfl⟩ := List.mem_map.mp hx
    exact vector_distinct y.2

/-- What is hashed of two points is equal where they are the same point. -/
theorem message_eq_iff {p q : Point F} : p.message N = q.message N ↔ SamePoint p q := by
  have hutf : Function.Injective encodeUtf8 := by
    intro t u h
    have := decodeUtf8_encodeUtf8 t
    rw [h, decodeUtf8_encodeUtf8] at this
    exact (Option.some.inj this).symm
  have hobj : ∀ d e : Items F, sortKeys (.obj d) = sortKeys (.obj e) ↔ sortedItems d = sortedItems e := by
    intro d e
    rw [sortKeys_obj, sortKeys_obj, Json.obj.injEq]
  rw [Point.message, Point.message, hutf.eq_iff, dumps, dumps, (render_injective N sealStyle).eq_iff,
    Point.content, Point.content, sortKeys, sortKeys, Json.arr.injEq]
  simp only [sortKeysElems, List.cons.injEq, and_true, hobj,
    same_projected p.names_distinct q.names_distinct]
  rw [← hobj, ← same_iff_sortKeys _ _ p.keys_distinct q.keys_distinct]
  simp only [sortKeys, Json.str.injEq]
  exact ⟨fun h => ⟨h.1, h.2.1, h.2.2⟩, fun h => ⟨h.id, h.payload, h.vectors⟩⟩

theorem identity_injective {t u : Text} (h : dumps N sealStyle (.str t) = dumps N sealStyle (.str u)) :
    t = u := by
  have := render_injective N sealStyle h
  simpa only [sortKeys, Json.str.injEq] using this

/-! ## A page of points -/

/-- The points the digest is of: all but the one excluded. -/
def certified (excluded : Option Text) (ps : List (Point F)) : List (Point F) :=
  ps.filter fun p => some p.id ≠ excluded

/-- JSON has a text for the point. -/
def Point.Finite (p : Point F) : Prop := allFinite finite p.content = true

instance (p : Point F) : Decidable (p.Finite finite) := by
  unfold Point.Finite
  infer_instance

theorem json_str (t : Text) : json N finite (.str t) = .ok (dumps N sealStyle (.str t)) := by
  have hfin : allFinite finite (.str t : Json F) = true := by rw [allFinite]
  rw [json, ensure_true _ hfin, ok_bind]
  rfl

theorem pointDigest_record (p : Point F) : pointDigest N finite H p.record =
    if p.Finite finite then .ok (H.digest (p.message N)) else .error .outOfRange := by
  have hp : pointDigest N finite H p.record = (do
      let text ← json N finite p.content
      return H.digest (encodeUtf8 text)) := by
    simp only [pointDigest, Point.record, orRaise_some, ok_bind, ensure_true _ p.named, PointId.value,
      Point.content]
  rw [hp, json, ensure]
  split
  · rw [if_pos (by assumption)]
    rfl
  · rw [if_neg (by assumption)]
    rfl

/-- The points of a page give their leaves, where each has a text. -/
theorem addLeaves_points {excluded : Option Text} {ps : List (Point F)} : ∀ {leaves : Leaves},
    (leaves.map Prod.fst ++ (certified excluded ps).map (Point.identity N)).Nodup →
      addLeaves N finite H excluded (ps.map Point.record) leaves =
        if ∀ p ∈ certified excluded ps, p.Finite finite then
          .ok (leaves ++ (certified excluded ps).map (Point.leaf N H))
        else .error .outOfRange := by
  induction ps with
  | nil =>
    intro leaves _
    simp [addLeaves, certified]
  | cons p ps ih =>
    intro leaves hd
    have hid : p.record.id.asText = some p.id := rfl
    rw [List.map_cons, addLeaves, hid, orRaise_some, ok_bind, json_str, ok_bind]
    by_cases hex : some p.id = excluded
    · have hskip : certified excluded (p :: ps) = certified excluded ps :=
        List.filter_cons_of_neg (by simpa using hex)
      rw [hskip] at hd ⊢
      rw [if_pos hex, ih hd]
    · have hkeep : certified excluded (p :: ps) = p :: certified excluded ps :=
        List.filter_cons_of_pos (by simpa using hex)
      rw [hkeep] at hd ⊢
      rw [List.map_cons, ← List.singleton_append, ← List.append_assoc] at hd
      have hfresh : dumps N sealStyle (.str p.id) ∉ leaves.map Prod.fst := by
        have := (List.nodup_append.mp (List.nodup_append.mp hd).1).2.2
        exact fun hm => this _ hm _ (List.mem_singleton_self _) rfl
      have hrest := @ih (leaves ++ [p.leaf N H]) (by rwa [List.map_append])
      rw [if_neg hex, ensure_true _ hfresh, ok_bind, pointDigest_record]
      by_cases hfin : p.Finite finite
      · rw [if_pos hfin, ok_bind]
        refine hrest.trans ?_
        simp only [List.forall_mem_cons, hfin, true_and, List.map_cons, List.append_assoc,
          List.singleton_append]
      · rw [if_neg hfin, error_bind, if_neg]
        exact fun hall => hfin (hall p List.mem_cons_self)

theorem applicationIds_text (ts : List Text) : applicationIds (ts.map .text) = .ok ts := by
  induction ts with
  | nil => rfl
  | cons t ts ih =>
    rw [List.map_cons, applicationIds, ih]
    rfl

theorem sorted_eq_iff {ts us : List Text} : sorted ts = sorted us ↔ ts.Perm us := by
  constructor
  · intro h
    exact (List.perm_insertionSort _ ts).symm.trans
      ((List.Perm.of_eq h).trans (List.perm_insertionSort _ us))
  · intro h
    refine List.Perm.eq_of_pairwise (fun a b _ _ hab hba => le_antisymm hab hba)
      (List.pairwise_insertionSort _ ts) (List.pairwise_insertionSort _ us) ?_
    exact (List.perm_insertionSort _ ts).trans (h.trans (List.perm_insertionSort _ us).symm)

/-! ## A store that serves a collection -/

def Point.textId (p : Point F) : PointId := .text p.id

/-- `retrieve` returns the points of the page, in any order. -/
def Delivers (c : Reader F) (call : Nat) (page : List (Point F)) : Prop :=
  page = [] ∨ ∃ ps : List (Point F), ps.Perm page ∧ c.retrieve call (page.map Point.id) = ps.map Point.record

/-- From this call on the pages hold the points `ps`; they end, and no offset comes twice. -/
inductive Serves (c : Reader F) : Nat → Option PointId → List PointId → List (Point F) → Prop
  | last {call offset seen page} (hscroll : c.scroll call offset = (page.map Point.textId, none))
      (hpage : Delivers c call page) : Serves c call offset seen page
  | more {call offset seen page next rest}
      (hscroll : c.scroll call offset = (page.map Point.textId, some next))
      (hpage : Delivers c call page) (hne : page ≠ []) (hnew : next ∉ seen)
      (hplain : ∀ u, next ≠ .uuid u)
      (hrest : Serves c (call + 1) (some next) (next :: seen) rest) :
      Serves c call offset seen (page ++ rest)

theorem readPage_delivers {c : Reader F} (excluded : Option Text) {call : Nat}
    {page : List (Point F)} (h : Delivers c call page) (hids : (page.map Point.id).Nodup) :
    ∃ ps : List (Point F), ps.Perm page ∧ ∀ leaves,
      readPage N finite H c excluded call (page.map Point.textId) leaves =
        addLeaves N finite H excluded (ps.map Point.record) leaves := by
  have happ : applicationIds (page.map Point.textId) = .ok (page.map Point.id) := by
    have := applicationIds_text (page.map Point.id)
    rwa [List.map_map] at this
  obtain ⟨ps, hps, hpoints⟩ : ∃ ps : List (Point F), ps.Perm page ∧
      (if page.map Point.id = [] then [] else c.retrieve call (page.map Point.id)) =
        ps.map Point.record := by
    rcases h with rfl | ⟨ps, hps, hget⟩
    · exact ⟨[], .refl [], rfl⟩
    · refine ⟨ps, hps, ?_⟩
      by_cases hnil : page.map Point.id = []
      · obtain rfl := List.map_eq_nil_iff.mp hnil
        rw [if_pos hnil, List.perm_nil.mp hps, List.map_nil]
      · rw [if_neg hnil, hget]
  refine ⟨ps, hps, fun leaves => ?_⟩
  have hsame : sorted ((ps.map Point.record).map fun p => p.id.str) = sorted (page.map Point.id) := by
    rw [sorted_eq_iff, List.map_map]
    exact hps.map Point.id
  rw [readPage, happ, ok_bind]
  simp only [hpoints]
  rw [ensure_true _ ⟨hids, hsame⟩, ok_bind]

/-! ## Offsets -/

theorem token_text (t : Text) : (PointId.text t).token N finite = .ok (dumps N sealStyle (.str t)) :=
  json_str N finite t

theorem token_int (n : Int) : (PointId.int n).token N finite = .ok (dumps N sealStyle (.int n)) := by
  have hfin : allFinite finite (.int n : Json F) = true := by rw [allFinite]
  rw [PointId.token, PointId.value, ok_bind, json, ensure_true _ hfin, ok_bind]
  rfl

theorem token_plain {o : PointId} (h : ∀ u, o ≠ .uuid u) : ∃ t, o.token N finite = .ok t := by
  cases o with
  | int n => exact ⟨_, token_int N finite n⟩
  | text t => exact ⟨_, token_text N finite t⟩
  | uuid u => exact absurd rfl (h u)

theorem value_inj {o o' : PointId} {v : Json F} (h : o.value = .ok v) (h' : o'.value = .ok v) :
    o = o' := by
  cases o with
  | int n =>
    obtain rfl := Except.ok.inj h
    cases o' <;> simp_all [PointId.value]
  | text t =>
    obtain rfl := Except.ok.inj h
    cases o' <;> simp_all [PointId.value]
  | uuid u => cases h

theorem token_inj {o o' : PointId} {t : Text} (h : o.token N finite = .ok t)
    (h' : o'.token N finite = .ok t) : o = o' := by
  have hvalue : ∀ {o : PointId}, o.token N finite = .ok t →
      ∃ v : Json F, o.value = .ok v ∧ sortKeys v = v ∧ dumps N sealStyle v = t := by
    intro o h
    cases o with
    | int n =>
      rw [token_int] at h
      exact ⟨.int n, rfl, by rw [sortKeys], Except.ok.inj h⟩
    | text u =>
      rw [token_text] at h
      exact ⟨.str u, rfl, by rw [sortKeys], Except.ok.inj h⟩
    | uuid u => cases h
  obtain ⟨v, hv, hsv, rfl⟩ := hvalue h
  obtain ⟨w, hw, hsw, heq⟩ := hvalue h'
  have : w = v := by
    have := render_injective N sealStyle heq
    rwa [hsv, hsw] at this
  exact value_inj hv (this ▸ hw)

/-- The tokens kept are of offsets given out. -/
def Tokens (offsets : List Text) (seen : List PointId) : Prop :=
  ∀ t ∈ offsets, ∃ o ∈ seen, o.token N finite = .ok t

theorem Tokens.cons {offsets : List Text} {seen : List PointId} (h : Tokens N finite offsets seen)
    {o : PointId} {t : Text} (ht : o.token N finite = .ok t) :
    Tokens N finite (t :: offsets) (o :: seen) := by
  intro u hu
  rcases List.mem_cons.mp hu with rfl | hu
  · exact ⟨o, List.mem_cons_self, ht⟩
  · obtain ⟨o', ho', hu'⟩ := h u hu
    exact ⟨o', List.mem_cons_of_mem _ ho', hu'⟩

theorem Tokens.notMem {offsets : List Text} {seen : List PointId} (h : Tokens N finite offsets seen)
    {o : PointId} {t : Text} (ht : o.token N finite = .ok t) (hnew : o ∉ seen) : t ∉ offsets := by
  intro hm
  obtain ⟨o', ho', ht'⟩ := h t hm
  exact hnew (token_inj N finite ht ht' ▸ ho')

/-! ## The scan of a store that serves a collection -/

theorem certified_perm (excluded : Option Text) {ps qs : List (Point F)} (h : ps.Perm qs) :
    (certified excluded ps).Perm (certified excluded qs) :=
  h.filter _

theorem certified_append {excluded : Option Text} (ps qs : List (Point F)) :
    certified excluded (ps ++ qs) = certified excluded ps ++ certified excluded qs :=
  List.filter_append ..

/-- Where no offset is missing a text, the scan comes to the leaves of the points, whatever the pages
are. -/
theorem scan_serves {c : Reader F} {excluded : Option Text} {call : Nat} {offset : Option PointId}
    {seen : List PointId} {ps : List (Point F)} (h : Serves c call offset seen ps) :
    ∀ {offsets : List Text} {leaves : Leaves}, Tokens N finite offsets seen →
      (ps.map Point.id).Nodup →
      (leaves.map Prod.fst ++ (certified excluded ps).map (Point.identity N)).Nodup →
      ∃ n, if ∀ p ∈ certified excluded ps, p.Finite finite then
          ∃ more : Leaves, more.Perm ((certified excluded ps).map (Point.leaf N H)) ∧
            ∀ fuel, n ≤ fuel → scan N finite H c excluded fuel call offset offsets leaves =
              .ok (some (leaves ++ more))
        else ∀ fuel, n ≤ fuel →
          scan N finite H c excluded fuel call offset offsets leaves = .error .outOfRange := by
  induction h with
  | @last call offset seen page hscroll hpage =>
    intro offsets leaves htok hids hd
    obtain ⟨qs, hqs, hread⟩ := readPage_delivers N finite H excluded hpage hids
    have hperm := certified_perm excluded hqs
    have hpoints := @addLeaves_points F N finite H excluded qs leaves
      (((hperm.map _).append_left _).nodup_iff.mpr hd)
    have hall : (∀ p ∈ certified excluded qs, p.Finite finite) ↔
        ∀ p ∈ certified excluded page, p.Finite finite :=
      forall_congr' fun p => by rw [hperm.mem_iff]
    refine ⟨1, ?_⟩
    by_cases hfin : ∀ p ∈ certified excluded page, p.Finite finite
    · rw [if_pos hfin]
      refine ⟨_, hperm.map _, fun fuel hfuel => ?_⟩
      obtain ⟨fuel, rfl⟩ := Nat.exists_eq_add_of_le' hfuel
      rw [scan, hscroll, hread, hpoints, if_pos (hall.mpr hfin), ok_bind]
      rfl
    · rw [if_neg hfin]
      intro fuel hfuel
      obtain ⟨fuel, rfl⟩ := Nat.exists_eq_add_of_le' hfuel
      rw [scan, hscroll, hread, hpoints, if_neg (mt hall.mp hfin), error_bind]
  | @more call offset seen page next rest hscroll hpage hne hnew hplain hrest ih =>
    intro offsets leaves htok hids hd
    rw [List.map_append, List.nodup_append] at hids
    rw [certified_append, List.map_append, ← List.append_assoc] at hd
    obtain ⟨qs, hqs, hread⟩ := readPage_delivers N finite H excluded hpage hids.1
    have hperm := certified_perm excluded hqs
    have hpoints := @addLeaves_points F N finite H excluded qs leaves
      (((hperm.map _).append_left _).nodup_iff.mpr (List.nodup_append.mp hd).1)
    have hall : (∀ p ∈ certified excluded qs, p.Finite finite) ↔
        ∀ p ∈ certified excluded page, p.Finite finite :=
      forall_congr' fun p => by rw [hperm.mem_iff]
    obtain ⟨t, ht⟩ := token_plain N finite hplain
    have hmem : page.map Point.textId ≠ [] ∧ t ∉ offsets :=
      ⟨by simpa using hne, htok.notMem N finite ht hnew⟩
    by_cases hfin : ∀ p ∈ certified excluded page, p.Finite finite
    · have hids' : ((leaves ++ (certified excluded qs).map (Point.leaf N H)).map Prod.fst ++
          (certified excluded rest).map (Point.identity N)).Nodup := by
        rw [List.map_append, List.map_map]
        exact (((hperm.map _).append_left _).append_right _).nodup_iff.mpr hd
      obtain ⟨n, hn⟩ := ih (htok.cons N finite ht) hids.2.1 hids'
      have hstep : ∀ fuel, scan N finite H c excluded (fuel + 1) call offset offsets leaves =
          scan N finite H c excluded fuel (call + 1) (some next) (t :: offsets)
            (leaves ++ (certified excluded qs).map (Point.leaf N H)) := by
        intro fuel
        rw [scan, hscroll, hread, hpoints, if_pos (hall.mpr hfin), ok_bind]
        simp only [ht, ok_bind, ensure_true _ hmem]
      have hsplit : (∀ p ∈ certified excluded (page ++ rest), p.Finite finite) ↔
          ∀ p ∈ certified excluded rest, p.Finite finite := by
        rw [certified_append, List.forall_mem_append]
        exact and_iff_right hfin
      refine ⟨n + 1, ?_⟩
      simp only [hsplit]
      split at hn
      · rw [if_pos (by assumption)]
        obtain ⟨more, hmore, hscan⟩ := hn
        refine ⟨(certified excluded qs).map (Point.leaf N H) ++ more, ?_, fun fuel hfuel => ?_⟩
        · rw [certified_append, List.map_append]
          exact (hperm.map _).append hmore
        · obtain ⟨fuel, rfl⟩ := Nat.exists_eq_add_of_le' (Nat.le_trans (Nat.le_add_left 1 n) hfuel)
          rw [hstep, hscan fuel (by omega), List.append_assoc]
      · rw [if_neg (by assumption)]
        intro fuel hfuel
        obtain ⟨fuel, rfl⟩ := Nat.exists_eq_add_of_le' (Nat.le_trans (Nat.le_add_left 1 n) hfuel)
        rw [hstep, hn fuel (by omega)]
    · refine ⟨1, ?_⟩
      rw [if_neg]
      · intro fuel hfuel
        obtain ⟨fuel, rfl⟩ := Nat.exists_eq_add_of_le' hfuel
        rw [scan, hscroll, hread, hpoints, if_neg (mt hall.mp hfin), error_bind]
      · intro hcert
        refine hfin fun p hp => hcert p ?_
        rw [certified_append]
        exact List.mem_append_left _ hp

/-! ## The certificate -/

/-- What the root hashes. -/
def rootMessage (binding : List Text) (role : Text) (ps : List (Point F)) : Bytes :=
  encodeUtf8 (dumps N sealStyle (header binding role ps.length)) ++ digests (ps.map (Point.leaf N H))

/-- The digest of the points, whatever their order. -/
def partOf (binding : List Text) (role : Text) (ps : List (Point F)) : Part where
  count := ps.length
  sha256 := H.hexdigest (rootMessage N H binding role ps)

/-- Everything that is hashed for the points. -/
def hashed (binding : List Text) (role : Text) (ps : List (Point F)) : Set Bytes :=
  {m | m = rootMessage N H binding role ps ∨ ∃ p ∈ ps, m = p.message N}

theorem header_finite (binding : List Text) (role : Text) (n : Nat) :
    allFinite finite (header binding role n : Json F) = true := by
  have htexts : allFiniteElems finite (binding.map .str : List (Json F)) = true := by
    induction binding with
    | nil => rfl
    | cons t ts ih => rw [List.map_cons, allFiniteElems, allFinite, ih, Bool.and_true]
  simp only [header, allFinite, allFiniteElems, htexts, Bool.and_true]

theorem root_ok (binding : List Text) (role : Text) (leaves : Leaves) :
    root N finite H binding role leaves = .ok ⟨leaves.length,
      H.hexdigest (encodeUtf8 (dumps N sealStyle (header binding role leaves.length)) ++
        digests leaves)⟩ := by
  rw [root, json, ensure_true _ (header_finite finite binding role _), ok_bind]
  rfl

/-- The order in which the leaves came does not matter. -/
theorem digests_perm {leaves more : Leaves} (h : leaves.Perm more)
    (hd : (leaves.map Prod.fst).Nodup) : digests leaves = digests more := by
  have hsort : (leaves.insertionSort fun a b => a.1 ≤ b.1) =
      more.insertionSort fun a b => a.1 ≤ b.1 := by
    have hl := List.perm_insertionSort (fun a b : Text × Bytes => a.1 ≤ b.1) leaves
    have hm := List.perm_insertionSort (fun a b : Text × Bytes => a.1 ≤ b.1) more
    refine (hl.trans (h.trans hm.symm)).eq_of_pairwise ?_ (List.pairwise_insertionSort _ _)
      (List.pairwise_insertionSort _ _)
    intro a b ha hb hab hba
    exact List.inj_on_of_nodup_map hd (hl.mem_iff.mp ha)
      (h.mem_iff.mpr (hm.mem_iff.mp hb)) (le_antisymm hab hba)
  rw [digests, digests, hsort]

theorem leaves_nodup {ps : List (Point F)} (h : (ps.map Point.id).Nodup) :
    ((ps.map (Point.leaf N H)).map Prod.fst).Nodup := by
  rw [List.map_map]
  have hmap := h.map_on fun t _ u _ htu => identity_injective N htu
  rwa [List.map_map] at hmap

theorem partOf_perm (binding : List Text) (role : Text) {ps qs : List (Point F)} (h : ps.Perm qs)
    (hd : (ps.map Point.id).Nodup) : partOf N H binding role ps = partOf N H binding role qs := by
  rw [partOf, partOf, rootMessage, rootMessage, h.length_eq,
    digests_perm (h.map _) (leaves_nodup N H hd)]

/-- Blocks of one width are read back from their concatenation. -/
theorem blocks_inj {w : Nat} : ∀ {xs ys : Leaves}, (∀ x ∈ xs, x.2.length = w) →
    (∀ y ∈ ys, y.2.length = w) → xs.length = ys.length →
    xs.flatMap Prod.snd = ys.flatMap Prod.snd → xs.map Prod.snd = ys.map Prod.snd
  | [], [], _, _, _, _ => rfl
  | [], _ :: _, _, _, hl, _ => by cases hl
  | _ :: _, [], _, _, hl, _ => by cases hl
  | x :: xs, y :: ys, hx, hy, hl, h => by
    obtain ⟨hx, hxs⟩ := List.forall_mem_cons.mp hx
    obtain ⟨hy, hys⟩ := List.forall_mem_cons.mp hy
    rw [List.flatMap_cons, List.flatMap_cons] at h
    obtain ⟨hhead, htail⟩ := List.append_inj h (hx.trans hy.symm)
    rw [List.map_cons, List.map_cons, hhead,
      blocks_inj hxs hys (Nat.succ.inj hl) htail]

theorem digests_inj {leaves more : Leaves} (hl : ∀ x ∈ leaves, x.2.length = 32)
    (hm : ∀ x ∈ more, x.2.length = 32) (hlen : leaves.length = more.length)
    (h : digests leaves = digests more) {x : Text × Bytes} (hx : x ∈ leaves) :
    ∃ y ∈ more, y.2 = x.2 := by
  have hmem : ∀ (l : Leaves) x, x ∈ l.insertionSort (fun a b => a.1 ≤ b.1) ↔ x ∈ l := fun l x =>
    (List.perm_insertionSort _ l).mem_iff
  have hsnd := blocks_inj (fun x hx => hl x ((hmem _ x).mp hx)) (fun x hx => hm x ((hmem _ x).mp hx))
    (by rw [List.length_insertionSort, List.length_insertionSort, hlen]) h
  have hin : x.2 ∈ (more.insertionSort fun a b => a.1 ≤ b.1).map Prod.snd :=
    hsnd ▸ List.mem_map_of_mem ((hmem _ x).mpr hx)
  obtain ⟨y, hy, hyx⟩ := List.mem_map.mp hin
  exact ⟨y, (hmem _ y).mp hy, hyx⟩

theorem leaf_size {ps : List (Point F)} : ∀ x ∈ ps.map (Point.leaf N H), x.2.length = 32 := by
  intro x hx
  obtain ⟨p, -, rfl⟩ := List.mem_map.mp hx
  exact H.size _

theorem SamePoint.symm {p q : Point F} (h : SamePoint p q) : SamePoint q p where
  id := h.id.symm
  payload := by
    rw [same_iff_sortKeys _ _ q.keys_distinct p.keys_distinct]
    exact ((same_iff_sortKeys _ _ p.keys_distinct q.keys_distinct).mp h.payload).symm
  vectors name := (h.vectors name).symm

/-- Equal digests of as many points: each of the one is a point of the other. -/
theorem covered_of_digests {ps qs : List (Point F)}
    (hinj : ∀ p ∈ ps, ∀ q ∈ qs, H.digest (q.message N) = H.digest (p.message N) →
      q.message N = p.message N)
    (hlen : ps.length = qs.length)
    (h : digests (ps.map (Point.leaf N H)) = digests (qs.map (Point.leaf N H))) :
    ∀ p ∈ ps, ∃ q ∈ qs, SamePoint p q := by
  intro p hp
  obtain ⟨y, hy, hyp⟩ := digests_inj (leaf_size N H) (leaf_size N H) (by simpa using hlen) h
    (List.mem_map_of_mem hp)
  obtain ⟨q, hq, rfl⟩ := List.mem_map.mp hy
  exact ⟨q, hq, (message_eq_iff N).mp (hinj p hp q hq hyp).symm⟩

theorem SamePoint.leaf_eq {p q : Point F} (h : SamePoint p q) : p.leaf N H = q.leaf N H := by
  rw [Point.leaf, Point.leaf, Point.identity, Point.identity, h.id, (message_eq_iff N).mpr h]

/-- Parts of a certificate are equal where the points are the same. -/
theorem part_eq_iff (binding : List Text) (role : Text) {ps qs : List (Point F)}
    (hinj : Set.InjOn H.digest (hashed N H binding role ps ∪ hashed N H binding role qs))
    (hp : (ps.map Point.id).Nodup) (hq : (qs.map Point.id).Nodup) :
    partOf N H binding role ps = partOf N H binding role qs ↔ SameContent ps qs := by
  have hleaf : ∀ p ∈ ps, ∀ q ∈ qs, H.digest (q.message N) = H.digest (p.message N) →
      q.message N = p.message N := fun p hp q hq =>
    hinj (.inr (.inr ⟨q, hq, rfl⟩)) (.inl (.inr ⟨p, hp, rfl⟩))
  constructor
  · intro h
    obtain ⟨hlen, hsha⟩ := Part.mk.inj h
    have hroot := hinj (.inl (.inl rfl)) (.inr (.inl rfl)) (encode_injective hsha)
    rw [rootMessage, rootMessage, hlen] at hroot
    have hd := List.append_cancel_left hroot
    refine ⟨covered_of_digests N H hleaf hlen hd, fun q hq => ?_⟩
    obtain ⟨p, hp, hqp⟩ := covered_of_digests N H (fun q hq p hp h => (hleaf p hp q hq h.symm).symm)
      hlen.symm hd.symm q hq
    exact ⟨p, hp, hqp.symm⟩
  · rintro ⟨hpq, hqp⟩
    have hperm : (ps.map (Point.leaf N H)).Perm (qs.map (Point.leaf N H)) := by
      rw [List.perm_ext_iff_of_nodup (List.Nodup.of_map _ (leaves_nodup N H hp))
        (List.Nodup.of_map _ (leaves_nodup N H hq))]
      intro x
      constructor
      · intro hx
        obtain ⟨p, hp, rfl⟩ := List.mem_map.mp hx
        obtain ⟨q, hq, hsame⟩ := hpq p hp
        exact hsame.leaf_eq N H ▸ List.mem_map_of_mem hq
      · intro hx
        obtain ⟨q, hq, rfl⟩ := List.mem_map.mp hx
        obtain ⟨p, hp, hsame⟩ := hqp q hq
        exact hsame.leaf_eq N H ▸ List.mem_map_of_mem hp
    have hlen : ps.length = qs.length := by simpa using hperm.length_eq
    rw [partOf, partOf, rootMessage, rootMessage, hlen, digests_perm hperm (leaves_nodup N H hp)]

/-! ## Enough calls -/

/-- A scan that ended or raised stays so with more calls. -/
theorem scan_mono {c : Reader F} {excluded : Option Text} {r : Except SealError (Option Leaves)}
    (hr : r ≠ .ok none) : ∀ {fuel more call : Nat} {offset : Option PointId} {offsets : List Text}
    {leaves : Leaves}, fuel ≤ more → scan N finite H c excluded fuel call offset offsets leaves = r →
      scan N finite H c excluded more call offset offsets leaves = r := by
  intro fuel
  induction fuel with
  | zero =>
    intro more call offset offsets leaves _ h
    exact absurd h.symm hr
  | succ fuel ih =>
    intro more call offset offsets leaves hle h
    obtain ⟨more, rfl⟩ := Nat.exists_eq_add_of_le' (Nat.le_trans (Nat.le_add_left 1 fuel) hle)
    rw [scan] at h ⊢
    cases hpage : readPage N finite H c excluded call (c.scroll call offset).1 leaves with
    | error e => rwa [hpage] at h
    | ok leaves' =>
      rw [hpage, ok_bind] at h
      rw [ok_bind]
      cases hnext : (c.scroll call offset).2 with
      | none => rwa [hnext] at h
      | some next =>
        rw [hnext] at h
        simp only at h ⊢
        cases htok : next.token N finite with
        | error e => rwa [htok] at h
        | ok t =>
          rw [htok, ok_bind] at h
          rw [ok_bind]
          by_cases hs : (c.scroll call offset).1 ≠ [] ∧ t ∉ offsets
          · rw [ensure_true _ hs, ok_bind] at h ⊢
            exact ih (Nat.le_of_succ_le_succ hle) h
          · rw [ensure, if_neg hs] at h ⊢
            exact h

theorem digest_mono {c : Reader F} {binding : List Text} {role : Text} {excluded : Option Text}
    {r : Except SealError (Option Part)} (hr : r ≠ .ok none) {fuel more : Nat} (hle : fuel ≤ more)
    (h : collectionDigest N finite H c binding role excluded fuel = r) :
    collectionDigest N finite H c binding role excluded more = r := by
  have hscan : scan N finite H c excluded fuel 0 none [] [] ≠ .ok none := by
    intro hnone
    rw [collectionDigest, hnone] at h
    exact hr h.symm
  rw [collectionDigest, scan_mono N finite H hscan hle rfl]
  exact h

/-- A seal is returned where both collections have their part. -/
theorem capture_ok {store : Text → Reader F} {b : BuildName} {s : ContentSeal} {fuel : Nat} :
    captureContentSeal N finite H store b fuel = .ok (some s) ↔ ∃ data control,
      collectionDigest N finite H (store b.physical) b.binding "data".toList none fuel =
        .ok (some data) ∧
      collectionDigest N finite H (store (b.physical ++ "__completions".toList)) b.binding
        "control".toList (some b.receiptId) fuel = .ok (some control) ∧ s = ⟨1, data, control⟩ := by
  rw [captureContentSeal, bind_ok]
  constructor
  · rintro ⟨data, hdata, h⟩
    cases data with
    | none => cases h
    | some data =>
      obtain ⟨control, hcontrol, h⟩ := bind_ok.mp h
      cases control with
      | none => cases h
      | some control =>
        refine ⟨data, control, hdata, hcontrol, ?_⟩
        exact (Option.some.inj (Except.ok.inj h)).symm
  · rintro ⟨data, control, hdata, hcontrol, rfl⟩
    exact ⟨some data, hdata, bind_ok.mpr ⟨some control, hcontrol, rfl⟩⟩

theorem capture_mono {store : Text → Reader F} {b : BuildName} {s : ContentSeal} {fuel more : Nat}
    (hle : fuel ≤ more) (h : captureContentSeal N finite H store b fuel = .ok (some s)) :
    captureContentSeal N finite H store b more = .ok (some s) := by
  obtain ⟨data, control, hdata, hcontrol, rfl⟩ := (capture_ok N finite H).mp h
  refine (capture_ok N finite H).mpr ⟨data, control, ?_, ?_, rfl⟩
  · exact digest_mono N finite H (by simp) hle hdata
  · exact digest_mono N finite H (by simp) hle hcontrol

/-! ## The seal of what is stored -/

/-- The certificate of one collection's points. -/
def certificate (binding : List Text) (role : Text) (ps : List (Point F)) :
    Except SealError (Option Part) :=
  if ∀ p ∈ ps, p.Finite finite then .ok (some (partOf N H binding role ps))
  else .error .outOfRange

/-- The store answers with the points of the collection. -/
def ServesAll (c : Reader F) (points : Collection F) : Prop :=
  ∃ ps, ps.Perm points.items ∧ Serves c 0 none [] ps

/-- However a collection is served, its digest is the certificate of its points. -/
theorem digest_serves {c : Reader F} {points : Collection F} (h : ServesAll c points)
    (binding : List Text) (role : Text) (excluded : Option Text) :
    ∃ n, ∀ fuel, n ≤ fuel → collectionDigest N finite H c binding role excluded fuel =
      certificate N finite H binding role (certified excluded points.items) := by
  obtain ⟨ps, hps, hserves⟩ := h
  have hids : (ps.map Point.id).Nodup := (hps.map _).nodup_iff.mpr points.distinct
  have hperm := certified_perm excluded hps
  have hcert : ((certified excluded ps).map Point.id).Nodup :=
    hids.sublist (List.filter_sublist.map _)
  have hidentities : (([] : Leaves).map Prod.fst ++
      (certified excluded ps).map (Point.identity N)).Nodup := by
    have := leaves_nodup N H hcert
    rwa [List.map_map] at this
  have htokens : Tokens N finite [] [] := nofun
  obtain ⟨n, hn⟩ := scan_serves N finite H hserves htokens hids hidentities
  have hall : (∀ p ∈ certified excluded points.items, p.Finite finite) ↔
      ∀ p ∈ certified excluded ps, p.Finite finite :=
    forall_congr' fun p => by rw [hperm.mem_iff]
  refine ⟨n, fun fuel hfuel => ?_⟩
  by_cases hfin : ∀ p ∈ certified excluded ps, p.Finite finite
  · rw [if_pos hfin] at hn
    obtain ⟨more, hmore, hscan⟩ := hn
    have hlen : more.length = (certified excluded ps).length := by
      simpa using hmore.length_eq
    have hdigests := digests_perm hmore
      ((hmore.map Prod.fst).nodup_iff.mpr (leaves_nodup N H hcert))
    rw [certificate, if_pos (hall.mpr hfin), ← partOf_perm N H binding role hperm hcert,
      collectionDigest, hscan fuel hfuel, List.nil_append, ok_bind]
    simp only [root_ok, ok_bind, hlen, hdigests]
    rfl
  · rw [if_neg hfin] at hn
    rw [certificate, if_neg (mt hall.mp hfin), collectionDigest, hn fuel hfuel, error_bind]

/-- The control points the seal covers. -/
def controls (b : BuildName) (control : Collection F) : List (Point F) :=
  certified (some b.receiptId) control.items

theorem certified_none (ps : List (Point F)) : certified none ps = ps :=
  List.filter_eq_self.mpr fun p _ => by simp

/-- The seal of the two collections. -/
def sealOf (b : BuildName) (data control : Collection F) : ContentSeal where
  schema := 1
  data := partOf N H b.binding "data".toList data.items
  control := partOf N H b.binding "control".toList (controls b control)

/-- The store answers with these two collections. -/
def StoreServes (store : Text → Reader F) (b : BuildName) (data control : Collection F) : Prop :=
  ServesAll (store b.physical) data ∧
    ServesAll (store (b.physical ++ "__completions".toList)) control

/-- Every store that serves the two collections comes to the same outcome. -/
theorem capture_serves {store : Text → Reader F} {b : BuildName} {data control : Collection F}
    (h : StoreServes store b data control) : ∃ n, ∀ fuel, n ≤ fuel →
      captureContentSeal N finite H store b fuel =
        if ∀ p ∈ data.items ++ controls b control, p.Finite finite then
          .ok (some (sealOf N H b data control))
        else .error .outOfRange := by
  obtain ⟨n, hdata⟩ := digest_serves N finite H h.1 b.binding "data".toList none
  obtain ⟨m, hcontrol⟩ := digest_serves N finite H h.2 b.binding "control".toList (some b.receiptId)
  rw [← controls] at hcontrol
  refine ⟨max n m, fun fuel hfuel => ?_⟩
  rw [captureContentSeal, hdata fuel (le_trans (le_max_left n m) hfuel), certified_none, certificate]
  by_cases hd : ∀ p ∈ data.items, p.Finite finite
  · rw [if_pos hd, ok_bind]
    simp only [hcontrol fuel (le_trans (le_max_right n m) hfuel), certificate]
    by_cases hc : ∀ p ∈ controls b control, p.Finite finite
    · rw [if_pos hc, if_pos (List.forall_mem_append.mpr ⟨hd, hc⟩)]
      rfl
    · rw [if_neg hc, if_neg fun hall => hc (List.forall_mem_append.mp hall).2]
      rfl
  · rw [if_neg hd, if_neg fun hall => hd (List.forall_mem_append.mp hall).1]
    rfl

/-! ## Answers that contradict themselves -/

/-- The offset of call `n`. -/
def offsetAt (c : Reader F) : Nat → Option PointId
  | 0 => none
  | n + 1 => (c.scroll n (offsetAt c n)).2

def pageAt (c : Reader F) (n : Nat) : List PointId := (c.scroll n (offsetAt c n)).1

def announcedAt (c : Reader F) (n : Nat) : List Text := (pageAt c n).map PointId.str

def fetchedAt (c : Reader F) (n : Nat) : List Text :=
  (c.retrieve n (announcedAt c n)).map fun p => p.id.str

/-- The pages before `m` all name a further one. -/
def Asked (c : Reader F) (m : Nat) : Prop := ∀ k, 0 < k → k ≤ m → offsetAt c k ≠ none

/-- The answers on page `m` contradict themselves or the ones before. -/
inductive Fault (c : Reader F) (excluded : Option Text) (m : Nat) : Prop
  | offsetTwice {i o} (hi : i ≤ m) (hfirst : offsetAt c i = some o)
      (hagain : offsetAt c (m + 1) = some o)
  | emptyPage (hempty : pageAt c m = []) (hnext : offsetAt c (m + 1) ≠ none)
  | announcedTwice (htwice : ¬ (announcedAt c m).Nodup)
  | notFetched (hne : pageAt c m ≠ []) (hdiff : ¬ (fetchedAt c m).Perm (announcedAt c m))
  | pointTwice {i t} (hi : i < m) (hfirst : .text t ∈ pageAt c i) (hagain : .text t ∈ pageAt c m)
      (hcovered : some t ≠ excluded)

theorem applicationIds_ok {page : List PointId} : ∀ {ids : List Text},
    applicationIds page = .ok ids → page = ids.map .text := by
  induction page with
  | nil =>
    intro ids h
    obtain rfl : [] = ids := by simpa [applicationIds] using h
    rfl
  | cons id page ih =>
    intro ids h
    simp only [applicationIds, bind_ok, orRaise_ok, pure_ok] at h
    obtain ⟨t, ht, ts, hts, rfl⟩ := h
    cases id with
    | text u =>
      obtain rfl : u = t := by simpa [PointId.asText] using ht
      rw [ih hts, List.map_cons]
    | int n => cases ht
    | uuid u => cases ht

/-- The identities kept: those before, and those of the points, which are new. -/
theorem addLeaves_ok {excluded : Option Text} {ps : List (Record F)} : ∀ {leaves more : Leaves},
    addLeaves N finite H excluded ps leaves = .ok more →
      (∀ t, t ∈ leaves.map Prod.fst → t ∈ more.map Prod.fst) ∧
      ∀ p ∈ ps, ∃ t, p.id = .text t ∧ (some t ≠ excluded →
        dumps N sealStyle (.str t) ∉ leaves.map Prod.fst ∧
        dumps N sealStyle (.str t) ∈ more.map Prod.fst) := by
  induction ps with
  | nil =>
    intro leaves more h
    obtain rfl : leaves = more := by simpa [addLeaves] using h
    exact ⟨fun _ ht => ht, nofun⟩
  | cons p ps ih =>
    intro leaves more h
    simp only [addLeaves, bind_ok, orRaise_ok] at h
    obtain ⟨t, ht, identity, hidentity, h⟩ := h
    have hid : p.id = .text t := by
      cases hp : p.id with
      | text u => simpa [hp, PointId.asText] using ht
      | int n => simp [hp, PointId.asText] at ht
      | uuid u => simp [hp, PointId.asText] at ht
    rw [json_str] at hidentity
    obtain rfl := Except.ok.inj hidentity
    by_cases hex : some t = excluded
    · rw [if_pos hex] at h
      obtain ⟨hkept, hall⟩ := ih h
      exact ⟨hkept, List.forall_mem_cons.mpr ⟨⟨t, hid, fun hne => absurd hex hne⟩, hall⟩⟩
    · rw [if_neg hex] at h
      simp only [bind_ok, ensure_ok] at h
      obtain ⟨_, hfresh, digest, -, h⟩ := h
      obtain ⟨hkept, hall⟩ := ih h
      have hgrow : ∀ u, u ∈ leaves.map Prod.fst → u ∈ (leaves ++
          [(dumps N sealStyle (.str t), digest)]).map Prod.fst := by
        intro u hu
        rw [List.map_append]
        exact List.mem_append_left _ hu
      refine ⟨fun u hu => hkept u (hgrow u hu), List.forall_mem_cons.mpr ⟨?_, ?_⟩⟩
      · exact ⟨t, hid, fun _ => ⟨hfresh, hkept _ (by simp)⟩⟩
      · intro q hq
        obtain ⟨u, hu, hnew⟩ := hall q hq
        exact ⟨u, hu, fun hne => ⟨fun hm => (hnew hne).1 (hgrow _ hm), (hnew hne).2⟩⟩

/-- What a page that was read satisfies. -/
theorem readPage_ok {c : Reader F} {excluded : Option Text} {call : Nat} {page : List PointId}
    {leaves more : Leaves} (h : readPage N finite H c excluded call page leaves = .ok more) :
    (page.map PointId.str).Nodup ∧
      (page ≠ [] → ((c.retrieve call (page.map PointId.str)).map fun p => p.id.str).Perm
        (page.map PointId.str)) ∧
      (∀ t, t ∈ leaves.map Prod.fst → t ∈ more.map Prod.fst) ∧
      ∀ t, .text t ∈ page → some t ≠ excluded →
        dumps N sealStyle (.str t) ∉ leaves.map Prod.fst ∧
        dumps N sealStyle (.str t) ∈ more.map Prod.fst := by
  simp only [readPage, bind_ok, ensure_ok] at h
  obtain ⟨ids, hids, _, ⟨hnd, hsort⟩, hadd⟩ := h
  obtain rfl := applicationIds_ok hids
  have hstr : (ids.map PointId.text).map PointId.str = ids := by
    rw [List.map_map]
    exact List.map_id ids
  have hperm := sorted_eq_iff.mp hsort
  obtain ⟨hkept, hall⟩ := addLeaves_ok N finite H hadd
  rw [hstr]
  refine ⟨hnd, fun hne => ?_, hkept, fun t ht hne => ?_⟩
  · have hids : ids ≠ [] := fun h => hne (by rw [h, List.map_nil])
    rwa [if_neg hids] at hperm
  · obtain ⟨u, hu, hut⟩ := List.mem_map.mp ht
    obtain rfl := PointId.text.inj hut
    obtain ⟨p, hp, hpu⟩ := List.mem_map.mp (hperm.mem_iff.mpr hu)
    obtain ⟨w, hw, hnew⟩ := hall p hp
    rw [hw] at hpu
    obtain rfl : w = u := hpu
    exact hnew hne

/-- What the scan keeps of the calls before `n`. -/
structure Past (c : Reader F) (excluded : Option Text) (n : Nat) (offsets : List Text)
    (leaves : Leaves) : Prop where
  offsets : ∀ i ≤ n, ∀ o, offsetAt c i = some o → ∃ t ∈ offsets, o.token N finite = .ok t
  points : ∀ i < n, ∀ t, .text t ∈ pageAt c i → some t ≠ excluded →
    dumps N sealStyle (.str t) ∈ leaves.map Prod.fst

/-- A scan that does not raise finds no fault on the pages it reads. -/
theorem scan_no_fault {c : Reader F} {excluded : Option Text} {m : Nat} (hasked : Asked c m) :
    ∀ {fuel n : Nat} {offsets : List Text} {leaves : Leaves} {r : Option Leaves},
      Past N finite c excluded n offsets leaves → n ≤ m → m < n + fuel →
      scan N finite H c excluded fuel n (offsetAt c n) offsets leaves = .ok r →
      ¬ Fault c excluded m := by
  intro fuel
  induction fuel with
  | zero =>
    intro n offsets leaves r _ hle hlt
    omega
  | succ fuel ih =>
    intro n offsets leaves r hpast hle hlt h
    rw [scan, bind_ok] at h
    obtain ⟨more, hpage, h⟩ := h
    obtain ⟨hnd, hfetch, hkept, hnew⟩ := readPage_ok N finite H hpage
    have hnext : offsetAt c (n + 1) = (c.scroll n (offsetAt c n)).2 := rfl
    rw [← hnext] at h
    rcases Nat.eq_or_lt_of_le hle with rfl | hlt'
    · -- the page itself
      rintro (⟨hi, hfirst, hagain⟩ | ⟨hempty, hmore⟩ | htwice | ⟨hne, hdiff⟩ |
        ⟨hi, hfirst, hagain, hcov⟩)
      · rw [hagain] at h
        simp only [bind_ok, ensure_ok] at h
        obtain ⟨t, ht, _, ⟨-, hfresh⟩, -⟩ := h
        obtain ⟨u, hu, htu⟩ := hpast.offsets _ hi _ hfirst
        obtain rfl := Except.ok.inj (ht.symm.trans htu)
        exact hfresh hu
      · obtain ⟨o, ho⟩ := Option.ne_none_iff_exists'.mp hmore
        rw [ho] at h
        simp only [bind_ok, ensure_ok] at h
        obtain ⟨t, -, _, ⟨hne, -⟩, -⟩ := h
        exact hne hempty
      · exact htwice hnd
      · exact hdiff (hfetch hne)
      · exact (hnew _ hagain hcov).1 (hpast.points _ hi _ hfirst hcov)
    · -- a later page
      obtain ⟨o, ho⟩ := Option.ne_none_iff_exists'.mp (hasked (n + 1) (Nat.succ_pos n) hlt')
      rw [ho] at h
      simp only [bind_ok, ensure_ok] at h
      obtain ⟨t, ht, _, -, h⟩ := h
      rw [← ho] at h
      refine ih ⟨fun i hi o' ho' => ?_, fun i hi u hu hcov => ?_⟩ hlt' (by omega) h
      · rcases Nat.eq_or_lt_of_le hi with rfl | hi
        · obtain rfl := Option.some.inj (ho.symm.trans ho')
          exact ⟨t, List.mem_cons_self, ht⟩
        · obtain ⟨u, hu, hou⟩ := hpast.offsets i (Nat.le_of_lt_succ hi) o' ho'
          exact ⟨u, List.mem_cons_of_mem _ hu, hou⟩
      · rcases Nat.eq_or_lt_of_le (Nat.le_of_lt_succ hi) with rfl | hi
        · exact (hnew u hu hcov).2
        · exact hkept _ (hpast.points i hi u hu hcov)

/-- A scan takes no offset twice: with finitely many of them it ends. -/
theorem scan_ends {c : Reader F} {excluded : Option Text} {S : Finset PointId}
    (hS : ∀ n o next, (c.scroll n o).2 = some next → next ∈ S) :
    ∀ {fuel n : Nat} {offset : Option PointId} {offsets : List Text} {leaves : Leaves}
      {seen : List PointId}, seen.Nodup → (∀ o ∈ seen, o ∈ S) →
      (∀ o ∈ seen, ∃ t ∈ offsets, o.token N finite = .ok t) → S.card < seen.length + fuel →
      scan N finite H c excluded fuel n offset offsets leaves ≠ .ok none := by
  intro fuel
  induction fuel with
  | zero =>
    intro n offset offsets leaves seen hnd hsub _ hlt
    have hcard := Finset.card_le_card (fun o ho => hsub o (List.mem_toFinset.mp ho) :
      seen.toFinset ⊆ S)
    rw [List.toFinset_card_of_nodup hnd] at hcard
    omega
  | succ fuel ih =>
    intro n offset offsets leaves seen hnd hsub htok hlt h
    rw [scan, bind_ok] at h
    obtain ⟨more, -, h⟩ := h
    split at h
    · cases h
    · rename_i next hnext
      simp only [bind_ok, ensure_ok] at h
      obtain ⟨t, ht, _, ⟨-, hfresh⟩, h⟩ := h
      have hnew : next ∉ seen := by
        intro hm
        obtain ⟨u, hu, hou⟩ := htok next hm
        exact hfresh (Except.ok.inj (ht.symm.trans hou) ▸ hu)
      refine ih (List.nodup_cons.mpr ⟨hnew, hnd⟩)
        (List.forall_mem_cons.mpr ⟨hS _ _ _ hnext, hsub⟩) ?_ (by simp only [List.length_cons]; omega) h
      refine List.forall_mem_cons.mpr ⟨⟨t, List.mem_cons_self, ht⟩, fun o ho => ?_⟩
      obtain ⟨u, hu, hou⟩ := htok o ho
      exact ⟨u, List.mem_cons_of_mem _ hu, hou⟩

/-- A fault on a page that is asked for raises. -/
theorem digest_fault {c : Reader F} (binding : List Text) (role : Text) {excluded : Option Text}
    {m fuel : Nat} (hasked : Asked c m) (hfault : Fault c excluded m) (hfuel : m < fuel) :
    ∃ e, collectionDigest N finite H c binding role excluded fuel = .error e := by
  have hpast : Past N finite c excluded 0 [] [] := by
    refine ⟨fun i hi o ho => ?_, nofun⟩
    obtain rfl := Nat.le_zero.mp hi
    cases ho
  cases hscan : scan N finite H c excluded fuel 0 none [] [] with
  | error e => exact ⟨e, by rw [collectionDigest, hscan, error_bind]⟩
  | ok r =>
    exact absurd hfault
      (scan_no_fault N finite H hasked hpast (Nat.zero_le m) (by omega) hscan)

/-! ## What a seal certifies -/

/-- Everything that is hashed for the seal of the two collections. -/
def messages (b : BuildName) (data control : Collection F) : Set Bytes :=
  hashed N H b.binding "data".toList data.items ∪
    hashed N H b.binding "control".toList (controls b control)

theorem controls_nodup (b : BuildName) (control : Collection F) :
    ((controls b control).map Point.id).Nodup :=
  control.distinct.sublist (List.filter_sublist.map _)

/-- Seals of one build are equal where the two collections hold the same points. -/
theorem sealOf_eq_iff {b : BuildName} {data control data' control' : Collection F}
    (hinj : Set.InjOn H.digest (messages N H b data control ∪ messages N H b data' control')) :
    sealOf N H b data control = sealOf N H b data' control' ↔
      SameContent data.items data'.items ∧ SameContent (controls b control) (controls b control') := by
  rw [sealOf, sealOf, ContentSeal.mk.injEq]
  have hdata := part_eq_iff N H b.binding "data".toList
    (hinj.mono (Set.union_subset_union Set.subset_union_left Set.subset_union_left))
    data.distinct data'.distinct
  have hcontrol := part_eq_iff N H b.binding "control".toList
    (hinj.mono (Set.union_subset_union Set.subset_union_right Set.subset_union_right))
    (controls_nodup b control) (controls_nodup b control')
  rw [hdata, hcontrol]
  exact and_iff_right rfl

/-- A capture that returned has the seal of what the store served. -/
theorem capture_unique {store : Text → Reader F} {b : BuildName} {data control : Collection F}
    (h : StoreServes store b data control) {fuel : Nat} {s : ContentSeal}
    (hs : captureContentSeal N finite H store b fuel = .ok (some s)) :
    s = sealOf N H b data control := by
  obtain ⟨n, hn⟩ := capture_serves N finite H h
  have hboth := capture_mono N finite H (le_max_left fuel n) hs
  rw [hn _ (le_max_right fuel n)] at hboth
  split at hboth
  · exact (Option.some.inj (Except.ok.inj hboth)).symm
  · cases hboth

theorem capture_data_fault {store : Text → Reader F} {b : BuildName} {m fuel : Nat}
    (hasked : Asked (store b.physical) m) (hfault : Fault (store b.physical) none m)
    (hfuel : m < fuel) : ∃ e, captureContentSeal N finite H store b fuel = .error e := by
  obtain ⟨e, he⟩ := digest_fault N finite H b.binding "data".toList
    hasked hfault hfuel
  exact ⟨e, by rw [captureContentSeal, he, error_bind]⟩

theorem capture_control_fault {store : Text → Reader F} {b : BuildName} {m fuel : Nat}
    (hasked : Asked (store (b.physical ++ "__completions".toList)) m)
    (hfault : Fault (store (b.physical ++ "__completions".toList)) (some b.receiptId) m)
    (hfuel : m < fuel)
    (hdata : collectionDigest N finite H (store b.physical) b.binding "data".toList none fuel ≠
      .ok none) : ∃ e, captureContentSeal N finite H store b fuel = .error e := by
  obtain ⟨e, he⟩ := digest_fault N finite H b.binding "control".toList
    hasked hfault hfuel
  rw [captureContentSeal]
  cases hd : collectionDigest N finite H (store b.physical) b.binding "data".toList none fuel with
  | error e => exact ⟨e, rfl⟩
  | ok r =>
    cases r with
    | none => exact absurd hd hdata
    | some data => exact ⟨e, by rw [ok_bind]; simp only [he, error_bind]⟩

/-- A collection that is served comes to one outcome whatever the pages, seals of one build are equal
exactly for the same points, and an answer that contradicts itself never ends in a seal: the capture
raises at that page, unless the pages of the data collection before it never end. -/
theorem seal_certifies (b : BuildName) :
    (∀ (data control : Collection F) (store : Text → Reader F), StoreServes store b data control →
      ∃ n, ∀ fuel, n ≤ fuel → captureContentSeal N finite H store b fuel =
        if ∀ p ∈ data.items ++ controls b control, p.Finite finite then
          .ok (some (sealOf N H b data control))
        else .error .outOfRange) ∧
    (∀ (data control data' control' : Collection F) (store store' : Text → Reader F) (fuel fuel' : Nat)
      (s s' : ContentSeal), StoreServes store b data control → StoreServes store' b data' control' →
      captureContentSeal N finite H store b fuel = .ok (some s) →
      captureContentSeal N finite H store' b fuel' = .ok (some s') →
      Set.InjOn H.digest (messages N H b data control ∪ messages N H b data' control') →
      (s = s' ↔ SameContent data.items data'.items ∧
        SameContent (controls b control) (controls b control'))) ∧
    (∀ (store : Text → Reader F) (m : Nat), Asked (store b.physical) m →
      Fault (store b.physical) none m → ∀ fuel,
        (∀ s, captureContentSeal N finite H store b fuel ≠ .ok (some s)) ∧
        (m < fuel → ∃ e, captureContentSeal N finite H store b fuel = .error e)) ∧
    ∀ (store : Text → Reader F) (m : Nat), Asked (store (b.physical ++ "__completions".toList)) m →
      Fault (store (b.physical ++ "__completions".toList)) (some b.receiptId) m → ∀ fuel,
        (∀ s, captureContentSeal N finite H store b fuel ≠ .ok (some s)) ∧
        (m < fuel →
          collectionDigest N finite H (store b.physical) b.binding "data".toList none fuel ≠ .ok none →
          ∃ e, captureContentSeal N finite H store b fuel = .error e) := by
  refine ⟨fun data control store h => capture_serves N finite H h, ?_, ?_, ?_⟩
  · intro data control data' control' store store' fuel fuel' s s' h h' hs hs' hinj
    rw [capture_unique N finite H h hs, capture_unique N finite H h' hs']
    exact sealOf_eq_iff N H hinj
  · intro store m hasked hfault fuel
    refine ⟨fun s hs => ?_, capture_data_fault N finite H hasked hfault⟩
    obtain ⟨e, he⟩ := capture_data_fault N finite H hasked hfault
      (Nat.lt_of_lt_of_le (Nat.lt_succ_self m) (le_max_right fuel (m + 1)))
    rw [capture_mono N finite H (le_max_left fuel (m + 1)) hs] at he
    cases he
  · intro store m hasked hfault fuel
    refine ⟨fun s hs => ?_, capture_control_fault N finite H hasked hfault⟩
    have hmore := capture_mono N finite H (le_max_left fuel (m + 1)) hs
    obtain ⟨data, -, hdata, -⟩ := (capture_ok N finite H).mp hmore
    obtain ⟨e, he⟩ := capture_control_fault N finite H hasked hfault
      (Nat.lt_of_lt_of_le (Nat.lt_succ_self m) (le_max_right fuel (m + 1))) (by rw [hdata]; simp)
    rw [hmore] at he
    cases he

/-! ## Two captures of one build -/

/-- A store that answers with one page. -/
def onePage (points : Collection F) : Reader F where
  scroll _ _ := (points.items.map Point.textId, none)
  retrieve _ _ := points.items.map Point.record

theorem onePage_serves (points : Collection F) : ServesAll (onePage points) points :=
  ⟨points.items, .refl _, .last rfl (.inr ⟨points.items, .refl _, rfl⟩)⟩

/-- A digest that depends on every byte. -/
def weighted : Hash where
  digest b := (List.range 32).map fun i =>
    UInt8.ofNat (b.foldl (fun n x => n * 257 + x.toNat) 1 / 256 ^ i)
  size _ := by simp

def someBuild : BuildName where
  buildId := "b".toList
  aliasName := "corpus".toList
  physical := "corpus__gen".toList
  genFp := "g".toList
  corpusFp := "c".toList
  receiptId := "r".toList

def somePoint (text : Text) : Point Unit where
  id := "p".toList
  payload := [("text".toList, .str text)]
  vectors := [("dense".toList, .dense [()])]
  named := List.cons_ne_nil _ _
  names_distinct := List.nodup_singleton _
  keys_distinct := distinctKeys_obj.mpr ⟨List.nodup_singleton _, by simp [distinctKeys_str]⟩

def someData (text : Text) : Collection Unit where
  items := [somePoint text]
  distinct := List.nodup_singleton _

/-- The data under its name, no control points. -/
def someStore (text : Text) (name : Text) : Reader Unit :=
  if name = someBuild.physical then onePage (someData text) else onePage Keyed.empty

theorem someStore_serves (text : Text) :
    StoreServes (someStore text) someBuild (someData text) Keyed.empty := by
  refine ⟨?_, ?_⟩
  · rw [someStore, if_pos rfl]
    exact onePage_serves _
  · rw [someStore, if_neg (by decide +kernel)]
    exact onePage_serves _

def allOnes (_ : Unit) : Bool := true

/-- What is hashed for the two captures. -/
def someMessages : List Bytes :=
  [rootMessage halves weighted someBuild.binding "data".toList (someData ['x']).items,
    rootMessage halves weighted someBuild.binding "data".toList (someData ['y']).items,
    rootMessage halves weighted someBuild.binding "control".toList ([] : List (Point Unit)),
    (somePoint ['x']).message halves, (somePoint ['y']).message halves]

theorem mem_someMessages {t : Text} (ht : t = ['x'] ∨ t = ['y']) {m : Bytes}
    (hm : m ∈ messages halves weighted someBuild (someData t) Keyed.empty) : m ∈ someMessages := by
  rcases hm with (rfl | ⟨p, hp, rfl⟩) | (rfl | ⟨p, hp, rfl⟩)
  · rcases ht with rfl | rfl
    · exact .head _
    · exact .tail _ (.head _)
  · obtain rfl := List.mem_singleton.mp hp
    rcases ht with rfl | rfl
    · exact .tail _ (.tail _ (.tail _ (.head _)))
    · exact .tail _ (.tail _ (.tail _ (.tail _ (.head _))))
  · exact .tail _ (.tail _ (.head _))
  · cases hp

theorem someMessages_injOn : Set.InjOn weighted.digest
    (messages halves weighted someBuild (someData ['x']) Keyed.empty ∪
      messages halves weighted someBuild (someData ['y']) Keyed.empty) := by
  have hnodup : (someMessages.map weighted.digest).Nodup := by decide +kernel
  have hmem : ∀ m, m ∈ messages halves weighted someBuild (someData ['x']) Keyed.empty ∪
      messages halves weighted someBuild (someData ['y']) Keyed.empty → m ∈ someMessages := by
    rintro m (hm | hm)
    · exact mem_someMessages (.inl rfl) hm
    · exact mem_someMessages (.inr rfl) hm
  intro m hm m' hm' h
  exact List.inj_on_of_nodup_map hnodup (hmem m hm) (hmem m' hm') h

/-- An edited payload changes the seal. -/
theorem seal_certifies_edit : ∃ fuel s s',
    captureContentSeal halves allOnes weighted (someStore ['x']) someBuild fuel = .ok (some s) ∧
    captureContentSeal halves allOnes weighted (someStore ['y']) someBuild fuel = .ok (some s') ∧
      s ≠ s' := by
  have hall := seal_certifies halves allOnes weighted someBuild
  have hx := someStore_serves ['x']
  have hy := someStore_serves ['y']
  have hseal : ∀ t, StoreServes (someStore t) someBuild (someData t) Keyed.empty → ∃ n, ∀ fuel,
      n ≤ fuel → captureContentSeal halves allOnes weighted (someStore t) someBuild fuel =
        .ok (some (sealOf halves weighted someBuild (someData t) Keyed.empty)) := by
    intro t ht
    obtain ⟨n, hn⟩ := hall.1 _ _ _ ht
    refine ⟨n, fun fuel hfuel => (hn fuel hfuel).trans (if_pos ?_)⟩
    intro p hp
    obtain rfl := List.mem_singleton.mp hp
    rfl
  obtain ⟨n, hn⟩ := hseal _ hx
  obtain ⟨m, hm⟩ := hseal _ hy
  have hfx := hn _ (le_max_left n m)
  have hfy := hm _ (le_max_right n m)
  refine ⟨max n m, _, _, hfx, hfy, fun heq => ?_⟩
  obtain ⟨⟨hdata, -⟩, -⟩ :=
    (hall.2.1 _ _ _ _ _ _ _ _ _ _ hx hy hfx hfy someMessages_injOn).mp heq
  obtain ⟨q, hq, hsame⟩ := hdata (somePoint ['x']) (.head _)
  obtain rfl := List.mem_singleton.mp hq
  have hmessage := (message_eq_iff halves).mpr hsame
  have hne : (somePoint ['x']).message halves ≠ (somePoint ['y']).message halves := by decide +kernel
  exact hne hmessage

end MainframeRag.Ingest.Seal
