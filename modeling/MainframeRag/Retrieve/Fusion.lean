import MainframeRag.Agent.CopiedCites
import MainframeRag.Lib.Dict
import MainframeRag.Lib.PyJson
import MainframeRag.Lib.Selection
import MainframeRag.Lib.StableSort
import MainframeRag.Retrieve.Hits
import Mathlib

/-!
# Fusion

`rrf_fuse` of `retrieve/query.py` in exact arithmetic: the dense and the sparse leg are fused by rank,
ties are resolved in favour of section chunks, and chunks with an entry heading go first. Every pass
is stable, so one relation says what may stand before what in the result (`Before`, `rrfFuse_spec`).
-/

namespace MainframeRag.Retrieve

open PyText PyJson Regex StableSort Agent
open scoped List

/-! ## Points -/

/-- What is read of a stored payload; an absent key is `null`. -/
structure PointPayload (F : Type) where
  docId : Json F := .null
  title : Json F := .null
  headingPath : Json F := .null
  pageLabel : Json F := .null
  text : Json F := .null
  chunkType : Json F := .null
  pageStart : Json F := .null
  pageEnd : Json F := .null
  units : Json F := .null
  product : Option Text := none
  version : Option Text := none
  messageIds : List Text := []

/-- `ScoredPoint`, with its id as a text. -/
structure ScoredPoint (F : Type) where
  id : Text
  payload : PointPayload F

/-- The tables and conversions the readers of a payload use. -/
structure Readers (F : Type) where
  chars : CharTables
  cites : CiteTables
  numbers : Numbers F
  /-- `str(v)` of a value that is not a text -/
  str : Json F → Text
  /-- a pattern letter matches a letter under `re.IGNORECASE` -/
  sameLetter : Char → Char → Bool

section

variable {F : Type} (R : Readers F)

/-- `str(v or default)` -/
def Readers.textOr (v : Json F) (default : Text) : Text :=
  match v.orElse R.numbers (.str default) with
  | .str t => t
  | w => R.str w

/-- `_payload_page` -/
def payloadPage : Json F → Option Int
  | .int n => if n < 0 then none else some n
  | _ => none

/-- One entry of `_parse_unit_spans`. -/
def parseUnitSpan : Json F → Option (Int × Int × Text)
  | .arr [.int start, .int stop, .str kind] =>
    if (kind = "atomic".toList ∨ kind = "prose".toList) ∧ 0 ≤ start ∧ start ≤ stop then
      some (start, stop, kind)
    else none
  | _ => none

/-- `_parse_unit_spans` -/
def parseUnitSpans : Json F → Option (List (Int × Int × Text))
  | .arr entries => entries.mapM parseUnitSpan
  | _ => none

/-- `page_start` and `page_end` of a hit. -/
def hitPages (p : PointPayload F) : Option Int × Option Int :=
  match payloadPage p.pageStart, payloadPage p.pageEnd with
  | some start, some stop => (some start, if stop < start then some start else some stop)
  | start, _ => (start, start)

/-- `_to_hit` -/
def toHit {K : Type} (point : ScoredPoint F) (score : K) : SearchHit K :=
  let p := point.payload
  let docId := R.textOr p.docId []
  let pages := hitPages p
  { chunkId := point.id
    score := score
    cite := formatCitation R.chars R.cites
      { docId := docId
        title := R.textOr p.title []
        headingPath := R.textOr p.headingPath []
        pageLabel := R.textOr p.pageLabel []
        pageStart := pages.1.map Int.toNat
        pageEnd := pages.2.map Int.toNat }
    heading := cleanCiteField R.cites (R.textOr p.headingPath []) citeHeadingMaxChars
    text := R.textOr p.text []
    docId := docId
    title := cleanCiteField R.cites (R.textOr p.title []) citeTitleMaxChars
    pageLabel := plainPageLabel R.chars R.cites (R.textOr p.pageLabel [])
    chunkType := R.textOr p.chunkType "narrative".toList
    messageIds := p.messageIds
    product := p.product
    version := p.version
    units := parseUnitSpans p.units
    pageStart := pages.1
    pageEnd := pages.2 }

open Regex.Pattern in
/-- `^[^\w\n]*(?:…)(?!\w)`, the longest id first, over lines and without case. -/
def entryRe (ids : List Text) : Pattern Char :=
  let alternatives := ids.mergeSort fun a b => decide (b.length ≤ a.length)
  row [lineStart, star (one fun c => !R.chars.isWord c && c ≠ '\n'),
    alternatives.foldr (fun id p =>
      alt (id.foldr (fun c q => seq (one (R.sameLetter c)) q) empty) p) (one fun _ => false),
    test fun pl => !pl.rest.head?.any R.chars.isWord]

/-- `entry_headed` -/
def entryHeaded (text : Text) (ids : List Text) : Bool :=
  if ids = [] ∨ text = [] then false else search (entryRe R ids) text

/-- `leading_title_section` -/
def leadingTitleSection (p : PointPayload F) : Bool :=
  match p.pageStart with
  | .int n =>
    let title := strip (R.textOr p.title [])
    n = 0 && title ≠ [] && strip (R.textOr p.headingPath []) = title
  | _ => false

end

/-! ## Scores -/

section

variable {F K : Type} [Field K]

/-- `scores[key] += contrib` -/
def addScore (scores : List (Text × K)) (key : Text) (contrib : K) : List (Text × K) :=
  Dict.put scores key ((Dict.get scores key).getD 0 + contrib)

/-- What a point adds to its score. -/
def contrib (weight : K) (k : Nat) (boost : ScoredPoint F → K) (e : ScoredPoint F × Nat) : K :=
  weight / ((k + e.2 + 1 : Nat) : K) * boost e.1

/-- The scores of a leg, on top of what is there. -/
def legScores (weight : K) (k : Nat) (boost : ScoredPoint F → K) (points : List (ScoredPoint F))
    (scores : List (Text × K)) : List (Text × K) :=
  points.zipIdx.foldl (fun s e => addScore s e.1.id (contrib weight k boost e)) scores

/-- `type_boosts.get(ctype, 1.0)` -/
def typeBoost (boosts : List (Text × K)) (point : ScoredPoint F) : K :=
  match point.payload.chunkType with
  | .str t => (Dict.get boosts t).getD 1
  | _ => 1

/-- `scores` behind both legs. -/
def fusedScores (dense sparse : List (ScoredPoint F)) (weights : K × K) (k : Nat)
    (boosts : List (Text × K)) : List (Text × K) :=
  legScores weights.2 k (typeBoost boosts) sparse
    (legScores weights.1 k (fun _ => 1) dense [])

/-- `by_id`: the last point of an id. -/
def pointsById (points : List (ScoredPoint F)) : List (Text × ScoredPoint F) :=
  points.foldl (fun d point => Dict.put d point.id point) []

end

/-! ## Passes -/

section

variable {K : Type} [LinearOrder K]

/-- A leading title section that ties with a section chunk of another document. -/
def demotedIn (leading : Text → Bool) (doc : Text → Text) (group : List (Text × K))
    (kv : Text × K) : Bool :=
  leading kv.1 && group.any fun other => !leading other.1 && doc other.1 ≠ doc kv.1

/-- A tie group with its demoted chunks last. -/
def demote (leading : Text → Bool) (doc : Text → Text) (group : List (Text × K)) : List (Text × K) :=
  passFirst (fun kv => !demotedIn leading doc group kv) group

/-- `_prefer_section_on_ties`, tie group by tie group. -/
def preferSection (leading : Text → Bool) (doc : Text → Text) : List (Text × K) → List (Text × K)
  | [] => []
  | kv :: rest =>
    demote leading doc (kv :: rest.takeWhile fun e => e.2 = kv.2) ++
      preferSection leading doc (rest.dropWhile fun e => e.2 = kv.2)
termination_by ranked => ranked.length
decreasing_by
  rw [List.length_cons]
  exact Nat.lt_succ_of_le (List.length_dropWhile_le _ _)

end

section

variable {F K : Type} (R : Readers F)

def leadingOf (byId : List (Text × ScoredPoint F)) (key : Text) : Bool :=
  (Dict.get byId key).any fun point => leadingTitleSection R point.payload

def docOf (byId : List (Text × ScoredPoint F)) (key : Text) : Text :=
  (Dict.get byId key).elim [] fun point => R.textOr point.payload.docId []

def headedOf (byId : List (Text × ScoredPoint F)) (entryIds : List Text) (key : Text) : Bool :=
  (Dict.get byId key).any fun point => entryHeaded R (R.textOr point.payload.text []) entryIds

variable [Field K] [LinearOrder K]

/-- `ranked`, the whole order. -/
def fusedOrder (dense sparse : List (ScoredPoint F)) (weights : K × K) (k : Nat)
    (boosts : List (Text × K)) (entryIds : List Text) : List (Text × K) :=
  let byId := pointsById (dense ++ sparse)
  let ranked := (fusedScores dense sparse weights k boosts).mergeSort fun a b => decide (b.2 ≤ a.2)
  let ranked := preferSection (leadingOf R byId) (docOf R byId) ranked
  if entryIds = [] then ranked else passFirst (fun kv => headedOf R byId entryIds kv.1) ranked

/-- `rrf_fuse`; every key of `scores` is one of `by_id`. -/
def rrfFuse (dense sparse : List (ScoredPoint F)) (weights : K × K) (k limit : Nat)
    (boosts : List (Text × K)) (entryIds : List Text) : List (SearchHit K) :=
  ((fusedOrder R dense sparse weights k boosts entryIds).take limit).filterMap fun kv =>
    (Dict.get (pointsById (dense ++ sparse)) kv.1).map fun point => toHit R point kv.2

end

/-! ## Candidates -/

section

variable {F K : Type} [Field K]

/-- What the points of a leg with an id add to its score. -/
def legShare (weight : K) (k : Nat) (boost : ScoredPoint F → K) (points : List (ScoredPoint F))
    (key : Text) : K :=
  ((points.zipIdx.filter fun e => e.1.id = key).map (contrib weight k boost)).sum

theorem get_addScore (scores : List (Text × K)) (key other : Text) (c : K) :
    (Dict.get (addScore scores key c) other).getD 0 =
      (Dict.get scores other).getD 0 + if key = other then c else 0 := by
  unfold addScore
  rw [Dict.get_put]
  by_cases h : other = key
  · subst h
    simp
  · simp [h, Ne.symm h]

theorem get_legScores (weight : K) (k : Nat) (boost : ScoredPoint F → K)
    (points : List (ScoredPoint F)) (scores : List (Text × K)) (key : Text) :
    (Dict.get (legScores weight k boost points scores) key).getD 0 =
      (Dict.get scores key).getD 0 + legShare weight k boost points key := by
  unfold legScores legShare
  generalize points.zipIdx = entries
  induction entries generalizing scores with
  | nil => simp
  | cons e entries ih =>
    rw [List.foldl_cons, ih, get_addScore, add_assoc]
    congr 1
    by_cases h : e.1.id = key
    · simp [h]
    · simp [h]

theorem keys_legScores (weight : K) (k : Nat) (boost : ScoredPoint F → K)
    (points : List (ScoredPoint F)) (scores : List (Text × K)) :
    (legScores weight k boost points scores).map Prod.fst = scores.map Prod.fst ++
      (Ranking.firsts ScoredPoint.id (scores.map Prod.fst) points).map ScoredPoint.id := by
  have hfold := Dict.keys_foldl (fun d (e : ScoredPoint F × Nat) =>
    Dict.keys_put d e.1.id ((Dict.get d e.1.id).getD 0 + contrib weight k boost e)) points.zipIdx scores
  refine hfold.trans ?_
  congr 1
  have hfirsts : (Ranking.firsts (fun e : ScoredPoint F × Nat => e.1.id) (scores.map Prod.fst)
      points.zipIdx).map Prod.fst =
        Ranking.firsts ScoredPoint.id (scores.map Prod.fst) (points.zipIdx.map Prod.fst) :=
    Ranking.map_firsts Prod.fst points.zipIdx _
  rw [List.zipIdx_map_fst] at hfirsts
  rw [← hfirsts, List.map_map]
  rfl

/-- The candidates are the points of both legs, each where its id is seen first. -/
theorem keys_fusedScores (dense sparse : List (ScoredPoint F)) (weights : K × K) (k : Nat)
    (boosts : List (Text × K)) : (fusedScores dense sparse weights k boosts).map Prod.fst =
      (Ranking.firsts ScoredPoint.id [] (dense ++ sparse)).map ScoredPoint.id := by
  unfold fusedScores
  rw [keys_legScores, keys_legScores, List.map_nil, List.nil_append, Ranking.firsts_append,
    List.map_append]
  congr 2
  refine Ranking.firsts_congr fun key => ?_
  rw [List.append_nil]
  constructor
  · exact fun h => ((Ranking.firsts_sublist []).map ScoredPoint.id).subset h
  · intro h
    obtain ⟨point, hpoint, rfl⟩ := List.mem_map.mp h
    exact Ranking.mem_firsts_key hpoint List.not_mem_nil

theorem nodup_fusedScores (dense sparse : List (ScoredPoint F)) (weights : K × K) (k : Nat)
    (boosts : List (Text × K)) : ((fusedScores dense sparse weights k boosts).map Prod.fst).Nodup := by
  rw [keys_fusedScores]
  exact Ranking.firsts_nodup []

/-- A candidate's score is what both legs give it. -/
theorem fusedScores_eq {dense sparse : List (ScoredPoint F)} {weights : K × K} {k : Nat}
    {boosts : List (Text × K)} {kv : Text × K} (h : kv ∈ fusedScores dense sparse weights k boosts) :
    kv.2 = legShare weights.1 k (fun _ => 1) dense kv.1 +
      legShare weights.2 k (typeBoost boosts) sparse kv.1 := by
  have hget := Dict.get_of_mem (nodup_fusedScores dense sparse weights k boosts) h
  have hscore : (Dict.get (fusedScores dense sparse weights k boosts) kv.1).getD 0 = kv.2 := by
    rw [hget]
    rfl
  rw [← hscore, fusedScores, get_legScores, get_legScores, Dict.get_nil, Option.getD_none, zero_add]

end

theorem keys_pointsById {F : Type} (points : List (ScoredPoint F)) :
    (pointsById points).map Prod.fst =
      (Ranking.firsts ScoredPoint.id [] points).map ScoredPoint.id :=
  Dict.keys_foldl (fun d (point : ScoredPoint F) => Dict.keys_put d point.id point) points []

theorem pointsById_id {F : Type} {points : List (ScoredPoint F)} {key : Text}
    {point : ScoredPoint F} (h : Dict.get (pointsById points) key = some point) :
    point ∈ points ∧ point.id = key := by
  suffices hall : ∀ (ps : List (ScoredPoint F)) (d : List (Text × ScoredPoint F)),
      (∀ key point, Dict.get d key = some point → point ∈ points ∧ point.id = key) →
      (∀ p ∈ ps, p ∈ points) → ∀ key point,
        Dict.get (ps.foldl (fun d p => Dict.put d p.id p) d) key = some point →
          point ∈ points ∧ point.id = key from
    hall points [] (fun _ _ h => by cases h) (fun _ hp => hp) key point h
  intro ps
  induction ps with
  | nil => exact fun _ hd _ => hd
  | cons p ps ih =>
    intro d hd hps
    obtain ⟨hp, hrest⟩ := List.forall_mem_cons.mp hps
    refine ih _ (fun key point h => ?_) hrest
    rw [Dict.get_put] at h
    split at h
    · next he =>
      obtain rfl := Option.some.inj h
      exact ⟨hp, he.symm⟩
    · exact hd key point h

/-! ## The tie pass -/

section

variable {K : Type} [LinearOrder K] {leading : Text → Bool} {doc : Text → Text}

theorem preferSection_perm (ranked : List (Text × K)) :
    (preferSection leading doc ranked).Perm ranked := by
  fun_induction preferSection leading doc ranked with
  | case1 => exact .refl _
  | case2 kv rest ih =>
    refine ((passFirst_perm _ _).append ih).trans (List.Perm.of_eq ?_)
    rw [List.cons_append, List.takeWhile_append_dropWhile]

/-- Behind the first tie group every score is lower. -/
theorem lt_of_mem_dropWhile {kv : Text × K} {rest : List (Text × K)}
    (h : (kv :: rest).Pairwise fun a b => b.2 ≤ a.2) {x : Text × K}
    (hx : x ∈ rest.dropWhile fun e => e.2 = kv.2) : x.2 < kv.2 := by
  rw [List.pairwise_cons] at h
  cases hdrop : rest.dropWhile fun e => e.2 = kv.2 with
  | nil =>
    rw [hdrop] at hx
    cases hx
  | cons first more =>
    have hsuffix := List.dropWhile_suffix (fun e : Text × K => decide (e.2 = kv.2)) (l := rest)
    rw [hdrop] at hx hsuffix
    have hne := List.head?_dropWhile_not (fun e : Text × K => decide (e.2 = kv.2)) rest
    rw [hdrop] at hne
    have hfirst : first.2 < kv.2 :=
      lt_of_le_of_ne (h.1 first (hsuffix.subset List.mem_cons_self)) (by simpa using hne)
    rcases List.mem_cons.mp hx with rfl | hx
    · exact hfirst
    · exact ((List.pairwise_cons.mp (h.2.sublist hsuffix.sublist)).1 x hx).trans_lt hfirst

/-- The first tie group is everything with the top score. -/
theorem filter_score {kv : Text × K} {rest : List (Text × K)}
    (h : (kv :: rest).Pairwise fun a b => b.2 ≤ a.2) :
    (kv :: rest).filter (fun e => e.2 = kv.2) = kv :: rest.takeWhile fun e => e.2 = kv.2 := by
  have hsplit := List.takeWhile_append_dropWhile (p := fun e : Text × K => decide (e.2 = kv.2))
    (l := rest)
  have htop : ∀ x ∈ rest.takeWhile fun e => e.2 = kv.2, decide (x.2 = kv.2) = true := fun x hx =>
    List.mem_takeWhile_imp (p := fun e : Text × K => decide (e.2 = kv.2)) hx
  have hlow : ∀ x ∈ rest.dropWhile fun e => e.2 = kv.2, ¬ decide (x.2 = kv.2) = true := fun x hx => by
    simpa using (lt_of_mem_dropWhile h hx).ne
  rw [List.filter_cons_of_pos (by simp)]
  conv_lhs => rw [← hsplit]
  rw [List.filter_append, List.filter_eq_self.mpr htop, List.filter_eq_nil_iff.mpr hlow,
    List.append_nil]

theorem filter_lower {kv : Text × K} {rest : List (Text × K)}
    (h : (kv :: rest).Pairwise fun a b => b.2 ≤ a.2) {x : Text × K}
    (hx : x ∈ rest.dropWhile fun e => e.2 = kv.2) :
    (kv :: rest).filter (fun e => e.2 = x.2) =
      (rest.dropWhile fun e => e.2 = kv.2).filter fun e => e.2 = x.2 := by
  have hlt := lt_of_mem_dropWhile h hx
  have hsplit := List.takeWhile_append_dropWhile (p := fun e : Text × K => decide (e.2 = kv.2))
    (l := rest)
  have htop : ∀ y ∈ rest.takeWhile fun e => e.2 = kv.2, ¬ decide (y.2 = x.2) = true := by
    intro y hy
    have hyk : y.2 = kv.2 := by simpa using List.mem_takeWhile_imp hy
    simpa [hyk] using hlt.ne'
  rw [List.filter_cons_of_neg (by simpa using hlt.ne')]
  conv_lhs => rw [← hsplit]
  rw [List.filter_append, List.filter_eq_nil_iff.mpr htop, List.nil_append]

/-- What the tie pass makes of a sorted list: scores fall, the demoted chunks of a tie group come
last, and nothing else moves. -/
theorem preferSection_pairwise {R : Text × K → Text × K → Prop} {demoted : Text × K → Bool}
    (ranked : List (Text × K))
    (h : ranked.Pairwise fun a b => b.2 ≤ a.2 ∧ (a.2 = b.2 → R a b))
    (hdemoted : ∀ x ∈ ranked, demotedIn leading doc (ranked.filter fun e => e.2 = x.2) x = demoted x) :
    (preferSection leading doc ranked).Pairwise fun a b => b.2 ≤ a.2 ∧ (a.2 = b.2 →
      (demoted a = true → demoted b = true) ∧ (demoted a = demoted b → R a b)) := by
  fun_induction preferSection leading doc ranked with
  | case1 => exact .nil
  | case2 kv rest ih =>
    have hsorted : (kv :: rest).Pairwise fun a b => b.2 ≤ a.2 := h.imp fun hab => hab.1
    have hgroup := filter_score hsorted
    have hsub : (kv :: rest.takeWhile fun e => e.2 = kv.2) <+ kv :: rest :=
      (List.takeWhile_sublist _).cons_cons kv
    have hscore : ∀ x ∈ kv :: rest.takeWhile (fun e => e.2 = kv.2), x.2 = kv.2 := by
      intro x hx
      rw [← hgroup] at hx
      simpa using (List.mem_filter.mp hx).2
    rw [List.pairwise_append]
    refine ⟨?_, ?_, ?_⟩
    · have hpass := pairwise_passFirst (p := fun e => !demotedIn leading doc
        (kv :: rest.takeWhile fun e => e.2 = kv.2) e) (h.sublist hsub)
      refine hpass.imp_of_mem fun {a b} ha hb hab => ?_
      have ha' := (passFirst_perm _ _).mem_iff.mp ha
      have hb' := (passFirst_perm _ _).mem_iff.mp hb
      have hread : ∀ x ∈ kv :: rest.takeWhile (fun e => e.2 = kv.2),
          demotedIn leading doc (kv :: rest.takeWhile fun e => e.2 = kv.2) x = demoted x := by
        intro x hx
        rw [← hdemoted x (hsub.subset hx), hscore x hx, hgroup]
      have htie : a.2 = b.2 := (hscore a ha').trans (hscore b hb').symm
      rw [hread a ha', hread b hb'] at hab
      refine ⟨htie.ge, fun _ => ⟨fun hd => ?_, fun hd => (hab.2 (by rw [hd])).2 htie⟩⟩
      by_contra hnd
      have hd' := hab.1 (by simpa using hnd)
      simp [hd] at hd'
    · have hdrop : (rest.dropWhile fun e => e.2 = kv.2) <+ kv :: rest :=
        (List.dropWhile_sublist _).cons kv
      refine ih (h.sublist hdrop) fun x hx => ?_
      rw [← hdemoted x (hdrop.subset hx), filter_lower hsorted hx]
    · intro a ha b hb
      have ha' := (passFirst_perm _ _).mem_iff.mp ha
      have hb' := (preferSection_perm _).mem_iff.mp hb
      have hlt := lt_of_mem_dropWhile hsorted hb'
      rw [hscore a ha']
      exact ⟨hlt.le, fun he => absurd he hlt.ne'⟩

end

/-! ## The fused order -/

section

variable {K : Type}

/-- A leading title section in a tie group with a section chunk of another document. -/
def Demoted (leading : Text → Bool) (doc : Text → Text) (candidates : List (Text × K))
    (x : Text × K) : Prop :=
  leading x.1 = true ∧ ∃ y ∈ candidates, y.2 = x.2 ∧ leading y.1 = false ∧ doc y.1 ≠ doc x.1

/-- What stands before what: entry-headed candidates first, inside both groups the higher score, and
among equal scores the one that came in first, but for demoted ones. -/
structure Before [LE K] (candidates : List (Text × K)) (headed leading : Text → Bool)
    (doc : Text → Text) (a b : Text × K) : Prop where
  group : headed b.1 = true → headed a.1 = true
  score : headed a.1 = headed b.1 → b.2 ≤ a.2
  demoted : headed a.1 = headed b.1 → a.2 = b.2 →
    Demoted leading doc candidates a → Demoted leading doc candidates b
  tie : headed a.1 = headed b.1 → a.2 = b.2 →
    (Demoted leading doc candidates a ↔ Demoted leading doc candidates b) → Ahead candidates a b

variable [LinearOrder K]

theorem demotedIn_iff {leading : Text → Bool} {doc : Text → Text} {candidates : List (Text × K)}
    {x : Text × K} : demotedIn leading doc (candidates.filter fun e => e.2 = x.2) x = true ↔
      Demoted leading doc candidates x := by
  unfold demotedIn Demoted
  rw [Bool.and_eq_true, List.any_eq_true]
  refine and_congr_right fun _ => exists_congr fun y => ?_
  rw [List.mem_filter, decide_eq_true_iff, Bool.and_eq_true, decide_eq_true_iff,
    Bool.not_eq_true', and_assoc]

theorem demotedIn_perm {leading : Text → Bool} {doc : Text → Text} {ranked candidates : List (Text × K)}
    (h : ranked.Perm candidates) (x : Text × K) :
    demotedIn leading doc (ranked.filter fun e => e.2 = x.2) x =
      demotedIn leading doc (candidates.filter fun e => e.2 = x.2) x := by
  rw [Bool.eq_iff_iff, demotedIn_iff, demotedIn_iff]
  unfold Demoted
  simp only [h.mem_iff]

/-- The three passes on candidates none of which is repeated. -/
theorem passes_before {candidates : List (Text × K)} (hnodup : candidates.Nodup)
    (headed leading : Text → Bool) (doc : Text → Text) :
    (passFirst (fun kv => headed kv.1) (preferSection leading doc
        (candidates.mergeSort fun a b => decide (b.2 ≤ a.2)))).Pairwise
      (Before candidates headed leading doc) := by
  have hperm := List.mergeSort_perm candidates fun a b => decide (b.2 ≤ a.2)
  have htrans : ∀ a b c : Text × K, decide (b.2 ≤ a.2) = true → decide (c.2 ≤ b.2) = true →
      decide (c.2 ≤ a.2) = true := by
    intro a b c hab hbc
    rw [decide_eq_true_eq] at hab hbc ⊢
    exact hbc.trans hab
  have htotal : ∀ a b : Text × K, (decide (b.2 ≤ a.2) || decide (a.2 ≤ b.2)) = true := by
    intro a b
    simpa using le_total b.2 a.2
  have hsort : (candidates.mergeSort fun a b => decide (b.2 ≤ a.2)).Pairwise
      fun a b => b.2 ≤ a.2 ∧ (a.2 = b.2 → Ahead candidates a b) := by
    refine (stable_mergeSort hnodup htrans htotal).imp fun {a b} hab => ?_
    simp only [decide_eq_true_eq] at hab
    exact ⟨hab.1, fun he => hab.2 he.le⟩
  have hties := @preferSection_pairwise K _ leading doc (Ahead candidates)
    (fun x => demotedIn leading doc (candidates.filter fun e => e.2 = x.2) x) _ hsort
    (fun x _ => demotedIn_perm hperm x)
  refine (pairwise_passFirst hties).imp fun {a b} hab => ?_
  refine ⟨hab.1, fun hg => (hab.2 hg).1, fun hg he hd => ?_, fun hg he hd => ?_⟩
  · exact demotedIn_iff.mp (((hab.2 hg).2 he).1 (demotedIn_iff.mpr hd))
  · refine ((hab.2 hg).2 he).2 ?_
    rw [Bool.eq_iff_iff, demotedIn_iff, demotedIn_iff]
    exact hd

end

section

variable {F K : Type} (R : Readers F)

theorem headedOf_nil (byId : List (Text × ScoredPoint F)) (key : Text) :
    headedOf R byId [] key = false := by
  unfold headedOf
  cases Dict.get byId key with
  | none => rfl
  | some point => rw [Option.any_some, entryHeaded, if_pos (.inl rfl)]

/-- Without entry ids nothing is headed, and the last pass moves nothing. -/
theorem passFirst_nil (byId : List (Text × ScoredPoint F)) (ranked : List (Text × K)) :
    passFirst (fun kv => headedOf R byId [] kv.1) ranked = ranked := by
  unfold passFirst
  simp [headedOf_nil]

variable [Field K] [LinearOrder K]

theorem fusedOrder_eq (dense sparse : List (ScoredPoint F)) (weights : K × K) (k : Nat)
    (boosts : List (Text × K)) (entryIds : List Text) :
    fusedOrder R dense sparse weights k boosts entryIds =
      passFirst (fun kv => headedOf R (pointsById (dense ++ sparse)) entryIds kv.1)
        (preferSection (leadingOf R (pointsById (dense ++ sparse)))
          (docOf R (pointsById (dense ++ sparse)))
          ((fusedScores dense sparse weights k boosts).mergeSort fun a b => decide (b.2 ≤ a.2))) := by
  unfold fusedOrder
  dsimp only
  split
  · next h => rw [h, passFirst_nil]
  · rfl

theorem fusedOrder_perm (dense sparse : List (ScoredPoint F)) (weights : K × K) (k : Nat)
    (boosts : List (Text × K)) (entryIds : List Text) :
    (fusedOrder R dense sparse weights k boosts entryIds).Perm
      (fusedScores dense sparse weights k boosts) := by
  rw [fusedOrder_eq]
  exact ((passFirst_perm _ _).trans (preferSection_perm _)).trans (List.mergeSort_perm _ _)

theorem rrfFuse_stems {dense sparse : List (ScoredPoint F)} {weights : K × K} {k limit : Nat}
    {boosts : List (Text × K)} {entryIds : List Text} {h : SearchHit K}
    (hh : h ∈ rrfFuse R dense sparse weights k limit boosts entryIds) :
    ∃ point ∈ dense ++ sparse, h = toHit R point h.score := by
  obtain ⟨kv, -, hkv⟩ := List.mem_filterMap.mp hh
  obtain ⟨point, hpoint, rfl⟩ := Option.map_eq_some_iff.mp hkv
  exact ⟨point, (pointsById_id hpoint).1, rfl⟩

/-- The hits are the first of the order. -/
theorem rrfFuse_ids (dense sparse : List (ScoredPoint F)) (weights : K × K) (k limit : Nat)
    (boosts : List (Text × K)) (entryIds : List Text) :
    (rrfFuse R dense sparse weights k limit boosts entryIds).map SearchHit.chunkId =
      ((fusedOrder R dense sparse weights k boosts entryIds).map Prod.fst).take limit := by
  rw [← List.map_take]
  refine Selection.map_filterMap fun kv hkv => ?_
  have hkey : kv.1 ∈ (pointsById (dense ++ sparse)).map Prod.fst := by
    rw [keys_pointsById, ← keys_fusedScores dense sparse weights k boosts]
    exact List.mem_map_of_mem
      ((fusedOrder_perm R dense sparse weights k boosts entryIds).mem_iff.mp (List.mem_of_mem_take hkv))
  obtain ⟨point, hpoint⟩ := Dict.exists_get hkey
  exact ⟨toHit R point kv.2, by rw [hpoint, Option.map_some], (pointsById_id hpoint).2⟩

theorem fusedOrder_ids (dense sparse : List (ScoredPoint F)) (weights : K × K) (k : Nat)
    (boosts : List (Text × K)) (entryIds : List Text) :
    ((fusedOrder R dense sparse weights k boosts entryIds).map Prod.fst).Perm
      ((dense ++ sparse).map ScoredPoint.id).dedup := by
  refine ((fusedOrder_perm R dense sparse weights k boosts entryIds).map Prod.fst).trans ?_
  rw [keys_fusedScores]
  exact Ranking.firsts_keys_perm _

/-- What `rrf_fuse` returns. -/
structure Fused (dense sparse : List (ScoredPoint F)) (weights : K × K) (k limit : Nat)
    (boosts : List (Text × K)) (entryIds : List Text) (hits : List (SearchHit K))
    (full : List (Text × K)) : Prop where
  candidates : (fusedScores dense sparse weights k boosts).map Prod.fst =
    (Ranking.firsts ScoredPoint.id [] (dense ++ sparse)).map ScoredPoint.id
  scores : ∀ kv ∈ fusedScores dense sparse weights k boosts,
    kv.2 = legShare weights.1 k (fun _ => 1) dense kv.1 +
      legShare weights.2 k (typeBoost boosts) sparse kv.1
  distinct : (full.map Prod.fst).Nodup
  perm : full.Perm (fusedScores dense sparse weights k boosts)
  order : full.Pairwise (Before (fusedScores dense sparse weights k boosts)
    (headedOf R (pointsById (dense ++ sparse)) entryIds)
    (leadingOf R (pointsById (dense ++ sparse))) (docOf R (pointsById (dense ++ sparse))))
  top : hits.map (fun h => (h.chunkId, h.score)) = full.take limit
  stems : ∀ h ∈ hits, ∃ point ∈ dense ++ sparse, h = toHit R point h.score

/-- Fusion reorders as its rules say, for any legs, weights, boosts and entry ids. -/
theorem rrfFuse_spec (dense sparse : List (ScoredPoint F)) (weights : K × K) (k limit : Nat)
    (boosts : List (Text × K)) (entryIds : List Text) :
    ∃ full, Fused R dense sparse weights k limit boosts entryIds
      (rrfFuse R dense sparse weights k limit boosts entryIds) full := by
  have hnodup := nodup_fusedScores dense sparse weights k boosts
  have hperm : (fusedOrder R dense sparse weights k boosts entryIds).Perm
      (fusedScores dense sparse weights k boosts) := by
    rw [fusedOrder_eq]
    exact ((passFirst_perm _ _).trans (preferSection_perm _)).trans (List.mergeSort_perm _ _)
  refine ⟨fusedOrder R dense sparse weights k boosts entryIds,
    { candidates := keys_fusedScores dense sparse weights k boosts
      scores := fun kv => fusedScores_eq
      distinct := (hperm.map Prod.fst).nodup_iff.mpr hnodup
      perm := hperm
      order := ?_
      top := ?_
      stems := fun h hh => ?_ }⟩
  · rw [fusedOrder_eq]
    exact passes_before (List.Nodup.of_map Prod.fst hnodup) _ _ _
  · have hkeys : ∀ kv ∈ (fusedOrder R dense sparse weights k boosts entryIds).take limit,
        kv.1 ∈ (pointsById (dense ++ sparse)).map Prod.fst := by
      intro kv hkv
      rw [keys_pointsById, ← keys_fusedScores dense sparse weights k boosts]
      exact List.mem_map_of_mem (hperm.mem_iff.mp (List.mem_of_mem_take hkv))
    unfold rrfFuse
    generalize (fusedOrder R dense sparse weights k boosts entryIds).take limit = top at hkeys
    induction top with
    | nil => rfl
    | cons kv top ih =>
      obtain ⟨hkv, hrest⟩ := List.forall_mem_cons.mp hkeys
      obtain ⟨point, hpoint⟩ := Dict.exists_get hkv
      rw [List.filterMap_cons, hpoint, Option.map_some, List.map_cons, ih hrest]
      have hid : (toHit R point kv.2).chunkId = kv.1 := (pointsById_id hpoint).2
      rw [hid]
      rfl
  · obtain ⟨kv, -, hkv⟩ := List.mem_filterMap.mp hh
    obtain ⟨point, hpoint, rfl⟩ := Option.map_eq_some_iff.mp hkv
    exact ⟨point, (pointsById_id hpoint).1, rfl⟩

end

end MainframeRag.Retrieve
