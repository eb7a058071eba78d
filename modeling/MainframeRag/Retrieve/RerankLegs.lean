import MainframeRag.Lib.Fallible
import MainframeRag.Lib.PyJson
import Mathlib

/-!
# Rerank legs

`HttpReranker` of `retrieve/rerank.py` behind its requests: the two endpoints' replies, and the legs
tried in order. A reply is any JSON value or a failed call; `_scores_by_index` reads it slot by slot
(`Filled`), and the one exception it raises is an integer no float holds (`TooLarge`).
-/

namespace MainframeRag.Retrieve.Legs

open PyText PyJson Fallible

/-- The conversions of floats. -/
structure ScoreFloats (F : Type) where
  /-- `float(n)`; `none` is an `OverflowError` -/
  ofInt : Int → Option F
  /-- `math.isfinite` -/
  isFinite : F → Bool

/-! ## Replies -/

/-- What a request comes to. -/
inductive Reply (F : Type)
  | answer (v : Json F)
  /-- `raise_for_status` raises -/
  | status (code : Nat)
  /-- a `RequestError` -/
  | unreachable
  /-- the body is not JSON: a `ValueError` -/
  | undecodable
  /-- the body is nested over the recursion limit: a `RecursionError` -/
  | tooDeep

/-- Why a leg is unusable, in a `RuntimeError`. -/
inductive Unusable
  /-- "returned invalid or mismatched results" -/
  | results
  /-- "returned indexes that are not a permutation of the batch or non-finite scores" -/
  | indexes
  /-- "returned no usable scores" -/
  | noScores
  deriving DecidableEq

/-- What a leg may raise. -/
inductive LegError
  | status (code : Nat)
  | request
  | value
  | key
  | recursion
  | overflow
  | runtime (why : Unusable)
  deriving DecidableEq

/-- `except (RequestError, ValueError, KeyError, TypeError, AttributeError)` -/
def LegError.caughtByScore : LegError → Bool
  | .request => true
  | .value => true
  | .key => true
  | .status _ => false
  | .recursion => false
  | .overflow => false
  | .runtime _ => false

/-- `except (HTTPStatusError, RequestError, ValueError, KeyError, RuntimeError)` -/
def LegError.caughtByLegs : LegError → Bool
  | .status _ => true
  | .request => true
  | .value => true
  | .key => true
  | .recursion => true
  | .runtime _ => true
  | .overflow => false

/-- `_is_client_error` of a status -/
def isClientStatus (code : Nat) : Bool := 400 ≤ code && code < 500

def LegError.isClientError : LegError → Bool
  | .status code => isClientStatus code
  | .request => false
  | .value => false
  | .key => false
  | .recursion => false
  | .overflow => false
  | .runtime _ => false

section

variable {F : Type}

/-- `post`, `raise_for_status`, `json` -/
def Reply.json : Reply F → Except LegError (Json F)
  | .answer v => .ok v
  | .status code => .error (.status code)
  | .unreachable => .error .request
  | .undecodable => .error .value
  | .tooDeep => .error .recursion

/-! ## Reading a response -/

/-- The list a response carries under a key. -/
def listAt (key : Text) : Json F → Option (List (Json F))
  | .obj d =>
    match d.lookup key with
    | some (.arr items) => some items
    | _ => none
  | _ => none

def asDict : Json F → Option (Items F)
  | .obj d => some d
  | _ => none

/-- `[(d.get("index"), value(d)) for d in items]`; `none` is a `KeyError`. -/
def indexPairs (value : Items F → Option (Json F)) (items : List (Items F)) :
    Option (List (Json F × Json F)) :=
  items.mapM fun d => (value d).map fun raw => (get d "index".toList, raw)

/-- `d["score"]` -/
def scoreValue (d : Items F) : Option (Json F) := d.lookup "score".toList

/-- `r["relevance_score"] if "relevance_score" in r else r["score"]` -/
def relevanceValue (d : Items F) : Option (Json F) :=
  match d.lookup "relevance_score".toList with
  | some raw => some raw
  | none => d.lookup "score".toList

variable (N : ScoreFloats F)

/-- The place a pair is put at: an `int` in range that is still free. -/
def slot (out : List (Option F)) : Json F → Option Nat
  | .int i =>
    if 0 ≤ i ∧ i < out.length then
      match out[i.toNat]? with
      | some none => some i.toNat
      | _ => none
    else none
  | _ => none

/-- The score of a pair: a number that is no `bool`, as a finite float. -/
def toScore : Json F → Except LegError (Option F)
  | .int k =>
    match N.ofInt k with
    | some x => .ok (if N.isFinite x then some x else none)
    | none => .error .overflow
  | .float x => .ok (if N.isFinite x then some x else none)
  | _ => .ok none

/-- The loop of `_scores_by_index`. -/
def fill : List (Json F × Json F) → List (Option F) → Except LegError (Option (List F))
  | [], out => .ok (some (out.filterMap id))
  | (idx, raw) :: rest, out =>
    match slot out idx with
    | none => .ok none
    | some i =>
      match toScore N raw with
      | .error e => .error e
      | .ok none => .ok none
      | .ok (some x) => fill rest (out.set i (some x))

/-- `_scores_by_index` -/
def scoresByIndex (n : Nat) (pairs : List (Json F × Json F)) : Except LegError (Option (List F)) :=
  if pairs.length ≠ n then .ok none else fill N pairs (List.replicate n none)

/-! ## The legs -/

/-- What `_score_batch` reads from a response. -/
def scoreBody (n : Nat) (v : Json F) : Except LegError (Option (List F)) :=
  match listAt "data".toList v with
  | none => .ok none
  | some items =>
    match items.mapM asDict with
    | none => .ok none
    | some ds => orRaise (indexPairs scoreValue ds) .key >>= scoresByIndex N n

/-- `_score_batch` -/
def scoreBatch (n : Nat) (reply : Reply F) : Except LegError (Option (List F)) :=
  match reply.json >>= scoreBody N n with
  | .ok scores => .ok scores
  | .error (.status _) => .ok none
  | .error e => if e.caughtByScore then .ok none else .error e

/-- What `_score_batch` appends to `rejected`. -/
def rejected (n : Nat) (reply : Reply F) : Option Nat :=
  match reply.json >>= scoreBody N n with
  | .error (.status code) => some code
  | _ => none

/-- What `_rerank_batch` reads from its results. -/
def rerankScores (n : Nat) (results : List (Json F)) : Except LegError (Option (List F)) :=
  match results.mapM asDict with
  | none => .error .key
  | some ds => orRaise (indexPairs relevanceValue ds) .key >>= scoresByIndex N n

/-- `_rerank_batch` behind `json` -/
def rerankBody (n : Nat) (v : Json F) : Except LegError (List F) :=
  match listAt "results".toList v with
  | none => .error (.runtime .results)
  | some results =>
    if results.length ≠ n then .error (.runtime .results)
    else
      match rerankScores N n results with
      | .ok (some scores) => .ok scores
      | .ok none => .error (.runtime .indexes)
      | .error .key => .error (.runtime .indexes)
      | .error e => .error e

/-- `_rerank_batch` -/
def rerankBatch (n : Nat) (reply : Reply F) : Except LegError (List F) :=
  reply.json >>= rerankBody N n

inductive Leg
  | score
  | rerank
  deriving DecidableEq

/-- `rerank_endpoint_order` -/
inductive EndpointOrder
  | scoreFirst
  | rerankFirst
  deriving DecidableEq

def EndpointOrder.legs : EndpointOrder → List Leg
  | .scoreFirst => [.score, .rerank]
  | .rerankFirst => [.rerank, .score]

/-- A leg's call; `none` is a leg that returns `None`. -/
def callLeg (n : Nat) (replies : Leg → Reply F) : Leg → Except LegError (Option (List F))
  | .score => scoreBatch N n (replies .score)
  | .rerank => (rerankBatch N n (replies .rerank)).map some

/-- `bool(rejected) and _is_client_error(rejected[-1])` -/
def wasRejected (n : Nat) (replies : Leg → Reply F) : Leg → Bool
  | .score => (rejected N n (replies .score)).any isClientStatus
  | .rerank => false

/-- What `_run_legs` does: what it returns or raises, `outcomes`, and the legs it called. -/
structure LegRun (F : Type) where
  result : Except LegError (List F)
  outcomes : List Bool
  tried : List Leg

/-- Another leg was tried before the run. -/
def LegRun.after (leg : Leg) (outcome : Bool) (run : LegRun F) : LegRun F :=
  { run with outcomes := outcome :: run.outcomes, tried := leg :: run.tried }

/-- `_run_legs` -/
def runLegs (n : Nat) (replies : Leg → Reply F) : List Leg → LegRun F
  | [] => ⟨.error (.runtime .noScores), [], []⟩
  | leg :: rest =>
    match callLeg N n replies leg with
    | .ok (some scores) => ⟨.ok scores, [], [leg]⟩
    | .ok none => (runLegs n replies rest).after leg (wasRejected N n replies leg)
    | .error e =>
      if e.caughtByLegs then
        if rest = [] then ⟨.error e, [e.isClientError], [leg]⟩
        else (runLegs n replies rest).after leg e.isClientError
      else ⟨.error e, [], [leg]⟩

/-! ## What a response pairs -/

/-- The number a raw score stands for. -/
def Number (raw : Json F) (x : F) : Prop :=
  (raw = .float x ∨ ∃ k, raw = .int k ∧ N.ofInt k = some x) ∧ N.isFinite x = true

/-- Scores in batch order: every index occurs once, with its own score. -/
structure Scored (n : Nat) (pairs : List (Json F × Json F)) (scores : List F) : Prop where
  length : scores.length = n
  finite : ∀ x ∈ scores, N.isFinite x = true
  indexes : (pairs.map Prod.fst).Perm ((List.range n).map fun i : Nat => .int i)
  own : ∀ (i : Nat) (x : F), scores[i]? = some x → ∃ raw, (.int i, raw) ∈ pairs ∧ Number N raw x

/-- Pairs that can be put at distinct places of a batch. -/
structure Placed (n : Nat) (pairs : List (Json F × Json F)) (places : List Nat) : Prop where
  indexes : pairs.map Prod.fst = places.map fun i : Nat => .int i
  distinct : places.Nodup
  inRange : ∀ i ∈ places, i < n
  numbers : ∀ p ∈ pairs, ∃ x, Number N p.2 x

/-- A pair that is read holds an integer too large for a float. -/
def TooLarge (n : Nat) (pairs : List (Json F × Json F)) : Prop :=
  pairs.length = n ∧ ∃ before places i k rest, pairs = before ++ (.int (i : Nat), .int k) :: rest ∧
    Placed N n before places ∧ i ∉ places ∧ i < n ∧ N.ofInt k = none

/-- The slots behind some pairs. -/
structure Filled (n : Nat) (done : List (Json F × Json F)) (places : List Nat)
    (out : List (Option F)) : Prop extends Placed N n done places where
  length : out.length = n
  taken : ∀ i, i ∈ places ↔ ∃ x, out[i]? = some (some x)
  own : ∀ (i : Nat) (x : F), out[i]? = some (some x) → ∃ raw, (.int i, raw) ∈ done ∧ Number N raw x

theorem filled_nil (n : Nat) : Filled N n [] [] (List.replicate n none) where
  indexes := rfl
  distinct := .nil
  inRange _ h := absurd h List.not_mem_nil
  numbers _ h := absurd h List.not_mem_nil
  length := List.length_replicate
  taken i := by
    refine iff_of_false List.not_mem_nil ?_
    rintro ⟨x, hx⟩
    have := List.eq_of_mem_replicate (List.mem_of_getElem? hx)
    cases this
  own i x hx := by
    have := List.eq_of_mem_replicate (List.mem_of_getElem? hx)
    cases this

theorem slot_eq_some {out : List (Option F)} {idx : Json F} {i : Nat} :
    slot out idx = some i ↔ idx = .int i ∧ out[i]? = some none := by
  unfold slot
  split
  · next k =>
    constructor
    · intro h
      split at h
      · next hk =>
        split at h
        · next hnone =>
          obtain rfl := Option.some.inj h
          rw [Int.toNat_of_nonneg hk.1]
          exact ⟨rfl, hnone⟩
        · cases h
      · cases h
    · rintro ⟨h, hnone⟩
      obtain rfl : k = i := by injection h
      have hlt : i < out.length := (List.getElem?_eq_some_iff.mp hnone).1
      rw [if_pos ⟨Int.natCast_nonneg i, Int.ofNat_lt.mpr hlt⟩, Int.toNat_natCast, hnone]
  · next hne =>
    refine iff_of_false (fun h => by cases h) ?_
    rintro ⟨rfl, -⟩
    exact hne _ rfl

theorem toScore_eq_some {raw : Json F} {x : F} :
    toScore N raw = .ok (some x) ↔ Number N raw x := by
  have hfinite : ∀ y, (if N.isFinite y = true then some y else none) = some x ↔
      y = x ∧ N.isFinite x = true := by
    intro y
    rw [Option.ite_none_right_eq_some]
    constructor
    · rintro ⟨hy, h⟩
      obtain rfl := Option.some.inj h
      exact ⟨rfl, hy⟩
    · rintro ⟨rfl, hy⟩
      exact ⟨hy, rfl⟩
  unfold toScore Number
  split
  · next k => cases hk : N.ofInt k <;> simp [hk, hfinite]
  · simp [hfinite]
  · next hint hfloat =>
    refine iff_of_false (fun h => by cases h) ?_
    rintro ⟨h | ⟨k, h, -⟩, -⟩
    · exact hfloat x h
    · exact hint k h

theorem toScore_error {raw : Json F} {e : LegError} :
    toScore N raw = .error e ↔ e = .overflow ∧ ∃ k, raw = .int k ∧ N.ofInt k = none := by
  unfold toScore
  split
  · next k =>
    cases hk : N.ofInt k with
    | none => simp [hk, eq_comm]
    | some y => simp [hk]
  · simp
  · next hint _ =>
    refine iff_of_false (fun h => by cases h) ?_
    rintro ⟨-, k, h, -⟩
    exact hint k h

variable {N} {n : Nat}

/-- One pair that is put. -/
theorem Filled.put {done : List (Json F × Json F)} {places : List Nat} {out : List (Option F)}
    (h : Filled N n done places out) {i : Nat} {raw : Json F} {x : F} (hfree : out[i]? = some none)
    (hx : Number N raw x) :
    Filled N n (done ++ [(.int i, raw)]) (places ++ [i]) (out.set i (some x)) := by
  have hlt : i < out.length := (List.getElem?_eq_some_iff.mp hfree).1
  have hnew : i ∉ places := by
    rw [h.taken]
    rintro ⟨y, hy⟩
    rw [hfree] at hy
    cases hy
  have hget : ∀ j : Nat, (out.set i (some x))[j]? = if i = j then some (some x) else out[j]? := by
    intro j
    rw [List.getElem?_set]
    simp only [hlt, ↓reduceIte]
  refine ⟨⟨?_, ?_, ?_, ?_⟩, ?_, ?_, ?_⟩
  · rw [List.map_append, List.map_append, h.indexes]
    rfl
  · exact List.nodup_append.mpr ⟨h.distinct, List.nodup_singleton i, by
      rintro a ha b hb rfl
      rw [List.mem_singleton.mp hb] at ha
      exact hnew ha⟩
  · intro j hj
    rcases List.mem_append.mp hj with hj | hj
    · exact h.inRange j hj
    · rw [List.mem_singleton.mp hj, ← h.length]
      exact hlt
  · intro p hp
    rcases List.mem_append.mp hp with hp | hp
    · exact h.numbers p hp
    · rw [List.mem_singleton.mp hp]
      exact ⟨x, hx⟩
  · rw [List.length_set]
    exact h.length
  · intro j
    rw [List.mem_append, List.mem_singleton, h.taken, hget]
    by_cases hij : i = j
    · subst hij
      simp
    · simp [hij, Ne.symm hij]
  · intro j y hy
    rw [hget] at hy
    split at hy
    · next hij =>
      obtain rfl := Option.some.inj (Option.some.inj hy)
      subst hij
      exact ⟨raw, List.mem_append_right _ (List.mem_singleton.mpr rfl), hx⟩
    · obtain ⟨raw', hmem, hnum⟩ := h.own j y hy
      exact ⟨raw', List.mem_append_left _ hmem, hnum⟩

/-- A whole batch that is put. -/
theorem Filled.scored {pairs : List (Json F × Json F)} {places : List Nat} {out : List (Option F)}
    (h : Filled N n pairs places out) (hlen : pairs.length = n) :
    Scored N n pairs (out.filterMap id) := by
  have hcount : places.length = n := by
    have := congrArg List.length h.indexes
    rw [List.length_map, List.length_map] at this
    omega
  have hperm : places.Perm (List.range n) := by
    have hsub : places ⊆ List.range n := fun i hi => List.mem_range.mpr (h.inRange i hi)
    exact (List.subperm_of_subset h.distinct hsub).perm_of_length_le (by simp [hcount])
  have hall : ∀ o ∈ out, o.isSome := by
    intro o ho
    obtain ⟨i, hi, rfl⟩ := List.getElem_of_mem ho
    have hmem : i ∈ places := hperm.mem_iff.mpr (List.mem_range.mpr (h.length ▸ hi))
    obtain ⟨x, hx⟩ := (h.taken i).mp hmem
    rw [List.getElem?_eq_getElem hi] at hx
    rw [Option.some.inj hx]
    rfl
  have hout : (out.filterMap id).map some = out := by
    clear hperm h
    induction out with
    | nil => rfl
    | cons o out ih =>
      obtain ⟨ho, hrest⟩ := List.forall_mem_cons.mp hall
      obtain ⟨x, rfl⟩ := Option.isSome_iff_exists.mp ho
      have hcons : (some x :: out).filterMap id = x :: out.filterMap id := rfl
      rw [hcons, List.map_cons, ih hrest]
  have hget : ∀ (i : Nat) (x : F), (out.filterMap id)[i]? = some x → out[i]? = some (some x) := by
    intro i x hx
    rw [← hout, List.getElem?_map, hx]
    rfl
  refine ⟨?_, fun x hx => ?_, ?_, fun i x hx => h.own i x (hget i x hx)⟩
  · rw [← List.length_map some, hout]
    exact h.length
  · obtain ⟨i, hi, rfl⟩ := List.getElem_of_mem hx
    obtain ⟨raw, -, hnum⟩ := h.own i _ (hget i _ (List.getElem?_eq_getElem hi))
    exact hnum.2
  · rw [h.indexes]
    exact hperm.map _

theorem Filled.free {done : List (Json F × Json F)} {places : List Nat} {out : List (Option F)}
    (h : Filled N n done places out) {i : Nat} (hlt : i < n) (hnew : i ∉ places) :
    out[i]? = some none := by
  have hlt' : i < out.length := h.length.symm ▸ hlt
  rw [List.getElem?_eq_getElem hlt']
  cases hout : out[i] with
  | none => rfl
  | some x =>
    refine absurd ((h.taken i).mpr ⟨x, ?_⟩) hnew
    rw [List.getElem?_eq_getElem hlt', hout]

/-- The places of the first pairs are the first places. -/
theorem Placed.split {done rest : List (Json F × Json F)} {places all : List Nat}
    (hdone : done.map Prod.fst = places.map fun i : Nat => .int i)
    (h : Placed N n (done ++ rest) all) :
    ∃ more, all = places ++ more ∧ rest.map Prod.fst = more.map fun i : Nat => .int i := by
  have hinj : Function.Injective fun i : Nat => (Json.int i : Json F) := by
    intro i j hij
    injection hij with hij
    exact Int.ofNat_inj.mp hij
  have hall := h.indexes
  rw [List.map_append] at hall
  obtain ⟨first, more, rfl, hfirst, hmore⟩ := List.map_eq_append_iff.mp hall.symm
  obtain rfl := List.map_injective_iff.mpr hinj (hfirst.trans hdone)
  exact ⟨more, rfl, hmore.symm⟩

theorem fill_some (pairs : List (Json F × Json F)) : ∀ {done places} {out : List (Option F)},
    Filled N n done places out → (done ++ pairs).length = n → ∀ {scores},
      fill N pairs out = .ok (some scores) → Scored N n (done ++ pairs) scores := by
  induction pairs with
  | nil =>
    intro done places out h hlen scores hfill
    rw [List.append_nil] at hlen ⊢
    injection hfill with hfill
    obtain rfl := Option.some.inj hfill
    exact h.scored hlen
  | cons p pairs ih =>
    intro done places out h hlen scores hfill
    obtain ⟨idx, raw⟩ := p
    rw [fill] at hfill
    split at hfill
    · cases hfill
    · next i hslot =>
      obtain ⟨rfl, hfree⟩ := slot_eq_some.mp hslot
      split at hfill
      · cases hfill
      · cases hfill
      · next x hx =>
        have hput := h.put hfree ((toScore_eq_some N).mp hx)
        rw [List.append_cons] at hlen ⊢
        exact ih hput hlen hfill

theorem fill_error (pairs : List (Json F × Json F)) : ∀ {done places} {out : List (Option F)},
    Filled N n done places out → ∀ {e}, fill N pairs out = .error e → e = .overflow ∧
      ∃ before places i k rest, done ++ pairs = before ++ (.int (i : Nat), .int k) :: rest ∧
        Placed N n before places ∧ i ∉ places ∧ i < n ∧ N.ofInt k = none := by
  induction pairs with
  | nil =>
    intro done places out h e hfill
    cases hfill
  | cons p pairs ih =>
    intro done places out h e hfill
    obtain ⟨idx, raw⟩ := p
    rw [fill] at hfill
    split at hfill
    · cases hfill
    · next i hslot =>
      obtain ⟨rfl, hfree⟩ := slot_eq_some.mp hslot
      split at hfill
      · next e' he =>
        injection hfill with hfill
        obtain ⟨rfl, k, rfl, hk⟩ := (toScore_error N).mp he
        refine ⟨hfill.symm, done, places, i, k, pairs, rfl, h.toPlaced, ?_, ?_, hk⟩
        · rw [h.taken]
          rintro ⟨y, hy⟩
          rw [hfree] at hy
          cases hy
        · rw [← h.length]
          exact (List.getElem?_eq_some_iff.mp hfree).1
      · cases hfill
      · next x hx =>
        have hput := h.put hfree ((toScore_eq_some N).mp hx)
        rw [List.append_cons]
        exact ih hput hfill

theorem fill_overflow {i : Nat} {k : Int} {rest : List (Json F × Json F)} (hk : N.ofInt k = none)
    (before : List (Json F × Json F)) : ∀ {done places all} {out : List (Option F)},
    Filled N n done places out → Placed N n (done ++ before) all → i ∉ all → i < n →
      fill N (before ++ (.int i, .int k) :: rest) out = .error .overflow := by
  induction before with
  | nil =>
    intro done places all out h hall hnew hlt
    obtain ⟨more, rfl, -⟩ := Placed.split h.indexes hall
    have hfree := h.free hlt fun hi => hnew (List.mem_append_left _ hi)
    rw [List.nil_append, fill, slot_eq_some.mpr ⟨rfl, hfree⟩]
    dsimp only
    rw [(toScore_error N).mpr ⟨rfl, k, rfl, hk⟩]
  | cons p before ih =>
    intro done places all out h hall hnew hlt
    obtain ⟨idx, raw⟩ := p
    obtain ⟨more, rfl, hmore⟩ := Placed.split h.indexes hall
    cases more with
    | nil => cases hmore
    | cons j more =>
      obtain ⟨rfl, -⟩ := List.cons.inj hmore
      have hj : j ∉ places := fun hj =>
        (List.nodup_append.mp hall.distinct).2.2 j hj j List.mem_cons_self rfl
      have hjn := hall.inRange j (List.mem_append_right _ List.mem_cons_self)
      obtain ⟨x, hx⟩ := hall.numbers _ (List.mem_append_right _ List.mem_cons_self)
      have hfree := h.free hjn hj
      rw [List.cons_append, fill, slot_eq_some.mpr ⟨rfl, hfree⟩]
      dsimp only
      rw [(toScore_eq_some N).mpr hx]
      rw [List.append_cons] at hall
      exact ih (h.put hfree hx) hall hnew hlt

/-- `_scores_by_index` raises on nothing but an integer no float holds. -/
theorem scoresByIndex_error {pairs : List (Json F × Json F)} {e : LegError} :
    scoresByIndex N n pairs = .error e ↔ e = .overflow ∧ TooLarge N n pairs := by
  unfold scoresByIndex TooLarge
  split
  · next hlen =>
    refine iff_of_false (fun h => by cases h) ?_
    rintro ⟨-, h, -⟩
    exact hlen h
  · next hlen =>
    rw [not_not] at hlen
    constructor
    · intro h
      obtain ⟨he, hlarge⟩ := fill_error pairs (filled_nil N n) h
      exact ⟨he, hlen, hlarge⟩
    · rintro ⟨rfl, -, before, places, i, k, rest, rfl, hplaced, hnew, hlt, hk⟩
      exact fill_overflow hk before (filled_nil N n) hplaced hnew hlt

/-- What it returns is in batch order, every index once. -/
theorem scoresByIndex_some {pairs : List (Json F × Json F)} {scores : List F}
    (h : scoresByIndex N n pairs = .ok (some scores)) : Scored N n pairs scores := by
  unfold scoresByIndex at h
  split at h
  · cases h
  · next hlen => exact fill_some pairs (filled_nil N n) (not_not.mp hlen) h

/-! ## A leg's response -/

/-- The pairs of a response. -/
def pairsAt (key : Text) (value : Items F → Option (Json F)) (v : Json F) :
    Option (List (Json F × Json F)) :=
  (listAt key v).bind fun items => (items.mapM asDict).bind (indexPairs value)

def Leg.pairs : Leg → Json F → Option (List (Json F × Json F))
  | .score => pairsAt "data".toList scoreValue
  | .rerank => pairsAt "results".toList relevanceValue

variable (N n) in
/-- A leg's reply holds these scores, each index once. -/
def Honest (leg : Leg) (reply : Reply F) (scores : List F) : Prop :=
  ∃ v pairs, reply = .answer v ∧ leg.pairs v = some pairs ∧ Scored N n pairs scores

variable (N n) in
/-- A leg's reply holds, in a pair that is read, an integer too large for a float. -/
def Overflows (leg : Leg) (reply : Reply F) : Prop :=
  ∃ v pairs, reply = .answer v ∧ leg.pairs v = some pairs ∧ TooLarge N n pairs

theorem scoreBody_some {v : Json F} {pairs : List (Json F × Json F)}
    (h : Leg.score.pairs v = some pairs) : scoreBody N n v = scoresByIndex N n pairs := by
  obtain ⟨items, hitems, hds⟩ := Option.bind_eq_some_iff.mp h
  obtain ⟨ds, hdicts, hpairs⟩ := Option.bind_eq_some_iff.mp hds
  unfold scoreBody
  rw [hitems]
  dsimp only
  rw [hdicts]
  dsimp only
  rw [hpairs, orRaise_some, ok_bind]

theorem scoreBody_none {v : Json F} (h : Leg.score.pairs v = none) :
    scoreBody N n v = .ok none ∨ scoreBody N n v = .error .key := by
  unfold scoreBody
  split
  · exact .inl rfl
  · next items hitems =>
    split
    · exact .inl rfl
    · next ds hdicts =>
      have hpairs : indexPairs scoreValue ds = none := by
        have hkey : Leg.score.pairs v = indexPairs scoreValue ds := by
          unfold Leg.pairs pairsAt
          dsimp only
          rw [hitems, Option.bind_some, hdicts, Option.bind_some]
        rw [← hkey, h]
      rw [hpairs]
      exact .inr rfl

theorem scoreBatch_some {v : Json F} {pairs : List (Json F × Json F)}
    (h : Leg.score.pairs v = some pairs) :
    scoreBatch N n (.answer v) = scoresByIndex N n pairs := by
  unfold scoreBatch
  rw [Reply.json, ok_bind, scoreBody_some h]
  cases hscores : scoresByIndex N n pairs with
  | ok scores => rfl
  | error e =>
    obtain ⟨rfl, -⟩ := scoresByIndex_error.mp hscores
    rfl

theorem scoreBatch_none {v : Json F} (h : Leg.score.pairs v = none) :
    scoreBatch N n (.answer v) = .ok none := by
  unfold scoreBatch
  rw [Reply.json, ok_bind]
  rcases @scoreBody_none F N n v h with hbody | hbody
  · rw [hbody]
  · rw [hbody]
    rfl

/-- `_score_batch` raises on a body that is nested too deep or holds too large an integer. -/
theorem scoreBatch_error {reply : Reply F} {e : LegError} :
    scoreBatch N n reply = .error e ↔ reply = .tooDeep ∧ e = .recursion ∨
      e = .overflow ∧ Overflows N n .score reply := by
  cases reply with
  | answer v =>
    cases hpairs : Leg.score.pairs v with
    | none =>
      rw [scoreBatch_none hpairs]
      refine iff_of_false (fun h => by cases h) ?_
      rintro (⟨h, -⟩ | ⟨-, w, pairs, hw, h, -⟩)
      · cases h
      · cases hw
        rw [hpairs] at h
        cases h
    | some pairs =>
      rw [scoreBatch_some hpairs, scoresByIndex_error]
      constructor
      · rintro ⟨rfl, h⟩
        exact .inr ⟨rfl, v, pairs, rfl, hpairs, h⟩
      · rintro (⟨h, -⟩ | ⟨rfl, w, pairs', hw, h, hlarge⟩)
        · cases h
        · cases hw
          obtain rfl := Option.some.inj (hpairs.symm.trans h)
          exact ⟨rfl, hlarge⟩
  | tooDeep =>
    constructor
    · intro h
      injection h with h
      exact .inl ⟨rfl, h.symm⟩
    · rintro (⟨-, rfl⟩ | ⟨-, w, pairs, hw, -⟩)
      · rfl
      · cases hw
  | status code | unreachable | undecodable =>
    refine iff_of_false (fun h => by cases h) ?_
    rintro (⟨h, -⟩ | ⟨-, w, pairs, hw, -⟩)
    · cases h
    · cases hw

theorem scoreBatch_honest {reply : Reply F} {scores : List F}
    (h : scoreBatch N n reply = .ok (some scores)) : Honest N n .score reply scores := by
  cases reply with
  | answer v =>
    cases hpairs : Leg.score.pairs v with
    | none =>
      rw [scoreBatch_none hpairs] at h
      cases h
    | some pairs =>
      rw [scoreBatch_some hpairs] at h
      exact ⟨v, pairs, rfl, hpairs, scoresByIndex_some h⟩
  | status code | unreachable | undecodable | tooDeep => cases h

theorem rerankScores_some {v : Json F} {results : List (Json F)} {pairs : List (Json F × Json F)}
    (hresults : listAt "results".toList v = some results) (h : Leg.rerank.pairs v = some pairs) :
    pairs.length = results.length ∧ rerankScores N n results = scoresByIndex N n pairs := by
  obtain ⟨items, hitems, hds⟩ := Option.bind_eq_some_iff.mp h
  obtain ⟨ds, hdicts, hpairs⟩ := Option.bind_eq_some_iff.mp hds
  obtain rfl := Option.some.inj (hresults.symm.trans hitems)
  constructor
  · exact ((mapM_eq_some_iff.mp hdicts).length_eq.trans (mapM_eq_some_iff.mp hpairs).length_eq).symm
  · unfold rerankScores
    rw [hdicts]
    dsimp only
    rw [hpairs, orRaise_some, ok_bind]

theorem rerankScores_none {v : Json F} {results : List (Json F)}
    (hresults : listAt "results".toList v = some results) (h : Leg.rerank.pairs v = none) :
    rerankScores N n results = .error .key := by
  unfold rerankScores
  split
  · rfl
  · next ds hdicts =>
    have hpairs : indexPairs relevanceValue ds = none := by
      have hkey : Leg.rerank.pairs v = indexPairs relevanceValue ds := by
        unfold Leg.pairs pairsAt
        dsimp only
        rw [hresults, Option.bind_some, hdicts, Option.bind_some]
      rw [← hkey, h]
    rw [hpairs]
    rfl

/-- How `_rerank_batch` ends on a decoded body. -/
theorem rerankBody_cases (v : Json F) :
    (∃ pairs scores, Leg.rerank.pairs v = some pairs ∧ scoresByIndex N n pairs = .ok (some scores) ∧
        rerankBody N n v = .ok scores) ∨
      (∃ pairs, Leg.rerank.pairs v = some pairs ∧ TooLarge N n pairs ∧
        rerankBody N n v = .error .overflow) ∨
      (∀ pairs, Leg.rerank.pairs v = some pairs → ¬ TooLarge N n pairs) ∧
        ∃ why, rerankBody N n v = .error (.runtime why) := by
  unfold rerankBody
  cases hresults : listAt "results".toList v with
  | none =>
    refine .inr (.inr ⟨fun pairs hpairs => ?_, _, rfl⟩)
    unfold Leg.pairs pairsAt at hpairs
    dsimp only at hpairs
    rw [hresults] at hpairs
    cases hpairs
  | some results =>
    dsimp only
    cases hpairs : Leg.rerank.pairs v with
    | none =>
      refine .inr (.inr ⟨fun pairs h => (by cases h), ?_⟩)
      rw [rerankScores_none hresults hpairs]
      split
      · exact ⟨_, rfl⟩
      · exact ⟨_, rfl⟩
    | some pairs =>
      obtain ⟨hlen, hread⟩ := @rerankScores_some F N n v results pairs hresults hpairs
      rw [hread]
      split
      · next hne =>
        refine .inr (.inr ⟨fun pairs' h hlarge => hne ?_, _, rfl⟩)
        obtain rfl := Option.some.inj h
        rw [← hlen, hlarge.1]
      · cases hscores : scoresByIndex N n pairs with
        | ok scores =>
          cases scores with
          | none =>
            refine .inr (.inr ⟨fun pairs' h hlarge => ?_, _, rfl⟩)
            obtain rfl := Option.some.inj h
            rw [scoresByIndex_error.mpr ⟨rfl, hlarge⟩] at hscores
            cases hscores
          | some scores => exact .inl ⟨pairs, scores, rfl, hscores, rfl⟩
        | error e =>
          obtain ⟨rfl, hlarge⟩ := scoresByIndex_error.mp hscores
          exact .inr (.inl ⟨pairs, rfl, hlarge, rfl⟩)

theorem rerankBatch_honest {reply : Reply F} {scores : List F}
    (h : rerankBatch N n reply = .ok scores) : Honest N n .rerank reply scores := by
  obtain ⟨v, hv, hbody⟩ := bind_ok.mp h
  cases reply with
  | answer w =>
    cases hv
    rcases rerankBody_cases v with ⟨pairs, scores', hpairs, hscores, hok⟩ | ⟨_, _, _, herr⟩ |
      ⟨_, _, herr⟩
    · rw [hok] at hbody
      cases hbody
      exact ⟨v, pairs, rfl, hpairs, scoresByIndex_some hscores⟩
    · rw [herr] at hbody
      cases hbody
    · rw [herr] at hbody
      cases hbody
  | status code | unreachable | undecodable | tooDeep => cases hv

/-- What the other leg does not catch from `_rerank_batch` is an integer too large for a float. -/
theorem rerankBatch_uncaught {reply : Reply F} :
    (∃ e, rerankBatch N n reply = .error e ∧ e.caughtByLegs = false) ↔
      Overflows N n .rerank reply := by
  cases reply with
  | answer v =>
    unfold rerankBatch
    rw [Reply.json, ok_bind]
    constructor
    · rintro ⟨e, herr, hcaught⟩
      rcases @rerankBody_cases F N n v with ⟨_, _, _, _, hok⟩ | ⟨pairs, hpairs, hlarge, _⟩ |
        ⟨_, why, hwhy⟩
      · rw [hok] at herr
        cases herr
      · exact ⟨v, pairs, rfl, hpairs, hlarge⟩
      · rw [hwhy] at herr
        cases herr
        cases hcaught
    · rintro ⟨w, pairs, hw, hpairs, hlarge⟩
      cases hw
      rcases @rerankBody_cases F N n v with ⟨pairs', _, hpairs', hscores, _⟩ | ⟨_, _, _, herr⟩ |
        ⟨hnot, _⟩
      · obtain rfl := Option.some.inj (hpairs.symm.trans hpairs')
        rw [scoresByIndex_error.mpr ⟨rfl, hlarge⟩] at hscores
        cases hscores
      · exact ⟨_, herr, rfl⟩
      · exact absurd hlarge (hnot pairs hpairs)
  | status code | unreachable | undecodable | tooDeep =>
    constructor
    · rintro ⟨e, herr, hcaught⟩
      cases herr
      cases hcaught
    · rintro ⟨w, pairs, hw, -⟩
      cases hw

/-! ## Runs of legs -/

theorem callLeg_honest {replies : Leg → Reply F} {leg : Leg} {scores : List F}
    (h : callLeg N n replies leg = .ok (some scores)) : Honest N n leg (replies leg) scores := by
  cases leg with
  | score => exact scoreBatch_honest h
  | rerank =>
    refine rerankBatch_honest ?_
    unfold callLeg at h
    cases hbatch : rerankBatch N n (replies .rerank) with
    | ok scores' =>
      rw [hbatch] at h
      cases h
      rfl
    | error e =>
      rw [hbatch] at h
      cases h

/-- Only an integer too large for a float gets past the handler of `_run_legs`. -/
theorem callLeg_uncaught {replies : Leg → Reply F} {leg : Leg} :
    (∃ e, callLeg N n replies leg = .error e ∧ e.caughtByLegs = false) ↔
      Overflows N n leg (replies leg) := by
  cases leg with
  | score =>
    constructor
    · rintro ⟨e, herr, hcaught⟩
      rcases scoreBatch_error.mp herr with ⟨-, rfl⟩ | ⟨-, h⟩
      · cases hcaught
      · exact h
    · exact fun h => ⟨.overflow, scoreBatch_error.mpr (.inr ⟨rfl, h⟩), rfl⟩
  | rerank =>
    rw [← rerankBatch_uncaught]
    refine exists_congr fun e => and_congr_left fun _ => ?_
    unfold callLeg
    cases rerankBatch N n (replies .rerank) with
    | ok scores => exact iff_of_false (fun h => (by cases h)) (fun h => (by cases h))
    | error e' =>
      constructor
      · intro h
        cases h
        rfl
      · intro h
        cases h
        rfl

theorem runLegs_honest {replies : Leg → Reply F} {legs : List Leg} {scores : List F}
    (h : (runLegs N n replies legs).result = .ok scores) :
    ∃ leg ∈ (runLegs N n replies legs).tried, Honest N n leg (replies leg) scores := by
  induction legs with
  | nil => cases h
  | cons leg rest ih =>
    have hafter : ∀ outcome, (runLegs N n replies rest).result = .ok scores →
        ∃ l ∈ ((runLegs N n replies rest).after leg outcome).tried,
          Honest N n l (replies l) scores := by
      intro outcome hrest
      obtain ⟨l, hl, hhonest⟩ := ih hrest
      exact ⟨l, List.mem_cons_of_mem _ hl, hhonest⟩
    unfold runLegs at h ⊢
    cases hcall : callLeg N n replies leg with
    | ok r =>
      rw [hcall] at h
      cases r with
      | none => exact hafter _ h
      | some scores' =>
        cases h
        exact ⟨leg, List.mem_cons_self, callLeg_honest hcall⟩
    | error e =>
      rw [hcall] at h
      dsimp only at h ⊢
      split at h
      · split at h
        · cases h
        · next hcaught hne =>
          rw [if_pos hcaught, if_neg hne]
          exact hafter _ h
      · cases h

/-- A run that raises has tried every leg, unless an integer too large for a float cut it short. -/
theorem runLegs_tried {replies : Leg → Reply F} {legs : List Leg} {e : LegError}
    (hlegs : ∀ leg ∈ legs.dropLast, ¬ Overflows N n leg (replies leg))
    (h : (runLegs N n replies legs).result = .error e) :
    (runLegs N n replies legs).tried = legs := by
  induction legs with
  | nil => rfl
  | cons leg rest ih =>
    have hrest : ∀ l ∈ rest.dropLast, ¬ Overflows N n l (replies l) := by
      intro l hl
      cases rest with
      | nil => cases hl
      | cons l' rest => exact hlegs l (List.mem_cons_of_mem _ hl)
    unfold runLegs at h ⊢
    cases hcall : callLeg N n replies leg with
    | ok r =>
      rw [hcall] at h
      cases r with
      | none => exact congrArg (leg :: ·) (ih hrest h)
      | some scores => cases h
    | error e' =>
      rw [hcall] at h
      dsimp only at h ⊢
      by_cases hcaught : e'.caughtByLegs = true
      · rw [if_pos hcaught] at h ⊢
        by_cases hne : rest = []
        · rw [if_pos hne, hne]
        · rw [if_neg hne] at h ⊢
          exact congrArg (leg :: ·) (ih hrest h)
      · rw [if_neg hcaught]
        have hover := callLeg_uncaught.mp ⟨e', hcall, Bool.eq_false_iff.mpr hcaught⟩
        cases rest with
        | nil => rfl
        | cons l rest => exact absurd hover (hlegs leg List.mem_cons_self)

theorem runLegs_uncaught {replies : Leg → Reply F} {leg : Leg} {rest : List Leg}
    (h : Overflows N n leg (replies leg)) :
    ∃ e, runLegs N n replies (leg :: rest) = ⟨.error e, [], [leg]⟩ := by
  obtain ⟨e, hcall, hcaught⟩ := callLeg_uncaught.mpr h
  refine ⟨e, ?_⟩
  unfold runLegs
  rw [hcall]
  dsimp only
  rw [if_neg (by rw [hcaught]; exact Bool.false_ne_true)]

variable (N n)

/-- A malformed response is one failed call: `_score_batch` returns, scores come from a response that
holds them, and a run that raises has tried both legs. -/
structure FailsClosed (replies : Leg → Reply F) (order : EndpointOrder) : Prop where
  scoreBatch : ∃ r, scoreBatch N n (replies .score) = .ok r ∧
    ∀ scores, r = some scores → Honest N n .score (replies .score) scores
  returned : ∀ scores, (runLegs N n replies order.legs).result = .ok scores →
    ∃ leg ∈ (runLegs N n replies order.legs).tried, Honest N n leg (replies leg) scores
  raised : ∀ e, (runLegs N n replies order.legs).result = .error e →
    (runLegs N n replies order.legs).tried = order.legs

/-- The score endpoint's body is not nested too deep, and neither it nor the leg tried first has
too large an integer in a pair that is read. -/
structure Readable (replies : Leg → Reply F) (order : EndpointOrder) : Prop where
  shallow : replies .score ≠ .tooDeep
  score : ¬ Overflows N n .score (replies .score)
  rerank : order = .rerankFirst → ¬ Overflows N n .rerank (replies .rerank)

theorem failsClosed_iff (replies : Leg → Reply F) (order : EndpointOrder) :
    FailsClosed N n replies order ↔ Readable N n replies order := by
  constructor
  · intro h
    obtain ⟨r, hr, -⟩ := h.scoreBatch
    refine ⟨fun hdeep => ?_, fun hover => ?_, ?_⟩
    · rw [scoreBatch_error.mpr (.inl ⟨hdeep, rfl⟩)] at hr
      cases hr
    · rw [scoreBatch_error.mpr (.inr ⟨rfl, hover⟩)] at hr
      cases hr
    · rintro rfl hover
      have hraised := h.raised
      obtain ⟨e, hrun⟩ := @runLegs_uncaught F N n replies .rerank [.score] hover
      have htried := hraised e (congrArg LegRun.result hrun)
      rw [EndpointOrder.legs, hrun] at htried
      cases htried
  · intro h
    refine ⟨?_, fun scores => runLegs_honest, fun e => runLegs_tried ?_⟩
    · cases hbatch : Legs.scoreBatch N n (replies .score) with
      | ok r =>
        refine ⟨r, rfl, ?_⟩
        rintro scores rfl
        exact scoreBatch_honest hbatch
      | error e =>
        rcases scoreBatch_error.mp hbatch with ⟨hdeep, -⟩ | ⟨-, hover⟩
        · exact absurd hdeep h.shallow
        · exact absurd hover h.score
    · intro leg hleg
      cases order with
      | scoreFirst =>
        rw [List.mem_singleton.mp hleg]
        exact h.score
      | rerankFirst =>
        rw [List.mem_singleton.mp hleg]
        exact h.rerank rfl

end

/-- Doubles, without their rounding. -/
def doubles : ScoreFloats ℚ where
  ofInt k := if |k| < 2 ^ 1024 - 2 ^ 970 then some k else none
  isFinite _ := true

/-- A score no float holds, and a leg that would answer. -/
def hugeReplies : Leg → Reply ℚ
  | .score => .answer (.obj [("data".toList,
      .arr [.obj [("index".toList, .int 0), ("score".toList, .int (10 ^ 400))]])])
  | .rerank => .answer (.obj [("results".toList,
      .arr [.obj [("index".toList, .int 0), ("relevance_score".toList, .int 1)]])])

theorem hugeReplies_raise : scoreBatch doubles 1 (hugeReplies .score) = .error .overflow ∧
    rerankBatch doubles 1 (hugeReplies .rerank) = .ok [1] ∧
    (runLegs doubles 1 hugeReplies EndpointOrder.scoreFirst.legs).tried = [.score] ∧
    ¬ FailsClosed doubles 1 hugeReplies .scoreFirst := by
  have hscore : scoreBatch doubles 1 (hugeReplies .score) = .error .overflow := by decide +kernel
  refine ⟨hscore, by decide +kernel, by decide +kernel, fun h => ?_⟩
  obtain ⟨r, hr, -⟩ := h.scoreBatch
  rw [hscore] at hr
  cases hr

end MainframeRag.Retrieve.Legs
