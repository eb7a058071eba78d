import MainframeRag.Lib.Fallible
import MainframeRag.Lib.Hex
import MainframeRag.Lib.Keyed
import Mathlib

/-!
# Build identity and its aliases

`ingest/build.py`: a build is a data and a control collection under one UUID. Publishing it gives both
an alias of their own that never moves, so its phase is read off the alias table alone.
-/

namespace MainframeRag.Ingest.Build

open PyText Fallible

/-- The store's aliases: a name and the collection it stands for. -/
abbrev AliasTable := Keyed (Text × Text) Prod.fst

/-- `aliases.get(name)` -/
def target (aliases : AliasTable) (name : Text) : Option Text :=
  (aliases.items.find? fun x => x.1 = name).map Prod.snd

inductive BuildError
  | invalidIdentity
  | servingLacksAliases
  | inconsistentAliases
  | aliasesLackControl
  | unbound
  | otherCorpus
  | unpublished
  deriving DecidableEq

/-- `canonical_build_id`; the text is the build's own. -/
def canonicalBuildId (value : Text) : Except BuildError Uuid := do
  let parsed ← orRaise (Uuid.ofCanonical value) .invalidIdentity
  ensure (parsed.isNil = false) .invalidIdentity
  return parsed

def buildMark : Text := "__build_".toList

def completionsMark : Text := "__completions".toList

/-- `build_aliases` -/
def buildAliases (logical buildId : Text) : Except BuildError (Text × Text) := do
  let _ ← canonicalBuildId buildId
  let data := logical ++ buildMark ++ buildId
  return (data, data ++ completionsMark)

/-- `str.rpartition`, where the separator occurs. -/
def rpartition (sep : Text) : Text → Option (Text × Text)
  | [] => none
  | c :: t =>
    match rpartition sep t with
    | some (before, after) => some (c :: before, after)
    | none => if sep.isPrefixOf (c :: t) then some ([], (c :: t).drop sep.length) else none

/-- `str.removesuffix` -/
def removesuffix (t suffix : Text) : Text :=
  if suffix.isSuffixOf t then t.take (t.length - suffix.length) else t

/-- `str.lower` on what can be the text of a UUID. -/
def lowerAscii (c : Char) : Char :=
  if 65 ≤ c.toNat ∧ c.toNat ≤ 90 then Char.ofNat (c.toNat + 32) else c

/-- `is_build_alias` -/
def isBuildAlias (name : Text) : Bool :=
  match rpartition buildMark name with
  | none => false
  | some (logical, identity) =>
    let identity := removesuffix identity completionsMark
    !logical.isEmpty && (Uuid.parse identity).any fun u => u.str = identity.map lowerAscii

structure BuildBinding where
  buildId : Text
  logicalAlias : Text
  physical : Text
  genFp : Text
  corpusFp : Text
  deriving DecidableEq

def BuildBinding.control (b : BuildBinding) : Text := b.physical ++ completionsMark

inductive Phase
  | sealed
  | published
  | retained
  deriving DecidableEq

/-- `build_phase` -/
def buildPhase (binding : BuildBinding) (aliases : AliasTable) : Except BuildError Phase := do
  let (data, control) ← buildAliases binding.logicalAlias binding.buildId
  if target aliases data = none ∧ target aliases control = none then
    ensure (target aliases binding.logicalAlias ≠ some binding.physical) .servingLacksAliases
    return .sealed
  ensure (target aliases data = some binding.physical ∧
    target aliases control = some binding.control) .inconsistentAliases
  return if target aliases binding.logicalAlias = some binding.physical then .published else .retained

/-- `require_published_binding` -/
def requirePublishedBinding (binding : Option BuildBinding) (configured physical : Text)
    (aliases : AliasTable) : Except BuildError Unit := do
  match binding with
  | none =>
    ensure (¬ aliases.any fun x =>
      isBuildAlias x.1 && (x.2 = physical || x.2 = physical ++ completionsMark)) .aliasesLackControl
    throw .unbound
  | some binding =>
    ensure (binding.physical = physical ∧ (configured = binding.logicalAlias ∨ configured = physical))
      .otherCorpus
    let phase ← buildPhase binding aliases
    ensure (phase = .published ∨ phase = .retained) .unpublished

/-! ## Reading the table -/

theorem target_eq_some {aliases : AliasTable} {name collection : Text} :
    target aliases name = some collection ↔ (name, collection) ∈ aliases := by
  simp only [target, Option.map_eq_some_iff]
  constructor
  · rintro ⟨⟨k, v⟩, hfind, rfl⟩
    have hk := List.find?_some hfind
    obtain rfl : k = name := by simpa using hk
    exact List.mem_of_find?_eq_some hfind
  · intro hmem
    cases hfind : aliases.items.find? fun x => x.1 = name with
    | none =>
      have := List.find?_eq_none.mp hfind _ hmem
      simp at this
    | some x =>
      have hk : x.1 = name := by simpa using List.find?_some hfind
      have := Keyed.eq_of_key (List.mem_of_find?_eq_some hfind) hmem hk
      exact ⟨x, rfl, by rw [this]⟩

theorem target_congr {aliases aliases' : AliasTable} {name : Text}
    (h : ∀ collection, (name, collection) ∈ aliases ↔ (name, collection) ∈ aliases') :
    target aliases name = target aliases' name := by
  ext collection
  rw [target_eq_some, target_eq_some, h]

/-! ## Names -/

theorem canonicalBuildId_ok {value : Text} {u : Uuid} :
    canonicalBuildId value = .ok u ↔ value = u.str ∧ u.isNil = false := by
  simp only [canonicalBuildId, bind_ok, orRaise_ok, ensure_ok, pure_ok, Uuid.ofCanonical_iff]
  constructor
  · rintro ⟨_, rfl, _, hnil, rfl⟩
    exact ⟨rfl, hnil⟩
  · rintro ⟨rfl, hnil⟩
    exact ⟨u, rfl, (), hnil, rfl⟩

/-- What `build_aliases` accepts, and the names it gives. -/
theorem buildAliases_ok {logical buildId : Text} {names : Text × Text} :
    buildAliases logical buildId = .ok names ↔ (∃ u, canonicalBuildId buildId = .ok u) ∧
      names = (logical ++ buildMark ++ buildId, logical ++ buildMark ++ buildId ++ completionsMark) := by
  simp only [buildAliases, bind_ok, pure_ok]
  constructor
  · rintro ⟨u, hu, rfl⟩
    exact ⟨⟨u, hu⟩, rfl⟩
  · rintro ⟨⟨u, hu⟩, rfl⟩
    exact ⟨u, hu, rfl⟩

theorem length_buildId {buildId : Text} {u : Uuid} (h : canonicalBuildId buildId = .ok u) :
    buildId.length = 36 := by
  rw [(canonicalBuildId_ok.mp h).1, Uuid.length_str]

/-- The alias itself and the names of two builds under it are all different. -/
theorem names_distinct (logical : Text) {i j : Text} {u v : Uuid} (hi : canonicalBuildId i = .ok u)
    (hj : canonicalBuildId j = .ok v) :
    logical ++ buildMark ++ i ≠ logical ∧ logical ++ buildMark ++ i ++ completionsMark ≠ logical ∧
      logical ++ buildMark ++ i ++ completionsMark ≠ logical ++ buildMark ++ j ∧
      (logical ++ buildMark ++ i = logical ++ buildMark ++ j → i = j) ∧
      (logical ++ buildMark ++ i ++ completionsMark = logical ++ buildMark ++ j ++ completionsMark →
        i = j) := by
  have hli := length_buildId hi
  have hlj := length_buildId hj
  have hmark : buildMark.length = 8 := rfl
  have hcomp : completionsMark.length = 13 := rfl
  refine ⟨?_, ?_, ?_, ?_, ?_⟩
  · intro h
    have := congrArg List.length h
    simp only [List.length_append] at this
    omega
  · intro h
    have := congrArg List.length h
    simp only [List.length_append] at this
    omega
  · intro h
    have := congrArg List.length h
    simp only [List.length_append] at this
    omega
  · exact fun h => List.append_cancel_left h
  · exact fun h => List.append_cancel_left (List.append_cancel_right h)

end MainframeRag.Ingest.Build
