import MainframeRag.Lib.Fallible
import MainframeRag.Lib.Rounding
import Mathlib.Algebra.BigOperators.Group.List.Basic
import Mathlib.Tactic.Positivity
import Mathlib.Tactic.Ring
import Mathlib.Tactic.NormNum

/-!
# Serving budgets

Sizes the servers of a host from declared facts: each takes its memory from what the servers before
it left (`resolve`), in exact arithmetic. `resolve_fits_iff` says when the emitted plan keeps what
the checks promise: a declared limit is checked before it is rounded.
-/

namespace MainframeRag.Serve.Budget

open Rounding

def mib : ℚ := 1024 * 1024

def defaultReserveMib : ℚ := 256

def compiledMarginFloorMib : ℚ := 2000

def compiledMarginWeightFraction : ℚ := 5 / 100

def eagerGenerateMarginMib : ℚ := 400

def poolingEagerMarginMib : ℚ := 1500

def utilQuantum : ℚ := 1 / 100

def maxUtil : ℚ := 99 / 100

/-! ## Declared facts and plans -/

inductive Role where
  | reasoning
  | embed
  | rerank
  deriving DecidableEq

inductive Runner where
  | generate
  | pooling
  deriving DecidableEq

inductive Convert where
  | none
  | embed
  deriving DecidableEq

/-- Declared serving facts of one model. -/
structure ModelSpec where
  modelId : String
  role : Role
  runner : Runner
  convert : Convert := .none
  weightMib : ℚ
  /-- 0 for pooling models, which hold no cache -/
  kvBytesPerToken : ℚ
  contextNeed : ℕ
  maxNumSeqs : ℕ := 1
  compiledMarginMib : Option ℚ := none
  prefixCache : Bool := false
  enforceEager : Bool := false
  chunkedPrefill : Option Bool := none
  languageModelOnly : Bool := false
  mmProcessorCacheGb : Option ℚ := none
  gpuMemoryUtilization : Option ℚ := none
  hostMemMb : Option ℕ := none
  weight_pos : 0 < weightMib
  kv_nonneg : 0 ≤ kvBytesPerToken
  context_bounds : 0 < contextNeed ∧ contextNeed ≤ 131072
  seqs_pos : 1 ≤ maxNumSeqs
  margin_nonneg : ∀ m ∈ compiledMarginMib, 0 ≤ m
  cache_nonneg : ∀ c ∈ mmProcessorCacheGb, 0 ≤ c
  limit_bounds : ∀ u ∈ gpuMemoryUtilization, 0 < u ∧ u ≤ maxUtil
  hostMem_pos : ∀ m ∈ hostMemMb, 0 < m

structure HostSpec where
  totalVramMib : ℚ
  reserveMib : ℚ := defaultReserveMib
  total_pos : 0 < totalVramMib
  reserve_nonneg : 0 ≤ reserveMib

/-- Launch arguments of one server. -/
structure ServerPlan where
  modelId : String
  role : Role
  runner : Runner
  convert : Convert
  gpuMemoryUtilization : ℚ
  maxModelLen : ℕ
  maxNumBatchedTokens : Option ℕ
  maxNumSeqs : ℕ
  enforceEager : Bool
  enablePrefixCaching : Bool
  enableChunkedPrefill : Option Bool
  languageModelOnly : Bool
  mmProcessorCacheGb : Option ℚ
  footprintMib : ℚ
  hostMemMb : Option ℕ
  notes : List String
  util_bounds : 0 < gpuMemoryUtilization ∧ gpuMemoryUtilization ≤ 1
  window_pos : 0 < maxModelLen
  batched_pos : ∀ n ∈ maxNumBatchedTokens, 0 < n
  seqs_pos : 1 ≤ maxNumSeqs
  cache_nonneg : ∀ c ∈ mmProcessorCacheGb, 0 ≤ c
  footprint_pos : 0 < footprintMib
  hostMem_pos : ∀ m ∈ hostMemMb, 0 < m

/-- A host and its servers, in the order they claim memory. -/
structure ProfileBundle where
  name : String
  host : HostSpec
  servers : List ModelSpec
  servers_ne : servers ≠ []

structure DeploymentPlan where
  profileName : String
  hostTotalVramMib : ℚ
  reserveMib : ℚ
  servers : List ServerPlan
  warnings : List String
  servers_ne : servers ≠ []

namespace DeploymentPlan

def totalFootprintMib (plan : DeploymentPlan) : ℚ := (plan.servers.map (·.footprintMib)).sum

def slackMib (plan : DeploymentPlan) : ℚ :=
  plan.hostTotalVramMib - plan.reserveMib - plan.totalFootprintMib

end DeploymentPlan

/-- What `resolve` raises. -/
inductive Refusal where
  | budgetDeficit (message : String) (remedies : List String)
  /-- a field of a plan fails its check -/
  | invalid (field : String)
  deriving DecidableEq

/-! ## Sizing -/

/-- `{x:.0f}` of a number that is not negative. -/
def whole (x : ℚ) : String := toString (halfEven x)

/-- `{x:.2f}` of a number that is not negative. -/
def hundredths (x : ℚ) : String :=
  let n := halfEven (x * 100)
  toString (n / 100) ++ "." ++ toString (n / 10 % 10) ++ toString (n % 10)

/-- `round(x, 2)` -/
def round2 (x : ℚ) : ℚ := onGrid 100 x

def compiledMargin (spec : ModelSpec) : ℚ :=
  spec.compiledMarginMib.getD
    (max compiledMarginFloorMib (compiledMarginWeightFraction * spec.weightMib))

def ceilUtil (footprintMib totalMib : ℚ) : ℚ :=
  ⌈footprintMib / totalMib / utilQuantum⌉ * utilQuantum

def remedies (spec : ModelSpec) (host : HostSpec) (reason : String) : List String :=
  [reason ++ " for " ++ spec.modelId ++ " on a " ++ whole host.totalVramMib ++ " MiB host.",
    "Use a larger host (raise total_vram_mib) or serve fewer models on this host.",
    "Lower context_need (" ++ toString spec.contextNeed ++ ") for " ++ spec.modelId ++ ".",
    "For generate runners, an eager fallback is tried automatically; " ++
      "if this deficit names a pooling runner, eager is already assumed."]

def kvPoolMib (spec : ModelSpec) : ℚ := spec.kvBytesPerToken * spec.contextNeed / mib

def compiledFootprint (spec : ModelSpec) : ℚ :=
  spec.weightMib + kvPoolMib spec + compiledMargin spec

def eagerFootprint (spec : ModelSpec) : ℚ :=
  spec.weightMib + kvPoolMib spec + eagerGenerateMarginMib

/-- How a server runs, and the workspace over its weights and its cache. -/
structure Mode where
  eager : Bool
  margin : ℚ
  batched : Option ℕ
  notes : List String
  warnings : List String
  batched_pos : ∀ n ∈ batched, 0 < n

def fallbackNote (spec : ModelSpec) : String :=
  if spec.enforceEager then "Eager execution explicitly requested by profile."
  else spec.modelId ++ ": compiled workspace does not fit (" ++ whole (compiledFootprint spec) ++
    " MiB); falling back to --enforce-eager. Expect lower decode throughput."

/-- The branches on the runner. -/
def chooseMode (host : HostSpec) (free : ℚ) (spec : ModelSpec) : Except Refusal Mode :=
  match spec.runner with
  | .pooling =>
    .ok ⟨true, poolingEagerMarginMib, some spec.contextNeed, [], [], by simp [spec.context_bounds.1]⟩
  | .generate =>
    if compiledFootprint spec ≤ free ∧ spec.enforceEager = false then
      .ok ⟨false, compiledMargin spec, none, [], [], by simp⟩
    else if free < eagerFootprint spec then
      .error (.budgetDeficit ("Deficit: " ++ spec.modelId ++ " needs " ++
        whole (eagerFootprint spec) ++ " MiB even eager, " ++ whole free ++ " MiB free.")
        (remedies spec host "Deficit"))
    else
      .ok ⟨true, eagerGenerateMarginMib, none, [fallbackNote spec],
        if spec.enforceEager then [] else [fallbackNote spec], by simp⟩

def limitNote : String :=
  "Explicit GPU allocation limit; resident fit requires a measured workload."

/-- The utilization before it is rounded, with its notes. -/
def utilization (host : HostSpec) (spec : ModelSpec) (footprint : ℚ) :
    Except Refusal (ℚ × List String) :=
  match spec.gpuMemoryUtilization with
  | none => .ok (ceilUtil footprint host.totalVramMib, [])
  | some limit =>
    if limit * host.totalVramMib < footprint then
      .error (.budgetDeficit ("Declared GPU allocation for " ++ spec.modelId ++
        " is below its estimated footprint.")
        ["Raise the declared allocation or use a larger host."])
    else .ok (limit, [limitNote])

/-- `ServerPlan(...)`: the rounded utilization and the footprint are the fields that can fail. -/
def serverPlan (spec : ModelSpec) (mode : Mode) (footprint util : ℚ) (notes : List String) :
    Except Refusal ServerPlan :=
  if hutil : 0 < round2 util ∧ round2 util ≤ 1 then
    if hfoot : 0 < footprint then
      .ok {
        modelId := spec.modelId
        role := spec.role
        runner := spec.runner
        convert := spec.convert
        gpuMemoryUtilization := round2 util
        maxModelLen := spec.contextNeed
        maxNumBatchedTokens := mode.batched
        maxNumSeqs := spec.maxNumSeqs
        enforceEager := mode.eager
        enablePrefixCaching := spec.prefixCache
        enableChunkedPrefill := spec.chunkedPrefill
        languageModelOnly := spec.languageModelOnly
        mmProcessorCacheGb := spec.mmProcessorCacheGb
        footprintMib := footprint
        hostMemMb := spec.hostMemMb
        notes := notes
        util_bounds := hutil
        window_pos := spec.context_bounds.1
        batched_pos := mode.batched_pos
        seqs_pos := spec.seqs_pos
        cache_nonneg := spec.cache_nonneg
        footprint_pos := hfoot
        hostMem_pos := spec.hostMem_pos }
    else .error (.invalid "footprint_mib")
  else .error (.invalid "gpu_memory_utilization")

/-- One server, from what is free. -/
def place (host : HostSpec) (free : ℚ) (spec : ModelSpec) :
    Except Refusal (ServerPlan × List String) := do
  let mode ← chooseMode host free spec
  let footprint := spec.weightMib + kvPoolMib spec + mode.margin
  Fallible.ensure (footprint ≤ free)
    (.budgetDeficit ("Deficit: " ++ spec.modelId ++ " needs " ++ whole footprint ++ " MiB, " ++
      whole free ++ " MiB free.") (remedies spec host "Deficit"))
  let (util, notes) ← utilization host spec footprint
  Fallible.ensure (util ≤ maxUtil)
    (.budgetDeficit ("Deficit: " ++ spec.modelId ++ " alone claims " ++ hundredths util ++
      " of the host.") (remedies spec host "Over-concentration"))
  let plan ← serverPlan spec mode footprint util (mode.notes ++ notes)
  return (plan, mode.warnings)

/-- The loop over the servers. -/
def placeAll (host : HostSpec) :
    ℚ → List ModelSpec → Except Refusal (List ServerPlan × List String)
  | _, [] => .ok ([], [])
  | free, spec :: specs => do
    let (plan, warnings) ← place host free spec
    let (plans, more) ← placeAll host (free - plan.footprintMib) specs
    return (plan :: plans, warnings ++ more)

def resolve (profile : ProfileBundle) : Except Refusal DeploymentPlan :=
  let host := profile.host
  let free := host.totalVramMib - host.reserveMib
  if free ≤ 0 then
    .error (.budgetDeficit ("Host " ++ whole host.totalVramMib ++
      " MiB leaves no VRAM after the " ++ whole host.reserveMib ++ " MiB reserve.")
      ["Raise total_vram_mib or lower reserve_mib.", "Serve fewer models on this host."])
  else do
    let (plans, warnings) ← placeAll host free profile.servers
    if h : plans ≠ [] then
      return {
        profileName := profile.name
        hostTotalVramMib := host.totalVramMib
        reserveMib := host.reserveMib
        servers := plans
        warnings := warnings
        servers_ne := h }
    else .error (.invalid "servers")

/-! ## One server -/

/-- The memory a server takes of what is free. -/
def demand (free : ℚ) (spec : ModelSpec) : ℚ :=
  match spec.runner with
  | .pooling => spec.weightMib + kvPoolMib spec + poolingEagerMarginMib
  | .generate =>
    if compiledFootprint spec ≤ free ∧ spec.enforceEager = false then compiledFootprint spec
    else eagerFootprint spec

/-- The utilization a server is given before it is rounded. -/
def given (host : HostSpec) (spec : ModelSpec) (footprint : ℚ) : ℚ :=
  spec.gpuMemoryUtilization.getD (ceilUtil footprint host.totalVramMib)

/-- What an accepted server has of its declared facts and of what was free. -/
structure Placed (host : HostSpec) (free : ℚ) (spec : ModelSpec) (plan : ServerPlan) : Prop where
  footprint : plan.footprintMib = demand free spec
  fits : plan.footprintMib ≤ free
  mode : spec.runner = .generate →
    (plan.enforceEager = false ↔ spec.enforceEager = false ∧ compiledFootprint spec ≤ free)
  util : plan.gpuMemoryUtilization = round2 (given host spec plan.footprintMib)
  capped : given host spec plan.footprintMib ≤ maxUtil
  declared : ∀ limit ∈ spec.gpuMemoryUtilization,
    plan.footprintMib ≤ limit * host.totalVramMib

theorem ceilUtil_covers (footprint : ℚ) {total : ℚ} (h : 0 < total) :
    footprint ≤ ceilUtil footprint total * total := by
  have hq : (0 : ℚ) < utilQuantum := by norm_num [utilQuantum]
  have hceil := Int.le_ceil (footprint / total / utilQuantum)
  rw [div_le_iff₀ hq, div_le_iff₀ h] at hceil
  exact hceil

theorem ceilUtil_tight (footprint : ℚ) {total : ℚ} (h : 0 < total) :
    ceilUtil footprint total * total < footprint + utilQuantum * total := by
  have hq : (0 : ℚ) < utilQuantum := by norm_num [utilQuantum]
  have hceil := Int.ceil_lt_add_one (footprint / total / utilQuantum)
  have hmul := mul_lt_mul_of_pos_right hceil (mul_pos hq h)
  have hback : (footprint / total / utilQuantum + 1) * (utilQuantum * total) =
      footprint + utilQuantum * total := by
    field_simp
  rw [hback, ← mul_assoc] at hmul
  exact hmul

/-- A utilization in whole quanta is emitted as it is. -/
theorem round2_quanta (n : ℤ) : round2 (n * utilQuantum) = n * utilQuantum := by
  have h := onGrid_point (K := ℚ) 100 (by decide) n
  have hn : (n : ℚ) * utilQuantum = n / (100 : ℕ) := by
    rw [utilQuantum, mul_one_div]
    rfl
  rw [round2, hn, h]

theorem round2_mono : Monotone round2 := onGrid_mono (by decide)

theorem round2_maxUtil : round2 maxUtil = maxUtil := by
  decide +kernel

theorem chooseMode_ok {host : HostSpec} {free : ℚ} {spec : ModelSpec} {mode : Mode}
    (h : chooseMode host free spec = .ok mode) :
    spec.weightMib + kvPoolMib spec + mode.margin = demand free spec ∧
      (spec.runner = .generate →
        (mode.eager = false ↔ spec.enforceEager = false ∧ compiledFootprint spec ≤ free)) := by
  unfold chooseMode at h
  unfold demand
  cases hr : spec.runner with
  | pooling =>
    rw [hr] at h
    cases h
    exact ⟨rfl, by intro hg; cases hg⟩
  | generate =>
    simp only [hr] at h
    split at h
    · next hc =>
      cases h
      exact ⟨(if_pos hc).symm, fun _ => iff_of_true rfl hc.symm⟩
    · next hc =>
      split at h
      · cases h
      · cases h
        exact ⟨(if_neg hc).symm, fun _ => iff_of_false (by intro he; cases he) fun hs => hc hs.symm⟩

theorem utilization_ok {host : HostSpec} {spec : ModelSpec} {footprint util : ℚ}
    {notes : List String} (h : utilization host spec footprint = .ok (util, notes)) :
    util = given host spec footprint ∧
      ∀ limit ∈ spec.gpuMemoryUtilization, footprint ≤ limit * host.totalVramMib := by
  unfold utilization at h
  unfold given
  cases hg : spec.gpuMemoryUtilization with
  | none =>
    rw [hg] at h
    cases h
    exact ⟨rfl, by intro l hl; cases hl⟩
  | some limit =>
    simp only [hg] at h
    split at h
    · cases h
    · next hlow =>
      cases h
      refine ⟨rfl, fun l hl => ?_⟩
      cases hl
      exact not_lt.mp hlow

theorem serverPlan_ok {spec : ModelSpec} {mode : Mode} {footprint util : ℚ} {notes : List String}
    {plan : ServerPlan} (h : serverPlan spec mode footprint util notes = .ok plan) :
    plan.footprintMib = footprint ∧ plan.gpuMemoryUtilization = round2 util ∧
      plan.enforceEager = mode.eager := by
  unfold serverPlan at h
  split at h
  · split at h
    · cases h
      exact ⟨rfl, rfl, rfl⟩
    · cases h
  · cases h

theorem place_ok {host : HostSpec} {free : ℚ} {spec : ModelSpec} {plan : ServerPlan}
    {warnings : List String} (h : place host free spec = .ok (plan, warnings)) :
    Placed host free spec plan := by
  obtain ⟨mode, hmode, h⟩ := Fallible.bind_ok.mp h
  obtain ⟨_, hfits, h⟩ := Fallible.bind_ok.mp h
  obtain ⟨⟨util, notes⟩, hutil, h⟩ := Fallible.bind_ok.mp h
  obtain ⟨_, hcap, h⟩ := Fallible.bind_ok.mp h
  obtain ⟨made, hplan, h⟩ := Fallible.bind_ok.mp h
  obtain ⟨rfl, -⟩ : made = plan ∧ mode.warnings = warnings := by simpa using h
  obtain ⟨hdemand, heager⟩ := chooseMode_ok hmode
  obtain ⟨rfl, hdeclared⟩ := utilization_ok hutil
  obtain ⟨hfoot, hround, hrun⟩ := serverPlan_ok hplan
  refine ⟨by rw [hfoot, hdemand], ?_, ?_, ?_, ?_, ?_⟩
  · rw [hfoot]
    exact Fallible.ensure_ok.mp hfits
  · rw [hrun]
    exact heager
  · rw [hfoot]
    exact hround
  · rw [hfoot]
    exact Fallible.ensure_ok.mp hcap
  · rw [hfoot]
    exact hdeclared

namespace Placed

variable {host : HostSpec} {free : ℚ} {spec : ModelSpec} {plan : ServerPlan}

/-- What is emitted without a declared limit is what was computed. -/
theorem util_of_none (h : Placed host free spec plan) (hn : spec.gpuMemoryUtilization = none) :
    plan.gpuMemoryUtilization = ceilUtil plan.footprintMib host.totalVramMib := by
  rw [h.util, given, hn, Option.getD_none, ceilUtil, round2_quanta]

theorem util_le (h : Placed host free spec plan) : plan.gpuMemoryUtilization ≤ maxUtil := by
  rw [h.util, ← round2_maxUtil]
  exact round2_mono h.capped

theorem tight (h : Placed host free spec plan) (hn : spec.gpuMemoryUtilization = none) :
    plan.gpuMemoryUtilization * host.totalVramMib <
      plan.footprintMib + utilQuantum * host.totalVramMib := by
  rw [h.util_of_none hn]
  exact ceilUtil_tight _ host.total_pos

/-- A footprint is covered unless its declared limit is rounded down under it. -/
theorem covers_iff (h : Placed host free spec plan) :
    plan.footprintMib ≤ plan.gpuMemoryUtilization * host.totalVramMib ↔
      ∀ limit ∈ spec.gpuMemoryUtilization,
        limit ≤ round2 limit ∨ demand free spec ≤ round2 limit * host.totalVramMib := by
  cases hg : spec.gpuMemoryUtilization with
  | none =>
    rw [h.util_of_none hg]
    exact iff_of_true (ceilUtil_covers _ host.total_pos) (by intro l hl; cases hl)
  | some limit =>
    have hutil : plan.gpuMemoryUtilization = round2 limit := by
      rw [h.util, given, hg, Option.getD_some]
    have hchecked := h.declared limit hg
    rw [hutil]
    constructor
    · intro hcov l hl
      cases hl
      exact .inr (h.footprint ▸ hcov)
    · intro hl
      rcases hl limit rfl with hup | hcov
      · exact hchecked.trans (mul_le_mul_of_nonneg_right hup host.total_pos.le)
      · exact h.footprint ▸ hcov

end Placed

/-! ## A whole profile -/

/-- Servers placed one after the other, each from what is left. -/
inductive Run (host : HostSpec) : ℚ → List ModelSpec → List ServerPlan → Prop where
  | done (free : ℚ) : Run host free [] []
  | seat {free : ℚ} {spec : ModelSpec} {plan : ServerPlan} {specs : List ModelSpec}
      {plans : List ServerPlan} (placed : Placed host free spec plan)
      (rest : Run host (free - plan.footprintMib) specs plans) :
      Run host free (spec :: specs) (plan :: plans)

theorem placeAll_run {host : HostSpec} {free : ℚ} {specs : List ModelSpec}
    {plans : List ServerPlan} {warnings : List String}
    (h : placeAll host free specs = .ok (plans, warnings)) : Run host free specs plans := by
  induction specs generalizing free plans warnings with
  | nil =>
    cases h
    exact .done free
  | cons spec specs ih =>
    obtain ⟨⟨plan, ws⟩, hplan, h⟩ := Fallible.bind_ok.mp h
    obtain ⟨⟨rest, more⟩, hrest, h⟩ := Fallible.bind_ok.mp h
    obtain ⟨rfl, -⟩ : plan :: rest = plans ∧ ws ++ more = warnings := by simpa using h
    exact .seat (place_ok hplan) (ih hrest)

/-- The memory that servers take together. -/
def taken (plans : List ServerPlan) : ℚ := (plans.map (·.footprintMib)).sum

/-- What servers leave, from their declared facts. -/
def left (free : ℚ) (specs : List ModelSpec) : ℚ :=
  specs.foldl (fun free spec => free - demand free spec) free

namespace Run

variable {host : HostSpec} {free : ℚ} {specs : List ModelSpec} {plans : List ServerPlan}

theorem length_eq (h : Run host free specs plans) : plans.length = specs.length := by
  induction h with
  | done free => rfl
  | seat placed rest ih => simp [ih]

theorem taken_le (h : Run host free specs plans) (hfree : 0 ≤ free) : taken plans ≤ free := by
  induction h with
  | done free => exact hfree
  | seat placed rest ih =>
    have hrest := ih (sub_nonneg.mpr placed.fits)
    simp only [taken, List.map_cons, List.sum_cons] at hrest ⊢
    linarith

/-- A server finds what the servers before it left, the same from the plans and from the facts. -/
theorem placed (h : Run host free specs plans) {i : ℕ} {spec : ModelSpec} {plan : ServerPlan}
    (hs : specs[i]? = some spec) (hp : plans[i]? = some plan) :
    Placed host (free - taken (plans.take i)) spec plan ∧
      left free (specs.take i) = free - taken (plans.take i) := by
  induction h generalizing i with
  | done free => cases hs
  | @seat free spec₀ plan₀ specs plans placed rest ih =>
    cases i with
    | zero =>
      cases hs
      cases hp
      simpa [taken, left] using placed
    | succ i =>
      obtain ⟨hplaced, hleft⟩ := ih hs hp
      have htaken : free - taken ((plan₀ :: plans).take (i + 1)) =
          free - plan₀.footprintMib - taken (plans.take i) := by
        simp only [taken, List.take_succ_cons, List.map_cons, List.sum_cons]
        ring
      rw [htaken]
      refine ⟨hplaced, ?_⟩
      rw [← hleft, List.take_succ_cons, left, List.foldl_cons, ← placed.footprint]
      rfl

end Run

theorem resolve_run {profile : ProfileBundle} {plan : DeploymentPlan}
    (h : resolve profile = .ok plan) :
    0 < profile.host.totalVramMib - profile.host.reserveMib ∧
      Run profile.host (profile.host.totalVramMib - profile.host.reserveMib) profile.servers
        plan.servers := by
  simp only [resolve] at h
  split at h
  · cases h
  · next hfree =>
    obtain ⟨⟨plans, warnings⟩, hplans, h⟩ := Fallible.bind_ok.mp h
    dsimp only at h
    split at h
    · rw [← Fallible.pure_ok.mp h]
      exact ⟨not_le.mp hfree, placeAll_run hplans⟩
    · cases h

/-- An accepted plan fits its host. -/
structure Fits (profile : ProfileBundle) (plan : DeploymentPlan) : Prop where
  each : plan.servers.length = profile.servers.length
  total : plan.totalFootprintMib + profile.host.reserveMib ≤ profile.host.totalVramMib
  covers : ∀ s ∈ plan.servers, s.footprintMib ≤ s.gpuMemoryUtilization * profile.host.totalVramMib
  capped : ∀ s ∈ plan.servers,
    s.gpuMemoryUtilization * profile.host.totalVramMib ≤ maxUtil * profile.host.totalVramMib
  tight : ∀ (i : ℕ) (spec : ModelSpec) (s : ServerPlan),
    profile.servers[i]? = some spec → plan.servers[i]? = some s →
    spec.gpuMemoryUtilization = none →
      s.gpuMemoryUtilization * profile.host.totalVramMib <
        s.footprintMib + utilQuantum * profile.host.totalVramMib
  mode : ∀ (i : ℕ) (spec : ModelSpec) (s : ServerPlan),
    profile.servers[i]? = some spec → plan.servers[i]? = some s →
    spec.runner = .generate →
      (s.enforceEager = false ↔ spec.enforceEager = false ∧ compiledFootprint spec ≤
        profile.host.totalVramMib - profile.host.reserveMib - taken (plan.servers.take i))

/-- Every declared limit that is rounded down still covers what its server takes. -/
def LimitsHold (profile : ProfileBundle) : Prop :=
  ∀ (i : ℕ) (spec : ModelSpec), profile.servers[i]? = some spec → ∀ limit ∈ spec.gpuMemoryUtilization,
    limit ≤ round2 limit ∨
      demand (left (profile.host.totalVramMib - profile.host.reserveMib) (profile.servers.take i))
        spec ≤ round2 limit * profile.host.totalVramMib

/-- An accepted plan fits exactly when no declared limit is rounded down under its server. -/
theorem resolve_fits_iff {profile : ProfileBundle} {plan : DeploymentPlan}
    (h : resolve profile = .ok plan) : Fits profile plan ↔ LimitsHold profile := by
  obtain ⟨hfree, hrun⟩ := resolve_run h
  have hpair : ∀ i, i < plan.servers.length →
      ∃ spec s, profile.servers[i]? = some spec ∧ plan.servers[i]? = some s := fun i hi =>
    ⟨_, _, List.getElem?_eq_getElem (hrun.length_eq ▸ hi), List.getElem?_eq_getElem hi⟩
  constructor
  · intro hfits i spec hspec
    have hi : i < plan.servers.length := by
      rw [hrun.length_eq]
      exact (List.getElem?_eq_some_iff.mp hspec).1
    obtain ⟨-, s, -, hs⟩ := hpair i hi
    obtain ⟨hplaced, hleft⟩ := hrun.placed hspec hs
    rw [hleft]
    exact hplaced.covers_iff.mp (hfits.covers s (List.mem_of_getElem? hs))
  · intro hlimits
    refine ⟨hrun.length_eq, ?_, fun s hs => ?_, fun s hs => ?_, fun i spec s hspec hs => ?_,
      fun i spec s hspec hs => ?_⟩
    · have htaken := hrun.taken_le hfree.le
      simp only [taken] at htaken
      simp only [DeploymentPlan.totalFootprintMib]
      linarith
    · obtain ⟨i, hi, rfl⟩ := List.getElem_of_mem hs
      obtain ⟨spec, -, hspec, -⟩ := hpair i hi
      obtain ⟨hplaced, hleft⟩ := hrun.placed hspec (List.getElem?_eq_getElem hi)
      exact hplaced.covers_iff.mpr (hleft ▸ hlimits i spec hspec)
    · obtain ⟨i, hi, rfl⟩ := List.getElem_of_mem hs
      obtain ⟨spec, -, hspec, -⟩ := hpair i hi
      exact mul_le_mul_of_nonneg_right (hrun.placed hspec (List.getElem?_eq_getElem hi)).1.util_le
        profile.host.total_pos.le
    · exact (hrun.placed hspec hs).1.tight
    · exact (hrun.placed hspec hs).1.mode

/-- Limits declared in whole quanta are emitted as they are. -/
theorem limitsHold_of_quanta {profile : ProfileBundle}
    (h : ∀ spec ∈ profile.servers, ∀ limit ∈ spec.gpuMemoryUtilization,
      ∃ n : ℤ, limit = n * utilQuantum) : LimitsHold profile := by
  intro i spec hspec limit hlimit
  obtain ⟨n, rfl⟩ := h spec (List.mem_of_getElem? hspec) limit hlimit
  exact .inl (round2_quanta n).ge

/-! ## A profile for one server -/

def pooled (limit : Option ℚ) (h : ∀ u ∈ limit, 0 < u ∧ u ≤ maxUtil) : ModelSpec where
  modelId := "embedder"
  role := .embed
  runner := .pooling
  convert := .embed
  weightMib := 1830
  kvBytesPerToken := 0
  contextNeed := 4096
  gpuMemoryUtilization := limit
  weight_pos := by decide +kernel
  kv_nonneg := by decide +kernel
  context_bounds := by decide
  seqs_pos := by decide
  margin_nonneg := by simp
  cache_nonneg := by simp
  limit_bounds := h
  hostMem_pos := by simp

def single (limit : Option ℚ) (h : ∀ u ∈ limit, 0 < u ∧ u ≤ maxUtil) : ProfileBundle where
  name := "SINGLE"
  host := { totalVramMib := 10000, total_pos := by decide +kernel,
            reserve_nonneg := by decide +kernel }
  servers := [pooled limit h]
  servers_ne := by simp

/-- The accepted utilizations with the footprints. -/
def emitted (profile : ProfileBundle) : Option (List (ℚ × ℚ)) :=
  match resolve profile with
  | .ok plan => some (plan.servers.map fun s => (s.gpuMemoryUtilization, s.footprintMib))
  | .error _ => none

theorem emitted_some (profile : ProfileBundle) (pairs : List (ℚ × ℚ))
    (h : emitted profile = some pairs) :
    ∃ plan, resolve profile = .ok plan ∧
      plan.servers.map (fun s => (s.gpuMemoryUtilization, s.footprintMib)) = pairs := by
  unfold emitted at h
  split at h
  · next plan hplan =>
    cases h
    exact ⟨plan, hplan, rfl⟩
  · cases h

/-- A limit of 333 thousandths covers the server, the 33 hundredths that are emitted do not. -/
theorem rounded_under :
    ¬ ∀ (profile : ProfileBundle) (plan : DeploymentPlan),
      resolve profile = .ok plan → Fits profile plan := by
  intro hall
  obtain ⟨plan, hplan, hpairs⟩ := emitted_some
    (single (some (333 / 1000)) (by decide +kernel)) [(33 / 100, 3330)] (by decide +kernel)
  obtain ⟨s, hs, hpair⟩ := List.exists_of_mem_map
    (hpairs ▸ List.mem_singleton_self (((33 / 100 : ℚ), (3330 : ℚ))))
  have hcov := (hall _ _ hplan).covers s hs
  rw [(Prod.mk.inj hpair).1, (Prod.mk.inj hpair).2] at hcov
  exact absurd hcov (by decide +kernel)

theorem resolve_fits_iff_single :
    ∃ plan, resolve (single (some (335 / 1000)) (by decide +kernel)) = .ok plan ∧
      (Fits (single (some (335 / 1000)) (by decide +kernel)) plan ↔
        LimitsHold (single (some (335 / 1000)) (by decide +kernel))) := by
  obtain ⟨plan, hplan, -⟩ := emitted_some
    (single (some (335 / 1000)) (by decide +kernel)) [(34 / 100, 3330)] (by decide +kernel)
  exact ⟨plan, hplan, resolve_fits_iff hplan⟩

end MainframeRag.Serve.Budget
