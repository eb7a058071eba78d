import MainframeRag.Lib.FloatOps
import Mathlib.Data.List.Sort

/-!
# Bootstrap intervals

`eval/statistics.py`: the seeded percentile bootstrap of a mean, and of a mean of paired differences.
`none` is an exception.
-/

namespace MainframeRag.Eval

variable {K R : Type}

/-- `random.Random`: a generator, and `randrange(n + 1)`. -/
structure Random (R : Type) where
  seed : Int → R
  randrange : (n : Nat) → R → Fin (n + 1) × R

variable (A : FloatOps K) (G : Random R)

/-- `_percentile` -/
def percentile (sortedValues : List K) (q : K) : Option K :=
  match sortedValues with
  | [] => none
  | [x] => some x
  | _ =>
    let last : Int := sortedValues.length - 1
    let pos := A.mul (A.div q (A.ofInt 100)) (A.ofInt last)
    let lo := A.trunc pos
    let hi := min (lo + 1) last
    let frac := A.sub pos (A.ofInt lo)
    do
      let x ← sortedValues[lo.toNat]?
      let y ← sortedValues[hi.toNat]?
      some (A.add (A.mul x (A.sub (A.ofInt 1) frac)) (A.mul y frac))

/-- The values of one resample. -/
def resample (v : K) (rest : List K) : Nat → R → List K × R
  | 0, g => ([], g)
  | k + 1, g =>
    let (i, g) := G.randrange rest.length g
    let (drawn, g) := resample v rest k g
    ((v :: rest).get i :: drawn, g)

/-- The means of the resamples. -/
def resampleMeans (v : K) (rest : List K) : Nat → R → List K
  | 0, _ => []
  | k + 1, g =>
    let (drawn, g) := resample G v rest (rest.length + 1) g
    A.div (A.sum drawn) (A.ofInt (rest.length + 1)) :: resampleMeans v rest k g

/-- `_bootstrap_mean` -/
def bootstrapMean (values : List K) (resamples : Nat) (seed : Int) (alpha : K) : Option (K × K) :=
  match values with
  | [] => none
  | v :: rest =>
    let stats := (resampleMeans A G v rest resamples (G.seed seed)).mergeSort fun a b => !A.lt b a
    let half := A.div alpha (A.ofInt 2)
    do
      let lo ← percentile A stats (A.mul (A.ofInt 100) half)
      let hi ← percentile A stats (A.mul (A.ofInt 100) (A.sub (A.ofInt 1) half))
      some (lo, hi)

/-- `DEFAULT_ALPHA` -/
def defaultAlpha : K := A.ofDecimal 5 2

/-- `ci95_paired`: an interval, or `None` where there are no pairs. -/
def ci95Paired (pairs : List (K × K)) (resamples : Nat) (seed : Int) : Option (Option (K × K)) :=
  if pairs = [] then some none
  else (bootstrapMean A G (pairs.map fun p => A.sub p.1 p.2) resamples seed (defaultAlpha A)).map some

/-- `ci_excludes_zero` -/
def ciExcludesZero (ci : K × K) (improvement : Bool) : Bool :=
  if improvement then A.lt A.zero ci.1 else A.lt ci.2 A.zero

end MainframeRag.Eval
