import MainframeRag.Lib.PyText

/-!
# Source-revision identity

`source_rev_key` of `ingest/identity.py`: the key `vendor|product|version|sha256` of normalized and
escaped labels that chunk ids, stored points and completion records carry.
-/

namespace MainframeRag.Ingest

open PyText

def normalizeLabel (U : CharTables) : Option Text → Text
  | none => []
  | some value => (squeeze value).flatMap U.casefold

/-- `\` and then `|` behind a backslash. -/
def escapeLabel (label : Text) : Text :=
  label.flatMap (fun c => if c = '\\' ∨ c = '|' then ['\\', c] else [c])

def sourceRevKey (U : CharTables) (vendor product version : Option Text) (sha256 : Text) : Text :=
  let label := fun x => escapeLabel (normalizeLabel U x)
  List.intercalate ['|'] [label vendor, label product, label version, sha256]

theorem last_segment {x y a b : Text} (ha : '|' ∉ a) (hb : '|' ∉ b)
    (h : x ++ '|' :: a = y ++ '|' :: b) : a = b := by
  have hseg : ∀ {z c : Text}, '|' ∉ c →
      ((z ++ '|' :: c).reverse.takeWhile (· ≠ '|')).reverse = c := by
    intro z c hc
    rw [List.reverse_append, List.reverse_cons, List.append_assoc, List.takeWhile_append_of_pos]
    · simp
    · intro k hk
      have : k ≠ '|' := fun e => hc (e ▸ List.mem_reverse.mp hk)
      simpa using this
  rw [← hseg ha, h, hseg hb]

/-- Revisions of different contents differ: a hash holds no delimiter. -/
theorem sourceRevKey_sha256 {U : CharTables} {vendor product version vendor' product' version' :
    Option Text} {sha256 sha256' : Text} (h : '|' ∉ sha256) (h' : '|' ∉ sha256')
    (he : sourceRevKey U vendor product version sha256 =
      sourceRevKey U vendor' product' version' sha256') : sha256 = sha256' := by
  simp only [sourceRevKey, List.intercalate, List.intersperse, List.flatten_cons,
    List.flatten_nil, List.append_nil] at he
  simp only [← List.append_assoc] at he
  simp only [List.append_assoc _ ['|'] sha256, List.append_assoc _ ['|'] sha256',
    List.singleton_append] at he
  exact last_segment h h' he

end MainframeRag.Ingest
