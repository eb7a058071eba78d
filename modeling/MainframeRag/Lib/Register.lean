import Mathlib

/-!
# Newest-wins registers

A register holds one row or none, and a row that is written replaces an older one only. Two different
rows of one time clash. Without a clash the order of two writes does not matter (`write_comm`), and a
row that was written once changes nothing when it is written again (`write_again`).
-/

namespace MainframeRag.Register

variable {ρ τ : Type} [LinearOrder τ] (time : ρ → τ)

def write (o : Option ρ) (r : ρ) : Option ρ :=
  match o with
  | none => some r
  | some w => if time w < time r then some r else some w

/-- Another row of the same time is there. -/
def Clash (o : Option ρ) (r : ρ) : Prop := ∃ w, o = some w ∧ time w = time r ∧ w ≠ r

variable {time}

theorem write_none (r : ρ) : write time none r = some r := rfl

theorem write_newer {w r : ρ} (h : time w < time r) : write time (some w) r = some r := if_pos h

theorem write_older {w r : ρ} (h : time r ≤ time w) : write time (some w) r = some w :=
  if_neg (not_lt.mpr h)

omit [LinearOrder τ] in
theorem eq_of_no_clash {w r : ρ} (h : ¬ Clash time (some w) r) (ht : time w = time r) : w = r := by
  by_contra hne
  exact h ⟨w, rfl, ht, hne⟩

/-- The row is there, or a newer one. -/
theorem le_write (o : Option ρ) (r : ρ) : ∃ w, write time o r = some w ∧ time r ≤ time w := by
  cases o with
  | none => exact ⟨r, rfl, le_refl _⟩
  | some w =>
    rcases lt_or_ge (time w) (time r) with h | h
    · exact ⟨r, write_newer h, le_refl _⟩
    · exact ⟨w, write_older h, h⟩

theorem write_again (o : Option ρ) (r : ρ) : write time (write time o r) r = write time o r := by
  obtain ⟨w, hw, hle⟩ := @le_write ρ τ _ time o r
  rw [hw, write_older hle]

/-- Two rows in either order, over an empty register. -/
theorem write_swap {a b : ρ} (h : ¬ Clash time (some a) b) :
    write time (some a) b = write time (some b) a := by
  rcases lt_trichotomy (time a) (time b) with hlt | heq | hgt
  · rw [write_newer hlt, write_older hlt.le]
  · rw [eq_of_no_clash h heq]
  · rw [write_older hgt.le, write_newer hgt]

theorem write_comm {o : Option ρ} {a b : ρ} (hab : ¬ Clash time (write time o a) b) :
    write time (write time o a) b = write time (write time o b) a := by
  cases o with
  | none => exact write_swap hab
  | some w =>
    rcases lt_or_ge (time w) (time a) with hwa | haw
    · rw [write_newer hwa] at hab ⊢
      rcases lt_or_ge (time w) (time b) with hwb | hbw
      · rw [write_newer hwb]
        exact write_swap hab
      · rw [write_older hbw, write_newer hwa, write_older (hbw.trans hwa.le)]
    · rw [write_older haw]
      rcases lt_or_ge (time w) (time b) with hwb | hbw
      · rw [write_newer hwb, write_older (haw.trans hwb.le)]
      · rw [write_older hbw, write_older haw]

end MainframeRag.Register
