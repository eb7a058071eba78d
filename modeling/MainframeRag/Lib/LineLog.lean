import MainframeRag.Lib.Lines
import Mathlib

/-!
# Append-only logs of lines

A log is read line by line, a blank line and the beginning of an entry say nothing. Appends start
on a line of their own and may be cut at any byte, as a crash leaves them. Whatever is appended,
reading the log applies exactly the entries that were written whole (`load_run`).
-/

namespace MainframeRag.LineLog

open PyText

/-- How one line is taken, how an entry is written, and what it means. -/
structure Format (σ ρ : Type) where
  take : σ → Text → σ
  write : ρ → Text
  apply : σ → ρ → σ
  take_blank : ∀ s l, blank l → take s l = s
  take_write : ∀ s r, take s (write r) = apply s r
  take_torn : ∀ s r u z, write r = u ++ z → z ≠ [] → take s u = s
  write_plain : ∀ r, ∀ c ∈ write r, 32 ≤ c.toNat ∧ c.toNat < 128
  write_ne_nil : ∀ r, write r ≠ []

variable {σ ρ : Type} (F : Format σ ρ)

/-- `read_text(encoding="utf-8").splitlines()`, line by line. -/
def load (s : σ) (file : Bytes) : Option σ :=
  (decodeUtf8 file).map fun t => (splitlines (universalNewlines t)).foldl F.take s

/-- The last byte is there and ends no line. -/
def lacksFinalNewline (file : Bytes) : Bool := file.getLast?.any (· != 10)

def lines (rs : List ρ) : Text := rs.flatMap fun r => F.write r ++ ['\n']

/-- What an append writes. -/
def written (file : Bytes) (rs : List ρ) : Text :=
  (if lacksFinalNewline file then ['\n'] else []) ++ lines F rs

/-- An append of which `n` bytes reach the file. -/
def append (file : Bytes) (rs : List ρ) (n : Nat) : Bytes :=
  file ++ (encodeUtf8 (written F file rs)).take n

/-- The entries whose text lies within the first `n` characters. -/
def whole : Nat → List ρ → List ρ
  | _, [] => []
  | n, r :: rs => if (F.write r).length ≤ n then r :: whole (n - (F.write r).length - 1) rs else []

/-- The entries an append of `n` bytes leaves. -/
def landed (file : Bytes) (rs : List ρ) (n : Nat) : List ρ :=
  whole F (n - if lacksFinalNewline file then 1 else 0) rs

/-! ## What is written -/

theorem write_noBreak (r : ρ) : ∀ c ∈ F.write r, isLineBreak c = false := by
  intro c hc
  obtain ⟨hlow, hhigh⟩ := F.write_plain r c hc
  simp only [isLineBreak, Bool.or_eq_false_iff, Bool.and_eq_false_iff, decide_eq_false_iff_not,
    beq_eq_false_iff_ne]
  omega

theorem mem_lines {rs : List ρ} {c : Char} (h : c ∈ lines F rs) :
    c = '\n' ∨ 32 ≤ c.toNat ∧ c.toNat < 128 := by
  obtain ⟨r, -, hc⟩ := List.mem_flatMap.mp h
  rcases List.mem_append.mp hc with hc | hc
  · exact .inr (F.write_plain r c hc)
  · exact .inl (List.mem_singleton.mp hc)

theorem encodeUtf8_take {t : Text} (h : ∀ c ∈ t, c.toNat < 128) (n : Nat) :
    (encodeUtf8 t).take n = encodeUtf8 (t.take n) := by
  induction t generalizing n with
  | nil => simp [encodeUtf8]
  | cons c t ih =>
    have hc : String.utf8EncodeChar c = [c.toNat.toUInt8] := by
      have hlow := h c List.mem_cons_self
      have hsmall : c.val.toNat ≤ 0x7f := by
        have : c.toNat = c.val.toNat := rfl
        omega
      simp only [String.utf8EncodeChar, if_pos hsmall]
      rfl
    have ht := ih fun d hd => h d (List.mem_cons_of_mem c hd)
    cases n with
    | zero => rfl
    | succ n =>
      rw [List.take_succ_cons, encodeUtf8, encodeUtf8, List.flatMap_cons, List.flatMap_cons, hc,
        List.singleton_append, List.singleton_append, List.take_succ_cons]
      exact congrArg _ (ht n)

theorem written_low (file : Bytes) (rs : List ρ) : ∀ c ∈ written F file rs, c.toNat < 128 := by
  intro c hc
  rcases List.mem_append.mp hc with hc | hc
  · split at hc
    · rw [List.mem_singleton.mp hc]
      decide
    · cases hc
  · rcases mem_lines F hc with rfl | h
    · decide
    · exact h.2

theorem lines_noReturn (rs : List ρ) (n : Nat) : '\r' ∉ (lines F rs).take n := by
  intro h
  rcases mem_lines F (List.mem_of_mem_take h) with h | h
  · revert h
    decide
  · revert h
    decide

/-! ## One append, after a finished line -/

theorem take_append_cons {w : Text} {n : Nat} (h : w.length < n) (t : Text) :
    (w ++ '\n' :: t).take n = w ++ '\n' :: t.take (n - w.length - 1) := by
  obtain ⟨m, rfl⟩ : ∃ m, n = w.length + (m + 1) := ⟨n - w.length - 1, by omega⟩
  rw [List.take_length_add_append, List.take_succ_cons]
  congr 3
  omega

theorem whole_zero (rs : List ρ) : whole F 0 rs = [] := by
  cases rs with
  | nil => rfl
  | cons r rs =>
    have := List.length_pos_iff.mpr (F.write_ne_nil r)
    exact if_neg (by omega)

/-- What the lines of a cut come to. -/
def reading (s : σ) (c : Cut) : σ := F.take (c.done.foldl F.take s) c.rest

theorem foldl_lines (s : σ) (c : Cut) : c.lines.foldl F.take s = reading F s c := by
  unfold Cut.lines reading
  split
  · next h =>
    rw [h, F.take_blank _ [] (by intro c hc; cases hc)]
  · rw [List.foldl_append]
    rfl

theorem reading_finished (s : σ) (done : List Text) :
    reading F s ⟨done, []⟩ = done.foldl F.take s :=
  F.take_blank _ [] (by intro c hc; cases hc)

/-- Entries cut at a byte, behind a finished line. -/
theorem reading_lines (rs : List ρ) (s : σ) (done : List Text) (n : Nat) :
    reading F s (((lines F rs).take n).foldl Cut.feed ⟨done, []⟩) =
      (whole F n rs).foldl F.apply (done.foldl F.take s) := by
  induction rs generalizing done n with
  | nil =>
    simp only [lines, List.flatMap_nil, List.take_nil, List.foldl_nil, whole]
    exact reading_finished F s done
  | cons r rs ih =>
    have hlines : lines F (r :: rs) = F.write r ++ '\n' :: lines F rs := by
      simp [lines]
    rw [hlines, whole]
    have hwhole : (F.write r).foldl Cut.feed ⟨done, []⟩ = ⟨done, F.write r⟩ := by
      rw [Cut.foldl_feed_noBreak (write_noBreak F r)]
      rfl
    rcases lt_trichotomy n (F.write r).length with hlt | heq | hgt
    · rw [if_neg (by omega), List.take_append_of_le_length (by omega),
        Cut.foldl_feed_noBreak fun c hc => write_noBreak F r c (List.mem_of_mem_take hc)]
      refine F.take_torn _ r _ ((F.write r).drop n) (List.take_append_drop n _).symm ?_
      exact List.ne_nil_of_length_pos (by rw [List.length_drop]; omega)
    · rw [if_pos (by omega), heq, List.take_left, hwhole,
        show (F.write r).length - (F.write r).length - 1 = 0 by omega, whole_zero]
      exact F.take_write _ r
    · rw [if_pos (by omega), take_append_cons hgt, List.foldl_append, hwhole, List.foldl_cons,
        Cut.feed_break (by decide), ih, List.foldl_append]
      simp only [List.foldl_cons, List.foldl_nil, F.take_write]

/-! ## Where a file ends -/

theorem universalNewlines_cons {c : Char} {t : Text}
    (h : ∀ u : Text, c = '\r' → t = '\n' :: u → False) :
    universalNewlines (c :: t) = (if c = '\r' then '\n' else c) :: universalNewlines t :=
  universalNewlines.eq_3 _ _ h

/-- A `\n` behind a `\r` is no line of its own. -/
theorem universalNewlines_line (s x : Text) : universalNewlines (s ++ '\n' :: x) =
    if s.getLast? = some '\r' then universalNewlines s ++ universalNewlines x
    else universalNewlines s ++ '\n' :: universalNewlines x := by
  fun_induction universalNewlines s with
  | case1 => simp [universalNewlines]
  | case2 t ih =>
    cases t with
    | nil => simp [universalNewlines]
    | cons d t =>
      rw [List.cons_append, List.cons_append, universalNewlines, ih]
      split <;> simp_all
  | case3 c t hc ih =>
    cases t with
    | nil =>
      by_cases hr : c = '\r'
      · subst hr
        simp [universalNewlines]
      · rw [List.cons_append, universalNewlines_cons (by intro u h; exact absurd h hr)]
        simp [hr, universalNewlines]
    | cons d t =>
      rw [List.cons_append, universalNewlines_cons (by
        intro u h h'
        exact hc t h (by rw [(List.cons.inj h').1])), ih, List.getLast?_cons_cons]
      split_ifs <;> rfl

theorem cut_return {s : Text} (h : s.getLast? = some '\r') :
    (cut (universalNewlines s)).rest = [] := by
  obtain ⟨t, rfl⟩ : ∃ t, s = t ++ ['\r'] := ⟨s.dropLast, (List.dropLast_append_getLast? _ h).symm⟩
  rw [universalNewlines_append (by decide), show universalNewlines ['\r'] = ['\n'] from rfl,
    cut_concat, Cut.feed_break (by decide)]

/-- A text that is read up to a line break. -/
theorem cut_finished {file : Bytes} {t : Text} (h : decodeUtf8 file = some t)
    (hend : lacksFinalNewline file = false) : (cut (universalNewlines t)).rest = [] := by
  rw [decodeUtf8_eq_some] at h
  rcases List.eq_nil_or_concat t with rfl | ⟨s, c, rfl⟩
  · rfl
  · rw [List.concat_eq_append] at h ⊢
    have hc : c = '\n' := by
      by_contra hne
      have hlf := lf_not_mem_encodeChar hne
      have hbytes : encodeUtf8 [c] = String.utf8EncodeChar c := by simp [encodeUtf8]
      have hlen : String.utf8EncodeChar c ≠ [] := by
        unfold String.utf8EncodeChar
        dsimp only
        split_ifs <;> simp
      rw [h, encodeUtf8_append, hbytes, lacksFinalNewline, List.getLast?_append_of_ne_nil _ hlen,
        List.getLast?_eq_some_getLast hlen, Option.any_some, bne_eq_false_iff_eq] at hend
      exact hlf (hend ▸ List.getLast_mem hlen)
    subst hc
    rw [universalNewlines_line s []]
    split
    · next hr =>
      rw [universalNewlines, List.append_nil]
      exact cut_return hr
    · rw [universalNewlines, cut_concat, Cut.feed_break (by decide)]

/-! ## Loading -/

theorem load_eq {s : σ} {file : Bytes} {t : Text} (h : decodeUtf8 file = some t) :
    load F s file = some (reading F s (cut (universalNewlines t))) := by
  rw [load, h, Option.map_some, splitlines,
    universalNewlines_id (universalNewlines_noReturn t)]
  exact congrArg some (foldl_lines F s _)

theorem decode_append {file : Bytes} {t u : Text} (h : decodeUtf8 file = some t) :
    decodeUtf8 (file ++ encodeUtf8 u) = some (t ++ u) := by
  rw [decodeUtf8_eq_some, encodeUtf8_append, ← decodeUtf8_eq_some.mp h]

theorem lines_head {rs : List ρ} {c : Char} {t : Text} {n : Nat} (h : (lines F rs).take n = c :: t) :
    c ≠ '\n' := by
  cases rs with
  | nil => simp [lines] at h
  | cons r rs =>
    have hlines : lines F (r :: rs) = F.write r ++ '\n' :: lines F rs := by simp [lines]
    obtain ⟨d, u, hd⟩ := List.exists_cons_of_ne_nil (F.write_ne_nil r)
    cases n with
    | zero => cases h
    | succ n =>
      rw [hlines, hd, List.cons_append, List.take_succ_cons] at h
      rintro rfl
      rw [(List.cons.inj h).1] at hd
      have := (F.write_plain r '\n' (by rw [hd]; exact List.mem_cons_self)).1
      revert this
      decide

/-- Reading after an append applies the entries it left. -/
theorem load_append {s : σ} {file : Bytes} {d : σ} (h : load F s file = some d) (rs : List ρ)
    (n : Nat) : load F s (append F file rs n) = some ((landed F file rs n).foldl F.apply d) := by
  obtain ⟨t, ht, -⟩ := Option.map_eq_some_iff.mp h
  rw [load_eq F ht] at h
  obtain rfl := Option.some.inj h
  rw [append, encodeUtf8_take (written_low F file rs)]
  rw [load_eq F (decode_append ht), landed]
  refine congrArg some ?_
  cases hend : lacksFinalNewline file with
  | false =>
    have hrest := cut_finished ht hend
    rcases hcut : cut (universalNewlines t) with ⟨done, rest⟩
    rw [hcut] at hrest
    obtain rfl : rest = [] := hrest
    simp only [written, hend, Bool.false_eq_true, if_false, List.nil_append, Nat.sub_zero]
    have happend : universalNewlines (t ++ (lines F rs).take n) =
        universalNewlines t ++ (lines F rs).take n := by
      rcases hhead : (lines F rs).take n with _ | ⟨c, u⟩
      · simp
      · rw [universalNewlines_append (lines_head F hhead), ← hhead,
          universalNewlines_id (lines_noReturn F rs n)]
    rw [happend, cut_append, hcut, reading_lines, reading_finished]
  | true =>
    simp only [written, hend, if_true, List.singleton_append]
    cases n with
    | zero => simp [whole_zero]
    | succ n =>
      rw [List.take_succ_cons, universalNewlines_line,
        universalNewlines_id (lines_noReturn F rs n), Nat.add_sub_cancel]
      split
      · next hr =>
        have hrest := cut_return hr
        rcases hcut : cut (universalNewlines t) with ⟨done, rest⟩
        rw [hcut] at hrest
        obtain rfl : rest = [] := hrest
        rw [cut_append, hcut, reading_lines, reading_finished]
      · rw [cut_append, List.foldl_cons, Cut.feed_break (by decide), reading_lines,
          List.foldl_append]
        rfl

/-! ## Many appends -/

theorem whole_begins (n : Nat) (rs : List ρ) : whole F n rs <+: rs := by
  induction rs generalizing n with
  | nil => exact List.prefix_rfl
  | cons r rs ih =>
    rw [whole]
    split
    · exact List.cons_prefix_cons.mpr ⟨rfl, ih _⟩
    · exact List.nil_prefix

theorem whole_all {n : Nat} {rs : List ρ} (h : (lines F rs).length ≤ n) : whole F n rs = rs := by
  induction rs generalizing n with
  | nil => rfl
  | cons r rs ih =>
    simp only [lines, List.flatMap_cons, List.length_append, List.length_cons, List.length_nil] at h
    rw [whole, if_pos (by omega), ih (by simp only [lines]; omega)]

/-- An append that is not cut leaves all its entries. -/
theorem landed_all {file : Bytes} {rs : List ρ} {n : Nat}
    (h : (written F file rs).length ≤ n) : landed F file rs n = rs := by
  refine whole_all F ?_
  rw [written, List.length_append] at h
  split at h <;> simp_all
  omega

/-- The file after appends, and the entries they left. -/
def run (file : Bytes) : List (List ρ × Nat) → Bytes × List ρ
  | [] => (file, [])
  | (rs, n) :: rest =>
    let after := run (append F file rs n) rest
    (after.1, landed F file rs n ++ after.2)

/-- Whatever is appended and wherever it is cut, the entries written whole are what is read. -/
theorem load_run {s : σ} {file : Bytes} {d : σ} (h : load F s file = some d)
    (appends : List (List ρ × Nat)) :
    load F s (run F file appends).1 = some ((run F file appends).2.foldl F.apply d) := by
  induction appends generalizing file d with
  | nil => exact h
  | cons a rest ih =>
    obtain ⟨rs, n⟩ := a
    rw [run, ih (load_append F h rs n), List.foldl_append]

end MainframeRag.LineLog
