import MainframeRag.Agent.PromptSize
import MainframeRag.Agent.Tokenizer

/-!
# Refusals

When a refused request has nothing left to trim (`refusal_iff`). The rounds are bounded by what was
planned, but a round that measures a small overshoot cuts few characters, and an excerpt without
text is never dropped. `Clears` says that the bound is enough whatever is counted. Where it is not,
a tokenizer that never grows on a shrinking prompt refuses a request that could still be trimmed
(`exists_refusal`).
-/

namespace MainframeRag.Agent

open PyText Ingest.Chunking

/-- A tokenizer whose count does not grow when a turn or an excerpt is removed or an excerpt
shortened. -/
def NeverIncreases (G : TagTables) (R : PromptReaders) (q : PromptRequest) (T : Tokenizer) : Prop :=
  ∀ s s', Shrinks s s' → countOf G R q T s' ≤ countOf G R q T s

/-- Nothing is left to trim. -/
def irreducible : Trimmable := ⟨[], []⟩

/-- A refused request would not fit without any excerpt and older turn. -/
def RefusedOnlyIrreducible (U : CharTables) (G : TagTables) (R : PromptReaders) (q : PromptRequest)
    (settings : PromptSettings) : Prop :=
  ∀ T, NeverIncreases G R q T → ∀ e, buildPrompt U G R q (some (T, settings)) = .error e →
    verifyLimit settings (complexityOf R q) < countOf G R q T irreducible

/-- However the rounds count, above the limit and none higher than the one before, so many of them
leave nothing. -/
def Clears (U : CharTables) (limit : Int) : Nat → Nat → Trimmable → Prop
  | 0, _, s => s = irreducible
  | rounds + 1, most, s => s = irreducible ∨
    ∀ used : Nat, used ≤ most → limit < used → Clears U limit rounds used (trimRound U used limit s)

section

variable (U : CharTables) (G : TagTables) (R : PromptReaders)

/-! ## One round -/

/-- An overshoot of a token is three characters at least. -/
theorem approxChars_over {n : Int} (h : 0 < n) : 3 ≤ approxChars n := by
  rw [approxChars, Int.tdiv_eq_ediv_of_nonneg (by omega)]
  omega

/-- A trimmed excerpt is shortened, or it has no text to cut and any round ships it unchanged. -/
theorem trimExcerpt_cases {p p' : PackedExcerpt} {used : Nat} {limit : Int} (h : limit < used)
    (ht : trimExcerpt U p used limit = some p') :
    (Shortened p p' ∧ p'.stop + 67 ≤ p.stop ∧ p'.start < p'.stop) ∨ (p'.index = p.index ∧ p'.hit = p.hit ∧ p'.body = p.body ∧
      p.start = p.stop ∧ ∀ used' : Nat, limit < used' → trimExcerpt U p used' limit = some p') := by
  have hcut : ∀ used : Nat, limit < used →
      67 ≤ approxChars (used - limit) + (trimOvercutChars : Int) := by
    intro used hu
    have := approxChars_over (n := used - limit) (by omega)
    simp only [trimOvercutChars]
    omega
  have hc := hcut used h
  have ht' := ht
  unfold trimExcerpt at ht
  dsimp only at ht
  split at ht
  · next hcons =>
    obtain ⟨hle, hlen, hbody⟩ := hcons
    split at ht
    · cases ht
    · next newEnd hw =>
      split at ht
      · cases ht
      · cases ht
        have hb := snapWindow_bound hw
        by_cases hshort : newEnd + 67 ≤ p.stop
        · have hstart : p.start < newEnd := by omega
          refine .inl ⟨⟨rfl, rfl, rfl, ⟨?_, ?_, hlen⟩, hbody, rfl, ?_⟩, hshort, hstart⟩
          · show p.start ≤ newEnd
            omega
          · show newEnd ≤ p.stop
            omega
          · show (composeBody p.source p.start newEnd).length < p.body.length
            have hsuffix : truncatedSuffix.length = 16 := rfl
            rw [hbody]
            simp only [composeBody, List.length_append, textRange_length]
            have h1 : ∀ c : Prop, [Decidable c] → (if c then truncatedSuffix else []).length ≤ 16 := by
              intro c _
              split
              · exact Nat.le_of_eq hsuffix
              · exact Nat.zero_le _
            have := h1 (newEnd < p.source.length)
            omega
        · -- the range is empty and at the end of the text
          have hempty : p.start = p.stop ∧ newEnd = p.stop := by omega
          refine .inr ⟨rfl, rfl, ?_, hempty.1, fun used' hu => ?_⟩
          · show composeBody p.source p.start newEnd = p.body
            rw [hbody, hempty.2]
          · have hm : ∀ used : Nat, limit < used → max 0 (((p.stop : Int) - p.start) -
                (approxChars (used - limit) + (trimOvercutChars : Int))) = 0 := by
              intro used hu
              have := hcut used hu
              omega
            rw [← ht']
            unfold trimExcerpt
            dsimp only
            rw [hm used h, hm used' hu]
  · cases ht

theorem excerptBlocks_same {pre : List PackedExcerpt} {p p' : PackedExcerpt}
    (hi : p'.index = p.index) (hh : p'.hit = p.hit) (hb : p'.body = p.body) :
    excerptBlocks (pre ++ [p']) = excerptBlocks (pre ++ [p]) := by
  have hblock : ∀ first, excerptBlock first p' = excerptBlock first p := fun first => by
    simp only [excerptBlock, hi, hh, hb]
  cases pre with
  | nil => simp [excerptBlocks, hblock]
  | cons x xs => simp [excerptBlocks, hblock]

/-- A round shrinks the prompt, or any round ships it unchanged. -/
theorem trimRound_cases (q : PromptRequest) {s : Trimmable} {used : Nat} {limit : Int}
    (h : limit < used) (hs : s ≠ irreducible) :
    Shrinks s (trimRound U used limit s) ∨
      (candidate G R q (trimRound U used limit s) = candidate G R q s ∧
        ∀ used' : Nat, limit < used' → trimRound U used' limit s = trimRound U used limit s) := by
  obtain ⟨older, packed⟩ := s
  cases older with
  | cons turn turns => exact .inl (Shrinks.turn [] turn turns packed)
  | nil =>
    have hne : packed ≠ [] := fun hp => hs (by rw [hp]; rfl)
    obtain ⟨pre, last, rfl⟩ : ∃ pre last, packed = pre ++ [last] :=
      ⟨packed.dropLast, packed.getLast hne, (List.dropLast_append_getLast hne).symm⟩
    have hround : ∀ used : Nat, trimRound U used limit ⟨[], pre ++ [last]⟩ =
        ⟨[], pre ++ (trimExcerpt U last used limit).toList⟩ := by
      intro used
      rw [trimRound_empty U rfl, verifyTrimLast, List.getLast?_concat, List.dropLast_concat]
    rw [hround]
    cases ht : trimExcerpt U last used limit with
    | none => exact .inl (by simpa using Shrinks.drop [] pre last [])
    | some p' =>
      rcases trimExcerpt_cases U h ht with ⟨hs, -⟩ | ⟨hi, hh, hb, -, hany⟩
      · exact .inl (Shrinks.shorten [] pre last p' [] hs)
      · refine .inr ⟨?_, fun used' hu => ?_⟩
        · simp only [candidate, userContent, orderedBlocks_eq, Option.toList_some,
            excerptBlocks_same hi hh hb]
        · rw [hround, hany used' hu]

theorem trimRound_count {q : PromptRequest} {T : Tokenizer} (hT : NeverIncreases G R q T)
    {s : Trimmable} {used : Nat} {limit : Int} (h : limit < used) (hs : s ≠ irreducible) :
    countOf G R q T (trimRound U used limit s) ≤ countOf G R q T s := by
  rcases trimRound_cases U G R q h hs with hsh | ⟨hc, -⟩
  · exact hT _ _ hsh
  · rw [countOf, hc]
    exact Nat.le.refl

/-- What the loop starts from: whole turns, none in a single answer. -/
structure Given (isChat : Bool) (s : Trimmable) : Prop where
  turns : [] ∉ s.older
  single : isChat = false → s.older = []

theorem Given.round {isChat : Bool} {s : Trimmable} (h : Given isChat s) (used : Nat)
    (limit : Int) : Given isChat (trimRound U used limit s) := by
  by_cases ho : s.older = []
  · rw [trimRound_empty U ho]
    exact ⟨by simp, fun _ => rfl⟩
  · rw [trimRound_older U ho]
    exact ⟨fun hm => h.turns (List.mem_of_mem_tail hm), fun hc => absurd (h.single hc) ho⟩

theorem Given.left {isChat : Bool} {s : Trimmable} (h : Given isChat s) (hs : s ≠ irreducible) :
    ¬(s.packed = [] ∧ !isChat) ∧ ¬(s.older = [] ∧ s.packed = []) := by
  obtain ⟨older, packed⟩ := s
  have hboth : ¬(older = [] ∧ packed = []) := by
    rintro ⟨rfl, rfl⟩
    exact hs rfl
  refine ⟨fun ⟨hp, hc⟩ => hboth ⟨h.single ?_, hp⟩, hboth⟩
  simpa using hc

theorem Shrinks.size_lt {q : PromptRequest} {s s' : Trimmable} (h : Shrinks s s')
    (ht : [] ∉ s.older) : promptSize G R q s' < promptSize G R q s := by
  obtain ⟨fixed, hsize⟩ := promptSize_eq G R q
  rw [hsize, hsize]
  cases h with
  | turn pre turn post packed =>
    have hne : turn ≠ [] := fun he => ht (by simp [he])
    obtain ⟨m, ms, rfl⟩ := List.exists_cons_of_ne_nil hne
    have hpos : 0 < messagesSize (m :: ms) := by simp [messagesSize]
    simp only [List.flatten_append, List.flatten_cons, messagesSize_append]
    omega
  | drop older pre p post =>
    have := shippedSize_pos G p
    simp only [packedSize_append, packedSize_cons]
    omega
  | shorten older pre p p' post h =>
    have := h.size G
    have := shippedSize_pos G p'
    simp only [packedSize_append, packedSize_cons]
    omega

theorem irreducible_size (q : PromptRequest) {s : Trimmable} (ht : [] ∉ s.older)
    (hs : s ≠ irreducible) : promptSize G R q irreducible < promptSize G R q s := by
  obtain ⟨fixed, hsize⟩ := promptSize_eq G R q
  obtain ⟨older, packed⟩ := s
  rw [hsize, hsize]
  cases older with
  | cons turn turns =>
    have hne : turn ≠ [] := fun he => ht (by simp [he])
    obtain ⟨m, ms, rfl⟩ := List.exists_cons_of_ne_nil hne
    have hpos : 0 < messagesSize (m :: ms) := by simp [messagesSize]
    simp only [irreducible, List.flatten_cons, messagesSize_append]
    simp [messagesSize, packedSize] at hpos ⊢
    omega
  | nil =>
    cases packed with
    | nil => exact absurd rfl hs
    | cons p ps =>
      have := shippedSize_pos G p
      simp only [irreducible, packedSize_cons]
      simp only [packedSize, List.map_nil, List.sum_nil]
      omega

/-! ## Enough rounds -/

theorem Clears.mono {limit : Int} {rounds most most' : Nat} {s : Trimmable}
    (h : Clears U limit rounds most s) (hm : most' ≤ most) : Clears U limit rounds most' s := by
  cases rounds with
  | zero => exact h
  | succ rounds => exact h.imp_right fun hr used hu => hr used (hu.trans hm)

/-- With enough rounds the loop ends in a prompt that fits, or with nothing left. -/
theorem Clears.loop {q : PromptRequest} {T : Tokenizer} (hT : NeverIncreases G R q T) {limit : Int}
    {isChat : Bool} {rounds most : Nat} {s : Trimmable} (h : Clears U limit rounds most s)
    (hg : Given isChat s) (hm : countOf G R q T s ≤ most) :
    (verifyLoop U (countOf G R q T) limit isChat rounds s).2 = true ∨
      (verifyLoop U (countOf G R q T) limit isChat rounds s).1 = irreducible := by
  induction rounds generalizing s most with
  | zero => exact .inr h
  | succ rounds ih =>
    rw [verifyLoop]
    rcases Decidable.em (s = irreducible) with rfl | hs
    · split
      · exact .inr rfl
      · split
        · exact .inl rfl
        · exact .inr rfl
    · obtain ⟨h1, h2⟩ := hg.left hs
      rw [if_neg h1]
      split
      · exact .inl rfl
      · next hfit =>
        have hover : limit < countOf G R q T s := by omega
        have hnext := (h.resolve_left hs) _ hm hover
        exact ih hnext (hg.round U _ limit) (trimRound_count U G R hT hover hs)

theorem planned_given (q : PromptRequest) (settings : PromptSettings) :
    Given q.isChat (planned U G R q settings) := by
  have hsuf := planned_older U G R q settings
  have hturns := splitHistoryTurns_turns (q.history.getD [])
  refine ⟨fun hm => hturns.nonempty (List.dropLast_subset _ (hsuf.subset hm)), fun hc => ?_⟩
  have hnone : q.history = none := Option.isSome_eq_false_iff.mp hc |> Option.isNone_iff_eq_none.mp
  have hnil : (historyTurns q).dropLast = [] := by
    rw [historyTurns, hnone]
    rfl
  rw [hnil] at hsuf
  exact List.suffix_nil.mp hsuf

/-- A refusal: the loop ran out of rounds, and its last prompt is over the limit. -/
theorem buildPrompt_error {q : PromptRequest} {T : Tokenizer} {settings : PromptSettings}
    {e : BudgetExceeded} :
    buildPrompt U G R q (some (T, settings)) = .error e ↔
      (verified U G R q T settings).2 = false ∧
        verifyLimit settings (complexityOf R q) < countOf G R q T (verified U G R q T settings).1 ∧
        e = ⟨countOf G R q T (verified U G R q T settings).1,
          verifyLimit settings (complexityOf R q)⟩ := by
  have hv : buildPrompt U G R q (some (T, settings)) =
      if !(verified U G R q T settings).2 ∧ verifyLimit settings (complexityOf R q) <
          countOf G R q T (verified U G R q T settings).1
        then .error ⟨countOf G R q T (verified U G R q T settings).1,
          verifyLimit settings (complexityOf R q)⟩
        else .ok (prepared U G R q (verified U G R q T settings).1 T.remoteConfirmed) := rfl
  rw [hv]
  constructor
  · intro h
    split at h
    · next hc =>
      cases h
      exact ⟨by simpa using hc.1, hc.2, rfl⟩
    · cases h
  · rintro ⟨h1, h2, rfl⟩
    rw [if_pos ⟨by simp [h1], h2⟩]

/-! ## Too few rounds -/

/-- `used` from this size on, `g` below it. -/
def raiseFrom (size used : Nat) (g : Nat → Nat) (x : Nat) : Nat := if size ≤ x then used else g x

theorem raiseFrom_ge {size used x : Nat} {g : Nat → Nat} (h : size ≤ x) :
    raiseFrom size used g x = used := if_pos h

theorem raiseFrom_lt {size used x : Nat} {g : Nat → Nat} (h : x < size) :
    raiseFrom size used g x = g x := if_neg (Nat.not_le.mpr h)

theorem raiseFrom_le {size used most : Nat} {g : Nat → Nat} (hle : ∀ x, g x ≤ used)
    (hu : used ≤ most) (x : Nat) : raiseFrom size used g x ≤ most := by
  unfold raiseFrom
  split
  · exact hu
  · exact (hle x).trans hu

theorem raiseFrom_mono {size used : Nat} {g : Nat → Nat} (hg : Monotone g)
    (hle : ∀ x, g x ≤ used) : Monotone (raiseFrom size used g) := by
  intro x y hxy
  rcases Nat.lt_or_ge y size with hy | hy
  · rw [raiseFrom_lt hy, raiseFrom_lt (Nat.lt_of_le_of_lt hxy hy)]
    exact hg hxy
  · rw [raiseFrom_ge hy]
    exact raiseFrom_le hle Nat.le.refl x

/-- The loop over a count of the size. -/
def sizeLoop (q : PromptRequest) (limit : Int) (isChat : Bool) (g : Nat → Nat) (rounds : Nat)
    (s : Trimmable) : Trimmable × Bool :=
  verifyLoop U (fun s => g (promptSize G R q s)) limit isChat rounds s

/-- A round of the loop when the count is over the limit. -/
theorem sizeLoop_round {q : PromptRequest} {limit : Int} {isChat : Bool} {g : Nat → Nat}
    {rounds : Nat} {s : Trimmable} (hg : Given isChat s) (hs : s ≠ irreducible)
    (h : limit < g (promptSize G R q s)) :
    sizeLoop U G R q limit isChat g (rounds + 1) s =
      sizeLoop U G R q limit isChat g rounds (trimRound U (g (promptSize G R q s)) limit s) := by
  obtain ⟨h1, h2⟩ := hg.left hs
  rw [sizeLoop, verifyLoop, if_neg h1, if_neg (by omega), if_neg h2]
  rfl

theorem trimRound_size {q : PromptRequest} {s : Trimmable} {used : Nat} {limit : Int}
    (h : limit < used) : promptSize G R q (trimRound U used limit s) ≤ promptSize G R q s := by
  rcases Decidable.em (s = irreducible) with rfl | hs
  · exact Nat.le.refl
  · rcases trimRound_cases U G R q h hs with h | ⟨h, -⟩
    · exact h.size G R
    · rw [promptSize, h]
      exact Nat.le.refl

theorem sizeLoop_size (q : PromptRequest) (limit : Int) (isChat : Bool) (g : Nat → Nat)
    (rounds : Nat) (s : Trimmable) :
    promptSize G R q (sizeLoop U G R q limit isChat g rounds s).1 ≤ promptSize G R q s :=
  verifyLoop_induct U (P := fun s' => promptSize G R q s' ≤ promptSize G R q s)
    (fun _ hc hs' => (trimRound_size U G R hc).trans hs') rounds Nat.le.refl

/-- A loop depends on the counts of the sizes it can reach. -/
theorem sizeLoop_congr {q : PromptRequest} {g g' : Nat → Nat} {limit : Int} {isChat : Bool}
    (rounds : Nat) {s : Trimmable} (hg : ∀ x ≤ promptSize G R q s, g x = g' x) :
    sizeLoop U G R q limit isChat g rounds s = sizeLoop U G R q limit isChat g' rounds s := by
  induction rounds generalizing s with
  | zero => rfl
  | succ rounds ih =>
    rw [sizeLoop, sizeLoop, verifyLoop, verifyLoop, hg _ Nat.le.refl]
    split
    · rfl
    · split
      · rfl
      · next hfit =>
        split
        · rfl
        · exact ih fun x hx => hg x (hx.trans (trimRound_size U G R (by omega)))

/-- Counts of the size, never larger on a smaller prompt, with which every round fails although
nothing left would fit. -/
structure Refuses (q : PromptRequest) (limit : Int) (isChat : Bool) (rounds most : Nat)
    (s : Trimmable) (g : Nat → Nat) : Prop where
  mono : Monotone g
  most : ∀ x, g x ≤ most
  irreducible : (g (promptSize G R q irreducible) : Int) ≤ limit
  first : limit < g (promptSize G R q s)
  failed : (sizeLoop U G R q limit isChat g rounds s).2 = false
  last : limit < g (promptSize G R q (sizeLoop U G R q limit isChat g rounds s).1)

/-- Where the rounds do not suffice there are such counts. -/
theorem exists_counts {q : PromptRequest} {limit : Int} (hlim : 0 ≤ limit) {isChat : Bool}
    {rounds most : Nat} {s : Trimmable} (hm : limit < most) (hgiven : Given isChat s)
    (h : ¬Clears U limit rounds most s) : ∃ g, Refuses U G R q limit isChat rounds most s g := by
  induction rounds generalizing s most with
  | zero =>
    have hlt := irreducible_size G R q hgiven.turns h
    have hconst : ∀ x : Nat, (fun _ => limit.toNat) x ≤ most := fun _ => by dsimp only; omega
    have hs : limit < raiseFrom (promptSize G R q s) most (fun _ => limit.toNat)
        (promptSize G R q s) := by
      rw [raiseFrom_ge Nat.le.refl]
      exact hm
    refine ⟨_, raiseFrom_mono (fun _ _ _ => Nat.le.refl) hconst,
      raiseFrom_le hconst Nat.le.refl, ?_, hs, rfl, hs⟩
    rw [raiseFrom_lt hlt]
    omega
  | succ rounds ih =>
    obtain ⟨hs, hr⟩ := not_or.mp h
    obtain ⟨used, hr⟩ := not_forall.mp hr
    obtain ⟨hu, hr⟩ := Classical.not_imp.mp hr
    obtain ⟨hover, hr⟩ := Classical.not_imp.mp hr
    obtain ⟨g, hg⟩ := ih hover (hgiven.round U used limit) hr
    rcases trimRound_cases U G R q hover hs with hsh | ⟨hsame, hany⟩
    · -- a smaller prompt: this size and all above it are counted as `used`
      have hlt := hsh.size_lt G R hgiven.turns (q := q)
      have hlow := irreducible_size G R q hgiven.turns hs
      have hat : raiseFrom (promptSize G R q s) used g (promptSize G R q s) = used :=
        raiseFrom_ge Nat.le.refl
      have hs' : limit < raiseFrom (promptSize G R q s) used g (promptSize G R q s) := by
        rw [hat]
        exact hover
      have hstep : sizeLoop U G R q limit isChat (raiseFrom (promptSize G R q s) used g)
            (rounds + 1) s =
          sizeLoop U G R q limit isChat g rounds (trimRound U used limit s) := by
        rw [sizeLoop_round U G R hgiven hs hs', hat]
        exact sizeLoop_congr U G R rounds fun x hx => raiseFrom_lt (by omega)
      have hend := sizeLoop_size U G R q limit isChat g rounds (trimRound U used limit s)
      refine ⟨_, raiseFrom_mono hg.mono hg.most, raiseFrom_le hg.most hu, ?_, hs', ?_, ?_⟩
      · rw [raiseFrom_lt hlow]
        exact hg.irreducible
      · rw [hstep]
        exact hg.failed
      · rw [hstep, raiseFrom_lt (by omega)]
        exact hg.last
    · -- nothing was cut, and no later round cuts anything
      have hfirst : limit < g (promptSize G R q s) := by
        have hf := hg.first
        rwa [promptSize, hsame] at hf
      have hstep : sizeLoop U G R q limit isChat g (rounds + 1) s =
          sizeLoop U G R q limit isChat g rounds (trimRound U used limit s) := by
        rw [sizeLoop_round U G R hgiven hs hfirst, hany _ hfirst]
      refine ⟨g, hg.mono, fun x => (hg.most x).trans hu, hg.irreducible, hfirst, ?_, ?_⟩
      · rw [hstep]
        exact hg.failed
      · rw [hstep]
        exact hg.last

/-- Where the bound is too small, a tokenizer that never increases refuses a request of which more
could be trimmed. -/
theorem exists_refusal {q : PromptRequest} {settings : PromptSettings} {most : Nat}
    (hlim : 0 ≤ verifyLimit settings (complexityOf R q))
    (h : ¬Clears U (verifyLimit settings (complexityOf R q))
      (maxRounds q.isChat (planned U G R q settings)) most (planned U G R q settings)) :
    ¬RefusedOnlyIrreducible U G R q settings := by
  have h' : ¬Clears U (verifyLimit settings (complexityOf R q))
      (maxRounds q.isChat (planned U G R q settings))
      (max most ((verifyLimit settings (complexityOf R q)).toNat + 1)) (planned U G R q settings) :=
    fun hc => h (hc.mono U (Nat.le_max_left _ _))
  obtain ⟨g, hg⟩ :=
    exists_counts U G R (q := q) hlim (by omega) (planned_given U G R q settings) h'
  intro hall
  have hover : verifyLimit settings (complexityOf R q) < g (promptSize G R q irreducible) :=
    hall ⟨fun ms => g (messagesSize ms), false⟩ (fun s s' hs => hg.mono (hs.size G R (q := q))) _
      ((buildPrompt_error U G R).mpr ⟨hg.failed, hg.last, rfl⟩)
  exact absurd hg.irreducible (by omega)

/-- Where the bound suffices, a refused request has nothing left to trim. -/
theorem refused_irreducible {q : PromptRequest} {settings : PromptSettings}
    (h : ∀ most, Clears U (verifyLimit settings (complexityOf R q))
      (maxRounds q.isChat (planned U G R q settings)) most (planned U G R q settings)) :
    RefusedOnlyIrreducible U G R q settings := by
  intro T hT e he
  obtain ⟨hfail, hover, -⟩ := (buildPrompt_error U G R).mp he
  rcases (h _).loop U G R hT (planned_given U G R q settings) Nat.le.refl with hfit | hleft
  · rw [verified, hfit] at hfail
    cases hfail
  · rwa [verified, hleft] at hover

/-- The rounds that cutting an excerpt takes at 67 characters a round, with the one that drops it. -/
def cutRounds (p : PackedExcerpt) : Nat := (p.stop - p.start) / 67 + 1

def mostRounds (s : Trimmable) : Nat := s.older.length + (s.packed.map cutRounds).sum

/-- A round of excerpts with text takes one of these rounds away. -/
theorem trimRound_rounds {s : Trimmable} {used : Nat} {limit : Int} (h : limit < used)
    (hs : s ≠ irreducible) (htext : ∀ p ∈ s.packed, p.start < p.stop) :
    mostRounds (trimRound U used limit s) < mostRounds s ∧
      ∀ p ∈ (trimRound U used limit s).packed, p.start < p.stop := by
  obtain ⟨older, packed⟩ := s
  cases older with
  | cons turn turns => exact ⟨by simp [trimRound, mostRounds], htext⟩
  | nil =>
    have hne : packed ≠ [] := fun hp => hs (by rw [hp]; rfl)
    obtain ⟨pre, last, rfl⟩ : ∃ pre last, packed = pre ++ [last] :=
      ⟨packed.dropLast, packed.getLast hne, (List.dropLast_append_getLast hne).symm⟩
    rw [trimRound_empty U rfl, verifyTrimLast]
    simp only [List.getLast?_concat, List.dropLast_concat, mostRounds, List.length_nil,
      Nat.zero_add, List.map_append, List.sum_append, List.map_cons, List.map_nil, List.sum_cons,
      List.sum_nil, Nat.add_zero]
    have hpre : ∀ p ∈ pre, p.start < p.stop := fun p hp => htext p (List.mem_append_left _ hp)
    have hlast := htext last (List.mem_append_right _ List.mem_cons_self)
    cases ht : trimExcerpt U last used limit with
    | none =>
      simp only [Option.toList_none, List.map_nil, List.sum_nil, List.append_nil]
      exact ⟨by unfold cutRounds; omega, hpre⟩
    | some p' =>
      simp only [Option.toList_some, List.map_cons, List.map_nil, List.sum_cons, List.sum_nil]
      rcases trimExcerpt_cases U h ht with ⟨hsh, hcut, hstart⟩ | ⟨-, -, -, hempty, -⟩
      · refine ⟨?_, fun p hp => ?_⟩
        · have := hsh.start
          unfold cutRounds
          omega
        · rcases List.mem_append.mp hp with hp | hp
          · exact hpre p hp
          · rw [List.mem_singleton.mp hp]
            exact hstart
      · omega

/-- Enough rounds for excerpts with text, whatever is counted. -/
theorem clears_of_rounds {limit : Int} {rounds most : Nat} {s : Trimmable}
    (htext : ∀ p ∈ s.packed, p.start < p.stop) (h : mostRounds s ≤ rounds) :
    Clears U limit rounds most s := by
  induction rounds generalizing s most with
  | zero =>
    obtain ⟨older, packed⟩ := s
    cases older with
    | cons turn turns =>
      simp only [mostRounds, List.length_cons] at h
      omega
    | nil =>
      cases packed with
      | cons p ps =>
        simp only [mostRounds, List.map_cons, List.sum_cons, cutRounds] at h
        omega
      | nil => rfl
  | succ rounds ih =>
    rcases Decidable.em (s = irreducible) with hs | hs
    · exact .inl hs
    · refine .inr fun used _ hover => ?_
      obtain ⟨hlt, hnext⟩ := trimRound_rounds U hover hs htext
      exact ih hnext (by omega)

theorem trimRound_irreducible (used : Nat) (limit : Int) :
    trimRound U used limit irreducible = irreducible := rfl

/-- One overshoot all the way is among the counts. -/
theorem Clears.iterate {limit : Int} {rounds used : Nat} {s : Trimmable} (hover : limit < used)
    (h : Clears U limit rounds used s) : (trimRound U used limit)^[rounds] s = irreducible := by
  induction rounds generalizing s with
  | zero => exact h
  | succ rounds ih =>
    rw [Function.iterate_succ_apply]
    rcases h with rfl | h
    · rw [trimRound_irreducible]
      exact Function.iterate_fixed (trimRound_irreducible U used limit) rounds
    · exact ih (h used Nat.le.refl hover)

/-! ## A planned excerpt that outlasts the rounds -/

/-- A loop that counts the same as long as something is left. -/
theorem verifyLoop_over {count : Trimmable → Nat} {limit : Int} {isChat : Bool} {used : Nat}
    (hover : limit < used)
    (hcount : ∀ s, Given isChat s → s ≠ irreducible → count s = used) (rounds : Nat)
    {s : Trimmable} (hg : Given isChat s)
    (h : (trimRound U used limit)^[rounds] s ≠ irreducible) :
    verifyLoop U count limit isChat rounds s = ((trimRound U used limit)^[rounds] s, false) := by
  induction rounds generalizing s with
  | zero => rfl
  | succ rounds ih =>
    have hs : s ≠ irreducible := by
      rintro rfl
      exact h (Function.iterate_fixed (trimRound_irreducible U used limit) (rounds + 1))
    obtain ⟨h1, h2⟩ := hg.left hs
    rw [Function.iterate_succ_apply] at h ⊢
    rw [verifyLoop, if_neg h1, hcount s hg hs, if_neg (by omega), if_neg h2]
    exact ih (hg.round U used limit) h

/-- One token over the limit until nothing is left. -/
def overByOne (q : PromptRequest) (limit : Nat) : Tokenizer where
  countMessages ms := raiseFrom (promptSize G R q irreducible + 1) (limit + 1) (fun _ => limit)
    (messagesSize ms)

theorem overByOne_count (q : PromptRequest) (limit : Nat) (s : Trimmable) :
    countOf G R q (overByOne G R q limit) s =
      raiseFrom (promptSize G R q irreducible + 1) (limit + 1) (fun _ => limit)
        (promptSize G R q s) := rfl

theorem overByOne_neverIncreases (q : PromptRequest) (limit : Nat) :
    NeverIncreases G R q (overByOne G R q limit) := by
  intro s s' h
  rw [overByOne_count, overByOne_count]
  exact raiseFrom_mono (fun _ _ _ => Nat.le.refl) (fun _ => Nat.le_succ limit) (h.size G R)

theorem overByOne_irreducible (q : PromptRequest) (limit : Nat) :
    countOf G R q (overByOne G R q limit) irreducible = limit := by
  rw [overByOne_count, raiseFrom_lt (Nat.lt_succ_self _)]

theorem overByOne_left (q : PromptRequest) (limit : Nat) {isChat : Bool} (s : Trimmable)
    (hg : Given isChat s) (hs : s ≠ irreducible) :
    countOf G R q (overByOne G R q limit) s = limit + 1 := by
  rw [overByOne_count, raiseFrom_ge (irreducible_size G R q hg.turns hs)]

end

/-- The readers on a query without identifiers and resolved codes. -/
def plainReaders : PromptReaders where
  estimate := estimateTokens asciiTables
  classify _ := .simple
  requested _ := none
  resolvedCodeNote _ := []

/-- A dump line without a sentence or a blank in it. -/
def dumpHit : SearchHit where
  chunkId := "c1".toList
  cite := "SA22-7592 Dumps, p. 3".toList
  text := List.replicate 520 '0'
  docId := "SA22-7592".toList
  chunkType := "narrative".toList
  units := some [(0, 520, "prose".toList)]

def dumpRequest : PromptRequest where
  query := "Is the dump complete?".toList
  hits := [dumpHit]

def dumpSettings : PromptSettings where
  llmMaxModelLen := 4096
  llmReservedOutputTokens := 1024
  llmThinkingReserveTokensSimple := 1024
  llmThinkingReserveTokensComplex := 1024
  llmTokenSafetyMargin := 48
  llmMaxChunkTokensNarrative := 700

/-- The excerpt as planned, and after `n` rounds that measure one token too many. -/
def dumpExcerpt : PackedExcerpt :=
  packedExcerpt 1 dumpHit (List.replicate 520 '0') ⟨0, 520, 0⟩

theorem dump_limit : verifyLimit dumpSettings (complexityOf plainReaders dumpRequest) = 2000 := by
  decide

theorem dump_strip : strip dumpHit.text = List.replicate 520 '0' := by
  decide +kernel

/-- The first excerpt is packed whatever it is estimated at. -/
theorem dump_planned : planned asciiTables asciiTags plainReaders dumpRequest dumpSettings =
    ⟨[], [dumpExcerpt]⟩ := by
  have hcap : planCap plainReaders dumpRequest dumpSettings.llmMaxChunkTokensNarrative .simple dumpHit
      (List.replicate 520 '0') = none := by
    have hcode : isCodeType dumpHit.chunkType = false := by decide
    rw [planCap, hcode]
    rfl
  have hpacked : ∀ budget, planPackedExcerpts asciiTables plainReaders dumpRequest budget
      dumpSettings.llmMaxChunkTokensNarrative .simple = [dumpExcerpt] := by
    intro budget
    have hzip : dumpRequest.hits.zipIdx 1 = [(dumpHit, 1)] := rfl
    rw [planPackedExcerpts, hzip, planFrom]
    dsimp only
    rw [dump_strip, hcap, cappedRange]
    dsimp only
    rw [if_neg (fun h => h.2 rfl), planFrom, List.length_replicate]
    rfl
  have hcomplexity : complexityOf plainReaders dumpRequest = .simple := rfl
  have hturns : (historyTurns dumpRequest).dropLast.reverse = [] := rfl
  rw [planned, hcomplexity, hpacked, hturns]
  rfl

theorem dump_rounds : (trimRound asciiTables 2001 2000)^[6] ⟨[], [dumpExcerpt]⟩ ≠ irreducible := by
  decide +kernel

def dumpTokenizer : Tokenizer := overByOne asciiTags plainReaders dumpRequest 2000

end MainframeRag.Agent
