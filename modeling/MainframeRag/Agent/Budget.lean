import MainframeRag.Agent.Evidence

/-!
# Verification rounds

The loop that fits a prompt to the tokenizer: what a round may do (`Round`), that the loop only
takes rounds (`verifyLoop_rounds`), and that turns go oldest first and before any excerpt.
-/

namespace MainframeRag.Agent

open PyText Ingest.Chunking

/-! ## Turns -/

/-- The turns of a history: whole, and every one behind the first opens with a user message. -/
structure Turns (history : List ChatMessage) (turns : List (List ChatMessage)) : Prop where
  flat : turns.flatten = history
  nonempty : [] ∉ turns
  opens : ∀ t ∈ turns.tail, ∃ m rest, t = m :: rest ∧ m.role = .user
  single : ∀ t ∈ turns, ∀ m ∈ t.tail, m.role ≠ .user

theorem turns_step {history : List ChatMessage} {turns : List (List ChatMessage)}
    (h : Turns history turns) (m : ChatMessage) :
    Turns (history ++ [m]) (if m.role = .user ∨ turns = [] then turns ++ [[m]]
      else turns.dropLast ++ [(turns.getLast?.getD []) ++ [m]]) := by
  split
  · next hnew =>
    refine ⟨by simp [h.flat], by simp [h.nonempty], fun t ht => ?_, fun t ht x hx => ?_⟩
    · cases turns with
      | nil => cases ht
      | cons u us =>
        rcases List.mem_append.mp ht with ht | ht
        · exact h.opens t ht
        · rw [List.mem_singleton.mp ht]
          refine ⟨m, [], rfl, ?_⟩
          rcases hnew with hm | hn
          · exact hm
          · cases hn
    · rcases List.mem_append.mp ht with ht | ht
      · exact h.single t ht x hx
      · rw [List.mem_singleton.mp ht] at hx
        cases hx
  · next hold =>
    obtain ⟨hm, hne⟩ := not_or.mp hold
    obtain ⟨us, u, rfl⟩ : ∃ us u, turns = us ++ [u] :=
      ⟨turns.dropLast, turns.getLast hne, (List.dropLast_append_getLast hne).symm⟩
    have hu : u ≠ [] := fun hu => h.nonempty (by simp [hu])
    obtain ⟨x, xs, rfl⟩ := List.exists_cons_of_ne_nil hu
    rw [List.dropLast_concat, List.getLast?_concat, Option.getD_some]
    refine ⟨by simp [← h.flat], ?_, fun t ht => ?_, fun t ht y hy => ?_⟩
    · have := h.nonempty
      simp only [List.mem_append, List.mem_singleton, not_or] at this ⊢
      exact ⟨this.1, by simp⟩
    · cases us with
      | nil => cases ht
      | cons v vs =>
        rcases List.mem_append.mp ht with ht | ht
        · exact h.opens t (List.mem_append_left _ ht)
        · rw [List.mem_singleton.mp ht]
          obtain ⟨m', rest, he, hr⟩ := h.opens (x :: xs) (List.mem_append_right _ (by simp))
          exact ⟨m', rest ++ [m], by rw [he]; rfl, hr⟩
    · rcases List.mem_append.mp ht with ht | ht
      · exact h.single t (List.mem_append_left _ ht) y hy
      · rw [List.mem_singleton.mp ht] at hy
        rcases List.mem_append.mp hy with hy | hy
        · exact h.single (x :: xs) (by simp) y hy
        · rw [List.mem_singleton.mp hy]
          exact hm

theorem splitHistoryTurns_turns (history : List ChatMessage) :
    Turns history (splitHistoryTurns history) := by
  induction history using List.reverseRecOn with
  | nil => exact ⟨rfl, by simp [splitHistoryTurns], by simp [splitHistoryTurns],
      by simp [splitHistoryTurns]⟩
  | append_singleton history m ih =>
    unfold splitHistoryTurns at ih ⊢
    rw [List.foldl_append]
    exact turns_step ih m

/-! ## Rounds -/

section

variable (U : CharTables) (G : TagTables) (R : PromptReaders)

/-- A round: the count is over the limit, and something is left to trim. -/
def Round (count : Trimmable → Nat) (limit : Int) (s s' : Trimmable) : Prop :=
  limit < count s ∧ ¬(s.older = [] ∧ s.packed = []) ∧ s' = trimRound U (count s) limit s

abbrev Rounds (count : Trimmable → Nat) (limit : Int) : Trimmable → Trimmable → Prop :=
  Relation.ReflTransGen (Round U count limit)

theorem verifyLoop_rounds {count : Trimmable → Nat} {limit : Int} {isChat : Bool} (rounds : Nat)
    (s : Trimmable) : Rounds U count limit s (verifyLoop U count limit isChat rounds s).1 := by
  induction rounds generalizing s with
  | zero => exact .refl
  | succ rounds ih =>
    rw [verifyLoop]
    split
    · exact .refl
    · split
      · exact .refl
      · next hfit =>
        split
        · exact .refl
        · next hleft => exact (ih _).head ⟨by omega, hleft, rfl⟩

theorem verifyLoop_fits {count : Trimmable → Nat} {limit : Int} {isChat : Bool} (rounds : Nat)
    {s s' : Trimmable} (h : verifyLoop U count limit isChat rounds s = (s', true)) :
    (count s' : Int) ≤ limit := by
  induction rounds generalizing s with
  | zero => cases h
  | succ rounds ih =>
    rw [verifyLoop] at h
    split at h
    · cases h
    · split at h
      · next hfit =>
        cases h
        exact hfit
      · split at h
        · cases h
        · exact ih h

/-- With an older turn present, a round removes the oldest and touches no excerpt. -/
theorem trimRound_older {used : Nat} {limit : Int} {s : Trimmable} (h : s.older ≠ []) :
    trimRound U used limit s = ⟨s.older.tail, s.packed⟩ := by
  obtain ⟨turn, turns, he⟩ := List.exists_cons_of_ne_nil h
  unfold trimRound
  rw [he]
  rfl

theorem trimRound_empty {used : Nat} {limit : Int} {s : Trimmable} (h : s.older = []) :
    trimRound U used limit s = ⟨[], verifyTrimLast U s.packed used limit⟩ := by
  unfold trimRound
  rw [h]

theorem Rounds.older {count : Trimmable → Nat} {limit : Int} {s s' : Trimmable}
    (h : Rounds U count limit s s') : s'.older <:+ s.older := by
  induction h with
  | refl => exact List.suffix_refl _
  | @tail s₁ s₂ _ hr ih =>
    obtain ⟨-, -, rfl⟩ := hr
    refine List.IsSuffix.trans ?_ ih
    by_cases ho : s₁.older = []
    · rw [trimRound_empty U ho]
      exact List.nil_suffix
    · rw [trimRound_older U ho]
      exact List.tail_suffix _

/-- As long as an older turn is there the excerpts are the planned ones. -/
theorem Rounds.packed {count : Trimmable → Nat} {limit : Int} {s s' : Trimmable}
    (h : Rounds U count limit s s') (ho : s'.older ≠ []) : s'.packed = s.packed := by
  induction h with
  | refl => rfl
  | @tail s₁ s₂ _ hr ih =>
    obtain ⟨-, -, rfl⟩ := hr
    have ho₁ : s₁.older ≠ [] := fun he => by
      rw [trimRound_empty U he] at ho
      exact ho rfl
    rw [trimRound_older U ho₁]
    exact ih ho₁

theorem keepTurns_prefix (limit : Int) (estimated : Nat) (turns : List (List ChatMessage)) :
    keepTurns R limit estimated turns <:+ turns.reverse := by
  induction turns generalizing estimated with
  | nil => exact List.suffix_refl _
  | cons turn turns ih =>
    rw [keepTurns]
    split
    · exact List.nil_suffix
    · rw [List.reverse_cons]
      obtain ⟨dropped, hd⟩ := ih (estimated + contentTokens R turn)
      exact ⟨dropped, by rw [← hd, List.append_assoc]⟩

theorem planned_older (q : PromptRequest) (settings : PromptSettings) :
    (planned U G R q settings).older <:+ (historyTurns q).dropLast := by
  have h := keepTurns_prefix R (verifyLimit settings (complexityOf R q))
    (contentTokens R (candidate G R q ⟨[], planPackedExcerpts U R q (budgetTokens R q settings)
      settings.llmMaxChunkTokensNarrative (complexityOf R q)⟩)) (historyTurns q).dropLast.reverse
  rwa [List.reverse_reverse] at h

/-- Older turns and the most recent one are a suffix of the turns. -/
theorem older_antecedent {q : PromptRequest} {older : List (List ChatMessage)}
    (h : older <:+ (historyTurns q).dropLast) :
    ∃ k, k ≤ (historyTurns q).length - 1 ∧
      older.flatten ++ antecedent q = ((historyTurns q).drop k).flatten := by
  obtain ⟨dropped, hd⟩ := h
  unfold antecedent
  cases ht : (historyTurns q).getLast? with
  | none =>
    have hnil := List.getLast?_eq_none_iff.mp ht
    rw [hnil, List.dropLast_nil, List.append_eq_nil_iff] at hd
    exact ⟨0, Nat.zero_le _, by rw [hd.2, hnil]; rfl⟩
  | some last =>
    have hsplit : historyTurns q = dropped ++ (older ++ [last]) := by
      rw [← List.append_assoc, hd]
      exact (List.dropLast_append_getLast? last ht).symm
    refine ⟨dropped.length, ?_, ?_⟩
    · rw [hsplit]
      simp
    · rw [hsplit, List.drop_left]
      simp

/-! ## Returned prompts -/

/-- The count of the prompt made of a state. -/
def countOf (q : PromptRequest) (T : Tokenizer) (s : Trimmable) : Nat :=
  T.countMessages (candidate G R q s)

/-- The verification loop of a request. -/
def verified (q : PromptRequest) (T : Tokenizer) (settings : PromptSettings) : Trimmable × Bool :=
  verifyLoop U (countOf G R q T) (verifyLimit settings (complexityOf R q)) q.isChat
    (maxRounds q.isChat (planned U G R q settings)) (planned U G R q settings)

theorem verified_rounds (q : PromptRequest) (T : Tokenizer) (settings : PromptSettings) :
    Rounds U (countOf G R q T) (verifyLimit settings (complexityOf R q)) (planned U G R q settings)
      (verified U G R q T settings).1 :=
  verifyLoop_rounds U _ _

/-- A returned prompt is made of the state the loop ends in, which was counted within the limit. -/
theorem buildVerified_returned {q : PromptRequest} {T : Tokenizer} {settings : PromptSettings}
    {p : PreparedPrompt} (h : buildVerified U G R q T settings = .ok p) :
    p = prepared U G R q (verified U G R q T settings).1 T.remoteConfirmed ∧
      (countOf G R q T (verified U G R q T settings).1 : Int) ≤
        verifyLimit settings (complexityOf R q) := by
  have hv : buildVerified U G R q T settings =
      if !(verified U G R q T settings).2 ∧ verifyLimit settings (complexityOf R q) <
          countOf G R q T (verified U G R q T settings).1
        then .error ⟨countOf G R q T (verified U G R q T settings).1,
          verifyLimit settings (complexityOf R q)⟩
        else .ok (prepared U G R q (verified U G R q T settings).1 T.remoteConfirmed) := rfl
  rw [hv] at h
  split at h
  · cases h
  · next hfit =>
    cases h
    refine ⟨rfl, ?_⟩
    cases hl : verified U G R q T settings with
    | mk s fit =>
      rw [hl] at hfit
      cases fit with
      | true => exact verifyLoop_fits U _ hl
      | false =>
        simp only [Bool.not_false, true_and, not_lt] at hfit
        exact hfit

/-- A returned prompt fits, and its history is a suffix of the turns. -/
structure PromptFits (q : PromptRequest) (T : Tokenizer) (settings : PromptSettings)
    (p : PreparedPrompt) : Prop where
  fits : (T.countMessages p.messages : Int) ≤ verifyLimit settings (complexityOf R q)
  history : ∃ k content, k ≤ (historyTurns q).length - 1 ∧
    p.messages = [⟨.system, systemContent (complexityOf R q)⟩] ++
      ((historyTurns q).drop k).flatten ++ [⟨.user, content⟩]
  turns : Turns (q.history.getD []) (historyTurns q)

/-- The tokenizer path: what it returns fits, and no round touches an excerpt while an older turn
is present. -/
structure BudgetKept : Prop where
  returned : ∀ (q : PromptRequest) (T : Tokenizer) (settings : PromptSettings) (p : PreparedPrompt),
    buildPrompt U G R q (some (T, settings)) = .ok p →
    PromptFits R q T settings p ∧ p = prepared U G R q (verified U G R q T settings).1 T.remoteConfirmed
  rounds : ∀ (q : PromptRequest) (T : Tokenizer) (settings : PromptSettings),
    Rounds U (countOf G R q T) (verifyLimit settings (complexityOf R q)) (planned U G R q settings)
      (verified U G R q T settings).1
  turnsFirst : ∀ (count : Trimmable → Nat) (limit : Int) (s s' : Trimmable),
    Round U count limit s s' → s.older ≠ [] → s' = ⟨s.older.tail, s.packed⟩
  untouched : ∀ (count : Trimmable → Nat) (limit : Int) (s s' : Trimmable),
    Rounds U count limit s s' → s'.older ≠ [] → s'.packed = s.packed

theorem budgetKept : BudgetKept U G R where
  returned q T settings p h := by
    obtain ⟨rfl, hfit⟩ := buildVerified_returned U G R h
    have hr := verified_rounds U G R q T settings
    obtain ⟨k, hk, hflat⟩ := older_antecedent ((hr.older U).trans (planned_older U G R q settings))
    refine ⟨⟨hfit, ⟨k, userContent G R q (verified U G R q T settings).1.packed, hk, ?_⟩,
      splitHistoryTurns_turns _⟩, rfl⟩
    rw [← hflat, ← List.append_assoc]
    rfl
  rounds := verified_rounds U G R
  turnsFirst count limit s s' h ho := by
    obtain ⟨-, -, rfl⟩ := h
    exact trimRound_older U ho
  untouched count limit s s' h ho := h.packed U ho

end

end MainframeRag.Agent
