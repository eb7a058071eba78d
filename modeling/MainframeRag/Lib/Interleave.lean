import MainframeRag.Lib.Prog
import Mathlib

/-!
# Programs in parallel

A pool of programs over one store: a step is one read or one write of one of them, a program may begin
at any time, and may stop at any point, as in a crash. What every write of every program keeps holds
whatever the interleaving (`Pool.inv`). A program alone runs as `Prog.run` says (`Pool.alone`).
-/

namespace Prog

variable {W E α β : Type}

/-- Every write the program can come to, whatever it reads, has the property. -/
def Writes (P : (W → W) → Prop) : Prog W E α → Prop
  | ret _ => True
  | fail _ => True
  | read k => ∀ w, (k w).Writes P
  | write f k => P f ∧ k.Writes P

variable {P : (W → W) → Prop}

@[simp] theorem writes_pure (a : α) : (pure a : Prog W E α).Writes P := trivial

@[simp] theorem writes_fail (e : E) : (fail e : Prog W E α).Writes P := trivial

theorem Writes.bind {p : Prog W E α} {g : α → Prog W E β} (hp : p.Writes P)
    (hg : ∀ a, (g a).Writes P) : (p >>= g).Writes P := by
  show (p.bind g).Writes P
  induction p with
  | ret a => exact hg a
  | fail e => trivial
  | read k ih => exact fun w => ih w (hp w)
  | write f k ih => exact ⟨hp.1, ih hp.2⟩

theorem writes_get : (get : Prog W E W).Writes P := fun _ => trivial

theorem writes_modify {f : W → W} (h : P f) : (modify f : Prog W E Unit).Writes P := ⟨h, trivial⟩

theorem writes_writeEach {f : β → W → W} {bs : List β} (h : ∀ b ∈ bs, P (f b)) :
    (writeEach f bs : Prog W E Unit).Writes P := by
  induction bs with
  | nil => trivial
  | cons b bs ih => exact ⟨h b List.mem_cons_self, ih fun x hx => h x (List.mem_cons_of_mem b hx)⟩

theorem writes_require (c : Bool) (e : E) : (require c e : Prog W E Unit).Writes P := by
  unfold require
  split <;> trivial

/-- The program without its result. -/
def void (p : Prog W E α) : Prog W E Unit := p >>= fun _ => pure ()

theorem Writes.void {p : Prog W E α} (h : p.Writes P) : p.void.Writes P :=
  h.bind fun _ => writes_pure ()

@[simp] theorem run_void (p : Prog W E α) (w : W) : (p.void.run w).2 = (p.run w).2 := by
  unfold Prog.void
  rw [run_bind]
  split
  · next h => rw [h, run_pure]
  · next h => rw [h]

/-! ## Pools -/

/-- A store and the programs under way. -/
structure Pool (W E α : Type) where
  store : W
  jobs : List (Prog W E α)

/-- `starts` says which programs may begin. -/
inductive Pool.Step (starts : Prog W E α → Prop) : Pool W E α → Pool W E α → Prop
  | start (w : W) (jobs : List (Prog W E α)) {p : Prog W E α} (hp : starts p) :
    Step starts ⟨w, jobs⟩ ⟨w, jobs ++ [p]⟩
  | read (w : W) (before after : List (Prog W E α)) (k : W → Prog W E α) :
    Step starts ⟨w, before ++ .read k :: after⟩ ⟨w, before ++ k w :: after⟩
  | write (w : W) (before after : List (Prog W E α)) (f : W → W) (k : Prog W E α) :
    Step starts ⟨w, before ++ .write f k :: after⟩ ⟨f w, before ++ k :: after⟩
  | stop (w : W) (before after : List (Prog W E α)) (p : Prog W E α) :
    Step starts ⟨w, before ++ p :: after⟩ ⟨w, before ++ after⟩

variable {starts : Prog W E α → Prop}

def Pool.Reaches (starts : Prog W E α → Prop) : Pool W E α → Pool W E α → Prop :=
  Relation.ReflTransGen (Pool.Step starts)

/-- Where the programs that may begin write only what keeps `I`, so do those under way. -/
def Pool.Keeps (I : W → Prop) (pool : Pool W E α) : Prop :=
  I pool.store ∧ ∀ p ∈ pool.jobs, p.Writes fun f => ∀ w, I w → I (f w)

variable {I : W → Prop}

theorem Pool.Keeps.step (hstarts : ∀ p, starts p → p.Writes fun f => ∀ w, I w → I (f w))
    {a b : Pool W E α} (h : a.Keeps I) (hs : Pool.Step starts a b) : b.Keeps I := by
  obtain ⟨hstore, hjobs⟩ := h
  cases hs with
  | @start w jobs p hp =>
    refine ⟨hstore, fun q hq => ?_⟩
    rcases List.mem_append.mp hq with hq | hq
    · exact hjobs q hq
    · exact List.mem_singleton.mp hq ▸ hstarts p hp
  | read w before after k =>
    have hk := hjobs (.read k) (by simp)
    refine ⟨hstore, fun q hq => ?_⟩
    simp only [List.mem_append, List.mem_cons] at hq
    rcases hq with hq | rfl | hq
    · exact hjobs q (by simp [hq])
    · exact hk w
    · exact hjobs q (by simp [hq])
  | write w before after f k =>
    have hk := hjobs (.write f k) (by simp)
    refine ⟨hk.1 w hstore, fun q hq => ?_⟩
    simp only [List.mem_append, List.mem_cons] at hq
    rcases hq with hq | rfl | hq
    · exact hjobs q (by simp [hq])
    · exact hk.2
    · exact hjobs q (by simp [hq])
  | stop w before after p =>
    refine ⟨hstore, fun q hq => hjobs q ?_⟩
    simp only [List.mem_append, List.mem_cons] at hq ⊢
    tauto

/-- Whatever the interleaving and wherever programs stopped, the store keeps the invariant. -/
theorem Pool.inv (hstarts : ∀ p, starts p → p.Writes fun f => ∀ w, I w → I (f w)) {w : W}
    (hw : I w) {pool : Pool W E α} (h : Pool.Reaches starts ⟨w, []⟩ pool) : I pool.store := by
  have hkeeps : pool.Keeps I := by
    induction h with
    | refl => exact ⟨hw, by simp⟩
    | tail _ hs ih => exact ih.step hstarts hs
  exact hkeeps.1

/-- A program that is under way can go on to its end. -/
theorem Pool.runs (p : Prog W E α) (w : W) :
    Pool.Reaches starts ⟨w, [p]⟩ ⟨(p.run w).2, []⟩ := by
  induction p generalizing w with
  | ret a => exact .single (.stop w [] [] _)
  | fail e => exact .single (.stop w [] [] _)
  | read k ih => exact .head (.read w [] [] k) (ih w w)
  | write f k ih => exact .head (.write w [] [] f k) (ih (f w))

/-- A program alone. -/
theorem Pool.alone {p : Prog W E α} (hp : starts p) (w : W) :
    Pool.Reaches starts ⟨w, []⟩ ⟨(p.run w).2, []⟩ :=
  .head (.start w [] hp) (Pool.runs p w)

end Prog
