/-
Machines with executable steps, their runs and the observations a run leaves behind.

A machine has one initial state and a partial step function: an action that is not enabled gives `none`, an enabled
one gives the next state and the list of events an observer sees. `Run ok s h` says that state `s` is reached with
history `h` by steps that all meet the condition `ok` on the state before the step and the action; `Path` is the same
between two points of a run. `exec` runs a given list of actions, so that a concrete run can be evaluated.

- `Run.invariant`: what holds initially and is kept by every step holds of every state reached.
- `Run.invariant_of`: the same for an invariant that needs a hypothesis on the whole history, when that hypothesis
  passes to every earlier history.
- `Run.split`: the step at which a given event was reported.
- `Path.simulated`, `Run.simulated`: a simulation of each step by another machine is one of paths and of whole runs.
- `Path.le`: a quantity that no step decreases does not decrease between two points of a run.
- `exists_run_of_exec`, `exists_step_of_exec`, `path_of_execFrom`: an evaluated run is a run, the step after it a step,
  and what is evaluated from a given state on a path.
- `forall_split_snoc`: the step rule for statements about each event and the history before it.
-/
import Mathlib.Tactic

namespace CS240.Lib

/-- a machine: an initial state and a partial step that reports events -/
structure Machine (σ α ε : Type) where
  init : σ
  step : σ → α → Option (σ × List ε)

namespace Machine

variable {σ α ε : Type} (M : Machine σ α ε)

/-- no condition on the steps -/
def free (_ : σ) (_ : α) : Prop := True

instance : DecidableRel (@free σ α) := fun _ _ => inferInstanceAs (Decidable True)

/-- `s` is reached with history `h` by steps that meet `ok` -/
inductive Run (ok : σ → α → Prop) : σ → List ε → Prop
  | init : Run ok M.init []
  | step {s : σ} {h : List ε} {a : α} {s' : σ} {evs : List ε} :
      Run ok s h → ok s a → M.step s a = some (s', evs) → Run ok s' (h ++ evs)

/-- from state `s` with history `h` the machine gets to `s'` with history `h'` by steps that meet `ok` -/
inductive Path (ok : σ → α → Prop) (s : σ) (h : List ε) : σ → List ε → Prop
  | refl : Path ok s h s h
  | step {s₁ : σ} {h₁ : List ε} {a : α} {s' : σ} {evs : List ε} :
      Path ok s h s₁ h₁ → ok s₁ a → M.step s₁ a = some (s', evs) → Path ok s h s' (h₁ ++ evs)

variable {M}

theorem Run.invariant {ok : σ → α → Prop} {I : σ → List ε → Prop} (h0 : I M.init [])
    (hstep : ∀ s h a s' evs, I s h → ok s a → M.step s a = some (s', evs) → I s' (h ++ evs))
    {s : σ} {h : List ε} (hr : M.Run ok s h) : I s h := by
  induction hr with
  | init => exact h0
  | step _ ha hs ih => exact hstep _ _ _ _ _ ih ha hs

/-- invariants under a hypothesis `H` on the history of the whole run -/
theorem Run.invariant_of {ok : σ → α → Prop} {H : List ε → Prop} {I : σ → List ε → Prop}
    (hH : ∀ h evs, H (h ++ evs) → H h) (h0 : I M.init [])
    (hstep : ∀ s h a s' evs, M.Run ok s h → H (h ++ evs) → I s h → ok s a → M.step s a = some (s', evs) →
      I s' (h ++ evs))
    {s : σ} {h : List ε} (hr : M.Run ok s h) (hh : H h) : I s h := by
  induction hr with
  | init => exact h0
  | step hr ha hs ih => exact hstep _ _ _ _ _ hr hh (ih (hH _ _ hh)) ha hs

theorem Run.mono {ok ok' : σ → α → Prop} (hok : ∀ s a, ok s a → ok' s a) {s : σ} {h : List ε}
    (hr : M.Run ok s h) : M.Run ok' s h := by
  induction hr with
  | init => exact .init
  | step _ ha hs ih => exact .step ih (hok _ _ ha) hs

theorem Run.trans {ok : σ → α → Prop} {s s' : σ} {h h' : List ε} (hr : M.Run ok s h)
    (hp : M.Path ok s h s' h') : M.Run ok s' h' := by
  induction hp with
  | refl => exact hr
  | step _ ha hs ih => exact .step ih ha hs

theorem Path.trans {ok : σ → α → Prop} {s₁ s₂ s₃ : σ} {h₁ h₂ h₃ : List ε} (hp : M.Path ok s₁ h₁ s₂ h₂)
    (hq : M.Path ok s₂ h₂ s₃ h₃) : M.Path ok s₁ h₁ s₃ h₃ := by
  induction hq with
  | refl => exact hp
  | step _ ha hs ih => exact .step ih ha hs

theorem Path.mono {ok ok' : σ → α → Prop} (hok : ∀ s a, ok s a → ok' s a) {s s' : σ} {h h' : List ε}
    (hp : M.Path ok s h s' h') : M.Path ok' s h s' h' := by
  induction hp with
  | refl => exact .refl
  | step _ ha hs ih => exact .step ih (hok _ _ ha) hs

theorem Path.history {ok : σ → α → Prop} {s s' : σ} {h h' : List ε} (hp : M.Path ok s h s' h') : h <+: h' := by
  induction hp with
  | refl => exact List.prefix_refl _
  | step _ _ _ ih => exact ih.trans (List.prefix_append _ _)

theorem Path.le {ok : σ → α → Prop} (f : σ → ℕ)
    (hf : ∀ s h a s' evs, M.Run ok s h → M.step s a = some (s', evs) → f s ≤ f s')
    {s s' : σ} {h h' : List ε} (hr : M.Run ok s h) (hp : M.Path ok s h s' h') : f s ≤ f s' := by
  induction hp with
  | refl => exact le_rfl
  | step hp _ hs ih => exact ih.trans (hf _ _ _ _ _ (hr.trans hp) hs)

theorem Run.path {ok : σ → α → Prop} {s : σ} {h : List ε} (hr : M.Run ok s h) : M.Path ok M.init [] s h := by
  induction hr with
  | init => exact .refl
  | step _ ha hs ih => exact .step ih ha hs

/-- a machine whose steps report at most one event: the step that reported `e` -/
theorem Run.split {ok : σ → α → Prop} (hone : ∀ s a s' evs, M.step s a = some (s', evs) → evs.length ≤ 1) {s : σ}
    {h h₁ h₂ : List ε} {e : ε} (hr : M.Run ok s h) (heq : h = h₁ ++ e :: h₂) :
    ∃ s₁ a s₂, M.Run ok s₁ h₁ ∧ ok s₁ a ∧ M.step s₁ a = some (s₂, [e]) ∧ M.Path ok s₂ (h₁ ++ [e]) s h := by
  induction hr generalizing h₂ with
  | init => simp at heq
  | @step s h a s' evs hr ha hs ih =>
    match evs, hone _ _ _ _ hs with
    | [], _ =>
      obtain ⟨s₁, a₁, s₂, hr₁, ha₁, hs₁, hp⟩ := ih ((List.append_nil h).symm.trans heq)
      exact ⟨s₁, a₁, s₂, hr₁, ha₁, hs₁, hp.step ha hs⟩
    | [x], _ =>
      rcases List.eq_nil_or_concat h₂ with rfl | ⟨h₃, y, rfl⟩
      · obtain ⟨rfl, hx⟩ := List.append_inj' heq rfl
        cases hx
        exact ⟨s, a, s', hr, ha, hs, .refl⟩
      · have hsplit : h ++ [x] = (h₁ ++ e :: h₃) ++ [y] := by simpa using heq
        obtain ⟨s₁, a₁, s₂, hr₁, ha₁, hs₁, hp⟩ := ih (List.append_inj' hsplit rfl).1
        exact ⟨s₁, a₁, s₂, hr₁, ha₁, hs₁, hp.step ha hs⟩

section Simulation

variable {σ' α' ε' : Type} {M' : Machine σ' α' ε'} {ok : σ → α → Prop} {ok' : σ' → α' → Prop}
  (rel : σ → List ε → σ' → List ε' → Prop)
  (hstep : ∀ s h a s' evs t g, M.Run ok s h → M'.Run ok' t g → rel s h t g → ok s a → M.step s a = some (s', evs) →
    ∃ t' g', M'.Path ok' t g t' g' ∧ rel s' (h ++ evs) t' g')

include hstep

/-- forward simulation: when each step is answered by a path of another machine, so is every path -/
theorem Path.simulated {s s' : σ} {h h' : List ε} {t : σ'} {g : List ε'} (hr : M.Run ok s h) (hr' : M'.Run ok' t g)
    (hrel : rel s h t g) (hp : M.Path ok s h s' h') : ∃ t' g', M'.Path ok' t g t' g' ∧ rel s' h' t' g' := by
  induction hp with
  | refl => exact ⟨t, g, .refl, hrel⟩
  | step hp ha hs ih =>
    obtain ⟨t₁, g₁, hp₁, hrel₁⟩ := ih
    obtain ⟨t', g', hp', hrel'⟩ := hstep _ _ _ _ _ _ _ (hr.trans hp) (hr'.trans hp₁) hrel₁ ha hs
    exact ⟨t', g', hp₁.trans hp', hrel'⟩

theorem Run.simulated (h0 : rel M.init [] M'.init []) {s : σ} {h : List ε} (hr : M.Run ok s h) :
    ∃ t g, M'.Run ok' t g ∧ rel s h t g := by
  obtain ⟨t, g, hp, hrel⟩ := Path.simulated rel hstep .init .init h0 hr.path
  exact ⟨t, g, .trans .init hp, hrel⟩

end Simulation

variable (M)

/-- run a list of actions, each of which has to be enabled and to meet `ok` -/
def execFrom (ok : σ → α → Prop) [DecidableRel ok] : σ → List ε → List α → Option (σ × List ε)
  | s, h, [] => some (s, h)
  | s, h, a :: as =>
    if ok s a then
      match M.step s a with
      | none => none
      | some (s', evs) => execFrom ok s' (h ++ evs) as
    else none

def exec (ok : σ → α → Prop) [DecidableRel ok] (as : List α) : Option (σ × List ε) :=
  M.execFrom ok M.init [] as

variable {M}

theorem path_of_execFrom {ok : σ → α → Prop} [DecidableRel ok] {as : List α} {s : σ} {h : List ε} {r : σ × List ε}
    (he : M.execFrom ok s h as = some r) : M.Path ok s h r.1 r.2 := by
  induction as generalizing s h with
  | nil => cases he; exact .refl
  | cons a as ih =>
    simp only [Machine.execFrom] at he
    split_ifs at he with ha
    split at he
    · cases he
    · rename_i s' evs hs
      exact (Path.step .refl ha hs).trans (ih he)

theorem exists_run_of_exec {ok : σ → α → Prop} [DecidableRel ok] {as : List α} {test : σ × List ε → Bool}
    (he : (M.exec ok as).any test = true) : ∃ s h, M.Run ok s h ∧ test (s, h) = true := by
  rw [Option.any_eq_true] at he
  obtain ⟨r, hr, ht⟩ := he
  exact ⟨r.1, r.2, .trans .init (path_of_execFrom hr), ht⟩

theorem exists_step_of_exec {ok : σ → α → Prop} [DecidableRel ok] {as : List α} {a : α}
    {test : σ × List ε → σ × List ε → Bool}
    (he : (M.exec ok as).any (fun r => decide (ok r.1 a) && (M.step r.1 a).any (test r)) = true) :
    ∃ s h s' evs, M.Run ok s h ∧ ok s a ∧ M.step s a = some (s', evs) ∧ test (s, h) (s', evs) = true := by
  obtain ⟨s, h, hr, ht⟩ := exists_run_of_exec he
  simp only [Bool.and_eq_true, decide_eq_true_eq, Option.any_eq_true] at ht
  obtain ⟨ha, r, hs, ht⟩ := ht
  exact ⟨s, h, r.1, r.2, hr, ha, hs, ht⟩

/-- what holds of each event and the history before it, when one more event is added -/
theorem forall_split_snoc {P : List ε → ε → Prop} {h : List ε} {e : ε} (hh : ∀ h₁ x h₂, h = h₁ ++ x :: h₂ → P h₁ x)
    (he : P h e) : ∀ h₁ x h₂, h ++ [e] = h₁ ++ x :: h₂ → P h₁ x := by
  intro h₁ x h₂ heq
  rcases List.eq_nil_or_concat h₂ with rfl | ⟨h₃, y, rfl⟩
  · obtain ⟨rfl, hx⟩ := List.append_inj' heq rfl
    cases hx
    exact he
  · have hsplit : h ++ [e] = (h₁ ++ x :: h₃) ++ [y] := by simpa using heq
    exact hh h₁ x h₃ (List.append_inj' hsplit rfl).1

end Machine

end CS240.Lib
