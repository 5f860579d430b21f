/-
# Runs of a step function that may fail

A run is `List.foldlM` of a step in `Option`: the actions are taken one after the
other, and the run has no value once a step has none.  What every step keeps,
every run keeps (`run_invariant`); what every step can do, from a state with the
invariant, every run can (`run_total`); and when the steps that fail are known, so
are the runs (`run_iff_safe`).  A computation that may fail is specified by what holds
of its value and by a condition under which it has one (`Yields`).
-/

import Mathlib.Tactic

namespace ICon7
namespace Lib

variable {σ α : Type} {step : σ → α → Option σ} {s s' : σ}

/-- A run is its first step and the run after it. -/
theorem foldlM_cons_eq_some {a : α} {as : List α} :
    (a :: as).foldlM step s = some s' ↔ ∃ s₁, step s a = some s₁ ∧ as.foldlM step s₁ = some s' := by
  rw [List.foldlM_cons, Option.bind_eq_bind, Option.bind_eq_some_iff]

/-- **What every step keeps, every run keeps.** -/
theorem run_invariant {I : σ → Prop} (hstep : ∀ s a s', I s → step s a = some s' → I s')
    (as : List α) (h : I s) (hrun : as.foldlM step s = some s') : I s' := by
  induction as generalizing s with
  | nil =>
    obtain rfl := Option.some.inj hrun
    exact h
  | cons a as ih =>
    obtain ⟨s₁, h₁, hrun⟩ := foldlM_cons_eq_some.mp hrun
    exact ih (hstep s a s₁ h h₁) hrun

/-- **What one step does to a part of the state, a run does.** -/
theorem run_map {τ : Type} (step' : τ → α → Option τ) (view : σ → τ)
    (hstep : ∀ s a s', step s a = some s' → step' (view s) a = some (view s'))
    (as : List α) (hrun : as.foldlM step s = some s') :
    as.foldlM step' (view s) = some (view s') := by
  induction as generalizing s with
  | nil =>
    obtain rfl := Option.some.inj hrun
    rfl
  | cons a as ih =>
    obtain ⟨s₁, h₁, hrun⟩ := foldlM_cons_eq_some.mp hrun
    exact foldlM_cons_eq_some.mpr ⟨view s₁, hstep s a s₁ h₁, ih hrun⟩

/-- **A step that never fails on the invariant makes runs that never fail.** -/
theorem run_total {I : σ → Prop} {ok : α → Prop}
    (hstep : ∀ s a, I s → ok a → ∃ s', step s a = some s' ∧ I s')
    (as : List α) (h : I s) (hok : ∀ a ∈ as, ok a) : ∃ s', as.foldlM step s = some s' ∧ I s' := by
  induction as generalizing s with
  | nil => exact ⟨s, rfl, h⟩
  | cons a as ih =>
    obtain ⟨s₁, h₁, hI⟩ := hstep s a h (hok a List.mem_cons_self)
    obtain ⟨s', hrun, hI'⟩ := ih hI fun b hb => hok b (List.mem_cons_of_mem _ hb)
    exact ⟨s', foldlM_cons_eq_some.mpr ⟨s₁, h₁, hrun⟩, hI'⟩

/-- Every step of a run meets a condition in the state in which it is taken. -/
def Along (step : σ → α → Option σ) (meets : σ → α → Prop) : σ → List α → Prop
  | _, [] => True
  | s, a :: as => meets s a ∧ ∀ s' ∈ step s a, Along step meets s' as

instance Along.decidable (step : σ → α → Option σ) (meets : σ → α → Prop)
    [∀ s a, Decidable (meets s a)] : ∀ s as, Decidable (Along step meets s as)
  | _, [] => isTrue trivial
  | s, a :: as =>
    haveI : DecidablePred fun s' => Along step meets s' as := fun s' => Along.decidable step meets s' as
    inferInstanceAs (Decidable (meets s a ∧ ∀ s' ∈ step s a, Along step meets s' as))

/-- The condition holds at every step that the run comes to. -/
theorem Along.meets_of_split {meets : σ → α → Prop} {pre post : List α} {a : α}
    (h : Along step meets s (pre ++ a :: post)) (hpre : pre.foldlM step s = some s') : meets s' a := by
  induction pre generalizing s with
  | nil =>
    obtain rfl := Option.some.inj hpre
    exact h.1
  | cons b pre ih =>
    obtain ⟨s₁, h₁, hpre⟩ := foldlM_cons_eq_some.mp hpre
    exact ih (h.2 s₁ h₁) hpre

/-- A weaker condition. -/
theorem Along.mono {meets meets' : σ → α → Prop} (h : ∀ s a, meets s a → meets' s a) (as : List α)
    (hs : Along step meets s as) : Along step meets' s as := by
  induction as generalizing s with
  | nil => trivial
  | cons a as ih => exact ⟨h s a hs.1, fun s' hs' => ih (hs.2 s' hs')⟩

/-- A condition on the actions alone. -/
theorem Along.of_forall_mem {ok : α → Prop} (s : σ) {as : List α} (hok : ∀ a ∈ as, ok a) :
    Along step (fun _ => ok) s as := by
  induction as generalizing s with
  | nil => trivial
  | cons a as ih =>
    exact ⟨hok a List.mem_cons_self, fun s' _ => ih s' fun b hb => hok b (List.mem_cons_of_mem _ hb)⟩

/-- **What every step keeps that meets a condition, every run of such steps keeps.** -/
theorem run_invariant_along {I : σ → Prop} {meets : σ → α → Prop}
    (hstep : ∀ s a s', I s → meets s a → step s a = some s' → I s') (as : List α) (h : I s)
    (hmeets : Along step meets s as) (hrun : as.foldlM step s = some s') : I s' := by
  induction as generalizing s with
  | nil =>
    obtain rfl := Option.some.inj hrun
    exact h
  | cons a as ih =>
    obtain ⟨s₁, h₁, hrun⟩ := foldlM_cons_eq_some.mp hrun
    exact ih (hstep s a s₁ h hmeets.1 h₁) (hmeets.2 s₁ h₁) hrun

/-- **A step that never fails where it meets a condition** makes runs that never fail. -/
theorem run_total_along {I : σ → Prop} {meets : σ → α → Prop}
    (hstep : ∀ s a, I s → meets s a → ∃ s', step s a = some s' ∧ I s') (as : List α) (h : I s)
    (hmeets : Along step meets s as) : ∃ s', as.foldlM step s = some s' ∧ I s' := by
  induction as generalizing s with
  | nil => exact ⟨s, rfl, h⟩
  | cons a as ih =>
    obtain ⟨s₁, h₁, hI⟩ := hstep s a h hmeets.1
    obtain ⟨s', hrun, hI'⟩ := ih hI (hmeets.2 s₁ h₁)
    exact ⟨s', foldlM_cons_eq_some.mpr ⟨s₁, h₁, hrun⟩, hI'⟩

/-- **A condition at every step that is the same as a property after it**: the condition holds along a
run exactly if the property holds after each of its steps. -/
theorem along_iff_of_step {I P : σ → Prop} {meets : σ → α → Prop}
    (hstep : ∀ s a s', I s → step s a = some s' → I s')
    (hmeets : ∀ s a, I s → P s → (meets s a ↔ ∀ s', step s a = some s' → P s'))
    (as : List α) (hI : I s) (hP : P s) :
    Along step meets s as ↔ ∀ pre post s', as = pre ++ post → pre.foldlM step s = some s' → P s' := by
  induction as generalizing s with
  | nil =>
    refine ⟨fun _ pre post s' hsplit hrun => ?_, fun _ => trivial⟩
    obtain ⟨rfl, -⟩ := List.append_eq_nil_iff.1 hsplit.symm
    exact Option.some.inj hrun ▸ hP
  | cons a as ih =>
    constructor
    · rintro ⟨ha, has⟩ pre post s' hsplit hrun
      cases pre with
      | nil => exact Option.some.inj hrun ▸ hP
      | cons b pre =>
        obtain ⟨rfl, hrest⟩ := List.cons.inj hsplit
        obtain ⟨s₁, h₁, hrun⟩ := foldlM_cons_eq_some.mp hrun
        exact (ih (hstep s a s₁ hI h₁) ((hmeets s a hI hP).1 ha s₁ h₁)).1 (has s₁ h₁) pre post s' hrest hrun
    · intro hall
      have ha : ∀ s', step s a = some s' → P s' := fun s' h =>
        hall [a] as s' rfl (foldlM_cons_eq_some.mpr ⟨s', h, rfl⟩)
      refine ⟨(hmeets s a hI hP).2 ha, fun s₁ h₁ => (ih (hstep s a s₁ hI h₁) (ha s₁ h₁)).2 ?_⟩
      intro pre post s' hsplit hrun
      exact hall (a :: pre) post s' (by rw [hsplit]; rfl) (foldlM_cons_eq_some.mpr ⟨s₁, h₁, hrun⟩)

/-- A run of a relation between states. -/
def Runs {τ : Type*} (R : τ → α → τ → Prop) : τ → List α → τ → Prop
  | t, [], t' => t' = t
  | t, a :: as, t' => ∃ t₁, R t a t₁ ∧ Runs R t₁ as t'

/-- **A step that simulates a relation** where it meets a condition makes runs that do. -/
theorem run_simulates {τ : Type*} {I : σ → Prop} {meets : σ → α → Prop} {view : σ → τ}
    {R : τ → α → τ → Prop}
    (hstep : ∀ s a, I s → meets s a → ∃ s', step s a = some s' ∧ I s' ∧ R (view s) a (view s'))
    (as : List α) (h : I s) (hmeets : Along step meets s as) :
    ∃ s', as.foldlM step s = some s' ∧ I s' ∧ Runs R (view s) as (view s') := by
  induction as generalizing s with
  | nil => exact ⟨s, rfl, h, rfl⟩
  | cons a as ih =>
    obtain ⟨s₁, h₁, hI, hR⟩ := hstep s a h hmeets.1
    obtain ⟨s', hrun, hI', hRuns⟩ := ih hI (hmeets.2 s₁ h₁)
    exact ⟨s', foldlM_cons_eq_some.mpr ⟨s₁, h₁, hrun⟩, hI', view s₁, hR, hRuns⟩

section Safe

-- the invariant, the actions that are considered, and those that do not fail in a state
variable {I : σ → Prop} {ok : α → Prop} {safe : σ → α → Prop}
  (hsafe : ∀ s a, I s → ok a → safe s a → ∃ s', step s a = some s' ∧ I s')
  (hfail : ∀ s a, I s → ok a → ¬safe s a → step s a = none)
include hsafe hfail

/-- A step that does not fail is safe and keeps the invariant. -/
theorem step_inv_of_safe {a : α} (h : I s) (hok : ok a) (hstep : step s a = some s') :
    safe s a ∧ I s' := by
  have hs : safe s a := by
    by_contra hs
    rw [hfail s a h hok hs] at hstep
    simp at hstep
  obtain ⟨s₁, h₁, hI⟩ := hsafe s a h hok hs
  obtain rfl := Option.some.inj (h₁.symm.trans hstep)
  exact ⟨hs, hI⟩

/-- **A run keeps the invariant** when every step that does not fail does. -/
theorem run_inv_of_safe (as : List α) (h : I s) (hok : ∀ a ∈ as, ok a)
    (hrun : as.foldlM step s = some s') : I s' := by
  induction as generalizing s with
  | nil =>
    obtain rfl := Option.some.inj hrun
    exact h
  | cons a as ih =>
    obtain ⟨s₁, h₁, hrun⟩ := foldlM_cons_eq_some.mp hrun
    exact ih (step_inv_of_safe hsafe hfail h (hok a List.mem_cons_self) h₁).2
      (fun b hb => hok b (List.mem_cons_of_mem _ hb)) hrun

/-- **A run does not fail if and only if each of its steps is safe** in the state that the run
has reached. -/
theorem run_iff_safe (as : List α) (h : I s) (hok : ∀ a ∈ as, ok a) :
    (∃ s', as.foldlM step s = some s' ∧ I s') ↔
      ∀ pre a post u, as = pre ++ a :: post → pre.foldlM step s = some u → safe u a := by
  induction as generalizing s with
  | nil => exact ⟨fun _ pre a post u hsplit => by simp at hsplit, fun _ => ⟨s, rfl, h⟩⟩
  | cons b as ih =>
    have hokb := hok b List.mem_cons_self
    have hok' : ∀ a ∈ as, ok a := fun a ha => hok a (List.mem_cons_of_mem _ ha)
    constructor
    · rintro ⟨s', hrun, hI⟩ pre a post u hsplit hpre
      obtain ⟨s₁, h₁, hrun⟩ := foldlM_cons_eq_some.mp hrun
      obtain ⟨hs, hI₁⟩ := step_inv_of_safe hsafe hfail h hokb h₁
      cases pre with
      | nil =>
        obtain ⟨rfl, -⟩ := List.cons.inj hsplit
        obtain rfl := Option.some.inj hpre
        exact hs
      | cons c pre =>
        obtain ⟨rfl, hrest⟩ := List.cons.inj hsplit
        obtain ⟨s₂, h₂, hpre⟩ := foldlM_cons_eq_some.mp hpre
        obtain rfl := Option.some.inj (h₁.symm.trans h₂)
        exact (ih hI₁ hok').mp ⟨s', hrun, hI⟩ pre a post u hrest hpre
    · intro hall
      obtain ⟨s₁, h₁, hI₁⟩ := hsafe s b h hokb (hall [] b as s rfl rfl)
      obtain ⟨s', hrun, hI⟩ := (ih hI₁ hok').mpr fun pre a post u hsplit hpre =>
        hall (b :: pre) a post u (by rw [hsplit]; rfl) (foldlM_cons_eq_some.mpr ⟨s₁, h₁, hpre⟩)
      exact ⟨s', foldlM_cons_eq_some.mpr ⟨s₁, h₁, hrun⟩, hI⟩

end Safe

section Yields

variable {r : Option σ} {f : σ → Option α} {fits fits' : Prop} {P P' : σ → Prop} {Q : α → Prop}

/-- The value has the property if there is one, and under the condition there is one. -/
def Yields (r : Option σ) (fits : Prop) (P : σ → Prop) : Prop :=
  (∀ s, r = some s → P s) ∧ (fits → ∃ s, r = some s)

theorem Yields.of_some (h : P s) : Yields (some s) fits P :=
  ⟨fun _ hs => Option.some.inj hs ▸ h, fun _ => ⟨s, rfl⟩⟩

theorem Yields.of_exists (h : ∃ s, r = some s ∧ P s) : Yields r fits P := by
  obtain ⟨s, rfl, hs⟩ := h
  exact of_some hs

theorem Yields.mono (h : Yields r fits P) (hfits : fits' → fits) (hP : ∀ s, P s → P' s) :
    Yields r fits' P' :=
  ⟨fun s hs => hP s (h.1 s hs), fun hf => h.2 (hfits hf)⟩

/-- **One computation after the other.** -/
theorem Yields.bind (h : Yields r fits P) (hf : ∀ s, P s → Yields (f s) fits Q) :
    Yields (r.bind f) fits Q := by
  constructor
  · intro x hx
    obtain ⟨s, hs, hfs⟩ := Option.bind_eq_some_iff.mp hx
    exact (hf s (h.1 s hs)).1 x hfs
  · intro hfits
    obtain ⟨s, hs⟩ := h.2 hfits
    obtain ⟨x, hx⟩ := (hf s (h.1 s hs)).2 hfits
    exact ⟨x, Option.bind_eq_some_iff.mpr ⟨s, hs, hx⟩⟩

end Yields

end Lib
end ICon7
