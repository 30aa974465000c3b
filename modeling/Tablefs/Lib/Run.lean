/-
Runs of a deterministic system, and invariants along them.

A system is a function `step` from a state and a label to the next state. A run is
a list of labels. `Meets` says that every step of a run meets a condition in the
state it is taken in; `run_invariant` is the one induction over runs that safety
arguments need: what every step that meets the condition keeps holds at the end.
-/
import Mathlib.Data.List.Basic

set_option autoImplicit false

namespace Transition

variable {σ α : Type*} (step : σ → α → σ)

/-- The state after a run. -/
def run (s : σ) (as : List α) : σ := as.foldl step s

@[simp] theorem run_nil (s : σ) : run step s [] = s := rfl

@[simp] theorem run_cons (s : σ) (a : α) (as : List α) :
    run step s (a :: as) = run step (step s a) as := rfl

theorem run_append (s : σ) (as bs : List α) :
    run step s (as ++ bs) = run step (run step s as) bs := List.foldl_append ..

/-- Every step of the run meets `C` in the state before it. -/
def Meets (C : σ → α → Prop) : σ → List α → Prop
  | _, [] => True
  | s, a :: as => C s a ∧ Meets C (step s a) as

instance Meets.instDecidable (C : σ → α → Prop) [∀ s a, Decidable (C s a)] (s : σ) :
    (as : List α) → Decidable (Meets step C s as)
  | [] => inferInstanceAs (Decidable True)
  | a :: as =>
      have := Meets.instDecidable C (step s a) as
      inferInstanceAs (Decidable (_ ∧ _))

/-- The answers along a run. -/
def answers {β : Type*} (out : σ → α → β) : σ → List α → List β
  | _, [] => []
  | s, a :: as => out s a :: answers out (step s a) as

variable {step}

theorem Meets.mono {C D : σ → α → Prop} (hCD : ∀ s a, C s a → D s a) {s : σ} {as : List α}
    (h : Meets step C s as) : Meets step D s as := by
  induction as generalizing s with
  | nil => trivial
  | cons a as ih => exact ⟨hCD s a h.1, ih h.2⟩

/-- What every step that meets the condition keeps holds after the run. -/
theorem run_invariant {P : σ → Prop} {C : σ → α → Prop}
    (hstep : ∀ s a, P s → C s a → P (step s a)) {s : σ} {as : List α} (h0 : P s)
    (hC : Meets step C s as) : P (run step s as) := by
  induction as generalizing s with
  | nil => exact h0
  | cons a as ih => exact ih (hstep s a h0 hC.1) hC.2

/-- What the invariant and the condition imply holds of every step of the run. -/
theorem meets_of_invariant {P : σ → Prop} {C D : σ → α → Prop}
    (hstep : ∀ s a, P s → C s a → P (step s a)) (hD : ∀ s a, P s → C s a → D s a) {s : σ}
    {as : List α} (h0 : P s) (hC : Meets step C s as) : Meets step D s as := by
  induction as generalizing s with
  | nil => trivial
  | cons a as ih => exact ⟨hD s a h0 hC.1, ih (hstep s a h0 hC.1) hC.2⟩

/-- Two conditions that agree where the invariant holds are met by the same runs. -/
theorem meets_congr {P : σ → Prop} {A C D : σ → α → Prop}
    (hstep : ∀ s a, P s → A s a → P (step s a)) (hCD : ∀ s a, P s → A s a → (C s a ↔ D s a))
    {s : σ} {as : List α} (h0 : P s) (hA : Meets step A s as) :
    Meets step C s as ↔ Meets step D s as := by
  induction as generalizing s with
  | nil => exact Iff.rfl
  | cons a as ih => exact and_congr (hCD s a h0 hA.1) (ih (hstep s a h0 hA.1) hA.2)

/-- Where `D` says of every step whether it keeps `Q`, the runs that keep `Q` are those
whose steps meet `D`. -/
theorem meets_next_iff {P Q : σ → Prop} {D : σ → α → Prop}
    (hstep : ∀ s a, P s → P (step s a))
    (hQD : ∀ s a, P s → Q s → (Q (step s a) ↔ D s a)) {s : σ} {as : List α} (h0 : P s)
    (hq : Q s) : Meets step (fun s a => Q (step s a)) s as ↔ Meets step D s as := by
  induction as generalizing s with
  | nil => exact Iff.rfl
  | cons a as ih =>
      constructor
      · intro h
        exact ⟨(hQD s a h0 hq).mp h.1, (ih (hstep s a h0) h.1).mp h.2⟩
      · intro h
        have hq' := (hQD s a h0 hq).mpr h.1
        exact ⟨hq', (ih (hstep s a h0) hq').mpr h.2⟩

/-- Where `C` keeps `Q`, and `Q` makes `C` and `D` the same, the runs that meet `C` from a
state with `Q` are those that meet `D`. -/
theorem meets_iff_of_keeps {Q : σ → Prop} {C D : σ → α → Prop}
    (hCD : ∀ s a, Q s → (C s a ↔ D s a)) (hkeep : ∀ s a, Q s → C s a → Q (step s a)) {s : σ}
    {as : List α} (h0 : Q s) : Meets step C s as ↔ Meets step D s as := by
  induction as generalizing s with
  | nil => exact Iff.rfl
  | cons a as ih =>
      constructor
      · intro h
        exact ⟨(hCD s a h0).mp h.1, (ih (hkeep s a h0 h.1)).mp h.2⟩
      · intro h
        have hC := (hCD s a h0).mpr h.1
        exact ⟨hC, (ih (hkeep s a h0 hC)).mpr h.2⟩

/-- A condition on labels alone, along a run. -/
theorem meets_of_forall {C : α → Prop} {as : List α} (h : ∀ a ∈ as, C a) (s : σ) :
    Meets step (fun _ a => C a) s as := by
  induction as generalizing s with
  | nil => trivial
  | cons a as ih =>
      exact ⟨h a List.mem_cons_self, ih (fun b hb => h b (List.mem_cons_of_mem _ hb)) _⟩

/-- Two systems that stay related and answer alike at every step that meets the condition
do so along every run. -/
theorem simulates {τ β : Type*} {step' : τ → α → τ} {out : σ → α → β} {out' : τ → α → β}
    {R : σ → τ → Prop} {C : σ → α → Prop}
    (hstep : ∀ s t a, R s t → C s a → R (step s a) (step' t a) ∧ out s a = out' t a) {s : σ}
    {t : τ} {as : List α} (h0 : R s t) (hC : Meets step C s as) :
    R (run step s as) (run step' t as) ∧ answers step out s as = answers step' out' t as := by
  induction as generalizing s t with
  | nil => exact ⟨h0, rfl⟩
  | cons a as ih =>
      obtain ⟨h1, ha⟩ := hstep s t a h0 hC.1
      obtain ⟨hR, has⟩ := ih h1 hC.2
      exact ⟨hR, by rw [answers, answers, ha, has]⟩

theorem Meets.and {C D : σ → α → Prop} {s : σ} {as : List α} (hC : Meets step C s as)
    (hD : Meets step D s as) : Meets step (fun s a => C s a ∧ D s a) s as := by
  induction as generalizing s with
  | nil => trivial
  | cons a as ih => exact ⟨⟨hC.1, hD.1⟩, ih hC.2 hD.2⟩

/-- A run is met part by part. -/
theorem meets_append {C : σ → α → Prop} {s : σ} {as bs : List α} :
    Meets step C s (as ++ bs) ↔ Meets step C s as ∧ Meets step C (run step s as) bs := by
  induction as generalizing s with
  | nil => exact (true_and _).symm.to_iff
  | cons a as ih => exact (and_congr Iff.rfl ih).trans and_assoc.symm

/-! ## Every state of a run -/

variable (step) in
/-- `P` holds in every state of a run, from the first to the last. -/
def Always (P : σ → Prop) (s : σ) (as : List α) : Prop := ∀ t ∈ as.scanl step s, P t

theorem always_nil {P : σ → Prop} {s : σ} : Always step P s [] ↔ P s := by
  rw [Always, List.scanl_nil, List.forall_mem_singleton]

theorem always_cons {P : σ → Prop} {s : σ} {a : α} {as : List α} :
    Always step P s (a :: as) ↔ P s ∧ Always step P (step s a) as := by
  rw [Always, List.scanl_cons, List.forall_mem_cons]
  rfl

theorem always_append {P : σ → Prop} {s : σ} {as bs : List α} :
    Always step P s (as ++ bs) ↔ Always step P s as ∧ Always step P (run step s as) bs := by
  induction as generalizing s with
  | nil =>
      rw [List.nil_append, always_nil, run_nil]
      refine (and_iff_right_of_imp fun h => ?_).symm
      cases bs with
      | nil => exact always_nil.mp h
      | cons b bs => exact (always_cons.mp h).1
  | cons a as ih => rw [List.cons_append, always_cons, always_cons, ih, run_cons, and_assoc]

theorem Always.last {P : σ → Prop} {s : σ} {as : List α} (h : Always step P s as) :
    P (run step s as) := by
  induction as generalizing s with
  | nil => exact always_nil.mp h
  | cons a as ih => exact ih (always_cons.mp h).2

theorem Always.take {P : σ → Prop} {s : σ} {as : List α} (h : Always step P s as) (n : ℕ) :
    P (run step s (as.take n)) := by
  rw [← List.take_append_drop n as] at h
  exact (always_append.mp h).1.last

/-- What every step that meets the condition keeps holds all along. -/
theorem always_of_keeps {P : σ → Prop} {C : σ → α → Prop}
    (hstep : ∀ s a, P s → C s a → P (step s a)) {s : σ} {as : List α} (h0 : P s)
    (hC : Meets step C s as) : Always step P s as := by
  induction as generalizing s with
  | nil => exact always_nil.mpr h0
  | cons a as ih => exact always_cons.mpr ⟨h0, ih (hstep s a h0 hC.1) hC.2⟩

end Transition
