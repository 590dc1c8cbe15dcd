/-
# Runs of a state machine

A total step function acts on states; a run folds it over a list of events.
`Along P` says that every step of a run meets `P`, a property of the event and of
the state before it, and `Always I` that every state reached satisfies `I`.  The
rules below turn facts about one step into facts about a run.
-/
import Mathlib

namespace Run

variable {σ ε : Type*} (step : σ → ε → σ)

/-- The state after a list of events. -/
def run (s : σ) (es : List ε) : σ := es.foldl step s

/-- Every step of the run meets `P`. -/
def Along (P : σ → ε → Prop) : σ → List ε → Prop
  | _, [] => True
  | s, e :: es => P s e ∧ Along P (step s e) es

/-- Every state of the run satisfies `I`. -/
def Always (I : σ → Prop) : σ → List ε → Prop
  | s, [] => I s
  | s, e :: es => I s ∧ Always I (step s e) es

variable {step}

instance Along.decidable {P : σ → ε → Prop} [∀ s e, Decidable (P s e)] :
    (s : σ) → (es : List ε) → Decidable (Along step P s es)
  | _, [] => inferInstanceAs (Decidable True)
  | s, e :: es =>
    have := Along.decidable (P := P) (step s e) es
    inferInstanceAs (Decidable (P s e ∧ Along step P (step s e) es))

theorem along_true (s : σ) (es : List ε) : Along step (fun _ _ => True) s es := by
  induction es generalizing s with
  | nil => trivial
  | cons e es ih => exact ⟨trivial, ih (step s e)⟩

theorem run_cons (s : σ) (e : ε) (es : List ε) :
    run step s (e :: es) = run step (step s e) es := rfl

theorem run_append (s : σ) (es es' : List ε) :
    run step s (es ++ es') = run step (run step s es) es' := by
  rw [run, run, run, List.foldl_append]

theorem along_append {P : σ → ε → Prop} {s : σ} {es es' : List ε} :
    Along step P s (es ++ es') ↔ Along step P s es ∧ Along step P (run step s es) es' := by
  induction es generalizing s with
  | nil => exact ⟨fun h => ⟨trivial, h⟩, fun h => h.2⟩
  | cons e es ih =>
    rw [List.cons_append, Along, Along, ih, run_cons, and_assoc]

/-- A step in the middle of a run meets what every step of the run meets. -/
theorem Along.at {P : σ → ε → Prop} {s : σ} {es : List ε} (h : Along step P s es)
    {es₁ es₂ : List ε} {e : ε} (hes : es = es₁ ++ e :: es₂) : P (run step s es₁) e := by
  subst hes
  exact (along_append.mp h).2.1

theorem Always.imp {I J : σ → Prop} (h : ∀ s, I s → J s) {s : σ} {es : List ε}
    (hI : Always step I s es) : Always step J s es := by
  induction es generalizing s with
  | nil => exact h s hI
  | cons e es ih => exact ⟨h s hI.1, ih hI.2⟩

theorem Always.head {I : σ → Prop} {s : σ} {es : List ε} (h : Always step I s es) : I s := by
  cases es with
  | nil => exact h
  | cons e es => exact h.1

/-- What holds in every state holds in the state after any first part of the run. -/
theorem Always.at {I : σ → Prop} {s : σ} {es : List ε} (h : Always step I s es)
    {es₁ es₂ : List ε} (hes : es = es₁ ++ es₂) : I (run step s es₁) := by
  subst hes
  induction es₁ generalizing s with
  | nil => exact h.head
  | cons e es₁ ih => exact ih h.2

/-- **Invariant rule**: what every step preserves holds in every state. -/
theorem Always.of_step {I : σ → Prop} (hstep : ∀ s e, I s → I (step s e)) {s : σ} (hs : I s)
    (es : List ε) : Always step I s es := by
  induction es generalizing s with
  | nil => exact hs
  | cons e es ih => exact ⟨hs, ih (hstep s e hs)⟩

/-- **Conditional invariant rule**: what every step meeting `P` preserves holds in every
state of a run whose steps all meet `P`. -/
theorem Along.always {P : σ → ε → Prop} {I : σ → Prop}
    (hstep : ∀ s e, I s → P s e → I (step s e)) {s : σ} (hs : I s) {es : List ε}
    (h : Along step P s es) : Always step I s es := by
  induction es generalizing s with
  | nil => exact hs
  | cons e es ih => exact ⟨hs, ih (hstep s e hs h.1) h.2⟩

theorem Always.last {I : σ → Prop} {s : σ} {es : List ε} (h : Always step I s es) :
    I (run step s es) := h.at (List.append_nil es).symm

/-- Where an invariant holds, a step property may be replaced by one that it implies. -/
theorem Along.imp {P Q : σ → ε → Prop} {I : σ → Prop} (hstep : ∀ s e, I s → I (step s e))
    (hPQ : ∀ s e, I s → P s e → Q s e) {s : σ} (hs : I s) {es : List ε}
    (h : Along step P s es) : Along step Q s es := by
  induction es generalizing s with
  | nil => trivial
  | cons e es ih => exact ⟨hPQ s e hs h.1, ih (hstep s e hs) h.2⟩

/-- Step properties that are equivalent where an invariant holds are equivalent along runs
from it. -/
theorem along_congr {P Q : σ → ε → Prop} {I : σ → Prop} (hstep : ∀ s e, I s → I (step s e))
    {s : σ} (hs : I s) {es : List ε} (hPQ : ∀ e ∈ es, ∀ s, I s → (P s e ↔ Q s e)) :
    Along step P s es ↔ Along step Q s es := by
  induction es generalizing s with
  | nil => exact Iff.rfl
  | cons e es ih =>
    rw [Along, Along, hPQ e List.mem_cons_self s hs,
      ih (hstep s e hs) (fun e' he' => hPQ e' (List.mem_cons_of_mem e he'))]

/-- **Exact rule**: where a step preserves `I` just when it meets `P`, the runs in which `I`
holds throughout are those whose steps all meet `P`; the steps are known to meet `Q`, and those
that meet `P` keep `J`. -/
theorem always_iff_along_inv {P Q : σ → ε → Prop} {I J : σ → Prop}
    (hJ : ∀ s e, J s → Q s e → P s e → J (step s e))
    (hstep : ∀ s e, J s → I s → Q s e → (I (step s e) ↔ P s e)) {s : σ} (hs : J s) (hI : I s)
    {es : List ε} (hQ : Along step Q s es) : Always step I s es ↔ Along step P s es := by
  induction es generalizing s with
  | nil => exact ⟨fun _ => trivial, fun _ => hI⟩
  | cons e es ih =>
    constructor
    · rintro ⟨-, h⟩
      have hI' : I (step s e) := h.head
      have hP : P s e := (hstep s e hs hI hQ.1).mp hI'
      exact ⟨hP, (ih (hJ s e hs hQ.1 hP) hI' hQ.2).mp h⟩
    · rintro ⟨hP, h⟩
      have hI' : I (step s e) := (hstep s e hs hI hQ.1).mpr hP
      exact ⟨hI, (ih (hJ s e hs hQ.1 hP) hI' hQ.2).mpr h⟩

/-- The exact rule where every step keeps `J`. -/
theorem always_iff_along {P : σ → ε → Prop} {I J : σ → Prop}
    (hJ : ∀ s e, J s → J (step s e)) (hstep : ∀ s e, J s → I s → (I (step s e) ↔ P s e))
    {s : σ} (hs : J s) (hI : I s) {es : List ε} :
    Always step I s es ↔ Along step P s es := by
  exact always_iff_along_inv (fun s e h _ _ => hJ s e h) (fun s e h hI _ => hstep s e h hI) hs hI
    (along_true s es)

/-- The exact rule where nothing but `I` is known of the states. -/
theorem always_iff_along_of {P Q : σ → ε → Prop} {I : σ → Prop}
    (hstep : ∀ s e, I s → Q s e → (I (step s e) ↔ P s e)) {s : σ} (hI : I s) {es : List ε}
    (hQ : Along step Q s es) : Always step I s es ↔ Along step P s es :=
  always_iff_along_inv (J := fun _ => True) (fun _ _ _ _ _ => trivial)
    (fun s e _ hI hQ => hstep s e hI hQ) trivial hI hQ

end Run
