import Mathlib.Tactic

/-!
# Runs

A system takes one input at a time, answers it and goes on in a new state. Its run over a list of
inputs leaves a last state and gives the list of answers. What each input keeps, the run keeps.
-/
namespace ContextAdvisor.Run

variable {σ ι ο : Type} (step : σ → ι → ο × σ)

/-- The state that a list of inputs leaves behind. -/
def after (s : σ) (inputs : List ι) : σ := inputs.foldl (fun s i => (step s i).2) s

/-- The answers to a list of inputs. -/
def answers : σ → List ι → List ο
  | _, [] => []
  | s, i :: rest => (step s i).1 :: answers (step s i).2 rest

/-- What the inputs yield, each in the state in which it is taken. -/
def collect {β : Type} (f : σ → ι → Option β) : σ → List ι → List β
  | _, [] => []
  | s, i :: rest => (f s i).toList ++ collect f (step s i).2 rest

/-- Does something hold of every input and the state in which it is taken? -/
def Always (P : σ → ι → Prop) : σ → List ι → Prop
  | _, [] => True
  | s, i :: rest => P s i ∧ Always P (step s i).2 rest

variable {step}

@[simp] theorem after_nil (s : σ) : after step s [] = s := rfl

@[simp] theorem after_cons (s : σ) (i : ι) (rest : List ι) :
    after step s (i :: rest) = after step (step s i).2 rest := rfl

@[simp] theorem after_append (s : σ) (front back : List ι) :
    after step s (front ++ back) = after step (after step s front) back := by
  simp only [after, List.foldl_append]

@[simp] theorem length_answers (s : σ) (inputs : List ι) :
    (answers step s inputs).length = inputs.length := by
  induction inputs generalizing s with
  | nil => rfl
  | cons i rest ih => simp only [answers, List.length_cons, ih]

@[simp] theorem answers_append (s : σ) (front back : List ι) :
    answers step s (front ++ back) =
      answers step s front ++ answers step (after step s front) back := by
  induction front generalizing s with
  | nil => rfl
  | cons i rest ih => simp only [List.cons_append, answers, ih, after_cons]

theorem always_append {P : σ → ι → Prop} {s : σ} {front back : List ι} :
    Always step P s (front ++ back) ↔
      Always step P s front ∧ Always step P (after step s front) back := by
  induction front generalizing s with
  | nil => simp [Always]
  | cons i rest ih => simp only [List.cons_append, Always, ih, after_cons, and_assoc]

/-- Whether something always holds can be decided if each case can. -/
instance decidableAlways {P : σ → ι → Prop} [∀ s i, Decidable (P s i)] :
    ∀ s inputs, Decidable (Always step P s inputs)
  | _, [] => .isTrue trivial
  | s, i :: rest =>
    have := decidableAlways (P := P) (step s i).2 rest
    inferInstanceAs (Decidable (P s i ∧ Always step P (step s i).2 rest))

theorem always_of_forall {P : σ → ι → Prop} {s : σ} {inputs : List ι}
    (h : ∀ i ∈ inputs, ∀ s, P s i) : Always step P s inputs := by
  induction inputs generalizing s with
  | nil => trivial
  | cons i rest ih =>
    exact ⟨h i List.mem_cons_self s, ih fun j hj => h j (List.mem_cons_of_mem _ hj)⟩

/-- What every input keeps holds after a run. -/
theorem after_of_kept {Q : σ → Prop} (keeps : ∀ s i, Q s → Q (step s i).2) {s : σ} (hq : Q s)
    (inputs : List ι) : Q (after step s inputs) := by
  induction inputs generalizing s with
  | nil => exact hq
  | cons i rest ih => exact ih (keeps s i hq)

/-- What follows from a property that every input keeps holds all along a run. -/
theorem always_of_kept {P : σ → ι → Prop} {Q : σ → Prop} (keeps : ∀ s i, Q s → Q (step s i).2)
    (implies : ∀ s i, Q s → P s i) {s : σ} (hq : Q s) (inputs : List ι) :
    Always step P s inputs := by
  induction inputs generalizing s with
  | nil => trivial
  | cons i rest ih => exact ⟨implies s i hq, ih (keeps s i hq)⟩

/-- What follows from a property that every input of a run keeps holds all along the run. -/
theorem always_of_always {P R : σ → ι → Prop} {Q : σ → Prop}
    (keeps : ∀ s i, P s i → Q s → Q (step s i).2) (implies : ∀ s i, Q s → R s i) {s : σ}
    {inputs : List ι} (hp : Always step P s inputs) (hq : Q s) : Always step R s inputs := by
  induction inputs generalizing s with
  | nil => trivial
  | cons i rest ih =>
    obtain ⟨here, later⟩ := hp
    exact ⟨implies s i hq, ih later (keeps s i here hq)⟩

theorem always_and {P R : σ → ι → Prop} {s : σ} {inputs : List ι} (hp : Always step P s inputs)
    (hr : Always step R s inputs) : Always step (fun s i => P s i ∧ R s i) s inputs := by
  induction inputs generalizing s with
  | nil => trivial
  | cons i rest ih => exact ⟨⟨hp.1, hr.1⟩, ih hp.2 hr.2⟩

/-- What every input of a run keeps holds after the run. -/
theorem after_of_always {P : σ → ι → Prop} {Q : σ → Prop}
    (keeps : ∀ s i, P s i → Q s → Q (step s i).2) {s : σ} {inputs : List ι}
    (hp : Always step P s inputs) (hq : Q s) : Q (after step s inputs) := by
  induction inputs generalizing s with
  | nil => exact hq
  | cons i rest ih =>
    obtain ⟨here, later⟩ := hp
    exact ih later (keeps s i here hq)

/-- What every input of a kind keeps holds after a run over inputs of that kind. -/
theorem after_of_forall {P : ι → Prop} {Q : σ → Prop}
    (keeps : ∀ s i, P i → Q s → Q (step s i).2) {s : σ} {inputs : List ι}
    (hp : ∀ i ∈ inputs, P i) (hq : Q s) : Q (after step s inputs) := by
  induction inputs generalizing s with
  | nil => exact hq
  | cons i rest ih =>
    exact ih (fun j hj => hp j (List.mem_cons_of_mem _ hj))
      (keeps s i (hp i List.mem_cons_self) hq)

/-- Two systems that agree in all states with a property go through the same states, if the property
is kept. -/
theorem after_congr {other : σ → ι → ο × σ} {Q : σ → Prop}
    (agrees : ∀ s i, Q s → other s i = step s i) (keeps : ∀ s i, Q s → Q (step s i).2) {s : σ}
    (hq : Q s) (inputs : List ι) : after other s inputs = after step s inputs := by
  induction inputs generalizing s with
  | nil => rfl
  | cons i rest ih =>
    rw [after_cons, after_cons, agrees s i hq]
    exact ih (keeps s i hq)

/-- Two systems in a relation that every input keeps, and under which the answers of one translate
to those of the other, translate so in every run, and the run keeps the relation. -/
theorem answers_map_of_related {τ β : Type} {other : τ → ι → β × τ} {f : β → ο} {R : σ → τ → Prop}
    (keeps : ∀ s t i, R s t → (step s i).1 = f (other t i).1 ∧ R (step s i).2 (other t i).2) {s : σ}
    {t : τ} (hr : R s t) (inputs : List ι) :
    answers step s inputs = (answers other t inputs).map f ∧
      R (after step s inputs) (after other t inputs) := by
  induction inputs generalizing s t with
  | nil => exact ⟨rfl, hr⟩
  | cons i rest ih =>
    obtain ⟨hanswer, hnext⟩ := keeps s t i hr
    obtain ⟨hanswers, hlast⟩ := ih hnext
    exact ⟨by rw [answers, answers, List.map_cons, hanswer, hanswers], hlast⟩

/-- Two systems in a relation that every input answers alike and keeps answer every run alike, and
the run keeps the relation. -/
theorem answers_of_related {τ : Type} {other : τ → ι → ο × τ} {R : σ → τ → Prop}
    (keeps : ∀ s t i, R s t → (step s i).1 = (other t i).1 ∧ R (step s i).2 (other t i).2) {s : σ}
    {t : τ} (hr : R s t) (inputs : List ι) : answers step s inputs = answers other t inputs ∧
      R (after step s inputs) (after other t inputs) := by
  obtain ⟨hanswers, hlast⟩ := answers_map_of_related (f := id) keeps hr inputs
  exact ⟨hanswers.trans (List.map_id _), hlast⟩

end ContextAdvisor.Run
