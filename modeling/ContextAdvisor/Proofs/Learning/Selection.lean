import ContextAdvisor.Learning.Bandit
import Mathlib.Tactic

/-!
# The place of a selection

Both strategies pick a place of the list of candidates, if there is any candidate. A selection that
reads the candidate at its place, and gives no answer if there is none, is therefore the selection
itself.
-/
namespace ContextAdvisor

variable {α : Type}

theorem Generator.below_fst_lt [Scalar α] (g : Generator α) {n : Nat} (h : 0 < n) :
    (g.below n).1 < n :=
  g.place_lt g.drawn n h

namespace EpsilonGreedy

variable [Scalar α]

/-- The best place is a place of the list. -/
theorem bestPlace_lt {values : List α} (h : values ≠ []) : bestPlace values < values.length := by
  have hpositive : 0 < values.length := List.length_pos_of_ne_nil h
  unfold bestPlace
  refine List.foldlRecOn (motive := fun best : Option (Nat × α) =>
    (best.map (·.1)).getD 0 < values.length) values.zipIdx _ hpositive ?_
  rintro best hbest ⟨value, place⟩ hmem
  dsimp only
  split_ifs
  · exact (List.getElem?_eq_some_iff.mp (List.mem_zipIdx_iff_getElem?.mp hmem)).1
  · exact hbest

/-- What is picked is the place of a candidate. -/
theorem pick_fst_lt (learner : EpsilonGreedy α) {candidates : List String} (h : candidates ≠ []) :
    (learner.pick candidates).1 < candidates.length := by
  have hgreedy : bestPlace (candidates.map fun id => (learner.arm id).average) <
      candidates.length := by
    simpa using bestPlace_lt (mt List.map_eq_nil_iff.mp h)
  have hrandom := fun g : Generator α => g.below_fst_lt (List.length_pos_of_ne_nil h)
  unfold pick
  dsimp only
  split_ifs
  · exact hrandom (learner.generator.succeeds learner.epsilon).2
  · exact hgreedy
  · exact hgreedy

/-- Of some candidates one is selected, at its place. -/
theorem exists_select (learner : EpsilonGreedy α) {candidates : List String}
    (h : candidates ≠ []) : ∃ s, (learner.select candidates).1 = some s ∧
      candidates[s.index]? = some s.actionId := by
  have hpick := List.getElem?_eq_getElem (learner.pick_fst_lt h)
  simp only [select, hpick]
  exact ⟨_, rfl, hpick⟩

theorem select_nil (learner : EpsilonGreedy α) : (learner.select []).1 = none := by
  simp [select]

end EpsilonGreedy

namespace LinUcb

variable [Analytic α] {d : Nat} (learner : LinUcb α d) (x : Vector α d)

/-- The better of two selections is one of them. -/
theorem exists_better (best : Option (Selection α)) (candidate : String × Nat) :
    ∃ s, learner.better x best candidate = some s ∧
      (best = some s ∨ s.index = candidate.2 ∧ s.actionId = candidate.1) := by
  unfold better
  cases best with
  | none => exact ⟨_, rfl, .inr ⟨rfl, rfl⟩⟩
  | some b =>
    dsimp only
    split_ifs
    · exact ⟨_, rfl, .inr ⟨rfl, rfl⟩⟩
    · exact ⟨b, rfl, .inl rfl⟩

/-- Of some candidates one is selected, at its place. -/
theorem exists_select {candidates : List String} (h : candidates ≠ []) :
    ∃ s, learner.select candidates x = some s ∧ candidates[s.index]? = some s.actionId := by
  have hstep : ∀ best : Option (Selection α),
      (∀ s, best = some s → candidates[s.index]? = some s.actionId) →
      ∀ candidate ∈ candidates.zipIdx, ∃ s, learner.better x best candidate = some s ∧
        candidates[s.index]? = some s.actionId := by
    intro best hbest candidate hc
    obtain ⟨s, hs, hold | ⟨hindex, hid⟩⟩ := learner.exists_better x best candidate
    · exact ⟨s, hs, hbest s hold⟩
    · exact ⟨s, hs, hindex ▸ hid ▸ List.mem_zipIdx_iff_getElem?.mp hc⟩
  obtain ⟨first, rest, rfl⟩ := List.exists_cons_of_ne_nil h
  rw [select, List.zipIdx_cons, List.foldl_cons]
  rw [List.zipIdx_cons] at hstep
  refine List.foldlRecOn (motive := fun best : Option (Selection α) => ∃ s, best = some s ∧
    (first :: rest)[s.index]? = some s.actionId) _ _ ?_ ?_
  · exact hstep none (fun _ hs => nomatch hs) _ List.mem_cons_self
  · rintro best ⟨s, rfl, hs⟩ candidate hc
    refine hstep _ (fun t ht => ?_) candidate (List.mem_cons_of_mem _ hc)
    obtain rfl := Option.some.inj ht
    exact hs

theorem select_nil : learner.select [] x = none := rfl

end LinUcb

namespace Bandit

variable [Analytic α]

/-- Selects a candidate and reads it at its place. There is no answer if no candidate is at the
place, nor if none is selected although there are some. -/
def select? (bandit : Bandit α) (candidates : List String) (x : Features α) :
    Option (Option (Selection α) × Bandit α) :=
  match bandit.select candidates x with
  | (some s, next) => (candidates[s.index]?).map fun id => (some { s with actionId := id }, next)
  | (none, next) => if candidates.isEmpty then some (none, next) else none

/-- Of some candidates one is selected, at its place. -/
theorem exists_select (bandit : Bandit α) {candidates : List String} (h : candidates ≠ [])
    (x : Features α) : ∃ s, (bandit.select candidates x).1 = some s ∧
      candidates[s.index]? = some s.actionId := by
  cases bandit with
  | epsilonGreedy learner => exact learner.exists_select h
  | linUcb learner => exact learner.exists_select x h

theorem select_nil (bandit : Bandit α) (x : Features α) : (bandit.select [] x).1 = none := by
  cases bandit with
  | epsilonGreedy learner => exact learner.select_nil
  | linUcb learner => exact learner.select_nil x

/-- A selection finds the candidate at its place. -/
theorem select?_eq (bandit : Bandit α) (candidates : List String) (x : Features α) :
    bandit.select? candidates x = some (bandit.select candidates x) := by
  rcases hselect : bandit.select candidates x with ⟨selection, next⟩
  by_cases hc : candidates = []
  · subst hc
    obtain rfl : selection = none := (congrArg (·.1) hselect).symm.trans (bandit.select_nil x)
    rw [select?, hselect]
    rfl
  · obtain ⟨s, hs, hindex⟩ := bandit.exists_select hc x
    rw [hselect] at hs
    obtain rfl : selection = some s := hs
    simp only [select?, hselect, hindex, Option.map_some]

end Bandit

end ContextAdvisor
