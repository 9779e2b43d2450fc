/-!
# Windows over the last values

Several averages look at the last values of a stream only. A window is a list, oldest value first.

The last values of a stream are a part of its end. They do not depend on what came long before, and
they may be sifted, translated or looked at through a larger window first.
-/
namespace ContextAdvisor.Window

variable {α : Type} {n m : Nat} {x : α} {xs : List α}

/-- The last `n` values of a list. -/
def last (n : Nat) (xs : List α) : List α := xs.drop (xs.length - n)

/-- Adds a value to a window that holds at most `n`; the oldest gives way. -/
def push (n : Nat) (window : List α) (x : α) : List α := last n (window ++ [x])

theorem last_sublist (n : Nat) (xs : List α) : (last n xs).Sublist xs := List.drop_sublist _ _

@[simp] theorem length_last (n : Nat) (xs : List α) : (last n xs).length = min n xs.length := by
  rw [last, List.length_drop]
  omega

/-- A short stream fits into the window. -/
theorem last_of_length_le (h : xs.length ≤ n) : last n xs = xs := by
  rw [last, Nat.sub_eq_zero_of_le h, List.drop_zero]

@[simp] theorem last_nil (n : Nat) : last n ([] : List α) = [] := last_of_length_le n.zero_le

/-- A stream that is long enough on its own determines the window, whatever came before it. -/
theorem last_append_of_le {ys : List α} (h : n ≤ ys.length) (xs : List α) :
    last n (xs ++ ys) = last n ys := by
  rw [last, last, List.length_append, Nat.add_sub_assoc h, List.drop_length_add_append]

theorem last_concat (n : Nat) (xs : List α) (x : α) :
    last (n + 1) (xs ++ [x]) = last n xs ++ [x] := by
  have hlength : (xs ++ [x]).length - (n + 1) = xs.length - n := by simp
  rw [last, hlength, List.drop_append_of_le_length (Nat.sub_le _ _), last]

theorem last_last (h : n ≤ m) (xs : List α) : last n (last m xs) = last n xs := by
  simp only [last, List.length_drop, List.drop_drop]
  congr 1
  omega

@[simp] theorem length_push (n : Nat) (xs : List α) (x : α) :
    (push n xs x).length = min n (xs.length + 1) := by
  rw [push, length_last, List.length_append, List.length_singleton]

theorem length_push_le (n : Nat) (window : List α) (x : α) : (push n window x).length ≤ n := by
  rw [length_push]
  exact Nat.min_le_left _ _

/-- A window that follows a stream holds its last values. -/
theorem push_last (n : Nat) (xs : List α) (x : α) :
    push n (last n xs) x = last n (xs ++ [x]) := by
  simp only [push, last, List.length_append, List.length_drop, List.length_singleton]
  by_cases h : n = 0
  · subst h
    simp
  · rw [← List.drop_append_of_le_length (by omega), List.drop_drop]
    congr 1
    omega

theorem push_map {β : Type} (f : α → β) (n : Nat) (xs : List α) (x : α) :
    push n (xs.map f) (f x) = (push n xs x).map f := by
  simp [push, last, List.map_drop]

theorem mem_last_iff :
    x ∈ last n xs ↔ ∃ front back, xs = front ++ x :: back ∧ back.length < n := by
  constructor
  · intro h
    obtain ⟨front, back, hsplit⟩ := List.append_of_mem h
    refine ⟨xs.take (xs.length - n) ++ front, back, ?_, ?_⟩
    · rw [List.append_assoc, ← hsplit, last, List.take_append_drop]
    · have hlength := congrArg List.length hsplit
      simp only [last, List.length_drop, List.length_append, List.length_cons] at hlength
      omega
  · rintro ⟨front, back, rfl, hback⟩
    have hfront : (front ++ x :: back).length - n ≤ front.length := by
      simp only [List.length_append, List.length_cons]
      omega
    rw [last, List.drop_append_of_le_length hfront]
    simp

theorem mem_last_of_le (h : x ∈ last n xs) (hnm : n ≤ m) : x ∈ last m xs := by
  obtain ⟨front, back, hsplit, hback⟩ := mem_last_iff.mp h
  exact mem_last_iff.mpr ⟨front, back, hsplit, Nat.lt_of_lt_of_le hback hnm⟩

/-- What is kept moves towards the end of the stream. -/
theorem mem_last_filter {p : α → Bool} (h : x ∈ last n xs) (hx : p x) :
    x ∈ last n (xs.filter p) := by
  obtain ⟨front, back, rfl, hback⟩ := mem_last_iff.mp h
  refine mem_last_iff.mpr ⟨front.filter p, back.filter p, ?_, ?_⟩
  · rw [List.filter_append, List.filter_cons_of_pos hx]
  · exact Nat.lt_of_le_of_lt (List.length_filter_le p back) hback

/-- The last values of a stream can be sifted before or after the window is taken, if nothing that
is kept comes before something that is not. -/
theorem filter_last {p : α → Bool} (h : xs.Pairwise fun a b => p a → p b) (n : Nat) :
    (last n xs).filter p = last n (xs.filter p) := by
  induction xs with
  | nil => rw [last_nil, List.filter_nil, last_nil]
  | cons x rest ih =>
    obtain ⟨hfirst, hrest⟩ := List.pairwise_cons.mp h
    by_cases hx : p x
    · -- from here on everything is kept
      have hall : ∀ y ∈ x :: rest, p y := by
        intro y hy
        rcases List.mem_cons.mp hy with rfl | hy
        · exact hx
        · exact hfirst y hy hx
      rw [List.filter_eq_self.mpr hall,
        List.filter_eq_self.mpr fun y hy => hall y ((last_sublist n _).subset hy)]
    · rw [List.filter_cons_of_neg hx, ← ih hrest]
      by_cases hn : n ≤ rest.length
      · rw [← List.singleton_append, last_append_of_le hn]
      · have hfits : rest.length ≤ n := Nat.le_of_lt (Nat.lt_of_not_le hn)
        have hwhole : (x :: rest).length ≤ n := Nat.lt_of_not_le hn
        rw [last_of_length_le hwhole, last_of_length_le hfits, List.filter_cons_of_neg hx]

end ContextAdvisor.Window
