-- SUMMARY: The edit distance of two texts is the least number of edits between them, and so a metric.
import Mathlib.Order.Bounds.Basic
import SchemaQuery.Suggest.EditDistance

/-!
# Edits

An edit inserts, deletes or substitutes one character anywhere in a text. `Edits`
counts the edits on the way from one text to another.

The rows of the distance table hold, for each beginning of the second text, its
distance from the part of the first text that was read. `cost` is that distance as a
recursion on the last characters, so it takes the texts backward. One step of the
table keeps this (`nextRow_cells`), and the last cell of the last row is the cost of
the whole texts. An edit changes the cost by at most one, so that no way from one text
to the other is shorter than their cost.
-/

namespace SchemaQuery.EditDistance

variable {a b c s t u : List Char} {m n : Nat}

/-! ## Edits -/

/-- One edit of a text, between any two parts of it. -/
inductive Edit : List Char → List Char → Prop where
  | insert (front back : List Char) (c : Char) : Edit (front ++ back) (front ++ c :: back)
  | delete (front back : List Char) (c : Char) : Edit (front ++ c :: back) (front ++ back)
  | substitute (front back : List Char) (c d : Char) :
      Edit (front ++ c :: back) (front ++ d :: back)

/-- A number of edits, one after the other, that turn a text into another one. -/
inductive Edits : Nat → List Char → List Char → Prop where
  | done (s : List Char) : Edits 0 s s
  | step {n : Nat} {s t u : List Char} (h : Edit s t) (hrest : Edits n t u) : Edits (n + 1) s u

namespace Edit

theorem symm (h : Edit s t) : Edit t s := by
  cases h with
  | insert front back c => exact .delete front back c
  | delete front back c => exact .insert front back c
  | substitute front back c d => exact .substitute front back d c

theorem cons (x : Char) (h : Edit s t) : Edit (x :: s) (x :: t) := by
  cases h with
  | insert front back c => exact .insert (x :: front) back c
  | delete front back c => exact .delete (x :: front) back c
  | substitute front back c d => exact .substitute (x :: front) back c d

theorem reverse (h : Edit s t) : Edit s.reverse t.reverse := by
  cases h with
  | insert front back c => simpa using Edit.insert back.reverse front.reverse c
  | delete front back c => simpa using Edit.delete back.reverse front.reverse c
  | substitute front back c d => simpa using Edit.substitute back.reverse front.reverse c d

end Edit

namespace Edits

theorem single (h : Edit s t) : Edits 1 s t := .step h (.done t)

theorem trans (h : Edits m s t) (h' : Edits n t u) : Edits (m + n) s u := by
  induction h with
  | done => rwa [Nat.zero_add]
  | step hedit _ ih =>
    rw [Nat.add_right_comm]
    exact .step hedit (ih h')

theorem symm (h : Edits n s t) : Edits n t s := by
  induction h with
  | done s => exact .done s
  | step hedit _ ih => exact ih.trans (single hedit.symm)

theorem cons (x : Char) (h : Edits n s t) : Edits n (x :: s) (x :: t) := by
  induction h with
  | done s => exact .done (x :: s)
  | step hedit _ ih => exact .step (hedit.cons x) ih

theorem reverse (h : Edits n s t) : Edits n s.reverse t.reverse := by
  induction h with
  | done s => exact .done s.reverse
  | step hedit _ ih => exact .step hedit.reverse ih

theorem zero_iff : Edits 0 s t ↔ s = t := by
  constructor
  · rintro ⟨⟩
    rfl
  · rintro rfl
    exact .done s

theorem shorter (h : Edits m s t) (h' : Edits n s t) : Edits (min m n) s t := by
  rcases Nat.le_total m n with hle | hle
  · rwa [Nat.min_eq_left hle]
  · rwa [Nat.min_eq_right hle]

theorem of_nil (t : List Char) : Edits t.length [] t := by
  induction t with
  | nil => exact .done []
  | cons d t ih => exact ih.trans (single (.insert [] t d))

end Edits

/-! ## Costs -/

/-- The distance of two texts that are written backward, by their last characters. -/
def cost : List Char → List Char → Nat
  | [], t => t.length
  | c :: s, [] => (c :: s).length
  | c :: s, d :: t =>
    min (min (cost s (d :: t) + 1) (cost (c :: s) t + 1)) (cost s t + if c = d then 0 else 1)
termination_by s t => s.length + t.length

@[simp] theorem cost_nil_left (t : List Char) : cost [] t = t.length := by
  rw [cost]

@[simp] theorem cost_nil_right (s : List Char) : cost s [] = s.length := by
  cases s <;> rw [cost]

theorem cost_cons_cons (c d : Char) (s t : List Char) : cost (c :: s) (d :: t) =
    min (min (cost s (d :: t) + 1) (cost (c :: s) t + 1)) (cost s t + if c = d then 0 else 1) := by
  rw [cost]

theorem cost_self (s : List Char) : cost s s = 0 := by
  induction s with
  | nil => simp
  | cons c s ih => simp [cost_cons_cons, ih]

/-- There is a way of that cost: the last characters are deleted, inserted, or left or substituted. -/
theorem edits_cost (s t : List Char) : Edits (cost s t) s t := by
  fun_induction cost s t with
  | case1 t => exact .of_nil t
  | case2 c s => exact (Edits.of_nil (c :: s)).symm
  | case3 c s d t ihdelete ihinsert ihlast =>
    refine .shorter (.shorter (.step (.delete [] s c) ihdelete) ?_) ?_
    · exact ihinsert.trans (.single (.insert [] t d))
    · split
      · rename_i hsame
        exact hsame ▸ ihlast.cons c
      · exact (ihlast.cons c).trans (.single (.substitute [] t c d))

theorem cost_cons_left_le (c : Char) (s t : List Char) : cost (c :: s) t ≤ cost s t + 1 := by
  cases t with
  | nil => simp
  | cons d t =>
    rw [cost_cons_cons]
    omega

theorem cost_cons_right_le (d : Char) (s t : List Char) : cost s (d :: t) ≤ cost s t + 1 := by
  cases s with
  | nil => simp
  | cons c s =>
    rw [cost_cons_cons]
    omega

theorem cost_cons_cons_le (c d : Char) (s t : List Char) :
    cost (c :: s) (d :: t) ≤ cost s t + 1 := by
  rw [cost_cons_cons]
  split <;> omega

theorem cost_le_cons_left (c : Char) (s t : List Char) : cost s t ≤ cost (c :: s) t + 1 := by
  induction t with
  | nil =>
    rw [cost_nil_right, cost_nil_right, List.length_cons]
    omega
  | cons d t ih =>
    have hinsert := cost_cons_right_le d s t
    rw [cost_cons_cons]
    omega

theorem cost_substitute_le (c d : Char) (s t : List Char) :
    cost (c :: s) t ≤ cost (d :: s) t + 1 := by
  induction t with
  | nil => simp
  | cons e t ih =>
    have hdelete := cost_cons_left_le c s (e :: t)
    have hinsert := cost_cons_right_le e (c :: s) t
    have hlast := cost_cons_cons_le c e s t
    rw [cost_cons_cons d]
    omega

/-- What changes the cost of two texts by at most one does so behind one more character. -/
theorem cost_cons_mono (c : Char) (h : ∀ u, cost s u ≤ cost t u + 1) (u : List Char) :
    cost (c :: s) u ≤ cost (c :: t) u + 1 := by
  induction u with
  | nil =>
    have hnil := h []
    simp only [cost_nil_right, List.length_cons] at hnil ⊢
    omega
  | cons e u ih =>
    have hdelete := h (e :: u)
    have hlast := h u
    rw [cost_cons_cons, cost_cons_cons]
    omega

theorem cost_append_mono (front : List Char) (h : ∀ u, cost s u ≤ cost t u + 1) (u : List Char) :
    cost (front ++ s) u ≤ cost (front ++ t) u + 1 := by
  induction front generalizing u with
  | nil => exact h u
  | cons x front ih => exact cost_cons_mono x ih u

/-- An edit changes the cost by at most one. -/
theorem Edit.cost_le (h : Edit s t) (u : List Char) : cost s u ≤ cost t u + 1 := by
  cases h with
  | insert front back c => exact cost_append_mono front (cost_le_cons_left c back) u
  | delete front back c => exact cost_append_mono front (cost_cons_left_le c back) u
  | substitute front back c d => exact cost_append_mono front (cost_substitute_le c d back) u

/-- No way from one text to another is shorter than their cost. -/
theorem Edits.cost_le (h : Edits n s t) : cost s t ≤ n := by
  induction h with
  | done s => rw [cost_self]
  | @step n s t u hedit _ ih =>
    have hstep := hedit.cost_le u
    omega

theorem cost_comm (s t : List Char) : cost s t = cost t s :=
  Nat.le_antisymm (edits_cost t s).symm.cost_le (edits_cost s t).symm.cost_le

/-! ## The distance table -/

/-- A row of the table from one column on: the costs of a text against the beginnings of another,
    given backward up to this column and forward from there. -/
def cells (r : List Char) : List Char → List Char → List Nat
  | q, [] => [cost r q]
  | q, d :: b => cost r q :: cells r (d :: q) b

theorem cells_eq_cons (r q b : List Char) : ∃ row, cells r q b = cost r q :: row := by
  cases b <;> exact ⟨_, rfl⟩

theorem getLastD_cells (r q b : List Char) (x : Nat) :
    (cells r q b).getLastD x = cost r (b.reverse ++ q) := by
  induction b generalizing q x with
  | nil => rfl
  | cons d b ih =>
    rw [cells, List.getLastD_cons, ih]
    simp

/-- The first row counts insertions. -/
theorem cells_nil (q b : List Char) :
    cells [] q b = List.range' q.length (b.length + 1) := by
  induction b generalizing q with
  | nil => simp [cells]
  | cons d b ih => simp [cells, ih, List.range'_succ]

/-- The cells of a row from a column on follow from the row above and the cell before. -/
theorem rowFrom_cells (c : Char) (r q b : List Char) :
    cost (c :: r) q :: rowFrom c b (cells r q b) (cost (c :: r) q) = cells (c :: r) q b := by
  induction b generalizing q with
  | nil => rfl
  | cons d b ih =>
    -- the row above has one more cell, so the step reads the cells above and diagonally above
    obtain ⟨row, hrow⟩ := cells_eq_cons r (d :: q) b
    rw [cells, cells, hrow, rowFrom, ← cost_cons_cons, ← hrow, ih]

/-- One more character of the first text: the next row has its costs. -/
theorem nextRow_cells (c : Char) (r b : List Char) :
    nextRow b (cells r [] b) c = cells (c :: r) [] b := by
  obtain ⟨row, hrow⟩ := cells_eq_cons r [] b
  have hfirst : (cells r [] b).headD 0 + 1 = cost (c :: r) [] := by
    rw [hrow]
    simp
  rw [nextRow, hfirst, rowFrom_cells]

theorem foldl_nextRow (r a b : List Char) :
    a.foldl (nextRow b) (cells r [] b) = cells (a.reverse ++ r) [] b := by
  induction a generalizing r with
  | nil => rfl
  | cons c a ih => simp [nextRow_cells, ih]

theorem lastRow_eq_cells (a b : List Char) : lastRow a b = cells a.reverse [] b := by
  have hfirst : List.range (b.length + 1) = cells [] [] b := by
    rw [cells_nil, List.range_eq_range']
    rfl
  rw [lastRow, hfirst, foldl_nextRow, List.append_nil]

/-- The last cell of the last row is the cost of the whole texts. -/
theorem lastCell_eq_cost (a b : List Char) : lastCell a b = cost a.reverse b.reverse := by
  rw [lastCell, lastRow_eq_cells, getLastD_cells, List.append_nil]

theorem distance_eq_cost (a b : String) :
    distance a b = cost a.toList.reverse b.toList.reverse := by
  unfold distance
  split
  · rw [lastCell_eq_cost, cost_comm]
  · exact lastCell_eq_cost ..

/-! ## The distance -/

theorem edits_distance (a b : String) : Edits (distance a b) a.toList b.toList := by
  rw [distance_eq_cost]
  simpa using (edits_cost a.toList.reverse b.toList.reverse).reverse

theorem distance_le {a b : String} (h : Edits n a.toList b.toList) : distance a b ≤ n := by
  rw [distance_eq_cost]
  exact h.reverse.cost_le

/-- The distance of two texts is the least number of edits that turn one into the other. So it is
    symmetric, zero for equal texts only, and no longer than the way over a third text. -/
theorem distance_leastEdits :
    (∀ a b, IsLeast {n | Edits n a.toList b.toList} (distance a b)) ∧
    (∀ a b, distance a b = distance b a) ∧
    (∀ a b, distance a b = 0 ↔ a = b) ∧
    ∀ a b c, distance a c ≤ distance a b + distance b c := by
  refine ⟨fun a b => ⟨edits_distance a b, fun n => distance_le⟩, fun a b => ?_, fun a b => ?_,
    fun a b c => ?_⟩
  · exact Nat.le_antisymm (distance_le (edits_distance b a).symm)
      (distance_le (edits_distance a b).symm)
  · constructor
    · intro hzero
      have hedits := edits_distance a b
      rw [hzero, Edits.zero_iff] at hedits
      exact String.toList_injective hedits
    · rintro rfl
      exact Nat.le_zero.1 (distance_le (.done a.toList))
  · exact distance_le ((edits_distance a b).trans (edits_distance b c))

end SchemaQuery.EditDistance
