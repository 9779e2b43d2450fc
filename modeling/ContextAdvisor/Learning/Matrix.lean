import ContextAdvisor.Arithmetic.Scalar

/-!
# Small dense matrices

Vectors and matrices are stored as arrays whose lengths are part of their types. A matrix is
inverted either by its diagonal alone or by Gauss-Jordan elimination: column after column, the entry
of largest magnitude on or below the diagonal becomes the pivot, its row is scaled to make it one,
and the rest of the column is cleared. The same row operations turn the identity into the inverse. A
pivot that is negligible means that there is no inverse.
-/
namespace ContextAdvisor

/-- A square matrix, row by row. -/
abbrev Square (α : Type) (d : Nat) := Vector (Vector α d) d

/-- The scalar product. -/
def dot {α : Type} [Scalar α] {d : Nat} (x y : Vector α d) : α :=
  Scalar.sum (Vector.zipWith (· * ·) x y).toList

namespace Square

variable {α : Type} {d : Nat}

/-- The matrix with given entries. -/
def ofFn (f : Fin d → Fin d → α) : Square α d := Vector.ofFn fun i => Vector.ofFn (f i)

/-- An entry. -/
def entry (m : Square α d) (i j : Fin d) : α := (m.get i).get j

/-- The matrix with two rows exchanged. -/
def swapRows (m : Square α d) (i j : Fin d) : Square α d :=
  Vector.ofFn fun k => if k = i then m.get j else if k = j then m.get i else m.get k

variable [Scalar α]

/-- The identity matrix. -/
def identity : Square α d := ofFn fun i j => if i = j then 1.0 else 0.0

/-- The product with a vector. -/
def mulVec (m : Square α d) (x : Vector α d) : Vector α d := m.map (dot · x)

/-- The magnitude below which a pivot counts as zero. -/
def negligiblePivot : α := 1e-12

/-- The inverse of the diagonal, with negligible and negative entries raised to that magnitude. -/
def diagonalInverse (m : Square α d) : Square α d :=
  ofFn fun i j => if i = j then 1.0 / Scalar.max (m.entry i i) negligiblePivot else 0.0

/-- The row on or below the diagonal with the largest magnitude in a column, the last of several. -/
def pivotRow (m : Square α d) (col : Fin d) : Fin d :=
  ((List.finRange d).filter (col < ·)).foldl (fun best row =>
    let larger := Scalar.order (Scalar.abs (m.entry best col)) (Scalar.abs (m.entry row col))
    if larger.isLE then row else best) col

/-- Subtracts a multiple of one row from another; a factor of zero leaves the row as it is. -/
def subtractRow (row : Vector α d) (factor : α) (pivot : Vector α d) : Vector α d :=
  if factor == 0.0 then row else Vector.zipWith (fun x y => x - factor * y) row pivot

/-- Scales the row of a pivot in `target` and clears the other rows, with the factors that clear
`column` in the matrix `m`. -/
def eliminate (m target : Square α d) (col : Fin d) : Square α d :=
  let pivot := (target.get col).map (· / m.entry col col)
  Vector.ofFn fun row =>
    if row = col then pivot else subtractRow (target.get row) (m.entry row col) pivot

/-- Clears one column of the left matrix and does the same to the right one. -/
def reduceColumn (pair : Square α d × Square α d) (col : Fin d) :
    Option (Square α d × Square α d) :=
  let pivot := pivotRow pair.1 col
  if Scalar.abs (pair.1.entry pivot col) < negligiblePivot then none
  else
    let left := pair.1.swapRows col pivot
    let right := pair.2.swapRows col pivot
    some (eliminate left left col, eliminate left right col)

/-- The inverse by Gauss-Jordan elimination. -/
def inverse? (m : Square α d) : Option (Square α d) :=
  ((List.finRange d).foldlM reduceColumn (m, identity)).map (·.2)

end Square

end ContextAdvisor
