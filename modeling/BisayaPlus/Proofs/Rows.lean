/-
Places in a row.

A machine that reads with a cursor keeps what it reads in a row that never
changes, and a place in the row is known by what stands ahead of it. The
scanner has a row of characters (`Proofs/ScannerSteps.lean`), the parser
one of tokens (`Proofs/FirstBoundary.lean`).
-/
namespace BisayaPlus.Row

variable {α : Type} {row ahead run rest : List α} {a : α} {i n : Nat}

/-- One step further, one element less is ahead. -/
theorem drop_succ (h : row.drop i = a :: rest) : row.drop (i + 1) = rest := by
  rw [← List.tail_drop, h, List.tail_cons]

/-- Behind a run, what followed it is ahead. -/
theorem drop_add (h : row.drop i = run ++ rest) :
    row.drop (i + run.length) = rest := by
  rw [← List.drop_drop, h, List.drop_left]

/-- A place with something ahead is in the row. -/
theorem lt_length (h : row.drop i = ahead) (hahead : ahead ≠ []) :
    i < row.length := by
  rw [← h, ne_eq, List.drop_eq_nil_iff] at hahead
  omega

/-- The element at a place is the first one ahead. -/
theorem getElem?_of_drop (h : row.drop i = a :: rest) : row[i]? = some a := by
  rw [← List.head?_drop, h]
  rfl

/-- A run is found again by its two ends. -/
theorem take_drop (h : row.drop i = run ++ rest) :
    (row.take (i + run.length)).drop i = run := by
  rw [List.drop_take, h, Nat.add_sub_cancel_left, List.take_left]

/-- What bounds the row bounds every run in it. -/
theorem length_lt (hn : row.length < n) (h : row.drop i = run ++ rest) :
    run.length < n := by
  have hlength := congrArg List.length h
  rw [List.length_drop, List.length_append] at hlength
  omega

end BisayaPlus.Row
