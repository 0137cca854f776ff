/-!
Sorting by insertion. What compares as equal keeps its order.
-/

namespace Wireform.Ordered

/-- Puts `a` in front of the first entry that it may precede. -/
def insert {α : Type} (precedes : α → α → Bool) (a : α) : List α → List α
  | [] => [a]
  | b :: rest => if precedes a b then a :: b :: rest else b :: insert precedes a rest

def sort {α : Type} (precedes : α → α → Bool) (entries : List α) : List α :=
  entries.foldr (insert precedes) []

theorem perm_insert {α : Type} (precedes : α → α → Bool) (a : α) (entries : List α) :
    (insert precedes a entries).Perm (a :: entries) := by
  induction entries with
  | nil => exact .refl _
  | cons b rest ih =>
    unfold insert
    split
    · exact .refl _
    · exact (ih.cons b).trans (.swap a b rest)

theorem perm_sort {α : Type} (precedes : α → α → Bool) (entries : List α) :
    (sort precedes entries).Perm entries := by
  induction entries with
  | nil => exact .refl _
  | cons a rest ih => exact (perm_insert precedes a _).trans (ih.cons a)

end Wireform.Ordered
