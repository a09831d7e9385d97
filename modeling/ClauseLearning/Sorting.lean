/-!
# Sorting

A stable sort by insertion, for lists that are short.  It is by recursion on the list, so that a run which sorts can
be evaluated in a proof, which one that sorts by merging cannot.

* `insertBy` — puts an element into a sorted list.
* `sortBy` — sorts a list, with `sortBy_perm` and `pairwise_sortBy`.
-/

namespace ClauseLearning

variable {α : Type} {le : α → α → Bool} {a b : α} {as : List α}

/-- Puts an element into a list, before the first one that it is not after. -/
def insertBy (le : α → α → Bool) (a : α) : List α → List α
  | [] => [a]
  | b :: bs => if le a b then a :: b :: bs else b :: insertBy le a bs

/-- Sorts a list.  Elements that may stand in either order keep theirs. -/
def sortBy (le : α → α → Bool) : List α → List α
  | [] => []
  | a :: as => insertBy le a (sortBy le as)

theorem insertBy_perm (le : α → α → Bool) (a : α) (as : List α) : (insertBy le a as).Perm (a :: as) := by
  induction as with
  | nil => exact .refl _
  | cons b bs ih =>
    unfold insertBy
    split
    · exact .refl _
    · exact (ih.cons b).trans (.swap a b bs)

theorem sortBy_perm (le : α → α → Bool) (as : List α) : (sortBy le as).Perm as := by
  induction as with
  | nil => exact .refl _
  | cons a as ih => exact (insertBy_perm le a _).trans (ih.cons a)

@[simp] theorem mem_sortBy : a ∈ sortBy le as ↔ a ∈ as := (sortBy_perm le as).mem_iff

section Order

variable (htrans : ∀ a b c, le a b = true → le b c = true → le a c = true)
  (htotal : ∀ a b, le a b = true ∨ le b a = true)
include htrans htotal

theorem pairwise_insertBy (h : as.Pairwise fun a b => le a b = true) (a : α) :
    (insertBy le a as).Pairwise fun a b => le a b = true := by
  induction as with
  | nil => simp [insertBy]
  | cons b bs ih =>
    obtain ⟨hb, hbs⟩ := List.pairwise_cons.1 h
    unfold insertBy
    split <;> rename_i hab
    · refine List.pairwise_cons.2 ⟨fun c hc => ?_, h⟩
      rcases List.mem_cons.1 hc with rfl | hc
      · exact hab
      · exact htrans a b c hab (hb c hc)
    · refine List.pairwise_cons.2 ⟨fun c hc => ?_, ih hbs⟩
      rcases List.mem_cons.1 ((insertBy_perm le a bs).mem_iff.1 hc) with rfl | hc
      · exact (htotal c b).resolve_left hab
      · exact hb c hc

/-- What is sorted is in order. -/
theorem pairwise_sortBy (as : List α) : (sortBy le as).Pairwise fun a b => le a b = true := by
  induction as with
  | nil => exact .nil
  | cons a as ih => exact pairwise_insertBy htrans htotal ih a

end Order

end ClauseLearning
