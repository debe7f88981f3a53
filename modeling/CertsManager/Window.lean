import Mathlib

/-!
# Window — what of a list of times is younger than a width

A list of times is looked at again and again, and each look drops what has left the window
`(now - width, now]`.  Since looks happen at later and later times, what one look drops no later
look would keep.
-/

namespace CertsManager
namespace Window

variable {α : Type*} [LinearOrder α] [Add α]

/-- The times younger than `width` at `now`, in order. -/
def within (width now : α) (times : List α) : List α :=
  times.filter fun t => decide (now < t + width)

theorem mem_within {width now t : α} {times : List α} :
    t ∈ within width now times ↔ t ∈ times ∧ now < t + width := by
  simp [within]

theorem within_append (width now : α) (a b : List α) :
    within width now (a ++ b) = within width now a ++ within width now b :=
  List.filter_append ..

theorem within_sublist (width now : α) (times : List α) : (within width now times).Sublist times :=
  List.filter_sublist

/-- What an earlier look has dropped, a later one would have dropped. -/
theorem within_within (width : α) {now later : α} (hle : now ≤ later) (times : List α) :
    within width later (within width now times) = within width later times := by
  rw [within, within, List.filter_filter]
  refine List.filter_congr fun t _ => ?_
  by_cases hlater : later < t + width
  · simp [hlater, lt_of_le_of_lt hle hlater]
  · simp [hlater]

/-- If the oldest time is within the window, all are. -/
theorem within_eq_self [AddRightMono α] {width now oldest : α} {times : List α}
    (hsorted : (oldest :: times).Pairwise (· ≤ ·)) (hnow : now < oldest + width) :
    within width now (oldest :: times) = oldest :: times := by
  refine List.filter_eq_self.2 fun t ht => ?_
  have hle : oldest ≤ t := by
    rcases List.mem_cons.1 ht with rfl | ht
    · exact le_rfl
    · exact List.rel_of_pairwise_cons hsorted ht
  simpa using lt_of_lt_of_le hnow (add_le_add_left hle width)

end Window
end CertsManager
