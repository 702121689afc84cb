import Mathlib.Algebra.Order.Ring.Int
import Mathlib.Data.List.Nodup

/-!
# The order of last use

A list is kept in the order of last use by moving each item that is used to the front. The order of
a whole history is that of its items by their last occurrence; a list that drops items only at its
end keeps a prefix of it.
-/

set_option autoImplicit false

namespace Recency

variable {α : Type*} [DecidableEq α] {a : α} {l k : List α}

/-- An item is used: it goes to the front. -/
def touch (a : α) (l : List α) : List α := a :: l.erase a

/-- The items of a history, which has its last item first, in the order of last use. -/
def order (history : List α) : List α := history.foldr touch []

theorem touch_of_not_mem (h : a ∉ l) : touch a l = a :: l := by
  rw [touch, List.erase_of_not_mem h]

theorem nodup_touch (h : l.Nodup) : (touch a l).Nodup :=
  List.nodup_cons.mpr ⟨fun ha ↦ ((List.Nodup.mem_erase_iff h).mp ha).1 rfl, h.erase a⟩

theorem length_touch_of_mem (h : a ∈ l) : (touch a l).length = l.length := by
  rw [touch, List.length_cons, List.length_erase_of_mem h]
  exact Nat.sub_add_cancel (List.length_pos_of_mem h)

theorem touch_isPrefix (h : l <+: k) : touch a l <+: touch a k := by
  obtain ⟨rest, rfl⟩ := h
  by_cases ha : a ∈ l
  · exact ⟨rest, by rw [touch, touch, List.erase_append_left _ ha, List.cons_append]⟩
  · exact ⟨rest.erase a, by
      rw [touch, touch, List.erase_append_right _ ha, List.erase_of_not_mem ha, List.cons_append]⟩

end Recency
