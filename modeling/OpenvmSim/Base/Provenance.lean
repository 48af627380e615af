import Mathlib.Data.List.Infix

/-! Where the elements that leave a queue come from.

A queue is filled by putting elements behind the others or in their place, and read from its
front. `Accounted put taken queue` keeps the account of such a queue: of all that was put in,
what was taken and what is left. Nothing is taken that was not put in, nothing twice, and
nothing out of order. -/
namespace OpenvmSim

structure Accounted {α : Type} (put taken queue : List α) : Prop where
  rest : queue <:+ put
  once : (taken ++ queue).Sublist put

namespace Accounted
variable {α : Type} {put taken queue : List α}

theorem nil : Accounted ([] : List α) [] [] := ⟨List.suffix_rfl, .refl _⟩

theorem taken_sublist (h : Accounted put taken queue) : taken.Sublist put :=
  (List.sublist_append_left taken queue).trans h.once

/-- The front of the queue is a piece of what was put in. -/
theorem take_infix (h : Accounted put taken queue) (n : ℕ) : queue.take n <:+: put :=
  (List.take_prefix n queue).isInfix.trans h.rest.isInfix

theorem replace (h : Accounted put taken queue) (bs : List α) : Accounted (put ++ bs) taken bs :=
  ⟨List.suffix_append put bs, h.taken_sublist.append (.refl bs)⟩

theorem push (h : Accounted put taken queue) (bs : List α) :
    Accounted (put ++ bs) taken (queue ++ bs) := by
  refine ⟨?_, ?_⟩
  · obtain ⟨before, rfl⟩ := h.rest
    rw [List.append_assoc]
    exact List.suffix_append before (queue ++ bs)
  · rw [← List.append_assoc]
    exact h.once.append (.refl bs)

theorem take (h : Accounted put taken queue) (n : ℕ) :
    Accounted put (taken ++ queue.take n) (queue.drop n) := by
  refine ⟨(List.drop_suffix n queue).trans h.rest, ?_⟩
  rw [List.append_assoc, List.take_append_drop]
  exact h.once

end Accounted

end OpenvmSim
