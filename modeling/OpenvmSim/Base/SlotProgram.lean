import Mathlib.Logic.Function.Basic

/-! Programs on slots.

An operation puts a value made of two slots into a third. Slots that no operation writes to are kept
(`run_kept`), and the values may be looked at through a map that respects the operations
(`run_map`). -/
namespace OpenvmSim

/-- The value `op` makes of the slots `left` and `right` goes to the slot `dest`. -/
structure SlotOp (ι O : Type*) where
  op : O
  dest : ι
  left : ι
  right : ι
  deriving DecidableEq

namespace SlotOp

section Run
variable {ι O V W : Type*} [DecidableEq ι] (eval : O → V → V → V)

def apply (v : ι → V) (o : SlotOp ι O) : ι → V :=
  Function.update v o.dest (eval o.op (v o.left) (v o.right))

def run (ops : List (SlotOp ι O)) (v : ι → V) : ι → V := ops.foldl (apply eval) v

@[simp] theorem run_nil (v : ι → V) : run eval [] v = v := rfl

@[simp] theorem run_cons (o : SlotOp ι O) (ops : List (SlotOp ι O)) (v : ι → V) :
    run eval (o :: ops) v = run eval ops (apply eval v o) := rfl

theorem run_append (ops ops' : List (SlotOp ι O)) (v : ι → V) :
    run eval (ops ++ ops') v = run eval ops' (run eval ops v) := List.foldl_append

/-- No operation of a run has operands it is stuck on. -/
def Free (stuck : O → V → V → Prop) : List (SlotOp ι O) → (ι → V) → Prop
  | [], _ => True
  | o :: ops, v => ¬stuck o.op (v o.left) (v o.right) ∧ Free stuck ops (apply eval v o)

variable {eval} in
theorem free_append {stuck : O → V → V → Prop} {ops ops' : List (SlotOp ι O)} {v : ι → V}
    (h : Free eval stuck ops v) (h' : Free eval stuck ops' (run eval ops v)) :
    Free eval stuck (ops ++ ops') v := by
  induction ops generalizing v with
  | nil => exact h'
  | cons o ops ih => exact ⟨h.1, ih h.2 h'⟩

/-- A slot no operation writes to keeps its value. -/
theorem run_kept {ops : List (SlotOp ι O)} {i : ι} (h : ∀ o ∈ ops, o.dest ≠ i) (v : ι → V) :
    run eval ops v i = v i := by
  induction ops generalizing v with
  | nil => rfl
  | cons o ops ih =>
    rw [run_cons, ih (fun o' ho' => h o' (List.mem_cons_of_mem _ ho')), apply,
      Function.update_of_ne (h o List.mem_cons_self).symm]

/-- What every operation gives holds of every slot that is written to. -/
theorem run_written {P : V → Prop} (heval : ∀ op x y, P (eval op x y)) {ops : List (SlotOp ι O)}
    {i : ι} (h : ∃ o ∈ ops, o.dest = i) (v : ι → V) : P (run eval ops v i) := by
  induction ops generalizing v with
  | nil =>
    obtain ⟨o, ho, -⟩ := h
    cases ho
  | cons o ops ih =>
    by_cases hlater : ∃ o' ∈ ops, o'.dest = i
    · exact ih hlater _
    · have hkept : ∀ o' ∈ ops, o'.dest ≠ i := fun o' ho' he => hlater ⟨o', ho', he⟩
      obtain ⟨o', ho', rfl⟩ := h
      obtain rfl | hmem := List.mem_cons.mp ho'
      · rw [run_cons, run_kept eval hkept, apply, Function.update_self]
        exact heval _ _ _
      · exact absurd rfl (hkept o' hmem)

/-- A map that respects the operations carries a run over. -/
theorem run_map {eval} {eval' : O → W → W → W} {φ : V → W}
    (h : ∀ op x y, φ (eval op x y) = eval' op (φ x) (φ y)) (ops : List (SlotOp ι O)) (v : ι → V) :
    (fun i => φ (run eval ops v i)) = run eval' ops fun i => φ (v i) := by
  induction ops generalizing v with
  | nil => rfl
  | cons o ops ih =>
    rw [run_cons, run_cons, ih]
    congr 1
    funext i
    by_cases hi : i = o.dest
    · rw [hi, apply, apply, Function.update_self, Function.update_self, h]
    · rw [apply, apply, Function.update_of_ne hi, Function.update_of_ne hi]

end Run

end SlotOp

end OpenvmSim
