/-
  DotCom.Proofs.Lowering.Chains — a flat chain is lowered like its left-nested form. Lowering a chain is a loop
  over operators and right operands with the value so far in `ax`, and that is where the code of a
  left operand leaves it.

  - `Expr.lower_chain`: lowering a chain with as many operators as right operands.
  - `Expr.lower_nested`: the two forms are lowered alike from every state, also when an operand or an
    operator in the middle is refused.
-/

import DotCom.Proofs.Lowering.Values

namespace DotCom

open Gen

/-- The operators applied one by one, each to all that stands before it: `((e₀ op₁ e₁) op₂ e₂) ...`. -/
def Expr.nested (first : Expr) : List BinaryOp → List Expr → Expr
  | op :: ops, operand :: operands => Expr.nested (.chain [first, operand] [op]) ops operands
  | _, _ => first

theorem Gen.frame_bind_frame {α : Type} (f : Gen α) : (do let _ ← frame; let _ ← frame; f) = (do let _ ← frame; f) := by
  funext g
  obtain ⟨image, functions, frames, events⟩ := g
  cases frames with
  | nil => rfl
  | cons frame rest => rfl

theorem Expr.lower_chain {first : Expr} {rest : List Expr} {ops : List BinaryOp} (hl : rest.length = ops.length) :
    (Expr.chain (first :: rest) ops).lower = (do let _ ← frame; first.lower; lowerTail ops rest) := by
  rw [Expr.lower.eq_def]
  have counted : ¬ (first :: rest).length ≠ ops.length + 1 := by
    rw [List.length_cons, hl]
    exact not_not_intro rfl
  simp only [if_neg counted]

/-- The first operator of a longer chain belongs to its left operand. -/
theorem Expr.lower_chain_regroup {first second : Expr} {rest : List Expr} {op : BinaryOp} {ops : List BinaryOp}
    (hl : rest.length = ops.length) :
    (Expr.chain (first :: second :: rest) (op :: ops)).lower =
      (Expr.chain (.chain [first, second] [op] :: rest) ops).lower := by
  have flat : (second :: rest).length = (op :: ops).length := congrArg Nat.succ hl
  have pair : [second].length = [op].length := rfl
  calc (Expr.chain (first :: second :: rest) (op :: ops)).lower
      = (do let _ ← frame; first.lower; second.lowerRight; apply op; lowerTail ops rest) := by
        rw [lower_chain flat, lowerTail_cons]
    _ = (do let _ ← frame; let _ ← frame; first.lower; second.lowerRight; apply op; lowerTail ops rest) :=
        (frame_bind_frame _).symm
    _ = (do let _ ← frame; (Expr.chain [first, second] [op]).lower; lowerTail ops rest) := by
        have done : lowerTail [] [] = pure () := by rw [lowerTail.eq_def]
        rw [lower_chain pair, lowerTail_cons, done]
        simp only [bind_assoc, pure_bind]
    _ = (Expr.chain (.chain [first, second] [op] :: rest) ops).lower := (lower_chain hl).symm

/-- A flat chain and its left-nested form come from any state to the same state, with the same result or
    the same refusal. -/
theorem Expr.lower_nested (first : Expr) {rest : List Expr} {ops : List BinaryOp} (hl : rest.length = ops.length)
    (hn : ops ≠ []) (g : Generator) :
    (Expr.chain (first :: rest) ops).lower g = (Expr.nested first ops rest).lower g := by
  induction ops generalizing first rest with
  | nil => exact absurd rfl hn
  | cons op ops ih =>
    cases rest with
    | nil => cases hl
    | cons second rest =>
      have hl' : rest.length = ops.length := Nat.succ.inj hl
      rw [nested]
      cases ops with
      | nil =>
        obtain rfl := List.length_eq_zero_iff.1 hl'
        rfl
      | cons op' ops =>
        rw [lower_chain_regroup hl']
        exact ih (.chain [first, second] [op]) hl' (List.cons_ne_nil _ _)

/-- In the chain `1 + (2 * 3) % 4 - y` the second operator is refused behind the code of what stands before it, in
    either form. -/
theorem Expr.lower_nested_refused :
    let ops : List BinaryOp := [.add, .mod, .sub]
    let rest : List Expr := [.chain [.int 2, .int 3] [.mul], .int 4, .ident "y"]
    let g : Generator := { image := ⟨#[], 0x100, 64⟩, frames := [{ function := "main" }] }
    Expr.nested (.int 1) ops rest =
        .chain [.chain [.chain [.int 1, .chain [.int 2, .int 3] [.mul]] [.add], .int 4] [.mod], .ident "y"] [.sub] ∧
      (Expr.chain (.int 1 :: rest) ops).lower g = (Expr.nested (.int 1) ops rest).lower g ∧
      ∃ g', (Expr.chain (.int 1 :: rest) ops).lower g = .error (.rejected (.unsupportedOperator "%" "main")) g' ∧
        g'.image.size = 21 :=
  ⟨rfl, lower_nested _ rfl (List.cons_ne_nil _ _) _, _, rfl, rfl⟩

end DotCom
