import SmallLisp.Eval.Step

/-! Evaluation. Steps follow one another in a loop; only the parts of a form that are not in tail
position are evaluated by a nested run. The fuel bounds both the steps and the nesting. -/
namespace SmallLisp

def run (host : Host) : Nat → Cursor → Action (Term × Env)
  | 0, _ => Action.timeout
  | fuel + 1, c => do
    match ← step host (fun form env => run host fuel (Cursor.start form env)) fuel c with
    | .done v out => return (v, out)
    | .next c => run host fuel c

/-- Evaluates a form with so much fuel. -/
def evalWith (host : Host) (fuel : Nat) : Evaluate := fun form env =>
  run host fuel (Cursor.start form env)

theorem run_succ (host : Host) (fuel : Nat) (c : Cursor) (s : State) :
    run host (fuel + 1) c s =
      match step host (evalWith host fuel) fuel c s with
      | .value (.done v out) s => .value (v, out) s
      | .value (.next d) s => run host fuel d s
      | .failure e s => .failure e s
      | .timeout => .timeout := by
  have hev : (fun form env => run host fuel (Cursor.start form env)) = evalWith host fuel := rfl
  rw [run, Action.bind_apply, hev]
  cases step host (evalWith host fuel) fuel c s with
  | value r s => cases r <;> rfl
  | failure e s => rfl
  | timeout => rfl

/-- More steps than a computer makes in a lifetime. -/
def ampleFuel : Nat := Nat.pow 10 18

/-- The value of a form, and the environment for the form after it: the same, or switched to
another namespace. -/
def eval (host : Host) : Evaluate := evalWith host ampleFuel

end SmallLisp
