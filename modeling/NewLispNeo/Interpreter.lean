/-
`evaluateExpression`: the interpreter with bytecode, and the tree-walker alone.
-/
import NewLispNeo.Machine

namespace NewLispNeo

variable (ctx : CompileContext)

/-- A call of a lambda cell: through its bytecode when there is one and `vm` is
set, else by walking its body. -/
def callLambda (vm : Bool) (ev : Evaluator) (fuel : Nat)
    (selfSymbol : Option Symbol) (contents : List Cell) (σ : Interp)
    (args : List Cell) : Outcome Error (Val × Interp) := do
  let mctx : MachineContext := ⟨ctx, ev, fuel, fun _ _ _ => .undefined, fun _ _ _ => .undefined⟩
  let bc ← if vm then Machine.bytecodeOf mctx selfSymbol contents
    else .value none
  match bc with
  | some bc => do
      let (c, σ₁) ←
        executeBytecode mctx bc (.lambda selfSymbol contents) σ args
      .value (Val.temp c, σ₁)
  | none => evaluateLambda ev ctx.flags σ contents args

/-- The function a list calls. -/
def evaluateHead (ev : Evaluator) (σ : Interp) :
    Cell → Outcome Error (Cell × Interp)
  | .symbol s => do
      let v ← evaluateSymbol σ s
      .value (v.cell, σ)
  | .dynSymbol _ _ => .undefined
  | head => do
      let (v, σ₁) ← ev σ head
      .value (v.cell, σ₁)

/-- `evaluateExpression`, at most `fuel` calls deep.  Contexts, macros and
implicit indexing are outside this model. -/
def evaluateExpression (vm : Bool) : Nat → Evaluator
  | 0, _, _ => .timeout
  | fuel + 1, σ, cell =>
      match cell with
      | .symbol s | .context s => do
          let v ← evaluateSymbol σ s
          .value (v, σ)
      | .quote c => .value (Val.temp c, σ)
      | .expression [] => .error .invalidFunction
      | .expression (head :: args) => do
          let ev := evaluateExpression vm fuel
          let (pCell, σ₁) ← evaluateHead ev σ head
          match pCell with
          | .primitive p =>
              callPrimitive ctx.runtime ctx.flags ev fuel p σ₁ args
          | .lambda selfSymbol contents =>
              callLambda ctx vm ev fuel selfSymbol contents σ₁ args
          | .context _ | .fexpr _ | .dynSymbol _ _ => .undefined
          | .expression _ | .array _ | .string _ | .long _ | .bigint _
          | .float _ =>
              if args.isEmpty then .error .invalidFunction else .undefined
          | _ => .error .invalidFunction
      | .dynSymbol _ _ => .undefined
      | cell => .value (Val.temp cell, σ)

end NewLispNeo
