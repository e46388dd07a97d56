import Bbarm64.Ir.Builder

/-!
# Ir.Optimizer — `IROptimizer::optimize`

`constant_propagation` and `dead_code_elimination` are empty in the source; `flag_merging` clears
`flags_set` of an instruction whose successor sets the flags again.
-/

namespace Bbarm64

namespace IROptimizer

/-- The look-ahead loop of `flag_merging`: is a reader met before the next writer? -/
def flags_used_between : List IRInst → Bool
  | [] => false
  | ir :: rest =>
    if ir.flags_used then true else if ir.flags_set then false else flags_used_between rest

/-- The body of the outer loop of `flag_merging` at index `i`. -/
def flag_merging_step (l : List IRInst) (i : ℕ) : List IRInst :=
  match l[i]?, l[i + 1]? with
  | some a, some b =>
    if a.flags_set && b.flags_set && !flags_used_between (l.drop (i + 1)) then
      l.set i { a with flags_set := false }
    else l
  | _, _ => l

def flag_merging (block : IRBlock) : IRBlock :=
  { block with
    instructions :=
      (List.range (block.instructions.length - 1)).foldl flag_merging_step block.instructions }

def constant_propagation (block : IRBlock) : IRBlock := block

def dead_code_elimination (block : IRBlock) : IRBlock := block

def optimize (block : IRBlock) : IRBlock :=
  flag_merging (dead_code_elimination (constant_propagation block))

end IROptimizer

end Bbarm64
