import SketchSense.Engine.Basic
import SketchSense.Text.Search

/-!
# Planned failures

The model engine can be told which parses are to fail.

* `FailureRule`, a condition on a parse, and `FailureRule.holds`.
-/

namespace SketchSense.Model

/-- A condition on a parse. What is left open is not asked for, so the empty rule always holds. -/
structure FailureRule where
  /-- How the path of the main file ends. -/
  mainEnds : Option String := none
  /-- An argument that is given. -/
  arg : Option String := none
  /-- Whether there are arguments at all. -/
  hasArgs : Option Bool := none
  /-- What the text of the main file contains. -/
  contains : Option String := none
  /-- Whether the preamble is limited. -/
  limit : Option Bool := none
  deriving DecidableEq, Repr

def FailureRule.holds (rule : FailureRule) (r : ParseRequest) : Bool :=
  rule.mainEnds.all (fun t => Text.endsWith t.toList r.mainFile.text.toList)
    && rule.arg.all r.args.contains
    && rule.hasArgs.all (· == !r.args.isEmpty)
    && rule.contains.all (fun t =>
      r.mainCode?.any fun code => Text.contains t.toList code.toList)
    && rule.limit.all (· == r.options.preambleLimit)

/-- Whether a parse is to fail. -/
def plannedToFail (rules : List FailureRule) (r : ParseRequest) : Bool := rules.any (·.holds r)

end SketchSense.Model
