import SketchSense.Analysis.Core

/-!
# Requests

* `Request`, a question with all that is needed to answer it, and `Answer`;
* `RequestKind`, the kinds of requests, of which a later one takes the place of an earlier one;
* `CoreM.answer`, the answer to a request.
-/

namespace SketchSense

/-- The kinds of requests. -/
inductive RequestKind where
  | diagnostics
  | completions
  | hover
  | definition
  | occurrences
  | symbols
  | container
  | project
  deriving DecidableEq, Repr

/-- A question about a sketch. Open files are those of the time when it was asked. -/
inductive Request where
  | diagnostics (file : FileBuffer)
  | completions (p : EditPosition)
  | hover (p : EditPosition) (files : List FileBuffer)
  | definition (p : EditPosition) (files : List FileBuffer)
  | occurrences (p : EditPosition) (scope : OccurrenceScope) (files : List FileBuffer)
  | symbols (file : FileBuffer) (now : Nat)
  | container (p : EditPosition)
  | project (files : List FileBuffer)

/-- The answer to a request. -/
inductive Answer where
  | diagnostics (pass : DiagnosticsPass)
  | completions (items : List CompletionItem)
  | hover (hover : Option Hover)
  | definition (target : Option Location)
  | occurrences (targets : List Location)
  | symbols (symbols : List Symbol)
  | container (container : Option Container)
  | project (pass : DiagnosticsPass)

def Request.kind : Request → RequestKind
  | diagnostics .. => .diagnostics
  | completions .. => .completions
  | hover .. => .hover
  | definition .. => .definition
  | occurrences .. => .occurrences
  | symbols .. => .symbols
  | container .. => .container
  | project .. => .project

def Answer.kind : Answer → RequestKind
  | diagnostics .. => .diagnostics
  | completions .. => .completions
  | hover .. => .hover
  | definition .. => .definition
  | occurrences .. => .occurrences
  | symbols .. => .symbols
  | container .. => .container
  | project .. => .project

/-- The answer to a request; `live` says whether anybody still waits for it. The units of a project
are listed as `e` has it. -/
def CoreM.answer {σ : Type} (live : Bool) (r : Request) (e : Enumeration ProjectUnit := .kept) :
    CoreM σ Answer :=
  match r with
  | .diagnostics file => return .diagnostics (← CoreM.diagnostics file)
  | .completions p => return .completions (← CoreM.completions p)
  | .hover p files => return .hover (← CoreM.hover p files)
  | .definition p files => return .definition (← CoreM.definition p files)
  | .occurrences p scope files => return .occurrences (← CoreM.occurrences p scope files live)
  | .symbols file now => return .symbols (← CoreM.symbols file now)
  | .container p => return .container (← CoreM.container p)
  | .project files => return .project (← CoreM.projectDiagnostics files e)

end SketchSense
