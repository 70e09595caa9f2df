import SketchSense.Service.Basic

/-!
# One client at a time

A single client that waits for the worker after everything it does sees the service as a sequence of
answers.

* `settle`, which lets the worker and the callbacks do all there is to do;
* `call`, `invalidate`, `request` and `shutdown`, as such a client sees them;
* `lookup?`, whether and with what the callback of a request was run.
-/

namespace SketchSense.Service

variable {σ : Type}

/-- Takes a job, hands its result over and runs its callback. -/
def round (s : Service σ) : Service σ := s.begin.finish.deliver

/-- Does all jobs that wait. -/
def settle (s : Service σ) : Service σ := Nat.repeat round s.inbox.length s

/-- Submits a job and waits until it is done. -/
def complete (s : Service σ) (job : Job) : Except InternalError (Service σ) :=
  (s.submit job).map settle

/-- What a call with a ticket returned, once it did. -/
def returned? (s : Service σ) (ticket : Nat) : Except InternalError (Option Answer) :=
  match s.returned.lookup ticket with
  | some a => .ok a
  | none => .error workerStopped

/-- The answer to a request for which the caller waits. -/
def call (s : Service σ) (r : Request) : Except InternalError (Option Answer) × Service σ :=
  let (ticket, s) := s.takeTicket
  match s.complete (.call ticket r) with
  | .ok s => (s.returned? ticket, s)
  | .error e => (.error e, s)

/-- Forgets everything that was derived from texts, and waits until that is done. -/
def invalidateAll (s : Service σ) : Except InternalError (Option Answer) × Service σ :=
  let (ticket, s) := s.takeTicket
  match s.complete (.invalidate ticket) with
  | .ok s => (s.returned? ticket, s)
  | .error e => (.error e, s)

/-- Issues and submits a request with a callback. -/
def request (s : Service σ) (r : Request) : Except InternalError (Token RequestKind) × Service σ :=
  let (token, s) := s.issue r.kind
  match s.submit (.request token r) with
  | .ok s => (.ok token, s)
  | .error e => (.error e, s)

/-- Submits requests one after the other. -/
def requestAll (s : Service σ) : List Request →
    List (Except InternalError (Token RequestKind)) × Service σ
  | [] => ([], s)
  | r :: rs =>
    let (token, s) := s.request r
    let (tokens, s) := s.requestAll rs
    (token :: tokens, s)

/-- The answer with which the callback of a request was run. -/
def lookup? (s : Service σ) (token : Token RequestKind) : Option Answer :=
  (s.delivered.find? (·.token = token)).map (·.answer)

/-- Lets the worker and the callbacks do what waits, and then stop. -/
def shutdown (s : Service σ) : Service σ :=
  let s := match s.complete .stop with
    | .ok s => s
    | .error _ => s
  s.closeOutbox.deliver

end SketchSense.Service
