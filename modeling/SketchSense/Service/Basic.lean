import SketchSense.Analysis.Request
import SketchSense.Service.Token

/-!
# The service

Clients put jobs into a queue; one worker takes them in order. Results of asynchronous requests go
through a second queue to their callbacks. Whether a request is still live is looked at three times:
before the work, after it, and right before the callback.

* `Service`, the two queues with what the worker and the callbacks left;
* the steps: `issue` and `submit` of the clients, `begin` and `finish` of the worker, `deliver` of
  the callbacks; `cancelAll` and `closeOutbox`.
-/

namespace SketchSense

/-- What waits for the worker. -/
inductive Job where
  /-- A request with a callback. -/
  | request (token : Token RequestKind) (request : Request)
  /-- A request whose caller waits. -/
  | call (ticket : Nat) (request : Request)
  /-- Forgets everything that was derived from texts; the caller waits. -/
  | invalidate (ticket : Nat)
  | stop

/-- The answer to a request with a callback. -/
structure Delivery where
  token : Token RequestKind
  answer : Answer

/-- What waits for the callbacks to be run. -/
inductive Outgoing where
  | delivery (d : Delivery)
  | stop

/-- What everybody is told about. -/
inductive ServiceEvent where
  | diagnosticsChanged (file : FilePath) (diagnostics : List Diagnostic)
  | projectDiagnostics (diagnostics : List Diagnostic)

/-- A pass is announced if its diagnostics changed. -/
def Answer.event? : Answer → Option ServiceEvent
  | .diagnostics pass =>
    if pass.changed then some (.diagnosticsChanged pass.channel pass.diagnostics) else none
  | .project pass => if pass.changed then some (.projectDiagnostics pass.diagnostics) else none
  | _ => none

/-- A running service. -/
structure Service (σ : Type) where
  core : AnalysisCore σ
  /-- The state of the engine. -/
  engineState : σ
  /-- Number of jobs that may wait before clients have to. -/
  capacity : Nat
  board : Board RequestKind := {}
  inbox : List Job := []
  /-- The result of a job that has not been handed over yet. -/
  finished : Option Delivery := none
  outbox : List Outgoing := []
  /-- Whether the worker still takes jobs. -/
  working : Bool := true
  /-- Whether callbacks are still run. -/
  delivering : Bool := true
  /-- Number of calls made so far. -/
  tickets : Nat := 0
  /-- What was told, in order. -/
  events : List ServiceEvent := []
  /-- The callbacks that were run, in order. -/
  delivered : List Delivery := []
  /-- The calls that returned, in order; one that asks nothing has no answer. -/
  returned : List (Nat × Option Answer) := []

/-- What a client is told when the worker is gone. -/
def workerStopped : InternalError := ⟨"analysis worker stopped"⟩

namespace Service

variable {σ α : Type}

/-- A service for which nothing was done yet. A queue has room for one job at least. -/
def start (core : AnalysisCore σ) (engineState : σ) (capacity : Nat) : Service σ :=
  { core, engineState, capacity := max capacity 1 }

/-! ## Clients -/

/-- A token for a new request. It supersedes earlier requests even before it is in the queue. -/
def issue (s : Service σ) (kind : RequestKind) : Token RequestKind × Service σ :=
  let (token, board) := s.board.issue kind
  (token, { s with board })

/-- Puts a job into the queue. The client may have to wait for room; jobs of one client stay in
order. -/
def submit (s : Service σ) (job : Job) : Except InternalError (Service σ) :=
  if s.working then .ok { s with inbox := s.inbox ++ [job] } else .error workerStopped

/-- A number for a new call. -/
def takeTicket (s : Service σ) : Nat × Service σ :=
  (s.tickets, { s with tickets := s.tickets + 1 })

/-- Cancels all requests with callbacks, those to come included. -/
def cancelAll (s : Service σ) : Service σ := { s with board := s.board.cancelAll }

/-! ## The worker -/

/-- The worker is gone, and the jobs that waited for it too. -/
def stopWork (s : Service σ) : Service σ := { s with working := false, inbox := [] }

/-- Runs a computation on the analysis. A fault stops the worker. -/
def run (s : Service σ) (x : CoreM σ α) : Option α × Service σ :=
  match (x.run s.core).run.run s.engineState with
  | (.ok (a, core), engineState) => (some a, { s with core, engineState })
  | (.error _, engineState) => (none, { s with engineState }.stopWork)

/-- Answers a request, and tells everybody what has to be told. -/
def perform (s : Service σ) (live : Bool) (r : Request) : Option Answer × Service σ :=
  match s.run (CoreM.answer live r) with
  | (some a, s) => (some a, { s with events := s.events ++ a.event?.toList })
  | (none, s) => (none, s)

/-- Lets a call return. -/
def reply (s : Service σ) (ticket : Nat) (a : Option Answer) : Service σ :=
  { s with returned := s.returned ++ [(ticket, a)] }

/-- Does a job. A request that is not live is passed over. -/
def work (s : Service σ) : Job → Service σ
  | .request token r =>
    if s.board.isLive token then
      match s.perform true r with
      | (some answer, s) => { s with finished := some ⟨token, answer⟩ }
      | (none, s) => s
    else s
  | .call ticket r =>
    match s.perform true r with
    | (some a, s) => s.reply ticket (some a)
    | (none, s) => s
  | .invalidate ticket =>
    match s.run CoreM.invalidateAll with
    | (some _, s) => s.reply ticket none
    | (none, s) => s
  | .stop => s.stopWork

/-- Takes the first job of the queue and does it. -/
def begin (s : Service σ) : Service σ :=
  match s.inbox with
  | [] => s
  | job :: jobs => work { s with inbox := jobs } job

/-- Hands the result of a job over, if its request is still live. -/
def finish (s : Service σ) : Service σ :=
  match s.finished with
  | none => s
  | some d =>
    let outbox := if s.board.isLive d.token then s.outbox ++ [.delivery d] else s.outbox
    { s with finished := none, outbox }

/-! ## Callbacks -/

/-- Takes the first result of the queue and runs its callback, if its request is still live. -/
def deliver (s : Service σ) : Service σ :=
  match s.outbox with
  | [] => s
  | .delivery d :: rest =>
    let delivered := if s.board.isLive d.token then s.delivered ++ [d] else s.delivered
    { s with outbox := rest, delivered }
  | .stop :: rest => { s with outbox := rest, delivering := false }

/-- Lets no callback run after those that wait now. -/
def closeOutbox (s : Service σ) : Service σ := { s with outbox := s.outbox ++ [.stop] }

/-- Without a result there is nothing to hand over. -/
theorem finish_of_finished_eq_none (s : Service σ) (h : s.finished = none) : s.finish = s := by
  simp [finish, h]

/-- The queue takes a job exactly as long as there is a worker. -/
theorem submit_eq_ok_iff (s t : Service σ) (job : Job) :
    s.submit job = .ok t ↔ s.working = true ∧ t = { s with inbox := s.inbox ++ [job] } := by
  unfold submit
  split
  · next h => simp [h, eq_comm]
  · next h => simp [h]

end Service

end SketchSense
