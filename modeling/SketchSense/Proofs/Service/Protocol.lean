import Mathlib.Logic.Relation
import SketchSense.Proofs.Service.Issuing
import SketchSense.Service.Basic

/-!
# The service and its clients

Clients, the worker and the callbacks run at the same time, and their steps come in any order. A
client issues a token first and puts its request into the queue later, when there is room. What
only one of them can see may count as one step: the worker's look at the token together with the
work, and the last look at the token together with the callback.
Every look sees the clocks and the cancelling as they are at that moment. Whether anybody ever takes
the next step is left open.

* `Exchange`, a service with what its clients have done so far, `Phase`, how far its shutdown is, and
  `Exchange.Step`;
* `Job.tokens`, `Job.tickets` and `Service.flight`, the requests and calls in the queues;
* `Service.begin_does`, `Service.finish_thins` and `Service.deliver_thins`, what the steps of the
  worker and of the callbacks do.
-/

namespace SketchSense

variable {σ α : Type}

/-! ## Jobs and results -/

/-- A request with a callback, and its token. -/
def Job.requests : Job → List (Token RequestKind × Request)
  | .request token r => [(token, r)]
  | .call .. | .invalidate _ | .stop => []

/-- The token of a request with a callback. -/
def Job.tokens (job : Job) : List (Token RequestKind) := job.requests.map (·.1)

/-- The number of a call whose caller waits. -/
def Job.tickets : Job → List Nat
  | .call ticket _ => [ticket]
  | .invalidate ticket => [ticket]
  | .request .. | .stop => []

def Job.isStop : Job → Bool
  | .stop => true
  | .request .. | .call .. | .invalidate _ => false

/-- The token of a result that waits for its callback. -/
def Outgoing.tokens : Outgoing → List (Token RequestKind)
  | .delivery d => [d.token]
  | .stop => []

namespace Service

variable {s : Service σ}

/-- The tokens of all requests that the worker has answered and nobody has dropped: those whose
callbacks were run, then those that wait in the queue, then that of the result in the worker's
hands. -/
def flight (s : Service σ) : List (Token RequestKind) :=
  s.delivered.map (·.token) ++ (s.outbox.flatMap Outgoing.tokens ++
    s.finished.toList.map (·.token))

/-! ## The worker -/

theorem run_cases (s : Service σ) (x : CoreM σ α) :
    (∃ a core engineState, s.run x = (some a, { s with core, engineState })) ∨
      ∃ engineState, s.run x = (none, { s with engineState }.stopWork) := by
  unfold run
  split
  · exact .inl ⟨_, _, _, rfl⟩
  · exact .inr ⟨_, rfl⟩

theorem perform_cases (s : Service σ) (live : Bool) (r : Request) :
    (∃ a core engineState events,
        s.perform live r = (some a, { s with core, engineState, events })) ∨
      ∃ engineState, s.perform live r = (none, { s with engineState }.stopWork) := by
  unfold perform
  rcases s.run_cases (CoreM.answer live r) with ⟨a, core, engineState, h⟩ | ⟨engineState, h⟩
  · rw [h]
    exact .inl ⟨a, core, engineState, _, rfl⟩
  · rw [h]
    exact .inr ⟨engineState, rfl⟩

/-- What a job does that stops the worker only if it is to: it leaves what belongs to clients and
callbacks alone, answers a call, and leaves the result of a request that is live. -/
structure Does (job : Job) (s s' : Service σ) : Prop where
  board : s'.board = s.board
  delivered : s'.delivered = s.delivered
  outbox : s'.outbox = s.outbox
  delivering : s'.delivering = s.delivering
  inbox : s'.inbox = if job.isStop then [] else s.inbox
  working : s'.working = !job.isStop
  finished : s'.finished.toList.map (·.token) = job.tokens.filter s.board.isLive
  returned : s'.returned.map (·.1) = s.returned.map (·.1) ++ job.tickets

/-- Answers a request that was live when it was taken; it may be `live` no longer while the worker
is at it. -/
def workOn (s : Service σ) (live : Bool) (token : Token RequestKind) (r : Request) : Service σ :=
  match s.perform live r with
  | (some answer, s) => { s with finished := some ⟨token, answer⟩ }
  | (none, s) => s

theorem workOn_does {live : Bool} {token : Token RequestKind} {r : Request}
    (hworks : s.working = true) (hlive : s.board.isLive token = true)
    (h : (s.workOn live token r).working = true) :
    Does (.request token r) s (s.workOn live token r) := by
  have hone : [token].filter s.board.isLive = [token] := by simp [hlive]
  unfold workOn at h ⊢
  rcases s.perform_cases live r with ⟨a, core, engineState, events, hrun⟩ | ⟨engineState, hrun⟩
  · rw [hrun]
    exact ⟨rfl, rfl, rfl, rfl, rfl, hworks, hone.symm, (List.append_nil _).symm⟩
  · -- a fault would have stopped the worker
    rw [hrun] at h
    cases h

theorem work_does {job : Job} (hidle : s.finished = none) (hworks : s.working = true)
    (h : job.isStop = true ∨ (s.work job).working = true) : Does job s (s.work job) := by
  -- a fault would have stopped the worker
  have hfault {engineState : σ} (h : ({ s with engineState }.stopWork).working = true) : False := by
    cases h
  have hreply (core : AnalysisCore σ) (engineState : σ) (events : List ServiceEvent)
      (ticket : Nat) (a : Option Answer) {job : Job} (hstop : job.isStop = false)
      (htokens : job.tokens = []) (htickets : job.tickets = [ticket]) :
      Does job s ({ s with core, engineState, events }.reply ticket a) := by
    refine ⟨rfl, rfl, rfl, rfl, by rw [hstop]; rfl, by rw [hstop]; exact hworks, ?_, ?_⟩
    · rw [htokens]
      show s.finished.toList.map _ = _
      rw [hidle]
      rfl
    · rw [htickets]
      show (s.returned ++ [(ticket, a)]).map _ = _
      rw [List.map_append]
      rfl
  cases job with
  | request token r =>
    have h := h.resolve_left Bool.false_ne_true
    have hwork : s.work (.request token r) =
        if s.board.isLive token then s.workOn true token r else s := rfl
    rw [hwork] at h ⊢
    cases hlive : s.board.isLive token with
    | false =>
      have hnone : [token].filter s.board.isLive = [] := by simp [hlive]
      rw [if_neg Bool.false_ne_true]
      exact ⟨rfl, rfl, rfl, rfl, rfl, hworks, by rw [hidle]; exact hnone.symm,
        (List.append_nil _).symm⟩
    | true =>
      rw [hlive, if_pos rfl] at h
      rw [if_pos rfl]
      exact workOn_does hworks hlive h
  | call ticket r =>
    have h := h.resolve_left Bool.false_ne_true
    unfold work at h ⊢
    dsimp only at h ⊢
    rcases s.perform_cases true r with ⟨a, core, engineState, events, hrun⟩ | ⟨engineState, hrun⟩
    · rw [hrun]
      exact hreply core engineState events ticket (some a) rfl rfl rfl
    · rw [hrun] at h
      exact (hfault h).elim
  | invalidate ticket =>
    have h := h.resolve_left Bool.false_ne_true
    unfold work at h ⊢
    dsimp only at h ⊢
    rcases s.run_cases CoreM.invalidateAll with ⟨a, core, engineState, hrun⟩ | ⟨engineState, hrun⟩
    · rw [hrun]
      exact hreply core engineState s.events ticket none rfl rfl rfl
    · rw [hrun] at h
      exact (hfault h).elim
  | stop =>
    refine ⟨rfl, rfl, rfl, rfl, rfl, rfl, ?_, (List.append_nil _).symm⟩
    show s.finished.toList.map _ = _
    rw [hidle]
    rfl

/-- The worker takes the first job and does it. -/
theorem begin_does {job : Job} {jobs : List Job} (hinbox : s.inbox = job :: jobs)
    (hidle : s.finished = none) (hworks : s.working = true)
    (h : job.isStop = true ∨ s.begin.working = true) :
    Does job { s with inbox := jobs } s.begin := by
  have hbegin : s.begin = work { s with inbox := jobs } job := by
    unfold begin
    rw [hinbox]
  rw [hbegin] at h ⊢
  exact work_does hidle hworks h

/-! ## From the worker to the callbacks -/

/-- On the way from `s` to `s'` only results of requests that are not live got lost, and what is left
is in the same order. -/
structure Thins (s s' : Service σ) : Prop where
  sublist : s'.flight.Sublist s.flight
  lost : ∀ t ∈ s.flight, t ∈ s'.flight ∨ s.board.isLive t = false

theorem thins_of_eq {s' : Service σ} (h : s'.flight = s.flight) : Thins s s' := by
  refine ⟨by rw [h], fun t ht => .inl ?_⟩
  rw [h]
  exact ht

/-- Of `before ++ middle ++ after` only what is not live is taken out of the middle. -/
theorem thins_of_filter {s' : Service σ} (before middle after : List (Token RequestKind))
    (h : s.flight = before ++ (middle ++ after))
    (h' : s'.flight = before ++ (middle.filter s.board.isLive ++ after)) : Thins s s' := by
  constructor
  · rw [h, h']
    exact (List.Sublist.refl before).append (List.filter_sublist.append (List.Sublist.refl after))
  · intro t ht
    rw [h'] at *
    rw [h] at ht
    simp only [List.mem_append, List.mem_filter] at ht ⊢
    cases hlive : s.board.isLive t with
    | false => exact .inr rfl
    | true =>
      rcases ht with ht | ht | ht
      · exact .inl (.inl ht)
      · exact .inl (.inr (.inl ⟨ht, rfl⟩))
      · exact .inl (.inr (.inr ht))

/-- Handing a result over drops it only if its request is not live. -/
theorem finish_thins (s : Service σ) : Thins s s.finish := by
  cases hfinished : s.finished with
  | none =>
    rw [s.finish_of_finished_eq_none hfinished]
    exact thins_of_eq rfl
  | some d =>
    refine thins_of_filter (s.delivered.map (·.token) ++ s.outbox.flatMap Outgoing.tokens)
      [d.token] [] ?_ ?_
    · unfold flight
      rw [hfinished, List.append_assoc]
      rfl
    · unfold flight finish
      rw [hfinished]
      dsimp only
      cases hlive : s.board.isLive d.token with
      | true => simp [hlive, Outgoing.tokens]
      | false => simp [hlive]

theorem finish_frame (s : Service σ) :
    s.finish.inbox = s.inbox ∧ s.finish.working = s.working ∧ s.finish.returned = s.returned ∧
      s.finish.delivered = s.delivered ∧ s.finish.finished = none := by
  unfold finish
  split
  · next hidle => exact ⟨rfl, rfl, rfl, rfl, hidle⟩
  · exact ⟨rfl, rfl, rfl, rfl, rfl⟩

/-- Taking a result out of the queue drops it only if its request is not live. -/
theorem deliver_thins (s : Service σ) : Thins s s.deliver := by
  unfold deliver
  split
  · exact thins_of_eq rfl
  · next d rest houtbox =>
    refine thins_of_filter (s.delivered.map (·.token)) [d.token]
      (rest.flatMap Outgoing.tokens ++ s.finished.toList.map (·.token)) ?_ ?_
    · unfold flight
      rw [houtbox]
      rfl
    · unfold flight
      dsimp only
      cases hlive : s.board.isLive d.token with
      | true => simp [hlive]
      | false => simp [hlive]
  · next rest houtbox =>
    refine thins_of_eq ?_
    unfold flight
    rw [houtbox]
    rfl

theorem deliver_frame (s : Service σ) :
    s.deliver.inbox = s.inbox ∧ s.deliver.working = s.working ∧
      s.deliver.returned = s.returned ∧ s.deliver.finished = s.finished := by
  unfold deliver
  split <;> exact ⟨rfl, rfl, rfl, rfl⟩

theorem closeOutbox_thins (s : Service σ) : Thins s s.closeOutbox := by
  refine thins_of_eq ?_
  unfold flight closeOutbox
  rw [List.flatMap_append]
  simp [Outgoing.tokens]

/-- A callback is run for the first result in the queue, and only if its request is live. -/
theorem deliver_cases (s : Service σ) :
    s.deliver.delivered = s.delivered ∨
      ∃ d rest, s.outbox = .delivery d :: rest ∧ s.board.isLive d.token = true ∧
        s.deliver.delivered = s.delivered ++ [d] := by
  unfold deliver
  split
  · exact .inl rfl
  · next d rest houtbox =>
    dsimp only
    split
    · next hlive => exact .inr ⟨d, rest, houtbox, hlive, rfl⟩
    · exact .inl rfl
  · exact .inl rfl

end Service

/-! ## Everybody together -/

/-- How far the first shutdown is. -/
inductive Phase where
  /-- Nobody has asked for it. -/
  | running
  /-- Some client has, and no other one can. -/
  | claimed
  /-- The worker is told to stop. -/
  | stopping
  /-- The worker is gone, and the callbacks are told to stop. -/
  | closing
  /-- It has returned. -/
  | closed
  deriving DecidableEq, Repr

/-- Whether the worker was told to stop. -/
def Phase.told : Phase → Bool
  | .running | .claimed => false
  | .stopping | .closing | .closed => true

/-- Whether the callbacks were told to stop. -/
def Phase.closes : Phase → Bool
  | .running | .claimed | .stopping => false
  | .closing | .closed => true

/-- A service with what its clients have done so far. -/
structure Exchange (σ : Type) extends Service σ where
  phase : Phase := .running
  /-- Requests with tokens that are not in the queue yet. -/
  waiting : List (Token RequestKind × Request) := []
  /-- All tokens issued so far. -/
  issued : List (Token RequestKind) := []
  /-- All jobs put into the queue so far, in order. -/
  enqueued : List Job := []
  /-- All jobs that the worker has taken, in order. -/
  taken : List Job := []

namespace Exchange

def start (core : AnalysisCore σ) (engineState : σ) (capacity : Nat) : Exchange σ :=
  { Service.start core engineState capacity with }

/-- What may happen next. No job ends in a fault. A check of a token looks at cancelling first and at
the clock then; as what is superseded stays so, the first look decides. -/
inductive Step : Exchange σ → Exchange σ → Prop
  /-- A client issues a token for a request. -/
  | issue (x : Exchange σ) (r : Request) :
      Step x { x with
        toService := (x.toService.issue r.kind).2
        waiting := x.waiting ++ [((x.toService.issue r.kind).1, r)]
        issued := x.issued ++ [(x.toService.issue r.kind).1] }
  /-- Some request that waits is put into the queue. -/
  | enqueue {x : Exchange σ} {s : Service σ} {token : Token RequestKind} {r : Request}
      {before after : List (Token RequestKind × Request)}
      (hwaits : x.waiting = before ++ (token, r) :: after) (hroom : x.inbox.length < x.capacity)
      (h : x.toService.submit (.request token r) = .ok s) :
      Step x { x with
        toService := s
        waiting := before ++ after
        enqueued := x.enqueued ++ [.request token r] }
  /-- A client is told that the worker is gone. -/
  | refuse {x : Exchange σ} {e : InternalError} {token : Token RequestKind} {r : Request}
      {before after : List (Token RequestKind × Request)}
      (hwaits : x.waiting = before ++ (token, r) :: after)
      (h : x.toService.submit (.request token r) = .error e) :
      Step x { x with waiting := before ++ after }
  /-- A client asks and waits for the answer, or has everything forgotten. -/
  | call {x : Exchange σ} {s : Service σ} {job : Job}
      (hjob : (∃ r, job = .call x.takeTicket.1 r) ∨ job = .invalidate x.takeTicket.1)
      (hroom : x.inbox.length < x.capacity) (h : x.takeTicket.2.submit job = .ok s) :
      Step x { x with toService := s, enqueued := x.enqueued ++ [job] }
  | cancelAll (x : Exchange σ) : Step x { x with toService := x.toService.cancelAll }
  /-- The worker takes a job and does it. -/
  | begin {x : Exchange σ} {job : Job} {jobs : List Job} (hinbox : x.inbox = job :: jobs)
      (hidle : x.finished = none) (hworks : x.working = true)
      (hsound : job.isStop = true ∨ x.toService.begin.working = true) :
      Step x { x with toService := x.toService.begin, taken := x.taken ++ [job] }
  /-- The worker takes a request that is live, but superseded or cancelled while it is answered. -/
  | beginLate {x : Exchange σ} {token : Token RequestKind} {r : Request} {jobs : List Job}
      (hinbox : x.inbox = .request token r :: jobs) (hidle : x.finished = none)
      (hworks : x.working = true) (hlive : x.board.isLive token = true)
      (hsound : (Service.workOn { x.toService with inbox := jobs } false token r).working = true) :
      Step x { x with
        toService := Service.workOn { x.toService with inbox := jobs } false token r
        taken := x.taken ++ [.request token r] }
  /-- The worker hands a result over. -/
  | finish (x : Exchange σ) : Step x { x with toService := x.toService.finish }
  /-- A callback is run or passed over. -/
  | deliver {x : Exchange σ} (h : x.delivering = true) :
      Step x { x with toService := x.toService.deliver }
  /-- The first call of shutdown. Later ones return at once and do nothing. -/
  | shutdown {x : Exchange σ} (h : x.phase = .running) : Step x { x with phase := .claimed }
  | stopWorker {x : Exchange σ} {s : Service σ} (hphase : x.phase = .claimed)
      (hroom : x.inbox.length < x.capacity) (h : x.toService.submit .stop = .ok s) :
      Step x { x with toService := s, phase := .stopping, enqueued := x.enqueued ++ [.stop] }
  | closeOutbox {x : Exchange σ} (hphase : x.phase = .stopping) (hgone : x.working = false) :
      Step x { x with toService := x.toService.closeOutbox, phase := .closing }
  | close {x : Exchange σ} (hphase : x.phase = .closing) (hgone : x.delivering = false) :
      Step x { x with phase := .closed }

/-- Any number of steps. -/
abbrev Reaches : Exchange σ → Exchange σ → Prop := Relation.ReflTransGen Step

end Exchange

end SketchSense
