import SketchSense.Proofs.Service.Protocol

/-!
# Tokens and jobs on their way to the worker

A client issues a token before its request gets into the queue, and other clients issue theirs
meanwhile. The queue keeps the order of the jobs, and the worker is told to stop only once.

* `Exchange.Tokens`, that every request has a token of its own, which its clock has issued;
* `Exchange.Move`, what a step does to jobs and results, and `Exchange.Queues`, that all jobs are
  taken in the order of the queue;
* `Exchange.Step.not_isLive`, what is not live stays so.
-/

namespace SketchSense.Exchange

variable {σ : Type} {x y : Exchange σ}

/-! ## A job is taken -/

/-- On the way from `x` to `y` the worker takes the first job and does it. -/
structure Takes (job : Job) (jobs : List Job) (x y : Exchange σ) : Prop where
  works : x.working = true
  idle : x.finished = none
  inbox : x.inbox = job :: jobs
  taken : y.taken = x.taken ++ [job]
  enqueued : y.enqueued = x.enqueued
  phase : y.phase = x.phase
  does : Service.Does job { x.toService with inbox := jobs } y.toService

theorem takes_begin {job : Job} {jobs : List Job} (hinbox : x.inbox = job :: jobs)
    (hidle : x.finished = none) (hworks : x.working = true)
    (hsound : job.isStop = true ∨ x.toService.begin.working = true) :
    Takes job jobs x { x with toService := x.toService.begin, taken := x.taken ++ [job] } :=
  ⟨hworks, hidle, hinbox, rfl, rfl, rfl, Service.begin_does hinbox hidle hworks hsound⟩

theorem takes_beginLate {token : Token RequestKind} {r : Request} {jobs : List Job}
    (hinbox : x.inbox = .request token r :: jobs) (hidle : x.finished = none)
    (hworks : x.working = true) (hlive : x.board.isLive token = true)
    (hsound : (Service.workOn { x.toService with inbox := jobs } false token r).working = true) :
    Takes (.request token r) jobs x { x with
      toService := Service.workOn { x.toService with inbox := jobs } false token r
      taken := x.taken ++ [.request token r] } :=
  ⟨hworks, hidle, hinbox, rfl, rfl, rfl, Service.workOn_does hworks hlive hsound⟩

/-! ## Tokens -/

/-- The tokens of some jobs, in order. -/
def tokensOf (jobs : List Job) : List (Token RequestKind) := jobs.flatMap Job.tokens

/-- The numbers of the calls among some jobs, in order. -/
def ticketsOf (jobs : List Job) : List Nat := jobs.flatMap Job.tickets

theorem tokensOf_concat (jobs : List Job) (job : Job) :
    tokensOf (jobs ++ [job]) = tokensOf jobs ++ job.tokens := by
  simp [tokensOf]

theorem mem_tokensOf {jobs : List Job} {t : Token RequestKind} :
    t ∈ tokensOf jobs ↔ ∃ r, Job.request t r ∈ jobs := by
  unfold tokensOf
  rw [List.mem_flatMap]
  constructor
  · rintro ⟨job, hjob, ht⟩
    cases job with
    | request token r =>
      obtain rfl := List.mem_singleton.1 ht
      exact ⟨r, hjob⟩
    | call ticket r => cases ht
    | invalidate ticket => cases ht
    | stop => cases ht
  · rintro ⟨r, hjob⟩
    exact ⟨_, hjob, List.mem_singleton_self t⟩

theorem ticketsOf_concat (jobs : List Job) (job : Job) :
    ticketsOf (jobs ++ [job]) = ticketsOf jobs ++ job.tickets := by
  simp [ticketsOf]

/-- The requests that are not in the queue yet and those that were put there. -/
def placed (x : Exchange σ) : List (Token RequestKind × Request) :=
  x.waiting ++ x.enqueued.flatMap Job.requests

/-- Every request has a token of its own, which was issued on the clock of its kind. -/
structure Tokens (x : Exchange σ) : Prop where
  issues : x.board.Issues x.issued
  nodup : (x.placed.map (·.1)).Nodup
  issued : ∀ e ∈ x.placed, e.1 ∈ x.issued
  kinds : ∀ e ∈ x.placed, e.1.clock? = some e.2.kind

/-- A step issues a token to a request, or it may cancel and there are no more requests than
before. -/
theorem Step.board_cases (h : Step x y) :
    (∃ r : Request, y.board = (x.board.issue r.kind).2 ∧
        y.issued = x.issued ++ [(x.board.issue r.kind).1] ∧
        y.placed.Perm (((x.board.issue r.kind).1, r) :: x.placed)) ∨
      ((y.board = x.board ∨ y.board = x.board.cancelAll) ∧ y.issued = x.issued ∧
        ∃ rest, rest.Sublist x.placed ∧ y.placed.Perm rest) := by
  have hsame : ∃ rest, rest.Sublist x.placed ∧ x.placed.Perm rest := ⟨x.placed, .refl _, .refl _⟩
  -- a job without a token changes nothing
  have hjob {job : Job} (hj : job.requests = []) : ∃ rest, rest.Sublist x.placed ∧
      (x.waiting ++ (x.enqueued ++ [job]).flatMap Job.requests).Perm rest := by
    rw [List.flatMap_append, List.flatMap_singleton, hj, List.append_nil]
    exact hsame
  cases h with
  | issue r =>
    refine .inl ⟨r, rfl, rfl, ?_⟩
    unfold placed
    rw [List.append_assoc]
    exact List.perm_middle
  | @enqueue s token r before after hwaits hroom h =>
    obtain ⟨-, rfl⟩ := (Service.submit_eq_ok_iff _ _ _).1 h
    refine .inr ⟨.inl rfl, rfl, x.placed, .refl _, ?_⟩
    unfold placed
    rw [hwaits, List.flatMap_append, List.flatMap_singleton]
    simp only [List.append_assoc]
    refine List.Perm.append_left _ ?_
    -- the token moves from the middle to the end
    rw [← List.append_assoc]
    exact List.perm_append_comm
  | @refuse e token r before after hwaits h =>
    refine .inr ⟨.inl rfl, rfl, _, ?_, .refl _⟩
    unfold placed
    rw [hwaits]
    have hless : (before ++ after).Sublist (before ++ (token, r) :: after) :=
      (List.Sublist.refl before).append (List.sublist_cons_self _ _)
    exact hless.append (.refl _)
  | call hasked hroom h =>
    obtain ⟨-, rfl⟩ := (Service.submit_eq_ok_iff _ _ _).1 h
    exact .inr ⟨.inl rfl, rfl, hjob (by rcases hasked with ⟨r, rfl⟩ | rfl <;> rfl)⟩
  | cancelAll => exact .inr ⟨.inr rfl, rfl, hsame⟩
  | begin hinbox hidle hworks hsound =>
    exact .inr ⟨.inl (takes_begin hinbox hidle hworks hsound).does.board, rfl, hsame⟩
  | beginLate hinbox hidle hworks hlive hsound =>
    exact .inr ⟨.inl (takes_beginLate hinbox hidle hworks hlive hsound).does.board, rfl, hsame⟩
  | finish =>
    refine .inr ⟨.inl ?_, rfl, hsame⟩
    show x.toService.finish.board = _
    unfold Service.finish
    split <;> rfl
  | deliver h =>
    refine .inr ⟨.inl ?_, rfl, hsame⟩
    show x.toService.deliver.board = _
    unfold Service.deliver
    split <;> rfl
  | shutdown h => exact .inr ⟨.inl rfl, rfl, hsame⟩
  | stopWorker hphase hroom h =>
    obtain ⟨-, rfl⟩ := (Service.submit_eq_ok_iff _ _ _).1 h
    exact .inr ⟨.inl rfl, rfl, hjob rfl⟩
  | closeOutbox hphase hgone => exact .inr ⟨.inl rfl, rfl, hsame⟩
  | close hphase hgone => exact .inr ⟨.inl rfl, rfl, hsame⟩

theorem Step.issues (h : Step x y) (hx : x.board.Issues x.issued) : y.board.Issues y.issued := by
  rcases h.board_cases with ⟨r, hboard, hissued, -⟩ | ⟨hboard, hissued, -⟩
  · rw [hboard, hissued]
    exact hx.issue r.kind
  · rw [hissued]
    rcases hboard with hboard | hboard
    · rw [hboard]
      exact hx
    · rw [hboard]
      exact hx.cancelAll

theorem Step.issued_subset (h : Step x y) : x.issued ⊆ y.issued := by
  rcases h.board_cases with ⟨r, -, hissued, -⟩ | ⟨-, hissued, -⟩
  · rw [hissued]
    exact List.subset_append_left _ _
  · rw [hissued]
    exact List.Subset.refl _

/-- What is not live does not become live again. -/
theorem Step.not_isLive (h : Step x y) (hx : x.board.Issues x.issued) {t : Token RequestKind}
    (ht : t ∈ x.issued) (hdead : x.board.isLive t = false) : y.board.isLive t = false := by
  have hcancelled : x.board.cancelled = true → y.board.cancelled = true := by
    intro hc
    rcases h.board_cases with ⟨r, hboard, -⟩ | ⟨hboard | hboard, -⟩
    · rw [hboard]
      exact hc
    · rw [hboard]
      exact hc
    · rw [hboard]
      rfl
  rw [Bool.eq_false_iff] at hdead ⊢
  intro hlive
  exact hdead (hx.isLive_of_isLive (h.issues hx) h.issued_subset hcancelled ht hlive)

theorem Tokens.step (hx : Tokens x) (h : Step x y) : Tokens y := by
  rcases h.board_cases with ⟨r, -, hissued, hperm⟩ | ⟨-, -, rest, hless, hperm⟩
  · have hnodup := (hx.issues.issue r.kind).nodup
    have hfresh : (x.board.issue r.kind).1 ∉ x.placed.map (·.1) := by
      intro hmem
      obtain ⟨e, he, hsame⟩ := List.mem_map.1 hmem
      exact (List.nodup_append.1 hnodup).2.2 _ (hx.issued e he) _ (List.mem_singleton_self _) hsame
    refine ⟨h.issues hx.issues, ?_, fun e he => ?_, fun e he => ?_⟩
    · exact (hperm.map _).nodup_iff.2 (List.nodup_cons.2 ⟨hfresh, hx.nodup⟩)
    · rw [hissued]
      rcases List.mem_cons.1 (hperm.mem_iff.1 he) with rfl | he
      · exact List.mem_append_right _ (List.mem_singleton_self _)
      · exact List.mem_append_left _ (hx.issued e he)
    · rcases List.mem_cons.1 (hperm.mem_iff.1 he) with rfl | he
      · rfl
      · exact hx.kinds e he
  · have hbefore {e} (he : e ∈ y.placed) : e ∈ x.placed := hless.subset (hperm.mem_iff.1 he)
    refine ⟨h.issues hx.issues, ?_, fun e he => ?_, fun e he => hx.kinds e (hbefore he)⟩
    · exact (hperm.map _).nodup_iff.2 (hx.nodup.sublist (hless.map _))
    · exact h.issued_subset (hx.issued e (hbefore he))

/-! ## The queue of the worker -/

/-- What a step does to jobs and results. -/
inductive Move (x y : Exchange σ) : Prop
  /-- It leaves the queue of the worker alone. Results of requests that are not live may get lost,
  and a callback may be run for one that is. -/
  | keep (inbox : y.inbox = x.inbox) (working : y.working = x.working)
      (enqueued : y.enqueued = x.enqueued) (taken : y.taken = x.taken)
      (returned : y.returned = x.returned) (idle : x.finished = none → y.finished = none)
      (told : y.phase.told = x.phase.told) (thins : Service.Thins x.toService y.toService)
      (delivered : y.delivered = x.delivered ∨ ∃ d rest, x.outbox = .delivery d :: rest ∧
        x.board.isLive d.token = true ∧ y.delivered = x.delivered ++ [d])
  /-- Some job goes to the end of the queue. The worker is told to stop only once. -/
  | put (job : Job) (works : x.working = true) (inbox : y.inbox = x.inbox ++ [job])
      (working : y.working = x.working) (enqueued : y.enqueued = x.enqueued ++ [job])
      (taken : y.taken = x.taken) (returned : y.returned = x.returned)
      (once : job.isStop = true → x.phase.told = false)
      (told : y.phase.told = (x.phase.told || job.isStop))
      (flight : y.flight = x.flight) (delivered : y.delivered = x.delivered)
  /-- The worker takes the first job. -/
  | take (job : Job) (jobs : List Job) (takes : Takes job jobs x y)

theorem Step.move (h : Step x y) : Move x y := by
  cases h with
  | issue r => exact .keep rfl rfl rfl rfl rfl id rfl (Service.thins_of_eq rfl) (.inl rfl)
  | @enqueue s token r before after hwaits hroom h =>
    obtain ⟨hworks, rfl⟩ := (Service.submit_eq_ok_iff _ _ _).1 h
    exact .put (.request token r) hworks rfl rfl rfl rfl rfl (nomatch ·) (Bool.or_false _).symm
      rfl rfl
  | refuse hwaits h => exact .keep rfl rfl rfl rfl rfl id rfl (Service.thins_of_eq rfl) (.inl rfl)
  | @call s job hasked hroom h =>
    obtain ⟨hworks, rfl⟩ := (Service.submit_eq_ok_iff _ _ _).1 h
    have hgoes : job.isStop = false := by rcases hasked with ⟨r, rfl⟩ | rfl <;> rfl
    refine .put job hworks rfl rfl rfl rfl rfl (fun hstop => ?_) ?_ rfl rfl
    · rw [hgoes] at hstop
      cases hstop
    · rw [hgoes, Bool.or_false]
  | cancelAll => exact .keep rfl rfl rfl rfl rfl id rfl (Service.thins_of_eq rfl) (.inl rfl)
  | begin hinbox hidle hworks hsound => exact .take _ _ (takes_begin hinbox hidle hworks hsound)
  | beginLate hinbox hidle hworks hlive hsound =>
    exact .take _ _ (takes_beginLate hinbox hidle hworks hlive hsound)
  | finish =>
    obtain ⟨hinbox, hworking, hreturned, hdelivered, hidle⟩ := x.toService.finish_frame
    exact .keep hinbox hworking rfl rfl hreturned (fun _ => hidle) rfl (Service.finish_thins _)
      (.inl hdelivered)
  | deliver h =>
    obtain ⟨hinbox, hworking, hreturned, hfinished⟩ := x.toService.deliver_frame
    exact .keep hinbox hworking rfl rfl hreturned hfinished.trans rfl (Service.deliver_thins _)
      (Service.deliver_cases _)
  | shutdown h =>
    exact .keep rfl rfl rfl rfl rfl id (by rw [h]; rfl) (Service.thins_of_eq rfl) (.inl rfl)
  | stopWorker hphase hroom h =>
    obtain ⟨hworks, rfl⟩ := (Service.submit_eq_ok_iff _ _ _).1 h
    exact .put .stop hworks rfl rfl rfl rfl rfl (fun _ => by rw [hphase]; rfl)
      (by rw [hphase]; rfl) rfl rfl
  | closeOutbox hphase hgone =>
    exact .keep rfl rfl rfl rfl rfl id (by rw [hphase]; rfl) (Service.closeOutbox_thins _)
      (.inl rfl)
  | close hphase hgone =>
    exact .keep rfl rfl rfl rfl rfl id (by rw [hphase]; rfl) (Service.thins_of_eq rfl) (.inl rfl)

/-- Jobs are taken in the order of the queue, each once, and every call among them returns. -/
structure Queues (x : Exchange σ) : Prop where
  /-- What waits when the worker stops is lost, and nothing else is. -/
  enqueued : ∃ lost, x.enqueued = x.taken ++ (x.inbox ++ lost) ∧ (x.working = true → lost = [])
  returned : x.returned.map (·.1) = ticketsOf x.taken
  stops : x.enqueued.countP Job.isStop = if x.phase.told then 1 else 0
  going : x.working = true → x.taken.countP Job.isStop = 0
  gone : x.working = false → x.inbox = [] ∧ x.finished = none ∧ ∃ before, x.taken = before ++ [.stop]

theorem Queues.takes (hx : Queues x) {job : Job} {jobs : List Job} (h : Takes job jobs x y) :
    Queues y := by
  obtain ⟨lost, henqueued, hlost⟩ := hx.enqueued
  have does := h.does
  have hinbox : y.inbox = if job.isStop then [] else jobs := does.inbox
  rw [hlost h.works, List.append_nil, h.inbox] at henqueued
  constructor
  · rw [h.enqueued, henqueued, h.taken, hinbox, does.working]
    cases job.isStop with
    | false => exact ⟨[], by simp, fun _ => rfl⟩
    | true => exact ⟨jobs, by simp, fun hworks => by cases hworks⟩
  · rw [does.returned, h.taken, ticketsOf_concat, ← hx.returned]
  · rw [h.enqueued, h.phase]
    exact hx.stops
  · rw [does.working, h.taken]
    intro hworks
    rw [Bool.not_eq_true'] at hworks
    rw [List.countP_append, hx.going h.works, List.countP_singleton, hworks]
    rfl
  · rw [does.working, h.taken, hinbox]
    intro hgone
    cases job with
    | stop =>
      have hidle : y.finished.toList.map (·.token) = [] := does.finished
      exact ⟨rfl, by simpa using hidle, x.taken, rfl⟩
    | request token r => cases hgone
    | call ticket r => cases hgone
    | invalidate ticket => cases hgone

theorem Queues.step (hx : Queues x) (h : Step x y) : Queues y := by
  obtain ⟨lost, henqueued, hlost⟩ := hx.enqueued
  cases h.move with
  | keep inbox working enqueued taken returned idle told thins delivered =>
    constructor
    · rw [enqueued, taken, inbox, working]
      exact hx.enqueued
    · rw [returned, taken]
      exact hx.returned
    · rw [enqueued, told]
      exact hx.stops
    · rw [working, taken]
      exact hx.going
    · rw [working, taken, inbox]
      intro hgone
      obtain ⟨hempty, hidle, hstop⟩ := hx.gone hgone
      exact ⟨hempty, idle hidle, hstop⟩
  | put job works inbox working enqueued taken returned once told flight delivered =>
    rw [hlost works, List.append_nil] at henqueued
    constructor
    · refine ⟨[], ?_, fun _ => rfl⟩
      rw [enqueued, taken, inbox, henqueued, List.append_nil, List.append_assoc]
    · rw [returned, taken]
      exact hx.returned
    · rw [enqueued, told, List.countP_append, hx.stops, List.countP_singleton]
      cases hstop : job.isStop with
      | false => simp
      | true => simp [once hstop]
    · rw [taken]
      exact fun _ => hx.going works
    · rw [working, works]
      intro hgone
      cases hgone
  | take job jobs takes => exact hx.takes takes

theorem Queues.tokensOf_taken_sublist (hx : Queues x) :
    (tokensOf x.taken).Sublist (x.placed.map (·.1)) := by
  obtain ⟨lost, henqueued, -⟩ := hx.enqueued
  have hprefix : (tokensOf x.taken).Sublist ((x.enqueued.flatMap Job.requests).map (·.1)) := by
    rw [henqueued, List.flatMap_append, List.map_append, List.map_flatMap]
    exact List.sublist_append_left _ _
  exact hprefix.trans ((List.sublist_append_right _ _).map _)

theorem Queues.mem_issued (hx : Queues x) (htokens : Tokens x) {t : Token RequestKind}
    (ht : t ∈ tokensOf x.taken) : t ∈ x.issued := by
  obtain ⟨e, he, rfl⟩ := List.mem_map.1 (hx.tokensOf_taken_sublist.subset ht)
  exact htokens.issued e he

end SketchSense.Exchange
