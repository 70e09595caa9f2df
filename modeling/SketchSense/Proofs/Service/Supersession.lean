import SketchSense.Model.Engine
import SketchSense.Proofs.Service.Queues

/-!
# Which callbacks are run

Whether a request is still live is looked at three times, by two threads. Still no result is lost,
repeated or delivered too late: results stay in the order of the queue, on the way only those get
lost that nobody waits for any more, and what is not live never becomes live again.

* `Exchange.Flow` and `Exchange.Outlet`, what is invariant from the worker to the callbacks;
* `Exchange.Sound`, all invariants together, and `Exchange.Sound.reaches`;
* `Exchange.Supersedes` and `Exchange.supersedes_of_reaches`, what that means for callbacks and for
  the end of a shutdown.
-/

namespace SketchSense.Exchange

variable {σ : Type} {x y : Exchange σ}

/-! ## From the worker to the callbacks -/

/-- A callback is run for the first result in the queue, and only if its request is live. -/
theorem Step.delivered_cases (h : Step x y) :
    y.delivered = x.delivered ∨
      ∃ d rest, x.outbox = .delivery d :: rest ∧ x.board.isLive d.token = true ∧
        y.delivered = x.delivered ++ [d] := by
  cases h.move with
  | keep _ _ _ _ _ _ _ _ delivered => exact delivered
  | put job _ _ _ _ _ _ _ _ _ delivered => exact .inl delivered
  | take job jobs takes => exact .inl takes.does.delivered

/-- A job that is taken adds its result, if it is a request and live. -/
theorem Takes.flight {job : Job} {jobs : List Job} (h : Takes job jobs x y) :
    y.flight = x.flight ++ job.tokens.filter x.board.isLive := by
  have hdelivered : y.delivered = x.delivered := h.does.delivered
  have houtbox : y.outbox = x.outbox := h.does.outbox
  have hfinished : y.finished.toList.map (·.token) = job.tokens.filter x.board.isLive :=
    h.does.finished
  unfold Service.flight
  rw [hdelivered, houtbox, hfinished, h.idle]
  simp

/-- Results stay in the order in which the requests were taken, and a request that was taken and has
no result any more is not live. -/
structure Flow (x : Exchange σ) : Prop where
  sublist : x.flight.Sublist (tokensOf x.taken)
  kept : ∀ t ∈ tokensOf x.taken, t ∈ x.flight ∨ x.board.isLive t = false
  ordered : x.delivered.Pairwise fun d e => d.token.Precedes e.token

theorem Flow.nodup (hx : Flow x) (htokens : Tokens x) (hqueues : Queues x) : x.flight.Nodup :=
  htokens.nodup.sublist (hx.sublist.trans hqueues.tokensOf_taken_sublist)

theorem Flow.issued (hx : Flow x) (htokens : Tokens x) (hqueues : Queues x) {t : Token RequestKind}
    (ht : t ∈ x.flight) : t ∈ x.issued :=
  hqueues.mem_issued htokens (hx.sublist.subset ht)

/-- A callback comes after those of its kind that were run before. -/
theorem Flow.ordered_concat (hx : Flow x) (htokens : Tokens x) (hqueues : Queues x) {d : Delivery}
    {rest : List Outgoing} (houtbox : x.outbox = .delivery d :: rest)
    (hlive : x.board.isLive d.token = true) :
    (x.delivered ++ [d]).Pairwise fun d e => d.token.Precedes e.token := by
  have hflight : x.flight = x.delivered.map (·.token) ++
      (d.token :: (rest.flatMap Outgoing.tokens ++ x.finished.toList.map (·.token))) := by
    unfold Service.flight
    rw [houtbox]
    rfl
  have hnodup := hx.nodup htokens hqueues
  rw [hflight] at hnodup
  refine List.pairwise_append.2 ⟨hx.ordered, List.pairwise_singleton _ _, fun e he d' hd' => ?_⟩
  obtain rfl := List.mem_singleton.1 hd'
  intro hclock
  have hmem : e.token ∈ x.delivered.map (·.token) := List.mem_map_of_mem he
  have hissued : e.token ∈ x.issued ∧ d'.token ∈ x.issued := by
    constructor <;> refine hx.issued htokens hqueues ?_ <;> rw [hflight]
    · exact List.mem_append_left _ hmem
    · exact List.mem_append_right _ List.mem_cons_self
  have hlatest := (htokens.issues.isLatest_iff hissued.2).1
    ((htokens.issues.isLive_iff hissued.2).1 hlive).2
  refine Nat.lt_of_le_of_ne (hlatest _ hissued.1 hclock) fun hsame => ?_
  -- it would be the same request, but results of one request are not there twice
  have heq := htokens.issues.eq_of_generation hissued.1 hissued.2 hclock hsame
  exact (List.nodup_append.1 hnodup).2.2 _ hmem _ List.mem_cons_self heq

theorem Flow.step (hx : Flow x) (htokens : Tokens x) (hqueues : Queues x) (h : Step x y) :
    Flow y := by
  have hordered : y.delivered.Pairwise fun d e => d.token.Precedes e.token := by
    rcases h.delivered_cases with hsame | ⟨d, rest, houtbox, hlive, hnew⟩
    · rw [hsame]
      exact hx.ordered
    · rw [hnew]
      exact hx.ordered_concat htokens hqueues houtbox hlive
  have hdead {t : Token RequestKind} (ht : t ∈ tokensOf x.taken)
      (hdead : x.board.isLive t = false) : y.board.isLive t = false :=
    h.not_isLive htokens.issues (hqueues.mem_issued htokens ht) hdead
  -- on the way only what is not live gets lost
  have hthinned (htaken : y.taken = x.taken) (hthins : Service.Thins x.toService y.toService) :
      Flow y := by
    rw [← htaken] at hdead
    refine ⟨?_, fun t ht => ?_, hordered⟩
    · rw [htaken]
      exact hthins.sublist.trans hx.sublist
    · rcases hx.kept t (htaken ▸ ht) with hflight | hlost
      · exact (hthins.lost t hflight).imp_right (hdead ht)
      · exact .inr (hdead ht hlost)
  cases h.move with
  | keep _ _ _ taken _ _ _ thins _ => exact hthinned taken thins
  | put job _ _ _ _ taken _ _ _ flight _ => exact hthinned taken (Service.thins_of_eq flight)
  | take job jobs takes =>
    have hboard : y.board = x.board := takes.does.board
    constructor
    · rw [takes.flight, takes.taken, tokensOf_concat]
      exact hx.sublist.append List.filter_sublist
    · intro t ht
      rw [takes.taken, tokensOf_concat, List.mem_append] at ht
      rw [takes.flight, List.mem_append, List.mem_filter]
      rcases ht with ht | ht
      · exact (hx.kept t ht).imp .inl (hdead ht)
      · rw [hboard]
        cases hlive : x.board.isLive t with
        | true => exact .inl (.inr ⟨ht, rfl⟩)
        | false => exact .inr rfl
    · exact hordered

/-! ## The end of the callbacks -/

/-- Callbacks are run until the worker is gone and they are told to stop. -/
structure Outlet (x : Exchange σ) : Prop where
  going : x.phase.closes = false →
    x.delivering = true ∧ ∃ ds : List Delivery, x.outbox = ds.map .delivery
  closing : x.phase.closes = true → x.working = false ∧
    ((x.delivering = true ∧ ∃ ds : List Delivery, x.outbox = ds.map .delivery ++ [.stop]) ∨
      (x.delivering = false ∧ x.outbox = []))
  closed : x.phase = .closed → x.delivering = false

/-- What leaves the queue of results alone and does not restart the worker keeps the invariant. -/
theorem Outlet.congr (hx : Outlet x) (hcloses : y.phase.closes = x.phase.closes)
    (hclosed : y.phase = .closed → x.phase = .closed) (hdelivering : y.delivering = x.delivering)
    (houtbox : y.outbox = x.outbox) (hgone : x.working = false → y.working = false) : Outlet y := by
  refine ⟨fun h => ?_, fun h => ?_, fun h => ?_⟩
  · rw [hdelivering, houtbox]
    exact hx.going (hcloses ▸ h)
  · rw [hdelivering, houtbox]
    exact (hx.closing (hcloses ▸ h)).imp_left hgone
  · rw [hdelivering]
    exact hx.closed (hclosed h)

theorem Outlet.takes (hx : Outlet x) {job : Job} {jobs : List Job} (h : Takes job jobs x y) :
    Outlet y := by
  refine hx.congr (by rw [h.phase]) (fun hclosed => h.phase ▸ hclosed) h.does.delivering
    h.does.outbox fun hgone => ?_
  rw [h.works] at hgone
  cases hgone

theorem Outlet.finish (hx : Outlet x) (hqueues : Queues x) :
    Outlet { x with toService := x.toService.finish } := by
  cases hfinished : x.finished with
  | none =>
    rw [Service.finish_of_finished_eq_none _ hfinished]
    exact hx
  | some d =>
    -- a worker that has a result is not gone
    have hworks : x.working = true := by
      rw [← Bool.not_eq_false]
      intro hgone
      rw [(hqueues.gone hgone).2.1] at hfinished
      cases hfinished
    have hgoing : x.phase.closes = false := by
      rw [← Bool.not_eq_true]
      intro hcloses
      rw [(hx.closing hcloses).1] at hworks
      cases hworks
    obtain ⟨hdelivering, ds, houtbox⟩ := hx.going hgoing
    have hfinish : x.toService.finish = { x.toService with
        finished := none
        outbox := if x.board.isLive d.token then x.outbox ++ [.delivery d] else x.outbox } := by
      unfold Service.finish
      rw [hfinished]
    rw [hfinish]
    refine ⟨fun _ => ⟨hdelivering, ?_⟩, fun hcloses => ?_, hx.closed⟩
    · dsimp only
      split
      · exact ⟨ds ++ [d], by rw [houtbox]; simp⟩
      · exact ⟨ds, houtbox⟩
    · have hcloses : x.phase.closes = true := hcloses
      rw [hgoing] at hcloses
      cases hcloses

theorem Outlet.deliver (hx : Outlet x) (hdelivering : x.delivering = true) :
    Outlet { x with toService := x.toService.deliver } := by
  refine ⟨fun hgoing => ?_, fun hcloses => ?_, fun hclosed => ?_⟩
  · obtain ⟨-, ds, houtbox⟩ := hx.going hgoing
    show x.toService.deliver.delivering = true ∧ ∃ ds, x.toService.deliver.outbox = _
    unfold Service.deliver
    rw [houtbox]
    cases ds with
    | nil => exact ⟨hdelivering, [], houtbox⟩
    | cons d ds => exact ⟨hdelivering, ds, rfl⟩
  · obtain ⟨hgone, ⟨-, ds, houtbox⟩ | ⟨hstopped, -⟩⟩ := hx.closing hcloses
    · show x.toService.deliver.working = false ∧
        ((x.toService.deliver.delivering = true ∧ ∃ ds, x.toService.deliver.outbox = _) ∨
          (x.toService.deliver.delivering = false ∧ x.toService.deliver.outbox = _))
      unfold Service.deliver
      rw [houtbox]
      cases ds with
      | nil => exact ⟨hgone, .inr ⟨rfl, rfl⟩⟩
      | cons d ds => exact ⟨hgone, .inl ⟨hdelivering, ds, rfl⟩⟩
    · rw [hdelivering] at hstopped
      cases hstopped
  · rw [hx.closed hclosed] at hdelivering
    cases hdelivering

theorem Outlet.step (hx : Outlet x) (hqueues : Queues x) (h : Step x y) : Outlet y := by
  cases h with
  | issue r => exact hx.congr rfl id rfl rfl id
  | enqueue hwaits hroom h =>
    obtain ⟨-, rfl⟩ := (Service.submit_eq_ok_iff _ _ _).1 h
    exact hx.congr rfl id rfl rfl id
  | refuse hwaits h => exact hx.congr rfl id rfl rfl id
  | call hjob hroom h =>
    obtain ⟨-, rfl⟩ := (Service.submit_eq_ok_iff _ _ _).1 h
    exact hx.congr rfl id rfl rfl id
  | cancelAll => exact hx.congr rfl id rfl rfl id
  | begin hinbox hidle hworks hsound => exact hx.takes (takes_begin hinbox hidle hworks hsound)
  | beginLate hinbox hidle hworks hlive hsound =>
    exact hx.takes (takes_beginLate hinbox hidle hworks hlive hsound)
  | finish => exact hx.finish hqueues
  | deliver h => exact hx.deliver h
  | shutdown h => exact hx.congr (by rw [h]; rfl) (fun h => by cases h) rfl rfl id
  | stopWorker hphase hroom h =>
    obtain ⟨-, rfl⟩ := (Service.submit_eq_ok_iff _ _ _).1 h
    exact hx.congr (by rw [hphase]; rfl) (fun h => by cases h) rfl rfl id
  | closeOutbox hphase hgone =>
    obtain ⟨hdelivering, ds, houtbox⟩ := hx.going (by rw [hphase]; rfl)
    refine ⟨(nomatch ·), fun _ => ⟨hgone, .inl ⟨hdelivering, ds, ?_⟩⟩, (nomatch ·)⟩
    show x.outbox ++ _ = _
    rw [houtbox]
  | close hphase hgone =>
    exact ⟨(nomatch ·), fun _ => hx.closing (by rw [hphase]; rfl), fun _ => hgone⟩

/-! ## All states that are reached -/

/-- All that is invariant. -/
structure Sound (x : Exchange σ) : Prop where
  tokens : Tokens x
  queues : Queues x
  flow : Flow x
  outlet : Outlet x

theorem sound_start (core : AnalysisCore σ) (engineState : σ) (capacity : Nat) :
    Sound (start core engineState capacity) where
  tokens := ⟨Board.issues_nil, .nil, fun _ h => (List.not_mem_nil h).elim,
    fun _ h => (List.not_mem_nil h).elim⟩
  queues := ⟨⟨[], rfl, fun _ => rfl⟩, rfl, rfl, fun _ => rfl, fun h => by cases h⟩
  flow := ⟨.refl _, fun _ h => (List.not_mem_nil h).elim, .nil⟩
  outlet := ⟨fun _ => ⟨rfl, [], rfl⟩, (nomatch ·), (nomatch ·)⟩

theorem Sound.step (hx : Sound x) (h : Step x y) : Sound y where
  tokens := hx.tokens.step h
  queues := hx.queues.step h
  flow := hx.flow.step hx.tokens hx.queues h
  outlet := hx.outlet.step hx.queues h

theorem Sound.reaches (hx : Sound x) (h : x.Reaches y) : Sound y := by
  induction h with
  | refl => exact hx
  | tail _ hstep ih => exact ih.step hstep

/-- When no result is on its way any more, every request that was taken has had its callback run, or
is not live. -/
theorem Sound.mem_delivered (hx : Sound x) (hidle : x.finished = none) (houtbox : x.outbox = [])
    {t : Token RequestKind} (ht : t ∈ tokensOf x.taken) :
    t ∈ x.delivered.map (·.token) ∨ x.board.isLive t = false := by
  have hflight : x.flight = x.delivered.map (·.token) := by
    unfold Service.flight
    rw [hidle, houtbox]
    exact List.append_nil _
  rw [← hflight]
  exact hx.flow.kept t ht

theorem Sound.delivered_sublist (hx : Sound x) :
    (x.delivered.map (·.token)).Sublist (tokensOf x.taken) :=
  (List.sublist_append_left _ _).trans hx.flow.sublist

theorem Sound.delivered_nodup (hx : Sound x) : (x.delivered.map (·.token)).Nodup :=
  (hx.flow.nodup hx.tokens hx.queues).sublist (List.sublist_append_left _ _)

/-- The latest request of a kind, if it was taken and nothing is cancelled, has had its callback run
when no result is on its way any more. -/
theorem Sound.count_delivered (hx : Sound x) (hidle : x.finished = none) (houtbox : x.outbox = [])
    (hgoing : x.board.cancelled = false) {t : Token RequestKind} (ht : t ∈ tokensOf x.taken)
    (hlatest : t.IsLatest x.issued) : (x.delivered.map (·.token)).count t = 1 := by
  have hissued : t ∈ x.issued := hx.queues.mem_issued hx.tokens ht
  have hlive : x.board.isLive t = true := (hx.tokens.issues.isLive_iff hissued).2 ⟨hgoing, hlatest⟩
  refine List.count_eq_one_of_mem hx.delivered_nodup ?_
  refine (hx.mem_delivered hidle houtbox ht).resolve_right fun hdead => ?_
  rw [hlive] at hdead
  cases hdead

/-- Before anybody asks for a shutdown all jobs are taken or wait. -/
theorem Sound.enqueued_of_not_told (hx : Sound x) (htold : x.phase.told = false) :
    x.enqueued = x.taken ++ x.inbox := by
  obtain ⟨lost, henqueued, hlost⟩ := hx.queues.enqueued
  have hstops := hx.queues.stops
  rw [htold, if_neg Bool.false_ne_true, henqueued, List.countP_append] at hstops
  have hworks : x.working = true := by
    rw [← Bool.not_eq_false]
    intro hgone
    obtain ⟨before, htaken⟩ := (hx.queues.gone hgone).2.2
    rw [htaken, List.countP_append] at hstops
    have hstop : [Job.stop].countP Job.isStop = 1 := rfl
    omega
  rw [henqueued, hlost hworks, List.append_nil]

/-- When the worker is gone, it has taken what was in the queue before it was told to stop. -/
theorem Sound.enqueued_of_gone (hx : Sound x) (hgone : x.working = false) :
    ∃ before after, x.enqueued = before ++ .stop :: after ∧ x.taken = before ++ [.stop] ∧
      ∀ job ∈ before ++ after, job.isStop = false := by
  obtain ⟨lost, henqueued, -⟩ := hx.queues.enqueued
  obtain ⟨hempty, -, before, htaken⟩ := hx.queues.gone hgone
  rw [htaken, hempty, List.nil_append, List.append_assoc] at henqueued
  refine ⟨before, lost, henqueued, htaken, fun job hjob => ?_⟩
  -- there is only one job in the queue that is to stop the worker
  have hstops : x.enqueued.countP Job.isStop ≤ 1 := by
    rw [hx.queues.stops]
    split <;> omega
  have hnone : (before ++ lost).countP Job.isStop = 0 := by
    rw [henqueued, List.countP_append, List.countP_append] at hstops
    rw [List.countP_append]
    have hstop : [Job.stop].countP Job.isStop = 1 := rfl
    omega
  simpa using List.countP_eq_zero.1 hnone job hjob

/-- Nothing is left to do when the shutdown has returned. -/
theorem Sound.of_closed (hx : Sound x) (hclosed : x.phase = .closed) :
    x.working = false ∧ x.finished = none ∧ x.outbox = [] := by
  obtain ⟨hgone, houtlet⟩ := hx.outlet.closing (by rw [hclosed]; rfl)
  refine ⟨hgone, (hx.queues.gone hgone).2.1, ?_⟩
  rcases houtlet with ⟨hdelivering, -⟩ | ⟨-, houtbox⟩
  · rw [hx.outlet.closed hclosed] at hdelivering
    cases hdelivering
  · exact houtbox

theorem Step.closed (h : Step x y) (hclosed : x.phase = .closed) : y.phase = .closed := by
  cases h with
  | closeOutbox hphase hgone =>
    rw [hclosed] at hphase
    cases hphase
  | shutdown h =>
    rw [hclosed] at h
    cases h
  | stopWorker hphase hroom h =>
    rw [hclosed] at hphase
    cases hphase
  | close hphase hgone => rfl
  | _ => exact hclosed

/-- No callback is run and no call returns after the end of the shutdown. -/
theorem Sound.stays_closed (hx : Sound x) (hclosed : x.phase = .closed) (h : x.Reaches y) :
    y.phase = .closed ∧ y.delivered = x.delivered ∧ y.returned = x.returned := by
  induction h with
  | refl => exact ⟨hclosed, rfl, rfl⟩
  | @tail y z hreach hstep ih =>
    obtain ⟨hclosed, hdelivered, hreturned⟩ := ih
    obtain ⟨hgone, -, houtbox⟩ := (hx.reaches hreach).of_closed hclosed
    refine ⟨hstep.closed hclosed, ?_, ?_⟩
    · rcases hstep.delivered_cases with hsame | ⟨d, rest, hcons, -⟩
      · rw [hsame, hdelivered]
      · rw [houtbox] at hcons
        cases hcons
    · cases hstep.move with
      | keep _ _ _ _ returned _ _ _ _ => rw [returned, hreturned]
      | put job _ _ _ _ _ returned _ _ _ _ => rw [returned, hreturned]
      | take job jobs takes =>
        rw [takes.works] at hgone
        cases hgone

/-! ## What callers rely on -/

/-- Requests with callbacks supersede each other by kind, and none is forgotten. -/
structure Supersedes (x : Exchange σ) : Prop where
  /-- The token of a request that was put into the queue is of the clock of its kind. -/
  kinds : ∀ token r, Job.request token r ∈ x.enqueued → token.clock? = some r.kind
  /-- Callbacks are run for such requests. -/
  asked : ∀ d ∈ x.delivered, ∃ r, Job.request d.token r ∈ x.enqueued
  /-- No callback is run twice. -/
  once : (x.delivered.map (·.token)).Nodup
  /-- A callback that is run next is that of the latest request of its kind, and nothing was
  cancelled. -/
  checked : ∀ y, Step x y → y.delivered = x.delivered ∨
    ∃ d, y.delivered = x.delivered ++ [d] ∧ x.board.cancelled = false ∧ d.token.IsLatest x.issued
  /-- Callbacks of one kind are run in the order of their generations. -/
  ordered : x.delivered.Pairwise fun d e => d.token.Precedes e.token
  /-- When both queues are empty and nobody is at work, the callback of the latest request of each
  kind was run, unless something was cancelled or a shutdown has begun. -/
  drained : x.inbox = [] → x.finished = none → x.outbox = [] → x.board.cancelled = false →
    x.phase = .running → ∀ token r, Job.request token r ∈ x.enqueued → token.IsLatest x.issued →
      (x.delivered.map (·.token)).count token = 1
  /-- When the first shutdown has returned, exactly what was put into the queue before the job that
  stops the worker is done: calls have returned, and callbacks were run or their requests are not
  live. From then on nothing happens any more. -/
  closed : x.phase = .closed → ∃ before after,
    x.enqueued = before ++ .stop :: after ∧ x.taken = before ++ [.stop] ∧
    (∀ job ∈ before ++ after, job.isStop = false) ∧
    (x.working = false ∧ x.delivering = false ∧ x.finished = none ∧ x.outbox = []) ∧
    x.returned.map (·.1) = ticketsOf before ∧
    (x.delivered.map (·.token)).Sublist (tokensOf before) ∧
    (∀ token r, Job.request token r ∈ before → x.board.cancelled = false →
      token.IsLatest x.issued → (x.delivered.map (·.token)).count token = 1) ∧
    ∀ y, x.Reaches y → y.delivered = x.delivered ∧ y.returned = x.returned

/-- Whatever clients, the worker and the callbacks do, and in which order they do it. -/
theorem supersedes_of_reaches (core : AnalysisCore σ) (engineState : σ) (capacity : Nat)
    (h : (start core engineState capacity).Reaches x) : x.Supersedes := by
  have hx : Sound x := (sound_start core engineState capacity).reaches h
  constructor
  case kinds =>
    intro token r hjob
    refine hx.tokens.kinds (token, r) (List.mem_append_right _ ?_)
    exact List.mem_flatMap.2 ⟨_, hjob, List.mem_singleton_self _⟩
  case asked =>
    intro d hd
    obtain ⟨r, hr⟩ := mem_tokensOf.1 (hx.delivered_sublist.subset (List.mem_map_of_mem hd))
    obtain ⟨lost, henqueued, -⟩ := hx.queues.enqueued
    exact ⟨r, henqueued ▸ List.mem_append_left _ hr⟩
  case once => exact hx.delivered_nodup
  case checked =>
    intro y hstep
    refine hstep.delivered_cases.imp_right ?_
    rintro ⟨d, rest, houtbox, hlive, hnew⟩
    have hflight : d.token ∈ x.flight := by
      unfold Service.flight
      rw [houtbox]
      exact List.mem_append_right _ List.mem_cons_self
    have hissued := hx.flow.issued hx.tokens hx.queues hflight
    exact ⟨d, hnew, (hx.tokens.issues.isLive_iff hissued).1 hlive⟩
  case ordered => exact hx.flow.ordered
  case drained =>
    intro hempty hidle houtbox hgoing hphase token r hjob hlatest
    have henqueued := hx.enqueued_of_not_told (by rw [hphase]; rfl)
    rw [hempty, List.append_nil] at henqueued
    exact hx.count_delivered hidle houtbox hgoing (mem_tokensOf.2 ⟨r, henqueued ▸ hjob⟩) hlatest
  case closed =>
    intro hclosed
    obtain ⟨hgone, hidle, houtbox⟩ := hx.of_closed hclosed
    obtain ⟨before, after, henqueued, htaken, hstops⟩ := hx.enqueued_of_gone hgone
    have htokens : tokensOf x.taken = tokensOf before := by
      rw [htaken, tokensOf_concat]
      exact List.append_nil _
    have htickets : ticketsOf x.taken = ticketsOf before := by
      rw [htaken, ticketsOf_concat]
      exact List.append_nil _
    refine ⟨before, after, henqueued, htaken, hstops,
      ⟨hgone, hx.outlet.closed hclosed, hidle, houtbox⟩, ?_, ?_, ?_, ?_⟩
    · rw [← htickets]
      exact hx.queues.returned
    · rw [← htokens]
      exact hx.delivered_sublist
    · intro token r hjob hgoing hlatest
      exact hx.count_delivered hidle houtbox hgoing (htokens ▸ mem_tokensOf.2 ⟨r, hjob⟩) hlatest
    · intro y hreach
      exact (hx.stays_closed hclosed hreach).2

open Model

/-- Two project passes are asked for, and the second one supersedes the first before that is in the
queue. After the shutdown the callback of the second one was run, and no other. -/
theorem supersedes_after_shutdown : ∃ x : Exchange ModelState,
    (start (.ofSettings modelEngine (fun _ => []) (fun _ => none) { root := ⟨"/s"⟩ }) {} 4).Reaches x ∧
      x.phase = .closed ∧ x.issued = [.issued .project 1, .issued .project 2] ∧
      x.delivered.map (·.token) = [.issued .project 2] ∧ x.Supersedes := by
  have hstop {jobs : List Job} (h : jobs.map Job.isStop = [true]) : jobs = [.stop] := by
    obtain ⟨job, rfl, hjob⟩ := List.map_eq_singleton_iff.1 h
    cases job with
    | stop => rfl
    | request token r => cases hjob
    | call ticket r => cases hjob
    | invalidate ticket => cases hjob
  have hissued := (Relation.ReflTransGen.single (Step.issue (start (.ofSettings modelEngine
    (fun _ => []) (fun _ => none) { root := ⟨"/s"⟩ }) {} 4) (.project []))).tail
      (Step.issue _ (.project []))
  have henqueued := (hissued.tail (Step.enqueue (List.nil_append _).symm (by decide) rfl)).tail
    (Step.enqueue (List.nil_append _).symm (by decide) rfl)
  -- the first request is passed over
  have hworked := ((henqueued.tail
    (Step.begin rfl rfl rfl (.inr (by decide +kernel)))).tail
    (Step.begin rfl rfl (by decide +kernel) (.inr (by decide +kernel)))).tail (Step.finish _)
  have hdelivered := hworked.tail (Step.deliver (by decide +kernel))
  have hstopped := ((hdelivered.tail (Step.shutdown rfl)).tail
    (Step.stopWorker rfl (by decide +kernel)
      ((Service.submit_eq_ok_iff _ _ _).2 ⟨by decide +kernel, rfl⟩))).tail
    (Step.begin (hstop (by decide +kernel)) (Option.isNone_iff_eq_none.1 (by decide +kernel))
      (by decide +kernel) (.inl rfl))
  have hclosed := ((hstopped.tail (Step.closeOutbox rfl (by decide +kernel))).tail
    (Step.deliver (by decide +kernel))).tail (Step.close rfl (by decide +kernel))
  exact ⟨_, hclosed, rfl, rfl, by decide +kernel, supersedes_of_reaches _ _ _ hclosed⟩

end SketchSense.Exchange
