import SketchSense.Model.Engine
import SketchSense.Proofs.Analysis.Announcing
import SketchSense.Proofs.Service.Protocol

/-!
# Events that are told again

The events of a service are the passes in the log of its analysis that say that something changed.
Every job that the worker takes adds its part to that log, so what is known of the flags in logs is
known of the events.

* `Happening.event?` and `Job.Leaves`, what is told about a pass and what a job leaves in the log;
* `Exchange.Recorded`, that the events are those of the log, and `Exchange.Recorded.reaches`;
* `announces_steadily`, what flags and events mean for those who follow one subject, and
  `announces_project_again`, a list of the project that is announced twice in a row.
-/

namespace SketchSense

variable {σ : Type} {root : FilePath}

/-- What everybody is told about a pass. -/
def Happening.event? : Happening → Option ServiceEvent
  | .pass (.file key) p =>
    if p.changed then some (.diagnosticsChanged key p.diagnostics) else none
  | .pass .project p => if p.changed then some (.projectDiagnostics p.diagnostics) else none
  | .forgotten => none

/-- What a job that was taken leaves in the log of the analysis. -/
inductive Job.Leaves (root : FilePath) : Job → List Happening → Prop
  /-- The request was not live. -/
  | passedOver (token : Token RequestKind) (r : Request) : Leaves root (.request token r) []
  | answered (token : Token RequestKind) {r : Request} {a : Answer} (hkind : a.kind = r.kind) :
      Leaves root (.request token r) (a.passes root r)
  | called (ticket : Nat) {r : Request} {a : Answer} (hkind : a.kind = r.kind) :
      Leaves root (.call ticket r) (a.passes root r)
  | invalidated (ticket : Nat) : Leaves root (.invalidate ticket) [.forgotten]
  | stopped : Leaves root .stop []

/-! ## Answers -/

namespace CoreM

variable {c c' : AnalysisCore σ} {s s' : σ} {live : Bool} {r : Request} {a : Answer}

theorem kind_eq_of_answer (h : YieldsWith (answer live r) c s a c' s') : a.kind = r.kind := by
  cases r <;> obtain ⟨b, _, _, _, hpure⟩ := yieldsWith_bind.1 h <;>
    obtain ⟨rfl, -, -⟩ := yieldsWith_pure.1 hpure <;> rfl

/-- What is told about an answer is what is told about its passes. -/
theorem events_of_answer (h : YieldsWith (answer live r) c s a c' s') :
    (a.passes c.root r).filterMap Happening.event? = a.event?.toList := by
  have hone (x : Happening) : [x].filterMap Happening.event? = x.event?.toList := by
    rw [List.filterMap_cons]
    cases x.event? <;> rfl
  cases r with
  | diagnostics file =>
    obtain ⟨p, c₁, s₁, hrun, hpure⟩ := yieldsWith_bind.1 h
    obtain ⟨rfl, rfl, -⟩ := yieldsWith_pure.1 hpure
    have hchannel := (shows_of_diagnostics hrun).channel_eq
    refine (hone (.pass _ p)).trans ?_
    rw [← hchannel]
    rfl
  | project files =>
    obtain ⟨p, c₁, s₁, -, hpure⟩ := yieldsWith_bind.1 h
    obtain ⟨rfl, rfl, -⟩ := yieldsWith_pure.1 hpure
    exact hone (.pass .project p)
  | _ =>
    obtain ⟨b, c₁, s₁, -, hpure⟩ := yieldsWith_bind.1 h
    obtain ⟨rfl, -, -⟩ := yieldsWith_pure.1 hpure
    rfl

end CoreM

/-! ## Jobs -/

namespace Service

variable {s s' : Service σ} {live : Bool} {r : Request}

/-- A request that is answered changes the analysis, and its event is told. -/
theorem perform_eq_some {a : Answer} (h : s.perform live r = (some a, s')) :
    YieldsWith (CoreM.answer live r) s.core s.engineState a s'.core s'.engineState ∧
      s'.events = s.events ++ a.event?.toList := by
  unfold perform run at h
  unfold YieldsWith Yields EngineM.runFrom
  split at h
  · next b s₁ hrun =>
    split at hrun
    · next core engineState hanswer =>
      cases hrun
      cases h
      exact ⟨hanswer, rfl⟩
    · cases hrun
  · cases h

/-- The worker does not survive a fault. -/
theorem perform_eq_none (h : s.perform live r = (none, s')) : s'.working = false := by
  rcases s.perform_cases live r with ⟨a, core, engineState, events, hrun⟩ | ⟨engineState, hrun⟩
  · rw [hrun] at h
    cases h
  · rw [hrun] at h
    cases h
    rfl

/-- From `s` to `s'` the analysis has recorded `entry`, and its events were told. -/
structure Logs (s : Service σ) (entry : List Happening) (s' : Service σ) : Prop where
  records : ∀ ⦃c log⦄, c.root = s.core.root → AnalysisCore.Records c log s.core →
    AnalysisCore.Records c (log ++ entry) s'.core
  events : s'.events = s.events ++ entry.filterMap Happening.event?

theorem logs_nil (hcore : s'.core = s.core) (hevents : s'.events = s.events) : Logs s [] s' := by
  refine ⟨fun c log _ h => ?_, by rw [hevents]; exact (List.append_nil _).symm⟩
  rw [hcore, List.append_nil]
  exact h

theorem logs_of_perform {a : Answer} (h : s.perform live r = (some a, s')) :
    a.kind = r.kind ∧ Logs s (a.passes s.core.root r) s' := by
  obtain ⟨hrun, hevents⟩ := perform_eq_some h
  refine ⟨CoreM.kind_eq_of_answer hrun, ⟨fun c log hroot hlog => ?_, ?_⟩⟩
  · rw [← hroot]
    exact hlog.answer hrun
  · rw [hevents, CoreM.events_of_answer hrun]

theorem workOn_logs {token : Token RequestKind} (h : (s.workOn live token r).working = true) :
    ∃ entry, (Job.request token r).Leaves s.core.root entry ∧
      Logs s entry (s.workOn live token r) := by
  unfold workOn at h ⊢
  cases hperform : s.perform live r with
  | mk answer s₁ =>
    rw [hperform] at h
    cases answer with
    | some a =>
      obtain ⟨hkind, hlogs⟩ := logs_of_perform hperform
      exact ⟨_, .answered token hkind, hlogs.records, hlogs.events⟩
    | none =>
      rw [perform_eq_none hperform] at h
      cases h

theorem work_logs {job : Job} (h : job.isStop = true ∨ (s.work job).working = true) :
    ∃ entry, job.Leaves s.core.root entry ∧ Logs s entry (s.work job) := by
  cases job with
  | request token r =>
    have h := h.resolve_left Bool.false_ne_true
    have hwork : s.work (.request token r) =
        if s.board.isLive token then s.workOn true token r else s := rfl
    rw [hwork] at h ⊢
    by_cases hlive : s.board.isLive token = true
    · rw [if_pos hlive] at h ⊢
      exact workOn_logs h
    · rw [if_neg hlive]
      exact ⟨[], .passedOver token r, logs_nil rfl rfl⟩
  | call ticket r =>
    have h := h.resolve_left Bool.false_ne_true
    unfold work at h ⊢
    dsimp only at h ⊢
    cases hperform : s.perform true r with
    | mk answer s₁ =>
      rw [hperform] at h
      cases answer with
      | some a =>
        obtain ⟨hkind, hlogs⟩ := logs_of_perform hperform
        exact ⟨_, .called ticket hkind, hlogs.records, hlogs.events⟩
      | none =>
        have hgone := perform_eq_none hperform
        dsimp only at h
        rw [hgone] at h
        cases h
  | invalidate ticket =>
    refine ⟨[.forgotten], .invalidated ticket, fun c log _ hlog => hlog.invalidateAll, ?_⟩
    exact (List.append_nil _).symm
  | stop => exact ⟨[], .stopped, logs_nil rfl rfl⟩

end Service

/-! ## Everybody together -/

namespace Exchange

variable {core : AnalysisCore σ} {x y : Exchange σ}

/-- Every job that was taken has left its part in the log of the analysis, and the events are those of
the log. -/
def Recorded (core : AnalysisCore σ) (x : Exchange σ) : Prop :=
  ∃ entries : List (List Happening), x.taken.Forall₂ (Job.Leaves core.root) entries ∧
    core.Records entries.flatten x.core ∧ x.events = entries.flatten.filterMap Happening.event?

theorem recorded_start (core : AnalysisCore σ) (engineState : σ) (capacity : Nat) :
    (start core engineState capacity).Recorded core :=
  ⟨[], .nil, .nil, rfl⟩

/-- What the worker has no part in adds nothing. -/
theorem Recorded.congr (hx : x.Recorded core) (htaken : y.taken = x.taken) (hcore : y.core = x.core)
    (hevents : y.events = x.events) : y.Recorded core := by
  unfold Recorded
  rw [htaken, hcore, hevents]
  exact hx

/-- A job that is taken adds its part. -/
theorem Recorded.concat (hx : x.Recorded core) {job : Job} {entry : List Happening}
    (htaken : y.taken = x.taken ++ [job]) (hleaves : job.Leaves x.core.root entry)
    (hlogs : Service.Logs x.toService entry y.toService) : y.Recorded core := by
  obtain ⟨entries, hentries, hrecords, hevents⟩ := hx
  have hroot : x.core.root = core.root := hrecords.tells.1
  rw [hroot] at hleaves
  refine ⟨entries ++ [entry], ?_, ?_, ?_⟩
  · rw [htaken]
    exact List.rel_append hentries (.cons hleaves .nil)
  · rw [List.flatten_append, List.flatten_singleton]
    exact hlogs.records hroot.symm hrecords
  · rw [List.flatten_append, List.flatten_singleton, List.filterMap_append, ← hevents]
    exact hlogs.events

theorem Recorded.step (hx : x.Recorded core) (h : Step x y) : y.Recorded core := by
  cases h with
  | begin hinbox hidle hworks hsound =>
    next job jobs =>
    have hbegin : x.toService.begin = Service.work { x.toService with inbox := jobs } job := by
      unfold Service.begin
      rw [hinbox]
    rw [hbegin] at hsound ⊢
    obtain ⟨entry, hleaves, hlogs⟩ := Service.work_logs hsound
    exact hx.concat rfl hleaves ⟨hlogs.records, hlogs.events⟩
  | beginLate hinbox hidle hworks hlive hsound =>
    obtain ⟨entry, hleaves, hlogs⟩ := Service.workOn_logs hsound
    exact hx.concat rfl hleaves ⟨hlogs.records, hlogs.events⟩
  | enqueue hwaits hroom h =>
    obtain ⟨-, rfl⟩ := (Service.submit_eq_ok_iff _ _ _).1 h
    exact hx.congr rfl rfl rfl
  | call hjob hroom h =>
    obtain ⟨-, rfl⟩ := (Service.submit_eq_ok_iff _ _ _).1 h
    exact hx.congr rfl rfl rfl
  | stopWorker hphase hroom h =>
    obtain ⟨-, rfl⟩ := (Service.submit_eq_ok_iff _ _ _).1 h
    exact hx.congr rfl rfl rfl
  | finish =>
    have hframe : x.toService.finish.core = x.core ∧ x.toService.finish.events = x.events := by
      unfold Service.finish
      split <;> exact ⟨rfl, rfl⟩
    exact hx.congr rfl hframe.1 hframe.2
  | deliver =>
    have hframe : x.toService.deliver.core = x.core ∧ x.toService.deliver.events = x.events := by
      unfold Service.deliver
      split <;> exact ⟨rfl, rfl⟩
    exact hx.congr rfl hframe.1 hframe.2
  | _ => exact hx.congr rfl rfl rfl

theorem Recorded.reaches (hx : x.Recorded core) (h : x.Reaches y) : y.Recorded core := by
  induction h with
  | refl => exact hx
  | tail _ hstep ih => exact ih.step hstep

end Exchange

/-! ## A single error -/

/-- One error in the first line of a file, and nothing else. -/
def isErrorIn (path : String) : List Diagnostic → Bool
  | [⟨⟨⟨text⟩, line, column⟩, severity, message, []⟩] =>
    text = path && line = 1 && column = 1 && severity = .error && message = "x"
  | _ => false

theorem eq_of_isErrorIn {path : String} {ds : List Diagnostic} (h : isErrorIn path ds = true) :
    ds = [⟨⟨⟨path⟩, 1, 1⟩, .error, "x", []⟩] := by
  unfold isErrorIn at h
  split at h
  · simp only [Bool.and_eq_true, decide_eq_true_eq] at h
    obtain ⟨⟨⟨⟨rfl, rfl⟩, rfl⟩, rfl⟩, rfl⟩ := h
    rfl
  · cases h

/-! ## What callers rely on -/

/-- Whatever happens to an analysis, and whatever the clients, the worker and the callbacks of a
service do: within the passes about one file, and within those about the project, diagnostics are not
announced again while they stay the same, except after a pass about the other subject on the
channel. -/
theorem announces_steadily :
    (∀ {c c' : AnalysisCore σ} {log : List Happening}, c.Records log c' → Steady c.root log) ∧
      ∀ {core : AnalysisCore σ} {engineState : σ} {capacity : Nat} {x : Exchange σ},
        (Exchange.start core engineState capacity).Reaches x →
          ∃ entries : List (List Happening), x.taken.Forall₂ (Job.Leaves core.root) entries ∧
            x.events = entries.flatten.filterMap Happening.event? ∧
            Steady core.root entries.flatten := by
  constructor
  · intro c c' log h
    exact h.tells.2.steady
  · intro core engineState capacity x h
    obtain ⟨entries, hentries, hrecords, hevents⟩ :=
      (Exchange.recorded_start core engineState capacity).reaches h
    exact ⟨entries, hentries, hevents, hrecords.tells.2.steady⟩

open Model AnalysisCore

/-- The sketch has one open source with an error. Its second pass is unchanged, and a service that is
asked twice tells the error once. -/
theorem announces_error_once :
    ∃ (c : AnalysisCore ModelState) (p q : DiagnosticsPass) (x : Exchange ModelState),
      (ofSettings modelEngine (fun _ => []) (fun _ => none) { root := ⟨"/s"⟩ }).Records
        [.pass .project p, .pass .project q] c ∧
      p.diagnostics = q.diagnostics ∧ q.changed = false ∧
      (Exchange.start (.ofSettings modelEngine (fun _ => []) (fun _ => none) { root := ⟨"/s"⟩ }) {}
        4).Reaches x ∧
      x.events.length = 1 ∧ ∃ entries : List (List Happening),
        x.taken.Forall₂ (Job.Leaves ⟨"/s"⟩) entries ∧ entries.length = 2 ∧
        x.events = entries.flatten.filterMap Happening.event? ∧ Steady ⟨"/s"⟩ entries.flatten := by
  obtain ⟨hcore, hservice⟩ := announces_steadily (σ := ModelState)
  generalize hstart :
    ofSettings modelEngine (fun _ => []) (fun _ => none) { root := ⟨"/s"⟩ } = start at *
  have hroot : start.root = ⟨"/s"⟩ := by rw [← hstart]; rfl
  have heval : (EngineM.runFrom (StateT.run (do
      let p ← CoreM.projectDiagnostics [⟨⟨"/s/a.cpp"⟩, "#error x\n"⟩]
      let q ← CoreM.projectDiagnostics [⟨⟨"/s/a.cpp"⟩, "#error x\n"⟩]
      return (p, q)) start) {}).1.toOption.map (fun found =>
        isErrorIn "/s/a.cpp" found.1.1.diagnostics && isErrorIn "/s/a.cpp" found.1.2.diagnostics) =
      some true := by
    rw [← hstart]
    decide +kernel
  obtain ⟨⟨p, q⟩, c, s, hrun, hseen⟩ := exists_yieldsWith heval
  simp only [yieldsWith_bind, yieldsWith_pure, Prod.mk.injEq] at hrun
  obtain ⟨_, c₁, s₁, hp, _, c₂, s₂, hq, ⟨rfl, rfl⟩, rfl, rfl⟩ := hrun
  have hrecords := (Records.nil.project hp).project hq
  rw [Bool.and_eq_true] at hseen
  have hsame : p.diagnostics = q.diagnostics :=
    (eq_of_isErrorIn hseen.1).trans (eq_of_isErrorIn hseen.2).symm
  have hlog : [] ++ [Happening.pass .project p] ++ [.pass .project q] =
      [] ++ .pass .project p :: ([] ++ .pass .project q :: []) := rfl
  have hunchanged : q.changed = false :=
    (hcore hrecords).unchanged hlog rfl List.not_mem_nil (fun _ _ h => absurd h List.not_mem_nil)
      hsame
  subst hstart
  -- the service is asked twice
  have hcalled := (Relation.ReflTransGen.single (Exchange.Step.call (x := Exchange.start (ofSettings
    modelEngine (fun _ => []) (fun _ => none) { root := ⟨"/s"⟩ }) ({} : ModelState) 4)
      (.inl ⟨.project [⟨⟨"/s/a.cpp"⟩, "#error x\n"⟩], rfl⟩) (by decide) rfl)).tail
      (Exchange.Step.call (.inl ⟨.project [⟨⟨"/s/a.cpp"⟩, "#error x\n"⟩], rfl⟩) (by decide) rfl)
  have hfirst := hcalled.tail (Exchange.Step.begin rfl rfl rfl (.inr (by decide +kernel)))
  have hworked := hfirst.tail (Exchange.Step.begin
    ((Service.begin_does rfl rfl rfl (.inr (by decide +kernel)) :
      Service.Does (.call 0 _) _ _).inbox.trans (rfl : _ = [Job.call 1 _]))
    (Option.isNone_iff_eq_none.1 (by decide +kernel)) (by decide +kernel) (.inr (by decide +kernel)))
  obtain ⟨entries, hentries, hevents, hsteady⟩ := hservice hworked
  exact ⟨c, p, q, _, hrecords, hsame, hunchanged, hworked, by decide +kernel, entries, hentries,
    hentries.length_eq.symm, hevents, hsteady⟩

/-- An open source of the sketch has an error. Between two passes about the project somebody asks
about the root of the sketch as if it was a file, and the project is announced again with the same
list. -/
theorem announces_project_again :
    ∃ (c : AnalysisCore ModelState) (p q r : DiagnosticsPass),
      (ofSettings modelEngine (fun _ => []) (fun _ => none) { root := ⟨"/s"⟩ }).Records
        [.pass .project p, .pass (.file ⟨"/s"⟩) q, .pass .project r] c ∧
      p.diagnostics = r.diagnostics ∧ p.changed = true ∧ r.changed = true := by
  generalize hstart :
    ofSettings modelEngine (fun _ => []) (fun _ => none) { root := ⟨"/s"⟩ } = start
  have heval : (EngineM.runFrom (StateT.run (do
      let p ← CoreM.projectDiagnostics [⟨⟨"/s/a.cpp"⟩, "#error x\n"⟩]
      let q ← CoreM.diagnostics ⟨⟨"/s"⟩, "int a;\n"⟩
      let r ← CoreM.projectDiagnostics [⟨⟨"/s/a.cpp"⟩, "#error x\n"⟩]
      return (p, q, r)) start) {}).1.toOption.map (fun found =>
        isErrorIn "/s/a.cpp" found.1.1.diagnostics && isErrorIn "/s/a.cpp" found.1.2.2.diagnostics &&
          found.1.1.changed && found.1.2.2.changed) = some true := by
    rw [← hstart]
    decide +kernel
  obtain ⟨⟨p, q, r⟩, c, s, hrun, hseen⟩ := exists_yieldsWith heval
  simp only [yieldsWith_bind, yieldsWith_pure, Prod.mk.injEq] at hrun
  obtain ⟨_, c₁, s₁, hp, _, c₂, s₂, hq, _, c₃, s₃, hr, ⟨rfl, rfl, rfl⟩, rfl, rfl⟩ := hrun
  have hrecords := ((Records.nil.project hp).diagnostics hq).project hr
  subst hstart
  simp only [Bool.and_eq_true] at hseen
  obtain ⟨⟨⟨hfirst, hlast⟩, hp⟩, hr⟩ := hseen
  exact ⟨c, p, q, r, hrecords, (eq_of_isErrorIn hfirst).trans (eq_of_isErrorIn hlast).symm, hp, hr⟩

end SketchSense
