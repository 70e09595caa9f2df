import SketchSense.Proofs.Analysis.Questions
import SketchSense.Proofs.Analysis.Session
import SketchSense.Proofs.Diagnostic.Change

/-!
# Diagnostics that are announced again

A pass says whether its diagnostics differ from those last shown on its channel. For somebody who
follows only the passes about one file, or only those about the project, that is a protection against
repetitions as long as nothing else is shown on the channel: the channel of the project is the root of
the sketch, and that may also be the path of a file that is asked about.

* `Subject`, what a pass is about, and `Subject.Disturbs`, when two of them share a channel;
* `AnalysisCore.Records`, the log of what happens to an analysis;
* `Tells`, that the flags in a log are those of a notifier, and `AnalysisCore.Records.tells`;
* `Steady`, what the flags in a log mean, and `Tells.steady`.
-/

namespace SketchSense

variable {σ α : Type} {root : FilePath}

/-! ## What passes are about -/

/-- What a pass is about. -/
inductive Subject where
  /-- A file, by its key. -/
  | file (key : FilePath)
  | project
  deriving BEq

namespace Subject

/-- The channel on which passes about a subject are shown. -/
def channel (root : FilePath) : Subject → FilePath
  | .file key => key
  | .project => root

/-- Of two subjects one is the project and the other the file at its root. -/
def Disturbs (root : FilePath) : Subject → Subject → Prop
  | .file key, .project => (key == root) = true
  | .project, .file key => (key == root) = true
  | .file _, .file _ => False
  | .project, .project => False

/-- Subjects share a channel only if they are the same or disturb each other. -/
theorem channel_beq_iff (a b : Subject) :
    (a.channel root == b.channel root) = true ↔ (a == b) = true ∨ a.Disturbs root b := by
  cases a with
  | file key =>
    cases b with
    | file key' => exact (or_iff_left id).symm
    | project => exact (or_iff_right Bool.false_ne_true).symm
  | project =>
    cases b with
    | file key =>
      have hcomm : (root == key) = (key == root) := BEq.comm
      refine Iff.trans ?_ (or_iff_right Bool.false_ne_true).symm
      exact Bool.eq_iff_iff.1 hcomm
    | project => exact iff_of_true BEq.rfl (.inl rfl)

end Subject

/-! ## Logs -/

/-- What happens to an analysis, as far as passes are concerned. -/
inductive Happening where
  | pass (a : Subject) (p : DiagnosticsPass)
  /-- Everything was forgotten. -/
  | forgotten

/-- The passes in the answer to a request. -/
def Answer.passes (root : FilePath) : Request → Answer → List Happening
  | .diagnostics file, .diagnostics p => [.pass (.file (file.path.normalize root)) p]
  | .project _, .project p => [.pass .project p]
  | _, _ => []

/-- The diagnostics that are shown on a channel. -/
def Happening.shownOn (root channel : FilePath) : Happening → Option (List Diagnostic)
  | .pass a p => if a.channel root == channel then some p.diagnostics else none
  | .forgotten => none

/-- What is shown on a channel at the end of a log, if `ds` was shown before. -/
def lastShown (root channel : FilePath) (ds : List Diagnostic) (log : List Happening) :
    List Diagnostic :=
  (log.filterMap (·.shownOn root channel)).getLastD ds

theorem lastShown_cons {channel : FilePath} {ds : List Diagnostic} (x : Happening)
    (log : List Happening) :
    lastShown root channel ds (x :: log) =
      lastShown root channel ((x.shownOn root channel).getD ds) log := by
  unfold lastShown
  rw [List.filterMap_cons]
  cases x.shownOn root channel with
  | none => rfl
  | some shown => exact List.getLastD_cons ..

/-- The log of what has happened to an analysis. -/
inductive AnalysisCore.Records (c : AnalysisCore σ) : List Happening → AnalysisCore σ → Prop
  | nil : Records c [] c
  | answer {log : List Happening} {c' c'' : AnalysisCore σ} {live : Bool} {r : Request}
      {e : Enumeration ProjectUnit} {s s' : σ} {a : Answer} (h : Records c log c')
      (hrun : YieldsWith (CoreM.answer live r e) c' s a c'' s') :
      Records c (log ++ a.passes c.root r) c''
  | invalidateAll {log : List Happening} {c' : AnalysisCore σ} (h : Records c log c') :
      Records c (log ++ [.forgotten]) c'.invalidateAll
  /-- Other arguments are provided from now on. -/
  | provide {log : List Happening} {c' : AnalysisCore σ} (h : Records c log c')
      (provider : FilePath → List String) :
      Records c log { c' with builder := { c'.builder with provider } }
  /-- The files on disk are others from now on. -/
  | rewrite {log : List Happening} {c' : AnalysisCore σ} (h : Records c log c')
      (disk : FilePath → Option String) : Records c log { c' with disk }

namespace AnalysisCore.Records

variable {c c' c'' : AnalysisCore σ} {log : List Happening} {s s' : σ} {p : DiagnosticsPass}

theorem diagnostics (h : c.Records log c') {file : FileBuffer}
    (hrun : YieldsWith (CoreM.diagnostics file) c' s p c'' s') :
    c.Records (log ++ [.pass (.file (file.path.normalize c.root)) p]) c'' := by
  have hanswer : YieldsWith (CoreM.answer true (.diagnostics file)) c' s (.diagnostics p) c'' s' :=
    yieldsWith_bind.2 ⟨p, c'', s', hrun, yieldsWith_pure.2 ⟨rfl, rfl, rfl⟩⟩
  exact h.answer hanswer

theorem project (h : c.Records log c') {files : List FileBuffer} {e : Enumeration ProjectUnit}
    (hrun : YieldsWith (CoreM.projectDiagnostics files e) c' s p c'' s') :
    c.Records (log ++ [.pass .project p]) c'' := by
  have hanswer : YieldsWith (CoreM.answer true (.project files) e) c' s (.project p) c'' s' :=
    yieldsWith_bind.2 ⟨p, c'', s', hrun, yieldsWith_pure.2 ⟨rfl, rfl, rfl⟩⟩
  exact h.answer hanswer

end AnalysisCore.Records

/-! ## What a notifier tells -/

/-- The flags in a log are those that a notifier gives, which remembers `n` at first and `n'` in the
end. -/
inductive Tells (root : FilePath) : ChangeNotifier → List Happening → ChangeNotifier → Prop
  | nil (n : ChangeNotifier) : Tells root n [] n
  | pass {n n' : ChangeNotifier} {a : Subject} {p : DiagnosticsPass} {log : List Happening}
      (hchanged : p.changed = (n.observe (a.channel root) p.diagnostics).1)
      (h : Tells root (n.observe (a.channel root) p.diagnostics).2 log n') :
      Tells root n (.pass a p :: log) n'
  | forgotten {n n' : ChangeNotifier} {log : List Happening} (h : Tells root {} log n') :
      Tells root n (.forgotten :: log) n'

namespace Tells

variable {n n' m : ChangeNotifier} {log later : List Happening} {channel : FilePath}

theorem append (h : Tells root n log m) (hlater : Tells root m later n') :
    Tells root n (log ++ later) n' := by
  induction h with
  | nil n => exact hlater
  | pass hchanged _ ih => exact .pass hchanged (ih hlater)
  | forgotten _ ih => exact .forgotten (ih hlater)

theorem exists_of_append (h : Tells root n (log ++ later) n') :
    ∃ m, Tells root n log m ∧ Tells root m later n' := by
  induction log generalizing n with
  | nil => exact ⟨n, .nil n, h⟩
  | cons x log ih =>
    cases h with
    | pass hchanged h =>
      obtain ⟨m, hlog, hlater⟩ := ih h
      exact ⟨m, .pass hchanged hlog, hlater⟩
    | forgotten h =>
      obtain ⟨m, hlog, hlater⟩ := ih h
      exact ⟨m, .forgotten hlog, hlater⟩

/-- Nothing is forgotten, so what was shown last on a channel is remembered. -/
theorem get?_lastShown (h : Tells root n log n') (hkept : Happening.forgotten ∉ log)
    {ds : List Diagnostic} (hds : n.last.get? channel = some (Diagnostic.listHash ds)) :
    n'.last.get? channel = some (Diagnostic.listHash (lastShown root channel ds log)) := by
  induction h generalizing ds with
  | nil n => exact hds
  | @pass n n' a p log _ _ ih =>
    rw [List.mem_cons, not_or] at hkept
    rw [lastShown_cons]
    by_cases hchannel : (a.channel root == channel) = true
    · have hshown : (Happening.pass a p).shownOn root channel = some p.diagnostics := if_pos hchannel
      rw [hshown]
      exact ih hkept.2 (ChangeNotifier.get?_observe_of_beq hchannel)
    · have hshown : (Happening.pass a p).shownOn root channel = none := if_neg hchannel
      rw [hshown]
      rw [Bool.not_eq_true] at hchannel
      exact ih hkept.2 ((ChangeNotifier.get?_observe_of_ne hchannel).trans hds)
  | forgotten => exact absurd List.mem_cons_self hkept

/-- What is remembered for a channel stays the same while nothing new is shown on it. -/
theorem get?_eq (h : Tells root n log n') (hkept : Happening.forgotten ∉ log)
    (hquiet : ∀ b r, Happening.pass b r ∈ log → r.changed = true →
      (b.channel root == channel) = false) :
    n'.last.get? channel = n.last.get? channel := by
  induction h with
  | nil n => rfl
  | @pass n n' a p log hchanged _ ih =>
    rw [List.mem_cons, not_or] at hkept
    rw [ih hkept.2 fun b r hmem => hquiet b r (List.mem_cons_of_mem _ hmem)]
    by_cases hchannel : (a.channel root == channel) = true
    · -- the pass is unchanged, so its hash was there before
      have hsame : p.changed = false := by
        rw [← Bool.not_eq_true]
        intro hnew
        rw [hquiet a p List.mem_cons_self hnew] at hchannel
        cases hchannel
      rw [hsame] at hchanged
      have hbefore := ChangeNotifier.observe_eq_false_iff.1 hchanged.symm
      rw [ChangeNotifier.get?_observe_of_beq hchannel, ← hbefore]
      exact Table.get?_eq_of_beq _ hchannel
    · rw [Bool.not_eq_true] at hchannel
      exact ChangeNotifier.get?_observe_of_ne hchannel
  | forgotten => exact absurd List.mem_cons_self hkept

end Tells

/-! ## What the flags mean -/

/-- What somebody can rely on who follows only the passes about one subject. -/
structure Steady (root : FilePath) (log : List Happening) : Prop where
  /-- A pass is unchanged exactly if what was last shown on its channel has the same hash. -/
  unchanged_iff : ∀ {before between after : List Happening} {a b : Subject} {p q : DiagnosticsPass},
    log = before ++ .pass a p :: (between ++ .pass b q :: after) → (a == b) = true →
    .forgotten ∉ between →
    (q.changed = false ↔
      Diagnostic.listHash (lastShown root (a.channel root) p.diagnostics between) =
        Diagnostic.listHash q.diagnostics)
  /-- A pass that shows the same as the last one about its subject is unchanged if no pass between
  them is about a subject with the same channel. -/
  unchanged : ∀ {before between after : List Happening} {a b : Subject} {p q : DiagnosticsPass},
    log = before ++ .pass a p :: (between ++ .pass b q :: after) → (a == b) = true →
    .forgotten ∉ between →
    (∀ x r, .pass x r ∈ between → (x == a) = false ∧ ¬ x.Disturbs root a) →
    p.diagnostics = q.diagnostics → q.changed = false
  /-- Of two passes about a subject that were both announced, with no such pass between them, the
  second one shows something else, if no pass between them about a subject with the same channel was
  announced. -/
  announced : ∀ {before between after : List Happening} {a b : Subject} {p q : DiagnosticsPass},
    log = before ++ .pass a p :: (between ++ .pass b q :: after) → (a == b) = true →
    .forgotten ∉ between →
    (∀ x r, .pass x r ∈ between → r.changed = true → (x == a) = false ∧ ¬ x.Disturbs root a) →
    p.changed = true → q.changed = true →
    Diagnostic.listHash p.diagnostics ≠ Diagnostic.listHash q.diagnostics

theorem Subject.channel_ne {a x : Subject} (h : (x == a) = false ∧ ¬ x.Disturbs root a) :
    (x.channel root == a.channel root) = false := by
  rw [← Bool.not_eq_true, channel_beq_iff, not_or, Bool.not_eq_true]
  exact h

/-- Nothing is shown on a channel by passes about subjects with other channels. -/
theorem lastShown_of_ne {channel : FilePath} {ds : List Diagnostic} {log : List Happening}
    (h : ∀ x r, .pass x r ∈ log → (x.channel root == channel) = false) :
    lastShown root channel ds log = ds := by
  have hnothing : log.filterMap (·.shownOn root channel) = [] := by
    refine List.filterMap_eq_nil_iff.2 fun y hy => ?_
    cases y with
    | pass x r => exact if_neg (by rw [h x r hy]; exact Bool.false_ne_true)
    | forgotten => rfl
  unfold lastShown
  rw [hnothing]
  rfl

namespace Tells

variable {n n' : ChangeNotifier} {before between after : List Happening} {a b : Subject}
  {p q : DiagnosticsPass}

/-- Between two passes the notifier remembers the first one at the beginning, and what it remembers in
the end decides about the second one. -/
theorem exists_between
    (h : Tells root n (before ++ .pass a p :: (between ++ .pass b q :: after)) n')
    (hsame : (a == b) = true) :
    ∃ m m', Tells root m between m' ∧
      m.last.get? (a.channel root) = some (Diagnostic.listHash p.diagnostics) ∧
      (q.changed = false ↔
        m'.last.get? (a.channel root) = some (Diagnostic.listHash q.diagnostics)) := by
  obtain ⟨m₀, -, hfirst⟩ := h.exists_of_append
  cases hfirst with
  | pass _ hrest =>
    obtain ⟨m', hbetween, hsecond⟩ := hrest.exists_of_append
    refine ⟨_, m', hbetween, ChangeNotifier.get?_observe_of_beq BEq.rfl, ?_⟩
    cases hsecond with
    | pass hchanged _ =>
      have hchannel : (a.channel root == b.channel root) = true :=
        (Subject.channel_beq_iff a b).2 (.inl hsame)
      rw [hchanged, ChangeNotifier.observe_eq_false_iff, Table.get?_eq_of_beq _ hchannel]

theorem steady {log : List Happening} (h : Tells root n log n') : Steady root log := by
  constructor
  case unchanged_iff =>
    rintro before between after a b p q rfl hsame hkept
    obtain ⟨m, m', hbetween, hfirst, hsecond⟩ := h.exists_between hsame
    rw [hsecond, hbetween.get?_lastShown hkept hfirst, Option.some_inj]
  case unchanged =>
    rintro before between after a b p q rfl hsame hkept hquiet hlists
    obtain ⟨m, m', hbetween, hfirst, hsecond⟩ := h.exists_between hsame
    have hshown : lastShown root (a.channel root) p.diagnostics between = p.diagnostics :=
      lastShown_of_ne fun x r hx => Subject.channel_ne (hquiet x r hx)
    rw [hsecond, hbetween.get?_lastShown hkept hfirst, hshown, hlists]
  case announced =>
    rintro before between after a b p q rfl hsame hkept hquiet - hq hhash
    obtain ⟨m, m', hbetween, hfirst, hsecond⟩ := h.exists_between hsame
    have hlast := hbetween.get?_eq hkept fun x r hx hr => Subject.channel_ne (hquiet x r hx hr)
    have hold : q.changed = false := hsecond.2 (by rw [hlast, hfirst, hhash])
    rw [hq] at hold
    cases hold

end Tells

/-! ## What requests do to the notifier -/

namespace CoreM

variable {c c' : AnalysisCore σ} {s s' : σ}

/-- The pass `p` tells on a channel how its diagnostics compare with those in the notifier of `c`, and
`c'` remembers them. -/
structure Shows (channel : FilePath) (c : AnalysisCore σ) (p : DiagnosticsPass)
    (c' : AnalysisCore σ) : Prop where
  channel_eq : p.channel = channel
  changed : p.changed = (c.notifier.observe channel p.diagnostics).1
  notifier : c'.notifier = (c.notifier.observe channel p.diagnostics).2

/-- What comes before the announcement has no effect on the notifier. -/
theorem shows_of_announce {channel : FilePath} {ds : List Diagnostic} {p : DiagnosticsPass}
    {c₀ : AnalysisCore σ} (h : YieldsWith (announce channel ds) c s p c' s')
    (hbefore : c.notifier = c₀.notifier) : Shows channel c₀ p c' := by
  obtain ⟨rfl, rfl, rfl⟩ := yieldsWith_announce_iff.1 h
  rw [hbefore]
  exact ⟨rfl, rfl, rfl⟩

theorem shows_of_diagnostics {file : FileBuffer} {p : DiagnosticsPass}
    (h : YieldsWith (diagnostics file) c s p c' s') :
    Shows (file.path.normalize c.root) c p c' := by
  obtain ⟨ds, c₁, s₁, hsame, hannounce⟩ := exists_announce_of_diagnostics h
  exact shows_of_announce hannounce hsame.notifier_eq

theorem shows_of_projectDiagnostics {files : List FileBuffer} {e : Enumeration ProjectUnit}
    {p : DiagnosticsPass} (h : YieldsWith (projectDiagnostics files e) c s p c' s') :
    Shows c'.root c p c' := by
  obtain ⟨ds, c₁, s₁, hsame, hannounce⟩ := exists_announce_of_projectDiagnostics h
  have hbefore : c₁.notifier = c.notifier := by rw [hsame]
  have hshows := shows_of_announce hannounce hbefore
  obtain ⟨rfl, rfl, rfl⟩ := yieldsWith_announce_iff.1 hannounce
  exact hshows

theorem notifier_of_symbols {file : FileBuffer} {now : Nat} {list : List Symbol}
    (h : YieldsWith (symbols file now) c s list c' s') : c'.notifier = c.notifier := by
  rcases yieldsWith_symbols_iff.1 h with ⟨-, rfl, -⟩ | ⟨-, ⟨-, hunit⟩ | ⟨u, c₁, hunit, -, rfl⟩⟩
  · rfl
  · exact (keepsRest_unit? file hunit (.refl c)).1.notifier_eq
  · exact (keepsRest_unit? file hunit (.refl c)).1.notifier_eq

/-- A request adds its passes to the log, and the notifier tells their flags. -/
theorem tells_of_answer {live : Bool} {r : Request} {e : Enumeration ProjectUnit} {a : Answer}
    (h : YieldsWith (answer live r e) c s a c' s') :
    Tells c.root c.notifier (a.passes c.root r) c'.notifier := by
  have hroot : c'.root = c.root := (AnalysisCore.continues_of_answer h).setup.root_eq
  have hquestion {β : Type} {x : CoreM σ β} {f : β → Answer} (hx : KeepsRest c x)
      (h : YieldsWith (x >>= fun b => pure (f b)) c s a c' s')
      (hpasses : ∀ b, (f b).passes c.root r = []) :
      Tells c.root c.notifier (a.passes c.root r) c'.notifier := by
    obtain ⟨b, c₁, s₁, hrun, hpure⟩ := yieldsWith_bind.1 h
    obtain ⟨rfl, rfl, -⟩ := yieldsWith_pure.1 hpure
    rw [hpasses b, (hx hrun (.refl c)).1.notifier_eq]
    exact .nil _
  cases r with
  | diagnostics file =>
    obtain ⟨p, c₁, s₁, hrun, hpure⟩ := yieldsWith_bind.1 h
    obtain ⟨rfl, rfl, -⟩ := yieldsWith_pure.1 hpure
    have hshows := shows_of_diagnostics hrun
    refine .pass hshows.changed ?_
    rw [hshows.notifier]
    exact .nil _
  | project files =>
    obtain ⟨p, c₁, s₁, hrun, hpure⟩ := yieldsWith_bind.1 h
    obtain ⟨rfl, rfl, -⟩ := yieldsWith_pure.1 hpure
    have hshows := shows_of_projectDiagnostics hrun
    rw [hroot] at hshows
    refine .pass hshows.changed ?_
    rw [hshows.notifier]
    exact .nil _
  | completions p => exact hquestion (keepsRest_completions p) h fun _ => rfl
  | hover p files => exact hquestion (keepsRest_hover p files) h fun _ => rfl
  | definition p files => exact hquestion (keepsRest_definition p files) h fun _ => rfl
  | occurrences p scope files =>
    exact hquestion (keepsRest_occurrences p scope files live) h fun _ => rfl
  | symbols file now =>
    obtain ⟨list, c₁, s₁, hrun, hpure⟩ := yieldsWith_bind.1 h
    obtain ⟨rfl, rfl, -⟩ := yieldsWith_pure.1 hpure
    rw [notifier_of_symbols hrun]
    exact .nil _
  | container p => exact hquestion (keepsRest_container p) h fun _ => rfl

end CoreM

/-- The flags in the log of an analysis are those of its notifier. -/
theorem AnalysisCore.Records.tells {c c' : AnalysisCore σ} {log : List Happening}
    (h : c.Records log c') : c'.root = c.root ∧ Tells c.root c.notifier log c'.notifier := by
  induction h with
  | nil => exact ⟨rfl, .nil _⟩
  | answer _ hrun ih =>
    obtain ⟨hroot, htells⟩ := ih
    have hsame := (continues_of_answer hrun).setup.root_eq
    refine ⟨hsame.trans hroot, htells.append ?_⟩
    rw [← hroot]
    exact CoreM.tells_of_answer hrun
  | invalidateAll _ ih => exact ⟨ih.1, ih.2.append (.forgotten (.nil _))⟩
  | provide _ provider ih => exact ih
  | rewrite _ disk ih => exact ih

end SketchSense
