import Mathlib.Logic.Relation
import SketchSense.Model.Engine
import SketchSense.Proofs.Analysis.Likeness
import SketchSense.Proofs.Analysis.Listing
import SketchSense.Proofs.Analysis.Reached
import SketchSense.Proofs.Engine.Trace

/-!
# Sessions

A session is a sequence of operations on an analysis. What is seen of it are the answers to the
requests, each with the state that the engine is in afterwards; an engine that keeps a record of its
calls shows in this way all that it was asked. The order in which a pass over the project lists its
units is part of the session, since nothing fixes it.

* `Operation` and `AnalysisCore.session`, the replies to a sequence of operations;
* `AnalysisCore.Settled`, that no reply depends on the order of units, with
  `AnalysisCore.forall_session_relisted_iff`;
* `AnalysisCore.session_invalidateAll`, that an analysis which forgot everything is as good as new;
* `AnalysisCore.session_of_respelled`, that other spellings of the paths lead to the same replies.
-/

namespace SketchSense

variable {σ : Type}

/-! ## Operations -/

/-- What is done to an analysis, or happens around it. -/
inductive Operation (σ : Type) where
  /-- A request; if it makes a pass over the project, the units are listed as `e` has it. -/
  | ask (live : Bool) (r : Request) (e : Enumeration ProjectUnit)
  | invalidateAll
  /-- Other arguments are provided from now on. -/
  | provide (provider : FilePath → List String)
  /-- The files on disk are others from now on. -/
  | rewrite (disk : FilePath → Option String)
  /-- The state of the engine changes by itself. -/
  | rescript (change : σ → σ)

/-- The answer to a request, with the state of the engine afterwards. -/
structure Reply (σ : Type) where
  answer : Except Fault Answer
  engine : σ

/-- The replies to a sequence of operations. A fault is the last of them. -/
def AnalysisCore.session : AnalysisCore σ → σ → List (Operation σ) → List (Reply σ)
  | _, _, [] => []
  | c, s, .ask live r e :: ops =>
    match EngineM.runFrom ((CoreM.answer live r e).run c) s with
    | (.ok (a, c'), s') => ⟨.ok a, s'⟩ :: session c' s' ops
    | (.error e, s') => [⟨.error e, s'⟩]
  | c, s, .invalidateAll :: ops => session c.invalidateAll s ops
  | c, s, .provide provider :: ops => session { c with builder := { c.builder with provider } } s ops
  | c, s, .rewrite disk :: ops => session { c with disk } s ops
  | c, s, .rescript change :: ops => session c (change s) ops

/-- An operation under other spellings. -/
inductive Operation.Respells (root : FilePath) : Operation σ → Operation σ → Prop
  | ask {live : Bool} {r r' : Request} {e : Enumeration ProjectUnit} (h : r.Respells root r') :
      Respells root (.ask live r e) (.ask live r' e)
  | same (op : Operation σ) : Respells root op op

/-- An operation with the units listed in another order. -/
inductive Operation.Relists : Operation σ → Operation σ → Prop
  | ask (live : Bool) (r : Request) (e e' : Enumeration ProjectUnit) :
      Relists (.ask live r e) (.ask live r e')
  | same (op : Operation σ) : Relists op op

namespace AnalysisCore

/-- In the session every pass over the project leaves units that agree. -/
def Settled : AnalysisCore σ → σ → List (Operation σ) → Prop
  | _, _, [] => True
  | c, s, .ask live r e :: ops => ∀ a c' s', YieldsWith (CoreM.answer live r e) c s a c' s' →
      (r.kind = .project → ProjectUnit.Agree c'.project.units.values) ∧ Settled c' s' ops
  | c, s, .invalidateAll :: ops => Settled c.invalidateAll s ops
  | c, s, .provide provider :: ops => Settled { c with builder := { c.builder with provider } } s ops
  | c, s, .rewrite disk :: ops => Settled { c with disk } s ops
  | c, s, .rescript change :: ops => Settled c (change s) ops

/-! ## One step after the other -/

variable {c d : AnalysisCore σ}

/-- What analyses keep the same is forgotten alike. -/
theorem KeepsSame.invalidateAll (h : c.KeepsSame d) : c.invalidateAll.KeepsSame d.invalidateAll := by
  constructor
  · show d.builder.clear = c.builder.clear
    rw [h.builder]
  · exact h.disk
  · rfl
  · rfl
  · show d.symbols.clear = c.symbols.clear
    rw [h.symbols]
  · rfl
  · exact h.completionLimit

/-- Analyses that keep the same reply the same, also to operations under other spellings. -/
theorem KeepsSame.session_eq {root : FilePath} {ops ops' : List (Operation σ)}
    (hops : List.Forall₂ (Operation.Respells root) ops ops') {c d : AnalysisCore σ}
    (h : c.KeepsSame d) (hroot : c.root = root) (s : σ) : d.session s ops' = c.session s ops := by
  induction hops generalizing c d s with
  | nil => rfl
  | @cons op op' ops ops' hop _ ih =>
    have hask {live : Bool} {r r' : Request} {e : Enumeration ProjectUnit}
        (hr : r.Respells root r') :
        d.session s (.ask live r' e :: ops') = c.session s (.ask live r e :: ops) := by
      have hends := CoreM.runsAlike_answer (hroot ▸ hr) live e s h.matches
      unfold session
      generalize EngineM.runFrom ((CoreM.answer live r e).run c) s = first,
        EngineM.runFrom ((CoreM.answer live r' e).run d) s = second at hends ⊢
      cases hends with
      | ok s' hab hcd =>
        subst hab
        exact congrArg _ (ih hcd.toKeepsSame (hcd.setup.root_eq.trans hroot) s')
      | fault e s' => rfl
    cases hop with
    | ask hr => exact hask hr
    | same =>
      cases op with
      | ask live r e => exact hask (.refl root r)
      | invalidateAll => exact ih h.invalidateAll hroot s
      | provide provider =>
        have hprovide : KeepsSame { c with builder := { c.builder with provider } }
            { d with builder := { d.builder with provider } } :=
          { h with builder := by rw [h.builder] }
        exact ih hprovide hroot s
      | rewrite disk =>
        have hrewrite : KeepsSame { c with disk } { d with disk } := { h with disk := rfl }
        exact ih hrewrite hroot s
      | rescript change => exact ih h hroot (change s)

/-- Answering a request changes nothing of the setup. -/
theorem continues_of_answer {live : Bool} {r : Request} {e : Enumeration ProjectUnit}
    {c' : AnalysisCore σ} {s s' : σ} {a : Answer} (h : YieldsWith (CoreM.answer live r e) c s a c' s') :
    c.Continues c' :=
  CoreM.RunsAlike.continues (CoreM.runsAlike_answer (.refl c.root r) live e) h

/-! ## The order of units -/

/-- A request that is answered is the first of the replies, and the session goes on from there. -/
theorem session_of_answer {live : Bool} {r : Request} {e : Enumeration ProjectUnit}
    {c' : AnalysisCore σ} {s s' : σ} {a : Answer} (h : YieldsWith (CoreM.answer live r e) c s a c' s')
    (ops : List (Operation σ)) :
    c.session s (.ask live r e :: ops) = ⟨.ok a, s'⟩ :: c'.session s' ops := by
  unfold YieldsWith Yields at h
  rw [session, h]

/-- Where a request has another answer with the units in another order, the replies are others. -/
theorem session_ne_of_answers {live : Bool} {r : Request} {e e' : Enumeration ProjectUnit}
    {c' c'' : AnalysisCore σ} {s s' s'' : σ} {a a' : Answer}
    (h : YieldsWith (CoreM.answer live r e) c s a c' s')
    (h' : YieldsWith (CoreM.answer live r e') c s a' c'' s'') (hne : a' ≠ a) :
    c.session s [.ask live r e'] ≠ c.session s [.ask live r e] := by
  rw [session_of_answer h, session_of_answer h']
  intro heq
  exact hne (Except.ok.inj (Reply.mk.inj (List.cons.inj heq).1).1)

/-- Without a pass over the project no units are listed. -/
theorem settled_of_forall_ne_project {ops : List (Operation σ)} {c : AnalysisCore σ} {s : σ}
    (h : ∀ op ∈ ops, ∀ live r e, op = .ask live r e → r.kind ≠ .project) : c.Settled s ops := by
  induction ops generalizing c s with
  | nil => trivial
  | cons op ops ih =>
    have hrest {c : AnalysisCore σ} {s : σ} : c.Settled s ops :=
      ih fun op' hmem => h op' (.tail op hmem)
    cases op with
    | ask live r e =>
      exact fun _ _ _ _ => ⟨fun hkind => absurd hkind (h _ (.head ops) live r e rfl), hrest⟩
    | invalidateAll => exact hrest
    | provide => exact hrest
    | rewrite => exact hrest
    | rescript => exact hrest

/-- Where the units agree that the passes leave, no reply depends on the order in which they are
listed. -/
theorem Settled.session_eq {ops ops' : List (Operation σ)} {c : AnalysisCore σ} {s : σ}
    (h : c.Settled s ops) (hops : List.Forall₂ Operation.Relists ops ops') :
    c.session s ops' = c.session s ops := by
  induction hops generalizing c s with
  | nil => rfl
  | @cons op op' ops ops' hop _ ih =>
    cases hop with
    | ask live r e e' =>
      have hrun : EngineM.runFrom ((CoreM.answer live r e').run c) s =
          EngineM.runFrom ((CoreM.answer live r e).run c) s :=
        CoreM.runFrom_answer_of_agree fun a c' s' hanswer => (h a c' s' hanswer).1
      unfold session
      rw [hrun]
      cases hresult : EngineM.runFrom ((CoreM.answer live r e).run c) s with
      | mk result s' =>
        cases result with
        | ok found => exact congrArg _ (ih (h found.1 found.2 s' hresult).2)
        | error fault => rfl
    | same =>
      cases op with
      | ask live r e =>
        unfold session
        cases hresult : EngineM.runFrom ((CoreM.answer live r e).run c) s with
        | mk result s' =>
          cases result with
          | ok found => exact congrArg _ (ih (h found.1 found.2 s' hresult).2)
          | error fault => rfl
      | invalidateAll => exact ih h
      | provide provider => exact ih h
      | rewrite disk => exact ih h
      | rescript change => exact ih h

/-- A session replies the same in whatever order units are listed exactly if the units agree that its
passes leave. -/
theorem forall_session_relisted_iff {ops : List (Operation σ)} {c : AnalysisCore σ} {s : σ} :
    (∀ ops', List.Forall₂ Operation.Relists ops ops' → c.session s ops' = c.session s ops) ↔
      c.Settled s ops := by
  refine ⟨fun hall => ?_, fun h ops' => h.session_eq⟩
  induction ops generalizing c s with
  | nil => trivial
  | cons op ops ih =>
    have hrest {ops' : List (Operation σ)} (hops : List.Forall₂ Operation.Relists ops ops') :
        c.session s (op :: ops') = c.session s (op :: ops) := hall _ (.cons (.same op) hops)
    cases op with
    | ask live r e =>
      intro a c' s' hanswer
      constructor
      · intro hkind
        cases r with
        | project files =>
          rw [ProjectUnit.agree_iff]
          have hreport (e' : Enumeration ProjectUnit) :
              mergedDiagnostics (c'.project.units.valuesIn e') =
                mergedDiagnostics (c'.project.units.valuesIn e) := by
            obtain ⟨a', c'', hanswer', hproject⟩ := CoreM.exists_answer_in hanswer e'
            have hsame := hall (.ask live (.project files) e' :: ops)
              (.cons (.ask live _ e e') (List.forall₂_same.2 fun op _ => .same op))
            rw [session_of_answer hanswer, session_of_answer hanswer'] at hsame
            obtain ⟨p, rfl, hp⟩ := CoreM.diagnostics_of_answer hanswer
            obtain ⟨p', rfl, hp'⟩ := CoreM.diagnostics_of_answer hanswer'
            rw [hproject] at hp'
            cases (List.cons.inj hsame).1
            rw [← hp, ← hp']
          intro e'
          exact (hreport e').trans (hreport .kept).symm
        | _ => cases hkind
      · refine ih fun ops' hops => ?_
        have hsame := hrest hops
        rw [session_of_answer hanswer, session_of_answer hanswer] at hsame
        exact (List.cons.inj hsame).2
    | invalidateAll => exact ih fun ops' hops => hrest hops
    | provide provider => exact ih fun ops' hops => hrest hops
    | rewrite disk => exact ih fun ops' hops => hrest hops
    | rescript change => exact ih fun ops' hops => hrest hops

/-- Units of respelled operations are listed in another order as those of the first spelling can be. -/
theorem exists_relisted_of_respells {root : FilePath} {ops ops' ops₂ : List (Operation σ)}
    (hops : List.Forall₂ (Operation.Respells root) ops ops')
    (hlisted : List.Forall₂ Operation.Relists ops' ops₂) :
    ∃ ops₁, List.Forall₂ Operation.Relists ops ops₁ ∧
      List.Forall₂ (Operation.Respells root) ops₁ ops₂ := by
  induction hops generalizing ops₂ with
  | nil =>
    cases hlisted
    exact ⟨[], .nil, .nil⟩
  | cons hop _ ih =>
    cases hlisted with
    | cons hnext hrest =>
      obtain ⟨ops₁, hrelists, hrespells⟩ := ih hrest
      cases hnext with
      | same => exact ⟨_, .cons (.same _) hrelists, .cons hop hrespells⟩
      | ask live r' e e' =>
        cases hop with
        | ask hr => exact ⟨_, .cons (.ask live _ e e') hrelists, .cons (.ask hr) hrespells⟩
        | same => exact ⟨_, .cons (.ask live r' e e') hrelists, .cons (.same _) hrespells⟩

/-- Analyses that keep the same reply the same in whatever orders the two list the units, also to
operations under other spellings, exactly if the units agree that the passes leave. -/
theorem KeepsSame.forall_relisted_iff {root : FilePath} {ops ops' : List (Operation σ)}
    (h : c.KeepsSame d) (hops : List.Forall₂ (Operation.Respells root) ops ops')
    (hroot : c.root = root) (s : σ) :
    (∀ ops₁ ops₂, List.Forall₂ Operation.Relists ops ops₁ → List.Forall₂ Operation.Relists ops' ops₂ →
      d.session s ops₂ = c.session s ops₁) ↔ c.Settled s ops := by
  have hsame (ops : List (Operation σ)) : List.Forall₂ Operation.Relists ops ops :=
    List.forall₂_same.2 fun op _ => .same op
  rw [← forall_session_relisted_iff]
  constructor
  · intro hall ops₁ h₁
    rw [← hall ops₁ ops' h₁ (hsame ops'), h.session_eq hops hroot]
  · intro hall ops₁ ops₂ h₁ h₂
    obtain ⟨ops₃, h₃, hrespells⟩ := exists_relisted_of_respells hops h₂
    rw [h.session_eq hrespells hroot, hall ops₃ h₃, hall ops₁ h₁]

end AnalysisCore

/-! ## Forgetting everything -/

namespace AnalysisCore

variable {c : AnalysisCore σ} {engine : Engine σ} {settings : Settings}

/-- The analysis was made with an engine and settings; the arguments and the files on disk are open. -/
structure MadeWith (engine : Engine σ) (settings : Settings) (c : AnalysisCore σ) : Prop where
  engine_eq : c.builder.engine = engine
  profile_eq : c.builder.profile = settings.profile
  root_eq : c.builder.root = settings.root
  grace_eq : c.symbols.grace = settings.symbolGrace
  limit_eq : c.completionLimit = settings.completionLimit

theorem MadeWith.step {c' : AnalysisCore σ} (hc : c.MadeWith engine settings)
    (h : Step (fun _ => True) c c') : c'.MadeWith engine settings := by
  cases h with
  | answer hpaths hrun =>
    have hsetup := continues_of_answer hrun
    constructor
    · rw [hsetup.setup.engine_eq, hc.engine_eq]
    · rw [hsetup.setup]
      exact hc.profile_eq
    · rw [hsetup.setup.root_eq, hc.root_eq]
    · rw [hsetup.sameGrace, hc.grace_eq]
    · rw [hsetup.sameLimit, hc.limit_eq]
  | invalidateAll => exact ⟨hc.engine_eq, hc.profile_eq, hc.root_eq, hc.grace_eq, hc.limit_eq⟩
  | provide => exact ⟨hc.engine_eq, hc.profile_eq, hc.root_eq, hc.grace_eq, hc.limit_eq⟩
  | rewrite => exact ⟨hc.engine_eq, hc.profile_eq, hc.root_eq, hc.grace_eq, hc.limit_eq⟩

/-- An analysis that forgot everything keeps the same as one that is made now. -/
theorem MadeWith.keepsSame_invalidateAll (hc : c.MadeWith engine settings)
    {provided : FilePath → List String} (hprovided : c.builder.provider = settings.provider provided) :
    (ofSettings engine provided c.disk settings).KeepsSame c.invalidateAll := by
  obtain ⟨⟨e, provider, profile, root, transformer⟩, disk, units, project, ⟨grace, lists⟩, notifier,
    limit⟩ := c
  obtain ⟨rfl, rfl, rfl, rfl, rfl⟩ := hc
  constructor
  · show UnitBuilder.clear _ = _
    unfold UnitBuilder.clear ofSettings
    rw [← hprovided]
  · rfl
  · rfl
  · rfl
  · rfl
  · rfl
  · rfl

theorem madeWith_of_reaches {earlier : FilePath → List String} {disk : FilePath → Option String}
    (h : Relation.ReflTransGen (Step fun _ => True) (ofSettings engine earlier disk settings) c) :
    c.MadeWith engine settings := by
  induction h with
  | refl => exact ⟨rfl, rfl, rfl, rfl, rfl⟩
  | tail _ hstep ih => exact ih.step hstep

/-- After any operations an analysis that forgets everything is as good as new: to whatever is asked
from then on it replies what one replies that is made now with the same settings, with the same
changes announced and with the engine asked to do the same, call for call, if both list the units of
the project in the same order. They reply the same in whatever orders they list them exactly if the
units agree that the passes leave. -/
theorem session_invalidateAll (engine : Engine σ) (settings : Settings)
    {earlier provided : FilePath → List String} {disk : FilePath → Option String}
    {c : AnalysisCore (σ × List EngineCall)}
    (hreached : Relation.ReflTransGen (Step fun _ => True)
      (ofSettings engine.traced earlier disk settings) c)
    (hprovided : c.builder.provider = settings.provider provided)
    (ops : List (Operation (σ × List EngineCall))) (s : σ × List EngineCall) :
    c.invalidateAll.session s ops =
        (ofSettings engine.traced provided c.disk settings).session s ops ∧
      ((∀ ops₁ ops₂, List.Forall₂ Operation.Relists ops ops₁ →
          List.Forall₂ Operation.Relists ops ops₂ → c.invalidateAll.session s ops₂ =
            (ofSettings engine.traced provided c.disk settings).session s ops₁) ↔
        (ofSettings engine.traced provided c.disk settings).Settled s ops) := by
  have hkeeps := (madeWith_of_reaches hreached).keepsSame_invalidateAll hprovided
  have hops : List.Forall₂ (Operation.Respells settings.root) ops ops :=
    List.forall₂_same.2 fun op _ => .same op
  exact ⟨hkeeps.session_eq hops rfl s, hkeeps.forall_relisted_iff hops rfl s⟩

open Model in
/-- A file was asked about before, and its unit was kept. -/
theorem session_after_request :
    ∃ c : AnalysisCore (ModelState × List EngineCall),
      Relation.ReflTransGen (Step fun _ => True)
        (ofSettings modelEngine.traced (fun _ => []) (fun _ => none) { root := ⟨"/s"⟩ }) c ∧
      c.units.units.keys.map (·.text) = ["/s/a.cpp"] ∧
      ∀ ops s,
        c.invalidateAll.session s ops =
          (ofSettings modelEngine.traced (fun _ => []) (fun _ => none) { root := ⟨"/s"⟩ }).session s
            ops ∧
        ((∀ ops₁ ops₂, List.Forall₂ Operation.Relists ops ops₁ →
            List.Forall₂ Operation.Relists ops ops₂ → c.invalidateAll.session s ops₂ =
              (ofSettings modelEngine.traced (fun _ => []) (fun _ => none)
                { root := ⟨"/s"⟩ }).session s ops₁) ↔
          (ofSettings modelEngine.traced (fun _ => []) (fun _ => none) { root := ⟨"/s"⟩ }).Settled s
            ops) := by
  generalize hstart : ofSettings modelEngine.traced (fun _ => []) (fun _ => none) { root := ⟨"/s"⟩ } =
    start
  have hanswer : (EngineM.runFrom ((CoreM.answer true (.symbols ⟨⟨"a.cpp"⟩, "int a;\n"⟩ 0)).run start)
      ({}, [])).1.toOption.map (fun found => found.2.units.units.keys.map (·.text)) =
        some ["/s/a.cpp"] := by
    rw [← hstart]
    decide +kernel
  obtain ⟨a, c, s', hrun, hkeys⟩ := exists_yieldsWith hanswer
  have hsetup := continues_of_answer hrun
  subst hstart
  have hreached := Relation.ReflTransGen.single (Step.answer (fun _ _ => trivial) hrun)
  have hprovided : c.builder.provider =
      Settings.provider { root := ⟨"/s"⟩ } fun _ => [] := hsetup.setup.provider_eq
  have hsession := session_invalidateAll modelEngine { root := ⟨"/s"⟩ } hreached hprovided
  rw [hsetup.sameDisk] at hsession
  exact ⟨c, hreached, hkeys, hsession⟩

open Model in
/-- A sketch and a source beside it, for which the engine reports one error with a note on another line
in each. After a pass over the two an analysis forgets everything and makes the pass again. If it now
lists the source first, it replies something else than a new one that lists the sketch first. -/
theorem session_depends_on_order :
    ∃ c : AnalysisCore (ModelState × List EngineCall),
      Relation.ReflTransGen (Step fun _ => True)
        (ofSettings modelEngine.traced (fun _ => []) (fun _ => none) { root := ⟨"/s"⟩ }) c ∧
      c.project.units.keys.map (·.text) = ["/s/A.ino", "/s/b.cpp"] ∧
      ∃ ops ops' s, List.Forall₂ Operation.Relists ops ops' ∧
        c.invalidateAll.session s ops' ≠
          (ofSettings modelEngine.traced (fun _ => []) (fun _ => none) { root := ⟨"/s"⟩ }).session s
            ops := by
  generalize hstart : ofSettings modelEngine.traced (fun _ => []) (fun _ => none) { root := ⟨"/s"⟩ } =
    start
  have hpass : (EngineM.runFrom ((CoreM.answer true (.project
      [⟨⟨"/s/A.ino"⟩, "void f() \x7b\x7d\n"⟩, ⟨⟨"/s/b.cpp"⟩, "int b;\n"⟩])).run start)
        ({ extraDiagnostics := [ProjectCache.errorWithNote] }, [])).1.toOption.map (fun found =>
          (found.2.project.units.keys.map (·.text), found.2.project.units.values.map fun u =>
            u.diagnostics.map ProjectCache.readingAndNotes)) =
      some (["/s/A.ino", "/s/b.cpp"],
        [[(⟨"/s/lib.h", 1, 1, .error, "x"⟩, [4])], [(⟨"/s/lib.h", 1, 1, .error, "x"⟩, [5])]]) := by
    rw [← hstart]
    decide +kernel
  obtain ⟨a, c, s, hrun, hfound⟩ := exists_yieldsWith hpass
  obtain ⟨hkeys, hunits⟩ := Prod.mk.inj hfound
  obtain ⟨u, v, hvalues, hnotes, hnotes'⟩ := ProjectCache.exists_of_same_reading hunits
  obtain ⟨a', c', hrun', hproject⟩ := CoreM.exists_answer_in hrun .reversed
  obtain ⟨p, rfl, hp⟩ := CoreM.diagnostics_of_answer hrun
  obtain ⟨p', rfl, hp'⟩ := CoreM.diagnostics_of_answer hrun'
  have hdiffer : Answer.project p' ≠ .project p := by
    intro heq
    cases heq
    -- both passes report the notes of the unit that comes first
    have hsketch : mergedDiagnostics [u, v] = p.diagnostics := by rw [hp, ← hvalues, Table.valuesIn_kept]
    have hsource : mergedDiagnostics [v, u] = p.diagnostics := by
      rw [hp', hproject]
      show _ = mergedDiagnostics c.project.units.values.reverse
      rw [show c.project.units.values = [u, v] from hvalues]
      rfl
    rw [hsketch] at hnotes
    rw [hsource, hnotes] at hnotes'
    cases hnotes'
  have hreached : Relation.ReflTransGen (Step fun _ => True) start c :=
    .single (.answer (fun _ _ => trivial) hrun)
  have hkeeps : start.KeepsSame c.invalidateAll := by
    have hsetup := continues_of_answer hrun
    subst hstart
    have hmade := (madeWith_of_reaches hreached).keepsSame_invalidateAll (hsetup.setup.provider_eq :
      c.builder.provider = Settings.provider { root := ⟨"/s"⟩ } fun _ => [])
    rwa [hsetup.sameDisk] at hmade
  exact ⟨c, hreached, hkeys, _, _, _, .cons (.ask true _ .kept .reversed) .nil,
    (hkeeps.session_eq (.cons (.same _) .nil) rfl _).trans_ne
      (session_ne_of_answers hrun hrun' hdiffer)⟩

/-! ## Other spellings -/

/-- A new analysis replies the same to operations under other spellings of the paths, as long as
files are chosen and texts are found by them alike and the units of the project are listed in the same
order. The orders may be any exactly if the units agree that the passes leave. -/
theorem session_of_respelled (engine : Engine σ) (provided : FilePath → List String)
    (disk : FilePath → Option String) (settings : Settings) {ops ops' : List (Operation σ)}
    (h : List.Forall₂ (Operation.Respells settings.root) ops ops') (s : σ) :
    (ofSettings engine provided disk settings).session s ops' =
        (ofSettings engine provided disk settings).session s ops ∧
      ((∀ ops₁ ops₂, List.Forall₂ Operation.Relists ops ops₁ →
          List.Forall₂ Operation.Relists ops' ops₂ →
          (ofSettings engine provided disk settings).session s ops₂ =
            (ofSettings engine provided disk settings).session s ops₁) ↔
        (ofSettings engine provided disk settings).Settled s ops) :=
  ⟨(KeepsSame.refl _).session_eq h rfl s, (KeepsSame.refl _).forall_relisted_iff h rfl s⟩

/-- Occurrences and a definition, asked for once with absolute paths and once with a relative one, a
detour and a step that stays. No pass is made over the project. -/
theorem session_of_relative_paths :
    ∃ ops ops' : List (Operation Model.ModelState),
      ops = [.ask true (.occurrences ⟨⟨⟨"/s/a.cpp"⟩, "int f();\n"⟩, 1, 5⟩ .project
          [⟨⟨"/s/b.cpp"⟩, "int f();\n"⟩]) .kept,
        .ask true (.definition ⟨⟨⟨"/s/led.h"⟩, "void on();\n"⟩, 1, 6⟩
          [⟨⟨"/s/led.cpp"⟩, "void on() \x7b\n\x7d\n"⟩]) .kept] ∧
      ops' = [.ask true (.occurrences ⟨⟨⟨"a.cpp"⟩, "int f();\n"⟩, 1, 5⟩ .project
          [⟨⟨"lib/../b.cpp"⟩, "int f();\n"⟩]) .kept,
        .ask true (.definition ⟨⟨⟨"./led.h"⟩, "void on();\n"⟩, 1, 6⟩
          [⟨⟨"/s/led.cpp"⟩, "void on() \x7b\n\x7d\n"⟩]) .kept] ∧
      (ofSettings modelEngine (fun _ => []) (fun _ => none) { root := ⟨"/s"⟩ }).Settled {} ops ∧
      ∀ ops₁ ops₂, List.Forall₂ Operation.Relists ops ops₁ →
        List.Forall₂ Operation.Relists ops' ops₂ →
        (ofSettings modelEngine (fun _ => []) (fun _ => none) { root := ⟨"/s"⟩ }).session {} ops₂ =
          (ofSettings modelEngine (fun _ => []) (fun _ => none) { root := ⟨"/s"⟩ }).session {} ops₁ := by
  have hsettled {c : AnalysisCore Model.ModelState} {s : Model.ModelState} {r r' : Request}
      (hr : r.kind ≠ .project) (hr' : r'.kind ≠ .project) :
      c.Settled s [.ask true r .kept, .ask true r' .kept] :=
    settled_of_forall_ne_project (by simp [hr, hr'])
  refine ⟨_, _, rfl, rfl, hsettled (by decide) (by decide),
    (session_of_respelled _ _ _ _ (.cons (.ask ?_) (.cons (.ask ?_) .nil)) _).2.2
      (hsettled (by decide) (by decide))⟩
  · apply Request.Respells.occurrences
    · exact ⟨⟨rfl, rfl⟩, rfl, rfl⟩
    · intro _
      exact .cons ⟨⟨rfl, rfl⟩, rfl⟩ .nil
  · apply Request.Respells.definition
    · exact ⟨⟨rfl, rfl⟩, rfl, rfl⟩
    · exact fun _ => rfl

open Model in
/-- From a header the definition in the source beside it is found if the source is open under its
absolute path, but not if it is open under a relative one with the same key. -/
theorem definition_depends_on_spelling :
    (FilePath.mk "led.cpp").normalize ⟨"/s"⟩ = (FilePath.mk "/s/led.cpp").normalize ⟨"/s"⟩ ∧
      ∃ c c' s s',
        YieldsWith (CoreM.definition ⟨⟨⟨"/s/led.h"⟩, "void on();\n"⟩, 1, 6⟩
            [⟨⟨"/s/led.cpp"⟩, "void on() \x7b\n\x7d\n"⟩])
          (ofSettings modelEngine (fun _ => []) (fun _ => none) { root := ⟨"/s"⟩ }) {}
          (some ⟨⟨"/s/led.cpp"⟩, 1, 6⟩) c s ∧
        YieldsWith (CoreM.definition ⟨⟨⟨"/s/led.h"⟩, "void on();\n"⟩, 1, 6⟩
            [⟨⟨"led.cpp"⟩, "void on() \x7b\n\x7d\n"⟩])
          (ofSettings modelEngine (fun _ => []) (fun _ => none) { root := ⟨"/s"⟩ }) {}
          (some ⟨⟨"/s/led.h"⟩, 1, 6⟩) c' s' := by
  refine ⟨rfl, ?_⟩
  generalize hstart : ofSettings modelEngine (fun _ => []) (fun _ => none) { root := ⟨"/s"⟩ } = start
  have hfound (path target : String) (h : (EngineM.runFrom ((CoreM.definition
      ⟨⟨⟨"/s/led.h"⟩, "void on();\n"⟩, 1, 6⟩ [⟨⟨path⟩, "void on() \x7b\n\x7d\n"⟩]).run start)
        {}).1.toOption.map (fun found => found.1.map fun l => (l.file.text, l.line, l.column)) =
          some (some (target, 1, 6))) :
      ∃ c s, YieldsWith (CoreM.definition ⟨⟨⟨"/s/led.h"⟩, "void on();\n"⟩, 1, 6⟩
        [⟨⟨path⟩, "void on() \x7b\n\x7d\n"⟩]) start {} (some ⟨⟨target⟩, 1, 6⟩) c s := by
    obtain ⟨_, c, s, hrun, ha⟩ := exists_yieldsWith h
    obtain ⟨⟨⟨text⟩, line, column⟩, rfl, hl⟩ := Option.map_eq_some_iff.1 ha
    cases hl
    exact ⟨c, s, hrun⟩
  obtain ⟨c, s, habsolute⟩ := hfound "/s/led.cpp" "/s/led.cpp" (by
    rw [← hstart]
    decide +kernel)
  obtain ⟨c', s', hrelative⟩ := hfound "led.cpp" "/s/led.h" (by
    rw [← hstart]
    decide +kernel)
  exact ⟨c, c', s, s', habsolute, hrelative⟩

end AnalysisCore

end SketchSense
