import SketchSense.Diagnostic.Collect
import SketchSense.Proofs.Collation

/-!
# What is collected

The engine's messages come in groups, a message and the notes directly behind it. Each group is
reported as one diagnostic or not at all, and its notes are among the children of that diagnostic
and of no other.

* `MessageGroup`, and `CutsInto`, messages as groups one behind the other;
* `Scope.diagnostic?`, what a group is reported as;
* `Scope.reports_eq_filterMap`, that every group is reported by itself;
* `Scope.collect_eq_mergeSort`, all that is collected.
-/

namespace SketchSense

/-! ## Groups -/

/-- A message that is no note, and notes that stand directly behind it. -/
@[ext]
structure MessageGroup where
  head : RawDiagnostic
  notes : List RawDiagnostic
  isNote_head : head.isNote = false
  isNote_of_mem : ∀ d ∈ notes, d.isNote = true

namespace MessageGroup

def messages (g : MessageGroup) : List RawDiagnostic := g.head :: g.notes

/-- Behind the notes of a group, other groups begin with a message that is no note. -/
theorem takeWhile_flatMap (gs : List MessageGroup) :
    (gs.flatMap messages).takeWhile RawDiagnostic.isNote = [] := by
  cases gs with
  | nil => rfl
  | cons g gs =>
    rw [List.flatMap_cons, messages, List.cons_append, List.takeWhile_cons_of_neg]
    simp [g.isNote_head]

/-- Notes in front of groups are told apart from the groups. -/
theorem append_flatMap_inj {xs ys : List RawDiagnostic} (hxs : ∀ d ∈ xs, d.isNote = true)
    (hys : ∀ d ∈ ys, d.isNote = true) {gs hs : List MessageGroup}
    (h : xs ++ gs.flatMap messages = ys ++ hs.flatMap messages) :
    xs = ys ∧ gs.flatMap messages = hs.flatMap messages := by
  -- the groups begin with a message that is no note, so the notes in front are cut off there
  have hfront {zs : List RawDiagnostic} (hzs : ∀ d ∈ zs, d.isNote = true) (is : List MessageGroup) :
      (zs ++ is.flatMap messages).takeWhile RawDiagnostic.isNote = zs := by
    rw [List.takeWhile_append_of_pos hzs, takeWhile_flatMap, List.append_nil]
  have hsame : xs = ys := by rw [← hfront hxs gs, h, hfront hys]
  subst hsame
  exact ⟨rfl, List.append_cancel_left h⟩

/-- Messages are made up of groups in one way. -/
theorem flatMap_messages_injective {gs hs : List MessageGroup}
    (h : gs.flatMap messages = hs.flatMap messages) : gs = hs := by
  induction gs generalizing hs with
  | nil =>
    cases hs with
    | nil => rfl
    | cons b hs => cases h
  | cons a gs ih =>
    cases hs with
    | nil => cases h
    | cons b hs =>
      obtain ⟨hhead, hrest⟩ := List.cons.inj h
      obtain ⟨hnotes, hgroups⟩ := append_flatMap_inj a.isNote_of_mem b.isNote_of_mem hrest
      rw [MessageGroup.ext hhead hnotes, ih hgroups]

end MessageGroup

/-- The messages are the groups one behind the other, behind notes that belong to no message. The
notes of a group are all those behind its head, as the next group does not begin with a note. -/
def CutsInto (ds : List RawDiagnostic) (gs : List MessageGroup) : Prop :=
  ∃ leading, (∀ d ∈ leading, d.isNote = true) ∧ ds = leading ++ gs.flatMap MessageGroup.messages

/-- All messages can be cut into groups, and in one way. -/
theorem existsUnique_cutsInto (ds : List RawDiagnostic) : ∃! gs, CutsInto ds gs := by
  have hexists : ∃ gs, CutsInto ds gs := by
    induction ds with
    | nil => exact ⟨[], [], by simp, rfl⟩
    | cons d ds ih =>
      obtain ⟨gs, leading, hleading, rfl⟩ := ih
      -- a note is one more in front, and any other message is the head of those in front
      cases hnote : d.isNote with
      | true =>
        refine ⟨gs, d :: leading, fun e he => ?_, rfl⟩
        rcases List.mem_cons.1 he with rfl | he
        · exact hnote
        · exact hleading e he
      | false => exact ⟨⟨d, leading, hnote, hleading⟩ :: gs, [], by simp, rfl⟩
  obtain ⟨gs, leading, hleading, hds⟩ := hexists
  refine ⟨gs, ⟨leading, hleading, hds⟩, ?_⟩
  rintro hs ⟨leading', hleading', hds'⟩
  exact MessageGroup.flatMap_messages_injective
    (MessageGroup.append_flatMap_inj hleading' hleading (hds'.symm.trans hds)).2

namespace Scope

/-! ## Reports -/

/-- A place of the engine, as the sketch knows it. Without a file there is nothing to translate. -/
def translate? (s : Scope) (l : Location) : Option Location :=
  if l.isUnknown then some l else s.map.toEdited l

/-- A note as a child, if there is a place for it. -/
def child? (s : Scope) (d : RawDiagnostic) : Option Diagnostic :=
  (s.translate? (s.preferred d)).map fun l => ⟨l, d.severity, d.message, []⟩

/-- The children of a group: the notes that its head has and those behind it, of those that read
alike the first. -/
def childrenOf (s : Scope) (g : MessageGroup) : List Diagnostic :=
  ((g.head.children.filter (·.severity = .note) ++ g.notes).filterMap s.child?).eraseDupsBy
    fun a b => a.repeatKey == b.repeatKey

/-- What a group is reported as. Nothing is reported for a head that is ignored, that has no place in
a file inside the root, or whose place is not one of the sketch. -/
def diagnostic? (s : Scope) (g : MessageGroup) : Option Diagnostic :=
  if g.head.severity = .ignored ∨ (s.preferred g.head).isUnknown = true ∨
      (s.preferred g.head).file.isInside s.root = false then none
  else (s.map.toEdited (s.preferred g.head)).map fun l =>
    ⟨l, g.head.severity, g.head.message, s.childrenOf g⟩

variable (s : Scope)

theorem notes_eq_childrenOf (g : MessageGroup) :
    s.notes (g.head.children.filter RawDiagnostic.isNote ++ g.notes) = s.childrenOf g :=
  keepFirst_eq_eraseDupsBy _ _

/-- A head is reported with its group as the group is. -/
theorem report?_eq_diagnostic? (g : MessageGroup) : s.report? g.head g.notes = s.diagnostic? g := by
  have hnote : g.head.severity ≠ .note := of_decide_eq_false g.isNote_head
  -- as the head is no note, it can be reported unless it is ignored
  have hreportable : g.head.severity.isReportable = true ↔ g.head.severity ≠ .ignored := by
    generalize g.head.severity = severity at hnote ⊢
    cases severity <;> simp_all [Severity.isReportable]
  unfold report? diagnostic?
  rw [notes_eq_childrenOf]
  dsimp only
  by_cases hshown : g.head.severity = .ignored ∨ (s.preferred g.head).isUnknown = true ∨
      (s.preferred g.head).file.isInside s.root = false
  · rw [if_pos hshown, if_neg]
    rw [Bool.and_eq_true, holds, Bool.and_eq_true, Bool.not_eq_true', hreportable]
    rintro ⟨⟨hknown, hinside⟩, hseverity⟩
    rcases hshown with h | h | h
    · exact hseverity h
    · rw [hknown] at h
      cases h
    · rw [hinside] at h
      cases h
  · rw [if_neg hshown, if_pos]
    simp only [not_or, Bool.not_eq_true, Bool.not_eq_false] at hshown
    rw [Bool.and_eq_true, holds, Bool.and_eq_true, Bool.not_eq_true', hreportable]
    exact ⟨⟨hshown.2.1, hshown.2.2⟩, hshown.1⟩

/-- No note is reported on its own. -/
theorem reports_append_of_isNote {notes : List RawDiagnostic}
    (hnotes : ∀ d ∈ notes, d.isNote = true) (ds : List RawDiagnostic) :
    s.reports (notes ++ ds) = s.reports ds := by
  induction notes with
  | nil => rfl
  | cons d notes ih =>
    have hseverity : d.severity = .note := of_decide_eq_true (hnotes d List.mem_cons_self)
    have hnone (following : List RawDiagnostic) : s.report? d following = none := by
      unfold report?
      rw [hseverity]
      simp [Severity.isReportable]
    rw [List.cons_append, reports, hnone, ih fun e he => hnotes e (List.mem_cons_of_mem _ he)]
    rfl

/-- Every group is reported by itself, in the order of the groups. -/
theorem reports_eq_filterMap (gs : List MessageGroup) :
    s.reports (gs.flatMap MessageGroup.messages) = gs.filterMap s.diagnostic? := by
  induction gs with
  | nil => rfl
  | cons g gs ih =>
    have hfollowing : (g.notes ++ gs.flatMap MessageGroup.messages).takeWhile RawDiagnostic.isNote =
        g.notes := by
      rw [List.takeWhile_append_of_pos g.isNote_of_mem, MessageGroup.takeWhile_flatMap,
        List.append_nil]
    rw [List.flatMap_cons, MessageGroup.messages, List.cons_append, reports, hfollowing,
      reports_append_of_isNote s g.isNote_of_mem, ih, report?_eq_diagnostic?, List.filterMap_cons]
    cases s.diagnostic? g <;> rfl

/-- The messages can be cut into groups, in one way, and what is collected is what the groups are
reported as, each by itself, sorted by rank and place. -/
theorem collect_eq_mergeSort (ds : List RawDiagnostic) :
    (∃! gs, CutsInto ds gs) ∧ ∀ gs, CutsInto ds gs →
      s.collect ds = (gs.filterMap s.diagnostic?).mergeSort fun a b => (a.comparePosition b).isLE := by
  refine ⟨existsUnique_cutsInto ds, ?_⟩
  rintro gs ⟨leading, hleading, rfl⟩
  rw [collect, reports_append_of_isNote s hleading, reports_eq_filterMap]
  rfl

/-- Of a note in front, an error and two notes that read alike, the error is left with one note. -/
theorem collect_of_error_between_notes :
    ∃ gs, CutsInto [.at .note ⟨⟨"/s/a.h"⟩, 1, 1⟩ "in front",
        .at .error ⟨⟨"/s/a.cpp"⟩, 4, 1⟩ "boom", .at .note ⟨⟨"/s/a.h"⟩, 2, 1⟩ "here",
        .at .note ⟨⟨"/s/a.h"⟩, 2, 1⟩ "here"] gs ∧
      collect ⟨⟨"/s"⟩, .identity ⟨"/s/a.cpp"⟩⟩ [.at .note ⟨⟨"/s/a.h"⟩, 1, 1⟩ "in front",
        .at .error ⟨⟨"/s/a.cpp"⟩, 4, 1⟩ "boom", .at .note ⟨⟨"/s/a.h"⟩, 2, 1⟩ "here",
        .at .note ⟨⟨"/s/a.h"⟩, 2, 1⟩ "here"] =
      [⟨⟨⟨"/s/a.cpp"⟩, 4, 1⟩, .error, "boom", [⟨⟨⟨"/s/a.h"⟩, 2, 1⟩, .note, "here", []⟩]⟩] := by
  have hcut : CutsInto [.at .note ⟨⟨"/s/a.h"⟩, 1, 1⟩ "in front",
      .at .error ⟨⟨"/s/a.cpp"⟩, 4, 1⟩ "boom", .at .note ⟨⟨"/s/a.h"⟩, 2, 1⟩ "here",
      .at .note ⟨⟨"/s/a.h"⟩, 2, 1⟩ "here"]
      [⟨.at .error ⟨⟨"/s/a.cpp"⟩, 4, 1⟩ "boom", [.at .note ⟨⟨"/s/a.h"⟩, 2, 1⟩ "here",
        .at .note ⟨⟨"/s/a.h"⟩, 2, 1⟩ "here"], rfl, by simp; rfl⟩] :=
    ⟨[.at .note ⟨⟨"/s/a.h"⟩, 1, 1⟩ "in front"], by simp; rfl, rfl⟩
  refine ⟨_, hcut, ((collect_eq_mergeSort _ _).2 _ hcut).trans ?_⟩
  rw [List.filterMap_cons]
  exact List.mergeSort_singleton _

end Scope

end SketchSense
