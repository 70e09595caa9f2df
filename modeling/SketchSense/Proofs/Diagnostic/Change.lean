import Mathlib.Data.List.Induction
import SketchSense.Diagnostic.Change
import SketchSense.Proofs.FilePath.Normal
import SketchSense.Proofs.Hash.Fields
import SketchSense.Proofs.Table

/-!
# Which changes of diagnostics are seen

Of diagnostics all is hashed at every level of their notes, but of a severity only its rank in reports.
So the hashed bytes tell diagnostics apart up to severities of one rank, and a change is missed if such
severities are exchanged, and apart from collisions only then.

* `treeInduction`, and `Everywhere`, what holds at every level of a diagnostic;
* `Diagnostic.ranked`, a diagnostic with severities that stand for their rank;
* `bytes_append_inj` and `listBytes_eq_iff`, what the hashed bytes tell apart;
* `ChangeNotifier.observeAll`, and `get?_observeAll`, what is remembered of all that was observed;
* `ChangeNotifier.sees_every_change_iff`, among which severities every change is seen.
-/

namespace SketchSense

open ContentHash

/-- The severity that stands for those of its rank. -/
def Severity.ranked : Severity → Severity
  | error | fatal => error
  | warning => warning
  | ignored | note => note

theorem Severity.ranked_eq_iff (s t : Severity) : s.ranked = t.ranked ↔ s.rank = t.rank := by
  cases s <;> cases t <;> decide

theorem Severity.rank_lt (s : Severity) : s.rank < 2 ^ 64 := by
  cases s <;> decide

namespace Diagnostic

/-! ## Levels of notes -/

/-- What holds of a diagnostic if it holds of its children holds of every diagnostic. -/
theorem treeInduction {P : Diagnostic → Prop} (h : ∀ d, (∀ c ∈ d.children, P c) → P d)
    (d : Diagnostic) : P d :=
  @Diagnostic.rec P (fun cs => ∀ c ∈ cs, P c) (fun _ _ _ _ hchildren => h _ hchildren)
    (fun _ hc => absurd hc List.not_mem_nil)
    (fun _ _ hhead htail => List.forall_mem_cons.2 ⟨hhead, htail⟩) d

/-- `P` holds of the diagnostic and of its children at every level. -/
inductive Everywhere (P : Diagnostic → Prop) : Diagnostic → Prop
  | intro {d : Diagnostic} (here : P d) (below : ∀ c ∈ d.children, Everywhere P c) : Everywhere P d

mutual

/-- The diagnostic with severities that stand for their rank, at every level. -/
def ranked : Diagnostic → Diagnostic
  | ⟨location, severity, message, children⟩ =>
    ⟨location, severity.ranked, message, rankedList children⟩

def rankedList : List Diagnostic → List Diagnostic
  | [] => []
  | d :: ds => ranked d :: rankedList ds

end

theorem rankedList_eq_map (ds : List Diagnostic) : rankedList ds = ds.map ranked := by
  induction ds with
  | nil => rfl
  | cons d ds ih => rw [rankedList, ih, List.map_cons]

theorem childBytes_eq_flatMap (ds : List Diagnostic) : childBytes ds = ds.flatMap bytes := by
  induction ds with
  | nil => rfl
  | cons d ds ih => rw [childBytes, ih, List.flatMap_cons]

variable {d e : Diagnostic} {ds es : List Diagnostic}

theorem ranked_eq (d : Diagnostic) :
    d.ranked = ⟨d.location, d.severity.ranked, d.message, d.children.map ranked⟩ := by
  obtain ⟨location, severity, message, children⟩ := d
  rw [ranked, rankedList_eq_map]

theorem bytes_eq (d : Diagnostic) : d.bytes =
    textField d.location.file.display ++ (textField d.message ++ (numberField d.location.line ++
      (numberField d.location.column ++ (numberField d.severity.rank ++
        (numberField d.children.length ++ d.children.flatMap bytes))))) := by
  obtain ⟨location, severity, message, children⟩ := d
  simp only [bytes, childBytes_eq_flatMap, List.append_assoc]

/-! ## What the bytes tell apart -/

/-- A diagnostic as it is reported: its texts hold no zero character and its path no backslash, its
line and column are words of 32 bits and the number of its children one of 64, and its severity is
one of `S`. -/
structure IsClean (S : Severity → Prop) (d : Diagnostic) : Prop where
  severity : S d.severity
  noZero : '\x00' ∉ d.location.file.text.toList
  noBackslash : '\\' ∉ d.location.file.text.toList
  message : '\x00' ∉ d.message.toList
  line : d.location.line < 2 ^ 32
  column : d.location.column < 2 ^ 32
  children : d.children.length < 2 ^ 64

/-- Diagnostics that are clean at every level. -/
structure AreClean (S : Severity → Prop) (ds : List Diagnostic) : Prop where
  length : ds.length < 2 ^ 64
  entries : ∀ d ∈ ds, d.Everywhere (IsClean S)

variable {S : Severity → Prop}

/-- Lists of one length are read off the front if their entries are. -/
theorem flatMap_bytes_append_inj (hlength : ds.length = es.length)
    (hread : ∀ d ∈ ds, ∀ e ∈ es, ∀ as bs, d.bytes ++ as = e.bytes ++ bs →
      d.ranked = e.ranked ∧ as = bs) {as bs : List UInt8}
    (h : ds.flatMap bytes ++ as = es.flatMap bytes ++ bs) :
    ds.map ranked = es.map ranked ∧ as = bs := by
  induction ds generalizing es with
  | nil =>
    obtain rfl := List.length_eq_zero_iff.1 hlength.symm
    exact ⟨rfl, h⟩
  | cons d ds ih =>
    cases es with
    | nil => cases hlength
    | cons e es =>
      rw [List.flatMap_cons, List.flatMap_cons, List.append_assoc, List.append_assoc] at h
      obtain ⟨hhead, h⟩ := hread d List.mem_cons_self e List.mem_cons_self _ _ h
      obtain ⟨htail, hrest⟩ := ih (Nat.succ.inj hlength) (fun d' hd' e' he' =>
        hread d' (List.mem_cons_of_mem _ hd') e' (List.mem_cons_of_mem _ he')) h
      exact ⟨by rw [List.map_cons, List.map_cons, hhead, htail], hrest⟩

/-- A clean diagnostic is read off the front, up to severities of one rank. -/
theorem bytes_append_inj (hd : d.Everywhere (IsClean S)) (he : e.Everywhere (IsClean S))
    {as bs : List UInt8} (h : d.bytes ++ as = e.bytes ++ bs) : d.ranked = e.ranked ∧ as = bs := by
  induction d using treeInduction generalizing e as bs with
  | h d ih =>
    obtain ⟨hd, hchildren⟩ := hd
    obtain ⟨he, hchildren'⟩ := he
    have hwide {n : Nat} (hn : n < 2 ^ 32) : n < 2 ^ 64 := Nat.lt_trans hn (by decide)
    rw [bytes_eq, bytes_eq] at h
    simp only [List.append_assoc] at h
    -- every field says where it ends, and the number of the children how many of them follow
    obtain ⟨hfile, h⟩ := textField_append_inj (FilePath.not_mem_display (by decide) hd.noZero)
      (FilePath.not_mem_display (by decide) he.noZero) h
    obtain ⟨hmessage, h⟩ := textField_append_inj hd.message he.message h
    obtain ⟨hline, h⟩ := numberField_append_inj (hwide hd.line) (hwide he.line) h
    obtain ⟨hcolumn, h⟩ := numberField_append_inj (hwide hd.column) (hwide he.column) h
    obtain ⟨hrank, h⟩ := numberField_append_inj (Severity.rank_lt _) (Severity.rank_lt _) h
    obtain ⟨hlength, h⟩ := numberField_append_inj hd.children he.children h
    obtain ⟨hsame, hrest⟩ := flatMap_bytes_append_inj hlength (fun c hc c' hc' _ _ =>
      ih c hc (hchildren c hc) (hchildren' c' hc')) h
    refine ⟨?_, hrest⟩
    rw [FilePath.display_eq_text hd.noBackslash, FilePath.display_eq_text he.noBackslash] at hfile
    have hlocation : d.location = e.location := by
      show Location.mk ⟨d.location.file.text⟩ d.location.line d.location.column =
        ⟨⟨e.location.file.text⟩, e.location.line, e.location.column⟩
      rw [hfile, hline, hcolumn]
    rw [ranked_eq, ranked_eq, hlocation, (Severity.ranked_eq_iff _ _).2 hrank, hmessage, hsame]

/-- Of severities only the rank is hashed. -/
theorem bytes_ranked (d : Diagnostic) : d.ranked.bytes = d.bytes := by
  induction d using treeInduction with
  | h d ih =>
    have hrank : d.severity.ranked.rank = d.severity.rank :=
      (Severity.ranked_eq_iff _ _).1 (by cases d.severity <;> rfl)
    have hchildren : (d.children.map ranked).flatMap bytes = d.children.flatMap bytes := by
      rw [List.flatMap_map]
      exact List.flatMap_congr ih
    rw [ranked_eq, bytes_eq, bytes_eq, List.length_map, hrank, hchildren]

/-- The bytes of clean diagnostics are the same exactly if the diagnostics are, up to severities of
one rank. -/
theorem listBytes_eq_iff (hds : AreClean S ds) (hes : AreClean S es) :
    listBytes ds = listBytes es ↔ ds.map ranked = es.map ranked := by
  unfold listBytes
  rw [childBytes_eq_flatMap, childBytes_eq_flatMap]
  constructor
  · intro h
    obtain ⟨hlength, hchildren⟩ := numberField_append_inj hds.length hes.length h
    have hends : ds.flatMap bytes ++ [] = es.flatMap bytes ++ [] := by rw [hchildren]
    exact (flatMap_bytes_append_inj hlength (fun d hd e he _ _ =>
      bytes_append_inj (hds.entries d hd) (hes.entries e he)) hends).1
  · intro h
    have hlength : ds.length = es.length := by
      rw [← List.length_map (f := ranked), h, List.length_map]
    have hbytes (cs : List Diagnostic) : (cs.map ranked).flatMap bytes = cs.flatMap bytes := by
      rw [List.flatMap_map]
      exact List.flatMap_congr fun c _ => bytes_ranked c
    rw [hlength, ← hbytes ds, h, hbytes es]

/-- Lists with the same images are the same, if their entries are. -/
theorem eq_of_map_ranked_eq (hinj : ∀ d ∈ ds, ∀ e ∈ es, d.ranked = e.ranked → d = e)
    (h : ds.map ranked = es.map ranked) : ds = es := by
  induction ds generalizing es with
  | nil => exact (List.map_eq_nil_iff.1 h.symm).symm
  | cons d ds ih =>
    cases es with
    | nil => cases h
    | cons e es =>
      obtain ⟨hhead, htail⟩ := List.cons.inj h
      rw [hinj d List.mem_cons_self e List.mem_cons_self hhead, ih (fun d' hd' e' he' =>
        hinj d' (List.mem_cons_of_mem _ hd') e' (List.mem_cons_of_mem _ he')) htail]

/-- Among severities of which no two have one rank, the rank says which it is. -/
theorem eq_of_ranked_eq (hS : ∀ s t, S s → S t → s.rank = t.rank → s = t)
    (hd : d.Everywhere (IsClean S)) (he : e.Everywhere (IsClean S)) (h : d.ranked = e.ranked) :
    d = e := by
  induction d using treeInduction generalizing e with
  | h d ih =>
    obtain ⟨hd, hchildren⟩ := hd
    obtain ⟨he, hchildren'⟩ := he
    rw [ranked_eq, ranked_eq] at h
    obtain ⟨hlocation, hranked, hmessage, hsame⟩ := Diagnostic.mk.inj h
    have hseverity := hS _ _ hd.severity he.severity ((Severity.ranked_eq_iff _ _).1 hranked)
    have hchildren := eq_of_map_ranked_eq (fun c hc c' hc' =>
      ih c hc (hchildren c hc) (hchildren' c' hc')) hsame
    obtain ⟨location, severity, message, children⟩ := d
    obtain ⟨location', severity', message', children'⟩ := e
    dsimp only at hlocation hseverity hmessage hchildren
    rw [hlocation, hseverity, hmessage, hchildren]

/-- One message, taken as serious as `severity` says. -/
def messageInA (severity : Severity) : Diagnostic := ⟨⟨⟨"/s/a.cpp"⟩, 1, 1⟩, severity, "x", []⟩

theorem areClean_messageInA {severity : Severity} (h : S severity) :
    AreClean S [messageInA severity] where
  length := (by decide : 1 < 2 ^ 64)
  entries := List.forall_mem_singleton.2 (.intro
    ⟨h, (by decide : '\x00' ∉ "/s/a.cpp".toList), (by decide : '\\' ∉ "/s/a.cpp".toList),
      (by decide : '\x00' ∉ "x".toList), (by decide : 1 < 2 ^ 32), (by decide : 1 < 2 ^ 32),
      (by decide : 0 < 2 ^ 64)⟩
    fun _ hc => absurd hc List.not_mem_nil)

/-- A message is hashed alike with severities of one rank. -/
theorem listBytes_messageInA {s t : Severity} (h : s.rank = t.rank) :
    listBytes [messageInA s] = listBytes [messageInA t] := by
  have hclean (u : Severity) : AreClean (fun _ => True) [messageInA u] := areClean_messageInA trivial
  rw [listBytes_eq_iff (hclean s) (hclean t), List.map_singleton, List.map_singleton, ranked_eq,
    ranked_eq, messageInA, messageInA, (Severity.ranked_eq_iff s t).2 h]

end Diagnostic

/-! ## What a notifier sees -/

namespace ChangeNotifier

variable {n : ChangeNotifier} {channel other : FilePath} {ds : List Diagnostic}

/-- Diagnostics are unchanged if those before on the channel have the same hash. -/
theorem observe_eq_false_iff :
    (n.observe channel ds).1 = false ↔ n.last.get? channel = some (Diagnostic.listHash ds) :=
  bne_eq_false_iff_eq

theorem get?_observe_of_ne (h : (channel == other) = false) :
    (n.observe channel ds).2.last.get? other = n.last.get? other :=
  Table.get?_insert_of_ne n.last h _

/-- What is looked at is remembered under every spelling of its channel. -/
theorem get?_observe_of_beq (h : (channel == other) = true) :
    (n.observe channel ds).2.last.get? other = some (Diagnostic.listHash ds) :=
  (Table.get?_eq_of_beq _ h).symm.trans (Table.get?_insert_self n.last channel _)

/-- The notifier after diagnostics were observed on some channels, one after the other. -/
def observeAll (n : ChangeNotifier) (seen : List (FilePath × List Diagnostic)) : ChangeNotifier :=
  seen.foldl (fun n o => (n.observe o.1 o.2).2) n

/-- The diagnostics that were observed last on a channel. -/
def lastOn? (channel : FilePath) (seen : List (FilePath × List Diagnostic)) :
    Option (List Diagnostic) :=
  ((seen.filter (·.1 == channel)).map (·.2)).getLast?

/-- Of all that was observed a new notifier remembers on every channel the last. -/
theorem get?_observeAll (channel : FilePath) (seen : List (FilePath × List Diagnostic)) :
    (observeAll {} seen).last.get? channel = (lastOn? channel seen).map Diagnostic.listHash := by
  induction seen using List.reverseRecOn with
  | nil => rfl
  | append_singleton seen o ih =>
    unfold observeAll lastOn? at *
    rw [List.foldl_append, List.filter_append, List.map_append, List.foldl_cons, List.foldl_nil]
    cases hchannel : o.1 == channel with
    | true => simp [hchannel, get?_observe_of_beq hchannel]
    | false => simp [hchannel, get?_observe_of_ne hchannel, ih]

/-- What was observed last on a channel was observed. -/
theorem exists_of_lastOn? {seen : List (FilePath × List Diagnostic)}
    (h : lastOn? channel seen = some ds) : ∃ o ∈ seen, o.2 = ds := by
  obtain ⟨o, ho, hds⟩ := List.mem_map.1 (List.mem_of_getLast? h)
  exact ⟨o, (List.mem_filter.1 ho).1, hds⟩

/-- Among the severities `S`, the bytes of clean diagnostics tell every change, and whatever a notifier
has observed, it reports diagnostics as unchanged only if the last on the channel were the same,
collisions apart; exactly if no two of these severities have one rank. -/
theorem sees_every_change_iff (S : Severity → Prop) :
    (∀ s t, S s → S t → s.rank = t.rank → s = t) ↔
      (∀ ds es, Diagnostic.AreClean S ds → Diagnostic.AreClean S es →
        Diagnostic.listBytes ds = Diagnostic.listBytes es → ds = es) ∧
      ∀ (seen : List (FilePath × List Diagnostic)) channel ds,
        (∀ o ∈ seen, Diagnostic.AreClean S o.2) → Diagnostic.AreClean S ds →
        CollisionFree (Diagnostic.listBytes ds :: seen.map fun o => Diagnostic.listBytes o.2) →
        ((observeAll {} seen).observe channel ds).1 = false → lastOn? channel seen = some ds := by
  constructor
  · intro hS
    have htells {ds es : List Diagnostic} (hds : Diagnostic.AreClean S ds)
        (hes : Diagnostic.AreClean S es)
        (h : Diagnostic.listBytes ds = Diagnostic.listBytes es) : ds = es :=
      Diagnostic.eq_of_map_ranked_eq (fun d hd e he =>
        Diagnostic.eq_of_ranked_eq hS (hds.entries d hd) (hes.entries e he))
        ((Diagnostic.listBytes_eq_iff hds hes).1 h)
    refine ⟨fun _ _ => htells, fun seen channel ds hseen hds hfree hunchanged => ?_⟩
    rw [observe_eq_false_iff, get?_observeAll] at hunchanged
    -- what was observed last on the channel has the same hash, so it has the same bytes
    obtain ⟨es, hlast, hhash⟩ := Option.map_eq_some_iff.1 hunchanged
    obtain ⟨o, ho, rfl⟩ := exists_of_lastOn? hlast
    have hbytes := hfree _ (List.mem_cons_of_mem _ (List.mem_map_of_mem ho)) _ List.mem_cons_self hhash
    rw [hlast, htells (hseen o ho) hds hbytes]
  · -- one message with each of the severities has the same bytes
    rintro ⟨htells, -⟩ s t hs ht hrank
    have hsame := htells _ _ (Diagnostic.areClean_messageInA hs) (Diagnostic.areClean_messageInA ht)
      (Diagnostic.listBytes_messageInA hrank)
    exact (Diagnostic.mk.inj (List.cons.inj hsame).1).2.1

/-- A warning in the place of an error is seen. -/
theorem sees_warning_for_error :
    ((observeAll {} [(⟨"/s/a.cpp"⟩, [.messageInA .error])]).observe ⟨"/s/a.cpp"⟩
      [.messageInA .warning]).1 = true := by
  have hrank : ∀ s ∈ [Severity.error, .warning, .note], ∀ t ∈ [Severity.error, .warning, .note],
      s.rank = t.rank → s = t := by decide
  have hseen := ((sees_every_change_iff (· ∈ [Severity.error, .warning, .note])).1
      fun s t hs ht => hrank s hs t ht).2
    [(⟨"/s/a.cpp"⟩, [.messageInA .error])] ⟨"/s/a.cpp"⟩ [.messageInA .warning]
    (List.forall_mem_singleton.2 (Diagnostic.areClean_messageInA (by decide)))
    (Diagnostic.areClean_messageInA (by decide))
    (by
      unfold CollisionFree
      decide +kernel)
  by_contra hunchanged
  have hlast := hseen (Bool.eq_false_iff.2 hunchanged)
  cases hlast

/-- A fatal error in the place of an error is not seen, though nothing is the matter with either and
they are hashed without a collision. -/
theorem misses_fatal_for_error :
    Diagnostic.AreClean (fun _ => True) [.messageInA .error] ∧
      Diagnostic.AreClean (fun _ => True) [.messageInA .fatal] ∧
      [Diagnostic.messageInA .error] ≠ [.messageInA .fatal] ∧
      Diagnostic.listBytes [.messageInA .error] = Diagnostic.listBytes [.messageInA .fatal] ∧
      ((observeAll {} [(⟨"/s/a.cpp"⟩, [.messageInA .error])]).observe ⟨"/s/a.cpp"⟩
        [.messageInA .fatal]).1 = false := by
  have hbytes : Diagnostic.listBytes [.messageInA .error] =
      Diagnostic.listBytes [.messageInA .fatal] := Diagnostic.listBytes_messageInA rfl
  refine ⟨Diagnostic.areClean_messageInA trivial, Diagnostic.areClean_messageInA trivial,
    (nomatch ·), hbytes, ?_⟩
  rw [observe_eq_false_iff, get?_observeAll]
  exact congrArg (fun bytes => some (ContentHash.ofBytes bytes)) hbytes

end ChangeNotifier
end SketchSense
