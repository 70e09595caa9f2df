import SketchSense.Proofs.Hash.Fields
import SketchSense.Skeleton

/-!
# What a body leaves in a skeleton

The scan passes over a body whose comments, literals and braces are closed and comes back to where it
was. What it leaves is not nothing, though: blank space is collapsed wherever a line ends, so a body
with a line break leaves a space between its braces, and one without leaves none.

* `SelfContained`, texts in which all comments, literals and braces are closed;
* `Scan.across`, what is left of a text of which only the line breaks count, and
  `SelfContained.runInto_eq`, that the scan of a body is no more than that;
* `Scan.SameAbove`, that the scans after two bodies go on alike, and `text_eq_iff`, that two
  bodies leave the same text exactly if both have line breaks or none has.
-/

namespace SketchSense.Skeleton

/-! ## Closed texts -/

/-- What may stand between the quotes of a literal. A backslash takes the meaning from the next
character that is not the end of a line. -/
inductive LiteralText (quote : Char) : List Char → Prop
  | nil : LiteralText quote []
  | plain {c : Char} {text : List Char} (hquote : c ≠ quote) (hslash : c ≠ '\\')
      (h : LiteralText quote text) : LiteralText quote (c :: text)
  | escape (breaks : Nat) {c : Char} {text : List Char} (hc : c ≠ '\n')
      (h : LiteralText quote text) :
      LiteralText quote ('\\' :: (List.replicate breaks '\n' ++ c :: text))

/-- Texts in which all comments, literals and braces are closed. -/
inductive SelfContained : List Char → Prop
  | nil : SelfContained []
  | plain {c : Char} {rest : List Char} (hc : c ∉ ['{', '}', '"', '\'', '/'])
      (h : SelfContained rest) : SelfContained (c :: rest)
  /-- A slash that opens no comment. -/
  | slash {rest : List Char} (hrest : rest.head? ≠ some '/' ∧ rest.head? ≠ some '*')
      (h : SelfContained rest) : SelfContained ('/' :: rest)
  | lineComment {text rest : List Char} (htext : '\n' ∉ text) (h : SelfContained rest) :
      SelfContained ('/' :: '/' :: (text ++ '\n' :: rest))
  | blockComment {text rest : List Char} (htext : ¬ ['*', '/'] <:+: text) (h : SelfContained rest) :
      SelfContained ('/' :: '*' :: (text ++ '*' :: '/' :: rest))
  | literal {quote : Char} {text rest : List Char} (hquote : quote = '"' ∨ quote = '\'')
      (htext : LiteralText quote text) (h : SelfContained rest) :
      SelfContained (quote :: (text ++ quote :: rest))
  | block {body rest : List Char} (hbody : SelfContained body) (h : SelfContained rest) :
      SelfContained ('{' :: (body ++ '}' :: rest))

namespace Scan

variable {s t : Scan} {c : Char} {cs text rest : List Char}

/-! ## Scans of parts -/

/-- The scan of a part of a text, with `rest` behind it. -/
def runInto (s : Scan) (rest : List Char) : List Char → Scan
  | [] => s
  | c :: cs => runInto (s.step c (cs ++ rest).head?) rest cs

theorem run_append (s : Scan) (cs rest : List Char) :
    s.run (cs ++ rest) = (s.runInto rest cs).run rest := by
  induction cs generalizing s with
  | nil => rfl
  | cons c cs ih => exact ih _

theorem runInto_append (s : Scan) (rest cs ds : List Char) :
    s.runInto rest (cs ++ ds) = (s.runInto (ds ++ rest) cs).runInto rest ds := by
  induction cs generalizing s with
  | nil => rfl
  | cons c cs ih =>
    show runInto (s.step c ((cs ++ ds) ++ rest).head?) rest (cs ++ ds) = _
    rw [List.append_assoc]
    exact ih _

/-- Of what is behind the part only the first character is in sight. -/
theorem runInto_congr {rest rest' : List Char} (h : rest.head? = rest'.head?) (s : Scan)
    (cs : List Char) : s.runInto rest cs = s.runInto rest' cs := by
  induction cs generalizing s with
  | nil => rfl
  | cons c cs ih =>
    have hnext : (cs ++ rest).head? = (cs ++ rest').head? := by
      rw [List.head?_append, List.head?_append, h]
    show runInto (s.step c _) rest cs = runInto (s.step c _) rest' cs
    rw [hnext]
    exact ih _

/-! ## Line breaks -/

/-- A skeleton, last character first, with one space at its end. -/
def spaced (written : List Char) : List Char :=
  if written.head? = some ' ' then written else ' ' :: written

theorem space_eq (s : Scan) : s.space = { s with written := spaced s.written } := by
  unfold space spaced
  split <;> rfl

theorem spaced_spaced (written : List Char) : spaced (spaced written) = spaced written := by
  have hhead : (spaced written).head? = some ' ' := by
    unfold spaced
    split
    · assumption
    · rfl
  rw [spaced, if_pos hhead]

/-- What is left of a text of which only the ends of its lines count. -/
def across (s : Scan) (text : List Char) : Scan :=
  { s with
    line := s.line + text.count '\n'
    written := if '\n' ∈ text then spaced s.written else s.written }

theorem across_append (s : Scan) (cs ds : List Char) :
    s.across (cs ++ ds) = (s.across cs).across ds := by
  unfold across
  simp only [List.count_append, List.mem_append, Nat.add_assoc]
  by_cases hcs : '\n' ∈ cs
  · by_cases hds : '\n' ∈ ds
    · simp [hcs, hds, spaced_spaced]
    · simp [hcs, hds]
  · simp [hcs]

theorem across_of_not_mem (s : Scan) (h : '\n' ∉ text) : s.across text = s := by
  unfold across
  rw [if_neg h, List.count_eq_zero.2 h]
  rfl

@[simp] theorem across_nil (s : Scan) : s.across [] = s := s.across_of_not_mem List.not_mem_nil

theorem across_cons_of_ne (s : Scan) (h : c ≠ '\n') (cs : List Char) :
    s.across (c :: cs) = s.across cs := by
  have hc : s.across [c] = s := s.across_of_not_mem (by simpa using h.symm)
  rw [← List.singleton_append, across_append, hc]

/-- The end of a line ends a line comment, too. -/
theorem step_newline (s : Scan) (next : Option Char) :
    s.step '\n' next =
      { s.across ['\n'] with region := if s.region = .lineComment then .code else s.region } := by
  unfold step newline
  rw [if_pos rfl, space_eq]
  rfl

/-! ## Comments, literals and bodies -/

theorem runInto_lineComment (h : '\n' ∉ text) :
    { s with region := .lineComment }.runInto rest text = { s with region := .lineComment } := by
  induction text with
  | nil => rfl
  | cons c cs ih =>
    rw [List.mem_cons, not_or] at h
    have hstep (next : Option Char) : { s with region := .lineComment }.step c next =
        { s with region := .lineComment } := if_neg (Ne.symm h.1)
    show runInto ({ s with region := .lineComment }.step c _) rest cs = _
    rw [hstep]
    exact ih h.2

/-- Only `*/` ends a block comment. -/
theorem runInto_blockComment (h : ¬ ['*', '/'] <:+: text) (hrest : rest.head? ≠ some '/') :
    { s with region := .blockComment }.runInto rest text =
      { s.across text with region := .blockComment } := by
  induction text generalizing s with
  | nil =>
    rw [across_nil]
    rfl
  | cons c cs ih =>
    have hcs : ¬ ['*', '/'] <:+: cs := fun hin => h (hin.trans (List.suffix_cons c cs).isInfix)
    show runInto ({ s with region := .blockComment }.step c (cs ++ rest).head?) rest cs = _
    by_cases hc : c = '\n'
    · subst hc
      rw [step_newline]
      show runInto { s.across ['\n'] with region := .blockComment } rest cs = _
      rw [ih hcs, ← across_append]
      rfl
    · have hopen : ¬ (c = '*' ∧ (cs ++ rest).head? = some '/') := by
        rintro ⟨rfl, hnext⟩
        cases cs with
        | nil => exact hrest hnext
        | cons d ds =>
          cases hnext
          exact h (List.prefix_append ['*', '/'] ds).isInfix
      have hstep : { s with region := .blockComment }.step c (cs ++ rest).head? =
          { s with region := .blockComment } := by
        unfold step
        rw [if_neg hc]
        exact if_neg hopen
      rw [hstep, ih hcs, across_cons_of_ne s hc]

/-- Breaks do not count as the character after a backslash. -/
theorem runInto_breaks (quote : Char) (escaped : Bool) (n : Nat) :
    { s with region := .literal quote escaped }.runInto rest (List.replicate n '\n') =
      { s.across (List.replicate n '\n') with region := .literal quote escaped } := by
  induction n generalizing s with
  | zero =>
    rw [List.replicate_zero, across_nil]
    rfl
  | succ n ih =>
    show runInto ({ s with region := .literal quote escaped }.step '\n' _) rest _ = _
    rw [step_newline]
    show runInto { s.across ['\n'] with region := .literal quote escaped } rest _ = _
    rw [ih, ← across_append]
    rfl

theorem runInto_literal {quote : Char} (hquote : quote ≠ '\\') (h : LiteralText quote text) :
    { s with region := .literal quote false }.runInto rest text =
      { s.across text with region := .literal quote false } := by
  induction h generalizing s with
  | nil =>
    rw [across_nil]
    rfl
  | @plain c text hc hslash _ ih =>
    show runInto ({ s with region := .literal quote false }.step c _) rest text = _
    by_cases hbreak : c = '\n'
    · subst hbreak
      rw [step_newline]
      show runInto { s.across ['\n'] with region := .literal quote false } rest text = _
      rw [ih, ← across_append]
      rfl
    · have hstep (next : Option Char) : { s with region := .literal quote false }.step c next =
          { s with region := .literal quote false } := by
        unfold step
        rw [if_neg hbreak]
        simp [hc, hslash]
      rw [hstep, ih, across_cons_of_ne s hbreak]
  | @escape breaks c text hc _ ih =>
    have hslash (next : Option Char) : { s with region := .literal quote false }.step '\\' next =
        { s with region := .literal quote true } := by
      unfold step
      rw [if_neg (by decide)]
      simp [hquote.symm]
    have hescaped (t : Scan) (next : Option Char) :
        { t with region := .literal quote true }.step c next =
          { t with region := .literal quote false } := by
      unfold step
      rw [if_neg hc]
      simp
    show runInto ({ s with region := .literal quote false }.step '\\' _) rest _ = _
    rw [hslash, runInto_append, runInto_breaks]
    show runInto ({ s.across _ with region := .literal quote true }.step c _) rest text = _
    rw [hescaped, ih, across_cons_of_ne s (by decide), across_append, across_cons_of_ne _ hc]

/-- The scan stands in the code of a body. -/
structure IsInBody (s : Scan) : Prop where
  region : s.region = .code
  depth : 0 < s.depth

theorem IsInBody.across (h : s.IsInBody) (text : List Char) : (s.across text).IsInBody :=
  ⟨h.region, h.depth⟩

theorem eq_of_region (hregion : s.region = .code) : { s with region := .code } = s := by
  rw [← hregion]

/-- In a body only braces count, and what opens a comment or a literal. -/
theorem step_body (h : s.IsInBody) (hc : c ≠ '\n') {next : Option Char}
    (hopened : opened? c next = none) : s.step c next = s.inBody c := by
  unfold step
  rw [if_neg hc, h.region]
  dsimp only
  unfold inCode
  rw [hopened]
  exact if_pos h.depth

theorem step_opened (hregion : s.region = .code) (hc : c ≠ '\n') {next : Option Char}
    {region : Region} (hopened : opened? c next = some region) :
    s.step c next = { s with region } := by
  unfold step
  rw [if_neg hc, hregion]
  dsimp only
  unfold inCode
  rw [hopened]

/-! ### One item of a body -/

theorem runInto_plain (h : s.IsInBody) (hc : c ∉ ['{', '}', '"', '\'', '/']) :
    s.runInto rest (c :: text) = (s.across [c]).runInto rest text := by
  show runInto (s.step c _) rest text = _
  by_cases hbreak : c = '\n'
  · subst hbreak
    rw [step_newline, if_neg (by rw [h.region]; decide)]
    rfl
  · simp only [List.mem_cons, List.not_mem_nil, or_false, not_or] at hc
    obtain ⟨hopen, hclose, hdouble, hsingle, hslash⟩ := hc
    have hopened (next : Option Char) : opened? c next = none := by
      simp [opened?, hslash, hdouble, hsingle]
    have hbody : s.inBody c = s := by
      unfold inBody
      rw [if_neg hopen, if_neg hclose]
    rw [step_body h hbreak (hopened _), hbody, across_cons_of_ne s hbreak, across_nil]

theorem runInto_slash (h : s.IsInBody) (htext : text.head? ≠ some '/' ∧ text.head? ≠ some '*')
    (hrest : rest.head? ≠ some '/' ∧ rest.head? ≠ some '*') :
    s.runInto rest ('/' :: text) = s.runInto rest text := by
  have hopened : opened? '/' (text ++ rest).head? = none := by
    cases text with
    | nil => simp [opened?, hrest.1, hrest.2]
    | cons d ds =>
      have hd : d ≠ '/' ∧ d ≠ '*' := by simpa using htext
      simp [opened?, hd.1, hd.2]
  have hbody : s.inBody '/' = s := rfl
  show runInto (s.step '/' (text ++ rest).head?) rest text = _
  rw [step_body h (by decide) hopened, hbody]

theorem runInto_closedLineComment (h : s.IsInBody) {comment : List Char}
    (hcomment : '\n' ∉ comment) :
    s.runInto rest ('/' :: '/' :: (comment ++ '\n' :: text)) =
      (s.across ['\n']).runInto rest text := by
  have hslash (next : Option Char) : { s with region := .lineComment }.step '/' next =
      { s with region := .lineComment } := rfl
  show runInto ((s.step '/' (some '/')).step '/' _) rest (comment ++ '\n' :: text) = _
  rw [step_opened h.region (by decide) rfl, hslash, runInto_append, runInto_lineComment hcomment]
  show runInto ({ s with region := .lineComment }.step '\n' _) rest text = _
  rw [step_newline]
  show runInto { s.across ['\n'] with region := .code } rest text = _
  rw [eq_of_region (s := s.across ['\n']) h.region]

theorem runInto_closedBlockComment (h : s.IsInBody) {comment : List Char}
    (hcomment : ¬ ['*', '/'] <:+: comment) :
    s.runInto rest ('/' :: '*' :: (comment ++ '*' :: '/' :: text)) =
      (s.across comment).runInto rest text := by
  have hstar (next : Option Char) : { s with region := .blockOpening }.step '*' next =
      { s with region := .blockComment } := rfl
  show runInto ((s.step '/' (some '*')).step '*' _) rest (comment ++ '*' :: '/' :: text) = _
  rw [step_opened h.region (by decide) rfl, hstar, runInto_append,
    runInto_blockComment hcomment (by simp)]
  show runInto { s.across comment with region := .code } rest text = _
  rw [eq_of_region (s := s.across comment) h.region]

theorem runInto_closedLiteral (h : s.IsInBody) {quote : Char} {inner : List Char}
    (hquote : quote = '"' ∨ quote = '\'') (hinner : LiteralText quote inner) :
    s.runInto rest (quote :: (inner ++ quote :: text)) = (s.across inner).runInto rest text := by
  have hne : quote ≠ '\n' ∧ quote ≠ '\\' := by rcases hquote with rfl | rfl <;> decide
  have hopened (next : Option Char) : opened? quote next = some (.literal quote false) := by
    rcases hquote with rfl | rfl <;> rfl
  have hclosed (t : Scan) (next : Option Char) :
      { t with region := .literal quote false }.step quote next = { t with region := .code } := by
    unfold step
    rw [if_neg hne.1]
    simp
  show runInto (s.step quote _) rest (inner ++ quote :: text) = _
  rw [step_opened h.region hne.1 (hopened _), runInto_append, runInto_literal hne.2 hinner]
  show runInto ({ s.across inner with region := .literal quote false }.step quote _) rest text = _
  rw [hclosed, eq_of_region (s := s.across inner) h.region]

/-- The braces of a block in a body leave nothing, if the text between them leaves no more than its
ends of lines. -/
theorem runInto_block (h : s.IsInBody) {inner : List Char}
    (hinner : { s with depth := s.depth + 1 }.runInto ('}' :: (text ++ rest)) inner =
      { s with depth := s.depth + 1 }.across inner) :
    s.runInto rest ('{' :: (inner ++ '}' :: text)) = (s.across inner).runInto rest text := by
  have hopening (next : Option Char) : s.step '{' next = { s with depth := s.depth + 1 } :=
    step_body h (by decide) rfl
  -- the depth is at least two before the closing brace
  have hclosing (next : Option Char) :
      { s.across inner with depth := s.depth + 1 }.step '}' next = s.across inner := by
    rw [step_body (s := { s.across inner with depth := s.depth + 1 })
      ⟨h.region, Nat.succ_pos _⟩ (by decide) rfl]
    unfold inBody
    rw [if_neg (by decide), if_pos rfl]
    exact if_neg (Nat.pos_iff_ne_zero.1 h.depth)
  show runInto (s.step '{' _) rest (inner ++ '}' :: text) = _
  rw [hopening, runInto_append, List.cons_append, hinner]
  show runInto ({ s.across inner with depth := s.depth + 1 }.step '}' _) rest text = _
  rw [hclosing]

end Scan

open Scan

/-- The scan comes out of a closed text as it went in, but for the ends of lines. -/
theorem SelfContained.runInto_eq {text : List Char} (h : SelfContained text) {s : Scan}
    {rest : List Char} (hs : s.IsInBody)
    (hrest : rest.head? ≠ some '/' ∧ rest.head? ≠ some '*') :
    s.runInto rest text = s.across text := by
  induction h generalizing s rest with
  | nil => exact s.across_nil.symm
  | plain hc _ ih =>
    rw [runInto_plain hs hc, ih (hs.across _) hrest, ← across_append]
    rfl
  | slash hnext _ ih =>
    rw [runInto_slash hs hnext hrest, ih hs hrest, across_cons_of_ne s (by decide)]
  | @lineComment comment tail hcomment _ ih =>
    have hacross : s.across ('/' :: '/' :: (comment ++ '\n' :: tail)) =
        (s.across ['\n']).across tail := by
      rw [across_cons_of_ne s (by decide), across_cons_of_ne s (by decide), across_append,
        s.across_of_not_mem hcomment, ← across_append]
      rfl
    rw [runInto_closedLineComment hs hcomment, ih (hs.across _) hrest, hacross]
  | blockComment hcomment _ ih =>
    rw [runInto_closedBlockComment hs hcomment, ih (hs.across _) hrest,
      across_cons_of_ne s (by decide), across_cons_of_ne s (by decide), across_append,
      across_cons_of_ne _ (by decide), across_cons_of_ne _ (by decide)]
  | @literal quote _ _ hquote hinner _ ih =>
    have hbreak : quote ≠ '\n' := by rcases hquote with rfl | rfl <;> decide
    rw [runInto_closedLiteral hs hquote hinner, ih (hs.across _) hrest,
      across_cons_of_ne s hbreak, across_append, across_cons_of_ne _ hbreak]
  | block _ _ ihinner ih =>
    have hdeeper : { s with depth := s.depth + 1 }.IsInBody := ⟨hs.region, Nat.succ_pos _⟩
    rw [runInto_block hs (ihinner hdeeper ⟨by simp, by simp⟩), ih (hs.across _) hrest,
      across_cons_of_ne s (by decide), across_append, across_cons_of_ne _ (by decide)]

/-! ## Behind a body -/

namespace Scan

/-- Two scans differ in what they wrote up to a point, and in the lines they count. -/
structure SameAbove (base base' : List Char) (s t : Scan) : Prop where
  region : t.region = s.region
  depth : t.depth = s.depth
  bodyExpected : t.bodyExpected = s.bodyExpected
  written : ∃ c above, s.written = c :: (above ++ base) ∧ t.written = c :: (above ++ base')

namespace SameAbove

variable {base base' : List Char} {s t : Scan}

theorem with_region (h : SameAbove base base' s t) (region : Region) :
    SameAbove base base' { s with region } { t with region } :=
  ⟨rfl, h.depth, h.bodyExpected, h.written⟩

theorem push (h : SameAbove base base' s t) (c : Char) :
    SameAbove base base' (s.push c) (t.push c) := by
  obtain ⟨d, above, hs, ht⟩ := h.written
  refine ⟨h.region, h.depth, h.bodyExpected, c, d :: above, ?_, ?_⟩
  · exact congrArg (c :: ·) hs
  · exact congrArg (c :: ·) ht

theorem space (h : SameAbove base base' s t) : SameAbove base base' s.space t.space := by
  obtain ⟨d, above, hs, ht⟩ := h.written
  unfold Scan.space
  rw [hs, ht]
  by_cases hd : d = ' '
  · rw [hd]
    exact h
  · have hhead (tail : List Char) : (d :: tail).head? ≠ some ' ' := by simpa using hd
    rw [if_neg (hhead _), if_neg (hhead _)]
    exact h.push ' '

theorem newline (h : SameAbove base base' s t) : SameAbove base base' s.newline t.newline := by
  unfold Scan.newline
  rw [h.region]
  exact space ⟨rfl, h.depth, h.bodyExpected, h.written⟩

theorem inBody (h : SameAbove base base' s t) (c : Char) :
    SameAbove base base' (s.inBody c) (t.inBody c) := by
  unfold Scan.inBody
  rw [h.depth]
  by_cases hopen : c = '{'
  · rw [if_pos hopen, if_pos hopen]
    exact ⟨h.region, rfl, h.bodyExpected, h.written⟩
  · rw [if_neg hopen, if_neg hopen]
    by_cases hclose : c = '}'
    · have hless : SameAbove base base' { s with depth := s.depth - 1 }
          { t with depth := s.depth - 1 } := ⟨h.region, rfl, h.bodyExpected, h.written⟩
      rw [if_pos hclose, if_pos hclose]
      dsimp only
      by_cases hdepth : s.depth - 1 = 0
      · rw [if_pos hdepth, if_pos hdepth]
        exact hless.push '}'
      · rw [if_neg hdepth, if_neg hdepth]
        exact hless
    · rw [if_neg hclose, if_neg hclose]
      exact h

theorem inDeclaration (h : SameAbove base base' s t) (c : Char) :
    SameAbove base base' (s.inDeclaration c) (t.inDeclaration c) := by
  unfold Scan.inDeclaration
  rw [h.bodyExpected]
  refine push ?_ c
  by_cases hparen : c = ')'
  · rw [if_pos hparen, if_pos hparen]
    exact ⟨h.region, h.depth, rfl, h.written⟩
  · rw [if_neg hparen, if_neg hparen]
    by_cases hsemi : c = ';'
    · rw [if_pos hsemi, if_pos hsemi]
      exact ⟨h.region, h.depth, rfl, h.written⟩
    · rw [if_neg hsemi, if_neg hsemi]
      by_cases hopens : c = '{' ∧ s.bodyExpected = true
      · rw [if_pos hopens, if_pos hopens]
        exact ⟨h.region, rfl, rfl, h.written⟩
      · rw [if_neg hopens, if_neg hopens]
        exact h

theorem inCode (h : SameAbove base base' s t) (c : Char) (next : Option Char) :
    SameAbove base base' (s.inCode c next) (t.inCode c next) := by
  unfold Scan.inCode
  rw [h.depth]
  cases opened? c next with
  | some region => exact ⟨rfl, rfl, h.bodyExpected, h.written⟩
  | none =>
    dsimp only
    by_cases hdepth : s.depth > 0
    · rw [if_pos hdepth, if_pos hdepth]
      exact h.inBody c
    · rw [if_neg hdepth, if_neg hdepth]
      by_cases hspace : isSpace c = true
      · rw [if_pos hspace, if_pos hspace]
        exact h.space
      · rw [if_neg hspace, if_neg hspace]
        exact h.inDeclaration c

theorem step (h : SameAbove base base' s t) (c : Char) (next : Option Char) :
    SameAbove base base' (s.step c next) (t.step c next) := by
  unfold Scan.step
  by_cases hc : c = '\n'
  · rw [if_pos hc, if_pos hc]
    exact h.newline
  · rw [if_neg hc, if_neg hc, h.region]
    cases s.region with
    | code => exact h.inCode c next
    | lineComment => exact h
    | blockOpening => exact h.with_region .blockComment
    | blockComment =>
      by_cases hends : c = '*' ∧ next = some '/'
      · simpa only [if_pos hends] using h.with_region .blockClosing
      · simpa only [if_neg hends] using h
    | blockClosing => exact h.with_region .code
    | literal quote escaped =>
      by_cases hends : ¬ escaped ∧ c = quote
      · simpa only [if_pos hends] using h.with_region .code
      · simpa only [if_neg hends] using h.with_region _

/-- The scans go on alike over what is behind the point. -/
theorem run (h : SameAbove base base' s t) (text : List Char) :
    SameAbove base base' (s.run text) (t.run text) := by
  induction text generalizing s t with
  | nil => exact h
  | cons c cs ih => exact ih (h.step c cs.head?)

/-- What was written is the same exactly if it is up to the point. -/
theorem written_eq_iff (h : SameAbove base base' s t) : s.written = t.written ↔ base = base' := by
  obtain ⟨c, above, hs, ht⟩ := h.written
  rw [hs, ht, List.cons.injEq, List.append_right_inj]
  exact and_iff_right rfl

end SameAbove

end Scan

/-! ## Signatures -/

/-- Behind `pre` the scan stands in code outside of bodies and has seen a parameter list: the next
brace opens a body. -/
structure OpensBody (pre : List Char) : Prop where
  region : (runInto {} ['{'] pre).region = .code
  depth : (runInto {} ['{'] pre).depth = 0
  bodyExpected : (runInto {} ['{'] pre).bodyExpected = true

variable {pre body body' post : List Char}

/-- From the opening brace to the closing one only a space can be written. -/
theorem OpensBody.exists_run_eq (hpre : OpensBody pre) :
    ∃ s : Scan, s.written.head? = some '{' ∧ ∀ {body : List Char}, SelfContained body →
      ∀ post, Scan.run {} (pre ++ '{' :: (body ++ '}' :: post)) =
        ({ s.across body with depth := 0 }.push '}').run post := by
  obtain ⟨hregion, hdepth, hexpected⟩ := hpre
  generalize hs : runInto {} ['{'] pre = s₀ at hregion hdepth hexpected
  let s : Scan := { s₀ with bodyExpected := false, depth := 1, bodies := s₀.line :: s₀.bodies }
  have hopening (next : Option Char) : s₀.step '{' next = s.push '{' := by
    unfold Scan.step
    rw [if_neg (by decide), hregion]
    dsimp only
    unfold Scan.inCode
    have hopened : opened? '{' next = none := rfl
    rw [hopened]
    dsimp only
    rw [if_neg (by rw [hdepth]; decide), if_neg (by decide)]
    unfold Scan.inDeclaration
    rw [if_neg (by decide), if_neg (by decide), if_pos ⟨rfl, hexpected⟩]
  have hclosing (t : Scan) (ht : t.region = .code) (hone : t.depth = 1) (next : Option Char) :
      t.step '}' next = { t with depth := 0 }.push '}' := by
    rw [step_body ⟨ht, by omega⟩ (by decide) rfl]
    unfold Scan.inBody
    rw [if_neg (by decide), if_pos rfl, hone]
    rfl
  refine ⟨s.push '{', rfl, fun {body} hbody post => ?_⟩
  have hsight : ('{' :: (body ++ '}' :: post)).head? = ['{'].head? := rfl
  rw [run_append, runInto_congr hsight, hs]
  show Scan.run (s₀.step '{' _) (body ++ '}' :: post) = _
  rw [hopening, run_append,
    hbody.runInto_eq (s := s.push '{') ⟨hregion, Nat.one_pos⟩ ⟨by simp, by simp⟩]
  show Scan.run (((s.push '{').across body).step '}' _) post = _
  rw [hclosing ((s.push '{').across body) hregion rfl]

/-- The space is there exactly if a line ends in the body. -/
theorem written_across_eq_iff {s : Scan} (hs : s.written.head? = some '{') :
    (s.across body).written = (s.across body').written ↔ ('\n' ∈ body ↔ '\n' ∈ body') := by
  have hspaced : spaced s.written = ' ' :: s.written := if_neg (by rw [hs]; decide)
  have hne : ' ' :: s.written ≠ s.written := List.cons_ne_self _ _
  show (if '\n' ∈ body then spaced s.written else s.written) =
    (if '\n' ∈ body' then spaced s.written else s.written) ↔ _
  rw [hspaced]
  by_cases hbody : '\n' ∈ body
  · by_cases hbody' : '\n' ∈ body'
    · simp [hbody, hbody']
    · simp [hbody, hbody', hne]
  · by_cases hbody' : '\n' ∈ body'
    · simp [hbody, hbody', hne.symm]
    · simp [hbody, hbody']

/-- Two bodies leave the same text. -/
theorem text_eq_iff (hpre : OpensBody pre) (hbody : SelfContained body)
    (hbody' : SelfContained body') :
    (ofCode (String.ofList (pre ++ '{' :: (body ++ '}' :: post)))).text =
        (ofCode (String.ofList (pre ++ '{' :: (body' ++ '}' :: post)))).text ↔
      ('\n' ∈ body ↔ '\n' ∈ body') := by
  obtain ⟨s, hs, hrun⟩ := hpre.exists_run_eq
  have hsame : SameAbove (s.across body).written (s.across body').written
      ({ s.across body with depth := 0 }.push '}') ({ s.across body' with depth := 0 }.push '}') :=
    ⟨rfl, rfl, rfl, '}', [], rfl, rfl⟩
  unfold ofCode
  dsimp only
  rw [String.toList_ofList, String.toList_ofList, hrun hbody, hrun hbody', List.reverse_inj,
    (hsame.run post).written_eq_iff, written_across_eq_iff hs]

/-- An edit inside a body keeps the signature exactly if lines end in both versions of the body, or in
none of them; the bytes that are hashed differ otherwise. -/
theorem signature_of_body_edit (file : String) {pre body body' post : String}
    (hpre : OpensBody pre.toList) (hbody : SelfContained body.toList)
    (hbody' : SelfContained body'.toList) :
    ((ofCode (pre ++ "\x7b" ++ body ++ "\x7d" ++ post)).signatureBytes file =
        (ofCode (pre ++ "\x7b" ++ body' ++ "\x7d" ++ post)).signatureBytes file ↔
      ('\n' ∈ body.toList ↔ '\n' ∈ body'.toList)) ∧
    (('\n' ∈ body.toList ↔ '\n' ∈ body'.toList) →
      (ofCode (pre ++ "\x7b" ++ body ++ "\x7d" ++ post)).signature file =
        (ofCode (pre ++ "\x7b" ++ body' ++ "\x7d" ++ post)).signature file) := by
  have hcode (b : String) : pre ++ "\x7b" ++ b ++ "\x7d" ++ post =
      String.ofList (pre.toList ++ '{' :: (b.toList ++ '}' :: post.toList)) := by
    rw [← String.toList_inj]
    simp
  have hbytes : (ofCode (pre ++ "\x7b" ++ body ++ "\x7d" ++ post)).signatureBytes file =
      (ofCode (pre ++ "\x7b" ++ body' ++ "\x7d" ++ post)).signatureBytes file ↔
        ('\n' ∈ body.toList ↔ '\n' ∈ body'.toList) := by
    rw [← text_eq_iff hpre hbody hbody', ← hcode, ← hcode]
    unfold signatureBytes
    rw [List.append_right_inj, ContentHash.textBytes_injective.eq_iff, String.ofList_inj]
  exact ⟨hbytes, fun h => congrArg ContentHash.ofBytes (hbytes.2 h)⟩

/-- A call is replaced by one with a brace in a literal. -/
theorem signature_of_edited_call :
    (ofCode ("void f() " ++ "\x7b" ++ " a(); " ++ "\x7d" ++ "\nint x;")).signature "Blink.ino" =
      (ofCode ("void f() " ++ "\x7b" ++ " c('\x7d'); " ++ "\x7d" ++ "\nint x;")).signature
        "Blink.ino" := by
  have hpre : OpensBody "void f() ".toList := ⟨by decide, by decide, by decide⟩
  have hbody : SelfContained " a(); ".toList :=
    .plain (by decide) (.plain (by decide) (.plain (by decide) (.plain (by decide)
      (.plain (by decide) (.plain (by decide) .nil)))))
  have hliteral : LiteralText '\'' ['\x7d'] := .plain (by decide) (by decide) .nil
  have hbody' : SelfContained " c('\x7d'); ".toList :=
    .plain (by decide) (.plain (by decide) (.plain (by decide) (.literal (.inr rfl) hliteral
      (.plain (by decide) (.plain (by decide) (.plain (by decide) .nil))))))
  have hlines : '\n' ∈ " a(); ".toList ↔ '\n' ∈ " c('\x7d'); ".toList := by decide
  exact (signature_of_body_edit "Blink.ino" hpre hbody hbody').2 hlines

/-- A body without a line break is given one. -/
theorem signature_of_broken_body :
    OpensBody "void f() ".toList ∧ SelfContained "".toList ∧ SelfContained "\n".toList ∧
      (ofCode ("void f() " ++ "\x7b" ++ "" ++ "\x7d" ++ "\n")).signature "Blink.ino" ≠
        (ofCode ("void f() " ++ "\x7b" ++ "\n" ++ "\x7d" ++ "\n")).signature "Blink.ino" := by
  refine ⟨⟨by decide, by decide, by decide⟩, .nil, .plain (by decide) .nil, ?_⟩
  decide +kernel

end SketchSense.Skeleton
