import Mathlib.Data.List.Infix
import SketchSense.Proofs.Text.Search
import SketchSense.Text.Comment

/-!
# Which lines are collected as a comment

The lines of a comment are found upward from a declaration, by the marks that single lines hold.
A text is read downward: whether a line is part of a comment depends on all lines before it. The
two agree as long as no line holds code and a mark of a block comment.

* `readLine`, what a line holds when a text is read, and `insideAt` and `readingAt`, for the lines
  of a text;
* `onward?`, how the search goes on above a line, with `commentLines_append`, and `onward?_sound`,
  what it tells about the line;
* `CollectsComments` and `collectsComments_iff`, when only comments are collected.
-/

namespace SketchSense.Text

/-! ## Reading a line -/

/-- What a text stands in while it is read. -/
inductive Zone where
  | code
  | blockComment
  /-- A literal that ends at `quote`. -/
  | literal (quote : Char)
  deriving DecidableEq, Repr

/-- What a line holds. -/
structure LineReading where
  /-- Whether a character that is not blank stands outside comments. -/
  hasCode : Bool
  /-- Whether a block comment goes on behind the line. -/
  staysOpen : Bool
  deriving DecidableEq, Repr

/-- Reads the rest of a line. A literal ends with its line at the latest. -/
def readFrom : Zone → List Char → LineReading
  | .blockComment, [] => ⟨false, true⟩
  | _, [] => ⟨false, false⟩
  | .code, '/' :: '/' :: _ => ⟨false, false⟩
  | .code, '/' :: '*' :: cs => readFrom .blockComment cs
  | .code, c :: cs =>
    let rest := readFrom (if c = '"' ∨ c = '\'' then .literal c else .code) cs
    ⟨!isBlank c || rest.hasCode, rest.staysOpen⟩
  | .blockComment, '*' :: '/' :: cs => readFrom .code cs
  | .blockComment, _ :: cs => readFrom .blockComment cs
  | .literal quote, '\\' :: _ :: cs => readFrom (.literal quote) cs
  | .literal quote, c :: cs => readFrom (if c = quote then .code else .literal quote) cs

/-- Reads a line; `inside` says that it starts in a block comment. -/
def readLine (inside : Bool) (l : List Char) : LineReading :=
  readFrom (if inside then .blockComment else .code) l

/-- A line opens no block comment without the mark for it. -/
theorem openMark_isInfix_of_staysOpen {zone : Zone} {l : List Char}
    (h : (readFrom zone l).staysOpen = true) : zone = .blockComment ∨ openMark <:+: l := by
  fun_induction readFrom zone l with
  | case1 => exact .inl rfl
  | case2 => simp at h
  | case3 => simp at h
  | case4 cs ih => exact .inr (List.prefix_append openMark cs).isInfix
  | case5 c cs _ _ rest ih =>
    rcases ih h with hzone | hin
    · split at hzone <;> cases hzone
    · exact .inr (List.infix_cons hin)
  | case6 => exact .inl rfl
  | case7 => exact .inl rfl
  | case8 quote c cs ih =>
    rcases ih h with hzone | hin
    · cases hzone
    · exact .inr (List.infix_cons (List.infix_cons hin))
  | case9 quote c cs _ ih =>
    rcases ih h with hzone | hin
    · split at hzone <;> cases hzone
    · exact .inr (List.infix_cons hin)

/-- A block comment that code follows on its line is closed there. -/
theorem closeMark_isInfix_of_hasCode {l : List Char}
    (h : (readFrom .blockComment l).hasCode = true) : closeMark <:+: l := by
  generalize hzone : Zone.blockComment = zone at h
  fun_induction readFrom zone l with
  | case6 cs ih => exact (List.prefix_append closeMark cs).isInfix
  | case7 c cs _ ih => exact List.infix_cons (ih hzone h)
  | case1 | case2 => cases h
  | _ => cases hzone

/-- A character of code is read on its own, unless it starts a comment. -/
theorem readFrom_of_ne {c : Char} (h : c ≠ '/') (cs : List Char) :
    readFrom .code (c :: cs) =
      let rest := readFrom (if c = '"' ∨ c = '\'' then .literal c else .code) cs
      ⟨!isBlank c || rest.hasCode, rest.staysOpen⟩ := by
  generalize hzone : Zone.code = zone
  generalize hl : c :: cs = l
  fun_cases readFrom zone l with
  | case5 d ds =>
    obtain ⟨rfl, rfl⟩ := List.cons.inj hl
    rfl
  | case3 | case4 => exact absurd (List.cons.inj hl).1 h
  | case2 => cases hl
  | _ => cases hzone

/-- Blank characters before code are not code. -/
theorem readFrom_blank_append {before : List Char} (h : ∀ c ∈ before, isBlank c = true)
    (s : List Char) : readFrom .code (before ++ s) = readFrom .code s := by
  induction before with
  | nil => rfl
  | cons c before ih =>
    have hblank := h c List.mem_cons_self
    have hplain : c ≠ '/' ∧ c ≠ '"' ∧ c ≠ '\'' := by
      refine ⟨?_, ?_, ?_⟩ <;> rintro rfl <;> revert hblank <;> decide
    rw [List.cons_append, readFrom_of_ne hplain.1, if_neg (not_or.2 hplain.2), hblank,
      ih fun d hd => h d (List.mem_cons_of_mem _ hd)]
    rfl

/-- A line of a line comment has no code. -/
theorem hasCode_of_lineMark {l : List Char} (h : startsWith lineMark (trim l) = true) :
    (readFrom .code l).hasCode = false := by
  obtain ⟨before, after, hl, hbefore, -⟩ := exists_eq_trim l
  obtain ⟨rest, hrest⟩ := startsWith_iff.1 h
  rw [hl, ← hrest, readFrom_blank_append hbefore]
  rfl

/-- Something that is not blank and no code starts a comment. -/
theorem mark_isPrefix_of_not_hasCode {c : Char} {s : List Char} (hdark : isBlank c = false)
    (h : (readFrom .code (c :: s)).hasCode = false) :
    lineMark <+: c :: s ∨ openMark <+: c :: s := by
  revert h
  generalize hzone : Zone.code = zone
  generalize hl : c :: s = l
  fun_cases readFrom zone l with
  | case3 cs => exact fun _ => .inl (List.prefix_append lineMark cs)
  | case4 cs => exact fun _ => .inr (List.prefix_append openMark cs)
  | case5 d cs =>
    obtain ⟨rfl, rfl⟩ := List.cons.inj hl
    simp [hdark]
  | case2 => cases hl
  | _ => cases hzone

theorem isBlank_of_mem_mark {c : Char} (h : c = '/' ∨ c = '*') : isBlank c = false := by
  rcases h with rfl | rfl <;> decide

/-- A line that is neither blank nor code starts a comment, unless it goes on with one. -/
theorem startsWith_mark_of_not_hasCode {l : List Char} (hdark : trim l ≠ [])
    (h : (readFrom .code l).hasCode = false) :
    startsWith lineMark (trim l) = true ∨ startsWith openMark (trim l) = true := by
  obtain ⟨before, after, hl, hbefore, hafter⟩ := exists_eq_trim l
  obtain ⟨c, rest, hc⟩ := List.exists_cons_of_ne_nil hdark
  rw [hl, readFrom_blank_append hbefore, hc, List.cons_append] at h
  rw [hc, startsWith_iff, startsWith_iff]
  refine (mark_isPrefix_of_not_hasCode (isBlank_of_trim_eq_cons hc) h).imp
    (isPrefix_of_append_blank (fun d hd => isBlank_of_mem_mark ?_) hafter)
    (isPrefix_of_append_blank (fun d hd => isBlank_of_mem_mark ?_) hafter)
  · exact .inl (by simpa [lineMark] using hd)
  · simpa [openMark] using hd

/-! ## The search -/

/-- How the search upward goes on above a line: `none` if it ends there, and else whether the lines
above are taken for the inside of a block comment. -/
def onward? (inBlock : Bool) (l : List Char) : Option Bool :=
  let t := trim l
  if inBlock = true then some (!contains openMark t)
  else if t = [] then none
  else if startsWith lineMark t = true then some false
  else if contains closeMark t = true then some (!contains openMark t)
  else none

theorem commentLines_cons (inBlock : Bool) (l : List Char) (above : List (List Char)) :
    commentLines inBlock (l :: above) =
      match onward? inBlock l with
      | none => []
      | some inBlock => l :: commentLines inBlock above := by
  cases inBlock with
  | true => rw [commentLines, onward?, if_pos rfl]
  | false =>
    rw [commentLines, onward?, if_neg Bool.false_ne_true]
    split_ifs <;> rfl

/-- The collected lines are the nearest ones. -/
theorem commentLines_isPrefix (inBlock : Bool) (above : List (List Char)) :
    commentLines inBlock above <+: above := by
  induction above generalizing inBlock with
  | nil => cases inBlock <;> exact List.nil_prefix
  | cons l above ih =>
    rw [commentLines_cons]
    cases onward? inBlock l with
    | none => exact List.nil_prefix
    | some next => exact List.cons_prefix_cons.2 ⟨rfl, ih next⟩

/-- Of fewer lines as many are collected as there are. -/
theorem commentLines_take (inBlock : Bool) (above : List (List Char)) (n : Nat) :
    commentLines inBlock (above.take n) = (commentLines inBlock above).take n := by
  induction above generalizing inBlock n with
  | nil => cases inBlock <;> simp [commentLines]
  | cons l above ih =>
    cases n with
    | zero => cases inBlock <;> simp [commentLines]
    | succ n =>
      rw [List.take_succ_cons, commentLines_cons, commentLines_cons]
      cases onward? inBlock l with
      | none => rfl
      | some next =>
        dsimp only
        rw [List.take_succ_cons, ih]

/-- How the search goes on above some lines, the nearest of which comes first. -/
def onwardBehind? (inBlock : Bool) (above : List (List Char)) : Option Bool :=
  above.foldlM onward? inBlock

/-- The search above some lines is that of the lines and then that of what is above them. -/
theorem commentLines_append (inBlock : Bool) (near far : List (List Char)) :
    commentLines inBlock (near ++ far) =
      commentLines inBlock near ++
        match onwardBehind? inBlock near with
        | none => []
        | some inBlock => commentLines inBlock far := by
  induction near generalizing inBlock with
  | nil => cases inBlock <;> rfl
  | cons l near ih =>
    rw [List.cons_append, commentLines_cons, commentLines_cons, onwardBehind?, List.foldlM_cons]
    cases onward? inBlock l with
    | none => rfl
    | some next => exact congrArg (l :: ·) (ih next)

/-- Outside block comments a line without a slash ends the search. -/
theorem onward?_of_not_mem {l : List Char} (h : '/' ∉ l) : onward? false l = none := by
  have hmark {mark : List Char} (hslash : '/' ∈ mark) : ¬ mark <:+: trim l := fun hin =>
    h ((trim_isInfix l).subset (hin.subset hslash))
  have hline : ¬ startsWith lineMark (trim l) = true := fun hstart =>
    hmark (by decide) (startsWith_iff.1 hstart).isInfix
  have hclose : ¬ contains closeMark (trim l) = true := fun hin =>
    hmark (by decide) (contains_iff_isInfix.1 hin)
  simp [onward?, hline, hclose]

/-- A line that has code holds no mark that closes a block comment, and no block comment goes on
behind it. -/
def KeepsApart (inside : Bool) (l : List Char) : Prop :=
  (readLine inside l).hasCode = true →
    contains closeMark l = false ∧ (readLine inside l).staysOpen = false

/-- Without a mark that opens one, a block comment that goes on behind a line began before it. -/
theorem inside_of_staysOpen {inside : Bool} {l : List Char}
    (hstays : (readLine inside l).staysOpen = true)
    (hmark : contains openMark (trim l) = false) : inside = true := by
  rw [contains_trim (by decide) (fun c hc => isBlank_of_mem_mark (by simpa [openMark] using hc)),
    ← Bool.not_eq_true, contains_iff_isInfix] at hmark
  by_contra hout
  unfold readLine at hstays
  rw [if_neg hout] at hstays
  rcases openMark_isInfix_of_staysOpen hstays with hzone | hin
  · cases hzone
  · exact hmark hin

/-- A line that the search goes past holds no code, if it keeps apart code and block comments, and
it is blank in a block comment only. Where the search takes the lines above for the inside of a
block comment, they are. -/
theorem onward?_sound {inBlock inside next : Bool} {l : List Char}
    (h : onward? inBlock l = some next)
    (hopen : inBlock = true → (readLine inside l).staysOpen = true) (hapart : KeepsApart inside l) :
    (readLine inside l).hasCode = false ∧ (trim l = [] → inside = true) ∧
      (next = true → inside = true) := by
  unfold onward? at h
  dsimp only at h
  split_ifs at h with hblock hblank hline hclose
  · -- the line is taken for the inside of a block comment
    cases h
    have hstays := hopen hblock
    refine ⟨?_, fun hblank => inside_of_staysOpen hstays (by rw [hblank]; rfl), fun hnext =>
      inside_of_staysOpen hstays (by simpa using hnext)⟩
    by_contra hcode
    simp [(hapart (by simpa using hcode)).2] at hstays
  · -- a line comment, or a line of a block comment that looks like one
    cases h
    refine ⟨?_, fun hnil => absurd hnil hblank, fun hnext => absurd hnext Bool.false_ne_true⟩
    cases inside with
    | false => exact hasCode_of_lineMark hline
    | true =>
      by_contra hcode
      have hcode : (readLine true l).hasCode = true := by simpa using hcode
      have hclosed := (hapart hcode).1
      rw [contains_iff_isInfix.2 (closeMark_isInfix_of_hasCode hcode)] at hclosed
      cases hclosed
  · -- a line that closes a block comment
    cases h
    have hcode : (readLine inside l).hasCode = false := by
      by_contra hcode
      have hclosed := (hapart (by simpa using hcode)).1
      rw [contains_iff_isInfix.2 ((contains_iff_isInfix.1 hclose).trans (trim_isInfix l))] at hclosed
      cases hclosed
    refine ⟨hcode, fun hnil => absurd hnil hblank, fun hnext => ?_⟩
    by_contra hout
    rw [Bool.not_eq_true] at hout
    subst hout
    rcases startsWith_mark_of_not_hasCode hblank hcode with hmark | hmark
    · exact hline hmark
    · have hopens := contains_iff_isInfix.2 (startsWith_iff.1 hmark).isInfix
      simp [hopens] at hnext

/-! ## The lines above a declaration -/

/-- Whether a block comment goes on behind some lines, the nearest of which comes first. -/
def staysOpenBehind (above : List (List Char)) : Bool :=
  above.foldr (fun l inside => (readLine inside l).staysOpen) false

/-- Up to the line at `i` the search sees only comments, if these lines keep apart code and block
comments. -/
theorem noCode_of_lt_length {inBlock : Bool} {above : List (List Char)} {i : Nat}
    (hi : i < (commentLines inBlock above).length)
    (hopen : inBlock = true → staysOpenBehind above = true)
    (hapart : ∀ j ≤ i, ∀ l, above[j]? = some l →
      KeepsApart (staysOpenBehind (above.drop (j + 1))) l) {l : List Char} (hl : above[i]? = some l) :
    (readLine (staysOpenBehind (above.drop (i + 1))) l).hasCode = false ∧
      (trim l = [] → staysOpenBehind (above.drop (i + 1)) = true) := by
  induction above generalizing inBlock i with
  | nil => cases hl
  | cons m above ih =>
    rw [commentLines_cons] at hi
    cases hnext : onward? inBlock m with
    | none =>
      rw [hnext] at hi
      simp at hi
    | some next =>
      rw [hnext] at hi
      obtain ⟨hcode, hblank, hinside⟩ :=
        onward?_sound hnext hopen (hapart 0 (Nat.zero_le i) m rfl)
      cases i with
      | zero =>
        cases hl
        exact ⟨hcode, hblank⟩
      | succ i =>
        exact ih (Nat.lt_of_succ_lt_succ hi) hinside
          (fun j hj => hapart (j + 1) (Nat.succ_le_succ hj)) hl

/-- The line with a number counted from 1, or no character at all. -/
def lineAt (s : List Char) (n : Nat) : List Char := (line? s n).getD []

/-- Whether a block comment that was opened on an earlier line goes on at the start of a line. -/
def insideAt (s : List Char) (n : Nat) : Bool :=
  ((lines s).take (n - 1)).foldl (fun inside l => (readLine inside l).staysOpen) false

/-- What a line of a text holds. -/
def readingAt (s : List Char) (n : Nat) : LineReading := readLine (insideAt s n) (lineAt s n)

/-- The number of a declaration line. One past the end counts as that of the last line. -/
def declarationLine (s : List Char) (line : Nat) : Nat := min line (lines s).length

/-- The numbers of the lines that are collected above a declaration, nearest first. -/
def collectedNumbers (s : List Char) (line : Nat) : List Nat :=
  (List.range (commentLines false (linesAbove s line)).length).map
    fun i => declarationLine s line - (i + 1)

theorem mem_collectedNumbers {s : List Char} {line n : Nat} :
    n ∈ collectedNumbers s line ↔
      ∃ i < (commentLines false (linesAbove s line)).length, declarationLine s line - (i + 1) = n := by
  simp [collectedNumbers]

section

variable {s : List Char} {line i : Nat}

/-- All lines above a declaration, nearest first. -/
def allAbove (s : List Char) (line : Nat) : List (List Char) :=
  ((lines s).take (declarationLine s line - 1)).reverse

theorem linesAbove_eq (s : List Char) (line : Nat) :
    linesAbove s line = (allAbove s line).take commentReach := rfl

theorem length_allAbove (s : List Char) (line : Nat) :
    (allAbove s line).length = declarationLine s line - 1 := by
  rw [allAbove, List.length_reverse, List.length_take]
  exact Nat.min_eq_left ((Nat.sub_le _ _).trans (Nat.min_le_right _ _))

theorem getElem?_allAbove (h : i < declarationLine s line - 1) :
    (allAbove s line)[i]? = some (lineAt s (declarationLine s line - (i + 1))) := by
  have hlast : declarationLine s line ≤ (lines s).length := Nat.min_le_right _ _
  have hlength : ((lines s).take (declarationLine s line - 1)).length = declarationLine s line - 1 := by
    rw [← List.length_reverse]
    exact length_allAbove s line
  rw [allAbove, List.getElem?_reverse (by rw [hlength]; exact h), hlength,
    List.getElem?_take_of_lt (by omega), lineAt, line?, if_neg (by omega),
    show declarationLine s line - 1 - 1 - i = declarationLine s line - (i + 1) - 1 by omega,
    List.getElem?_eq_getElem (by omega)]
  rfl

theorem staysOpenBehind_drop_allAbove (i : Nat) :
    staysOpenBehind ((allAbove s line).drop i) = insideAt s (declarationLine s line - i) := by
  rw [allAbove, List.drop_reverse, ← List.length_reverse, ← allAbove, length_allAbove,
    List.take_take, staysOpenBehind, List.foldr_reverse, insideAt]
  congr 2
  omega

theorem length_commentLines_le :
    (commentLines false (linesAbove s line)).length ≤ (commentLines false (allAbove s line)).length := by
  rw [linesAbove_eq, commentLines_take, List.length_take]
  exact Nat.min_le_right _ _

/-- There is a line for each number of a collected line. -/
theorem lt_of_lt_length_commentLines (h : i < (commentLines false (linesAbove s line)).length) :
    i < declarationLine s line - 1 := by
  rw [← length_allAbove]
  exact (h.trans_le length_commentLines_le).trans_le (commentLines_isPrefix false _).length_le

/-- The collected lines are those with the numbers of collected lines. -/
theorem commentLines_linesAbove (s : List Char) (line : Nat) :
    commentLines false (linesAbove s line) = (collectedNumbers s line).map (lineAt s) := by
  refine List.ext_getElem (by simp [collectedNumbers]) fun i hi _ => ?_
  have hlt := lt_of_lt_length_commentLines hi
  have hget := getElem?_allAbove hlt
  rw [List.getElem?_eq_some_iff] at hget
  obtain ⟨hlength, hget⟩ := hget
  rw [(commentLines_isPrefix false (linesAbove s line)).getElem hi]
  simp only [linesAbove_eq, List.getElem_take, hget, collectedNumbers, List.getElem_map,
    List.getElem_range]

end

/-! ## Only comments -/

/-- Only comments are collected above a declaration. -/
structure CollectsComments (text : String) (line : Nat) : Prop where
  /-- What is collected is a run of lines that ends directly above the declaration. -/
  collected : commentLines false (linesAbove text.toList line) =
    (collectedNumbers text.toList line).map (lineAt text.toList)
  noCode : ∀ n ∈ collectedNumbers text.toList line, (readingAt text.toList n).hasCode = false
  /-- A line that is blank outside block comments, or that holds code, ends the collection. -/
  ends : ∀ m < declarationLine text.toList line,
    (trim (lineAt text.toList m) = [] ∧ insideAt text.toList m = false) ∨
      (readingAt text.toList m).hasCode = true →
    ∀ n ∈ collectedNumbers text.toList line, m < n
  /-- There is no comment if the line directly above neither starts one nor lies in one. -/
  empty : insideAt text.toList (declarationLine text.toList line - 1) = false →
    (∀ mark ∈ [lineMark, openMark], startsWith mark
      (trimStart (lineAt text.toList (declarationLine text.toList line - 1))) = false) →
    commentAbove text line = ""

section

variable {s : List Char} {line : Nat}

/-- Collected lines that keep apart code and block comments hold no code, and they are blank in
block comments only. -/
theorem noCode_of_mem_collectedNumbers
    (hapart : ∀ n ∈ collectedNumbers s line, KeepsApart (insideAt s n) (lineAt s n)) {n : Nat}
    (hn : n ∈ collectedNumbers s line) :
    (readingAt s n).hasCode = false ∧ (trim (lineAt s n) = [] → insideAt s n = true) := by
  obtain ⟨i, hi, rfl⟩ := mem_collectedNumbers.1 hn
  unfold readingAt
  rw [← staysOpenBehind_drop_allAbove]
  refine noCode_of_lt_length (hi.trans_le length_commentLines_le) (by simp) (fun j hj l hl => ?_)
    (getElem?_allAbove (lt_of_lt_length_commentLines hi))
  have hj := hj.trans_lt hi
  obtain rfl := Option.some.inj
    ((getElem?_allAbove (lt_of_lt_length_commentLines hj)).symm.trans hl)
  rw [staysOpenBehind_drop_allAbove]
  exact hapart _ (mem_collectedNumbers.2 ⟨j, hj, rfl⟩)

/-- The collected lines stand together, directly above the declaration. -/
theorem mem_collectedNumbers_of_le {m n : Nat} (hn : n ∈ collectedNumbers s line) (hle : n ≤ m)
    (hm : m < declarationLine s line) : m ∈ collectedNumbers s line := by
  obtain ⟨i, hi, rfl⟩ := mem_collectedNumbers.1 hn
  exact mem_collectedNumbers.2 ⟨declarationLine s line - (m + 1), by omega, by omega⟩

/-- A line that holds no code starts a comment, unless it is blank or goes on with a comment. -/
theorem starts_of_not_hasCode {n : Nat} (hcode : (readingAt s n).hasCode = false)
    (hout : insideAt s n = false) (hdark : trim (lineAt s n) ≠ []) :
    ∃ mark ∈ [lineMark, openMark], startsWith mark (trimStart (lineAt s n)) = true := by
  unfold readingAt at hcode
  rw [hout] at hcode
  obtain ⟨after, hafter, -⟩ := exists_trimStart_eq (lineAt s n)
  have hstart (mark : List Char) (h : startsWith mark (trim (lineAt s n)) = true) :
      startsWith mark (trimStart (lineAt s n)) = true := by
    rw [startsWith_iff] at h ⊢
    exact hafter ▸ h.trans (List.prefix_append _ after)
  rcases startsWith_mark_of_not_hasCode hdark hcode with h | h
  · exact ⟨lineMark, by simp, hstart lineMark h⟩
  · exact ⟨openMark, by simp, hstart openMark h⟩

end

/-- Only comments are collected exactly if the collected lines keep apart code and block comments. -/
theorem collectsComments_iff (text : String) (line : Nat) :
    CollectsComments text line ↔ ∀ n ∈ collectedNumbers text.toList line,
      KeepsApart (insideAt text.toList n) (lineAt text.toList n) := by
  constructor
  · intro h n hn hcode
    exact absurd hcode (by rw [← readingAt, h.noCode n hn]; exact Bool.false_ne_true)
  intro hapart
  refine ⟨commentLines_linesAbove text.toList line,
    fun n hn => (noCode_of_mem_collectedNumbers hapart hn).1, fun m hm hstop n hn => ?_,
    fun hout hmark => ?_⟩
  · by_contra hle
    obtain ⟨hcode, hblank⟩ := noCode_of_mem_collectedNumbers hapart
      (mem_collectedNumbers_of_le hn (Nat.le_of_not_lt hle) hm)
    rcases hstop with ⟨hnil, hout⟩ | hcode'
    · simp [hblank hnil] at hout
    · simp [hcode'] at hcode
  · have hnone : commentLines false (linesAbove text.toList line) = [] := by
      by_contra hne
      obtain ⟨hcode, hblank⟩ := noCode_of_mem_collectedNumbers hapart
        (mem_collectedNumbers.2 ⟨0, List.length_pos_iff.2 hne, rfl⟩)
      have hdark := fun hnil => Bool.false_ne_true (hout.symm.trans (hblank hnil))
      obtain ⟨mark, hmem, hstart⟩ := starts_of_not_hasCode hcode hout hdark
      rw [hmark mark hmem] at hstart
      cases hstart
    rw [commentAbove, hnone]
    rfl

/-- A line of code with a block comment behind the code is collected with the code. -/
theorem collects_code_before_comment :
    commentAbove "int x; /* speed */\nvoid f() \x7b\x7d\n" 2 = "int x;  speed" ∧
      ¬ CollectsComments "int x; /* speed */\nvoid f() \x7b\x7d\n" 2 := by
  refine ⟨by decide +kernel, fun h => ?_⟩
  have hnone := h.noCode 1 (by decide +kernel)
  revert hnone
  decide +kernel

end SketchSense.Text
