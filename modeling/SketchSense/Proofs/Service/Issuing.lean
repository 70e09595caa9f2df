import Mathlib.Data.List.Nodup
import SketchSense.Service.Token

/-!
# Tokens in the order of their clocks

A clock hands out every generation once, so a token is live exactly as long as it is the latest of
its clock and nothing is cancelled. What is not live never becomes live again.

* `Token.clock?`, the clock that a token was issued on, and `Token.IsLatest`;
* `Board.Issues`, that a board has issued certain tokens and no others, which issuing another one
  and cancelling keep;
* `Board.Issues.isLive_iff` and `Board.Issues.isLive_of_isLive`.
-/

namespace SketchSense

variable {κ : Type}

/-- The clock that a token was issued on. -/
def Token.clock? : Token κ → Option κ
  | .issued clock _ => some clock
  | .detached => none

/-- Among the tokens issued so far none of the same clock comes later. -/
def Token.IsLatest (t : Token κ) (ts : List (Token κ)) : Prop :=
  ∃ before after, ts = before ++ t :: after ∧ ∀ u ∈ after, u.clock? ≠ t.clock?

/-- The generation is a smaller one if the clock is the same. -/
def Token.Precedes (t u : Token κ) : Prop := t.clock? = u.clock? → t.generation < u.generation

variable {b b' : Board κ} {ts ts' : List (Token κ)} {t : Token κ}

namespace Board

/-- The tokens that a board has issued so far, in order: on every clock the generations from 1 up to
the latest. -/
structure Issues (b : Board κ) (ts : List (Token κ)) : Prop where
  ordered : ts.Pairwise Token.Precedes
  mem_iff : ∀ t, t ∈ ts ↔ ∃ clock generation, t = .issued clock generation ∧
    0 < generation ∧ generation ≤ b.current clock

theorem issues_nil : Issues ({} : Board κ) [] := by
  refine ⟨.nil, fun t => ⟨fun h => absurd h List.not_mem_nil, ?_⟩⟩
  rintro ⟨clock, generation, -, hpos, hle⟩
  have hzero : generation ≤ 0 := hle
  omega

/-- A clock moves on by one generation, which is that of the token. -/
theorem issue_eq [DecidableEq κ] (b : Board κ) (clock : κ) :
    b.issue clock = (.issued clock (b.current clock + 1), b.advance clock) := by
  simp [issue, advance]

theorem current_advance [DecidableEq κ] (b : Board κ) (clock k : κ) :
    (b.advance clock).current k = if k = clock then b.current k + 1 else b.current k := rfl

namespace Issues

theorem nodup (h : b.Issues ts) : ts.Nodup := by
  refine h.ordered.imp fun {t u} htu => ?_
  rintro rfl
  exact Nat.lt_irrefl _ (htu rfl)

theorem cancelAll (h : b.Issues ts) : b.cancelAll.Issues ts := ⟨h.ordered, h.mem_iff⟩

/-- A token that is issued is new, and no other one becomes an issued one. -/
theorem issue [DecidableEq κ] (h : b.Issues ts) (clock : κ) :
    (b.issue clock).2.Issues (ts ++ [(b.issue clock).1]) := by
  rw [issue_eq]
  constructor
  · refine List.pairwise_append.2 ⟨h.ordered, List.pairwise_singleton _ _, fun t ht u hu hclock => ?_⟩
    obtain ⟨k, g, rfl, -, hle⟩ := (h.mem_iff t).1 ht
    rw [List.mem_singleton.1 hu] at hclock ⊢
    obtain rfl : k = clock := Option.some.inj hclock
    exact Nat.lt_succ_of_le hle
  · intro t
    rw [List.mem_append, List.mem_singleton, h.mem_iff]
    constructor
    · rintro (⟨k, g, rfl, hpos, hle⟩ | rfl)
      · refine ⟨k, g, rfl, hpos, ?_⟩
        rw [current_advance]
        split
        · omega
        · exact hle
      · refine ⟨clock, _, rfl, Nat.succ_pos _, Nat.le_of_eq ?_⟩
        rw [current_advance, if_pos rfl]
    · rintro ⟨k, g, rfl, hpos, hle⟩
      rw [current_advance] at hle
      split at hle
      · next hk =>
        subst hk
        -- the generation is the new one or one of those before
        rcases Nat.lt_or_eq_of_le hle with hlt | rfl
        · exact .inl ⟨k, g, rfl, hpos, Nat.le_of_lt_succ hlt⟩
        · exact .inr rfl
      · exact .inl ⟨k, g, rfl, hpos, hle⟩

/-- Tokens of one clock and one generation are the same. -/
theorem eq_of_generation (h : b.Issues ts) {u : Token κ} (ht : t ∈ ts) (hu : u ∈ ts)
    (hclock : t.clock? = u.clock?) (hgeneration : t.generation = u.generation) : t = u := by
  obtain ⟨k, g, rfl, -, -⟩ := (h.mem_iff t).1 ht
  obtain ⟨k', g', rfl, -, -⟩ := (h.mem_iff u).1 hu
  obtain rfl : k = k' := Option.some.inj hclock
  obtain rfl : g = g' := hgeneration
  rfl

theorem isLatest_iff (h : b.Issues ts) (ht : t ∈ ts) :
    t.IsLatest ts ↔ ∀ u ∈ ts, u.clock? = t.clock? → u.generation ≤ t.generation := by
  constructor
  · rintro ⟨before, after, rfl, hafter⟩ u hu hclock
    rcases List.mem_append.1 hu with hu | hu
    · exact Nat.le_of_lt ((List.pairwise_append.1 h.ordered).2.2 u hu t List.mem_cons_self hclock)
    · rcases List.mem_cons.1 hu with rfl | hu
      · exact Nat.le_refl _
      · exact (hafter u hu hclock).elim
  · intro hall
    obtain ⟨before, after, rfl⟩ := List.append_of_mem ht
    refine ⟨before, after, rfl, fun u hu hclock => ?_⟩
    have hle : u.generation ≤ t.generation := hall u (by simp [hu]) hclock
    have hlt : t.generation < u.generation :=
      (List.pairwise_cons.1 (List.pairwise_append.1 h.ordered).2.1).1 u hu hclock.symm
    omega

/-- A token is live as long as nothing is cancelled and it is the latest of its clock. -/
theorem isLive_iff (h : b.Issues ts) (ht : t ∈ ts) :
    b.isLive t = true ↔ b.cancelled = false ∧ t.IsLatest ts := by
  rw [h.isLatest_iff ht]
  obtain ⟨k, g, rfl, hpos, hle⟩ := (h.mem_iff t).1 ht
  have hlatest : b.current k = g ↔
      ∀ u ∈ ts, u.clock? = (Token.issued k g).clock? → u.generation ≤ g := by
    constructor
    · rintro hg u hu hclock
      obtain ⟨k', g', rfl, -, hle'⟩ := (h.mem_iff u).1 hu
      obtain rfl : k' = k := Option.some.inj hclock
      exact hg ▸ hle'
    · intro hall
      have hcurrent : Token.issued k (b.current k) ∈ ts :=
        (h.mem_iff _).2 ⟨k, b.current k, rfl, Nat.lt_of_lt_of_le hpos hle, Nat.le_refl _⟩
      exact Nat.le_antisymm (hall _ hcurrent rfl) hle
  unfold isLive isCancelled isSuperseded
  rw [Bool.and_eq_true, Bool.not_eq_true', Bool.not_eq_true', bne_eq_false_iff_eq, hlatest]
  rfl

/-- A token that is live later on was live before. -/
theorem isLive_of_isLive (h : b.Issues ts) (h' : b'.Issues ts') (hissued : ts ⊆ ts')
    (hcancelled : b.cancelled = true → b'.cancelled = true) (ht : t ∈ ts)
    (hlive : b'.isLive t = true) : b.isLive t = true := by
  obtain ⟨hgoing, hlatest⟩ := (h'.isLive_iff (hissued ht)).1 hlive
  rw [h'.isLatest_iff (hissued ht)] at hlatest
  refine (h.isLive_iff ht).2 ⟨?_, (h.isLatest_iff ht).2 fun u hu => hlatest u (hissued hu)⟩
  rw [Bool.eq_false_iff]
  intro hstopped
  rw [hcancelled hstopped] at hgoing
  cases hgoing

end Issues

end Board

end SketchSense
