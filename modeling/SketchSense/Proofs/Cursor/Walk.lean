import SketchSense.Proofs.Cursor.Forest

/-!
# Visitors with a state

A visitor is asked at every node how the visit goes on, and may change a state of its own. The visit
goes down without a bound; in a forest it comes to an end all the same, and what it sees is what the
visitor makes of the nodes in the order of the full visit.

* `Visitor` and `Visits`, a visit by its steps;
* `along`, a visitor that is led along a list of nodes;
* `IsForest.exists_visits`, that every visit ends, and `IsForest.visits_iff`, its one outcome;
* `IsForest.walk_eq`, the visit with a visitor that has no state.
-/

namespace SketchSense.CompilationUnit

/-- A visitor: how the visit goes on behind a node with a parent, and the state from there on. -/
abbrev Visitor (σ : Type) := Cursor → Option Cursor → σ → Walk × σ

/-- What a visit has seen, whether it was stopped, and the state it ends in. -/
structure Outcome (σ : Type) where
  seen : List (Cursor × Option Cursor)
  stopped : Bool
  state : σ

variable {σ : Type} {u : CompilationUnit} {v : Visitor σ}

/-- With more nodes seen before. -/
def Outcome.after (o : Outcome σ) (seen : List (Cursor × Option Cursor)) : Outcome σ :=
  { o with seen := seen ++ o.seen }

@[simp] theorem Outcome.after_nil (o : Outcome σ) : o.after [] = o := rfl

@[simp] theorem Outcome.after_after (o : Outcome σ) (xs ys : List (Cursor × Option Cursor)) :
    (o.after ys).after xs = o.after (xs ++ ys) := by
  simp [after]

@[simp] theorem Outcome.seen_after (o : Outcome σ) (xs : List (Cursor × Option Cursor)) :
    (o.after xs).seen = xs ++ o.seen := rfl

@[simp] theorem Outcome.stopped_after (o : Outcome σ) (xs : List (Cursor × Option Cursor)) :
    (o.after xs).stopped = o.stopped := rfl

@[simp] theorem Outcome.state_after (o : Outcome σ) (xs : List (Cursor × Option Cursor)) :
    (o.after xs).state = o.state := rfl

/-! ## Visits -/

/-- The visit of nodes that have the same parent, one after the other. Where the visitor descends, the
children are visited before the next node, and if that is stopped so is this visit. -/
inductive Visits (u : CompilationUnit) (v : Visitor σ) :
    Option Cursor → List Cursor → σ → Outcome σ → Prop
  | done (parent : Option Cursor) (s : σ) : Visits u v parent [] s ⟨[], false, s⟩
  | stop {parent : Option Cursor} {c : Cursor} {cs : List Cursor} {s s' : σ}
      (hstep : v c parent s = (.stop, s')) :
      Visits u v parent (c :: cs) s ⟨[(c, parent)], true, s'⟩
  | skip {parent : Option Cursor} {c : Cursor} {cs : List Cursor} {s s' : σ} {o : Outcome σ}
      (hstep : v c parent s = (.skip, s')) (hrest : Visits u v parent cs s' o) :
      Visits u v parent (c :: cs) s (o.after [(c, parent)])
  | broken {parent : Option Cursor} {c : Cursor} {cs : List Cursor} {s s' : σ} {o : Outcome σ}
      (hstep : v c parent s = (.descend, s')) (hinner : Visits u v (some c) (u.children c) s' o)
      (hstopped : o.stopped = true) : Visits u v parent (c :: cs) s (o.after [(c, parent)])
  | descend {parent : Option Cursor} {c : Cursor} {cs : List Cursor} {s s' : σ} {o o' : Outcome σ}
      (hstep : v c parent s = (.descend, s')) (hinner : Visits u v (some c) (u.children c) s' o)
      (hgoes : o.stopped = false) (hrest : Visits u v parent cs o.state o') :
      Visits u v parent (c :: cs) s (o'.after ((c, parent) :: o.seen))

variable {parent : Option Cursor} {c : Cursor} {cs : List Cursor} {s : σ} {o : Outcome σ}

/-- If the visit below each node ends, so does the visit of the nodes. -/
theorem exists_visits_of (h : ∀ c ∈ cs, ∀ s, ∃ o, Visits u v (some c) (u.children c) s o) (s : σ) :
    ∃ o, Visits u v parent cs s o := by
  induction cs generalizing s with
  | nil => exact ⟨_, .done parent s⟩
  | cons c cs ih =>
    rw [List.forall_mem_cons] at h
    rcases hstep : v c parent s with ⟨walk, s'⟩
    cases walk with
    | stop => exact ⟨_, .stop hstep⟩
    | skip =>
      obtain ⟨o, ho⟩ := ih h.2 s'
      exact ⟨_, .skip hstep ho⟩
    | descend =>
      obtain ⟨o, ho⟩ := h.1 s'
      cases hstopped : o.stopped with
      | true => exact ⟨_, .broken hstep ho hstopped⟩
      | false =>
        obtain ⟨o', ho'⟩ := ih h.2 o.state
        exact ⟨_, .descend hstep ho hstopped ho'⟩

/-- In a forest every visit comes to an end. -/
theorem IsForest.exists_visits (h : u.IsForest) (v : Visitor σ) (parent : Option Cursor)
    (cs : List Cursor) (s : σ) : ∃ o, Visits u v parent cs s o := by
  have hbelow (c : Cursor) : ∀ s, ∃ o, Visits u v (some c) (u.children c) s o := by
    induction c using h.induction_on with
    | step c ih => exact fun s => exists_visits_of ih s
  exact exists_visits_of (fun c _ => hbelow c) s

/-! ## Visitors led along a list -/

/-- Whether a node is below another one. -/
def isBelow (u : CompilationUnit) (c d : Cursor) : Bool := (u.below c).any (·.1.id = d.id)

/-- The nodes that are not below a node. -/
def notBelow (u : CompilationUnit) (c : Cursor) (xs : List (Cursor × Option Cursor)) :
    List (Cursor × Option Cursor) :=
  xs.filter fun y => !u.isBelow c y.1

theorem length_notBelow_le (c : Cursor) (xs : List (Cursor × Option Cursor)) :
    (u.notBelow c xs).length ≤ xs.length := List.length_filter_le _ _

/-- A visitor that is led along nodes: where it skips what is below a node, this is left out from the
rest, and where it stops, the rest is not visited. -/
def along (u : CompilationUnit) (v : Visitor σ) : List (Cursor × Option Cursor) → σ → Outcome σ
  | [], s => ⟨[], false, s⟩
  | x :: rest, s =>
    match v x.1 x.2 s with
    | (.stop, s') => ⟨[x], true, s'⟩
    | (.descend, s') => (along u v rest s').after [x]
    | (.skip, s') => (along u v (u.notBelow x.1 rest) s').after [x]
  termination_by xs => xs.length
  decreasing_by
    · exact Nat.lt_succ_self _
    · exact Nat.lt_succ_of_le (length_notBelow_le _ _)

/-- What is below a node is left out, and nothing else, if no number comes twice. -/
theorem notBelow_append {rest : List (Cursor × Option Cursor)}
    (hnodup : ((u.below c ++ rest).map (·.1.id)).Nodup) :
    u.notBelow c (u.below c ++ rest) = rest := by
  have hgone : (u.below c).filter (fun y => !u.isBelow c y.1) = [] := by
    rw [List.filter_eq_nil_iff]
    intro y hy
    have hbelow : u.isBelow c y.1 = true := List.any_eq_true.2 ⟨y, hy, decide_eq_true rfl⟩
    simp [hbelow]
  have hkept : rest.filter (fun y => !u.isBelow c y.1) = rest := by
    rw [List.filter_eq_self]
    intro y hy
    rw [Bool.not_eq_true', Bool.eq_false_iff]
    intro hbelow
    obtain ⟨x, hx, hid⟩ := List.any_eq_true.1 hbelow
    rw [List.map_append] at hnodup
    exact (List.nodup_append.1 hnodup).2.2 _ (List.mem_map_of_mem hx) _ (List.mem_map_of_mem hy)
      (of_decide_eq_true hid)
  unfold notBelow
  rw [List.filter_append, hgone, hkept, List.nil_append]

theorem listed_cons_append (parent : Option Cursor) (c : Cursor) (cs : List Cursor)
    (rest : List (Cursor × Option Cursor)) :
    u.listed parent (c :: cs) ++ rest =
      (c, parent) :: (u.below c ++ (u.listed parent cs ++ rest)) := by
  rw [listed_cons, List.cons_append, List.append_assoc]

theorem nodup_of_listed_cons {rest : List (Cursor × Option Cursor)}
    (hnodup : ((u.listed parent (c :: cs) ++ rest).map (·.1.id)).Nodup) :
    ((u.below c ++ (u.listed parent cs ++ rest)).map (·.1.id)).Nodup ∧
      ((u.listed parent cs ++ rest).map (·.1.id)).Nodup := by
  rw [listed_cons_append, List.map_cons, List.nodup_cons] at hnodup
  refine ⟨hnodup.2, ?_⟩
  rw [List.map_append, List.nodup_append] at hnodup
  exact hnodup.2.2.1

/-- A visit makes of the nodes what the visitor makes of them along the list, and what follows in the
list comes behind the visit. -/
theorem Visits.along_eq (h : u.IsForest) (hvisits : Visits u v parent cs s o)
    (rest : List (Cursor × Option Cursor))
    (hnodup : ((u.listed parent cs ++ rest).map (·.1.id)).Nodup) :
    u.along v (u.listed parent cs ++ rest) s =
      if o.stopped then o else (u.along v rest o.state).after o.seen := by
  -- along the steps of the visit; what comes behind the node at hand is part of what follows
  induction hvisits generalizing rest with
  | done => rfl
  | stop hstep =>
    rw [listed_cons_append, along, hstep]
    rfl
  | @skip parent c cs s s' o hstep _ ih =>
    obtain ⟨hbelow, hrest⟩ := nodup_of_listed_cons hnodup
    rw [listed_cons_append, along, hstep]
    dsimp only
    rw [notBelow_append hbelow, ih rest hrest]
    cases hstopped : o.stopped <;> simp [hstopped]
  | @broken parent c cs s s' o hstep _ hstopped ih =>
    obtain ⟨hbelow, -⟩ := nodup_of_listed_cons hnodup
    rw [listed_cons_append, along, hstep]
    dsimp only
    rw [h.below_eq] at hbelow ⊢
    rw [ih _ hbelow, if_pos hstopped, Outcome.stopped_after, if_pos hstopped]
  | @descend parent c cs s s' o o' hstep _ hgoes _ ih ihrest =>
    obtain ⟨hbelow, hrest⟩ := nodup_of_listed_cons hnodup
    rw [listed_cons_append, along, hstep]
    dsimp only
    rw [h.below_eq] at hbelow ⊢
    rw [ih _ hbelow, if_neg (by simp [hgoes]), ihrest rest hrest]
    cases hstopped : o'.stopped <;> simp [hstopped]

/-- A visitor that always descends is led past every node. -/
theorem along_descend (xs : List (Cursor × Option Cursor)) (s : σ) :
    u.along (fun _ _ s => (.descend, s)) xs s = ⟨xs, false, s⟩ := by
  induction xs with
  | nil => rw [along]
  | cons x xs ih =>
    rw [along]
    dsimp only
    rw [ih]
    rfl

/-- The visit of a forest is the visitor led along the full visit. -/
theorem IsForest.visits_iff (h : u.IsForest) :
    Visits u v none u.topLevel s o ↔ o = u.along v u.preorder s := by
  have heq {o : Outcome σ} (ho : Visits u v none u.topLevel s o) : o = u.along v u.preorder s := by
    have hall := ho.along_eq h [] (by
      rw [List.append_nil, ← preorder_eq_listed]
      exact h.nodup_preorder)
    rw [List.append_nil, ← preorder_eq_listed] at hall
    rw [hall, along]
    cases hstopped : o.stopped with
    | true => rfl
    | false =>
      -- nothing is left behind a visit that was not stopped
      obtain ⟨seen, stopped, state⟩ := o
      obtain rfl : stopped = false := hstopped
      simp [Outcome.after]
  constructor
  · exact heq
  · rintro rfl
    obtain ⟨o, ho⟩ := h.exists_visits v none u.topLevel s
    rwa [← heq ho]

/-! ## Visitors without a state -/

/-- A visitor that does not look at a state. -/
def stateless (v : Cursor → Option Cursor → Walk) : Visitor Unit := fun c parent s => (v c parent, s)

/-- What a visit sees, as an outcome. -/
def Visit.outcome (x : Visit) : Outcome Unit := ⟨x.seen, x.stopped, ()⟩

theorem visits_visitAll {v : Cursor → Option Cursor → Walk} {below : Cursor → Visit}
    (h : ∀ c ∈ cs, Visits u (stateless v) (some c) (u.children c) () (below c).outcome) :
    Visits u (stateless v) parent cs () (visitAll v below parent cs).outcome := by
  induction cs with
  | nil => exact .done parent ()
  | cons c cs ih =>
    rw [List.forall_mem_cons] at h
    have hrest := ih h.2
    unfold visitAll
    cases hstep : v c parent with
    | stop => exact .stop (congrArg (·, ()) hstep)
    | skip => exact .skip (congrArg (·, ()) hstep) hrest
    | descend =>
      have hinner := h.1
      generalize below c = x at hinner
      obtain ⟨seen, stopped⟩ := x
      cases stopped with
      | true => exact .broken (congrArg (·, ()) hstep) hinner rfl
      | false => exact .descend (congrArg (·, ()) hstep) hinner rfl hrest

theorem IsForest.visits_visitBelow (h : u.IsForest) (v : Cursor → Option Cursor → Walk) {depth : Nat}
    (hdepth : u.nodes.length ≤ c.id + depth) :
    Visits u (stateless v) (some c) (u.children c) () (u.visitBelow v depth c).outcome := by
  induction depth generalizing c with
  | zero =>
    rw [h.children_eq_nil hdepth]
    exact .done _ ()
  | succ depth ih =>
    refine visits_visitAll fun d hd => ih ?_
    have hlt := h.lt_of_mem_children hd
    omega

/-- The nodes a visitor without a state sees. -/
theorem IsForest.walk_eq (h : u.IsForest) (v : Cursor → Option Cursor → Walk) :
    u.walk v = (u.along (stateless v) u.preorder ()).seen := by
  have hvisits : Visits u (stateless v) none u.topLevel ()
      (visitAll v (u.visitBelow v u.nodes.length) none u.topLevel).outcome :=
    visits_visitAll fun c _ => h.visits_visitBelow v (Nat.le_add_left u.nodes.length c.id)
  rw [← h.visits_iff.1 hvisits]
  rfl

end SketchSense.CompilationUnit
