import EventCatalog.Proofs.Digraph.Search
import EventCatalog.Proofs.Scope.Picking

/-! # Searching with parents

A search that notes for each vertex the one that it was met from, and goes back through these
parents once it has met the goal, need not carry ways along (`parentCycle`).  It gives the same
cycle as the search with ways (`parentCycle_eq`).  The two searches are kept side by side by
`Matches`: the queues hold the same vertices, the parents lead back along the ways, and a vertex is
fresh as long as it has no parent. -/

namespace EventCatalog.Digraph

variable {α : Type} [DecidableEq α]

/-! ### The search -/

/-- The vertices on the way from a vertex back to the goal, from each to its parent; at most so many
parents are looked up. -/
def trail (parents : List (α × α)) (goal : α) : (steps : Nat) → α → List α
  | 0, v => [v]
  | steps + 1, v =>
    if v = goal then [v]
    else match parents.lookup v with
      | some parent => v :: trail parents goal steps parent
      | none => [v]

/-- What comes of looking at vertices one after another. -/
inductive Scan (α : Type)
  /-- One of them is the goal. -/
  | met (parents : List (α × α))
  /-- None of them is; those without a parent have been given one, and are queued. -/
  | passed (parents : List (α × α)) (queue : List α)

/-- Looks at the vertices that edges from `v` lead to. -/
def scan (goal v : α) : (ahead : List α) → (parents : List (α × α)) → (queue : List α) → Scan α
  | [], parents, queue => .passed parents queue
  | w :: ws, parents, queue =>
    if w = goal then .met parents
    else if (parents.lookup w).isSome then scan goal v ws parents queue
    else scan goal v ws ((w, v) :: parents) (queue ++ [w])

/-- The vertices of a list that have no parent. -/
def orphans (vertices : List α) (parents : List (α × α)) : List α :=
  vertices.filter fun w => (parents.lookup w).isNone

theorem mem_orphans {vertices : List α} {parents : List (α × α)} {w : α} :
    w ∈ orphans vertices parents ↔ w ∈ vertices ∧ parents.lookup w = none := by
  rw [orphans, List.mem_filter, Option.isNone_iff_eq_none]

theorem length_orphans_cons {members : List α} {parents : List (α × α)} {w : α} (v : α)
    (hw : w ∈ orphans members parents) :
    (orphans members ((w, v) :: parents)).length < (orphans members parents).length := by
  have hothers : orphans members ((w, v) :: parents) =
      (orphans members parents).filter fun u => !decide (u = w) := by
    rw [orphans, orphans, List.filter_filter]
    refine List.filter_congr fun u _ => ?_
    rw [lookup_cons_eq]
    split
    · rename_i h
      simp [h]
    · rename_i h
      simp [h]
  rw [hothers, List.length_filter_lt_length_iff_exists]
  exact ⟨w, hw, by simp⟩

/-- Whatever is queued has been without a parent before. -/
theorem length_orphans_scan {members ws queue queue' : List α} {parents parents' : List (α × α)}
    {goal v : α} (hws : ws ⊆ members)
    (h : scan goal v ws parents queue = .passed parents' queue') :
    (orphans members parents').length + queue'.length ≤
      (orphans members parents).length + queue.length := by
  induction ws generalizing parents queue with
  | nil =>
    cases h
    exact Nat.le_refl _
  | cons w ws ih =>
    obtain ⟨hw, hws⟩ := List.cons_subset.mp hws
    unfold scan at h
    split at h
    · cases h
    · split at h
      · exact ih hws h
      · rename_i hnew
        rw [Option.not_isSome_iff_eq_none] at hnew
        have hrest := ih hws h
        have hless := length_orphans_cons v (mem_orphans.mpr ⟨hw, hnew⟩)
        rw [List.length_append, List.length_singleton] at hrest
        omega

/-- Searches breadth first for an edge back to the goal, with the parents of the vertices that have
been met. -/
def searchParents (members : List α) (next : α → List α) (goal : α) (parents : List (α × α))
    (queue : List α) : List α :=
  match queue with
  | [] => [goal]
  | v :: rest =>
    match _ : scan goal v (ahead next v members) parents rest with
    | .met parents' => (trail parents' goal parents'.length v).reverse
    | .passed parents' queue' => searchParents members next goal parents' queue'
termination_by (orphans members parents).length + queue.length
decreasing_by
  rename_i hscan
  have hless := length_orphans_scan List.filter_sublist.subset hscan
  rw [List.length_cons]
  omega

theorem searchParents_of_met {members : List α} {next : α → List α} {goal v : α}
    {parents parents' : List (α × α)} {rest : List α}
    (h : scan goal v (ahead next v members) parents rest = .met parents') :
    searchParents members next goal parents (v :: rest) =
      (trail parents' goal parents'.length v).reverse := by
  unfold searchParents
  split <;> rename_i heq <;> rw [h] at heq <;> cases heq
  rfl

theorem searchParents_of_passed {members : List α} {next : α → List α} {goal v : α}
    {parents parents' : List (α × α)} {rest queue : List α}
    (h : scan goal v (ahead next v members) parents rest = .passed parents' queue) :
    searchParents members next goal parents (v :: rest) =
      searchParents members next goal parents' queue := by
  conv_lhs => unfold searchParents
  split <;> rename_i heq <;> rw [h] at heq <;> cases heq
  rfl

/-- A walk from a vertex through others back to itself, found with parents. -/
def parentCycle (members : List α) (next : α → List α) (start : α) : List α :=
  searchParents members next start [] [start]

/-! ### Ways and parents -/

variable {members ws queue : List α} {parents parents' : List (α × α)} {goal v : α}

/-- No parent is lost. -/
structure Extends (parents parents' : List (α × α)) : Prop where
  kept : ∀ w p, parents.lookup w = some p → parents'.lookup w = some p
  length_le : parents.length ≤ parents'.length

theorem Extends.refl (parents : List (α × α)) : Extends parents parents :=
  ⟨fun _ _ h => h, Nat.le_refl _⟩

theorem Extends.cons {w : α} (hw : parents.lookup w = none) (v : α)
    (h : Extends ((w, v) :: parents) parents') : Extends parents parents' where
  kept u p hu := by
    refine h.kept u p ?_
    rw [lookup_cons_eq, if_neg, hu]
    rintro rfl
    rw [hw] at hu
    cases hu
  length_le := (Nat.le_succ _).trans h.length_le

/-- The parents lead from a vertex back to the goal along a way, the last vertex of which comes
first. -/
inductive Leads (parents : List (α × α)) (goal : α) : List α → α → Prop
  | goal : Leads parents goal [] goal
  | step {v p : α} {way : List α} : v ≠ goal → parents.lookup v = some p →
    Leads parents goal way p → Leads parents goal (p :: way) v

theorem Leads.mono {way : List α} (h : Leads parents goal way v) (hext : Extends parents parents') :
    Leads parents' goal way v := by
  induction h with
  | goal => exact .goal
  | step hne hparent _ ih => exact .step hne (hext.kept _ _ hparent) ih

theorem Leads.trail_eq {way : List α} (h : Leads parents goal way v) {steps : Nat}
    (hsteps : way.length ≤ steps) : trail parents goal steps v = v :: way := by
  induction h generalizing steps with
  | goal => cases steps with
    | zero => rfl
    | succ steps => exact if_pos rfl
  | step hne hparent _ ih =>
    obtain ⟨steps, rfl⟩ := Nat.exists_eq_add_of_le' hsteps
    rw [List.length_cons, ← Nat.add_assoc, trail, if_neg hne, hparent]
    exact congrArg _ (ih (Nat.le_add_left _ _))

/-! ### Looking at what is ahead -/

/-- The parents once `v` has become that of some more vertices. -/
def adopt (v : α) (ws : List α) (parents : List (α × α)) : List (α × α) :=
  ws.foldl (fun parents w => (w, v) :: parents) parents

theorem lookup_adopt (u : α) :
    (adopt v ws parents).lookup u = if u ∈ ws then some v else parents.lookup u := by
  induction ws generalizing parents with
  | nil => rfl
  | cons w ws ih =>
    have hstep : adopt v (w :: ws) parents = adopt v ws ((w, v) :: parents) := rfl
    rw [hstep, ih, lookup_cons_eq]
    by_cases hu : u ∈ ws
    · rw [if_pos hu, if_pos (List.mem_cons_of_mem _ hu)]
    · simp only [hu, if_false, List.mem_cons, or_false]

omit [DecidableEq α] in
theorem length_adopt : (adopt v ws parents).length = ws.length + parents.length := by
  induction ws generalizing parents with
  | nil => exact (Nat.zero_add _).symm
  | cons w ws ih =>
    have hstep : adopt v (w :: ws) parents = adopt v ws ((w, v) :: parents) := rfl
    rw [hstep, ih, List.length_cons, List.length_cons]
    omega

theorem Extends.adopt (v : α) (hws : ∀ w ∈ ws, parents.lookup w = none) :
    Extends parents (adopt v ws parents) where
  kept w p hp := by
    rw [lookup_adopt, if_neg, hp]
    intro hw
    rw [hws w hw] at hp
    cases hp
  length_le := by
    rw [length_adopt]
    exact Nat.le_add_left _ _

/-- The goal is met where it is ahead. -/
theorem exists_scan_eq_met (v : α) (parents : List (α × α)) (queue : List α) (hgoal : goal ∈ ws) :
    ∃ parents', scan goal v ws parents queue = .met parents' ∧ Extends parents parents' := by
  induction ws generalizing parents queue with
  | nil => cases hgoal
  | cons w ws ih =>
    unfold scan
    by_cases hw : w = goal
    · exact ⟨parents, if_pos hw, .refl _⟩
    · obtain hgoal := (List.mem_cons.mp hgoal).resolve_left (Ne.symm hw)
      rw [if_neg hw]
      split
      · exact ih _ _ hgoal
      · rename_i hnew
        rw [Option.not_isSome_iff_eq_none] at hnew
        obtain ⟨parents', hscan, hext⟩ := ih ((w, v) :: parents) (queue ++ [w]) hgoal
        exact ⟨parents', hscan, .cons hnew v hext⟩

/-- Where the goal is not ahead, `v` becomes the parent of what has none, and that is queued. -/
theorem scan_eq_passed (v : α) (parents : List (α × α)) (queue : List α) (hgoal : goal ∉ ws)
    (hws : ws.Nodup) :
    scan goal v ws parents queue =
      .passed (adopt v (orphans ws parents) parents) (queue ++ orphans ws parents) := by
  induction ws generalizing parents queue with
  | nil => exact congrArg (Scan.passed parents) (List.append_nil _).symm
  | cons w ws ih =>
    obtain ⟨hne, hgoal⟩ := not_or.mp (mt List.mem_cons.mpr hgoal)
    obtain ⟨hw, hws⟩ := List.nodup_cons.mp hws
    unfold scan
    rw [if_neg (Ne.symm hne)]
    split
    · rename_i hknown
      have hskip : orphans (w :: ws) parents = orphans ws parents := by
        rw [orphans, List.filter_cons_of_neg]
        · rfl
        · simpa using Option.isSome_iff_ne_none.mp hknown
      rw [hskip, ih _ _ hgoal hws]
    · rename_i hnew
      have hsame : orphans ws ((w, v) :: parents) = orphans ws parents := by
        refine List.filter_congr fun u hu => ?_
        rw [lookup_cons_eq, if_neg]
        rintro rfl
        exact hw hu
      rw [Option.not_isSome_iff_eq_none] at hnew
      have htake : orphans (w :: ws) parents = w :: orphans ws parents := by
        rw [orphans, List.filter_cons_of_pos]
        · rfl
        · exact Option.isNone_iff_eq_none.mpr hnew
      rw [ih _ _ hgoal hws, hsame, htake, List.append_assoc]
      rfl

/-! ### Both searches side by side -/

/-- What the search with parents knows is what the search with ways knows. -/
structure Matches (members : List α) (goal : α) (parents : List (α × α)) (fresh : List α)
    (queue : List (α × List α)) : Prop where
  fresh_eq : fresh = (orphans members parents).filter (· != goal)
  leads : ∀ p ∈ queue, Leads parents goal p.2 p.1
  length_le : ∀ p ∈ queue, p.2.length ≤ parents.length

variable {next : α → List α} {fresh way : List α} {rest : List (α × List α)}

/-- What is ahead and has no parent is fresh. -/
theorem Matches.orphans_ahead {queue : List (α × List α)}
    (h : Matches members goal parents fresh queue) (hgoal : goal ∉ next v) :
    orphans (ahead next v members) parents = ahead next v fresh := by
  rw [h.fresh_eq, orphans, ahead, ahead, orphans, List.filter_filter, List.filter_filter,
    List.filter_filter]
  refine List.filter_congr fun w _ => ?_
  by_cases hw : w = goal
  · simp [hw, hgoal]
  · simp [bne_iff_ne.mpr hw, Bool.and_comm]

theorem Matches.mem_fresh {queue : List (α × List α)} {w : α}
    (h : Matches members goal parents fresh queue) :
    w ∈ fresh ↔ (w ∈ members ∧ parents.lookup w = none) ∧ w ≠ goal := by
  rw [h.fresh_eq, List.mem_filter, mem_orphans, bne_iff_ne]

/-- The vertices that `v` has not become the parent of stay fresh. -/
theorem Matches.orphans_adopt {queue : List (α × List α)}
    (h : Matches members goal parents fresh queue) :
    aside next v fresh =
      (orphans members (adopt v (ahead next v fresh) parents)).filter (· != goal) := by
  conv_lhs => rw [aside, h.fresh_eq]
  rw [orphans, orphans, List.filter_filter, List.filter_filter, List.filter_filter]
  refine List.filter_congr fun w hw => ?_
  have hahead : w ∈ ahead next v fresh ↔ (parents.lookup w = none ∧ w ≠ goal) ∧ w ∈ next v := by
    rw [mem_ahead, h.mem_fresh]
    simp only [hw, true_and]
  rw [lookup_adopt, Bool.eq_iff_iff]
  by_cases hmem : w ∈ ahead next v fresh
  · simp [hmem, (hahead.mp hmem).2]
  · rw [if_neg hmem]
    rw [hahead] at hmem
    simp only [Bool.and_eq_true, Bool.not_eq_true', bne_iff_ne, Option.isNone_iff_eq_none,
      List.contains_eq_mem, decide_eq_false_iff_not]
    tauto

/-- A vertex that is taken from both queues leaves them alike. -/
theorem Matches.step (h : Matches members goal parents fresh ((v, way) :: rest)) :
    Matches members goal (adopt v (ahead next v fresh) parents) (aside next v fresh)
      (rest ++ withWay (v :: way) (ahead next v fresh)) := by
  have hnew : ∀ w ∈ ahead next v fresh, parents.lookup w = none := fun w hw =>
    (h.mem_fresh.mp (mem_ahead.mp hw).1).1.2
  have hext := Extends.adopt v hnew
  refine ⟨h.orphans_adopt, fun p hp => ?_, fun p hp => ?_⟩
  · obtain hp | hp := List.mem_append.mp hp
    · exact (h.leads p (List.mem_cons_of_mem _ hp)).mono hext
    · obtain ⟨w, hw, rfl⟩ := List.mem_map.mp hp
      refine .step (h.mem_fresh.mp (mem_ahead.mp hw).1).2 ?_
        ((h.leads (v, way) List.mem_cons_self).mono hext)
      rw [lookup_adopt, if_pos hw]
  · obtain hp | hp := List.mem_append.mp hp
    · exact (h.length_le p (List.mem_cons_of_mem _ hp)).trans hext.length_le
    · obtain ⟨w, hw, rfl⟩ := List.mem_map.mp hp
      have hway := h.length_le (v, way) List.mem_cons_self
      have hone := List.length_pos_of_mem hw
      rw [length_adopt]
      simp only [List.length_cons] at hway ⊢
      omega

/-- Both searches give the same walk. -/
theorem searchParents_eq {queue : List (α × List α)} (hmembers : members.Nodup)
    (hgoal : goal ∈ members) (h : Matches members goal parents fresh queue) :
    searchParents members next goal parents (queue.map Prod.fst) = search next goal fresh queue := by
  fun_induction search next goal fresh queue generalizing parents with
  | case1 fresh =>
    unfold searchParents
    rfl
  | case2 fresh v way rest hfound =>
    have hahead : goal ∈ ahead next v members := mem_ahead.mpr ⟨hgoal, by simpa using hfound⟩
    obtain ⟨parents', hscan, hext⟩ := exists_scan_eq_met v parents (rest.map Prod.fst) hahead
    have hway := (h.leads (v, way) List.mem_cons_self).mono hext
    have hlength := (h.length_le (v, way) List.mem_cons_self).trans hext.length_le
    rw [List.map_cons, searchParents_of_met hscan, hway.trail_eq hlength]
  | case3 fresh v way rest hfound ih =>
    have hnext : goal ∉ next v := by simpa using hfound
    have hahead : goal ∉ ahead next v members := fun hmem => hnext (mem_ahead.mp hmem).2
    have hscan := scan_eq_passed v parents (rest.map Prod.fst) hahead (hmembers.filter _)
    rw [h.orphans_ahead hnext] at hscan
    have hqueue : (rest ++ withWay (v :: way) (ahead next v fresh)).map Prod.fst =
        rest.map Prod.fst ++ ahead next v fresh := by
      rw [List.map_append, withWay, List.map_map]
      exact congrArg _ (List.map_id _)
    rw [List.map_cons, searchParents_of_passed hscan, ← hqueue]
    exact ih h.step

/-- The search with parents gives the same cycle. -/
theorem parentCycle_eq {start : α} (hmembers : members.Nodup) (hstart : start ∈ members) :
    parentCycle members next start = shortestCycle members next start := by
  have hall : orphans members ([] : List (α × α)) = members :=
    List.filter_eq_self.mpr fun _ _ => rfl
  have hmatches : Matches members start [] (members.filter (· != start)) [(start, [])] := by
    refine ⟨by rw [hall], fun p hp => ?_, fun p hp => ?_⟩ <;> obtain rfl := List.mem_singleton.mp hp
    · exact .goal
    · exact Nat.le_refl _
  exact searchParents_eq hmembers hstart hmatches

end EventCatalog.Digraph
