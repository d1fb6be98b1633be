import EventCatalog.Digraph
import Mathlib.Data.List.Chain
import Mathlib.Data.List.Nodup
import Mathlib.Logic.Relation

/-! # Searching a directed graph

`Follows next vertices` is the relation of the edges that stay among some vertices.

* `mem_reach` and `mem_component`: what can be reached, and what lies on a common cycle, are the
  transitive closure of that relation and its symmetric part.
* `shortestCycle_spec`: the walk that the breadth-first search gives back is closed, repeats no
  vertex and is as short as any other; in particular the search never ends without one where there is
  one.  The invariant `Promising` of the search is about an arbitrary closed walk: the queue holds a
  vertex of it, at no greater depth than the walk has it, and all that the walk visits later is
  still fresh. -/

namespace EventCatalog.Digraph

variable {α : Type} [DecidableEq α] {next : α → List α}

/-- An edge leads from one vertex to another, which is among the given ones. -/
def Follows (next : α → List α) (vertices : List α) (v w : α) : Prop := w ∈ next v ∧ w ∈ vertices

theorem mem_ahead {v w : α} {vertices : List α} :
    w ∈ ahead next v vertices ↔ w ∈ vertices ∧ w ∈ next v := by
  simp [ahead]

theorem mem_aside {v w : α} {vertices : List α} :
    w ∈ aside next v vertices ↔ w ∈ vertices ∧ w ∉ next v := by
  simp [aside]

/-! ### Reachability -/

/-- A way through fresh vertices goes on through those that are not ahead once it has passed the last
one ahead. -/
theorem beyond_ahead {fresh rest : List α} {v q w : α} (hq : q ∈ v :: rest)
    (h : Relation.TransGen (Follows next fresh) q w) :
    w ∈ ahead next v fresh ∨ ∃ p ∈ rest ++ ahead next v fresh,
      Relation.TransGen (Follows next (aside next v fresh)) p w := by
  induction h with
  | @single w hstep =>
    by_cases hw : w ∈ next v
    · exact .inl (mem_ahead.mpr ⟨hstep.2, hw⟩)
    · have hrest : q ∈ rest := by
        rcases List.mem_cons.mp hq with rfl | hq
        · exact absurd hstep.1 hw
        · exact hq
      exact .inr ⟨q, List.mem_append_left _ hrest, .single ⟨hstep.1, mem_aside.mpr ⟨hstep.2, hw⟩⟩⟩
  | @tail b w _ hstep ih =>
    by_cases hw : w ∈ next v
    · exact .inl (mem_ahead.mpr ⟨hstep.2, hw⟩)
    · have hlast : Follows next (aside next v fresh) b w :=
        ⟨hstep.1, mem_aside.mpr ⟨hstep.2, hw⟩⟩
      rcases ih with hb | ⟨p, hp, hway⟩
      · exact .inr ⟨b, List.mem_append_right _ hb, .single hlast⟩
      · exact .inr ⟨p, hp, hway.tail hlast⟩

theorem mem_explore {fresh queue : List α} {w : α} :
    w ∈ explore next fresh queue ↔
      ∃ q ∈ queue, Relation.TransGen (Follows next fresh) q w := by
  fun_induction explore next fresh queue with
  | case1 fresh => simp
  | case2 fresh v rest ih =>
    have hwiden : Relation.TransGen (Follows next (aside next v fresh)) ≤
        Relation.TransGen (Follows next fresh) :=
      Relation.TransGen.mono fun _ _ h => ⟨h.1, (mem_aside.mp h.2).1⟩
    have hstep : ∀ {b : α}, b ∈ ahead next v fresh → Follows next fresh v b :=
      fun hb => ⟨(mem_ahead.mp hb).2, (mem_ahead.mp hb).1⟩
    rw [List.mem_append, ih]
    constructor
    · rintro (hw | ⟨q, hq, hway⟩)
      · exact ⟨v, List.mem_cons_self, .single (hstep hw)⟩
      · rcases List.mem_append.mp hq with hq | hq
        · exact ⟨q, List.mem_cons_of_mem _ hq, hwiden _ _ hway⟩
        · exact ⟨v, List.mem_cons_self, .head (hstep hq) (hwiden _ _ hway)⟩
    · rintro ⟨q, hq, hway⟩
      exact beyond_ahead hq hway

omit [DecidableEq α] in
/-- What an edge leads to is among the vertices. -/
theorem mem_of_isChain {vertices walk : List α} {v w : α}
    (h : (v :: walk).IsChain (Follows next vertices)) (hw : w ∈ walk) : w ∈ vertices := by
  induction walk generalizing v with
  | nil => cases hw
  | cons u walk ih =>
    obtain ⟨hstep, hrest⟩ := List.isChain_cons_cons.mp h
    rcases List.mem_cons.mp hw with rfl | hw
    · exact hstep.2
    · exact ih hrest hw

theorem mem_reach {vertices : List α} {v w : α} :
    w ∈ reach vertices next v ↔ Relation.TransGen (Follows next vertices) v w := by
  simp [reach, mem_explore]

theorem mem_component {vertices : List α} {reached : α → List α} {v w : α} :
    w ∈ component vertices reached v ↔ w ∈ vertices ∧ w ∈ reached v ∧ v ∈ reached w := by
  simp [component]

/-! ### Closed walks -/

/-- A walk along edges of a relation that begins at a vertex and whose end an edge leads from back
to the beginning; the vertex is not repeated at the end. -/
def ClosedWalk (edge : α → α → Prop) (start : α) (walk : List α) : Prop :=
  walk.head? = some start ∧ (walk ++ [start]).IsChain edge

omit [DecidableEq α] in
theorem transGen_of_isChain {edge : α → α → Prop} {v w : α} {between : List α}
    (h : (v :: (between ++ [w])).IsChain edge) : Relation.TransGen edge v w := by
  induction between generalizing v with
  | nil => exact .single (List.isChain_cons_cons.mp h).1
  | cons b between ih =>
    obtain ⟨hstep, hrest⟩ := List.isChain_cons_cons.mp h
    exact .head hstep (ih hrest)

namespace ClosedWalk

variable {edge : α → α → Prop} {start : α} {walk : List α}

omit [DecidableEq α] in
theorem exists_cons (h : ClosedWalk edge start walk) : ∃ rest, walk = start :: rest := by
  cases walk with
  | nil => cases h.1
  | cons v rest =>
    obtain rfl : v = start := by simpa using h.1
    exact ⟨rest, rfl⟩

omit [DecidableEq α] in
theorem mono {edge' : α → α → Prop} (h : ClosedWalk edge start walk)
    (himp : ∀ v ∈ walk, ∀ w ∈ walk, edge v w → edge' v w) : ClosedWalk edge' start walk := by
  obtain ⟨rest, rfl⟩ := h.exists_cons
  have hmem : ∀ {v : α}, v ∈ start :: rest ++ [start] → v ∈ start :: rest := by
    intro v hv
    simpa [or_comm, or_assoc] using hv
  exact ⟨h.1, List.IsChain.imp_of_mem_imp (fun v w hv hw => himp v (hmem hv) w (hmem hw)) h.2⟩

omit [DecidableEq α] in
/-- Around a closed walk every vertex is reached from every other. -/
theorem reaches (h : ClosedWalk edge start walk) {v : α} (hv : v ∈ walk) :
    Relation.ReflTransGen edge start v ∧ Relation.TransGen edge v start := by
  obtain ⟨before, after, rfl⟩ := List.append_of_mem hv
  obtain ⟨hhead, hchain⟩ := h
  rw [List.append_assoc, List.cons_append, List.isChain_split] at hchain
  constructor
  · cases before with
    | nil =>
      obtain rfl : v = start := by simpa using hhead
      exact .refl
    | cons u before =>
      obtain rfl : u = start := by simpa using hhead
      exact (transGen_of_isChain hchain.1).to_reflTransGen
  · exact transGen_of_isChain hchain.2

end ClosedWalk

omit [DecidableEq α] in
/-- A vertex that reaches itself lies on a closed walk. -/
theorem exists_closedWalk {edge : α → α → Prop} {start : α}
    (h : Relation.TransGen edge start start) : ∃ walk, ClosedWalk edge start walk := by
  obtain ⟨last, hway, hlast⟩ := Relation.TransGen.tail'_iff.mp h
  obtain ⟨rest, hchain, hend⟩ := List.exists_isChain_cons_of_relationReflTransGen hway
  refine ⟨start :: rest, rfl, List.isChain_append.mpr ⟨hchain, by simp, ?_⟩⟩
  intro x hx y hy
  obtain rfl : y = start := by simpa using hy.symm
  rw [List.getLast?_eq_some_getLast (List.cons_ne_nil _ _), hend] at hx
  cases hx
  exact hlast

/-! ### The search for a closed walk -/

/-- What is true of a queued vertex and the way to it: together they are a walk from the goal that
repeats no vertex, and none of them is fresh. -/
structure Way (next : α → List α) (members : List α) (goal : α) (fresh : List α)
    (p : α × List α) : Prop where
  starts : (p.1 :: p.2).reverse.head? = some goal
  chain : (p.1 :: p.2).reverse.IsChain (Follows next members)
  distinct : (p.1 :: p.2).Nodup
  seen : ∀ v ∈ p.1 :: p.2, v ∉ fresh

/-- The ways in the queue get longer towards its end, by one edge at most. -/
structure Layered (queue : List (α × List α)) : Prop where
  sorted : queue.Pairwise fun p q => p.2.length ≤ q.2.length
  close : ∀ p ∈ queue, ∀ q ∈ queue, p.2.length ≤ q.2.length + 1

/-- A walk is still to be found: a vertex of it is queued, no deeper than it is on the walk, and all
later ones are fresh. -/
def Promising (fresh : List α) (queue : List (α × List α)) (walk : List α) : Prop :=
  ∃ before v after way, walk = before ++ v :: after ∧ (v, way) ∈ queue ∧
    way.length ≤ before.length ∧ ∀ w ∈ after, w ∈ fresh

omit [DecidableEq α] in
/-- A list is cut behind the last of its items that have a property. -/
theorem exists_last {p : α → Prop} {l : List α} (h : ∃ a ∈ l, p a) :
    ∃ before a after, l = before ++ a :: after ∧ p a ∧ ∀ b ∈ after, ¬p b := by
  induction l with
  | nil => simp at h
  | cons c l ih =>
    by_cases hl : ∃ a ∈ l, p a
    · obtain ⟨before, a, after, rfl, ha, hafter⟩ := ih hl
      exact ⟨c :: before, a, after, rfl, ha, hafter⟩
    · have hc : p c := by
        obtain ⟨a, ha, hpa⟩ := h
        rcases List.mem_cons.mp ha with rfl | ha
        · exact hpa
        · exact absurd ⟨a, ha, hpa⟩ hl
      exact ⟨[], c, l, rfl, hc, fun b hb hpb => hl ⟨b, hb, hpb⟩⟩

section Step

variable {members fresh : List α} {goal v : α} {way : List α} {rest : List (α × List α)}

theorem Way.mono {p : α × List α} (h : Way next members goal fresh p) :
    Way next members goal (aside next v fresh) p :=
  ⟨h.starts, h.chain, h.distinct, fun w hw hfresh => h.seen w hw (mem_aside.mp hfresh).1⟩

/-- A vertex ahead of a queued one is queued with the way that led to it. -/
theorem Way.extend (hmembers : ∀ w ∈ fresh, w ∈ members) (h : Way next members goal fresh (v, way))
    {w : α} (hw : w ∈ ahead next v fresh) :
    Way next members goal (aside next v fresh) (w, v :: way) := by
  obtain ⟨hfresh, hnext⟩ := mem_ahead.mp hw
  constructor
  · rw [List.reverse_cons, List.head?_append_of_ne_nil _ (by simp)]
    exact h.starts
  · rw [List.reverse_cons]
    refine List.isChain_append.mpr ⟨h.chain, by simp, ?_⟩
    intro x hx y hy
    obtain rfl : y = w := by simpa using hy.symm
    obtain rfl : x = v := by simpa using hx.symm
    exact ⟨hnext, hmembers y hfresh⟩
  · exact List.nodup_cons.mpr ⟨fun hmem => h.seen w hmem hfresh, h.distinct⟩
  · intro u hu hside
    rcases List.mem_cons.mp hu with rfl | hu
    · exact (mem_aside.mp hside).2 hnext
    · exact h.seen u hu (mem_aside.mp hside).1

omit [DecidableEq α] in
theorem Layered.step (h : Layered ((v, way) :: rest)) (more : List α) :
    Layered (rest ++ withWay (v :: way) more) := by
  have hfront : ∀ p ∈ rest, way.length ≤ p.2.length := (List.pairwise_cons.mp h.sorted).1
  have hback : ∀ p ∈ rest, p.2.length ≤ way.length + 1 := fun p hp =>
    h.close p (List.mem_cons_of_mem _ hp) (v, way) List.mem_cons_self
  have hnew : ∀ p ∈ withWay (v :: way) more, p.2.length = way.length + 1 := by
    intro p hp
    obtain ⟨w, -, rfl⟩ := List.mem_map.mp hp
    rfl
  constructor
  · refine List.pairwise_append.mpr ⟨(List.pairwise_cons.mp h.sorted).2, ?_, ?_⟩
    · exact List.pairwise_of_forall_mem_list fun p hp q hq => by rw [hnew p hp, hnew q hq]
    · intro p hp q hq
      rw [hnew q hq]
      exact hback p hp
  · intro p hp q hq
    rcases List.mem_append.mp hp with hp | hp <;> rcases List.mem_append.mp hq with hq | hq
    · exact h.close p (List.mem_cons_of_mem _ hp) q (List.mem_cons_of_mem _ hq)
    · have := hback p hp
      have := hnew q hq
      omega
    · have := hfront q hq
      have := hnew p hp
      omega
    · have := hnew p hp
      have := hnew q hq
      omega

/-- The search keeps its promise unless it has come to the end of the walk. -/
theorem Promising.step {walk : List α} (hlayers : Layered ((v, way) :: rest))
    (hwalk : ClosedWalk (Follows next members) goal walk) (hgoal : goal ∉ next v)
    (h : Promising fresh ((v, way) :: rest) walk) :
    Promising (aside next v fresh) (rest ++ withWay (v :: way) (ahead next v fresh)) walk := by
  obtain ⟨before, x, after, xway, rfl, hx, hdepth, hafter⟩ := h
  have hshort : way.length ≤ xway.length := by
    rcases List.mem_cons.mp hx with hx | hx
    · rw [(Prod.mk.inj hx).2]
    · exact (List.pairwise_cons.mp hlayers.sorted).1 _ hx
  by_cases hfound : ∃ y ∈ after, y ∈ next v
  · -- The last vertex of the walk that has come up takes the place of the former one.
    obtain ⟨between, y, later, rfl, hy, hlater⟩ := exists_last hfound
    have hfresh : y ∈ fresh := hafter y (by simp)
    refine ⟨before ++ x :: between, y, later, v :: way, by simp, ?_, ?_, ?_⟩
    · exact List.mem_append_right _ (List.mem_map.mpr ⟨y, mem_ahead.mpr ⟨hfresh, hy⟩, rfl⟩)
    · simp only [List.length_cons, List.length_append]
      omega
    · exact fun w hw => mem_aside.mpr ⟨hafter w (by simp [hw]), hlater w hw⟩
  · have hlater : ∀ w ∈ after, w ∈ aside next v fresh := fun w hw =>
      mem_aside.mpr ⟨hafter w hw, fun hnext => hfound ⟨w, hw, hnext⟩⟩
    rcases List.mem_cons.mp hx with hx | hx
    · -- The walk goes on from the vertex that was taken, so something of it would have come up.
      obtain ⟨rfl, rfl⟩ := Prod.mk.inj hx
      have hchain := hwalk.2
      rw [List.append_assoc, List.cons_append, List.isChain_split] at hchain
      cases after with
      | nil => exact absurd (List.isChain_cons_cons.mp hchain.2).1.1 hgoal
      | cons y after =>
        exact absurd ⟨y, List.mem_cons_self, (List.isChain_cons_cons.mp hchain.2).1.1⟩ hfound
    · exact ⟨before, x, after, xway, rfl, List.mem_append_left _ hx, hdepth, hlater⟩

end Step

/-- The search gives a closed walk that is as short as the one it was promised. -/
theorem search_spec {members fresh walk : List α} {goal : α} {queue : List (α × List α)}
    (hmembers : ∀ w ∈ fresh, w ∈ members) (hgoal : goal ∈ members)
    (hways : ∀ p ∈ queue, Way next members goal fresh p) (hlayers : Layered queue)
    (hwalk : ClosedWalk (Follows next members) goal walk) (h : Promising fresh queue walk) :
    ClosedWalk (Follows next members) goal (search next goal fresh queue) ∧
      (search next goal fresh queue).Nodup ∧
      (search next goal fresh queue).length ≤ walk.length := by
  fun_induction search next goal fresh queue with
  | case1 fresh =>
    obtain ⟨_, _, _, _, _, hx, _⟩ := h
    cases hx
  | case2 fresh v way rest hfound =>
    have hfirst := hways (v, way) List.mem_cons_self
    refine ⟨⟨hfirst.starts, List.isChain_append.mpr ⟨hfirst.chain, by simp, ?_⟩⟩,
      List.nodup_reverse.mpr hfirst.distinct, ?_⟩
    · intro x hx y hy
      obtain rfl : y = goal := by simpa using hy.symm
      obtain rfl : x = v := by simpa using hx.symm
      exact ⟨by simpa using hfound, hgoal⟩
    · obtain ⟨before, x, after, xway, rfl, hx, hdepth, -⟩ := h
      have hshort : way.length ≤ xway.length := by
        rcases List.mem_cons.mp hx with hx | hx
        · rw [(Prod.mk.inj hx).2]
        · exact (List.pairwise_cons.mp hlayers.sorted).1 _ hx
      simp only [List.length_reverse, List.length_cons, List.length_append]
      omega
  | case3 fresh v way rest hfound ih =>
    have hnext : goal ∉ next v := by simpa using hfound
    refine ih (fun w hw => hmembers w (mem_aside.mp hw).1) ?_ (hlayers.step _)
      (h.step hlayers hwalk hnext)
    intro p hp
    rcases List.mem_append.mp hp with hp | hp
    · exact (hways p (List.mem_cons_of_mem _ hp)).mono
    · obtain ⟨w, hw, rfl⟩ := List.mem_map.mp hp
      exact (hways (v, way) List.mem_cons_self).extend hmembers hw

/-- Where there is a closed walk among some vertices, the search gives one that repeats no vertex,
and it is as short as any. -/
theorem shortestCycle_spec {members walk : List α} {start : α} (hstart : start ∈ members)
    (hwalk : ClosedWalk (Follows next members) start walk) :
    ClosedWalk (Follows next members) start (shortestCycle members next start) ∧
      (shortestCycle members next start).Nodup ∧
      (shortestCycle members next start).length ≤ walk.length := by
  have hways : ∀ p ∈ [(start, ([] : List α))],
      Way next members start (members.filter (· != start)) p := by
    intro p hp
    obtain rfl := List.mem_singleton.mp hp
    exact ⟨rfl, by simp, by simp, by simp⟩
  have hlayers : Layered [(start, ([] : List α))] := ⟨by simp, by simp⟩
  have hpromise : Promising (members.filter (· != start)) [(start, [])] walk := by
    obtain ⟨rest, hrest⟩ := hwalk.exists_cons
    obtain ⟨before, v, after, hcut, rfl, hafter⟩ :=
      exists_last (p := (· = start)) (l := walk) ⟨start, by simp [hrest], rfl⟩
    refine ⟨before, v, after, [], hcut, List.mem_singleton_self _, Nat.zero_le _, ?_⟩
    intro w hw
    have hchain := hwalk.2
    rw [hcut, List.append_assoc, List.cons_append, List.isChain_split] at hchain
    exact List.mem_filter.mpr
      ⟨mem_of_isChain hchain.2 (List.mem_append_left _ hw), by simpa using hafter w hw⟩
  exact search_spec (fun w hw => (List.mem_filter.mp hw).1) hstart hways hlayers hwalk hpromise

end EventCatalog.Digraph
