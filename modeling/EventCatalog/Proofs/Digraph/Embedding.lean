import EventCatalog.Digraph
import EventCatalog.Proofs.Scope.Picking
import Mathlib.Data.List.Basic

/-! # A graph inside a larger one

A graph may be a part of a larger one in which its vertices have other names.  If no edge leads out
of the part (`Embeds`), a search that starts in it takes the same way as before, whatever other
vertices stand between those of the part: it reaches the same vertices in the same order
(`Embeds.reach_map`), they have the same components (`Embeds.component_map`), and the shortest
cycles are the same (`Embeds.shortestCycle_map`). -/

namespace EventCatalog.Digraph

variable {α β : Type}

/-- The vertices of a graph have the same edges in a larger one, under names that `g` gives them;
`old` tells them from the other vertices. -/
structure Embeds (g : α → β) (old : β → Bool) (next : α → List α) (next' : β → List β) : Prop where
  injective : Function.Injective g
  old_map : ∀ v, old (g v) = true
  next_map : ∀ v, next' (g v) = (next v).map g

namespace Embeds

variable [DecidableEq α] [DecidableEq β] {g : α → β} {old : β → Bool} {next : α → List α}
  {next' : β → List β} (h : Embeds g old next next')

include h

theorem contains_next (v w : α) : (next' (g v)).contains (g w) = (next v).contains w := by
  rw [Bool.eq_iff_iff, List.contains_iff_mem, List.contains_iff_mem, h.next_map,
    List.mem_map_of_injective h.injective]

omit [DecidableEq α] in
theorem old_of_contains {v : α} {b : β} (hb : (next' (g v)).contains b = true) : old b = true := by
  rw [List.contains_iff_mem, h.next_map, List.mem_map] at hb
  obtain ⟨w, -, rfl⟩ := hb
  exact h.old_map w

variable {vertices : List α} {vertices' : List β}

theorem ahead_map (hvertices : vertices'.filter old = vertices.map g) (v : α) :
    ahead next' (g v) vertices' = (ahead next v vertices).map g := by
  rw [ahead, ← filter_filter_of_imp fun b _ => h.old_of_contains, hvertices, List.filter_map, ahead]
  congr 2
  funext w
  exact h.contains_next v w

theorem aside_map (hvertices : vertices'.filter old = vertices.map g) (v : α) :
    (aside next' (g v) vertices').filter old = (aside next v vertices).map g := by
  rw [aside, filter_comm, hvertices, List.filter_map, aside]
  congr 2
  funext w
  exact congrArg not (h.contains_next v w)

theorem explore_map {fresh : List α} {fresh' : List β} (hfresh : fresh'.filter old = fresh.map g)
    (queue : List α) :
    explore next' fresh' (queue.map g) = (explore next fresh queue).map g := by
  fun_induction explore next fresh queue generalizing fresh' with
  | case1 fresh => simp [explore]
  | case2 fresh v rest ih =>
    rw [List.map_cons, explore, h.ahead_map hfresh, ← List.map_append, ih (h.aside_map hfresh v),
      List.map_append]

theorem reach_map (hvertices : vertices'.filter old = vertices.map g) (v : α) :
    reach vertices' next' (g v) = (reach vertices next v).map g :=
  h.explore_map hvertices [v]

/-- Here the edges of the graph are the ways of another one. -/
theorem component_map (hvertices : vertices'.filter old = vertices.map g) (v : α) :
    component vertices' next' (g v) = (component vertices next v).map g := by
  have hold : ∀ b ∈ vertices',
      ((next' (g v)).contains b && (next' b).contains (g v)) = true → old b = true :=
    fun b _ hb => h.old_of_contains (Bool.and_eq_true_iff.mp hb).1
  rw [component, ← filter_filter_of_imp hold, hvertices, List.filter_map, component]
  congr 2
  funext w
  rw [Function.comp_apply, h.contains_next, h.contains_next]

/-- A queue is renamed with the ways in it. -/
theorem search_map (goal : α) {fresh : List α} {fresh' : List β}
    (hfresh : fresh'.filter old = fresh.map g) (queue : List (α × List α)) :
    search next' (g goal) fresh' (queue.map (Prod.map g (List.map g))) =
      (search next goal fresh queue).map g := by
  fun_induction search next goal fresh queue generalizing fresh' with
  | case1 fresh => simp [search]
  | case2 fresh v way rest hfound =>
    rw [List.map_cons, Prod.map_apply, search, h.contains_next, if_pos hfound, List.map_reverse,
      List.map_cons]
  | case3 fresh v way rest hfound ih =>
    have hways : withWay (g v :: way.map g) ((ahead next v fresh).map g) =
        (withWay (v :: way) (ahead next v fresh)).map (Prod.map g (List.map g)) := by
      simp [withWay]
    rw [List.map_cons, Prod.map_apply, search, h.contains_next, if_neg hfound, h.ahead_map hfresh,
      hways, ← List.map_append, ih (h.aside_map hfresh v)]

theorem shortestCycle_map (members : List α) (start : α) :
    shortestCycle (members.map g) next' (g start) = (shortestCycle members next start).map g := by
  have hothers : ((members.map g).filter (· != g start)).filter old =
      (members.filter (· != start)).map g := by
    have hold : old ∘ g = fun _ => true := funext h.old_map
    have hne : (fun b => b != g start) ∘ g = fun v => v != start := by
      funext v
      rw [Function.comp_apply, Bool.eq_iff_iff, bne_iff_ne, bne_iff_ne, h.injective.ne_iff]
    rw [List.filter_map, List.filter_map, hold, hne, List.filter_true]
  exact h.search_map start hothers [(start, [])]

end Embeds

end EventCatalog.Digraph
