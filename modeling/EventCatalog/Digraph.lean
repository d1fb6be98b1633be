/-! # Cycles in directed graphs

A graph is given by its vertices and by a function that says which vertices an edge leads to.

* `Digraph.reach` lists what can be reached by one or more edges.
* `Digraph.component` lists the vertices of the strongly connected component of a vertex that lies
  on a cycle, and nothing for a vertex that lies on none.
* `Digraph.shortestCycle` is a shortest walk from a vertex back to itself. -/

namespace EventCatalog.Digraph

variable {α : Type} [DecidableEq α]

/-- The vertices of a list that an edge leads to from `v`. -/
def ahead (next : α → List α) (v : α) (vertices : List α) : List α :=
  vertices.filter (next v).contains

/-- The other vertices of the list. -/
def aside (next : α → List α) (v : α) (vertices : List α) : List α :=
  vertices.filter fun w => !(next v).contains w

omit [DecidableEq α] in
theorem length_filter_add (p : α → Bool) (vertices : List α) :
    (vertices.filter p).length + (vertices.filter fun w => !p w).length = vertices.length := by
  induction vertices with
  | nil => rfl
  | cons w ws ih =>
    cases h : p w <;> simp [h] <;> omega

theorem length_ahead_add_aside (next : α → List α) (v : α) (vertices : List α) :
    (ahead next v vertices).length + (aside next v vertices).length = vertices.length :=
  length_filter_add _ _

/-- The vertices among `fresh` that can be reached from the queued ones through others of them. -/
def explore (next : α → List α) (fresh queue : List α) : List α :=
  match queue with
  | [] => []
  | v :: rest =>
    ahead next v fresh ++ explore next (aside next v fresh) (rest ++ ahead next v fresh)
termination_by fresh.length + queue.length
decreasing_by
  have h := length_ahead_add_aside next v fresh
  simp only [List.length_append, List.length_cons]
  omega

/-- The vertices that can be reached from a vertex by one or more edges. -/
def reach (vertices : List α) (next : α → List α) (v : α) : List α := explore next vertices [v]

/-- The vertices that lie on a common cycle with a vertex, itself included. -/
def component (vertices : List α) (reached : α → List α) (v : α) : List α :=
  vertices.filter fun w => (reached v).contains w && (reached w).contains v

/-- Vertices with the way that led to them, the last vertex first. -/
def withWay (way : List α) (vertices : List α) : List (α × List α) := vertices.map (·, way)

/-- Searches breadth first for an edge back to the goal.  A queued vertex carries the vertices on
the way to it, the last one first. -/
def search (next : α → List α) (goal : α) (fresh : List α) (queue : List (α × List α)) : List α :=
  match queue with
  | [] => [goal]
  | (v, way) :: rest =>
    if (next v).contains goal then (v :: way).reverse
    else
      search next goal (aside next v fresh) (rest ++ withWay (v :: way) (ahead next v fresh))
termination_by fresh.length + queue.length
decreasing_by
  have h := length_ahead_add_aside next v fresh
  simp only [List.length_append, List.length_cons, withWay, List.length_map]
  omega

/-- A shortest walk from a vertex through others back to itself; of several, the one that takes the
vertices that come first. -/
def shortestCycle (members : List α) (next : α → List α) (start : α) : List α :=
  search next start (members.filter (· != start)) [(start, [])]

end EventCatalog.Digraph
