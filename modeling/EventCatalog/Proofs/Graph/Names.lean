import EventCatalog.Graph

/-! # What identifiers of nodes tell

The word of a kind holds no colon and is the word of no other kind, so the identifier of a node
tells its kind (`Node.IsNamed.kind_eq`).  Behind the colon it tells the name and the version put
together, and no more (`nodeId_eq_iff`). -/

namespace EventCatalog

namespace NodeKind

theorem mem_all (k : NodeKind) : k ∈ all := by
  cases k with
  | definition kind => exact List.mem_append_left _ (List.mem_map_of_mem (Kind.mem_all kind))
  | step | parameter | unresolved => exact List.mem_append_right _ (by simp)

theorem text_injective {k k' : NodeKind} (h : k.text = k'.text) : k = k' := by
  have hall : ∀ k ∈ all, ∀ k' ∈ all, k.text = k'.text → k = k' := by decide
  exact hall k (mem_all k) k' (mem_all k') h

theorem colon_not_mem_text (k : NodeKind) : ':' ∉ k.text.toList := by
  have hall : ∀ k ∈ all, ':' ∉ k.text.toList := by decide
  exact hall k (mem_all k)

end NodeKind

namespace Node

/-- The identifier of a node is its kind, a colon and more. -/
def IsNamed (n : Node) : Prop := ∃ name, n.id = n.kind.text ++ ":" ++ name

theorem isNamed_of_id {n : Node} (name : String) (version : Option String)
    (h : n.id = nodeId n.kind name version) : n.IsNamed := by
  cases version with
  | none => exact ⟨name, by rw [h]; simp [nodeId]⟩
  | some version => exact ⟨name ++ ("@" ++ version), by rw [h]; simp [nodeId, String.append_assoc]⟩

/-- The word of the kind is what stands before the first colon. -/
theorem IsNamed.takeWhile_id {n : Node} (h : n.IsNamed) :
    n.id.toList.takeWhile (· != ':') = n.kind.text.toList := by
  obtain ⟨name, hid⟩ := h
  have hword : ∀ c ∈ n.kind.text.toList, (c != ':') = true := by
    intro c hc
    rw [bne_iff_ne]
    rintro rfl
    exact NodeKind.colon_not_mem_text n.kind hc
  rw [hid, String.toList_append, String.toList_append, List.append_assoc,
    List.takeWhile_append_of_pos hword]
  simp

/-- Nodes of one identifier have one kind. -/
theorem IsNamed.kind_eq {n n' : Node} (h : n.IsNamed) (h' : n'.IsNamed) (hid : n.id = n'.id) :
    n.kind = n'.kind := by
  apply NodeKind.text_injective
  rw [← String.toList_inj, ← h.takeWhile_id, ← h'.takeWhile_id, hid]

end Node

/-! ### Names and versions -/

/-- What an identifier has for a version. -/
def versionMark : Option String → String
  | some version => "@" ++ version
  | none => ""

theorem versionMark_injective {v w : Option String} (h : versionMark v = versionMark w) : v = w := by
  cases v with
  | none =>
    cases w with
    | none => rfl
    | some w => simp [versionMark, ← String.toList_inj] at h
  | some v =>
    cases w with
    | none => simp [versionMark, ← String.toList_inj] at h
    | some w => exact congrArg some ((String.append_right_inj "@").mp h)

theorem nodeId_eq (kind : NodeKind) (name : String) (version : Option String) :
    nodeId kind name version = kind.text ++ ":" ++ (name ++ versionMark version) := by
  cases version <;> simp [nodeId, versionMark, String.append_assoc]

theorem nodeId_eq_iff {kind kind' : NodeKind} {name name' : String} {v v' : Option String} :
    nodeId kind name v = nodeId kind' name' v' ↔
      kind = kind' ∧ name ++ versionMark v = name' ++ versionMark v' := by
  constructor
  · intro h
    have hnamed : ∀ kind name v, (⟨nodeId kind name v, kind, name, none, []⟩ : Node).IsNamed :=
      fun kind name v => Node.isNamed_of_id name v rfl
    obtain rfl : kind = kind' := (hnamed kind name v).kind_eq (hnamed kind' name' v') h
    rw [nodeId_eq, nodeId_eq, String.append_right_inj] at h
    exact ⟨rfl, h⟩
  · rintro ⟨rfl, h⟩
    rw [nodeId_eq, nodeId_eq, h]

end EventCatalog
