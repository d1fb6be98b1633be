import EventCatalog.Proofs.Graph.Build
import EventCatalog.Proofs.Graph.Names
import Mathlib.Data.List.Infix

/-! # What identifiers of edges tell

The identifier of an edge holds those of its ends, with its kind between them.  Where these have no
colon but the one behind the kind of node (`IsPlainId`), the two colons tell the kind of the source
and the name of the target, and since no kind with a hyphen in front is the end of another, what
stands between them tells the rest (`edgeId_injective`).  So of plain edges a graph keeps the first
of each source, kind and target (`Emission.edgesOf_build`), and relationships that differ in one of
them are never taken for each other (`relationships_apart`). -/

namespace EventCatalog

/-- An identifier of a node with one colon only. -/
def IsPlainId (id : String) : Prop :=
  ∃ (kind : NodeKind) (rest : String), id = kind.text ++ ":" ++ rest ∧ ':' ∉ rest.toList

/-- The ends of an edge are plain. -/
def Edge.IsPlain (e : Edge) : Prop := IsPlainId e.source ∧ IsPlainId e.target

theorem isPlainId_nodeId {kind : NodeKind} {name : String} {version : Option String}
    (hname : ':' ∉ name.toList) (hversion : ∀ v ∈ version, ':' ∉ v.toList) :
    IsPlainId (nodeId kind name version) := by
  refine ⟨kind, name ++ versionMark version, nodeId_eq kind name version, ?_⟩
  rw [String.toList_append, List.mem_append]
  rintro (h | h)
  · exact hname h
  · cases version with
    | none => simp [versionMark] at h
    | some v =>
      have hv := hversion v rfl
      simp [versionMark] at h
      exact hv h

/-! ### Taking identifiers apart -/

section

variable {α : Type} {a b a' b' : List α} {c : α}

/-- What stands before the first of a mark and what stands behind it. -/
theorem eq_of_append_cons (ha : c ∉ a) (ha' : c ∉ a') (h : a ++ c :: b = a' ++ c :: b') :
    a = a' ∧ b = b' := by
  induction a generalizing a' with
  | nil =>
    cases a' with
    | nil => exact ⟨rfl, (List.cons.inj h).2⟩
    | cons x a' => exact absurd ((List.cons.inj h).1 ▸ List.mem_cons_self) ha'
  | cons x a ih =>
    cases a' with
    | nil => exact absurd ((List.cons.inj h).1 ▸ List.mem_cons_self) ha
    | cons x' a' =>
      obtain ⟨rfl, htail⟩ := List.cons.inj h
      obtain ⟨rfl, rfl⟩ := ih (fun hc => ha (List.mem_cons_of_mem _ hc))
        (fun hc => ha' (List.mem_cons_of_mem _ hc)) htail
      exact ⟨rfl, rfl⟩

/-- An ending that is told from the other as a suffix can be taken off. -/
theorem eq_of_append_of_not_suffix (hb : b <:+ b' → b = b') (hb' : b' <:+ b → b' = b)
    (h : a ++ b = a' ++ b') : a = a' ∧ b = b' := by
  have hsame : b = b' := by
    have hleft : b <:+ a' ++ b' := h ▸ List.suffix_append a b
    rcases List.suffix_or_suffix_of_suffix hleft (List.suffix_append a' b') with hs | hs
    · exact hb hs
    · exact (hb' hs).symm
  subst hsame
  exact ⟨List.append_cancel_right h, rfl⟩

end

/-- No word of a list is, with a hyphen in front, the end of another one. -/
def EndsTell (words : List String) : Prop :=
  ∀ v ∈ words, ∀ w ∈ words, '-' :: v.toList <:+ '-' :: w.toList → v = w

/-- Such a word can be taken off an end with its hyphen. -/
theorem EndsTell.eq_of_append {words : List String} (h : EndsTell words) {v w : String}
    (hv : v ∈ words) (hw : w ∈ words) {a a' : List Char}
    (heq : a ++ '-' :: v.toList = a' ++ '-' :: w.toList) : a = a' ∧ v = w := by
  obtain ⟨ha, hends⟩ := eq_of_append_of_not_suffix (fun hs => by rw [h v hv w hw hs])
    (fun hs => by rw [h w hw v hv hs]) heq
  exact ⟨ha, String.toList_inj.mp (List.cons.inj hends).2⟩

namespace NodeKind

theorem endsTell_text : EndsTell (all.map text) := by
  unfold EndsTell
  decide +kernel

theorem text_mem (k : NodeKind) : k.text ∈ all.map text := List.mem_map_of_mem (mem_all k)

end NodeKind

namespace EdgeKind

theorem mem_all (k : EdgeKind) : k ∈ all := by
  cases k <;> decide

theorem endsTell_text : EndsTell (all.map text) := by
  unfold EndsTell
  decide +kernel

theorem text_mem (k : EdgeKind) : k.text ∈ all.map text := List.mem_map_of_mem (mem_all k)

theorem eq_of_text {k k' : EdgeKind} (h : k.text = k'.text) : k = k' := by
  have hall : ∀ k ∈ all, ∀ k' ∈ all, k.text = k'.text → k = k' := by decide
  exact hall k (mem_all k) k' (mem_all k') h

theorem colon_not_mem_text (k : EdgeKind) : ':' ∉ k.text.toList := by
  have hall : ∀ k ∈ all, ':' ∉ k.text.toList := by decide
  exact hall k (mem_all k)

end EdgeKind

/-- The identifier of an edge with plain ends tells both and the kind. -/
theorem edgeId_injective {source source' target target' : String} {kind kind' : EdgeKind}
    (hsource : IsPlainId source) (hsource' : IsPlainId source') (htarget : IsPlainId target)
    (htarget' : IsPlainId target') (h : edgeId source kind target = edgeId source' kind' target') :
    source = source' ∧ kind = kind' ∧ target = target' := by
  obtain ⟨k, r, rfl, hr⟩ := hsource
  obtain ⟨k', r', rfl, hr'⟩ := hsource'
  obtain ⟨l, u, rfl, hu⟩ := htarget
  obtain ⟨l', u', rfl, hu'⟩ := htarget'
  -- What stands between the colons.
  have hmiddle : ∀ (rest : String) (e : EdgeKind) (n : NodeKind), ':' ∉ rest.toList →
      ':' ∉ rest.toList ++ '-' :: e.text.toList ++ '-' :: n.text.toList := by
    intro rest e n hrest
    simp only [List.mem_append, List.mem_cons, not_or]
    exact ⟨⟨hrest, by decide, e.colon_not_mem_text⟩, by decide, n.colon_not_mem_text⟩
  have hparts : ∀ (n : NodeKind) (rest : String) (e : EdgeKind) (n' : NodeKind) (rest' : String),
      (edgeId (n.text ++ ":" ++ rest) e (n'.text ++ ":" ++ rest')).toList =
        n.text.toList ++ ':' :: ((rest.toList ++ '-' :: e.text.toList ++ '-' :: n'.text.toList) ++
          ':' :: rest'.toList) := by
    intro n rest e n' rest'
    simp [edgeId]
  have hlists := congrArg String.toList h
  rw [hparts, hparts] at hlists
  obtain ⟨hk, hlists⟩ :=
    eq_of_append_cons k.colon_not_mem_text k'.colon_not_mem_text hlists
  obtain ⟨hlists, hname⟩ := eq_of_append_cons (hmiddle r kind l hr) (hmiddle r' kind' l' hr') hlists
  obtain ⟨hlists, hl⟩ := NodeKind.endsTell_text.eq_of_append l.text_mem l'.text_mem hlists
  obtain ⟨hrest, hkind⟩ :=
    EdgeKind.endsTell_text.eq_of_append kind.text_mem kind'.text_mem hlists
  obtain rfl := NodeKind.text_injective (String.toList_inj.mp hk)
  obtain rfl := NodeKind.text_injective hl
  obtain rfl := EdgeKind.eq_of_text hkind
  obtain rfl := String.toList_inj.mp hrest
  obtain rfl := String.toList_inj.mp hname
  exact ⟨rfl, rfl, rfl⟩

/-! ### Edges of a graph -/

/-- Where items are alike just if they have one key, the first of each key stay as the first of
those that are alike. -/
theorem firsts_eq_eraseDupsBy {α : Type} {key : α → String} {alike : α → α → Bool} {items : List α}
    (h : ∀ a ∈ items, ∀ b ∈ items, alike a b = true ↔ key a = key b) :
    firsts key items = items.eraseDupsBy alike := by
  have hloop : ∀ before others, others ++ before ⊆ items →
      others.foldl (addFirst key) before = List.eraseDupsBy.loop alike others before.reverse := by
    intro before others hsub
    induction others generalizing before with
    | nil => simp [List.eraseDupsBy.loop]
    | cons a others ih =>
      have ha : a ∈ items := hsub (by simp)
      have htaken : before.reverse.any (alike a) = true ↔ key a ∈ before.map key := by
        rw [List.any_reverse, List.any_eq_true, List.mem_map]
        refine exists_congr fun b => and_congr_right fun hb => ?_
        rw [h a ha b (hsub (by simp [hb])), eq_comm]
      rw [List.foldl_cons, List.eraseDupsBy.loop, addFirst]
      by_cases hkey : key a ∈ before.map key
      · rw [if_pos hkey, htaken.mpr hkey]
        exact ih before fun b hb => hsub (List.mem_cons_of_mem _ hb)
      · have hnone : before.reverse.any (alike a) = false :=
          Bool.eq_false_iff.mpr (mt htaken.mp hkey)
        rw [if_neg hkey, hnone, ih (before ++ [a]), List.reverse_append]
        · rfl
        · intro b hb
          apply hsub
          simp only [List.mem_append, List.mem_cons, List.not_mem_nil, or_false] at hb ⊢
          tauto
  exact hloop [] items (by simp)

namespace Edge

/-- Two edges have the same ends. -/
def sameEnds (e f : Edge) : Bool := e.source == f.source && e.target == f.target

theorem id_eq_iff {e f : Edge} (he : e.IsPlain) (hf : f.IsPlain) :
    e.id = f.id ↔ e.source = f.source ∧ e.kind = f.kind ∧ e.target = f.target := by
  constructor
  · exact edgeId_injective he.1 hf.1 he.2 hf.2
  · rintro ⟨hsource, hkind, htarget⟩
    rw [id, id, hsource, hkind, htarget]

end Edge

namespace Emission

variable {es : List Emission} (hplain : ∀ e ∈ es.filterMap edge?, e.IsPlain)

include hplain

/-- A graph has an edge for each source, kind and target of the emitted plain edges. -/
theorem exists_edge_build_iff {source target : String} {kind : EdgeKind} :
    (∃ label, ⟨source, kind, target, label⟩ ∈ (build es).edges) ↔
      ∃ label, .edge ⟨source, kind, target, label⟩ ∈ es := by
  constructor
  · rintro ⟨label, h⟩
    exact ⟨label, emitted_of_mem_edges h⟩
  · rintro ⟨label, h⟩
    have hmem := mem_edges.mpr h
    have hkey : Edge.id ⟨source, kind, target, label⟩ ∈ (build es).edges.map Edge.id := by
      rw [build_edges, mem_keys_firsts]
      exact List.mem_map_of_mem hmem
    obtain ⟨e, he, hid⟩ := List.mem_map.mp hkey
    have hemitted := mem_edges.mpr (emitted_of_mem_edges he)
    obtain ⟨rfl, rfl, rfl⟩ := (Edge.id_eq_iff (hplain _ hemitted) (hplain _ hmem)).mp hid
    exact ⟨e.label, he⟩

/-- Of plain edges of a kind that are emitted a graph keeps the first of all with the same ends. -/
theorem edgesOf_build (kind : EdgeKind) :
    (build es).edgesOf kind =
      ((es.filterMap edge?).filter (·.kind == kind)).eraseDupsBy Edge.sameEnds := by
  have hpicked : (firsts Edge.id (es.filterMap edge?)).filterMap
      (Option.guard (·.kind == kind)) =
        firsts Edge.id ((es.filterMap edge?).filterMap (Option.guard (·.kind == kind))) := by
    apply filterMap_firsts
    · intro e f h
      rw [(Option.guard_eq_some_iff.mp h).1]
    · intro e he f hf hid
      obtain ⟨-, hkind, -⟩ := (Edge.id_eq_iff (hplain e he) (hplain f hf)).mp hid
      rw [Option.guard, Option.guard, hkind]
      split <;> rfl
  rw [Graph.edgesOf, build_edges, ← List.filterMap_eq_filter, hpicked, List.filterMap_eq_filter]
  refine firsts_eq_eraseDupsBy fun e he f hf => ?_
  obtain ⟨he, hkind⟩ := List.mem_filter.mp he
  obtain ⟨hf, hkind'⟩ := List.mem_filter.mp hf
  rw [Edge.id_eq_iff (hplain e he) (hplain f hf), beq_iff_eq.mp hkind, beq_iff_eq.mp hkind',
    Edge.sameEnds, Bool.and_eq_true, beq_iff_eq, beq_iff_eq]
  tauto

end Emission

/-! ### Relationships -/

/-- What the identifier of a node is made of.  Neither the name nor the version, or the selector in
its place, has a colon. -/
structure NodeName where
  kind : NodeKind
  name : String
  version : Option String
  colon_not_mem_name : ':' ∉ name.toList
  colon_not_mem_version : ∀ v ∈ version, ':' ∉ v.toList

namespace NodeName

/-- The identifier of the node. -/
def id (n : NodeName) : String := nodeId n.kind n.name n.version

theorem isPlainId_id (n : NodeName) : IsPlainId n.id :=
  isPlainId_nodeId n.colon_not_mem_name n.colon_not_mem_version

end NodeName

/-- A relationship between two nodes. -/
structure Relationship where
  source : NodeName
  kind : EdgeKind
  target : NodeName
  label : Option String

namespace Relationship

/-- The edge of a relationship. -/
def edge (r : Relationship) : Edge := ⟨r.source.id, r.kind, r.target.id, r.label⟩

theorem isPlain_edge (r : Relationship) : r.edge.IsPlain :=
  ⟨r.source.isPlainId_id, r.target.isPlainId_id⟩

/-- The relationships have the same kind and hold between the same nodes. -/
def Agrees (r r' : Relationship) : Prop :=
  r.source.id = r'.source.id ∧ r.kind = r'.kind ∧ r.target.id = r'.target.id

instance (r r' : Relationship) : Decidable (r.Agrees r') := instDecidableAnd

theorem id_edge_eq_iff {r r' : Relationship} : r.edge.id = r'.edge.id ↔ r.Agrees r' :=
  Edge.id_eq_iff r.isPlain_edge r'.isPlain_edge

end Relationship

/-- Distinct relationships never merge: the identifier of an edge tells its source, its kind and its
target, and a graph refuses the edge of a relationship only if it has one that agrees in all
three. -/
theorem relationships_apart :
    (∀ (s s' t t' : NodeName) (k k' : EdgeKind),
      edgeId s.id k t.id = edgeId s'.id k' t'.id ↔ s.id = s'.id ∧ k = k' ∧ t.id = t'.id) ∧
    ∀ (nodes : List Node) (rs : List Relationship) (r : Relationship),
      (Graph.addEdge ⟨nodes, rs.map Relationship.edge⟩ r.edge).edges =
        (if ∃ r' ∈ rs, r.Agrees r' then rs else rs ++ [r]).map Relationship.edge := by
  constructor
  · intro s s' t t' k k'
    let r : Relationship := ⟨s, k, t, none⟩
    let r' : Relationship := ⟨s', k', t', none⟩
    exact (Relationship.id_edge_eq_iff : r.edge.id = r'.edge.id ↔ r.Agrees r')
  · intro nodes rs r
    have htaken : r.edge.id ∈ (rs.map Relationship.edge).map Edge.id ↔ ∃ r' ∈ rs, r.Agrees r' := by
      rw [List.map_map, List.mem_map]
      refine exists_congr fun r' => and_congr_right fun _ => ?_
      rw [Function.comp_apply, eq_comm, Relationship.id_edge_eq_iff]
    rw [Emission.edges_addEdge, addFirst]
    by_cases hmem : r.edge.id ∈ (rs.map Relationship.edge).map Edge.id
    · rw [if_pos hmem, if_pos (htaken.mp hmem)]
    · rw [if_neg hmem, if_neg (mt htaken.mpr hmem), List.map_append, List.map_singleton]

/-- Names, versions and kinds with hyphens that could be taken for kinds of edges. -/
theorem relationships_apart_hyphens :
    let feed : NodeName := ⟨.definition .externalSystem, "A-writes-to-event", some "1.0.0-flow-step",
      by decide, by decide⟩
    let ledger : NodeName := ⟨.definition .dataProduct, "flow-step-user", none, by decide, by decide⟩
    let written : Relationship := ⟨feed, .writesTo, ledger, none⟩
    let stepped : Relationship := ⟨feed, .flowStep, ledger, some "then"⟩
    edgeId feed.id .writesTo ledger.id ≠ edgeId feed.id .flowStep ledger.id ∧
      (Graph.addEdge ⟨[], [written.edge]⟩ stepped.edge).edges = [written.edge, stepped.edge] := by
  intro feed ledger written stepped
  obtain ⟨htell, hadd⟩ := relationships_apart
  refine ⟨fun h => ?_, ?_⟩
  · exact absurd ((htell feed feed ledger ledger .writesTo .flowStep).mp h).2.1 (by decide)
  · have hnew : ¬ ∃ r ∈ [written], stepped.Agrees r := by decide +kernel
    have hedges := hadd [] [written] stepped
    rw [if_neg hnew] at hedges
    exact hedges

/-- With a colon in a name the same identifier stands for two relationships. -/
example :
    edgeId (nodeId (.definition .service) "A" none) .sends
        (nodeId (.definition .event) "B-sends-event:C" none) =
      edgeId (nodeId (.definition .service) "A-sends-event:B" none) .sends
        (nodeId (.definition .event) "C" none) := by decide

end EventCatalog
