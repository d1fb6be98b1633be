import EventCatalog.Compilation

/-! # The number of a link is a label

A symbol table carries the number of the link it belongs to, and nothing that is made from the table
looks at it: links of one list of documents under two numbers have the same graph and the same
diagnostics (`Linked.graph_link`, `Linked.diagnostics_link`). -/

namespace EventCatalog

open Syntax

namespace Projection

/-- The same catalog, linked under another number. -/
def renumber (p : Projection) (n : Nat) : Projection :=
  { p with table := { p.table with generation := n } }

variable (p : Projection) (n : Nat)

theorem chainEmissions_renumber (document : Nat) (flow : String) (d : Definition)
    (chain index : Nat) (previous : Option (String × Option String)) (steps : List Step) :
    (p.renumber n).chainEmissions document flow d chain index previous steps =
      p.chainEmissions document flow d chain index previous steps := by
  induction steps generalizing index previous with
  | nil => rfl
  | cons s steps ih =>
    have hstep : (p.renumber n).step? document flow d chain index s =
      p.step? document flow d chain index s := rfl
    rw [chainEmissions, chainEmissions, hstep]
    cases p.step? document flow d chain index s with
    | none => exact ih _ _
    | some step => simp only [ih]

theorem relationships_renumber (document : Nat) (d : Definition) :
    (p.renumber n).relationships document d = p.relationships document d := by
  have hbody : (p.renumber n).bodyEmissions document d.nodeId d =
      p.bodyEmissions document d.nodeId d := by
    unfold bodyEmissions
    split
    case h_3 b =>
      simp only [chainEmissions_renumber]
      rfl
    all_goals rfl
  rw [relationships, relationships, hbody]
  rfl

mutual

theorem definition_renumber (document : Nat) (path : DocumentPath) :
    ∀ (parent : Option String) (d : Definition),
      (p.renumber n).definition document path parent d = p.definition document path parent d
  | parent, ⟨_, _, _, _, _, _, _, nested, _⟩ => by
    rw [definition, definition, relationships_renumber,
      definitions_renumber document path _ nested]

theorem definitions_renumber (document : Nat) (path : DocumentPath) :
    ∀ (parent : Option String) (ds : List Definition),
      (p.renumber n).definitions document path parent ds = p.definitions document path parent ds
  | _, [] => by rw [definitions, definitions]
  | parent, d :: ds => by
    rw [definitions, definitions, definition_renumber document path parent d,
      definitions_renumber document path parent ds]

end

theorem graph_renumber (documents : List Document) :
    (p.renumber n).graph documents = p.graph documents := by
  have hdocument : (p.renumber n).document = p.document := by
    funext d
    have hat : (p.renumber n).table.documentAt? d.path = p.table.documentAt? d.path := rfl
    rw [document, document, hat]
    cases p.table.documentAt? d.path with
    | none => rfl
    | some number => exact definitions_renumber p n number d.path none d.program.definitions
  rw [graph, graph, hdocument]

end Projection

namespace Linked

theorem diagnostics_link (config : Config) (m n : Nat) (documents : List Document) :
    (link config m documents).diagnostics = (link config n documents).diagnostics := rfl

theorem graph_link (config : Config) (m n : Nat) (documents : List Document) :
    (link config m documents).graph = (link config n documents).graph :=
  Projection.graph_renumber ⟨.link n documents, _, _⟩ m documents

end Linked

end EventCatalog
