/-
# Exported models

The text in which a model is handed on: its concepts with their dependencies, as
JSON over several lines. A seed is exported without its position in the caller's
list, so the text does not depend on the order in which the seeds were given.
-/

import ConceptExpansion.Json.Encoding
import ConceptExpansion.Json.Writer
import ConceptExpansion.Model
import ConceptExpansion.Store.Reference

namespace ConceptExpansion

/-- What the export says about an origin. -/
def Origin.toExport : Origin → Json
  | seed _ => .text "Seed"
  | rule name source =>
    .ofMembers [("Rule", .ofMembers [("rule", .text name), ("source", .text source.text)])]

/-- What the export says about a stored concept. -/
def Entry.toExport (store : Store) (entry : Entry) : Json :=
  .ofMembers [("id", entry.id.toJson), ("key", .text entry.key.text),
    ("concept", entry.concept.toJson), ("origin", entry.origin.toExport),
    ("depends_on", .ofList ConceptId.toJson (store.dependencies entry.id))]

/-- The exported text of a model, dependencies first. -/
def Model.exported (model : Model) : String :=
  (Json.ofList (Entry.toExport model.store) model.entries).page

end ConceptExpansion
