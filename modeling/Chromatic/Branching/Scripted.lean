import Chromatic.Branching.View
/-!
# Scripted choices

Selectors whose answers were fixed beforehand, whatever the state of the search.
-/

namespace Chromatic

/-- Answers with the listed variables in turn, and with none when the list is used up. -/
structure ScriptedVariables where
  answers : List (Option VariableId)
deriving DecidableEq

instance : VariableSelector ScriptedVariables where
  select _ s := (s.answers.head?.join, ⟨s.answers.tail⟩)

/-- Answers with the listed orders in turn, and with no colour when the list is used up. -/
structure ScriptedValues where
  answers : List (List Colour)
deriving DecidableEq

instance : ValueSelector ScriptedValues where
  order _ _ s := .ok (s.answers.headD [], ⟨s.answers.tail⟩)

end Chromatic
