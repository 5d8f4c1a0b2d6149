import LiveTemplate.Document.Slots
import LiveTemplate.Value

/-!
# LiveTemplate.Document.Mutation

The primitive changes of a document, as its journal records them.
-/

namespace LiveTemplate

inductive Mutation where
  | createElement (node : NodeId) (tag : String)
  | createText (node : NodeId) (content : String)
  | createComment (node : NodeId)
  | setAttribute (node : NodeId) (name value : String)
  | removeAttribute (node : NodeId) (name : String)
  | setProperty (node : NodeId) (name : String) (value : Value)
  | setText (node : NodeId) (content : String)
  | appendChild (parent child : NodeId)
  | replaceNode (old new : NodeId)
  | removeNode (node : NodeId)
  | release (node : NodeId)
  | setHandler (node : NodeId) (event : String)
  | setHandlerData (node : NodeId) (event : String) (args : List Value)

namespace Mutation

/-- The node whose state changes. -/
def node : Mutation → NodeId
  | .createElement node _ | .createText node _ | .createComment node | .setAttribute node _ _
  | .removeAttribute node _ | .setProperty node _ _ | .setText node _ | .appendChild node _
  | .replaceNode node _ | .removeNode node | .release node | .setHandler node _
  | .setHandlerData node _ _ => node

/-- Creates, attaches, detaches or frees nodes, as opposed to writing on one. -/
def isStructural : Mutation → Bool
  | .createElement _ _ | .createText _ _ | .createComment _ | .appendChild _ _
  | .replaceNode _ _ | .removeNode _ | .release _ => true
  | _ => false

end Mutation
end LiveTemplate
