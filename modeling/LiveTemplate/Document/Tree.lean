import LiveTemplate.Document.Basic

/-!
# LiveTemplate.Document.Tree

The links between nodes: attaching, replacing, detaching and freeing. A node is freed together
with everything below it.
-/

namespace LiveTemplate
namespace Document

def parent? (doc : Document) (id : NodeId) : Option NodeId := (doc.get? id).bind Node.parent

def children (doc : Document) (id : NodeId) : List NodeId :=
  ((doc.get? id).map Node.children).getD []

/-- Takes a node out of the children of its parent. -/
def detach (doc : Document) (id : NodeId) : Document :=
  match doc.parent? id with
  | none => doc
  | some parent =>
    (doc.modify id ({ · with parent := none })).modify parent fun node =>
      { node with children := node.children.filter (· ≠ id) }

/-- Makes `child` the last child of `parent`. -/
def appendChild (doc : Document) (parent child : NodeId) : Document :=
  if doc.contains parent && doc.contains child then
    let doc := doc.detach child
    let doc := doc.modify child ({ · with parent := some parent })
    let doc := doc.modify parent fun node => { node with children := node.children ++ [child] }
    doc.record (.appendChild parent child)
  else doc

/-- Puts `new` at the first place of `old` in a list. -/
def replaceFirst (old new : NodeId) : List NodeId → List NodeId
  | [] => []
  | id :: rest => if id = old then new :: rest else id :: replaceFirst old new rest

/-- Puts `new` where `old` stands and detaches `old`. -/
def replaceNode (doc : Document) (old new : NodeId) : Document :=
  if old = new || !doc.contains new then doc
  else
    match doc.parent? old with
    | none => doc
    | some parent =>
      let doc := doc.detach new
      let doc := doc.modify parent fun node =>
        { node with children := replaceFirst old new node.children }
      let doc := doc.modify old ({ · with parent := none })
      let doc := doc.modify new ({ · with parent := some parent })
      doc.record (.replaceNode old new)

/-- Detaches a node, which stays alive. -/
def removeNode (doc : Document) (id : NodeId) : Document :=
  if doc.contains id then (doc.detach id).record (.removeNode id) else doc

/-! ## Freeing -/

/-- Frees the nodes on a stack and all below them, and counts them. The last child of a node goes
first. -/
def freeAll (nodes : Slots Node) (freed : Nat) : List NodeId → Nat × Slots Node
  | [] => (freed, nodes)
  | id :: stack =>
    match _found : nodes.get? id with
    | none => freeAll nodes freed stack
    | some node => freeAll (nodes.erase id) (freed + 1) (node.children.reverse ++ stack)
  termination_by stack => (nodes.size, stack.length)
  decreasing_by
    · exact Prod.Lex.right _ (by simp)
    · exact Prod.Lex.left _ _ (Slots.size_erase_lt _found)

/-- Detaches a node, then frees it and everything below it. Gives the number of nodes freed. -/
def release (doc : Document) (id : NodeId) : Nat × Document :=
  if doc.contains id then
    let doc := doc.detach id
    let (freed, nodes) := freeAll doc.nodes 0 [id]
    (freed, { doc with nodes }.record (.release id))
  else (0, doc)

/-! ## Upwards -/

/-- The chain of parents from `start` on. -/
def climb (doc : Document) : Nat → Option NodeId → List NodeId
  | 0, _ => []
  | _ + 1, none => []
  | n + 1, some id => id :: doc.climb n (doc.parent? id)

/-- The nodes above a node, the nearest first. -/
def ancestors (doc : Document) (id : NodeId) : List NodeId :=
  doc.climb doc.walkBound (doc.parent? id)

end Document
end LiveTemplate
