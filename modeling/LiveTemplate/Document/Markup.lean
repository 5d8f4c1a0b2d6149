import LiveTemplate.Document.Tree
import LiveTemplate.Markup.Basic

/-!
# LiveTemplate.Document.Markup

The markup of a live subtree.
-/

namespace LiveTemplate
namespace Document

def escapeText (c : Char) : String :=
  if c = '&' then "&amp;"
  else if c = '<' then "&lt;"
  else if c = '>' then "&gt;"
  else String.singleton c

/-- In a quoted value the quote is escaped too. -/
def escapeValue (c : Char) : String := if c = '"' then "&quot;" else escapeText c

def escapeWith (escape : Char → String) (s : String) : String :=
  String.join (s.toList.map escape)

def attributeMarkup (entry : String × String) : String :=
  " " ++ entry.1 ++ "=\"" ++ escapeWith escapeValue entry.2 ++ "\""

/-- Void elements without children have no closing tag. -/
def markupFrom (doc : Document) : Nat → NodeId → String
  | 0, _ => ""
  | n + 1, id =>
    match doc.get? id with
    | none => ""
    | some node =>
      match node.content with
      | .text content => escapeWith escapeText content
      | .comment content => "<!--" ++ content ++ "-->"
      | .element tag attributes _ =>
        let opening := "<" ++ tag ++ String.join (attributes.map attributeMarkup) ++ ">"
        if Markup.voidTags.contains tag && node.children.isEmpty then opening
        else opening ++ String.join (node.children.map (doc.markupFrom n)) ++ "</" ++ tag ++ ">"

/-- The markup of a node and all below it, empty if there is no such node. -/
def markup (doc : Document) (id : NodeId) : String := doc.markupFrom doc.walkBound id

end Document
end LiveTemplate
