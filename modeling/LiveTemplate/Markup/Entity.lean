import LiveTemplate.Text.Search

/-!
# LiveTemplate.Markup.Entity

The named characters of markup.
-/

namespace LiveTemplate
namespace Markup

/-- Entities with the characters they stand for. The ampersand comes last, so what it gives rise
to is not read again. -/
def entities : List (String × Char) :=
  [("&lt;", '<'), ("&gt;", '>'), ("&quot;", '"'), ("&#39;", '\''), ("&nbsp;", '\u00a0'),
   ("&amp;", '&')]

/-- Replaces the entities, one kind after the other. -/
def decodeEntities (cs : List Char) : List Char :=
  entities.foldl (fun cs (entity, c) => Text.replaceAll entity.toList [c] cs) cs

end Markup
end LiveTemplate
