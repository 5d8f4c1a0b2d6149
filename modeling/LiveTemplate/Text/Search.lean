/-!
# LiveTemplate.Text.Search

Finding one sequence inside another, for characters and for bytes alike.
-/

namespace LiveTemplate
namespace Text

variable {α : Type} [BEq α]

/-- What stands before and after the first occurrence of `mark`. -/
def breakOn? (mark : List α) : List α → Option (List α × List α)
  | [] => if mark.isEmpty then some ([], []) else none
  | a :: rest =>
    if mark.isPrefixOf (a :: rest) then some ([], (a :: rest).drop mark.length)
    else (breakOn? mark rest).map fun (before, after) => (a :: before, after)

/-- Replaces every occurrence of `mark`, from the left, after leaving out `skip` elements. -/
def replaceFrom (mark new : List α) : Nat → List α → List α
  | _, [] => []
  | skip + 1, _ :: rest => replaceFrom mark new skip rest
  | 0, a :: rest =>
    if mark.isPrefixOf (a :: rest) then new ++ replaceFrom mark new (mark.length - 1) rest
    else a :: replaceFrom mark new 0 rest

def replaceAll (mark new : List α) (as : List α) : List α := replaceFrom mark new 0 as

/-- The elements after `mark`, if it stands in front. -/
def dropPrefix? (mark : List α) (as : List α) : Option (List α) :=
  if mark.isPrefixOf as then some (as.drop mark.length) else none

/-- The elements before `mark`, if it stands at the end. -/
def dropSuffix? (mark : List α) (as : List α) : Option (List α) :=
  if mark.isSuffixOf as then some (as.take (as.length - mark.length)) else none

theorem length_breakOn? {mark as before after : List α}
    (h : breakOn? mark as = some (before, after)) : after.length ≤ as.length := by
  induction as generalizing before with
  | nil =>
    simp only [breakOn?] at h
    split at h
    · cases h; simp
    · cases h
  | cons a rest ih =>
    simp only [breakOn?] at h
    split at h
    · cases h; simp
    · obtain ⟨⟨front, back⟩, found, same⟩ := Option.map_eq_some_iff.mp h
      cases same
      exact Nat.le_succ_of_le (ih found)

end Text
end LiveTemplate
