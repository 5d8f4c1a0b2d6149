import LiveTemplate.Markup.Basic
import LiveTemplate.Markup.Entity
import LiveTemplate.Text.Utf8

/-!
# LiveTemplate.Markup.Reader

Reads markup from UTF-8 bytes. An opening mark of an expression span hides everything up to its
closing mark: inside it a `<` opens no tag, and a bare attribute value goes on across blanks.
Offsets in errors count bytes.
-/

namespace LiveTemplate

namespace Markup

/-- What can lack its end. -/
inductive Piece where
  | comment
  | declaration
  | tag
  | attributeValue
  deriving DecidableEq, Repr

def Piece.text : Piece → String
  | .comment => "comment"
  | .declaration => "declaration"
  | .tag => "tag"
  | .attributeValue => "attribute value"

end Markup

/-- Why a text is no markup, or no template. -/
inductive MarkupError where
  | empty
  | unclosedTag (tag : String) (offset : Nat)
  | mismatchedTag (expected found : String) (offset : Nat)
  | unexpectedClosingTag (tag : String) (offset : Nat)
  | unterminated (piece : Markup.Piece) (offset : Nat)
  | missingTagName (offset : Nat)
  | rootCount (count : Nat)
  deriving DecidableEq, Repr

def MarkupError.message : MarkupError → String
  | .empty => "empty template"
  | .unclosedTag tag offset => s!"unclosed <{tag}> opened at byte {offset}"
  | .mismatchedTag expected found offset =>
    s!"closing </{found}> at byte {offset} does not match open <{expected}>"
  | .unexpectedClosingTag tag offset => s!"closing </{tag}> at byte {offset} has no open element"
  | .unterminated piece offset => s!"unterminated {piece.text} starting at byte {offset}"
  | .missingTagName offset => s!"expected a tag name at byte {offset}"
  | .rootCount count => s!"template must have exactly one root element, found {count}"

namespace Markup

/-! ## Bytes -/

/-- The bytes that are blank when read as a character each. -/
def isBlankByte (b : UInt8) : Bool :=
  0x09 ≤ b && b ≤ 0x0D || b = 0x20 || b = 0x85 || b = 0xA0

def skipBlank (bs : List UInt8) : List UInt8 := bs.dropWhile isBlankByte

def isAlphanumeric (b : UInt8) : Bool := b < 0x80 && (Char.ofNat b.toNat).isAlphanum

def byteOf (c : Char) : UInt8 := UInt8.ofNat c.toNat

/-- The bytes of ASCII text. -/
def mark (s : String) : List UInt8 := s.toList.map byteOf

def isTagByte (b : UInt8) : Bool := isAlphanumeric b || (mark "_-:").contains b

def isNameByte (b : UInt8) : Bool := isAlphanumeric b || (mark "_-:@.").contains b

/-! ## Pieces -/

/-- The closing mark of the expression span that opens here. -/
def closingMark? (bs : List UInt8) : Option (List UInt8) :=
  if (mark "$\x7b").isPrefixOf bs then some (mark "\x7d")
  else if (mark "\x7b\x7b").isPrefixOf bs then some (mark "\x7d\x7d")
  else none

/-- What follows the expression span that opens here. A span without end takes all there is. -/
def afterSpan? (bs : List UInt8) : Option (List UInt8) :=
  (closingMark? bs).map fun close =>
    match Text.breakOn? close (bs.drop 2) with
    | some (_, after) => after
    | none => []

/-- The part of `bs` in front of `rest`, which is its end. -/
def upTo (bs rest : List UInt8) : List UInt8 := bs.take (bs.length - rest.length)

theorem length_afterSpan? {bs rest : List UInt8} (h : afterSpan? bs = some rest) :
    rest.length < bs.length := by
  simp only [afterSpan?, closingMark?] at h
  cases bs with
  | nil => simp [mark] at h
  | cons b more =>
    have bound : ∀ close, (match Text.breakOn? close ((b :: more).drop 2) with
        | some (_, after) => after
        | none => []).length < (b :: more).length := by
      intro close
      split
      · rename_i found
        have := Text.length_breakOn? found
        simp only [List.length_drop, List.length_cons] at this ⊢
        omega
      · simp
    obtain ⟨close, -, same⟩ := Option.map_eq_some_iff.mp h
    rw [← same]
    exact bound close

/-- What follows a text: the next `<` outside of expression spans, or the end. -/
def afterText : List UInt8 → List UInt8
  | [] => []
  | b :: rest =>
    if b = byteOf '<' then b :: rest
    else
      match _span : afterSpan? (b :: rest) with
      | some after => afterText after
      | none => afterText rest
  termination_by bs => bs.length
  decreasing_by
    · exact length_afterSpan? _span
    · simp

/-- The first blank, `>` or `/>`, with what follows it. -/
def afterWord : List UInt8 → List UInt8
  | [] => []
  | b :: rest =>
    if isBlankByte b || b = byteOf '>' || (mark "/>").isPrefixOf (b :: rest) then b :: rest
    else afterWord rest

/-- What follows a bare value. An expression span in front is taken whole. -/
def afterBare (bs : List UInt8) : List UInt8 := afterWord ((afterSpan? bs).getD bs)

/-- The value of an attribute, from behind its `=`. -/
def readValue (total : Nat) (bs : List UInt8) :
    Except MarkupError (List UInt8 × List UInt8) :=
  match bs with
  | [] => .ok ([], [])
  | b :: rest =>
    if b = byteOf '"' || b = byteOf '\'' then
      match Text.breakOn? [b] rest with
      | some (value, after) => .ok (value, after)
      | none => .error (.unterminated .attributeValue (total - bs.length))
    else
      let after := afterBare bs
      .ok (upTo bs after, after)

/-- The rest of an attribute whose name is read: its value, empty if there is none. -/
def readAttribute (total : Nat) (bs : List UInt8) :
    Except MarkupError (List UInt8 × List UInt8) :=
  match skipBlank bs with
  | [] => .ok ([], [])
  | b :: rest =>
    if b = byteOf '=' then readValue total (skipBlank rest) else .ok ([], b :: rest)

/-! ## Reading makes progress -/

theorem length_skipBlank (bs : List UInt8) : (skipBlank bs).length ≤ bs.length :=
  (List.dropWhile_suffix _).length_le

theorem length_afterText (bs : List UInt8) : (afterText bs).length ≤ bs.length := by
  fun_induction afterText bs with
  | case1 => simp
  | case2 => simp
  | case3 b rest _ after span ih =>
    exact Nat.le_of_lt (Nat.lt_of_le_of_lt ih (length_afterSpan? span))
  | case4 b rest _ _ ih => exact Nat.le_succ_of_le ih

theorem length_afterText_lt {b : UInt8} (rest : List UInt8) (h : ¬b = byteOf '<') :
    (afterText (b :: rest)).length < (b :: rest).length := by
  rw [afterText, if_neg h]
  split
  · rename_i after span
    exact Nat.lt_of_le_of_lt (length_afterText after) (length_afterSpan? span)
  · exact Nat.lt_succ_of_le (length_afterText rest)

theorem length_afterWord (bs : List UInt8) : (afterWord bs).length ≤ bs.length := by
  induction bs with
  | nil => simp [afterWord]
  | cons b rest ih =>
    simp only [afterWord]
    split
    · simp
    · exact Nat.le_succ_of_le ih

theorem length_afterBare (bs : List UInt8) : (afterBare bs).length ≤ bs.length := by
  simp only [afterBare]
  cases h : afterSpan? bs with
  | none => exact length_afterWord bs
  | some after =>
    exact Nat.le_trans (length_afterWord after) (Nat.le_of_lt (length_afterSpan? h))

theorem length_readValue {total : Nat} {bs value after : List UInt8}
    (h : readValue total bs = .ok (value, after)) : after.length ≤ bs.length := by
  cases bs with
  | nil => cases h; simp
  | cons b rest =>
    simp only [readValue] at h
    split at h
    · split at h
      · rename_i found
        cases h
        exact Nat.le_succ_of_le (Text.length_breakOn? found)
      · cases h
    · cases h
      exact length_afterBare _

theorem length_readAttribute {total : Nat} {bs value after : List UInt8}
    (h : readAttribute total bs = .ok (value, after)) : after.length ≤ bs.length := by
  have skipped := length_skipBlank bs
  simp only [readAttribute] at h
  split at h
  · cases h; simp
  · rename_i b rest same
    rw [same] at skipped
    simp only [List.length_cons] at skipped
    split at h
    · have := length_readValue h
      have := length_skipBlank rest
      omega
    · cases h
      simpa using skipped

/-! ## Tags -/

/-- What stands in an opening tag behind its name. -/
structure TagTail where
  attributes : List (String × String)
  selfClosing : Bool
  rest : List UInt8

/-- The attributes of an opening tag up to its `>`. A slash anywhere makes the tag close itself;
bytes that start no attribute are passed over. -/
def readTagTail (total start : Nat) (attributes : List (String × String)) (selfClosing : Bool)
    (bs : List UInt8) : Except MarkupError TagTail :=
  match _next : skipBlank bs with
  | [] => .error (.unterminated .tag start)
  | b :: rest =>
    if b = byteOf '/' then readTagTail total start attributes true rest
    else if b = byteOf '>' then .ok ⟨attributes, selfClosing, rest⟩
    else if isNameByte b then
      match _value : readAttribute total (rest.dropWhile isNameByte) with
      | .error e => .error e
      | .ok (value, after) =>
        let name := Text.ofBytes (b :: rest.takeWhile isNameByte)
        let value := String.ofList (decodeEntities (Text.decodeUtf8 value))
        readTagTail total start (attributes ++ [(name, value)]) selfClosing after
    else readTagTail total start attributes selfClosing rest
  termination_by bs.length
  decreasing_by
    all_goals
      have shorter := length_skipBlank bs
      rw [_next] at shorter
      simp only [List.length_cons] at shorter
    · omega
    · have read := length_readAttribute _value
      have dropped := (List.dropWhile_suffix isNameByte (l := rest)).length_le
      omega
    · omega

theorem length_readTagTail {total start : Nat} {attributes : List (String × String)}
    {selfClosing : Bool} {bs : List UInt8} {tail : TagTail}
    (h : readTagTail total start attributes selfClosing bs = .ok tail) :
    tail.rest.length ≤ bs.length := by
  fun_induction readTagTail total start attributes selfClosing bs with
  | case1 => cases h
  | case2 _ _ bs rest next ih =>
    have := length_skipBlank bs
    have := ih h
    simp only [next, List.length_cons] at *
    omega
  | case3 _ _ bs rest next =>
    have := length_skipBlank bs
    cases h
    simp only [next, List.length_cons] at *
    omega
  | case4 => cases h
  | case5 _ _ bs b rest next _ _ _ value after read _ _ ih =>
    have := length_skipBlank bs
    have := length_readAttribute read
    have := (List.dropWhile_suffix isNameByte (l := rest)).length_le
    have := ih h
    simp only [next, List.length_cons] at *
    omega
  | case6 _ _ bs b rest next _ _ _ ih =>
    have := length_skipBlank bs
    have := ih h
    simp only [next, List.length_cons] at *
    omega

/-! ## Fragments -/

/-- An element whose closing tag is still to come. -/
structure OpenElement where
  tag : String
  attributes : List (String × String)
  children : List Markup
  offset : Nat

/-- The elements that are open, the innermost first, and the finished markup outside of them. -/
structure Reading where
  stack : List OpenElement := []
  roots : List Markup := []

/-- Adds finished markup to the innermost open element. -/
def Reading.add (state : Reading) (m : Markup) : Reading :=
  match state.stack with
  | [] => { state with roots := state.roots ++ [m] }
  | top :: outer => { state with stack := { top with children := top.children ++ [m] } :: outer }

/-- Closes the innermost open element, which has to have that tag. -/
def Reading.close (state : Reading) (tag : String) (offset : Nat) :
    Except MarkupError Reading :=
  match state.stack with
  | [] => .error (.unexpectedClosingTag tag offset)
  | top :: outer =>
    if top.tag = tag then
      .ok ({ state with stack := outer }.add (.element tag top.attributes top.children))
    else .error (.mismatchedTag top.tag tag offset)

def Reading.finish (state : Reading) : Except MarkupError (List Markup) :=
  match state.stack with
  | [] => .ok state.roots
  | top :: _ => .error (.unclosedTag top.tag top.offset)

/-- The closing tag behind `</`: its name and what follows it. The `>` may be missing. -/
def readClosing (bs : List UInt8) : String × List UInt8 :=
  let tag := Text.ofBytes (bs.takeWhile isTagByte)
  match skipBlank (bs.dropWhile isTagByte) with
  | [] => (tag, [])
  | b :: rest => (tag, if b = byteOf '>' then rest else b :: rest)

theorem length_readClosing (bs : List UInt8) : (readClosing bs).2.length ≤ bs.length := by
  have dropped := (List.dropWhile_suffix isTagByte (l := bs)).length_le
  have skipped := length_skipBlank (bs.dropWhile isTagByte)
  simp only [readClosing]
  split
  · simp
  · rename_i b rest next
    simp only [next, List.length_cons] at skipped
    split <;> simp only [List.length_cons] <;> omega

/-- Reads on from `bs`, the end of a text of `total` bytes. -/
def readFrom (total : Nat) (state : Reading) (bs : List UInt8) :
    Except MarkupError (List Markup) :=
  match bs with
  | [] => state.finish
  | b :: rest =>
    let offset := total - bs.length
    if b = byteOf '<' then
      if (mark "!--").isPrefixOf rest then
        match _comment : Text.breakOn? (mark "-->") (rest.drop 3) with
        | none => .error (.unterminated .comment offset)
        | some (content, after) =>
          readFrom total (state.add (.comment (Text.ofBytes content))) after
      else if (mark "!").isPrefixOf rest then
        match _declaration : Text.breakOn? (mark ">") rest with
        | none => .error (.unterminated .declaration offset)
        | some (_, after) => readFrom total state after
      else if (mark "/").isPrefixOf rest then
        let closing := readClosing (rest.drop 1)
        match state.close closing.1 offset with
        | .error e => .error e
        | .ok state => readFrom total state closing.2
      else
        let tag := Text.ofBytes (rest.takeWhile isTagByte)
        if tag = "" then .error (.missingTagName offset)
        else
          match _tail : readTagTail total offset [] false (rest.dropWhile isTagByte) with
          | .error e => .error e
          | .ok tail =>
            if tail.selfClosing || voidTags.contains tag.toLower then
              readFrom total (state.add (.element tag tail.attributes [])) tail.rest
            else
              let top : OpenElement := ⟨tag, tail.attributes, [], offset⟩
              readFrom total { state with stack := top :: state.stack } tail.rest
    else
      let after := afterText (b :: rest)
      let content := decodeEntities (Text.decodeUtf8 (upTo (b :: rest) after))
      readFrom total (state.add (.text (String.ofList content))) after
  termination_by bs.length
  decreasing_by
    all_goals simp only [List.length_cons]
    · have := Text.length_breakOn? _comment
      simp only [List.length_drop] at this
      omega
    · have := Text.length_breakOn? _declaration
      omega
    · have := length_readClosing (rest.drop 1)
      simp only [List.length_drop] at this
      omega
    · have := length_readTagTail _tail
      have := (List.dropWhile_suffix isTagByte (l := rest)).length_le
      omega
    · have := length_readTagTail _tail
      have := (List.dropWhile_suffix isTagByte (l := rest)).length_le
      omega
    · have := length_afterText_lt rest (by assumption)
      simpa using this

/-- The markup in a text, whatever stands side by side in it. -/
def parseFragment (source : String) : Except MarkupError (List Markup) :=
  let bs := Text.bytes source
  readFrom bs.length {} bs

def isElement : Markup → Bool
  | .element _ _ _ => true
  | _ => false

/-- The one element in a text. Text and comments around it do not count. -/
def parseTemplate (source : String) : Except MarkupError Markup := do
  let nodes ← parseFragment source
  match nodes.filter isElement with
  | [] => .error .empty
  | [root] => .ok root
  | roots => .error (.rootCount roots.length)

end Markup
end LiveTemplate
