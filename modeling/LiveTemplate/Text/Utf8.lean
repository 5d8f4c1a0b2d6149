/-!
# LiveTemplate.Text.Utf8

Text as UTF-8 bytes, and bytes read back as text. Reading never fails: a broken piece, up to the
first byte that cannot continue it, reads as one replacement character.
-/

namespace LiveTemplate
namespace Text

/-- The UTF-8 encoding of a text. -/
def encodeUtf8 (cs : List Char) : List UInt8 := cs.flatMap String.utf8EncodeChar

def bytes (s : String) : List UInt8 := encodeUtf8 s.toList

/-- How many bytes the encoding of a text takes. -/
def byteLength (cs : List Char) : Nat := cs.foldl (fun n c => n + c.utf8Size) 0

/-- Stands for a piece that is not UTF-8. -/
def replacement : Char := '�'

def isContinuation (b : UInt8) : Bool := 0x80 ≤ b && b ≤ 0xBF

/-- What the second byte after a given leading byte may be: no overlong form, no surrogate, nothing
beyond U+10FFFF. -/
def isSecond (lead b : UInt8) : Bool :=
  if lead = 0xE0 then 0xA0 ≤ b && b ≤ 0xBF
  else if lead = 0xED then 0x80 ≤ b && b ≤ 0x9F
  else if lead = 0xF0 then 0x90 ≤ b && b ≤ 0xBF
  else if lead = 0xF4 then 0x80 ≤ b && b ≤ 0x8F
  else isContinuation b

/-- The six payload bits of a continuation byte. -/
def payload (b : UInt8) : Nat := b.toNat % 64

/-- Reads one character, or one broken piece, off the front. The rest is never longer than what
follows the first byte. -/
def decodeChar (lead : UInt8) (rest : List UInt8) : Char × List UInt8 :=
  if lead < 0x80 then (Char.ofNat lead.toNat, rest)
  else if 0xC2 ≤ lead && lead ≤ 0xDF then
    match rest with
    | b :: r =>
      if isContinuation b then (Char.ofNat (lead.toNat % 32 * 64 + payload b), r)
      else (replacement, rest)
    | [] => (replacement, rest)
  else if 0xE0 ≤ lead && lead ≤ 0xEF then
    match rest with
    | b :: c :: r =>
      if isSecond lead b then
        if isContinuation c then
          (Char.ofNat ((lead.toNat % 16 * 64 + payload b) * 64 + payload c), r)
        else (replacement, c :: r)
      else (replacement, rest)
    | [b] => if isSecond lead b then (replacement, []) else (replacement, rest)
    | [] => (replacement, rest)
  else if 0xF0 ≤ lead && lead ≤ 0xF4 then
    match rest with
    | b :: c :: d :: r =>
      if isSecond lead b then
        if isContinuation c then
          if isContinuation d then
            (Char.ofNat (((lead.toNat % 8 * 64 + payload b) * 64 + payload c) * 64 + payload d), r)
          else (replacement, d :: r)
        else (replacement, c :: d :: r)
      else (replacement, rest)
    | [b, c] =>
      if isSecond lead b then
        if isContinuation c then (replacement, []) else (replacement, [c])
      else (replacement, rest)
    | [b] => if isSecond lead b then (replacement, []) else (replacement, rest)
    | [] => (replacement, rest)
  else (replacement, rest)

theorem length_decodeChar (lead : UInt8) (rest : List UInt8) :
    (decodeChar lead rest).2.length ≤ rest.length := by
  unfold decodeChar
  repeat' split
  all_goals simp only [List.length_cons, List.length_nil]
  all_goals omega

/-- The text that bytes spell, with a replacement character for each broken piece. -/
def decodeUtf8 : List UInt8 → List Char
  | [] => []
  | lead :: rest =>
    let step := decodeChar lead rest
    step.1 :: decodeUtf8 step.2
  termination_by bs => bs.length
  decreasing_by
    have := length_decodeChar lead rest
    simp only [List.length_cons]
    omega

def ofBytes (bs : List UInt8) : String := String.ofList (decodeUtf8 bs)

end Text
end LiveTemplate
