import LiveTemplate.Text.Visible

/-!
# LiveTemplate.Text.Quoted

Text in double quotes, on one line and with every hidden character spelled out. Messages and
printed expressions show strings this way.
-/

namespace LiveTemplate
namespace Text

/-- The code point in lower-case hexadecimal, without leading zeros. -/
def hexOf (c : Char) : List Char := Nat.toDigits 16 c.toNat

/-- One character as it stands between the quotes. -/
def quoteChar (c : Char) : List Char :=
  if c = '"' then ['\\', '"']
  else if c = '\\' then ['\\', '\\']
  else if c = '\n' then ['\\', 'n']
  else if c = '\r' then ['\\', 'r']
  else if c = '\t' then ['\\', 't']
  else if c = '\x00' then ['\\', '0']
  else if isVisible c then [c]
  else ['\\', 'u', '\x7b'] ++ hexOf c ++ ['\x7d']

def quote (s : String) : String :=
  String.ofList ('"' :: s.toList.flatMap quoteChar ++ ['"'])

end Text
end LiveTemplate
