/-!
# Hexadecimal text

Natural numbers as lower-case hexadecimal digits with a least number of digits.
-/

namespace GroupCommit.Numeral

/-- `n` in lower-case hexadecimal after `0x`, with zeros in front up to `width` digits. -/
def toHex (n width : Nat) : String :=
  let digits := Nat.toDigits 16 n
  "0x" ++ String.ofList (List.replicate (width - digits.length) '0' ++ digits)

end GroupCommit.Numeral
