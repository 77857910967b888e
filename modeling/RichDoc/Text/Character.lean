/-! Classes of characters: the blanks, with the trimmed text and the words between them, and the
hexadecimal digits. A character is blank when it has the Unicode property White_Space. -/

namespace RichDoc.Text

/-- The characters with the property White_Space. -/
def isBlank (c : Char) : Bool :=
  let n := c.toNat
  (0x09 ≤ n && n ≤ 0x0D) || n == 0x20 || n == 0x85 || n == 0xA0 || n == 0x1680 ||
    (0x2000 ≤ n && n ≤ 0x200A) || n == 0x2028 || n == 0x2029 || n == 0x202F || n == 0x205F ||
    n == 0x3000

/-- The text without the blanks before its first and after its last other character. -/
def trim (t : List Char) : List Char :=
  ((t.dropWhile isBlank).reverse.dropWhile isBlank).reverse

/-- The longest stretches of characters that are not blank, in order. -/
def words (t : List Char) : List (List Char) :=
  (t.splitOnP isBlank).filter (!·.isEmpty)

/-- The characters that are not blank, in order. -/
def ink (t : List Char) : List Char :=
  t.filter (!isBlank ·)

@[simp] theorem trim_nil : trim [] = [] := rfl

@[simp] theorem words_nil : words [] = [] := rfl

@[simp] theorem ink_append (s t : List Char) : ink (s ++ t) = ink s ++ ink t := by
  simp [ink]

/-! ### Hexadecimal digits -/

def hexValue? (c : Char) : Option Nat :=
  if '0' ≤ c ∧ c ≤ '9' then some (c.toNat - '0'.toNat)
  else if 'a' ≤ c ∧ c ≤ 'f' then some (c.toNat - 'a'.toNat + 10)
  else if 'A' ≤ c ∧ c ≤ 'F' then some (c.toNat - 'A'.toNat + 10)
  else none

/-- The lower-case hexadecimal digit of a value below 16. -/
def hexDigit (n : Nat) : Char :=
  if n < 10 then Char.ofNat ('0'.toNat + n) else Char.ofNat ('a'.toNat + (n - 10))

end RichDoc.Text
