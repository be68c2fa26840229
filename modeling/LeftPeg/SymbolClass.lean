/-!
# Classes of symbols

Tests for single symbols that grammars commonly ask for, on characters and on integers. Letters and
digits are those of ASCII.
-/

namespace LeftPeg

namespace SymbolClass

/-! ## Characters -/

def digit (c : Char) : Bool :=
  '0' ≤ c && c ≤ '9'

def nonzeroDigit (c : Char) : Bool :=
  '1' ≤ c && c ≤ '9'

def capital (c : Char) : Bool :=
  'A' ≤ c && c ≤ 'Z'

def letter (c : Char) : Bool :=
  capital c || ('a' ≤ c && c ≤ 'z')

/-- The space character only, and no other blank. -/
def space (c : Char) : Bool :=
  c = ' '

def beyondAscii (c : Char) : Bool :=
  127 < c.toNat

/-! ## Integers -/

def even (n : Int) : Bool :=
  n % 2 = 0

def negative (n : Int) : Bool :=
  n < 0

def zero (n : Int) : Bool :=
  n = 0

end SymbolClass

end LeftPeg
