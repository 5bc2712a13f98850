import BurstBuffer.Source.Layout

/-!
# The nvm-size option

How handle_user_input of test_all.cc sets `NVM_SIZE` from a line of input, with the
functions of the C++ library it calls.
-/
namespace BurstBuffer.Source

/-- isspace of the C locale. -/
def isspace (c : Char) : Bool := c = ' ' || (9 ≤ c.toNat && c.toNat ≤ 13)

/-- Whether a minus sign comes first, and what is behind the sign. -/
def readSign : List Char → Bool × List Char
  | '-' :: rest => (true, rest)
  | '+' :: rest => (false, rest)
  | rest => (false, rest)

/-- The value is one of an `int`. -/
def asInt (value : Int) : Option Int :=
  if -2 ^ 31 ≤ value ∧ value < 2 ^ 31 then some value else none

/-- std::stoi. It throws where no digit follows and where the value is not an `int`. -/
def stoi (str : List Char) : Option Int :=
  let (negative, rest) := readSign (str.dropWhile isspace)
  let digits := rest.takeWhile Char.isDigit
  if digits = [] then none
  else
    let number : Int := Nat.ofDigitChars 10 digits 0
    asInt (if negative then -number else number)

/-- The product of an `int` and a `uint64_t`. -/
def mulUnsigned (value : Int) (mult : Nat) : Nat := (value % 2 ^ 64).toNat * mult % 2 ^ 64

/-- `option_name` and `option_value`: `substr(npos + 1)` is the whole string. -/
def splitOption (optionBuf : List Char) : List Char × List Char :=
  match (optionBuf.findIdx? (· = '=')).or (optionBuf.findIdx? (· = ' ')) with
  | some pos => (optionBuf.take pos, optionBuf.drop (pos + 1))
  | none => (optionBuf, optionBuf)

/-- `pos` and `mult` of the option. -/
def sizeUnit (optionValue : List Char) : Option (Nat × Nat) :=
  match optionValue.findIdx? (· = 'G') with
  | some pos => some (pos, 1024 * 1024 * 1024)
  | none => (optionValue.findIdx? (· = 'M')).map fun pos => (pos, 1024 * 1024)

/-- What handle_user_input assigns to `NVM_SIZE`, if it gets to the assignment. -/
def handleUserInput (optionBuf : List Char) : Option Nat :=
  let (optionName, optionValue) := splitOption optionBuf
  let optionValue := optionValue.map Char.toUpper
  if optionName = ['n', 'v', 'm', '_', 's', 'i', 'z', 'e'] ∨ optionName = ['n', 's'] then do
    let (pos, mult) ← sizeUnit optionValue
    let value ← stoi (optionValue.take pos)
    some (mulUnsigned value mult)
  else none

end BurstBuffer.Source
