import Mathlib.Data.List.TakeWhile
import BurstBuffer.Source.Options

/-!
# The sizes of the nvm-size option

Below `2 ^ 46` the option sets exactly the multiples of a MiB. A negative number of MiB or
GiB ends up far above.
-/
namespace BurstBuffer.Source

/-- A line that sets `NVM_SIZE` has a unit and a number in front of it. -/
theorem handleUserInput_eq_some {optionBuf : List Char} {size : Nat}
    (option : handleUserInput optionBuf = some size) :
    ∃ optionValue pos mult value, sizeUnit optionValue = some (pos, mult) ∧
      stoi (optionValue.take pos) = some value ∧ size = mulUnsigned value mult := by
  unfold handleUserInput at option
  dsimp only at option
  split at option
  · obtain ⟨⟨pos, mult⟩, found, rest⟩ := Option.bind_eq_some_iff.mp option
    obtain ⟨value, number, assigned⟩ := Option.bind_eq_some_iff.mp rest
    cases assigned
    exact ⟨_, pos, mult, value, found, number, rfl⟩
  · cases option

theorem sizeUnit_mult {optionValue : List Char} {pos mult : Nat}
    (found : sizeUnit optionValue = some (pos, mult)) : mult = 2 ^ 20 ∨ mult = 2 ^ 30 := by
  unfold sizeUnit at found
  split at found
  · cases found
    exact Or.inr rfl
  · obtain ⟨_, _, same⟩ := Option.map_eq_some_iff.mp found
    cases same
    exact Or.inl rfl

theorem asInt_eq_some {number value : Int} (fits : asInt number = some value) :
    -2 ^ 31 ≤ value ∧ value < 2 ^ 31 := by
  unfold asInt at fits
  by_cases range : -2 ^ 31 ≤ number ∧ number < 2 ^ 31
  · rw [if_pos range, Option.some.injEq] at fits
    exact fits ▸ range
  · rw [if_neg range] at fits
    cases fits

theorem stoi_int {str : List Char} {value : Int} (number : stoi str = some value) :
    -2 ^ 31 ≤ value ∧ value < 2 ^ 31 := by
  unfold stoi at number
  dsimp only at number
  split at number
  · cases number
  · exact asInt_eq_some number

/-- Unless it wraps, the product is that of a positive number. -/
theorem mulUnsigned_small {value : Int} {mult : Nat} (range : -2 ^ 31 ≤ value ∧ value < 2 ^ 31)
    (unit : mult = 2 ^ 20 ∨ mult = 2 ^ 30) (positive : 0 < mulUnsigned value mult)
    (small : mulUnsigned value mult < 2 ^ 46) :
    ∃ k : Nat, 0 < k ∧ mulUnsigned value mult = k * mult := by
  unfold mulUnsigned at positive small ⊢
  refine ⟨value.toNat, ?_, ?_⟩ <;> rcases unit with rfl | rfl <;> omega

/-- The sizes below `2 ^ 46` are positive numbers of MiB or GiB. -/
theorem size_of_option {optionBuf : List Char} {size : Nat}
    (option : handleUserInput optionBuf = some size) (positive : 0 < size) (small : size < 2 ^ 46) :
    ∃ k, 0 < k ∧ (size = k * 2 ^ 20 ∨ size = k * 2 ^ 30) := by
  obtain ⟨optionValue, pos, mult, value, found, number, rfl⟩ := handleUserInput_eq_some option
  have unit := sizeUnit_mult found
  obtain ⟨k, some', product⟩ := mulUnsigned_small (stoi_int number) unit positive small
  refine ⟨k, some', ?_⟩
  rw [product]
  rcases unit with rfl | rfl
  · exact Or.inl rfl
  · exact Or.inr rfl

theorem findIdx?_first {c : Char} (front rest : List Char) (fresh : c ∉ front) :
    (front ++ c :: rest).findIdx? (· = c) = some front.length := by
  have before : front.findIdx? (fun d => decide (d = c)) = none := by
    rw [List.findIdx?_eq_none_iff]
    rintro d member
    simp only [decide_eq_false_iff_not]
    rintro rfl
    exact fresh member
  rw [List.findIdx?_append, before, List.findIdx?_cons]
  simp

/-- The decimal digits of a number, as they are typed. -/
def typed (k : Nat) : List Char := Nat.toDigits 10 k

theorem typed_digit {k : Nat} {c : Char} (member : c ∈ typed k) : c.isDigit = true :=
  Nat.isDigit_of_mem_toDigits (by decide) (by decide) member

theorem notMem_typed {c : Char} (k : Nat) (other : c.isDigit = false) : c ∉ typed k := by
  intro member
  rw [typed_digit member] at other
  cases other

theorem digit_toNat {c : Char} (digit : c.isDigit = true) : 48 ≤ c.toNat ∧ c.toNat ≤ 57 := by
  unfold Char.isDigit at digit
  simp only [Bool.and_eq_true, decide_eq_true_eq, ge_iff_le] at digit
  exact ⟨UInt32.le_iff_toNat_le.mp digit.1, UInt32.le_iff_toNat_le.mp digit.2⟩

theorem toUpper_digit {c : Char} (digit : c.isDigit = true) : c.toUpper = c := by
  have range := digit_toNat digit
  unfold Char.toUpper
  rw [dif_neg]
  rintro ⟨lower, _⟩
  have above : 97 ≤ c.toNat := UInt32.le_iff_toNat_le.mp lower
  omega

theorem isspace_digit {c : Char} (digit : c.isDigit = true) : isspace c = false := by
  have range := digit_toNat digit
  have notSpace : c ≠ ' ' := by
    rintro rfl
    cases digit
  unfold isspace
  simp only [notSpace, decide_false, Bool.false_or, Bool.and_eq_false_iff, decide_eq_false_iff_not]
  omega

theorem readSign_digit {c : Char} (rest : List Char) (digit : c.isDigit = true) :
    readSign (c :: rest) = (false, c :: rest) := by
  unfold readSign
  split
  · rename_i same
    cases same
    cases digit
  · rename_i same
    cases same
    cases digit
  · rfl

theorem typed_toUpper (k : Nat) : (typed k).map Char.toUpper = typed k :=
  (List.map_congr_left fun _ member => toUpper_digit (typed_digit member)).trans (List.map_id _)

theorem takeWhile_typed (k : Nat) : (typed k).takeWhile Char.isDigit = typed k := by
  rw [List.takeWhile_eq_self_iff]
  exact fun c member => typed_digit member

theorem readSign_typed (k : Nat) : readSign ((typed k).dropWhile isspace) = (false, typed k) := by
  cases shape : typed k with
  | nil => exact absurd shape Nat.toDigits_ne_nil
  | cons c rest =>
    have digit : c.isDigit = true := typed_digit (k := k) (shape ▸ List.mem_cons_self)
    rw [List.dropWhile_cons_of_neg (by simp [isspace_digit digit]), readSign_digit rest digit]

/-- stoi reads back a number that has been typed. -/
theorem stoi_typed {k : Nat} (small : k < 2 ^ 31) : stoi (typed k) = some (k : Int) := by
  have number : Nat.ofDigitChars 10 (typed k) 0 = k :=
    Nat.ofDigitChars_toDigits (by decide) (by decide)
  have shown : typed k ≠ [] := Nat.toDigits_ne_nil
  unfold stoi
  simp only [readSign_typed, takeWhile_typed, shown, number, if_false, Bool.false_eq_true]
  unfold asInt
  rw [if_pos (by omega)]

/-- The option with a number of MiB. -/
def mebibytes (k : Nat) : List Char := ['n', 's', ' '] ++ (typed k ++ ['M'])

theorem splitOption_mebibytes (k : Nat) :
    splitOption (mebibytes k) = (['n', 's'], typed k ++ ['M']) := by
  have noEquals : (mebibytes k).findIdx? (fun c => decide (c = '=')) = none := by
    rw [List.findIdx?_eq_none_iff]
    intro c member
    simp only [mebibytes, List.mem_append, List.mem_cons, List.not_mem_nil, or_false] at member
    rw [decide_eq_false_iff_not]
    rintro rfl
    rcases member with (same | same | same) | digit | same
    · cases same
    · cases same
    · cases same
    · exact notMem_typed k rfl digit
    · cases same
  have blank : (mebibytes k).findIdx? (fun c => decide (c = ' ')) = some 2 :=
    findIdx?_first ['n', 's'] (typed k ++ ['M']) (by decide)
  unfold splitOption
  rw [noEquals, blank]
  rfl

theorem sizeUnit_mebibytes (k : Nat) : sizeUnit (typed k ++ ['M']) =
    some ((typed k).length, 1024 * 1024) := by
  have noGiga : (typed k ++ ['M']).findIdx? (fun c => decide (c = 'G')) = none := by
    rw [List.findIdx?_eq_none_iff]
    intro c member
    rw [decide_eq_false_iff_not]
    rintro rfl
    rcases List.mem_append.mp member with digit | last
    · exact notMem_typed k rfl digit
    · cases List.mem_singleton.mp last
  unfold sizeUnit
  rw [noGiga, findIdx?_first _ [] (notMem_typed k rfl)]
  rfl

/-- Typing a number of MiB sets the size. -/
theorem option_of_size {k : Nat} (small : k < 2 ^ 26) :
    handleUserInput (mebibytes k) = some (k * 2 ^ 20) := by
  have upper : (typed k ++ ['M']).map Char.toUpper = typed k ++ ['M'] := by
    rw [List.map_append, typed_toUpper]
    rfl
  have front : (typed k ++ ['M']).take (typed k).length = typed k := List.take_left
  unfold handleUserInput
  simp only [splitOption_mebibytes, upper, or_true, if_true, sizeUnit_mebibytes,
    Option.bind_eq_bind, Option.bind_some, front, stoi_typed (by omega : k < 2 ^ 31)]
  rw [Option.some.injEq]
  unfold mulUnsigned
  omega

/-- The sizes that the option sets are the multiples of a MiB. -/
theorem option_sizes {size : Nat} (positive : 0 < size) (small : size < 2 ^ 46) :
    (∃ optionBuf, handleUserInput optionBuf = some size) ↔ 2 ^ 20 ∣ size := by
  constructor
  · rintro ⟨optionBuf, option⟩
    obtain ⟨k, _, mega | giga⟩ := size_of_option option positive small
    · exact ⟨k, by omega⟩
    · exact ⟨1024 * k, by omega⟩
  · rintro ⟨k, rfl⟩
    refine ⟨mebibytes k, ?_⟩
    rw [option_of_size (by omega), Nat.mul_comm]

end BurstBuffer.Source
