/-! Reading natural numbers: decimal digits, with an optional plus sign, below `2 ^ 64`. -/

namespace CommandLang.Text

def digitsValue (digits : List Char) : Nat :=
  digits.foldl (fun value c => 10 * value + (c.toNat - '0'.toNat)) 0

def readDigits (digits : List Char) : Option Nat :=
  if digits.isEmpty || !digits.all Char.isDigit then none
  else if digitsValue digits < UInt64.size then some (digitsValue digits) else none

def readNumber (text : List Char) : Option Nat :=
  match text with
  | '+' :: digits => readDigits digits
  | digits => readDigits digits

theorem digitsValue_toDigits (number : Nat) : digitsValue (Nat.toDigits 10 number) = number :=
  Nat.ofDigitChars_ten_toDigits

theorem readNumber_toDigits {number : Nat} (small : number < UInt64.size) :
    readNumber (Nat.toDigits 10 number) = some number := by
  have digits : ∀ c ∈ Nat.toDigits 10 number, c.isDigit = true := fun c member =>
    Nat.isDigit_of_mem_toDigits (by decide) (by decide) member
  have unsigned : readNumber (Nat.toDigits 10 number) = readDigits (Nat.toDigits 10 number) := by
    unfold readNumber
    split
    next rest same => exact absurd (digits '+' (same ▸ List.mem_cons_self ..)) (by decide)
    next => rfl
  have some : Nat.toDigits 10 number ≠ [] := Nat.toDigits_ne_nil
  rw [unsigned, readDigits, digitsValue_toDigits, if_neg (by simpa [some] using digits), if_pos small]

theorem lt_of_readNumber {text : List Char} {number : Nat} (read : readNumber text = some number) : number < UInt64.size := by
  have inside : ∀ {digits : List Char}, readDigits digits = some number → number < UInt64.size := by
    intro digits read
    simp only [readDigits, Option.ite_none_left_eq_some, Option.ite_none_right_eq_some, Option.some.injEq] at read
    obtain ⟨_, small, rfl⟩ := read
    exact small
  unfold readNumber at read
  split at read
  all_goals exact inside read

example : readNumber "+007".toList = some 7 := by decide +kernel

example : readNumber "18446744073709551615".toList = some 18446744073709551615 := by decide +kernel

example : readNumber "18446744073709551616".toList = none := by decide +kernel

example : ["", "+", "-1", " 1", "1_0", "++1"].map (readNumber ·.toList) = List.replicate 6 none := by
  decide +kernel

end CommandLang.Text
