import Reduct.Symbol

/-!
# Numbered names

Generated names end in a decimal number. A text that does not end in a digit can be told apart
from the number behind it, so two such names are equal only if both parts are.
-/

namespace Reduct

/-- The digits at the end of a text. -/
def trailingDigits (text : List Char) : List Char := (text.reverse.takeWhile Char.isDigit).reverse

/-- A text that is empty or ends in another character than a digit. -/
def EndsPlain (text : List Char) : Prop := ∀ last, text.getLast? = some last → last.isDigit = false

instance (text : List Char) : Decidable (EndsPlain text) :=
  match found : text.getLast? with
  | none => isTrue (by rw [EndsPlain, found]; nofun)
  | some last =>
    if digit : last.isDigit = false then
      isTrue (by
        intro other same
        rw [found] at same
        cases same
        exact digit)
    else isFalse fun plain => digit (plain last found)

theorem isDigit_of_mem_toDigits {number : Nat} {digit : Char}
    (listed : digit ∈ Nat.toDigits 10 number) : digit.isDigit = true :=
  Nat.isDigit_of_mem_toDigits (by decide) (by decide) listed

/-- The number behind a plain text is all of the digits at the end. -/
theorem trailingDigits_append {text : List Char} (plain : EndsPlain text) (number : Nat) :
    trailingDigits (text ++ Nat.toDigits 10 number) = Nat.toDigits 10 number := by
  unfold trailingDigits
  rw [List.reverse_append, List.takeWhile_append_of_pos]
  · have stop : text.reverse.takeWhile Char.isDigit = [] := by
      cases reversed : text.reverse with
      | nil => rfl
      | cons last rest =>
        have ends : text.getLast? = some last := by
          rw [← List.head?_reverse, reversed]
          rfl
        rw [List.takeWhile_cons_of_neg]
        rw [plain last ends]
        decide
    rw [stop, List.append_nil, List.reverse_reverse]
  · intro digit listed
    exact isDigit_of_mem_toDigits (List.mem_reverse.mp listed)

/-- Plain texts with numbers behind them are equal only if texts and numbers are. -/
theorem append_toDigits_inj {first second : List Char} {left right : Nat}
    (plain : EndsPlain first) (other : EndsPlain second)
    (same : first ++ Nat.toDigits 10 left = second ++ Nat.toDigits 10 right) :
    first = second ∧ left = right := by
  have digits : Nat.toDigits 10 left = Nat.toDigits 10 right := by
    rw [← trailingDigits_append plain left, same, trailingDigits_append other right]
  have numbers : left = right := by
    have value := congrArg (fun text => Nat.ofDigitChars 10 text 0) digits
    simpa only [Nat.ofDigitChars_ten_toDigits] using value
  refine ⟨?_, numbers⟩
  rw [digits] at same
  exact List.append_cancel_right same

theorem toList_toString (number : Nat) : (toString number).toList = Nat.toDigits 10 number := by
  rw [Nat.toString_eq_ofList_toDigits, String.toList_ofList]

/-- Plain hints with numbers behind them are equal only if hints and numbers are. -/
theorem append_toString_inj {first second : String} {left right : Nat}
    (plain : EndsPlain first.toList) (other : EndsPlain second.toList)
    (same : first ++ toString left = second ++ toString right) : first = second ∧ left = right := by
  have texts := congrArg String.toList same
  rw [String.toList_append, String.toList_append, toList_toString, toList_toString] at texts
  obtain ⟨hints, numbers⟩ := append_toDigits_inj plain other texts
  exact ⟨String.toList_inj.mp hints, numbers⟩

/-- A numbered name never ends like a plain one. -/
theorem not_endsPlain_append_toString (hint : String) (number : Nat) :
    ¬ EndsPlain (hint ++ toString number).toList := by
  intro plain
  rw [String.toList_append, toList_toString] at plain
  have filled : Nat.toDigits 10 number ≠ [] := Nat.toDigits_ne_nil
  have last := plain ((Nat.toDigits 10 number).getLast filled) (by
    rw [List.getLast?_append, List.getLast?_eq_some_getLast filled]
    rfl)
  rw [isDigit_of_mem_toDigits (List.getLast_mem filled)] at last
  cases last

namespace Symbol

theorem endsPlain_hash (base : Symbol) : EndsPlain (base ++ "#").toList := by
  intro last found
  have hash : (base ++ "#").toList.getLast? = some '#' := by
    rw [String.toList_append]
    exact List.getLast?_concat
  rw [hash] at found
  cases found
  rfl

/-- Fresh symbols are equal only if base and number are. -/
theorem numbered_inj {first second : Symbol} {left right : Nat}
    (same : numbered first left = numbered second right) : first = second ∧ left = right := by
  obtain ⟨bases, numbers⟩ :=
    append_toString_inj (endsPlain_hash first) (endsPlain_hash second) same
  have texts := congrArg String.toList bases
  rw [String.toList_append, String.toList_append] at texts
  exact ⟨String.toList_inj.mp (List.append_cancel_right texts), numbers⟩

/-- A fresh symbol carries the mark of a generated name. -/
theorem isSynthetic_numbered (base : Symbol) (index : Nat) :
    isSynthetic (numbered base index) = true := by
  unfold isSynthetic numbered
  rw [String.toList_append, String.toList_append]
  simp

end Symbol

end Reduct
