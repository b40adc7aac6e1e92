/-
# Ids and handles

Overriding an identity keeps its serial number, and its id unless another one is
given. Ids that were not overridden tell elements apart, for the serial number can be
read off them. Handles that compare as equal are equal.
-/

import PlanNetwork.Handle
import PlanNetwork.Identity

namespace PlanNetwork

theorem Handle.eq_of_compare_eq {kind : ElementKind} {a b : Handle kind}
    (same : compare a b = .eq) : a = b := by
  have index : a.index = b.index := Nat.compare_eq_eq.mp same
  cases a
  cases b
  exact congrArg Handle.mk index

instance (kind : ElementKind) : Std.LawfulEqOrd (Handle kind) where
  eq_of_compare := Handle.eq_of_compare_eq

namespace Identity

variable {i : Identity}

@[simp] theorem override_serial (id name : Option String) :
    (i.override id name).serial = i.serial := by
  cases id <;> cases name <;> rfl

@[simp] theorem override_id (id name : Option String) :
    (i.override id name).id = id.getD i.id := by
  cases id <;> cases name <;> rfl

/-- The id that an element of the kind has by default. -/
def defaultId (kind : String) (serial : Nat) : String := kind ++ "_" ++ toString serial

/-- What a default id ends with are the digits of the serial number, for an underscore
comes before them. -/
theorem digits_of_defaultId (kind : String) (serial : Nat) :
    (defaultId kind serial).toList.reverse.takeWhile Char.isDigit =
      (Nat.toDigits 10 serial).reverse := by
  have digits : ∀ c ∈ (Nat.toDigits 10 serial).reverse, c.isDigit = true := fun c member =>
    Nat.isDigit_of_mem_toDigits (by decide) (by decide) (List.mem_reverse.mp member)
  have text : (defaultId kind serial).toList = kind.toList ++ '_' :: Nat.toDigits 10 serial := by
    show (kind ++ "_" ++ serial.repr).toList = _
    simp
  rw [text, List.reverse_append, List.reverse_cons, List.append_assoc,
    List.takeWhile_append_of_pos digits]
  exact List.append_nil _

/-- The serial number can be read off the default id, whatever the kind. -/
theorem eq_of_defaultId_eq {kind kind' : String} {a b : Nat}
    (same : defaultId kind a = defaultId kind' b) : a = b := by
  have digits : Nat.toDigits 10 a = Nat.toDigits 10 b := by
    rw [← List.reverse_inj, ← digits_of_defaultId kind, same, digits_of_defaultId]
  rw [← @Nat.ofDigitChars_ten_toDigits a, digits, Nat.ofDigitChars_ten_toDigits]

end Identity

end PlanNetwork
