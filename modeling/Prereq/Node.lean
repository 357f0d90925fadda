/-!
# Nodes and their numerals

* `Node` : a learning concept, known by a number of 64 bits;
* `Node.ofNat?` : the node of a number, if the number fits;
* `Node.digits` : the decimal numeral of a node, without leading zeros;
* `Node.read?` : the node that a run of decimal digits names, leading zeros allowed
  (`Node.read?_digits` : a numeral reads back).
-/

namespace Prereq

/-- A node of a curriculum, known by its number. -/
abbrev Node := UInt64

namespace Node

/-- The node with number `n`; there is none from `2 ^ 64` on. -/
def ofNat? (n : Nat) : Option Node :=
  if h : n < UInt64.size then some (UInt64.ofNatLT n h) else none

/-- The decimal digits of a node's number. -/
def digits (n : Node) : List Char := Nat.toDigits 10 n.toNat

/-- The numeral of a node as text. -/
def numeral (n : Node) : String := String.ofList n.digits

/-- The node named by a numeral: one or more decimal digits whose value fits. -/
def read? (s : List Char) : Option Node :=
  if s ≠ [] ∧ s.all Char.isDigit = true then ofNat? (Nat.ofDigitChars 10 s 0) else none

/-! ## Numerals -/

theorem ofNat?_toNat (n : Node) : ofNat? n.toNat = some n := by
  simp [ofNat?, n.toNat_lt_size]

theorem ofNat?_eq_some_iff {n : Nat} {x : Node} : ofNat? n = some x ↔ x.toNat = n := by
  constructor
  · intro h
    unfold ofNat? at h
    split at h
    · cases h
      simp
    · cases h
  · rintro rfl
    exact ofNat?_toNat x

theorem digits_ne_nil (n : Node) : n.digits ≠ [] := Nat.toDigits_ne_nil

theorem isDigit_of_mem_digits {n : Node} {c : Char} (h : c ∈ n.digits) : c.isDigit = true :=
  Nat.isDigit_of_mem_toDigits (by decide) (by decide) h

theorem read?_digits (n : Node) : read? n.digits = some n := by
  have hall : n.digits.all Char.isDigit = true :=
    List.all_eq_true.2 fun _ h => isDigit_of_mem_digits h
  rw [read?, if_pos ⟨digits_ne_nil n, hall⟩, digits, Nat.ofDigitChars_ten_toDigits, ofNat?_toNat]

theorem digits_injective {m n : Node} (h : m.digits = n.digits) : m = n := by
  have := congrArg read? h
  rwa [read?_digits, read?_digits, Option.some.injEq] at this

end Node

end Prereq
