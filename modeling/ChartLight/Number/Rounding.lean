/-! Rounding a quotient of natural numbers to a whole number. Both ways give a neighbour of the
quotient and agree except on a tie, where `roundEven` takes the even neighbour and `roundUp` the
larger. -/

namespace ChartLight.Number

def roundEven (n d : Nat) : Nat :=
  let q := n / d
  let r := n % d
  if 2 * r < d then q
  else if d < 2 * r then q + 1
  else q + q % 2

def roundUp (n d : Nat) : Nat := (2 * n + d) / (2 * d)

theorem roundEven_one (n : Nat) : roundEven n 1 = n := by
  simp [roundEven, Nat.mod_one]

theorem roundEven_mul_mul {c : Nat} (hc : 0 < c) (n d : Nat) :
    roundEven (c * n) (c * d) = roundEven n d := by
  have h1 : 2 * (c * (n % d)) < c * d ↔ 2 * (n % d) < d := by
    rw [Nat.mul_left_comm]; exact Nat.mul_lt_mul_left hc
  have h2 : c * d < 2 * (c * (n % d)) ↔ d < 2 * (n % d) := by
    rw [Nat.mul_left_comm 2]; exact Nat.mul_lt_mul_left hc
  simp only [roundEven, Nat.mul_div_mul_left _ _ hc, Nat.mul_mod_mul_left, h1, h2]

end ChartLight.Number
