/-!
# The value of digits

Digits come least significant first.  Two neighbours are one digit in the square of the base, so a
list of digits is halved until one is left: the numbers that are multiplied grow together, which
matters for texts with very many digits.  `value_eq_foldr` says that nothing else comes out than by
going through the digits one by one.
-/

namespace Arborist.Digits

def join (base : Nat) : List Nat → List Nat → List Nat
  | joined, low :: high :: digits => join base ((low + base * high) :: joined) digits
  | joined, digits => joined.reverse ++ digits

theorem length_join (base : Nat) (joined digits : List Nat) :
    (join base joined digits).length = joined.length + (digits.length + 1) / 2 := by
  fun_induction join base joined digits with
  | case1 joined low high digits ih =>
    rw [ih]
    simp only [List.length_cons]
    omega
  | case2 joined digits h =>
    rw [List.length_append, List.length_reverse]
    match digits, h with
    | [], _ => rfl
    | [_], _ => simp
    | low :: high :: digits, h => exact absurd rfl (h low high digits)

/-- The number that `digits` in a base stand for.  Neighbours are joined until one digit is left, in
a base that is squared each time, so that few multiplications have long factors. -/
def value (base : Nat) (digits : List Nat) : Nat :=
  match digits with
  | [] => 0
  | [digit] => digit
  | low :: high :: digits => value (base * base) (join base [] (low :: high :: digits))
termination_by digits.length
decreasing_by
  rw [length_join]
  simp only [List.length_cons, List.length_nil]
  omega

theorem foldr_join (base : Nat) (joined digits : List Nat) :
    (join base joined digits).foldr (fun d n => d + base * base * n) 0
      = joined.reverse.foldr (fun d n => d + base * base * n)
        (digits.foldr (fun d n => d + base * n) 0) := by
  fun_induction join base joined digits with
  | case1 joined low high digits ih =>
    rw [ih, List.reverse_cons, List.foldr_append]
    simp only [List.foldr_cons, List.foldr_nil, Nat.mul_add, Nat.mul_assoc, Nat.add_assoc]
  | case2 joined digits h =>
    rw [List.foldr_append]
    match digits, h with
    | [], _ => rfl
    | [digit], _ => simp
    | low :: high :: digits, h => exact absurd rfl (h low high digits)

theorem value_eq_foldr (base : Nat) (digits : List Nat) :
    value base digits = digits.foldr (fun d n => d + base * n) 0 := by
  fun_induction value base digits with
  | case1 => rfl
  | case2 base digit => simp
  | case3 base low high digits ih => rw [ih, foldr_join]; rfl

end Arborist.Digits
