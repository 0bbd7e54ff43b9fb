/-!
# Drawing alternatives

Randomness enters the library as a script of 32-bit numbers, taken from the front.
Once the script is used up the source goes on with zeros, so there is always another
number, and a run is a function of its script.

To pick one of `n` alternatives, a number is multiplied by `n`. The upper half of the
64-bit product is the pick, and each pick claims an equal share of the numbers if
those with a lower half beyond a bound are thrown away and drawn again. The bound
used here is the largest one found without dividing: `n` shifted to the top of its
word, less one. It depends on `n` alone and rejects some numbers even for one
alternative.
-/

namespace ContextFree

/-- What is left of a script of random numbers, and how many have been taken. -/
structure Draws where
  script : List UInt32
  taken : Nat := 0
deriving DecidableEq, Repr

/-- Drawn numbers lie below this. -/
def drawRange : Nat := 0x100000000

/-- The largest lower half with which a number is accepted. -/
def acceptanceBound (n : Nat) : Nat :=
  n <<< (31 - n.log2) - 1

/-- The pick a number makes among `n` alternatives, if it is accepted. -/
def pick? (n : Nat) (v : UInt32) : Option Nat :=
  let product := v.toNat * n
  if product % drawRange ≤ acceptanceBound n then some (product / drawRange) else none

/-- Draws until a number is accepted. A zero always is, and it picks the first. -/
def choose (n : Nat) : List UInt32 → Nat → Nat × Draws
  | [], taken => (0, { script := [], taken := taken + 1 })
  | v :: rest, taken =>
    match pick? n v with
    | some i => (i, { script := rest, taken := taken + 1 })
    | none => choose n rest (taken + 1)

/-- Draws one of `n` alternatives, counted from zero. -/
def Draws.choose (d : Draws) (n : Nat) : Nat × Draws :=
  ContextFree.choose n d.script d.taken

theorem lt_of_pick?_eq_some {n : Nat} {v : UInt32} {i : Nat} (hn : 0 < n)
    (h : pick? n v = some i) : i < n := by
  simp only [pick?] at h
  split at h
  · cases h
    have hv : v.toNat < drawRange := v.toNat_lt
    exact Nat.div_lt_of_lt_mul (Nat.mul_lt_mul_of_pos_right hv hn)
  · cases h

/-- What is drawn is one of the alternatives. -/
theorem Draws.choose_lt (d : Draws) {n : Nat} (hn : 0 < n) : (d.choose n).1 < n := by
  unfold Draws.choose
  generalize d.taken = taken
  induction d.script generalizing taken with
  | nil => exact hn
  | cons v rest ih =>
    rw [ContextFree.choose]
    split
    · rename_i i hi
      exact lt_of_pick?_eq_some hn hi
    · exact ih _

end ContextFree
