/-!
# Basis indices

Bit `q` of the index of an amplitude is the value of qubit `q`. An operator on `k` qubits mixes
groups of `2 ^ k` amplitudes whose indices differ only in the operand bits. A work item is such an
index with the operand bits taken out, and its group is found by putting zero bits back in at those
places.

* `pairOffset`, `quadBase` and `octetBase` put in one, two and three zero bits;
* `quadMembers` and `octetMembers` list a group by its local index, first operand most significant;
* `pairWalk` lists consecutive pair offsets by stepping instead of computing each one.
-/

namespace ShotSim

namespace BasisIndex

def low (n bits : Nat) : Nat := n % Nat.pow 2 bits

/-- `item` with a zero bit put in at position `qubit`. -/
def pairOffset (item qubit : Nat) : Nat := ((item >>> qubit) <<< (qubit + 1)) ||| low item qubit

/-- The pair offset following `offset`: one further, skipping the half in which the bit of weight
`stride` is set. -/
def nextPairOffset (offset stride : Nat) : Nat :=
  if (offset + 1) &&& stride = 0 then offset + 1 else offset + 1 + stride

/-- `n` offsets from `offset` on, each the `nextPairOffset` of the one before it. -/
def pairWalk (stride : Nat) : Nat → Nat → List Nat
  | 0, _ => []
  | n + 1, offset => offset :: pairWalk stride n (nextPairOffset offset stride)

/-- `item` with zero bits put in at positions `lo < hi`. -/
def quadBase (item lo hi : Nat) : Nat :=
  low item lo ||| (low (item >>> lo) (hi - lo - 1) <<< (lo + 1)) |||
    ((item >>> (hi - 1)) <<< (hi + 1))

def octetBase (item a b c : Nat) : Nat :=
  low item a ||| (low (item >>> a) (b - a - 1) <<< (a + 1)) |||
    (low (item >>> (b - 1)) (c - b - 1) <<< (b + 1)) ||| ((item >>> (c - 2)) <<< (c + 1))

def sort2 (q1 q2 : Nat) : Nat × Nat := if q1 < q2 then (q1, q2) else (q2, q1)

def sort3 (q1 q2 q3 : Nat) : Nat × Nat × Nat :=
  let (a, b) := sort2 q1 q2
  if q3 < a then (q3, a, b) else if q3 < b then (a, q3, b) else (a, b, q3)

def pairMembers (offset qubit : Nat) : List Nat := [offset, offset ||| 1 <<< qubit]

/-- The four offsets of a group, by local index `2 * bit q1 + bit q2`. -/
def quadMembers (item q1 q2 : Nat) : List Nat :=
  let (lo, hi) := sort2 q1 q2
  let base := quadBase item lo hi
  [base, base ||| 1 <<< q2, base ||| 1 <<< q1, base ||| 1 <<< q1 ||| 1 <<< q2]

/-- The eight offsets of a group, by local index `4 * bit q1 + 2 * bit q2 + bit q3`. -/
def octetMembers (item q1 q2 q3 : Nat) : List Nat :=
  let (a, b, c) := sort3 q1 q2 q3
  let base := octetBase item a b c
  (List.range 8).map fun i =>
    let o1 := if i.testBit 2 then base ||| 1 <<< q1 else base
    let o2 := if i.testBit 1 then o1 ||| 1 <<< q2 else o1
    if i.testBit 0 then o2 ||| 1 <<< q3 else o2

/-- First and last work item, exclusive, of a worker when each worker takes `count` items. -/
def workerRange (worker count : Nat) : Nat × Nat := (worker * count, (worker + 1) * count)

def workerItems (worker count : Nat) : List Nat := List.range' (worker * count) count

end BasisIndex

end ShotSim
