import CodeGraph.Graph.Node
/-! # Similarity — comparing vectors of single precision

    Every step is done in single precision, from left to right.

    * A sum begins at minus zero, which adds nothing to any number.
    * `rank` orders scores totally: minus zero below zero, and the undefined
      score below everything.  The sign of an undefined score is left open by the
      arithmetic, and `scoreBits` chooses one. -/

namespace CodeGraph.Retrieval

/-- The sum of numbers of single precision. -/
def sum (xs : List Float32) : Float32 := xs.foldl (· + ·) (-0.0)

/-- The Euclidean length of a vector. -/
def norm (v : Embedding) : Float32 := (sum (v.toList.map fun x => x * x)).sqrt

/-- The cosine of the angle between two vectors; zero if their lengths differ
    or one of them has no direction. -/
def cosine (a b : Embedding) : Float32 :=
  if a.size ≠ b.size then 0
  else
    let product := sum ((a.toList.zip b.toList).map fun p => p.1 * p.2)
    if norm a == 0 || norm b == 0 then 0 else product / (norm a * norm b)

/-- The bits of a number.  Arithmetic does not specify the sign of an undefined
    result; of the two, the one that is set is chosen here. -/
def scoreBits (x : Float32) : UInt32 := if x.isNaN then 0xFFC00000 else x.toBits

/-- The place of a number in the total order of its bits: by sign, then by
    magnitude. -/
def rank (x : Float32) : Int :=
  let bits := (scoreBits x).toNat
  if bits < 2147483648 then bits else 2147483647 - bits

end CodeGraph.Retrieval
