import CodeIndex.Number.Single

/-!
# Cosine similarity

Sums run from left to right in single precision.
-/

namespace CodeIndex

/-- The sum of the squares of a vector. -/
def squaredLength (v : List Single) : Single :=
  Single.sum (v.map fun x => x * x)

def vectorLength (v : List Single) : Single :=
  (squaredLength v).sqrt

/-- The cosine of the angle between two vectors, between minus one and one; zero when their
dimensions differ or one has no length. -/
def cosineSimilarity (a b : List Single) : Single :=
  if a.length ≠ b.length ∨ a = [] then .zero
  else
    let dot := Single.sum (List.zipWith (· * ·) a b)
    let lengthA := vectorLength a
    let lengthB := vectorLength b
    if lengthA.isZero || lengthB.isZero then .zero
    else Single.clamp .minusOne .one (dot / (lengthA * lengthB))

/-- The vector scaled to length one, if it has a length. -/
def normalize (v : List Single) : List Single :=
  let length := vectorLength v
  if Single.zero.less length then v.map (· / length) else v

end CodeIndex
