import CodeIndex.Vector.Embedding
import CodeIndex.Vector.Similarity

/-!
# Ranking

The comparable candidates are scored by their cosine with the query, raised for what they share with
the options, and forced between zero and one. The best come first, equal scores in the order of the
candidates, and at most a given number is kept.
-/

namespace CodeIndex

/-! ### Options and candidates -/

/-- What raises the score of a candidate. -/
structure SearchOptions where
  language : Option String := none
  patterns : List String := []
  functions : List String := []
  deriving DecidableEq, Repr, Inhabited

/-- What the ranking looks at in a candidate. -/
structure Candidate where
  vector : List Single
  modelType : ModelType
  language : String := ""
  patterns : List String := []
  functions : List String := []
  deriving DecidableEq, Repr, Inhabited

def languageGain : Single := .ofFloat 0.1

/-- The gain for each shared pattern. -/
def patternGain : Single := .ofFloat 0.05

/-- The gain for each shared function. -/
def functionGain : Single := .ofFloat 0.03

def SearchOptions.gain (options : SearchOptions) (c : Candidate) : Single :=
  let forLanguage := if options.language = some c.language then .zero + languageGain else .zero
  let shared (wanted found : List String) := Single.ofNat (wanted.countP found.contains)
  forLanguage + shared options.patterns c.patterns * patternGain
    + shared options.functions c.functions * functionGain

/-! ### Scores -/

/-- A scored item: the raised cosine, and the cosine itself. -/
structure Scored (α : Type) where
  item : α
  similarity : Single
  cosine : Single
  deriving Repr

/-- The score of an item, by what it shows as a candidate. -/
def score {α : Type} (candidateOf : α → Candidate) (query : Embedding) (options : SearchOptions)
    (item : α) : Scored α :=
  let c := candidateOf item
  let cosine := cosineSimilarity query.vector c.vector
  ⟨item, Single.clamp .zero .one (cosine + options.gain c), cosine⟩

/-- Puts an item into a list ordered from worst to best, behind the items that it is not better
than. -/
def insertWorseFirst {α : Type} (x : Scored α) : List (Scored α) → List (Scored α)
  | [] => [x]
  | y :: rest => if y.similarity.less x.similarity then y :: insertWorseFirst x rest else x :: y :: rest

/-- The items from worst to best, later ones before earlier ones of the same score. -/
def worstFirst {α : Type} (items : List (Scored α)) : List (Scored α) :=
  items.foldl (fun sorted x => insertWorseFirst x sorted) []

/-- The items from best to worst; equal scores keep their order. -/
def bestFirst {α : Type} (items : List (Scored α)) : List (Scored α) :=
  (worstFirst items).reverse

/-- The best `limit` of the items comparable with the query. -/
def rank {α : Type} (candidateOf : α → Candidate) (query : Embedding) (items : List α) (limit : Nat)
    (options : SearchOptions) : List (Scored α) :=
  let comparable := items.filter fun item =>
    query.isComparable (candidateOf item).modelType (candidateOf item).vector.length
  (bestFirst (comparable.map (score candidateOf query options))).take limit

end CodeIndex
