import CodeIndex.Vector.Embedding
import CodeIndex.Vector.Features

/-!
# Embedders

An embedder turns texts into embeddings. It may have a model, whose vectors come first; when there is
no model, or the model fails on a text, the feature vector stands in. So every text has an
embedding.
-/

namespace CodeIndex

/-- A model: the type of its vectors, and the vector of a text unless the model fails. -/
structure Model where
  modelType : ModelType
  vectorOf : Text → Except VectorError (List Single)

/-- A source of embeddings, with or without a model. -/
structure Embedder where
  model : Option Model := none

namespace Embedder

/-- The embedder without a model. -/
def heuristic : Embedder := {}

/-- The embedder for a configured model name. Loading a model is outside the library, so that a
configured model is never there. -/
def ofSettings (_model : String) (_enabled : Bool) : Embedder := heuristic

def hasModel (e : Embedder) : Bool := e.model.isSome

/-- The type that the vectors of new texts should have. -/
def activeType (e : Embedder) : ModelType :=
  match e.model with
  | some m => m.modelType
  | none => .heuristic

def embed (e : Embedder) (t : Text) : Embedding :=
  match e.model with
  | none => ⟨features t, .heuristic⟩
  | some m =>
    match m.vectorOf t with
    | .ok vector => ⟨vector, m.modelType⟩
    | .error _ => ⟨features t, .heuristic⟩

end Embedder

end CodeIndex
