import CodeIndex.Number.Single
import CodeIndex.Text.Basic

/-!
# Embeddings

A vector of singles with a tag for what produced it; only vectors with the same tag and length are
compared. In the store a vector is its singles in little-endian bytes, and a tag is a text.
-/

namespace CodeIndex

/-! ### Model types -/

/-- What produced a vector: the feature counts, or a model of the given name. -/
inductive ModelType where
  | heuristic
  | model (name : String)
  deriving DecidableEq, Repr, Inhabited

/-- The mark in front of the name of a model. -/
def ModelType.mark : Text := "model:".toList

def ModelType.tag : ModelType → String
  | .heuristic => "heuristic"
  | .model name => String.ofList (ModelType.mark ++ name.toList)

/-- The model type with the given tag; the name of a model is not empty. -/
def ModelType.ofTag? (tag : String) : Option ModelType :=
  if tag = "heuristic" then some .heuristic
  else
    match Text.dropStart? ModelType.mark tag.toList with
    | some (c :: name) => some (.model (String.ofList (c :: name)))
    | _ => none

/-- Whether vectors are feature counts. -/
def ModelType.isHeuristic : ModelType → Bool
  | .heuristic => true
  | .model _ => false

/-! ### Errors -/

/-- The model names that the settings accept. -/
def supportedModels : List String :=
  ["AllMiniLML6V2", "AllMiniLML12V2", "BGESmallENV15", "BGEBaseENV15", "MultilingualE5Small"]

/-- What goes wrong with vectors and models. -/
inductive VectorError where
  | unknownModel (name : String)
  | unknownModelType (tag : String)
  | oddLength (bytes : Nat)
  | embeddingFailed (reason : String)
  deriving DecidableEq, Repr

def VectorError.message : VectorError → String
  | .unknownModel name =>
    "Unknown embedding model: " ++ name ++ "\nSuggestion: Use one of "
      ++ ", ".intercalate supportedModels
  | .unknownModelType tag =>
    "Unknown model type tag: " ++ tag
      ++ "\nSuggestion: The stored row may come from a newer version; re-index the file"
  | .oddLength bytes =>
    "Serialization error: embedding blob of " ++ toString bytes
      ++ " bytes is not a whole number of f32 values"
      ++ "\nSuggestion: Check that vector data is valid and not corrupted"
  | .embeddingFailed reason =>
    "Embedding generation failed: " ++ reason
      ++ "\nSuggestion: Verify the embedding model is properly initialized"

/-- Whether a model name is known. -/
def checkModelName (name : String) : Except VectorError Unit :=
  if supportedModels.contains name then .ok () else .error (.unknownModel name)

/-! ### Vectors -/

/-- A vector and what produced it. -/
structure Embedding where
  vector : List Single
  modelType : ModelType
  deriving DecidableEq, Repr, Inhabited

namespace Embedding

/-- The number of components. -/
def dimension (e : Embedding) : Nat := e.vector.length

/-- Whether vectors with a model type and a length may be compared with this one. -/
def isComparable (e : Embedding) (modelType : ModelType) (dimension : Nat) : Bool :=
  e.modelType == modelType && e.vector.length == dimension

end Embedding

/-- The bytes of a single, the lowest first. -/
def Single.toBytes (x : Single) : List UInt8 :=
  let n := x.bits.toNat
  [UInt8.ofNat n, UInt8.ofNat (n / 0x100), UInt8.ofNat (n / 0x10000), UInt8.ofNat (n / 0x1000000)]

/-- The single with the given bytes, the lowest first. -/
def Single.ofBytes (a b c d : UInt8) : Single :=
  ⟨UInt32.ofNat (a.toNat + b.toNat * 0x100 + c.toNat * 0x10000 + d.toNat * 0x1000000)⟩

/-- The singles of whole groups of four bytes. -/
def singlesOfBytes? : List UInt8 → Option (List Single)
  | [] => some []
  | a :: b :: c :: d :: rest => (singlesOfBytes? rest).map (Single.ofBytes a b c d :: ·)
  | _ => none

namespace Embedding

/-- The bytes of the components, one after another. -/
def toBytes (e : Embedding) : List UInt8 :=
  e.vector.flatMap Single.toBytes

/-- The vector with the given bytes; their number is a multiple of four. -/
def ofBytes (bytes : List UInt8) (modelType : ModelType) : Except VectorError Embedding :=
  match singlesOfBytes? bytes with
  | some vector => .ok ⟨vector, modelType⟩
  | none => .error (.oddLength bytes.length)

end Embedding

end CodeIndex
