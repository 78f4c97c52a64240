import CodeIndex.Store.Document
import CodeIndex.Tree.Basic

/-!
# Store files

The bytes of a file. A store is written as one line that names the format and its document behind it;
other bytes are taken as a text where they spell one.
-/

namespace CodeIndex

/-- The first line of the file of a store. -/
def storeMark : String := "code index store, layout 1\n"

def textBytes (s : String) : List UInt8 := s.toUTF8.toList

def Content.toBytes : Content → List UInt8
  | .text t => textBytes (String.ofList t)
  | .bytes b => b
  | .store s => textBytes (storeMark ++ s.toDocument.compact)

/-- What the bytes of a file stand for. -/
def Content.ofBytes (b : List UInt8) : Content :=
  match Text.ofBytes? b with
  | none => .bytes b
  | some t =>
    match (Text.dropStart? storeMark.toList t).bind Json.ofText? |>.bind Store.ofDocument? with
    | some s => .store s
    | none => .text t

end CodeIndex
