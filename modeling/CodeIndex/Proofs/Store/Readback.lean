import CodeIndex.Proofs.Insight.Document
import CodeIndex.Proofs.Store.Frame
import CodeIndex.Proofs.Vector.Codec
import CodeIndex.Store.Query

/-!
# Entries read back

What is read for a path whose rows were written from an entry: the entry itself, with the time of the
writing. It cannot be read when its embedding is by a model without a name, or when a real in it is not
finite: the text of a document has null in the place of such a real, and no reader takes null for one.
-/

namespace CodeIndex

/-! ### Reals in entries -/

theorem BinaryValue.isFinite_special (fraction : Nat) (negative : Bool) :
    (if fraction = 0 then BinaryValue.infinite negative else .nan).isFinite = false := by
  split <;> rfl

theorem Single.isNaN_of_isFinite (x : Single) (h : x.isFinite = true) : x.isNaN = false := by
  have hexponent : x.bits.toNat / 8388608 % 256 ≠ 255 := by
    intro he
    simp only [isFinite, BinaryValue.ofSingleBits, BinaryValue.decode, Nat.reducePow, Nat.pow_eq, he,
      Nat.reduceSub, ite_true, BinaryValue.isFinite_special, Bool.false_eq_true] at h
  refine decide_eq_false (p := 0x7f800000 < x.bits.toNat % 2147483648) ?_
  omega

/-- Whether the text of a relation spells the whole of it. Its metadata is a value that was read from a
text, in which all reals are finite. -/
def Relation.IsFinite (r : Relation) : Prop :=
  r.strength.isFinite = true ∧ r.metadata.spelled = r.metadata

/-- An analysis in which all reals are finite. -/
structure FileAnalysis.IsFinite (a : FileAnalysis) : Prop where
  patterns : a.patterns.all (·.confidence.isFinite) = true
  metrics : a.metrics.isFinite = true
  relations : ∀ r ∈ a.relations, r.IsFinite

/-- An entry in which all reals outside the vector are finite. -/
structure FileEntry.IsFinite (e : FileEntry) : Prop where
  metadata : e.metadata.isFinite = true
  analysis : ∀ a, e.analysis = some a → a.IsFinite

theorem FileEntry.hasStrengths_of_relations (e : FileEntry)
    (h : ∀ r ∈ e.relations, r.strength.isFinite = true) : e.hasStrengths = true := by
  rw [hasStrengths, List.all_eq_true]
  intro r hr
  rw [r.strength.isNaN_of_isFinite (h r hr)]
  rfl

theorem FileEntry.hasStrengths_of_isFinite (e : FileEntry) (h : e.IsFinite) : e.hasStrengths = true := by
  refine e.hasStrengths_of_relations fun r hr => ?_
  obtain ⟨a, ha, hr⟩ := (e.mem_relations r).mp hr
  exact ((h.analysis a ha).relations r hr).1

/-- The record of an entry that was written at a time. -/
def FileEntry.recordAt (now : String) (e : FileEntry) : StoredFile :=
  { file :=
      { path := e.path
        contentHash := e.contentHash
        embedding := e.embedding
        metadata := e.metadata
        fileSize := (signedSize e.fileSize).toNat
        language := e.language
        createdAt := stampTime now }
    structural := e.analysis.map fun a => ⟨e.path, e.contentHash, a, stampTime now⟩ }

/-- The error for an entry with an embedding by a model without a name. -/
def FileEntry.unnamedModel (e : FileEntry) : StoreError :=
  .corruptEmbedding e.path (VectorError.unknownModelType (ModelType.model "").tag).message

theorem Written.decode_document {α : Type} (what : String) (read : Json → Option α) (v : Json)
    (a : α) (h : read v.spelled = some a) : (Written.document v).decode what read = .ok a := by
  simp only [Written.decode, Written.document?, Option.bind_some, h]

theorem Written.decode_none {α : Type} (what : String) (read : Json → Option α) (v : Json)
    (h : read v.spelled = none) : (Written.document v).decode what read = .error (.unreadable what none) := by
  simp only [Written.decode, Written.document?, Option.bind_some, h]

theorem FileRow.read_ofEntry (now : String) (e : FileEntry) :
    (FileRow.ofEntry now e).read =
      .ok
        { path := e.path
          contentHash := e.contentHash
          embedding := e.embedding.toBytes
          metadata := .document e.metadata.toDocument
          modelType := e.embedding.modelType.tag
          fileSize := signedSize e.fileSize
          language := e.language
          createdAt := now } := rfl

theorem FileRow.decode_ofEntry (now : String) (e : FileEntry)
    (h : e.embedding.modelType ≠ .model "") (hf : e.metadata.isFinite = true) :
    ((FileRow.ofEntry now e).read >>= FileCells.decode) = .ok (e.recordAt now).file := by
  have hm := e.embedding.modelType.ofTag_tag h
  have he := e.embedding.ofBytes_toBytes
  have hd := Written.decode_document "file metadata" FileMetadata.ofDocument? e.metadata.toDocument
    e.metadata (by rw [FileMetadata.ofDocument_spelled, if_pos hf])
  simp only [FileRow.read_ofEntry, bind, Except.bind, FileCells.decode, FileCells.embedding?, hm, he,
    hd]
  rfl

theorem FileRow.decode_unnamed (now : String) (e : FileEntry)
    (h : e.embedding.modelType = .model "") :
    ((FileRow.ofEntry now e).read >>= FileCells.decode) = .error e.unnamedModel := by
  simp only [FileRow.read_ofEntry, bind, Except.bind, FileCells.decode, FileCells.embedding?, h,
    ModelType.ofTag_unnamed]
  rfl

theorem decodePatterns_document (list : List DesignPattern) :
    decodePatterns (.document (.array (list.map DesignPattern.toDocument))) =
      if list.all (·.confidence.isFinite) then .ok list
      else .error (.unreadable "architectural patterns" none) := by
  have hread : Json.list? DesignPattern.ofDocument?
      (Json.array (list.map DesignPattern.toDocument)).spelled =
        if list.all (·.confidence.isFinite) then some list else none := by
    rw [Json.spelled_array, list_designPattern]
  split
  · next h => exact Written.decode_document _ _ _ _ (hread.trans (if_pos h))
  · next h => exact Written.decode_none _ _ _ (hread.trans (if_neg h))

theorem relations_document (list : List Relation) (h : ∀ r ∈ list, r.IsFinite) :
    Json.list? Relation.ofDocument? (Json.array (list.map Relation.toDocument)).spelled = some list := by
  have hread : ∀ r ∈ list, Relation.ofDocument? r.toDocument.spelled = some r := by
    intro r hr
    obtain ⟨hs, hm⟩ := h r hr
    rw [Relation.ofDocument_spelled, if_pos hs, hm]
  rw [Json.spelled_array]
  simp only [Json.list?, Json.items?, Option.bind_some]
  clear h
  induction list with
  | nil => rfl
  | cons r rest ih =>
    rw [List.map_cons, List.mapM_cons, hread r List.mem_cons_self,
      ih fun q hq => hread q (List.mem_cons_of_mem r hq)]
    rfl

theorem StructureRow.decode_of (now path hash : String) (a : FileAnalysis) (h : a.IsFinite) :
    ((StructureRow.of now path hash a).read >>= StructureCells.decode) =
      .ok ⟨path, hash, a, stampTime now⟩ := by
  have hd := Written.decode_document "structural description" Description.ofDocument?
    a.description.toDocument a.description (by simp)
  have hp := decodePatterns_document a.patterns
  rw [if_pos h.patterns] at hp
  have hm := Written.decode_document "code metrics" CodeMetrics.ofDocument? a.metrics.toDocument
    a.metrics (by rw [CodeMetrics.ofDocument_spelled, if_pos h.metrics])
  have hr := Written.decode_document "relationships" (Json.list? Relation.ofDocument?)
    (.array (a.relations.map Relation.toDocument)) a.relations (relations_document a.relations h.relations)
  have hread : (StructureRow.of now path hash a).read =
      .ok
        { path
          contentHash := hash
          description := .document a.description.toDocument
          patterns := .document (.array (a.patterns.map DesignPattern.toDocument))
          metrics := .document a.metrics.toDocument
          relations := .document (.array (a.relations.map Relation.toDocument))
          createdAt := now } := rfl
  simp only [hread, bind, Except.bind, StructureCells.decode, hd, hp, hm, hr]
  rfl

/-! ### Reading a path -/

namespace Store

/-- A store whose rows of a path are those of an entry. -/
structure Holds (s : Store) (now : String) (e : FileEntry) : Prop where
  file : s.fileRow? e.path = some (.ofEntry now e)
  structural : s.structureRow? e.path = e.analysis.map (.of now e.path e.contentHash)

theorem get_eq (s : Store) (path : String) (row : FileRow) (h : s.fileRow? path = some row) :
    s.get path = (row.read >>= FileCells.decode) >>= fun file =>
      match s.structureRow? path with
      | none => .ok (some ⟨file, none⟩)
      | some r => (r.read >>= StructureCells.decode) >>= fun structural =>
          .ok (some ⟨file, some structural⟩) := by
  simp only [get, h, bind_assoc]
  rfl

theorem get_holds (s : Store) (now : String) (e : FileEntry) (h : s.Holds now e)
    (hm : e.embedding.modelType ≠ .model "") (hf : e.IsFinite) :
    s.get e.path = .ok (some (e.recordAt now)) := by
  rw [get_eq s e.path _ h.file, FileRow.decode_ofEntry now e hm hf.metadata, h.structural]
  cases ha : e.analysis with
  | none => simp only [bind, Except.bind, Option.map_none, FileEntry.recordAt, ha]
  | some a =>
    simp only [Option.map_some, StructureRow.decode_of _ _ _ a (hf.analysis a ha)]
    simp only [bind, Except.bind, FileEntry.recordAt, ha, Option.map_some]

theorem get_unnamed (s : Store) (now : String) (e : FileEntry) (h : s.Holds now e)
    (hm : e.embedding.modelType = .model "") : s.get e.path = .error e.unnamedModel := by
  rw [get_eq s e.path _ h.file, FileRow.decode_unnamed now e hm]
  rfl

theorem write_holds (now : String) (e : FileEntry) (s : Store) : (s.write now e).Holds now e := by
  refine ⟨fileRow?_write now e s, ?_⟩
  rw [write_eq]
  have hnone : (s.structures.filter (!·.path.isText e.path)).find? (·.path.isText e.path) = none := by
    rw [List.find?_eq_none]
    intro r hr
    simpa using (List.mem_filter.mp hr).2
  simp only [structureRow?, List.find?_append, hnone, Option.none_or]
  cases e.analysis with
  | none => rfl
  | some a => simp [StructureRow.of]

theorem holds_of_tables (s t : Store) (now : String) (e : FileEntry) (h : s.Holds now e)
    (hf : t.files = s.files) (hs : t.structures = s.structures) : t.Holds now e := by
  refine ⟨?_, ?_⟩
  · rw [fileRow?, hf]
    exact h.file
  · rw [structureRow?, hs]
    exact h.structural

end Store

end CodeIndex
