import CodeIndex.Proofs.Text.Places
import CodeIndex.Store.Row

/-!
# Stored vectors

The bytes of a vector and the tag of a model type read back as what was written, whatever the bits. The
one model type whose tag is not read is that of a model without a name. What can be read is written again
as it was: whole groups of four bytes, and the tags of the feature counts and of the models with a name.

A row holds a vector in two cells, one for its bytes and one for the tag of its model type.
-/

namespace CodeIndex

/-! ### Singles in bytes -/

theorem Single.ofBytes_toBytes (x : Single) :
    singlesOfBytes? x.toBytes = some [x] := by
  have hn : x.bits.toNat < 0x100000000 := x.bits.toNat_lt
  have hsum : x.bits.toNat % 256 + x.bits.toNat / 0x100 % 256 * 0x100 +
      x.bits.toNat / 0x10000 % 256 * 0x10000 + x.bits.toNat / 0x1000000 % 256 * 0x1000000 =
      x.bits.toNat := by omega
  simp only [Single.toBytes, singlesOfBytes?, Option.map_some, Single.ofBytes, UInt8.toNat_ofNat',
    Nat.reducePow, hsum, UInt32.ofNat_toNat]

theorem singlesOfBytes_append (x : Single) (bytes : List UInt8) :
    singlesOfBytes? (x.toBytes ++ bytes) = (singlesOfBytes? bytes).map (x :: ·) := by
  have hx := x.ofBytes_toBytes
  simp only [Single.toBytes, singlesOfBytes?, Option.map_some, Option.some.injEq, List.cons.injEq,
    and_true] at hx
  simp only [Single.toBytes, List.cons_append, List.nil_append, singlesOfBytes?, hx]

theorem singlesOfBytes_flatMap (vector : List Single) :
    singlesOfBytes? (vector.flatMap Single.toBytes) = some vector := by
  induction vector with
  | nil => rfl
  | cons x rest ih => rw [List.flatMap_cons, singlesOfBytes_append, ih, Option.map_some]

theorem Single.toBytes_ofBytes (a b c d : UInt8) : (Single.ofBytes a b c d).toBytes = [a, b, c, d] := by
  have ha := a.toNat_lt
  have hb := b.toNat_lt
  have hc := c.toNat_lt
  have hd := d.toNat_lt
  simp only [Single.toBytes, Single.ofBytes, UInt32.toNat_ofNat', List.cons.injEq, and_true,
    ← UInt8.toNat_inj, UInt8.toNat_ofNat', Nat.reducePow] at *
  omega

theorem flatMap_of_singlesOfBytes (bytes : List UInt8) (vector : List Single)
    (h : singlesOfBytes? bytes = some vector) : vector.flatMap Single.toBytes = bytes := by
  fun_induction singlesOfBytes? bytes generalizing vector with
  | case1 =>
    cases h
    rfl
  | case2 a b c d rest ih =>
    obtain ⟨singles, hrest, rfl⟩ := Option.map_eq_some_iff.mp h
    rw [List.flatMap_cons, Single.toBytes_ofBytes, ih singles hrest]
    rfl
  | case3 => cases h

theorem singlesOfBytes_isSome (bytes : List UInt8) :
    (singlesOfBytes? bytes).isSome ↔ bytes.length % 4 = 0 := by
  fun_induction singlesOfBytes? bytes with
  | case1 => simp
  | case2 a b c d rest ih =>
    rw [Option.isSome_map, ih]
    simp only [List.length_cons]
    omega
  | case3 bytes hempty hgroup =>
    -- one to three bytes are left
    match bytes with
    | [] => exact absurd rfl hempty
    | [_] | [_, _] | [_, _, _] => simp
    | a :: b :: c :: d :: rest => exact absurd rfl (hgroup a b c d rest)

/-! ### Embeddings -/

theorem Embedding.ofBytes_toBytes (e : Embedding) :
    Embedding.ofBytes e.toBytes e.modelType = .ok e := by
  simp only [Embedding.ofBytes, Embedding.toBytes, singlesOfBytes_flatMap]

theorem ModelType.tag_ne_heuristic (name : String) :
    (ModelType.model name).tag ≠ "heuristic" := by
  intro h
  have hc : (ModelType.mark ++ name.toList).head? = "heuristic".toList.head? := by
    rw [← h, show (ModelType.model name).tag.toList = ModelType.mark ++ name.toList from
      String.toList_ofList]
  have hm : some 'm' = some 'h' := hc
  cases hm

theorem ModelType.ofTag_tag (m : ModelType) (h : m ≠ .model "") : ModelType.ofTag? m.tag = some m := by
  cases m with
  | heuristic => rfl
  | model name =>
    have hne := ModelType.tag_ne_heuristic name
    have hdrop : Text.dropStart? ModelType.mark (ModelType.model name).tag.toList =
        some name.toList := by
      rw [show (ModelType.model name).tag.toList = ModelType.mark ++ name.toList from
        String.toList_ofList]
      exact Text.dropStart?_append _ _
    cases hname : name.toList with
    | nil =>
      have he : name = "" := by rw [← String.ofList_toList (s := name), hname]
      exact absurd (congrArg ModelType.model he) h
    | cons c rest =>
      rw [hname] at hdrop
      simp only [ModelType.ofTag?, hdrop]
      rw [if_neg hne, ← hname, String.ofList_toList]

/-- The tags of the feature counts and of the models with a name. -/
def ModelType.IsTag (tag : String) : Prop :=
  tag = "heuristic" ∨ ∃ name, name ≠ "" ∧ tag = "model:" ++ name

theorem ModelType.tag_model (name : String) : (ModelType.model name).tag = "model:" ++ name := by
  apply String.toList_inj.mp
  rw [String.toList_append]
  exact String.toList_ofList

theorem ModelType.tag_of_ofTag (tag : String) (m : ModelType) (h : ModelType.ofTag? tag = some m) :
    m.tag = tag ∧ m ≠ .model "" := by
  unfold ModelType.ofTag? at h
  split at h
  · next hheuristic =>
    cases h
    exact ⟨hheuristic.symm, by simp⟩
  · split at h
    · next c name hdrop =>
      cases h
      have htag := Text.dropStart?_eq_some _ _ _ hdrop
      refine ⟨?_, fun hempty => ?_⟩
      · apply String.toList_inj.mp
        rw [htag]
        simp [ModelType.tag]
      · have hlist := congrArg String.toList (ModelType.model.inj hempty)
        simp at hlist
    · cases h

theorem ModelType.isTag_iff (tag : String) : ModelType.IsTag tag ↔ ∃ m, ModelType.ofTag? tag = some m := by
  constructor
  · rintro (rfl | ⟨name, hname, rfl⟩)
    · exact ⟨.heuristic, rfl⟩
    · refine ⟨.model name, ?_⟩
      rw [← ModelType.tag_model]
      apply ModelType.ofTag_tag
      simpa using hname
  · rintro ⟨m, h⟩
    obtain ⟨rfl, hname⟩ := ModelType.tag_of_ofTag tag m h
    cases m with
    | heuristic => exact Or.inl rfl
    | model name => exact Or.inr ⟨name, by simpa using hname, ModelType.tag_model name⟩

theorem ModelType.tag_injective : Function.Injective ModelType.tag := by
  intro m m' h
  cases m with
  | heuristic =>
    cases m' with
    | heuristic => rfl
    | model name => exact absurd h.symm (ModelType.tag_ne_heuristic name)
  | model name =>
    cases m' with
    | heuristic => exact absurd h (ModelType.tag_ne_heuristic name)
    | model name' =>
      have hlist := congrArg String.toList h
      simp only [ModelType.tag, String.toList_ofList, List.append_cancel_left_eq] at hlist
      rw [String.toList_inj.mp hlist]

theorem ModelType.ofTag_unnamed : ModelType.ofTag? (ModelType.model "").tag = none := by
  rfl

/-! ### Vectors in rows -/

theorem FileCells.embedding_of_tag (c : FileCells) (m : ModelType) (h : ModelType.ofTag? c.modelType = some m) :
    c.embedding? = Embedding.ofBytes c.embedding m := by
  simp only [FileCells.embedding?, h]

/-- What is read from the two cells, or why nothing is read from them. -/
theorem FileCells.embedding_cases (c : FileCells) :
    (∃ e : Embedding, c.embedding? = .ok e ∧ c.embedding.length % 4 = 0 ∧ ModelType.IsTag c.modelType ∧
      e.toBytes = c.embedding ∧ e.modelType.tag = c.modelType) ∨
    (c.embedding? = .error (.oddLength c.embedding.length) ∧ c.embedding.length % 4 ≠ 0 ∧
      ModelType.IsTag c.modelType) ∨
    (c.embedding? = .error (.unknownModelType c.modelType) ∧ ¬ModelType.IsTag c.modelType) := by
  cases htag : ModelType.ofTag? c.modelType with
  | none =>
    refine Or.inr (Or.inr ⟨by simp only [FileCells.embedding?, htag], fun h => ?_⟩)
    obtain ⟨m, hm⟩ := (ModelType.isTag_iff _).mp h
    rw [htag] at hm
    cases hm
  | some m =>
    have hread := c.embedding_of_tag m htag
    have hknown := (ModelType.isTag_iff _).mpr ⟨m, htag⟩
    have hlength := singlesOfBytes_isSome c.embedding
    cases hbytes : singlesOfBytes? c.embedding with
    | none =>
      rw [hbytes] at hlength
      refine Or.inr (Or.inl ⟨?_, by simpa using hlength, hknown⟩)
      simp only [hread, Embedding.ofBytes, hbytes]
    | some vector =>
      rw [hbytes] at hlength
      refine Or.inl ⟨⟨vector, m⟩, ?_, by simpa using hlength, hknown, ?_, ?_⟩
      · simp only [hread, Embedding.ofBytes, hbytes]
      · exact flatMap_of_singlesOfBytes _ _ hbytes
      · exact (ModelType.tag_of_ofTag _ _ htag).1

/-- What is written of a vector is read again, whatever its bits, for every model type but that of a model
without a name. Two cells are read as a vector if and only if the bytes are whole groups of four and the tag
is that of the feature counts or of a model with a name; then they are the bytes and the tag of the vector,
and otherwise the error says which of the two is wrong, the tag first. Different model types have different
tags, whatever the models are called. -/
theorem FileCells.vector_round_trips :
    (∀ (c : FileCells) (e : Embedding), e.modelType ≠ .model "" →
      FileCells.embedding? { c with embedding := e.toBytes, modelType := e.modelType.tag } = .ok e) ∧
    (∀ c : FileCells, (∃ e, c.embedding? = .ok e) ↔
      c.embedding.length % 4 = 0 ∧ ModelType.IsTag c.modelType) ∧
    (∀ (c : FileCells) (e : Embedding), c.embedding? = .ok e →
      e.toBytes = c.embedding ∧ e.modelType.tag = c.modelType) ∧
    (∀ (c : FileCells) (reason : VectorError), c.embedding? = .error reason →
      reason = .unknownModelType c.modelType ∧ ¬ModelType.IsTag c.modelType ∨
      reason = .oddLength c.embedding.length ∧ ModelType.IsTag c.modelType) ∧
    (∀ name, (ModelType.model name).tag ≠ ModelType.heuristic.tag) ∧
    Function.Injective ModelType.tag := by
  refine ⟨fun c e hname => ?_, fun c => ⟨?_, ?_⟩, fun c e h => ?_, fun c reason h => ?_,
    ModelType.tag_ne_heuristic, ModelType.tag_injective⟩
  · rw [FileCells.embedding_of_tag _ _ (e.modelType.ofTag_tag hname)]
    exact e.ofBytes_toBytes
  · rintro ⟨e, h⟩
    obtain ⟨-, -, hlength, htag, -⟩ | ⟨herror, -⟩ | ⟨herror, -⟩ := c.embedding_cases
    · exact ⟨hlength, htag⟩
    · simp [herror] at h
    · simp [herror] at h
  · rintro ⟨hlength, htag⟩
    obtain ⟨e, h, -⟩ | ⟨-, hodd, -⟩ | ⟨-, hnone⟩ := c.embedding_cases
    · exact ⟨e, h⟩
    · exact absurd hlength hodd
    · exact absurd htag hnone
  · obtain ⟨e', h', -, -, hbytes, htag⟩ | ⟨herror, -⟩ | ⟨herror, -⟩ := c.embedding_cases
    · rw [h'] at h
      cases h
      exact ⟨hbytes, htag⟩
    · simp [herror] at h
    · simp [herror] at h
  · obtain ⟨e, h', -⟩ | ⟨herror, -, htag⟩ | ⟨herror, hnone⟩ := c.embedding_cases
    · rw [h'] at h
      cases h
    · rw [herror] at h
      cases h
      exact Or.inr ⟨rfl, htag⟩
    · rw [herror] at h
      cases h
      exact Or.inl ⟨rfl, hnone⟩

/-- No number and an infinite number, by a model that is called like the tag of the feature counts. -/
def oddlyNamed : Embedding := ⟨[⟨0x7fc00001⟩, ⟨0xff800000⟩], .model "heuristic"⟩

def cellsOf (bytes : List UInt8) (tag : String) : FileCells :=
  ⟨"a.js", "", bytes, .document .null, tag, 0, "javascript", ""⟩

theorem FileCells.vector_round_trips_oddly_named :
    oddlyNamed.modelType ≠ .model "" ∧
    (cellsOf [0x01, 0x00, 0xc0, 0x7f, 0x00, 0x00, 0x80, 0xff] "model:heuristic").embedding? = .ok oddlyNamed ∧
    oddlyNamed.toBytes = [0x01, 0x00, 0xc0, 0x7f, 0x00, 0x00, 0x80, 0xff] ∧
    (cellsOf [0x01] "model:").embedding? = .error (.unknownModelType "model:") ∧ ¬ModelType.IsTag "model:" := by
  obtain ⟨reads, -, writes, fails, -⟩ := FileCells.vector_round_trips
  have hname : oddlyNamed.modelType ≠ .model "" := by decide
  have hread := reads (cellsOf [] "") oddlyNamed hname
  have herror : (cellsOf [0x01] "model:").embedding? = .error (.unknownModelType "model:") := rfl
  refine ⟨hname, hread, (writes _ _ hread).1, herror, ?_⟩
  obtain ⟨-, h⟩ | ⟨h, -⟩ := fails _ _ herror
  · exact h
  · cases h

end CodeIndex
