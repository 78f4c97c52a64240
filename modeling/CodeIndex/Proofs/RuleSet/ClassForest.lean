import CodeIndex.Proofs.RuleSet.Bodies
import CodeIndex.Proofs.RuleSet.ForestOwners
import CodeIndex.RuleSet.Registry

/-!
# Descriptions of forests

The lines of a forest hold its class headers from top to bottom, each in front of the block that is its body. So
the description of its text has these classes, and the functions are with the owners that the blocks give them.
-/

namespace CodeIndex.Python

open Regex

/-! ### Lines of a forest -/

theorem headersOf_append {β : Type} (read? : Statement → Option β) (offset : Nat) (a b : List Line) :
    headersOf read? (placed offset (a ++ b)) =
      headersOf read? (placed offset a) ++ headersOf read? (placed (offset + (source a).width) b) := by
  induction a generalizing offset with
  | nil => rfl
  | cons l a ih =>
    have hmore := ih (offset + l.full.width)
    rw [Nat.add_assoc, ← Text.width_append, ← source_cons] at hmore
    rw [List.cons_append, placed, placed]
    cases hread : read? l.statement with
    | none =>
      rw [headersOf, headersOf, List.filterMap_cons_none (by rw [hread]; rfl),
        List.filterMap_cons_none (by rw [hread]; rfl)]
      exact hmore
    | some content =>
      rw [headersOf, headersOf, List.filterMap_cons_some (by rw [hread]; rfl),
        List.filterMap_cons_some (by rw [hread]; rfl)]
      exact congrArg (_ :: ·) hmore

theorem headersOf_contents {β : Type} (read? : Statement → Option β) (offset : Nat) (lines : List Line) :
    (headersOf read? (placed offset lines)).map Header.content = lines.filterMap (read? ·.statement) := by
  induction lines generalizing offset with
  | nil => rfl
  | cons l lines ih =>
    rw [placed]
    cases hread : read? l.statement with
    | none =>
      rw [headersOf, List.filterMap_cons_none (by rw [hread]; rfl)]
      refine (ih _).trans (Eq.symm ?_)
      exact List.filterMap_cons_none hread
    | some content =>
      rw [headersOf, List.filterMap_cons_some (by rw [hread]; rfl)]
      refine (congrArg (content :: ·) (ih _)).trans (Eq.symm ?_)
      exact List.filterMap_cons_some hread

/-- What a function header says: where it starts, its indentation and its name. -/
def Header.seen (h : Header String) : Nat × Nat × String :=
  (h.start, h.indent, h.content)

def Member.seen (m : Member) : Nat × Nat × String :=
  (m.offset, m.indent, m.name.string)

theorem source_single (l : Line) : source [l] = l.full :=
  List.append_nil l.full

/-- Whether some lines hold the declarations of a forest, whatever follows that is no deeper. -/
structure Lists (depth : Nat) (f : Forest) (lines : List Line) : Prop where
  deep : ∀ l ∈ lines, depth ≤ l.depth
  first : ∀ l ∈ lines.head?, l.depth = depth
  classes : lines.filterMap (·.statement.class?) = f.classes.map ClassOutline.header
  blocks : ∀ offset after, (∀ l ∈ after.head?, l.depth ≤ depth) →
    blocksOf (placed offset (lines ++ after)) =
      f.blocks depth offset ++ blocksOf (placed (offset + (source lines).width) after)
  members : ∀ offset next owner, (headersOf Statement.function? (placed offset lines)).map Header.seen =
    (f.members depth offset next owner).map Member.seen

/-- A body lists the same declarations, also where it is a lone `pass`. -/
theorem Lists.suite {depth : Nat} {f : Forest} (h : Lists depth f (f.lines depth)) :
    Lists depth f (suite depth (f.lines depth)) := by
  cases f with
  | nil =>
    exact
      { deep := List.forall_mem_singleton.mpr (Nat.le_refl depth)
        first := fun l hl => by
          obtain rfl := Option.some.inj hl
          rfl
        classes := rfl
        blocks := fun offset after _ => by
          rw [Forest.lines, Python.suite, source_single]
          rfl
        members := fun offset next owner => rfl }
  | consFunction name parameters rest => exact h
  | consClass name bases body rest => exact h

/-- The block of a class is its body. -/
theorem block_of_body (offset : Nat) (l first : Line) (body after : List Line)
    (hbody : ∀ b ∈ first :: body, l.depth < b.depth) (hafter : ∀ a ∈ after.head?, a.depth ≤ l.depth) :
    (Placed.mk offset l (first :: body ++ after)).block =
      ⟨offset, offset + l.full.width + (source (first :: body)).width, some (4 * first.depth)⟩ := by
  have htake : (first :: body ++ after).takeWhile (l.depth < ·.depth) = first :: body := by
    rw [List.takeWhile_append_of_pos fun b hb => decide_eq_true (hbody b hb)]
    cases after with
    | nil => exact List.append_nil _
    | cons a after =>
      have ha : a.depth ≤ l.depth := hafter a rfl
      rw [List.takeWhile_cons_of_neg (by simpa using ha), List.append_nil]
  have hfirst : l.depth < first.depth := hbody first List.mem_cons_self
  rw [Placed.block, htake, List.cons_append, List.head?_cons, Option.filter_some, if_pos (decide_eq_true hfirst)]
  rfl

theorem suite_cons (depth : Nat) (lines : List Line) : ∃ first more, suite depth lines = first :: more := by
  cases lines with
  | nil => exact ⟨_, _, rfl⟩
  | cons l lines => exact ⟨l, lines, rfl⟩

/-- What follows the header of a class in front of the lines is no part of its block. -/
theorem Lists.shallow {depth : Nat} {f : Forest} {lines after : List Line} (h : Lists depth f lines)
    (hafter : ∀ l ∈ after.head?, l.depth ≤ depth) : ∀ l ∈ (lines ++ after).head?, l.depth ≤ depth := by
  cases lines with
  | nil => exact hafter
  | cons first lines =>
    intro l hl
    obtain rfl := Option.some.inj hl
    exact Nat.le_of_eq (h.first first rfl)

theorem Lists.consFunction {depth : Nat} {rest : Forest} (name : Name) (parameters : List Name)
    (h : Lists depth rest (rest.lines depth)) :
    Lists depth (.consFunction name parameters rest) ((Forest.consFunction name parameters rest).lines depth) := by
  have hbehind : ∀ offset, offset + (Line.mk depth (.ofFunction name parameters)).full.width +
      (Line.mk (depth + 1) .pass).full.width = Forest.behindFunction depth offset name parameters := by
    intro offset
    rw [Forest.behindFunction, Python.suite, source_single]
  refine
    { deep := List.forall_mem_cons.mpr ⟨Nat.le_refl depth, List.forall_mem_cons.mpr ⟨Nat.le_succ depth, h.deep⟩⟩
      first := fun l hl => by
        obtain rfl := Option.some.inj hl
        rfl
      classes := h.classes
      blocks := fun offset after hafter => ?_
      members := fun offset next owner => ?_ }
  · have hblocks := h.blocks (Forest.behindFunction depth offset name parameters) after hafter
    rw [Forest.behindFunction_eq, ← hbehind] at hblocks
    rw [Forest.blocks, ← hbehind]
    exact hblocks
  · have hmembers := h.members (Forest.behindFunction depth offset name parameters) next owner
    rw [Forest.members, List.map_cons, ← hmembers, ← hbehind]
    rfl

theorem Lists.consClass {depth : Nat} {body rest : Forest} (name : Name) (bases : Option (List Name))
    (hbody : Lists (depth + 1) body (Python.suite (depth + 1) (body.lines (depth + 1))))
    (hrest : Lists depth rest (rest.lines depth)) :
    Lists depth (.consClass name bases body rest) ((Forest.consClass name bases body rest).lines depth) := by
  refine
    { deep := List.forall_mem_cons.mpr ⟨Nat.le_refl depth, List.forall_mem_append.mpr
        ⟨fun l hl => Nat.le_of_succ_le (hbody.deep l hl), hrest.deep⟩⟩
      first := fun l hl => by
        obtain rfl := Option.some.inj hl
        rfl
      classes := ?_
      blocks := fun offset after hafter => ?_
      members := fun offset next owner => ?_ }
  · have hall : (Python.suite (depth + 1) (body.lines (depth + 1)) ++ rest.lines depth).filterMap
        (·.statement.class?) = (body.classes ++ rest.classes).map ClassOutline.header := by
      rw [List.filterMap_append, hbody.classes, hrest.classes, List.map_append]
    exact congrArg (_ :: ·) hall
  · let inside := Forest.insideClass depth offset name bases
    let behind := Forest.behindClass depth offset name bases body
    have hshallow := hrest.shallow hafter
    obtain ⟨first, more, hsuite⟩ := suite_cons (depth + 1) (body.lines (depth + 1))
    have hfirst : first.depth = depth + 1 := hbody.first first (by rw [hsuite]; rfl)
    have hblock := block_of_body offset ⟨depth, .ofClass name bases⟩ first more (rest.lines depth ++ after)
      (fun b hb => hbody.deep b (by rw [hsuite]; exact hb)) hshallow
    have hinner := hbody.blocks inside (rest.lines depth ++ after) fun l hl => Nat.le_succ_of_le (hshallow l hl)
    have houter := hrest.blocks behind after hafter
    rw [hfirst, ← hsuite] at hblock
    rw [Forest.behindClass_eq] at houter
    have hcons : blocksOf (placed offset ((Forest.consClass name bases body rest).lines depth ++ after)) =
        (Placed.mk offset ⟨depth, .ofClass name bases⟩ (Python.suite (depth + 1) (body.lines (depth + 1)) ++
          (rest.lines depth ++ after))).block ::
          blocksOf (placed inside (Python.suite (depth + 1) (body.lines (depth + 1)) ++
            (rest.lines depth ++ after))) := by
      rw [Forest.lines, List.cons_append, List.append_assoc]
      rfl
    rw [hcons, hblock, hinner, Forest.blocks, List.cons_append, List.append_assoc, ← houter]
    rfl
  · have hinner := hbody.members (Forest.insideClass depth offset name bases) (next + 1) (some next)
    have houter := hrest.members (Forest.behindClass depth offset name bases body)
      (next + 1 + body.classes.length) owner
    rw [Forest.members, List.map_append, ← hinner, ← houter, ← List.map_append]
    exact congrArg (List.map Header.seen) (headersOf_append Statement.function? _ _ _)

/-- The lines of a forest hold its declarations. -/
theorem lists_lines (f : Forest) (depth : Nat) : Lists depth f (f.lines depth) := by
  induction f generalizing depth with
  | nil =>
    exact
      { deep := List.forall_mem_nil _
        first := fun l hl => nomatch hl
        classes := rfl
        blocks := fun offset after _ => rfl
        members := fun offset next owner => rfl }
  | consFunction name parameters rest ih => exact (ih depth).consFunction name parameters
  | consClass name bases body rest ihbody ihrest => exact (ihbody (depth + 1)).suite.consClass name bases (ihrest depth)

/-! ### Descriptions -/

theorem describe?_parts {language : Language} {t : Text} {d : Description} (h : describe? language t = some d) :
    ∃ blocks classes functions, ∃ properties : Nat → List Property,
      (classHeader.findAll t).mapM (blockOf? t) = some blocks ∧
      (classHeader.findAll t).mapM (classOf? t (.ofText t)) = some classes ∧
      (functionHeader.findAll t).mapM (fun m => (functionOf? t (.ofText t) m).map
        (ownerFrom m.start.offset (indentOfMatch m) 0 blocks, ·)) = some functions ∧
      d.functions = ownedBy none functions ∧
      d.classes = classes.mapIdx fun i c =>
        { c with methods := (ownedBy (some i) functions).map methodOf, properties := properties i } := by
  obtain ⟨blocks, hblocks, h⟩ := Option.bind_eq_some_iff.mp h
  obtain ⟨classes, hclasses, h⟩ := Option.bind_eq_some_iff.mp h
  obtain ⟨functions, hfunctions, h⟩ := Option.bind_eq_some_iff.mp h
  obtain ⟨-, -, hd⟩ := Option.bind_eq_some_iff.mp h
  cases hd
  exact ⟨blocks, classes, functions, _, hblocks, hclasses, hfunctions, rfl, rfl⟩

theorem classOf?_content {t : Text} {lines : LineIndex} {m : Match} {c : ClassDecl} (h : classOf? t lines m = some c) :
    (c.name, c.superclass, c.additionalBases) = (m.string 2, (basesOf m).head?, (basesOf m).tail) := by
  rw [classOf?, Option.bind_eq_bind, Option.bind_eq_some_iff] at h
  obtain ⟨decorators, -, hc⟩ := h
  cases hc
  rfl

theorem functionOf?_name {t : Text} {lines : LineIndex} {m : Match} {f : FunctionDecl}
    (h : functionOf? t lines m = some f) : f.name = m.string 3 := by
  simp only [functionOf?, Option.bind_eq_bind, Option.bind_eq_some_iff] at h
  obtain ⟨_, -, _, -, _, -, hf⟩ := h
  cases hf
  rfl

namespace Forest

/-- The functions that are found with the owners that their blocks give them. -/
theorem functions_owned (f : Forest) {blocks : List ClassBlock} {functions : List (Option Nat × FunctionDecl)}
    (hblocks : (classHeader.findAll f.text).mapM (blockOf? f.text) = some blocks)
    (hfunctions : (functionHeader.findAll f.text).mapM (fun m => (functionOf? f.text (.ofText f.text) m).map
      (ownerFrom m.start.offset (indentOfMatch m) 0 blocks, ·)) = some functions) :
    functions.map (Prod.map id (·.name)) = (f.owned 0 0 0 none).map (Prod.map id Name.string) := by
  have hlists := lists_lines f 0
  have hall : blocks = f.blocks 0 0 := by
    have hsome := hblocks.symm.trans (blocks_of_headers (f.lines 0))
    have hblocksOf := hlists.blocks 0 [] fun l hl => nomatch hl
    rw [List.append_nil] at hblocksOf
    exact (Option.some.inj hsome).trans (hblocksOf.trans (List.append_nil _))
  subst hall
  have hheaders := functionHeader_reads.found f.text.length f.text.start (f.lines 0) rfl rfl
  have hseen := congrArg (List.map Header.seen) hheaders
  rw [← findAll_eq_found] at hseen
  have hmembers := hseen.trans (hlists.members 0 0 none)
  have howned : functions.map (Prod.map id (·.name)) = (functionHeader.findAll f.text).map fun m =>
      (ownerFrom m.start.offset (indentOfMatch m) 0 (f.blocks 0 0), m.string 3) := by
    refine map_of_mapM hfunctions fun m found hm => ?_
    obtain ⟨function, hfunction, rfl⟩ := Option.map_eq_some_iff.mp hm
    exact congrArg (_, ·) (functionOf?_name hfunction)
  let placedIn (seen : Nat × Nat × String) : Option Nat × String :=
    (ownerFrom seen.1 seen.2.1 0 (f.blocks 0 0), seen.2.2)
  have hplaced := congrArg (List.map placedIn) hmembers
  rw [List.map_map, List.map_map, List.map_map] at hplaced
  refine howned.trans (hplaced.trans ?_)
  rw [owned, List.map_map]
  refine List.map_congr_left fun m hm => ?_
  have howner := f.ownerFrom_members 0 0 0 none m hm
  rw [ite_self, Option.or_none] at howner
  exact congrArg (·, m.name.string) howner

end Forest

end CodeIndex.Python

namespace CodeIndex

open Python Regex

/-- A forest of Python declarations is described by its classes from top to bottom, each with its bases and its own
methods, and by the functions outside of its classes. -/
theorem extract_class_forest (f : Forest) :
    ∃ d, Registry.standard.extract .python f.text = .ok d ∧
      d.classes.map (fun c => (c.name, c.superclass, c.additionalBases, c.methods.map (·.name))) =
        f.classes.map (fun c => (c.name.string, (c.bases.map Name.string).head?, (c.bases.map Name.string).tail,
          c.methods.map Name.string)) ∧
      d.functions.map (·.name) = f.functions.map Name.string := by
  obtain ⟨d, hd⟩ := describe?_some .python f.text
  obtain ⟨blocks, classes, functions, properties, hblocks, hclasses, hfunctions, houtside, hinside⟩ :=
    describe?_parts hd
  have howned := f.functions_owned hblocks hfunctions
  have hclass : classes.map (fun c => (c.name, c.superclass, c.additionalBases)) =
      f.classes.map fun c => (c.header.1, c.header.2.head?, c.header.2.tail) := by
    have hheaders := classHeader_reads.found f.text.length f.text.start (f.lines 0) rfl rfl
    have hcontents := congrArg (List.map Header.content) hheaders
    rw [← findAll_eq_found, headersOf_contents, (lists_lines f 0).classes] at hcontents
    have hparts := congrArg (List.map fun content => (content.1, content.2.head?, content.2.tail)) hcontents
    rw [List.map_map, List.map_map, List.map_map] at hparts
    exact (map_of_mapM hclasses fun _ _ => classOf?_content).trans hparts
  have hmethods : ∀ owner, (ownedBy owner functions).map (·.name) =
      (ownedBy owner (f.owned 0 0 0 none)).map Name.string :=
    fun owner => by rw [← ownedBy_map, ← ownedBy_map, howned]
  refine ⟨d, ?_, ?_, ?_⟩
  · exact congrArg (foundOrCut "python" .python) hd
  · have hlength : classes.length = f.classes.length := by
      have hlengths := congrArg List.length hclass
      rwa [List.length_map, List.length_map] at hlengths
    refine List.ext_getElem ?_ fun i hi hi' => ?_
    · rw [hinside, List.length_map, List.length_mapIdx, List.length_map, hlength]
    · have hc : i < f.classes.length := by rwa [List.length_map] at hi'
      have hheader := List.getElem_of_eq hclass (by rwa [List.length_map, hlength] : i < _)
      have hown := f.ownedBy_class 0 0 0 none i (fun _ howner => nomatch howner) hc
      rw [Nat.zero_add] at hown
      have hnames : ((ownedBy (some i) functions).map methodOf).map (·.name) =
          f.classes[i].methods.map Name.string := by
        rw [List.map_map, ← hown, ← hmethods]
        rfl
      simp only [List.getElem_map, Prod.mk.injEq] at hheader
      simp only [hinside, List.getElem_map, List.getElem_mapIdx, hnames, hheader.1, hheader.2.1, hheader.2.2]
      rfl
  · have hnone := f.ownedBy_outside 0 0 0 none none fun i hi => nomatch hi
    rw [if_pos rfl] at hnone
    rw [houtside, hmethods, hnone]

end CodeIndex
