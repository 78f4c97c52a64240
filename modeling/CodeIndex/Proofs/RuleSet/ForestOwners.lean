import CodeIndex.Proofs.RuleSet.IndentedBlocks

/-!
# Members of nested classes

A forest of declarations is written with four more spaces for each level. The block of a class ends where the
first line follows that is as shallow as its header, and only functions at the depth of its first member belong to
it. So of all blocks around a function the innermost one owns it, and the functions that no block owns are those
outside of all classes.
-/

namespace CodeIndex.Python

open Regex

/-! ### Forests -/

/-- Declarations that follow each other, classes with the declarations in their bodies. -/
inductive Forest where
  | nil
  | consFunction (name : Name) (parameters : List Name) (rest : Forest)
  | consClass (name : Name) (bases : Option (List Name)) (body rest : Forest)

/-- A class with its bases and its own methods. -/
structure ClassOutline where
  name : Name
  bases : List Name
  methods : List Name

/-- The header of a class, as the rules read it. -/
def ClassOutline.header (c : ClassOutline) : String × List String :=
  (c.name.string, c.bases.map Name.string)

/-- The lines of a body: without any declaration, a lone `pass`. -/
def suite (depth : Nat) : List Line → List Line
  | [] => [⟨depth, .pass⟩]
  | l :: lines => l :: lines

namespace Forest

def lines (depth : Nat) : Forest → List Line
  | nil => []
  | consFunction name parameters rest =>
    ⟨depth, .ofFunction name parameters⟩ :: (suite (depth + 1) [] ++ rest.lines depth)
  | consClass name bases body rest =>
    ⟨depth, .ofClass name bases⟩ :: (suite (depth + 1) (body.lines (depth + 1)) ++ rest.lines depth)

def text (f : Forest) : Text :=
  source (f.lines 0)

example :
    (consClass (.ofString "A" (by decide)) (some [.ofString "B" (by decide)])
      (consFunction (.ofString "m" (by decide)) [.ofString "self" (by decide)] nil)
      (consClass (.ofString "C" (by decide)) none nil nil)).text =
    "class A(B):\n    def m(self):\n        pass\nclass C:\n    pass\n".toList := by decide +kernel

/-- The functions outside of the classes of a forest. -/
def functions : Forest → List Name
  | nil => []
  | consFunction name _ rest => name :: rest.functions
  | consClass _ _ _ rest => rest.functions

/-- The classes from top to bottom, with those in their bodies behind them. -/
def classes : Forest → List ClassOutline
  | nil => []
  | consFunction _ _ rest => rest.classes
  | consClass name bases body rest => ⟨name, bases.getD [], body.functions⟩ :: (body.classes ++ rest.classes)

end Forest

/-! ### Places -/

/-- A function of a forest: where its line starts, its indentation, and the class that it belongs to. -/
structure Member where
  offset : Nat
  indent : Nat
  owner : Option Nat
  name : Name

namespace Forest

/-- The offset behind the line of a function and its body. -/
def behindFunction (depth offset : Nat) (name : Name) (parameters : List Name) : Nat :=
  offset + (Line.mk depth (.ofFunction name parameters)).full.width + (source (suite (depth + 1) [])).width

def insideClass (depth offset : Nat) (name : Name) (bases : Option (List Name)) : Nat :=
  offset + (Line.mk depth (.ofClass name bases)).full.width

def behindClass (depth offset : Nat) (name : Name) (bases : Option (List Name)) (body : Forest) : Nat :=
  insideClass depth offset name bases + (source (suite (depth + 1) (body.lines (depth + 1)))).width

/-- The blocks of the classes of a forest. -/
def blocks (depth offset : Nat) : Forest → List ClassBlock
  | nil => []
  | consFunction name parameters rest => rest.blocks depth (behindFunction depth offset name parameters)
  | consClass name bases body rest =>
    ⟨offset, behindClass depth offset name bases body, some (4 * (depth + 1))⟩ ::
      (body.blocks (depth + 1) (insideClass depth offset name bases) ++
        rest.blocks depth (behindClass depth offset name bases body))

/-- The functions of a forest in the body of `owner`, of which the first class has the number `next`. -/
def members (depth offset next : Nat) (owner : Option Nat) : Forest → List Member
  | nil => []
  | consFunction name parameters rest =>
    ⟨offset, 4 * depth, owner, name⟩ :: rest.members depth (behindFunction depth offset name parameters) next owner
  | consClass name bases body rest =>
    body.members (depth + 1) (insideClass depth offset name bases) (next + 1) (some next) ++
      rest.members depth (behindClass depth offset name bases body) (next + 1 + body.classes.length) owner

theorem blocks_length (f : Forest) (depth offset : Nat) : (f.blocks depth offset).length = f.classes.length := by
  induction f generalizing depth offset with
  | nil => rfl
  | consFunction name parameters rest ih => exact ih depth _
  | consClass name bases body rest ihbody ihrest =>
    rw [blocks, classes, List.length_cons, List.length_cons, List.length_append, List.length_append, ihbody, ihrest]

end Forest

/-! ### Bounds -/

theorem Line.full_width (l : Line) : l.full.width = l.text.width + 1 :=
  Text.width_append l.text ['\n']

theorem source_width_le_suite (depth : Nat) (lines : List Line) :
    (source lines).width ≤ (source (suite depth lines)).width := by
  cases lines with
  | nil => exact Nat.zero_le _
  | cons l lines => exact Nat.le_refl _

namespace Forest

theorem behindFunction_eq (depth offset : Nat) (name : Name) (parameters : List Name) (rest : Forest) :
    behindFunction depth offset name parameters + (source (rest.lines depth)).width =
      offset + (source ((consFunction name parameters rest).lines depth)).width := by
  rw [lines, source_cons, source_append, Text.width_append, Text.width_append, behindFunction]
  omega

theorem behindClass_eq (depth offset : Nat) (name : Name) (bases : Option (List Name)) (body rest : Forest) :
    behindClass depth offset name bases body + (source (rest.lines depth)).width =
      offset + (source ((consClass name bases body rest).lines depth)).width := by
  rw [lines, source_cons, source_append, Text.width_append, Text.width_append, behindClass, insideClass]
  omega

theorem blocks_within (f : Forest) (depth offset : Nat) :
    ∀ b ∈ f.blocks depth offset, offset ≤ b.start ∧ b.stop ≤ offset + (source (f.lines depth)).width := by
  induction f generalizing depth offset with
  | nil => exact List.forall_mem_nil _
  | consFunction name parameters rest ih =>
    intro b hb
    obtain ⟨hstart, hstop⟩ := ih depth _ b hb
    rw [behindFunction_eq] at hstop
    rw [behindFunction] at hstart
    omega
  | consClass name bases body rest ihbody ihrest =>
    have hbehind := behindClass_eq depth offset name bases body rest
    have hsuite := source_width_le_suite (depth + 1) (body.lines (depth + 1))
    have hinside : insideClass depth offset name bases = offset + (Line.mk depth (.ofClass name bases)).full.width :=
      rfl
    have hall : behindClass depth offset name bases body =
        insideClass depth offset name bases + (source (suite (depth + 1) (body.lines (depth + 1)))).width := rfl
    refine List.forall_mem_cons.mpr
      ⟨⟨Nat.le_refl _, ?_⟩, List.forall_mem_append.mpr ⟨fun b hb => ?_, fun b hb => ?_⟩⟩
    · dsimp only
      omega
    · obtain ⟨hstart, hstop⟩ := ihbody (depth + 1) _ b hb
      omega
    · obtain ⟨hstart, hstop⟩ := ihrest depth _ b hb
      omega

theorem members_within (f : Forest) (depth offset next : Nat) (owner : Option Nat) :
    ∀ m ∈ f.members depth offset next owner, offset ≤ m.offset ∧
      m.offset < offset + (source (f.lines depth)).width ∧ 4 * depth ≤ m.indent := by
  induction f generalizing depth offset next owner with
  | nil => exact List.forall_mem_nil _
  | consFunction name parameters rest ih =>
    have hbehind := behindFunction_eq depth offset name parameters rest
    have hwidth := (Line.mk depth (.ofFunction name parameters)).full_width
    have hfunction : behindFunction depth offset name parameters = offset +
        (Line.mk depth (.ofFunction name parameters)).full.width + (source (suite (depth + 1) [])).width := rfl
    refine List.forall_mem_cons.mpr ⟨⟨Nat.le_refl _, ?_, Nat.le_refl _⟩, fun m hm => ?_⟩
    · dsimp only
      omega
    · obtain ⟨hfrom, hto, hdeep⟩ := ih depth _ next owner m hm
      omega
  | consClass name bases body rest ihbody ihrest =>
    have hbehind := behindClass_eq depth offset name bases body rest
    have hsuite := source_width_le_suite (depth + 1) (body.lines (depth + 1))
    have hinside : insideClass depth offset name bases = offset + (Line.mk depth (.ofClass name bases)).full.width :=
      rfl
    have hall : behindClass depth offset name bases body =
        insideClass depth offset name bases + (source (suite (depth + 1) (body.lines (depth + 1)))).width := rfl
    refine List.forall_mem_append.mpr ⟨fun m hm => ?_, fun m hm => ?_⟩
    · obtain ⟨hfrom, hto, hdeep⟩ := ihbody (depth + 1) _ _ _ m hm
      omega
    · obtain ⟨hfrom, hto, hdeep⟩ := ihrest depth _ _ owner m hm
      omega

end Forest

/-! ### Owners -/

theorem ownerFrom_cons (offset indent first : Nat) (b : ClassBlock) (rest : List ClassBlock) :
    ownerFrom offset indent first (b :: rest) =
      (ownerFrom offset indent (first + 1) rest).or (if b.owns offset indent then some first else none) := by
  rw [ownerFrom]
  cases ownerFrom offset indent (first + 1) rest <;> rfl

/-- The later blocks decide first. -/
theorem ownerFrom_append (offset indent first : Nat) (a b : List ClassBlock) :
    ownerFrom offset indent first (a ++ b) =
      (ownerFrom offset indent (first + a.length) b).or (ownerFrom offset indent first a) := by
  induction a generalizing first with
  | nil => exact (Option.or_none).symm
  | cons c a ih =>
    rw [List.cons_append, ownerFrom_cons, ih, ownerFrom_cons, List.length_cons, Option.or_assoc, Nat.add_assoc,
      Nat.add_comm 1]

theorem ownerFrom_eq_none (offset indent first : Nat) (blocks : List ClassBlock)
    (h : ∀ b ∈ blocks, b.owns offset indent = false) : ownerFrom offset indent first blocks = none := by
  induction blocks generalizing first with
  | nil => rfl
  | cons b blocks ih =>
    obtain ⟨hb, hblocks⟩ := List.forall_mem_cons.mp h
    rw [ownerFrom_cons, ih _ hblocks, hb]
    rfl

theorem owns_outside {b : ClassBlock} {offset : Nat} (indent : Nat) (h : offset < b.start ∨ b.stop ≤ offset) :
    b.owns offset indent = false := by
  rw [ClassBlock.owns]
  obtain hbefore | hbehind := h
  · rw [decide_eq_false (Nat.not_le.mpr hbefore), Bool.false_and, Bool.false_and]
  · rw [decide_eq_false (Nat.not_lt.mpr hbehind), Bool.and_false, Bool.false_and]

theorem owns_inside {b : ClassBlock} {offset depth : Nat} (indent : Nat) (hstart : b.start ≤ offset)
    (hstop : offset < b.stop) (hmembers : b.memberIndent = some depth) :
    b.owns offset indent = decide (indent = depth) := by
  rw [ClassBlock.owns, decide_eq_true hstart, decide_eq_true hstop, hmembers, Bool.true_and, Bool.true_and]
  by_cases h : indent = depth
  · subst h
    rw [beq_self_eq_true, decide_eq_true rfl]
  · rw [decide_eq_false h, beq_eq_false_iff_ne]
    exact fun hsome => h (Option.some.inj hsome).symm

theorem ownerFrom_outside (offset indent first : Nat) (blocks : List ClassBlock)
    (h : ∀ b ∈ blocks, offset < b.start ∨ b.stop ≤ offset) : ownerFrom offset indent first blocks = none :=
  ownerFrom_eq_none offset indent first blocks fun b hb => owns_outside indent (h b hb)

namespace Forest

/-- The blocks of a forest find the owners of its functions; those outside of its classes are left to the block
around the forest. -/
theorem ownerFrom_members (f : Forest) (depth offset next : Nat) (owner : Option Nat) :
    ∀ m ∈ f.members depth offset next owner,
      (ownerFrom m.offset m.indent next (f.blocks depth offset)).or
        (if m.indent = 4 * depth then owner else none) = m.owner := by
  induction f generalizing depth offset next owner with
  | nil => exact List.forall_mem_nil _
  | consFunction name parameters rest ih =>
    refine List.forall_mem_cons.mpr ⟨?_, ih depth _ next owner⟩
    have hwidth := (Line.mk depth (.ofFunction name parameters)).full_width
    have hnone := ownerFrom_outside offset (4 * depth) next (rest.blocks depth
      (behindFunction depth offset name parameters)) fun b hb => by
        have hstart := (rest.blocks_within depth _ b hb).1
        rw [behindFunction] at hstart
        omega
    rw [blocks, hnone, Option.none_or, if_pos rfl]
  | consClass name bases body rest ihbody ihrest =>
    let inside := insideClass depth offset name bases
    let behind := behindClass depth offset name bases body
    have hsuite : inside + (source (body.lines (depth + 1))).width ≤ behind :=
      Nat.add_le_add_left (source_width_le_suite (depth + 1) (body.lines (depth + 1))) inside
    have hoffset : offset ≤ inside := Nat.le_add_right _ _
    let own : ClassBlock := ⟨offset, behind, some (4 * (depth + 1))⟩
    have hparts : ∀ m : Member,
        ownerFrom m.offset m.indent next ((consClass name bases body rest).blocks depth offset) =
          (ownerFrom m.offset m.indent (next + 1 + body.classes.length) (rest.blocks depth behind)).or
            ((ownerFrom m.offset m.indent (next + 1) (body.blocks (depth + 1) inside)).or
              (if own.owns m.offset m.indent then some next else none)) := by
      intro m
      rw [blocks, ownerFrom_cons, ownerFrom_append, blocks_length, Option.or_assoc]
    refine List.forall_mem_append.mpr ⟨fun m hm => ?_, fun m hm => ?_⟩
    · -- In the body: no block behind the class reaches back to it.
      obtain ⟨hfrom, hto, hdeep⟩ := body.members_within _ _ _ _ m hm
      have hrest := ownerFrom_outside m.offset m.indent (next + 1 + body.classes.length) (rest.blocks depth behind)
        fun b hb => by
          have hstart := (rest.blocks_within depth behind b hb).1
          omega
      have howns : own.owns m.offset m.indent = decide (m.indent = 4 * (depth + 1)) :=
        owns_inside m.indent (Nat.le_trans hoffset hfrom) (Nat.lt_of_lt_of_le hto hsuite) rfl
      rw [hparts, hrest, Option.none_or, howns, if_neg (show m.indent ≠ 4 * depth by omega), Option.or_none]
      simpa using ihbody (depth + 1) inside (next + 1) (some next) m hm
    · -- Behind the class: its block and those in its body have ended.
      obtain ⟨hfrom, -, -⟩ := rest.members_within _ _ _ _ m hm
      have hbody := ownerFrom_outside m.offset m.indent (next + 1) (body.blocks (depth + 1) inside) fun b hb => by
        have hstop := (body.blocks_within (depth + 1) inside b hb).2
        omega
      have howns : own.owns m.offset m.indent = false :=
        owns_outside m.indent (Or.inr hfrom)
      rw [hparts, hbody, howns, Option.none_or, if_neg Bool.false_ne_true, Option.or_none]
      exact ihrest depth behind _ owner m hm

end Forest

/-! ### Functions by owner -/

theorem ownedBy_append {α : Type} (owner : Option Nat) (a b : List (Option Nat × α)) :
    ownedBy owner (a ++ b) = ownedBy owner a ++ ownedBy owner b := by
  rw [ownedBy, ownedBy, ownedBy, List.filter_append, List.map_append]

theorem ownedBy_cons_self {α : Type} (owner : Option Nat) (a : α) (rest : List (Option Nat × α)) :
    ownedBy owner ((owner, a) :: rest) = a :: ownedBy owner rest := by
  have hself : ((owner, a).1 == owner) = true := beq_self_eq_true owner
  rw [ownedBy, List.filter_cons, if_pos hself, List.map_cons, ownedBy]

theorem ownedBy_cons_of_ne {α : Type} {owner other : Option Nat} (h : other ≠ owner) (a : α)
    (rest : List (Option Nat × α)) : ownedBy owner ((other, a) :: rest) = ownedBy owner rest := by
  rw [ownedBy, List.filter_cons_of_neg (by simpa using h), ownedBy]

theorem ownedBy_map {α β : Type} (owner : Option Nat) (f : α → β) (found : List (Option Nat × α)) :
    ownedBy owner (found.map (Prod.map id f)) = (ownedBy owner found).map f := by
  rw [ownedBy, ownedBy, List.filter_map, List.map_map, List.map_map]
  rfl

namespace Forest

/-- The names of the functions of a forest with their owners. -/
def owned (depth offset next : Nat) (owner : Option Nat) (f : Forest) : List (Option Nat × Name) :=
  (f.members depth offset next owner).map fun m => (m.owner, m.name)

theorem owned_class (depth offset next : Nat) (owner : Option Nat) (name : Name) (bases : Option (List Name))
    (body rest : Forest) :
    (consClass name bases body rest).owned depth offset next owner =
      body.owned (depth + 1) (insideClass depth offset name bases) (next + 1) (some next) ++
        rest.owned depth (behindClass depth offset name bases body) (next + 1 + body.classes.length) owner :=
  List.map_append ..

/-- Someone who is no class of the forest owns the functions outside of its classes, or none. -/
theorem ownedBy_outside (f : Forest) (depth offset next : Nat) (owner other : Option Nat)
    (h : ∀ i, other = some i → i < next ∨ next + f.classes.length ≤ i) :
    ownedBy other (f.owned depth offset next owner) = if other = owner then f.functions else [] := by
  induction f generalizing depth offset next owner with
  | nil => split <;> rfl
  | consFunction name parameters rest ih =>
    have hrest := ih depth (behindFunction depth offset name parameters) next owner h
    have hcons : (consFunction name parameters rest).owned depth offset next owner =
        (owner, name) :: rest.owned depth (behindFunction depth offset name parameters) next owner := rfl
    by_cases hother : other = owner
    · subst hother
      rw [if_pos rfl] at hrest ⊢
      rw [hcons, ownedBy_cons_self, hrest, functions]
    · rw [if_neg hother] at hrest ⊢
      rw [hcons, ownedBy_cons_of_ne (Ne.symm hother), hrest]
  | consClass name bases body rest ihbody ihrest =>
    have hcount : (consClass name bases body rest).classes.length = body.classes.length + rest.classes.length + 1 := by
      rw [classes, List.length_cons, List.length_append]
    have hbody := ihbody (depth + 1) (insideClass depth offset name bases) (next + 1) (some next) fun i hi => by
      have hout := h i hi
      omega
    have hrest := ihrest depth (behindClass depth offset name bases body) (next + 1 + body.classes.length) owner
      fun i hi => by
        have hout := h i hi
        omega
    have hother : other ≠ some next := fun hnext => by
      have hout := h next hnext
      omega
    rw [owned_class, ownedBy_append, hbody, hrest, if_neg hother, List.nil_append, functions]

/-- A class of the forest owns its own methods. -/
theorem ownedBy_class (f : Forest) (depth offset next : Nat) (owner : Option Nat) (k : Nat)
    (howner : ∀ i, owner = some i → i < next) (hk : k < f.classes.length) :
    ownedBy (some (next + k)) (f.owned depth offset next owner) = f.classes[k].methods := by
  have hne : ∀ n, next ≤ n → some n ≠ owner := fun n hn heq => by
    have hlt := howner n heq.symm
    omega
  induction f generalizing depth offset next owner k with
  | nil => exact absurd hk (Nat.not_lt_zero k)
  | consFunction name parameters rest ih =>
    have hcons : (consFunction name parameters rest).owned depth offset next owner =
        (owner, name) :: rest.owned depth (behindFunction depth offset name parameters) next owner := rfl
    rw [hcons, ownedBy_cons_of_ne (hne _ (Nat.le_add_right next k)).symm]
    exact ih depth _ next owner k howner hk hne
  | consClass name bases body rest ihbody ihrest =>
    rw [owned_class, ownedBy_append]
    let inside := insideClass depth offset name bases
    let behind := behindClass depth offset name bases body
    have hbehind : ∀ n, next ≤ n → n < next + 1 + body.classes.length →
        ownedBy (some n) (rest.owned depth behind (next + 1 + body.classes.length) owner) = [] := by
      intro n hn hlt
      have hrest := rest.ownedBy_outside depth behind (next + 1 + body.classes.length) owner (some n) fun i hi => by
        cases hi
        omega
      rwa [if_neg (hne n hn)] at hrest
    cases k with
    | zero =>
      have hown := body.ownedBy_outside (depth + 1) inside (next + 1) (some next) (some next) fun i hi => by
        cases hi
        omega
      rw [if_pos rfl] at hown
      rw [Nat.add_zero, hown, hbehind next (Nat.le_refl next) (by omega), List.append_nil]
      rfl
    | succ j =>
      have hcount : j + 1 < body.classes.length + rest.classes.length + 1 := by
        rwa [classes, List.length_cons, List.length_append] at hk
      rw [show next + (j + 1) = next + 1 + j by omega]
      by_cases hj : j < body.classes.length
      · have hown := ihbody (depth + 1) inside (next + 1) (some next) j (fun i hi => by cases hi; omega) hj
          fun n hn hnext => by cases hnext; omega
        rw [hown, hbehind _ (by omega) (by omega), List.append_nil]
        simp only [classes, List.getElem_cons_succ, List.getElem_append_left hj]
      · have hnone := body.ownedBy_outside (depth + 1) inside (next + 1) (some next) (some (next + 1 + j))
          fun i hi => by
            cases hi
            omega
        rw [if_neg fun hsome => absurd (Option.some.inj hsome) (by omega)] at hnone
        have hlater := ihrest depth behind (next + 1 + body.classes.length) owner (j - body.classes.length)
          (fun i hi => by have hlt := howner i hi; omega) (by omega) fun n hn => hne n (by omega)
        rw [show next + 1 + body.classes.length + (j - body.classes.length) = next + 1 + j by omega] at hlater
        rw [hnone, hlater, List.nil_append]
        simp only [classes, List.getElem_cons_succ, List.getElem_append_right (Nat.le_of_not_lt hj)]

end Forest

end CodeIndex.Python
