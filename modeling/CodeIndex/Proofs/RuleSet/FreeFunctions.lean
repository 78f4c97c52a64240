import CodeIndex.Proofs.Regex.Language
import CodeIndex.Proofs.Regex.Loop
import CodeIndex.Proofs.RuleSet.Positions

/-!
# Free functions of C and C++

The scan for functions goes on behind the class that holds a match, or behind what a match declares. So it is a
loop whose position rises in the text, and the functions that it reports lie outside the classes and outside the
blocks of each other, also where a block is never closed.
-/

namespace CodeIndex.Cpp

open Regex

/-! ### Positions -/

theorem functionDeclaration_passes {fuel : Nat} {m : Match}
    (h : functionDeclaration.matchAt? fuel m.start = some m) : m.start.offset < m.stop.offset :=
  matchAt?_passes h (by decide)

/-- The end of what a function declares is behind its match, and behind its block if it has one. -/
theorem stop_le_functionEnd (t : Text) (classes : List (Nat × Nat)) (m : Match)
    (h : m ∈ functionDeclaration.scan (resumeAfter classes t) t.start) : m.stop.offset ≤ functionEnd t m := by
  rw [functionEnd]
  split
  · next hbody =>
    obtain ⟨before, rest, rfl, hstop⟩ := hasBody_opens t classes m h hbody
    rw [hstop, Nat.add_sub_cancel, balancedBlock_brace]
    obtain ⟨inner, _, -, hend, -⟩ | ⟨-, hend⟩ := blockEndFrom_brace (before.width + 1) rest
    · rw [hend]
      omega
    · rw [hend]
      omega
  · exact Nat.le_refl _

/-- The scan for functions resumes behind the start of each match. -/
theorem lt_resumeAfter (t : Text) (classes : List (Nat × Nat)) (m : Match)
    (h : m ∈ functionDeclaration.scan (resumeAfter classes t) t.start) :
    m.start.offset < resumeAfter classes t m := by
  rw [resumeAfter]
  split
  · exact Nat.lt_of_lt_of_le (Nat.lt_succ_self _) (Nat.le_max_right ..)
  · obtain ⟨-, -, hm⟩ := scanFrom_mem _ _ _ _ t.start _ rfl m h
    exact Nat.lt_of_lt_of_le (functionDeclaration_passes hm) (stop_le_functionEnd t classes m h)

/-! ### What is reported -/

def classRanges (t : Text) : List (Nat × Nat) :=
  (classHeader.findAll t).map (classRange t)

def scannedFunctions (t : Text) : List Match :=
  functionDeclaration.scan (resumeAfter (classRanges t) t) t.start

/-- The matches behind the functions of a text. -/
def declarations (t : Text) : List Match :=
  (scannedFunctions t).filter (declaresFunction (classRanges t))

/-- Whether an offset is in a range: at its start or behind it, and before its end. -/
def Holds (range : Nat × Nat) (offset : Nat) : Prop :=
  range.1 ≤ offset ∧ offset < range.2

theorem rangeHolding?_eq_none (ranges : List (Nat × Nat)) (offset : Nat) :
    rangeHolding? ranges offset = none ↔ ∀ range ∈ ranges, ¬Holds range offset := by
  simp only [rangeHolding?, List.find?_eq_none, Bool.and_eq_true, decide_eq_true_eq, Holds]

/-- Declarations that start one behind another, outside the given ranges of classes and outside the brace blocks of
the declarations before them. -/
structure Outside (t : Text) (classes : List (Nat × Nat)) (declarations : List Match) : Prop where
  rising : declarations.Pairwise fun a b => a.start.offset < b.start.offset
  classes : ∀ range ∈ classes, ∀ m ∈ declarations, ¬Holds range m.start.offset
  blocks : declarations.Pairwise fun a b =>
    hasBody a = true → ¬Holds (balancedBlock t (openingBrace a)) b.start.offset

theorem outside_declarations (t : Text) : Outside t (classRanges t) (declarations t) := by
  have hsorted := (functionDeclaration.scan_sorted (resumeAfter (classRanges t) t) t.start).filter
    (declaresFunction (classRanges t))
  have hfree : ∀ m ∈ declarations t, rangeHolding? (classRanges t) m.start.offset = none := by
    intro m hm
    have hdeclares := (List.mem_filter.mp hm).2
    rw [declaresFunction, Bool.and_eq_true, Bool.and_eq_true] at hdeclares
    exact Option.isNone_iff_eq_none.mp hdeclares.1.1
  refine ⟨hsorted.imp fun h => h.1, fun range hrange m hm => ?_, ?_⟩
  · exact (rangeHolding?_eq_none _ _).mp (hfree m hm) range hrange
  · refine hsorted.imp_of_mem fun {a b} ha _ hbehind hbody hinside => ?_
    -- the scan went on behind the block, and the later match starts there or farther on
    rw [resumeAfter, hfree a ha, functionEnd, if_pos hbody] at hbehind
    exact absurd hinside.2 (Nat.not_lt.mpr hbehind.2)

theorem scannedFunctions_loop (t : Text) :
    functionDeclaration.Loop (resumeAfter (classRanges t) t) t 0 (scannedFunctions t) :=
  scan_loop fun m hm => ⟨lt_resumeAfter t _ m hm, resumeAfter_le t _ (classRange_le t) m hm⟩

/-- The classes and functions of a description, with the matches behind them. -/
theorem describe?_matches (language : Language) (t : Text) (d : Description) (h : describe? language t = some d) :
    (classHeader.findAll t).mapM (classOf? t (.ofText t)) = some d.classes ∧
      (declarations t).mapM (functionOf? t (.ofText t)) = some d.functions := by
  simp only [describe?, scan?_stop, Option.bind_eq_bind, Option.bind_some, Option.bind_eq_some_iff] at h
  obtain ⟨classes, hclasses, functions, hfunctions, h⟩ := h
  cases h
  rw [functions?, scan?_eq _ _ t fun m hm => resumeAfter_le t _ (classRange_le t) m hm] at hfunctions
  exact ⟨hclasses, hfunctions⟩

end CodeIndex.Cpp

namespace CodeIndex

/-- The functions of a text in C or C++ are read from declarations outside its classes and outside each other, which
a loop over the positions of the text finds. -/
theorem extract_functions_outside (language : Language) (hlanguage : language ∈ Cpp.ruleSet.languages) (t : Text)
    (d : Description) (h : Registry.standard.extract language t = .ok d) :
    List.Forall₂ (fun header c => Cpp.classOf? t (.ofText t) header = some c) (Cpp.classHeader.findAll t) d.classes ∧
    List.Forall₂ (fun m f => Cpp.functionOf? t (.ofText t) m = some f) (Cpp.declarations t) d.functions ∧
    Cpp.Outside t (Cpp.classRanges t) (Cpp.declarations t) ∧
    Cpp.functionDeclaration.Loop (Cpp.resumeAfter (Cpp.classRanges t) t) t 0 (Cpp.scannedFunctions t) ∧
    (0 :: (Cpp.scannedFunctions t).map (Cpp.resumeAfter (Cpp.classRanges t) t)).Pairwise (· < ·) ∧
    ∀ position ∈ 0 :: (Cpp.scannedFunctions t).map (Cpp.resumeAfter (Cpp.classRanges t) t),
      position ≤ t.width := by
  have hfound : Cpp.describe? language t = some d := by
    simp only [Cpp.ruleSet, List.mem_cons, List.not_mem_nil, or_false] at hlanguage
    obtain rfl | rfl := hlanguage
    · exact foundOrCut_eq_ok "cpp" .cpp _ d h
    · exact foundOrCut_eq_ok "cpp" .c _ d h
  obtain ⟨hclasses, hfunctions⟩ := Cpp.describe?_matches language t d hfound
  have hloop := Cpp.scannedFunctions_loop t
  exact ⟨mapM_forall₂ _ _ _ hclasses, mapM_forall₂ _ _ _ hfunctions, Cpp.outside_declarations t, hloop,
    hloop.positions.1, hloop.positions.2⟩

theorem extract_functions_outside_bodies :
    Language.cpp ∈ Cpp.ruleSet.languages ∧ ∃ (t : Text) (d : Description),
      t = "class A \x7b int f() \x7b \x7d \x7d;\nint g() \x7b int h(); \x7d\nint k();".toList ∧
      Registry.standard.extract .cpp t = .ok d ∧ d.functions.map (·.name) = ["g", "k"] ∧
      Cpp.Outside t (Cpp.classRanges t) (Cpp.declarations t) := by
  have hlanguage : Language.cpp ∈ Cpp.ruleSet.languages := by decide
  have hnames : (Registry.standard.extract .cpp
      "class A \x7b int f() \x7b \x7d \x7d;\nint g() \x7b int h(); \x7d\nint k();".toList).map
      (fun d => d.functions.map (·.name)) = .ok ["g", "k"] := by decide +kernel
  cases hd : Registry.standard.extract .cpp
      "class A \x7b int f() \x7b \x7d \x7d;\nint g() \x7b int h(); \x7d\nint k();".toList with
  | error e =>
    rw [hd] at hnames
    cases hnames
  | ok d =>
    rw [hd] at hnames
    obtain ⟨-, -, houtside, -⟩ := extract_functions_outside .cpp hlanguage _ d hd
    exact ⟨hlanguage, _, d, rfl, hd, Except.ok.inj hnames, houtside⟩

end CodeIndex
