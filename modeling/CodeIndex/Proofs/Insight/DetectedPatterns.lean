import CodeIndex.Insight.DesignPattern
import Mathlib.Data.List.Forall2
import Mathlib.Data.List.Nodup
import Mathlib.Data.List.Perm.Subperm
import Mathlib.Data.List.Perm.Basic

/-!
# Detected patterns

Each check is on its own: its pattern is reported if and only if it holds, whatever the other checks say. No
check can fail because something was added to a description, and none looks at the order of the lists. So
a description that is within another one, list by list and in any order, has no pattern that the other one
has not.
-/

namespace CodeIndex

/-! ### Additions and reorderings -/

/-- Whether two classes have one name, and the lists of members and interfaces are related. -/
structure ClassDecl.Relates (r : {α : Type} → List α → List α → Prop) (c c' : ClassDecl) : Prop where
  name : c.name = c'.name
  methods : r c.methods c'.methods
  properties : r c.properties c'.properties
  interfaces : r c.interfaces c'.interfaces

theorem ClassDecl.Relates.imp {r s : {α : Type} → List α → List α → Prop}
    (himp : ∀ {α : Type} {list other : List α}, r list other → s list other) {c c' : ClassDecl}
    (h : c.Relates r c') : c.Relates s c' :=
  ⟨h.name, himp h.methods, himp h.properties, himp h.interfaces⟩

namespace Description

/-- Classes, members and interfaces of classes, and interfaces were added anywhere in the lists. -/
structure Grows (d d' : Description) : Prop where
  classes : List.SublistForall₂ (ClassDecl.Relates List.Sublist) d.classes d'.classes
  interfaces : d.interfaces.Sublist d'.interfaces

/-- Classes, members and interfaces of classes, and interfaces are in another order. -/
structure Reorders (d d' : Description) : Prop where
  classes : ∃ reordered : List ClassDecl, d.classes.Perm reordered ∧
    List.Forall₂ (ClassDecl.Relates List.Perm) reordered d'.classes
  interfaces : d.interfaces.Perm d'.interfaces

/-- Additions and reorderings in one. -/
structure IsWithin (d d' : Description) : Prop where
  classes : ∃ grown : List ClassDecl, List.Forall₂ (ClassDecl.Relates List.Subperm) d.classes grown ∧
    grown.Subperm d'.classes
  interfaces : d.interfaces.Subperm d'.interfaces

variable {d d' : Description}

theorem Grows.isWithin (h : d.Grows d') : d.IsWithin d' := by
  obtain ⟨grown, hgrown, hsub⟩ := List.sublistForall₂_iff.mp h.classes
  refine ⟨⟨grown, hgrown.imp fun c c' hc => hc.imp List.Sublist.subperm, hsub.subperm⟩, h.interfaces.subperm⟩

theorem Reorders.isWithin (h : d.Reorders d') : d.IsWithin d' := by
  obtain ⟨reordered, hperm, hsame⟩ := h.classes
  obtain ⟨same, hsame, hperm⟩ := List.perm_comp_forall₂ hperm hsame
  exact ⟨⟨same, hsame.imp fun c c' hc => hc.imp List.Perm.subperm, hperm.subperm⟩, h.interfaces.subperm⟩

theorem Reorders.holds (h : d.Reorders d') : d'.IsWithin d := by
  obtain ⟨reordered, hperm, hsame⟩ := h.classes
  refine ⟨⟨reordered, hsame.flip.imp fun c c' hc => ?_, hperm.symm.subperm⟩, h.interfaces.symm.subperm⟩
  exact ⟨hc.name.symm, hc.methods.symm.subperm, hc.properties.symm.subperm, hc.interfaces.symm.subperm⟩

end Description

/-! ### Checks keep on holding -/

/-- Whether a class with a property keeps it when something is added. -/
def ClassDecl.Keeps (p : ClassDecl → Bool) : Prop :=
  ∀ c c' : ClassDecl, c.Relates List.Subperm c' → p c = true → p c' = true

theorem ClassDecl.Keeps.countP_le {p : ClassDecl → Bool} (hp : ClassDecl.Keeps p)
    {classes grown : List ClassDecl} (h : List.Forall₂ (ClassDecl.Relates List.Subperm) classes grown) :
    classes.countP p ≤ grown.countP p := by
  induction h with
  | nil => exact Nat.le_refl _
  | @cons c c' classes grown hc _ ih =>
    rw [List.countP_cons, List.countP_cons]
    split
    · next hclass =>
      rw [if_pos (hp c c' hc hclass)]
      omega
    · omega

theorem any_keeps {α : Type} (p : α → Bool) {list other : List α} (h : list.Subperm other)
    (hany : list.any p = true) : other.any p = true := by
  rw [List.any_eq_true] at *
  obtain ⟨a, ha, hp⟩ := hany
  exact ⟨a, h.subset ha, hp⟩

theorem isEmpty_keeps {α : Type} {list other : List α} (h : list.Subperm other)
    (hlist : (!list.isEmpty) = true) : (!other.isEmpty) = true := by
  cases list with
  | nil => cases hlist
  | cons a list =>
    have ha := h.subset List.mem_cons_self
    cases other with
    | nil => cases ha
    | cons => rfl

theorem isSingletonClass_keeps : ClassDecl.Keeps isSingletonClass := by
  intro c c' h hc
  rw [isSingletonClass, Bool.and_eq_true] at *
  exact ⟨any_keeps _ h.methods hc.1, any_keeps _ h.properties hc.2⟩

namespace Description

variable {d d' : Description}

theorem IsWithin.countP_le (h : d.IsWithin d') {p : ClassDecl → Bool} (hp : ClassDecl.Keeps p) :
    d.classes.countP p ≤ d'.classes.countP p := by
  obtain ⟨grown, hgrown, hsub⟩ := h.classes
  exact Nat.le_trans (hp.countP_le hgrown) (hsub.countP_le p)

theorem IsWithin.any (h : d.IsWithin d') {p : ClassDecl → Bool} (hp : ClassDecl.Keeps p)
    (hany : d.classes.any p = true) : d'.classes.any p = true := by
  have hle := h.countP_le hp
  rw [List.any_eq_true, ← List.countP_pos_iff] at *
  omega

theorem IsWithin.anyMethodMentions (h : d.IsWithin d') (parts : List String)
    (hany : anyMethodMentions parts d = true) : anyMethodMentions parts d' = true := by
  rw [CodeIndex.anyMethodMentions, methods, List.any_flatMap] at *
  exact h.any (fun c c' hc => any_keeps _ hc.methods) hany

theorem IsWithin.isStrategy (h : d.IsWithin d') (hd : isStrategy d = true) : isStrategy d' = true := by
  have hle := h.countP_le (p := (!·.interfaces.isEmpty)) fun c c' hc => isEmpty_keeps hc.interfaces
  rw [CodeIndex.isStrategy, Bool.and_eq_true, decide_eq_true_eq] at *
  exact ⟨isEmpty_keeps h.interfaces hd.1, Nat.lt_of_lt_of_le hd.2 hle⟩

theorem IsWithin.isModelViewController (h : d.IsWithin d') (hd : isModelViewController d = true) :
    isModelViewController d' = true := by
  rw [CodeIndex.isModelViewController, List.all_eq_true] at *
  intro part hpart
  refine h.any (fun c c' hc hname => ?_) (hd part hpart)
  rwa [← hc.name]

theorem IsWithin.holds (h : d.IsWithin d') (check : PatternCheck) (hcheck : check ∈ patternChecks)
    (hd : check.holds d = true) : check.holds d' = true := by
  simp only [patternChecks, List.mem_cons, List.not_mem_nil, or_false] at hcheck
  obtain rfl | rfl | rfl | rfl | rfl := hcheck
  · exact h.any isSingletonClass_keeps hd
  · exact h.anyMethodMentions _ hd
  · exact h.anyMethodMentions _ hd
  · exact h.isStrategy hd
  · exact h.isModelViewController hd

end Description

/-! ### Reported patterns -/

/-- The limit cuts nothing off, as there are fewer checks. -/
theorem detectPatterns_eq (d : Description) :
    detectPatterns d = (patternChecks.filter (·.holds d)).map (·.pattern) := by
  have hlength : (patternChecks.filter (·.holds d)).length ≤ maxPatterns :=
    Nat.le_trans (List.length_filter_le _ _) (by decide)
  rw [detectPatterns, List.take_of_length_le hlength]

theorem mem_detectPatterns (d : Description) (check : PatternCheck) (hcheck : check ∈ patternChecks) :
    check.pattern ∈ detectPatterns d ↔ check.holds d = true := by
  have hnames : (patternChecks.map (·.pattern.name)).Nodup := by decide
  rw [detectPatterns_eq, List.mem_map]
  constructor
  · rintro ⟨other, hother, heq⟩
    obtain ⟨hmem, hholds⟩ := List.mem_filter.mp hother
    have hsame := List.inj_on_of_nodup_map hnames hmem hcheck (congrArg DesignPattern.name heq)
    rwa [← hsame]
  · intro hholds
    exact ⟨check, List.mem_filter.mpr ⟨hcheck, hholds⟩, rfl⟩

theorem detectPatterns_sublist {d d' : Description} (h : d.IsWithin d') :
    (detectPatterns d).Sublist (detectPatterns d') := by
  have hfilter : patternChecks.filter (·.holds d) = (patternChecks.filter (·.holds d')).filter (·.holds d) := by
    rw [List.filter_filter]
    refine List.filter_congr fun check hcheck => ?_
    rw [Bool.eq_iff_iff, Bool.and_eq_true]
    exact ⟨fun hd => ⟨hd, h.holds check hcheck hd⟩, fun hd => hd.1⟩
  rw [detectPatterns_eq, detectPatterns_eq, hfilter]
  exact List.filter_sublist.map _

/-- Each pattern is reported if and only if its check holds. What is reported of a description is reported, in
the same order, when classes, members or interfaces of classes, or interfaces were added anywhere; and
nothing changes when any of these lists come in another order. -/
theorem detectPatterns_monotone (d : Description) :
    (∀ check ∈ patternChecks, check.pattern ∈ detectPatterns d ↔ check.holds d = true) ∧
    (∀ d' : Description, d.Grows d' → (detectPatterns d).Sublist (detectPatterns d')) ∧
    ∀ d' : Description, d.Reorders d' → detectPatterns d' = detectPatterns d := by
  refine ⟨mem_detectPatterns d, fun d' h => detectPatterns_sublist h.isWithin, fun d' h => ?_⟩
  have hforth := detectPatterns_sublist h.isWithin
  have hback := detectPatterns_sublist h.holds
  exact hback.antisymm hforth

def oneInstance : ClassDecl :=
  { name := "Model"
    line := 1
    methods := [⟨"getInstance", 2, .publicAccess, true, false, [], none, 1, []⟩]
    properties := [{ name := "instance", line := 3, visibility := .privateAccess, isStatic := true }] }

/-- The class of one instance with a method in front and an interface, behind another implementation. -/
def createdInstance : Description :=
  { language := .typeScript
    classes :=
      [{ name := "View", line := 1, interfaces := ["Shown"] },
        { oneInstance with
          methods := ⟨"createModel", 4, .publicAccess, false, false, [], none, 1, []⟩ :: oneInstance.methods
          interfaces := ["Shown"] }]
    interfaces := [⟨"Shown", 9, [], []⟩] }

theorem detectPatterns_monotone_implemented :
    Description.Grows { language := .typeScript, classes := [oneInstance] } createdInstance ∧
    Description.Reorders createdInstance { createdInstance with classes := createdInstance.classes.reverse } ∧
    [⟨"Singleton", .ofFloat 0.8, "Private constructor with static instance"⟩].Sublist
      (detectPatterns createdInstance) ∧
    detectPatterns { createdInstance with classes := createdInstance.classes.reverse } =
      detectPatterns createdInstance ∧
    (detectPatterns createdInstance).map (·.name) = ["Singleton", "Factory", "Strategy"] := by
  have hgrows : Description.Grows { language := .typeScript, classes := [oneInstance] } createdInstance := by
    refine ⟨?_, List.nil_sublist _⟩
    refine .cons_right (.cons ⟨rfl, ?_, List.Sublist.refl _, List.nil_sublist _⟩ .nil)
    exact List.sublist_cons_self _ _
  have hreorders : Description.Reorders createdInstance
      { createdInstance with classes := createdInstance.classes.reverse } :=
    ⟨⟨_, (List.reverse_perm _).symm, List.forall₂_same.mpr fun c _ => ⟨rfl, .refl _, .refl _, .refl _⟩⟩, .refl _⟩
  obtain ⟨-, hadded, -⟩ := detectPatterns_monotone { language := .typeScript, classes := [oneInstance] }
  obtain ⟨-, -, hsame⟩ := detectPatterns_monotone createdInstance
  have hone : detectPatterns { language := .typeScript, classes := [oneInstance] } =
      [⟨"Singleton", .ofFloat 0.8, "Private constructor with static instance"⟩] := by
    decide
  refine ⟨hgrows, hreorders, ?_, hsame _ hreorders, by decide⟩
  rw [← hone]
  exact hadded _ hgrows

end CodeIndex
