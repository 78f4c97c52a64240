import CodeIndex.Proofs.Regex.Language
import CodeIndex.Proofs.RuleSet.Lines
import CodeIndex.Proofs.Text.Name
import CodeIndex.RuleSet.Generic

/-!
# Lines and functions of the generic rules

Structures and imports are found by one scan each; functions are listed by declaration and call and not by
line. A name is listed once, where it was declared first, or where it was called first if it is never declared, and
no name is left out before the limit is reached.
-/

namespace CodeIndex.Generic

open Regex

theorem describe_ordersLines (language : Language) (t : Text) (hsize : t.width < bound63) :
    (describe language t).OrdersLines t where
  classes := .nil t
  members := fun c hc => nomatch hc
  functions := by
    intro f hf
    obtain ⟨found, -, rfl⟩ := List.mem_map.mp hf
    exact hasLine_lineNumber hsize _
  imports := by
    rw [describe, List.map_map]
    exact ordersLines_starts hsize importForm t.start
  exports := .nil t
  interfaces := .nil t
  fields := fun i hi => nomatch hi
  includes := .nil t
  structures := by
    rw [describe, List.map_map]
    exact ordersLines_groups hsize structureDeclaration t.start 1

/-! ### First sights -/

section

variable (seen : List Text) (list : List (Nat × Text))

/-- What is kept of a list is what is found first of each name that was not seen. -/
theorem mem_firstSights (entry : Nat × Text) :
    entry ∈ firstSights seen list ↔ entry.2 ∉ seen ∧ list.find? (fun e => e.2 == entry.2) = some entry := by
  induction list generalizing seen with
  | nil => simp [firstSights]
  | cons first rest ih =>
    obtain ⟨offset, name⟩ := first
    rw [firstSights]
    split
    · next hseen =>
      rw [ih, List.find?_cons]
      have hmem := List.contains_iff_mem.mp hseen
      refine and_congr_right fun hnot => ?_
      have hother : (name == entry.2) = false := beq_false_of_ne fun h => hnot (h ▸ hmem)
      rw [hother]
    · next hnew =>
      have hnot : name ∉ seen := fun h => hnew (List.contains_iff_mem.mpr h)
      rw [List.mem_cons, ih, List.find?_cons]
      by_cases hname : name = entry.2
      · subst hname
        simp [hnot, eq_comm]
      · have hne : entry ≠ (offset, name) := fun h => hname (congrArg Prod.snd h).symm
        have hother : (name == entry.2) = false := beq_false_of_ne hname
        simp [hne, hother, Ne.symm hname]

theorem firstSights_sublist : (firstSights seen list).Sublist list := by
  induction list generalizing seen with
  | nil => exact .slnil
  | cons first rest ih =>
    rw [firstSights]
    split
    · exact (ih seen).cons first
    · exact (ih _).cons_cons first

theorem firstSights_nodup : ((firstSights seen list).map (·.2)).Nodup := by
  induction list generalizing seen with
  | nil => exact List.nodup_nil
  | cons first rest ih =>
    rw [firstSights]
    split
    · exact ih seen
    · refine List.nodup_cons.mpr ⟨fun hmem => ?_, ih _⟩
      obtain ⟨entry, hentry, hname⟩ := List.mem_map.mp hmem
      exact ((mem_firstSights _ rest entry).mp hentry).1 (hname ▸ List.mem_cons_self)

/-- The names that were seen behind a list are those from before and those kept of it. -/
theorem firstSights_append (more : List (Nat × Text)) :
    firstSights seen (list ++ more) =
      firstSights seen list ++ firstSights (((firstSights seen list).map (·.2)).reverse ++ seen) more := by
  induction list generalizing seen with
  | nil => rfl
  | cons first rest ih =>
    rw [List.cons_append, firstSights, firstSights]
    split
    · exact ih seen
    · rw [ih, List.map_cons, List.reverse_cons, List.append_assoc]
      rfl

end

/-! ### Names that are found -/

/-- Whether one of several rules finds a name at an offset. -/
def Sighted (rules : List Regex) (t : Text) (offset : Nat) (name : Text) : Prop :=
  ∃ r ∈ rules, ∃ m ∈ r.findAll t, nameAt m = (offset, name)

/-- Whether several rules find a name first at an offset. -/
def FirstSighted (rules : List Regex) (t : Text) (offset : Nat) (name : Text) : Prop :=
  Sighted rules t offset name ∧ ∀ other, Sighted rules t other name → offset ≤ other

theorem mem_declaredNames (t : Text) (offset : Nat) (name : Text) :
    (offset, name) ∈ declaredNames t ↔ Sighted declarations t offset name := by
  simp only [declaredNames, List.mem_mergeSort, List.mem_flatMap, List.mem_map, Sighted]

theorem mem_calledNames (t : Text) (offset : Nat) (name : Text) :
    (offset, name) ∈ calledNames t ↔ Sighted [callLike] t offset name := by
  simp only [calledNames, List.mem_map, Sighted, List.mem_singleton, exists_eq_left]

theorem declaredNames_sorted (t : Text) : (declaredNames t).Pairwise fun a b => a.1 ≤ b.1 :=
  mergeSort_offsets _

theorem calledNames_sorted (t : Text) : (calledNames t).Pairwise fun a b => a.1 ≤ b.1 := by
  refine List.pairwise_map.mpr ((callLike.scan_sorted _ t.start).imp_of_mem fun {a b} ha hb hab => ?_)
  have hfirst := (callLike.scan_liesBehind _ t.start a ha).groups 1
  have hsecond := (callLike.scan_liesBehind _ t.start b hb).groups 1
  exact Nat.le_trans hfirst.2 (Nat.le_trans hab.2 hsecond.1)

/-! ### Whole words -/

/-- Whether a name stands at an offset of a text, with no word character behind it. -/
def WordAt (t : Text) (offset : Nat) (name : Text) : Prop :=
  ∃ before rest, t = before ++ (name ++ rest) ∧ before.width = offset ∧ (∀ c ∈ name, isWord c = true) ∧
    rest.head?.any isWord = false

theorem WordAt.unique {t : Text} {offset : Nat} {name other : Text} (h : WordAt t offset name)
    (h' : WordAt t offset other) : name = other := by
  obtain ⟨before, rest, ht, hoffset, hword, hends⟩ := h
  obtain ⟨before', rest', ht', hoffset', hword', hends'⟩ := h'
  have hbefore : before = before' := by
    rw [← Text.takeBytes_width before (name ++ rest), ← ht, hoffset, ← hoffset', ht', Text.takeBytes_width]
  subst hbefore
  exact (run_unique (List.append_cancel_left (ht.symm.trans ht')) hword hends hword' hends').1

/-- The name that a way over a rule holds, and where it stands. -/
theorem way_name {front body : Regex} {p : Cursor} {passed rest : Text} {added : List (Nat × Span)}
    (h : (front ++ Regex.group 1 body).Way p passed rest added) :
    ∃ u name, passed = u ++ name ∧ body.Accepts name ∧
      added.lookup 1 = some ⟨p.after u (name ++ rest), (p.after u (name ++ rest)).offset + name.width⟩ := by
  obtain ⟨u, name, _, _, rfl, rfl, -, _, rfl, hbody⟩ := h
  exact ⟨u, name, rfl, hbody.accepts, List.lookup_cons_self⟩

theorem wordAt_of_way {r : Regex} {t : Text} {m : Match} (hm : m ∈ r.findAll t) {u name rest : Text}
    (hrest : m.start.rest = u ++ (name ++ rest)) (hword : ∀ c ∈ name, isWord c = true)
    (hends : rest.head?.any isWord = false)
    (hspan : m.groups.lookup 1 =
      some ⟨m.start.after u (name ++ rest), (m.start.after u (name ++ rest)).offset + name.width⟩) :
    WordAt t (m.groupStart 1) (m.group 1) := by
  obtain ⟨before, ht, -, hoffset, -⟩ := findAll_split hm
  have hgroup : m.group 1 = name := by
    rw [Match.group, Match.group?, Match.span?, hspan, Option.map_some, Option.getD_some]
    exact Cursor.span_text rfl
  have hstart : m.groupStart 1 = m.start.offset + u.width := by
    rw [Match.groupStart, Match.span?, hspan]
    rfl
  rw [hgroup, hstart]
  exact ⟨before ++ u, rest, by rw [List.append_assoc, ← hrest, ← ht],
    by rw [Text.width_append, hoffset], hword, hends⟩

theorem declaration_ends (r : Regex) (h : r ∈ declarations) : ∃ front, r = front ++ Regex.group 1 word := by
  simp only [declarations, List.mem_cons, List.not_mem_nil, or_false] at h
  obtain rfl | rfl | rfl | rfl := h
  · exact ⟨_, rfl⟩
  · exact ⟨_, rfl⟩
  · exact ⟨_, rfl⟩
  · exact ⟨_, rfl⟩

theorem wordAt_declaration {t : Text} {r : Regex} (hr : r ∈ declarations) {m : Match} (hm : m ∈ r.findAll t) :
    WordAt t (m.groupStart 1) (m.group 1) := by
  obtain ⟨front, rfl⟩ := declaration_ends r hr
  obtain ⟨-, -, -, -, fuel, hmatch⟩ := findAll_split hm
  obtain ⟨_, hrest, -, hway⟩ := matchAt?_way hmatch
  obtain ⟨u, name, rfl, hname, hspan⟩ := way_name hway
  have hends := ((endsOutside_some1 1 isWord).seq front).matchAt? hmatch
  rw [List.append_assoc] at hrest
  exact wordAt_of_way hm hrest ((accepts_some1 isWord name).mp hname).2 hends hspan

theorem isWord_of_isAlpha {c : Char} (h : (c.isAlpha || c == '_') = true) : isWord c = true := by
  have hascii : c.toNat < 128 := by
    have hbelow : ∀ last : Char, last.val < 128 → c.val ≤ last.val → c.toNat < 128 := fun _ hlast hle =>
      Nat.lt_of_le_of_lt (UInt32.le_iff_toNat_le.mp hle) (UInt32.lt_iff_toNat_lt.mp hlast)
    rcases Bool.or_eq_true_iff.mp h with h | h
    · rcases Bool.or_eq_true_iff.mp h with hupper | hlower
      · exact hbelow 'Z' (by decide) (of_decide_eq_true hupper).2
      · exact hbelow 'z' (by decide) (of_decide_eq_true (Bool.and_eq_true_iff.mp hlower).2)
    · rw [beq_iff_eq.mp h]
      decide
  rw [isWord, if_pos hascii, isAsciiWord, Char.isAlphanum]
  rcases Bool.or_eq_true_iff.mp h with h | h
  · rw [h, Bool.true_or, Bool.true_or]
  · rw [h, Bool.or_true]

theorem identifier_words {name : Text} (h : identifier.Accepts name) : ∀ c ∈ name, isWord c = true := by
  obtain ⟨_, more, ⟨c, hc, rfl⟩, hmore, rfl⟩ := h
  exact List.forall_mem_cons.mpr ⟨isWord_of_isAlpha hc, hmore⟩

/-- Behind a name that looks like a call there is white space or a parenthesis. -/
theorem wordAt_call {t : Text} {m : Match} (hm : m ∈ callLike.findAll t) :
    WordAt t (m.groupStart 1) (m.group 1) := by
  obtain ⟨-, -, -, -, fuel, hmatch⟩ := findAll_split hm
  obtain ⟨_, hrest, -, _, _, _, _, rfl, hgroups, ⟨_, gap, _, _, rfl, rfl, hfront, hgap, rfl⟩, ⟨c, hc, rfl⟩, rfl⟩ :=
    matchAt?_way hmatch
  obtain ⟨u, name, rfl, hname, hspan⟩ := way_name hfront
  obtain rfl := beq_iff_eq.mp hc
  rw [List.append_assoc, List.append_assoc, List.append_assoc] at hrest
  refine wordAt_of_way hm hrest (identifier_words hname) ?_ (by rw [hgroups]; exact hspan)
  cases gap with
  | nil => rfl
  | cons d gap =>
    refine Bool.eq_false_iff.mpr fun hword => ?_
    have hblank := hgap d List.mem_cons_self
    rw [isBlank_eq_false hword] at hblank
    cases hblank

theorem Sighted.wordAt {t : Text} {offset : Nat} {name : Text}
    (h : Sighted (declarations ++ [callLike]) t offset name) : WordAt t offset name := by
  obtain ⟨r, hr, m, hm, hname⟩ := h
  cases hname
  rcases List.mem_append.mp hr with hr | hr
  · exact wordAt_declaration hr hm
  · obtain rfl := List.mem_singleton.mp hr
    exact wordAt_call hm

theorem sighted_append (rules more : List Regex) (t : Text) (offset : Nat) (name : Text) :
    Sighted (rules ++ more) t offset name ↔ Sighted rules t offset name ∨ Sighted more t offset name := by
  simp only [Sighted, List.mem_append, or_and_right, exists_or]

/-! ### Listed functions -/

/-- The first sights of the names that may name a function, apart from those that were seen. -/
def listed (seen : List Text) (names : List (Nat × Text)) : List (Nat × Text) :=
  firstSights seen (names.filter fun entry => mayNameFunction entry.2)

section

variable {t : Text} {rules : List Regex} {names : List (Nat × Text)}
  (hnames : ∀ offset name, (offset, name) ∈ names ↔ Sighted rules t offset name)

include hnames

theorem listed_first (hsorted : names.Pairwise fun a b => a.1 ≤ b.1) (seen : List Text) (entry : Nat × Text)
    (h : entry ∈ listed seen names) : FirstSighted rules t entry.1 entry.2 := by
  obtain ⟨-, hfind⟩ := (mem_firstSights seen _ entry).mp h
  have hmem := List.mem_filter.mp (List.mem_of_find?_eq_some hfind)
  refine ⟨(hnames _ _).mp hmem.1, fun other hother => ?_⟩
  have hkept : (other, entry.2) ∈ names.filter fun entry => mayNameFunction entry.2 :=
    List.mem_filter.mpr ⟨(hnames _ _).mpr hother, hmem.2⟩
  obtain ⟨-, before, behind, hsplit, hbefore⟩ := List.find?_eq_some_iff_append.mp hfind
  have hrising := hsorted.filter fun entry => mayNameFunction entry.2
  rw [hsplit] at hkept hrising
  rcases List.mem_append.mp hkept with hin | hin
  · have hnot := hbefore _ hin
    rw [beq_self_eq_true] at hnot
    cases hnot
  · rcases List.mem_cons.mp hin with heq | hin
    · exact Nat.le_of_eq (congrArg Prod.fst heq).symm
    · exact (List.pairwise_cons.mp (List.pairwise_append.mp hrising).2.1).1 _ hin

/-- At one offset there is one name, so first sights in the order of their offsets rise. -/
theorem listed_rising (hsorted : names.Pairwise fun a b => a.1 ≤ b.1) (hword : ∀ offset name,
    Sighted rules t offset name → WordAt t offset name) (seen : List Text) :
    (listed seen names).Pairwise fun a b => a.1 < b.1 := by
  have hsub : (listed seen names).Sublist names := (firstSights_sublist seen _).trans List.filter_sublist
  have hdistinct := List.pairwise_map.mp (firstSights_nodup seen (names.filter fun entry => mayNameFunction entry.2))
  refine ((hsorted.sublist hsub).and hdistinct).imp_of_mem fun {a b} ha hb hab => ?_
  refine Nat.lt_of_le_of_ne hab.1 fun hsame => hab.2 ?_
  have hfirst := hword _ _ ((hnames a.1 a.2).mp (hsub.subset ha))
  have hsecond := hword _ _ ((hnames b.1 b.2).mp (hsub.subset hb))
  exact hfirst.unique (hsame ▸ hsecond)

theorem listed_complete (seen : List Text) (offset : Nat) (name : Text) (hmay : mayNameFunction name = true)
    (h : Sighted rules t offset name) (hnew : name ∉ seen) : name ∈ (listed seen names).map (·.2) := by
  have hkept : (offset, name) ∈ names.filter fun entry => mayNameFunction entry.2 :=
    List.mem_filter.mpr ⟨(hnames _ _).mpr h, hmay⟩
  cases hfind : (names.filter fun entry => mayNameFunction entry.2).find? fun e => e.2 == name with
  | none => exact absurd (beq_self_eq_true name) (List.find?_eq_none.mp hfind _ hkept)
  | some entry =>
    have hname := List.find?_some hfind
    obtain rfl := eq_of_beq hname
    exact List.mem_map_of_mem ((mem_firstSights seen _ entry).mpr ⟨hnew, hfind⟩)

end

/-- Names of functions with their offsets: those that are declared, each where it is first, and then those that are
only called, each where it is first. -/
structure Ranks (t : Text) (declared called : List (Nat × Text)) : Prop where
  distinct : ((declared ++ called).map (·.2)).Nodup
  allowed : ∀ entry ∈ declared ++ called, mayNameFunction entry.2 = true
  declaredFirst : ∀ entry ∈ declared, FirstSighted declarations t entry.1 entry.2
  calledFirst : ∀ entry ∈ called, FirstSighted [callLike] t entry.1 entry.2 ∧
    ∀ offset, ¬Sighted declarations t offset entry.2
  declaredRising : declared.Pairwise fun a b => a.1 < b.1
  calledRising : called.Pairwise fun a b => a.1 < b.1
  complete : ∀ offset name, mayNameFunction name = true → Sighted (declarations ++ [callLike]) t offset name →
    name ∈ (declared ++ called).map (·.2)

theorem ranks_listed (t : Text) :
    Ranks t (listed [] (declaredNames t))
      (listed ((listed [] (declaredNames t)).map (·.2)).reverse (calledNames t)) := by
  have hword : ∀ offset name, Sighted declarations t offset name → WordAt t offset name := fun _ _ h =>
    ((sighted_append ..).mpr (Or.inl h)).wordAt
  have hword' : ∀ offset name, Sighted [callLike] t offset name → WordAt t offset name := fun _ _ h =>
    ((sighted_append ..).mpr (Or.inr h)).wordAt
  have hall := firstSights_append [] ((declaredNames t).filter fun entry => mayNameFunction entry.2)
    ((calledNames t).filter fun entry => mayNameFunction entry.2)
  rw [List.append_nil, ← List.filter_append] at hall
  have hmay : ∀ seen names, ∀ entry ∈ listed seen names, mayNameFunction entry.2 = true := fun seen names entry h =>
    (List.mem_filter.mp ((firstSights_sublist seen _).subset h)).2
  constructor
  case distinct =>
    rw [listed, listed, ← hall]
    exact firstSights_nodup [] _
  case allowed => exact List.forall_mem_append.mpr ⟨hmay _ _, hmay _ _⟩
  case declaredFirst => exact listed_first (mem_declaredNames t) (declaredNames_sorted t) []
  case calledFirst =>
    refine fun entry h => ⟨listed_first (mem_calledNames t) (calledNames_sorted t) _ entry h, fun offset hdeclared => ?_⟩
    refine ((mem_firstSights _ _ entry).mp h).1 (List.mem_reverse.mpr ?_)
    exact listed_complete (mem_declaredNames t) [] offset entry.2 (hmay _ _ entry h) hdeclared List.not_mem_nil
  case declaredRising => exact listed_rising (mem_declaredNames t) (declaredNames_sorted t) hword []
  case calledRising => exact listed_rising (mem_calledNames t) (calledNames_sorted t) hword' _
  case complete =>
    intro offset name hname h
    rw [List.map_append, List.mem_append]
    rcases (sighted_append ..).mp h with h | h
    · exact Or.inl (listed_complete (mem_declaredNames t) [] offset name hname h List.not_mem_nil)
    · by_cases hin : name ∈ (listed [] (declaredNames t)).map (·.2)
      · exact Or.inl hin
      · exact Or.inr (listed_complete (mem_calledNames t) _ offset name hname h
          fun hrev => hin (List.mem_reverse.mp hrev))

/-- The function of a name that was found at an offset. -/
def functionAt (lines : LineIndex) (entry : Nat × Text) : FunctionDecl :=
  { name := String.ofList entry.2, line := lines.lineNumber entry.1 }

theorem functions_eq (t : Text) (lines : LineIndex) :
    functions t lines = ((listed [] (declaredNames t) ++
      listed ((listed [] (declaredNames t)).map (·.2)).reverse (calledNames t)).take maxFunctions).map
        (functionAt lines) := by
  have hall := firstSights_append [] ((declaredNames t).filter fun entry => mayNameFunction entry.2)
    ((calledNames t).filter fun entry => mayNameFunction entry.2)
  rw [List.append_nil, ← List.filter_append] at hall
  rw [functions, hall]
  rfl

end CodeIndex.Generic

namespace CodeIndex

/-- The generic rules describe every text in every language. Their functions are the first twenty of the names that
are declared, and then of those that are only called; so none is missing if there are fewer than twenty. -/
theorem extract_lists_functions (language : Language) (t : Text) :
    ∃ (d : Description) (declared called : List (Nat × Text)),
      Generic.ruleSet.extract language t = .ok d ∧ Generic.Ranks t declared called ∧
      d.functions = ((declared ++ called).take 20).map (Generic.functionAt (.ofText t)) ∧
      d.functions.length ≤ 20 ∧ (d.functions.map (·.name)).Nodup ∧
      (∀ f ∈ d.functions, Generic.mayNameFunction f.name.toList = true) ∧
      (d.functions.length < 20 → ∀ offset name, Generic.mayNameFunction name = true →
        Generic.Sighted (Generic.declarations ++ [Generic.callLike]) t offset name →
        String.ofList name ∈ d.functions.map (·.name)) := by
  have hranks := Generic.ranks_listed t
  have hfunctions := Generic.functions_eq t (.ofText t)
  generalize Generic.listed [] (Generic.declaredNames t) = declared at hranks hfunctions
  generalize Generic.listed _ (Generic.calledNames t) = called at hranks hfunctions
  have hnames : (((declared ++ called).take 20).map (Generic.functionAt (.ofText t))).map (·.name) =
      (((declared ++ called).take 20).map (·.2)).map String.ofList := by
    rw [List.map_map, List.map_map]
    rfl
  refine ⟨Generic.describe language t, declared, called, rfl, hranks, hfunctions, ?_⟩
  rw [Generic.describe, hfunctions, Generic.maxFunctions, hnames, List.length_map]
  refine ⟨List.length_take_le .., ?_, fun f hf => ?_, fun hfew offset name hmay h => ?_⟩
  · have hdistinct := hranks.distinct.sublist ((List.take_sublist 20 _).map _)
    exact List.Pairwise.map String.ofList (fun _ _ hne h => hne (String.ofList_injective h)) hdistinct
  · obtain ⟨entry, hentry, rfl⟩ := List.mem_map.mp hf
    rw [Generic.functionAt, String.toList_ofList]
    exact hranks.allowed entry (List.mem_of_mem_take hentry)
  · have hall : (declared ++ called).take 20 = declared ++ called := by
      refine List.take_of_length_le ?_
      rw [List.length_take] at hfew
      omega
    rw [hall]
    exact List.mem_map_of_mem (hranks.complete offset name hmay h)

end CodeIndex
