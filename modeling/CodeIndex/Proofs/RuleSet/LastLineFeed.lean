import CodeIndex.Proofs.RuleSet.Failure
import CodeIndex.Proofs.RuleSet.OpenBodies

/-!
# A line feed behind a text

A line feed that is put behind a text adds no class header and changes no class that is closed. A class
that is left open is read from its body without the last character of the text, which with the line feed
behind it is read too: the classes change where that character makes a difference.
-/

namespace CodeIndex

/-! ### Classes of a text -/

/-- Lists of results of the same items are equal when every item has one result. -/
theorem mapM_eq_iff {α β : Type} {f g : α → Option β} (list : List α) {as bs : List β}
    (hf : list.mapM f = some as) (hg : list.mapM g = some bs) : as = bs ↔ ∀ a ∈ list, f a = g a := by
  constructor
  · rintro rfl
    have hresults := mapM_forall₂ f list as hf
    have hresults' := mapM_forall₂ g list as hg
    clear hf hg
    induction hresults with
    | nil => exact List.forall_mem_nil _
    | cons ha _ ih =>
      obtain ⟨ha', hrest⟩ := List.forall₂_cons.mp hresults'
      exact List.forall_mem_cons.mpr ⟨ha.trans ha'.symm, ih hrest⟩
  · intro hsame
    rw [mapM_congr list hsame, hg] at hf
    exact (Option.some.inj hf).symm

/-- How the rules of a language with braces find the classes of a text. -/
structure BraceRules (language : Language) where
  ruleSet : String
  describe? : Text → Option Description
  classHeader : Regex
  /-- The class behind a header with the given masked body. -/
  classWith? : Text → Match → Cursor → Option ClassDecl
  header_ends : ∃ r, classHeader = r ++ Regex.char '{'
  extract_eq : ∀ t, Registry.standard.extract language t = foundOrCut ruleSet language (describe? t)
  describe?_eq_none : ∀ t, describe? t = none ↔ ∃ header ∈ bodyHeaders language t, header.CutsLast t
  header_mem : ∀ t, ∀ header ∈ classHeader.findAll t, header ∈ bodyHeaders language t
  classes_eq : ∀ t d, describe? t = some d →
    (classHeader.findAll t).mapM (fun header => (maskedBody? t header).bind (classWith? t header)) = some d.classes
  classWith?_lineFeed : ∀ t, ∀ header ∈ classHeader.findAll t, ∀ body : Cursor, body.MasksPart t →
    classWith? (t ++ ['\n']) (header.extend ['\n']) body = classWith? t header body

/-- Whether two extractions both succeed or both fail, with the same classes if they succeed. -/
def AgreeOnClasses (found found' : Except ExtractError Description) : Prop :=
  ((∃ d, found = .ok d) ↔ ∃ d, found' = .ok d) ∧
    ∀ d d', found = .ok d → found' = .ok d' → d.classes = d'.classes

namespace BraceRules

variable {language : Language} (rules : BraceRules language) {t : Text}

theorem lineFeed_not_cuts (header : Match) : ¬header.CutsLast (t ++ ['\n']) := by
  rintro ⟨-, c, hc, hwide⟩
  rw [List.getLast?_concat] at hc
  cases hc
  exact absurd hwide (by decide)

theorem findAll_lineFeed :
    rules.classHeader.findAll (t ++ ['\n']) = (rules.classHeader.findAll t).map (·.extend ['\n']) := by
  obtain ⟨r, hr⟩ := rules.header_ends
  rw [hr]
  have hfeed : ∀ c ∈ ['\n'], (c == '{') = false := by simp
  exact Regex.findAllFrom_extend hfeed r t.start

theorem liesBehind {header : Match} (h : header ∈ rules.classHeader.findAll t) :
    header.LiesBehind t.start ∧ header.stop.before = some '{' := by
  obtain ⟨r, hr⟩ := rules.header_ends
  refine ⟨Regex.scan_liesBehind _ _ t.start header h, ?_⟩
  rw [hr] at h
  exact Regex.scan_char r _ '{' t.start header h

/-- With the line feed, the class behind a header is the same, or its body has one more character. -/
theorem class_lineFeed {header : Match} (h : header ∈ rules.classHeader.findAll t) (hcut : ¬header.CutsLast t) :
    (maskedBody? t header).bind (rules.classWith? t header) =
        (maskedBody? (t ++ ['\n']) (header.extend ['\n'])).bind
          (rules.classWith? (t ++ ['\n']) (header.extend ['\n'])) ↔
      (header.stop.rest.LeavesOpen →
        rules.classWith? t header (header.bodyOf header.stop.rest.dropLast) =
          rules.classWith? t header (header.bodyOf header.stop.rest)) := by
  obtain ⟨hlies, hlast⟩ := rules.liesBehind h
  by_cases hopen : header.stop.rest.LeavesOpen
  · have hone : ∀ c, t.getLast? = some c → c.utf8Size = 1 := by
      intro c hc
      have hwide : ¬1 < c.utf8Size := fun hwide => hcut ⟨hopen, c, hc, hwide⟩
      have hpos := c.utf8Size_pos
      omega
    have hheader : header.extend ['\n'] ∈ rules.classHeader.findAll (t ++ ['\n']) := by
      rw [rules.findAll_lineFeed]
      exact List.mem_map_of_mem h
    obtain ⟨hlies', hlast'⟩ := rules.liesBehind hheader
    have hbody := maskedBody?_open hlies' hlast' hopen.lineFeed fun c hc => by
      rw [List.getLast?_concat] at hc
      cases hc
      rfl
    have hrest : (header.extend ['\n']).stop.rest.dropLast = header.stop.rest := List.dropLast_concat
    have hmasks := Match.bodyOf_masksPart hlies hlast header.stop.rest [] (List.append_nil _).symm
    have hsame := rules.classWith?_lineFeed t header h _ hmasks
    rw [hrest] at hbody
    rw [maskedBody?_open hlies hlast hopen hone, hbody, Option.bind_some, Option.bind_some]
    exact ⟨fun heq _ => heq.trans hsame, fun heq => (heq hopen).trans hsame.symm⟩
  · obtain ⟨body, hbody, hmasks, hbody'⟩ := maskedBody?_closed hlies hlast hopen ['\n']
    rw [hbody, hbody', Option.bind_some, Option.bind_some]
    exact ⟨fun _ h => absurd h hopen, fun _ => (rules.classWith?_lineFeed t header h body hmasks).symm⟩

theorem classes_lineFeed {d d' : Description} (hd : rules.describe? t = some d)
    (hd' : rules.describe? (t ++ ['\n']) = some d') :
    d.classes = d'.classes ↔ ∀ header ∈ rules.classHeader.findAll t, header.stop.rest.LeavesOpen →
      rules.classWith? t header (header.bodyOf header.stop.rest.dropLast) =
        rules.classWith? t header (header.bodyOf header.stop.rest) := by
  have hclasses := rules.classes_eq t d hd
  have hclasses' := rules.classes_eq _ d' hd'
  rw [rules.findAll_lineFeed, List.mapM_map] at hclasses'
  rw [mapM_eq_iff _ hclasses hclasses']
  refine forall₂_congr fun header h => rules.class_lineFeed h fun hcut => ?_
  have hnone := (rules.describe?_eq_none t).mpr ⟨header, rules.header_mem t header h, hcut⟩
  rw [hd] at hnone
  cases hnone

/-- The classes of a text and of the text with a line feed behind it agree unless the text ends inside a
class and cannot be described, or the last character of the text makes a member of that class. -/
theorem agree_lineFeed (hlanguage : language ∈ [.javaScript, .typeScript, .c, .cpp, .java]) :
    AgreeOnClasses (Registry.standard.extract language t) (Registry.standard.extract language (t ++ ['\n'])) ↔
      ¬language.Cuts t ∧ ∀ header ∈ rules.classHeader.findAll t, header.stop.rest.LeavesOpen →
        rules.classWith? t header (header.bodyOf header.stop.rest.dropLast) =
          rules.classWith? t header (header.bodyOf header.stop.rest) := by
  obtain ⟨d', hd'⟩ : ∃ d', rules.describe? (t ++ ['\n']) = some d' := by
    refine Option.ne_none_iff_exists'.mp fun hnone => ?_
    obtain ⟨header, -, hcut⟩ := (rules.describe?_eq_none _).mp hnone
    exact lineFeed_not_cuts header hcut
  rw [language.cuts_iff t hlanguage, ← rules.describe?_eq_none t, rules.extract_eq, rules.extract_eq, hd']
  cases hd : rules.describe? t with
  | none =>
    refine ⟨fun hagree => ?_, fun h => absurd rfl h.1⟩
    obtain ⟨d, hfailed⟩ := hagree.1.mpr ⟨d', rfl⟩
    cases hfailed
  | some d =>
    rw [← rules.classes_lineFeed hd hd']
    constructor
    · exact fun hagree => ⟨Option.some_ne_none d, hagree.2 d d' rfl rfl⟩
    · rintro ⟨-, hsame⟩
      refine ⟨⟨fun _ => ⟨d', rfl⟩, fun _ => ⟨d, rfl⟩⟩, fun a b ha hb => ?_⟩
      cases ha
      cases hb
      exact hsame

end BraceRules

/-! ### Rule sets -/

theorem Cpp.describe?_classes {language : Language} {t : Text} {d : Description}
    (h : Cpp.describe? language t = some d) :
    (Cpp.classHeader.findAll t).mapM (Cpp.classOf? t (.ofText t)) = some d.classes := by
  simp only [Cpp.describe?, Regex.scan?_stop, Option.bind_eq_bind, Option.bind_some, Option.bind_eq_some_iff] at h
  obtain ⟨classes, hclasses, functions, -, h⟩ := h
  cases h
  exact hclasses

theorem Java.describe?_classes {language : Language} {t : Text} {d : Description}
    (h : Java.describe? language t = some d) :
    (Java.classHeader.findAll t).mapM (Java.classOf? t (.ofText t)) = some d.classes := by
  simp only [Java.describe?, Regex.scan?_stop, Option.bind_eq_bind, Option.bind_some, Option.bind_eq_some_iff] at h
  obtain ⟨classes, hclasses, h⟩ := h
  cases h
  exact hclasses

/-- The rules for JavaScript. -/
def JavaScript.scriptRules : BraceRules .javaScript where
  ruleSet := "javascript"
  describe? := JavaScript.describe? .javaScript
  classHeader := JavaScript.classHeader
  classWith? := JavaScript.classWith?
  header_ends := ⟨_, rfl⟩
  extract_eq _ := rfl
  describe?_eq_none t := by
    rw [JavaScript.describe?_eq_none]
    simp [bodyHeaders]
  header_mem _ _ h := h
  classes_eq t d h := by
    rw [← JavaScript.classOf?_eq]
    exact (JavaScript.describe?_parts h).1
  classWith?_lineFeed _ _ hheader _ hbody := JavaScript.classWith?_lineFeed hheader hbody

/-- The rules for TypeScript, which take the bodies of interfaces too. -/
def JavaScript.typeRules : BraceRules .typeScript where
  ruleSet := "javascript"
  describe? := JavaScript.describe? .typeScript
  classHeader := JavaScript.classHeader
  classWith? := JavaScript.classWith?
  header_ends := ⟨_, rfl⟩
  extract_eq _ := rfl
  describe?_eq_none t := by
    rw [JavaScript.describe?_eq_none]
    simp only [bodyHeaders, List.mem_append, or_and_right, exists_or, true_and]
  header_mem _ _ h := List.mem_append_left _ h
  classes_eq t d h := by
    rw [← JavaScript.classOf?_eq]
    exact (JavaScript.describe?_parts h).1
  classWith?_lineFeed _ _ hheader _ hbody := JavaScript.classWith?_lineFeed hheader hbody

/-- The rules for C or C++. -/
def Cpp.rules (language : Language) (hextract : ∀ t, Registry.standard.extract language t =
    foundOrCut "cpp" language (Cpp.describe? language t))
    (hheaders : ∀ t, bodyHeaders language t = Cpp.classHeader.findAll t) : BraceRules language where
  ruleSet := "cpp"
  describe? := Cpp.describe? language
  classHeader := Cpp.classHeader
  classWith? := Cpp.classWith?
  header_ends := ⟨_, rfl⟩
  extract_eq := hextract
  describe?_eq_none t := by
    rw [hheaders]
    exact Cpp.describe?_eq_none language t
  header_mem t header h := by
    rw [hheaders]
    exact h
  classes_eq t d h := by
    rw [← Cpp.classOf?_eq]
    exact Cpp.describe?_classes h
  classWith?_lineFeed _ _ hheader _ hbody := Cpp.classWith?_lineFeed hheader hbody

/-- The rules for Java. -/
def Java.rules : BraceRules .java where
  ruleSet := "java"
  describe? := Java.describe? .java
  classHeader := Java.classHeader
  classWith? := Java.classWith?
  header_ends := ⟨_, rfl⟩
  extract_eq _ := rfl
  describe?_eq_none t := Java.describe?_eq_none .java t
  header_mem _ _ h := h
  classes_eq t d h := by
    rw [← Java.classOf?_eq]
    exact Java.describe?_classes h
  classWith?_lineFeed _ _ hheader _ hbody := Java.classWith?_lineFeed hheader hbody

/-! ### Extraction -/

/-- The class headers that the rules of a language find in a text. -/
def Language.classHeaders (language : Language) (t : Text) : List Match :=
  match language with
  | .javaScript | .typeScript => JavaScript.classHeader.findAll t
  | .c | .cpp => Cpp.classHeader.findAll t
  | .java => Java.classHeader.findAll t
  | _ => []

/-- The class that the rules of a language read behind a header of a text, when its body has the text
`inner`. -/
def Language.classWithin? (language : Language) (t : Text) (header : Match) (inner : Text) : Option ClassDecl :=
  match language with
  | .javaScript | .typeScript => JavaScript.classWith? t header (header.bodyOf inner)
  | .c | .cpp => Cpp.classWith? t header (header.bodyOf inner)
  | .java => Java.classWith? t header (header.bodyOf inner)
  | _ => none

/-- A line feed behind a text changes no class, with two exceptions: a text that cannot be described because
it ends in a character of several bytes inside a body, and a text that ends inside a class which reads
otherwise when its body has the last character of the text too. -/
theorem extract_lineFeed (language : Language) (hlanguage : language ∈ [.javaScript, .typeScript, .c, .cpp, .java])
    (t : Text) :
    AgreeOnClasses (Registry.standard.extract language t) (Registry.standard.extract language (t ++ ['\n'])) ↔
      ¬language.Cuts t ∧ ∀ header ∈ language.classHeaders t, header.stop.rest.LeavesOpen →
        language.classWithin? t header header.stop.rest.dropLast =
          language.classWithin? t header header.stop.rest := by
  cases language with
  | javaScript => exact JavaScript.scriptRules.agree_lineFeed hlanguage
  | typeScript => exact JavaScript.typeRules.agree_lineFeed hlanguage
  | c => exact (Cpp.rules .c (fun _ => rfl) fun _ => rfl).agree_lineFeed hlanguage
  | cpp => exact (Cpp.rules .cpp (fun _ => rfl) fun _ => rfl).agree_lineFeed hlanguage
  | java => exact Java.rules.agree_lineFeed hlanguage
  | python => exact absurd hlanguage (by decide)
  | go => exact absurd hlanguage (by decide)
  | rust => exact absurd hlanguage (by decide)
  | generic => exact absurd hlanguage (by decide)

/-- A blank behind the last field of an open class is lost without harm. -/
theorem extract_lineFeed_blank :
    AgreeOnClasses (Registry.standard.extract .java "class A \x7b\x7d class B \x7b int a; ".toList)
      (Registry.standard.extract .java ("class A \x7b\x7d class B \x7b int a; ".toList ++ ['\n'])) := by
  refine (extract_lineFeed .java (by decide) "class A \x7b\x7d class B \x7b int a; ".toList).mpr ⟨?_, ?_⟩
  · rintro ⟨-, ⟨c, hc, hwide⟩, -⟩
    obtain rfl : ' ' = c := Option.some.inj hc
    exact absurd hwide (by decide)
  · have hsame : ∀ header ∈ Language.classHeaders .java "class A \x7b\x7d class B \x7b int a; ".toList,
        Language.classWithin? .java "class A \x7b\x7d class B \x7b int a; ".toList header header.stop.rest.dropLast =
          Language.classWithin? .java "class A \x7b\x7d class B \x7b int a; ".toList header header.stop.rest := by
      decide +kernel
    exact fun header hheader _ => hsame header hheader

/-- A property whose semicolon is the last character of the text is lost. -/
theorem extract_lineFeed_lost :
    ¬AgreeOnClasses (Registry.standard.extract .javaScript "class A \x7b a;".toList)
      (Registry.standard.extract .javaScript "class A \x7b a;\n".toList) := by
  rintro ⟨-, hsame⟩
  obtain ⟨d, hd⟩ := JavaScript.describe?_exists .javaScript "class A \x7b a;".toList fun c hc => by
    obtain rfl : ';' = c := Option.some.inj hc
    rfl
  obtain ⟨d', hd'⟩ := JavaScript.describe?_exists .javaScript "class A \x7b a;\n".toList fun c hc => by
    obtain rfl : '\n' = c := Option.some.inj hc
    rfl
  have hclasses : d.classes = d'.classes := by
    refine hsame d d' ?_ ?_
    · rw [JavaScript.scriptRules.extract_eq]
      exact congrArg (foundOrCut "javascript" .javaScript) hd
    · rw [JavaScript.scriptRules.extract_eq]
      exact congrArg (foundOrCut "javascript" .javaScript) hd'
  have hfound := (JavaScript.describe?_parts hd).1
  have hfound' := (JavaScript.describe?_parts hd').1
  have hnone : ((JavaScript.classHeader.findAll "class A \x7b a;".toList).mapM
      (JavaScript.classOf? "class A \x7b a;".toList (.ofText "class A \x7b a;".toList))).map
        (fun classes => classes.map (·.properties.length)) = some [0] := by decide +kernel
  have hone : ((JavaScript.classHeader.findAll "class A \x7b a;\n".toList).mapM
      (JavaScript.classOf? "class A \x7b a;\n".toList (.ofText "class A \x7b a;\n".toList))).map
        (fun classes => classes.map (·.properties.length)) = some [1] := by decide +kernel
  rw [hfound, hclasses] at hnone
  rw [hfound', hnone] at hone
  cases hone

end CodeIndex
