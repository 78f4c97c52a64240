import CodeIndex.Proofs.Regex.Extension
import CodeIndex.Proofs.RuleSet.Cpp
import CodeIndex.Proofs.RuleSet.Java
import CodeIndex.Proofs.RuleSet.JavaScript
import CodeIndex.Proofs.Text.LastLineFeed
import Mathlib.Data.List.Basic

/-!
# Bodies of a longer text

The body of a class that is closed stays the same when text is put behind. The body of a class that is left
open ends one byte before the end of the text, so with a line feed behind the text it has one more
character. The members of a body report the same lines and complexities in front of a line feed.
-/

namespace CodeIndex

theorem mapM_congr {α β : Type} {f g : α → Option β} (list : List α) (h : ∀ a ∈ list, f a = g a) :
    list.mapM f = list.mapM g := by
  induction list with
  | nil => rfl
  | cons a list ih =>
    obtain ⟨ha, hlist⟩ := List.forall_mem_cons.mp h
    rw [List.mapM_cons, List.mapM_cons, ha, ih hlist]

/-! ### Bodies -/

/-- The body behind a header, when it has the given text. -/
def Match.bodyOf (header : Match) (inner : Text) : Cursor :=
  ⟨none, header.stop.offset, maskNested inner⟩

section

variable {t : Text} {header : Match} (h : header.LiesBehind t.start) (hlast : header.stop.before = some '{')

include h hlast

theorem Match.bodyOf_masksPart (inner rest : Text) (hrest : header.stop.rest = inner ++ rest) :
    (header.bodyOf inner).MasksPart t := by
  obtain ⟨before, hsplit, hstop⟩ := h.opening hlast
  rw [Match.bodyOf, hsplit, hrest, hstop]
  exact Cursor.masksPart_behind before inner rest

/-- A closed body is the same when the text is longer. -/
theorem maskedBody?_closed (hclosed : ¬header.stop.rest.LeavesOpen) (more : Text) :
    ∃ body, maskedBody? t header = some body ∧ body.MasksPart t ∧
      maskedBody? (t ++ more) (header.extend more) = some body := by
  obtain ⟨before, hsplit, hstop⟩ := h.opening hlast
  obtain ⟨inner, rest, hrest, hend, -⟩ | ⟨hopen, -⟩ := blockEndFrom_brace (before.width + 1) header.stop.rest
  · have hmax : max (blockEndFrom 1 (before.width + 1) header.stop.rest - 1) (before.width + 1) =
        before.width + 1 + inner.width := by omega
    have hlonger := blockEndFrom_closed (before.width + 1) header.stop.rest more hclosed
    rw [← hlonger, hrest, List.append_assoc] at hmax
    refine ⟨⟨none, before.width + 1, maskNested inner⟩, ?_, ?_, ?_⟩
    · rw [hsplit, hrest]
      refine maskedBody?_inner before inner ('}' :: rest) header hstop ?_
      rw [← hmax, ← List.append_assoc, ← hrest, hlonger]
    · rw [hsplit, hrest]
      exact Cursor.masksPart_behind before inner ('}' :: rest)
    · rw [hsplit, hrest, List.append_assoc, List.cons_append, List.append_assoc]
      exact maskedBody?_inner before inner ('}' :: rest ++ more) (header.extend more) hstop hmax
  · exact absurd hopen hclosed

/-- An open body ends before the last character. -/
theorem maskedBody?_open (hopen : header.stop.rest.LeavesOpen)
    (hone : ∀ c, t.getLast? = some c → c.utf8Size = 1) :
    maskedBody? t header = some (header.bodyOf header.stop.rest.dropLast) := by
  obtain ⟨before, hsplit, hstop⟩ := h.opening hlast
  have hend := blockEndFrom_open (before.width + 1) header.stop.rest hopen
  rw [Match.bodyOf, hstop]
  rcases List.eq_nil_or_concat header.stop.rest with hnil | ⟨inner, c, hrest⟩
  · rw [hnil, Text.width] at hend
    have hbody := maskedBody?_inner before [] [] header hstop (by
      rw [List.append_nil, hend, Text.width]
      omega)
    rw [hsplit, hnil]
    exact hbody
  · rw [List.concat_eq_append] at hrest
    have hc : c.utf8Size = 1 := hone c (by
      rw [hsplit, hrest, ← List.cons_append, ← List.append_assoc, List.getLast?_concat])
    rw [hrest, Text.width_append, Text.width, hc, Text.width] at hend
    rw [hsplit, hrest, List.dropLast_concat]
    refine maskedBody?_inner before inner [c] header hstop ?_
    rw [hend]
    omega

end

theorem Match.LiesBehind.lineNumber_lineFeed {t : Text} {m : Match} (h : m.LiesBehind t.start) {offset : Nat}
    (hle : offset ≤ m.stop.offset) :
    (LineIndex.ofText (t ++ ['\n'])).lineNumber offset = (LineIndex.ofText t).lineNumber offset :=
  LineIndex.lineNumber_lineFeed t offset (Nat.le_trans hle h.stop_le_width)

/-! ### Members -/

namespace Cursor.MasksPart

variable {body : Cursor} {t : Text} (h : body.MasksPart t) {m : Match} (hm : m.LiesBehind body)

include h hm

theorem stop_le_width : m.stop.offset ≤ t.width := by
  obtain ⟨before, inner, rest, rfl, rfl⟩ := h
  obtain ⟨passed, hpassed⟩ := hm.stops
  have hmask := congrArg Text.width hpassed.rest
  rw [maskNested, maskFrom_width, Text.width_append] at hmask
  have hstart : m.stop.offset = before.width + passed.width := hpassed.offset
  rw [hstart, Text.width_append, Text.width_append]
  omega

theorem lineNumber_lineFeed {offset : Nat} (hle : offset ≤ m.stop.offset) :
    (LineIndex.ofText (t ++ ['\n'])).lineNumber offset = (LineIndex.ofText t).lineNumber offset :=
  LineIndex.lineNumber_lineFeed t offset (Nat.le_trans hle (h.stop_le_width hm))

theorem line_start :
    (LineIndex.ofText (t ++ ['\n'])).lineNumber m.start.offset = (LineIndex.ofText t).lineNumber m.start.offset :=
  h.lineNumber_lineFeed hm hm.stop.offset_le

theorem line_group (label : Nat) :
    (LineIndex.ofText (t ++ ['\n'])).lineNumber (m.groupStart label) =
      (LineIndex.ofText t).lineNumber (m.groupStart label) :=
  h.lineNumber_lineFeed hm (hm.groups label).2

theorem blockComplexity?_lineFeed (hlast : m.stop.before = some '{') :
    blockComplexity? (t ++ ['\n']) (m.stop.offset - 1) = blockComplexity? t (m.stop.offset - 1) := by
  obtain ⟨before, rest, hsplit, hstop⟩ := h.opensBlock hm hlast
  rw [hsplit, hstop, Nat.add_sub_cancel, List.append_assoc, List.cons_append]
  exact CodeIndex.blockComplexity?_lineFeed before rest

theorem declaredComplexity?_lineFeed : declaredComplexity? (t ++ ['\n']) m = declaredComplexity? t m := by
  rw [declaredComplexity?, declaredComplexity?]
  split
  · next hlast => exact h.blockComplexity?_lineFeed hm hlast
  · rfl

end Cursor.MasksPart

namespace JavaScript

open Regex

/-- The class behind a header with the given masked body. -/
def classWith? (t : Text) (header : Match) (body : Cursor) : Option ClassDecl :=
  withMembers? t (.ofText t) body
    { name := header.string 1
      line := (LineIndex.ofText t).lineNumber header.start.offset
      superclass := header.string? 2
      interfaces := commaStrings (header.group 3)
      attributes := headerAttributes header.text }

theorem classOf?_eq (t : Text) :
    classOf? t (.ofText t) = fun header => (maskedBody? t header).bind (classWith? t header) := rfl

theorem withMembers?_lineFeed {t : Text} {body : Cursor} (h : body.MasksPart t) (c : ClassDecl) :
    withMembers? (t ++ ['\n']) (.ofText (t ++ ['\n'])) body c = withMembers? t (.ofText t) body c := by
  have hconstructors := mapM_congr (f := constructorOf? (.ofText (t ++ ['\n']))) (g := constructorOf? (.ofText t))
    (constructorHeader.findAllFrom body) fun m hm => by
      rw [constructorOf?, constructorOf?, h.line_start (scan_liesBehind _ _ body m hm)]
  have hmethods := mapM_congr (f := methodOf? (t ++ ['\n']) (.ofText (t ++ ['\n'])))
    (g := methodOf? t (.ofText t))
    ((methodHeader.findAllFrom body).filter fun m =>
      !m.overlapsAny (constructorHeader.findAllFrom body) && namesMethod m) fun m hm => by
      have hfound := (List.mem_filter.mp hm).1
      have hlies := scan_liesBehind _ _ body m hfound
      rw [methodOf?, methodOf?, openingBrace,
        h.blockComplexity?_lineFeed hlies (Regex.scan_char _ _ _ _ m hfound), h.line_group hlies]
  have hproperties : ∀ claimed : List Match,
      ((property.findAllFrom body).filter (!·.overlapsAny claimed)).filterMap
          (propertyOf? (.ofText (t ++ ['\n']))) =
        ((property.findAllFrom body).filter (!·.overlapsAny claimed)).filterMap (propertyOf? (.ofText t)) := by
    intro claimed
    refine List.filterMap_congr fun m hm => ?_
    have hlies := scan_liesBehind _ _ body m (List.mem_filter.mp hm).1
    rw [propertyOf?, propertyOf?, h.line_group hlies]
  simp only [withMembers?, hconstructors, hmethods, hproperties]

/-- The same class is behind the header in the longer text. -/
theorem classWith?_lineFeed {t : Text} {header : Match} (hheader : header ∈ classHeader.findAll t) {body : Cursor}
    (h : body.MasksPart t) :
    classWith? (t ++ ['\n']) (header.extend ['\n']) body = classWith? t header body := by
  have hlies := scan_liesBehind _ _ t.start header hheader
  have hspans := scan_spans _ _ t.start header hheader
  have hstart : (header.extend ['\n']).start.offset = header.start.offset := rfl
  rw [classWith?, classWith?, withMembers?_lineFeed h, hstart, hlies.lineNumber_lineFeed hlies.stop.offset_le,
    Match.string, Match.string, Match.string?, Match.string?, Match.extend_group _ _ hspans,
    Match.extend_group _ _ hspans, Match.extend_group? _ _ hspans, Match.extend_text _ _ hlies.stop]

end JavaScript

namespace Cpp

open Regex

/-- The class behind a header with the given masked body. -/
def classWith? (t : Text) (header : Match) (body : Cursor) : Option ClassDecl := do
  let bases ← baseTypes? (header.group 5)
  let default := if header.group 2 = "struct".toList then .publicAccess else .privateAccess
  withMembers? t (.ofText t) body default
    { name := header.string 3
      line := (LineIndex.ofText t).lineNumber header.start.offset
      superclass := bases.head?
      additionalBases := bases.tail
      attributes := classAttributes header body.rest }

theorem classOf?_eq (t : Text) :
    classOf? t (.ofText t) = fun header => (maskedBody? t header).bind (classWith? t header) := rfl

theorem withMembers?_lineFeed {t : Text} {body : Cursor} (h : body.MasksPart t) (default : Visibility)
    (c : ClassDecl) :
    withMembers? (t ++ ['\n']) (.ofText (t ++ ['\n'])) body default c =
      withMembers? t (.ofText t) body default c := by
  have hclaimed : ∀ (p : Match → Bool), ∀ m ∈ ((methodDeclaration.findAllFrom body).filter declaresMethod).filter p,
      m.LiesBehind body := fun p m hm =>
    scan_liesBehind _ _ body m (List.mem_filter.mp (List.mem_filter.mp hm).1).1
  have hconstructors := mapM_congr (f := constructorOf? (.ofText (t ++ ['\n']))) (g := constructorOf? (.ofText t))
    (((methodDeclaration.findAllFrom body).filter declaresMethod).filter (isConstructor c.name)) fun m hm => by
      rw [constructorOf?, constructorOf?, h.line_group (hclaimed _ m hm)]
  have hmethods := mapM_congr
    (f := methodOf? (t ++ ['\n']) (.ofText (t ++ ['\n'])) (accessAt (accessLabels body) default))
    (g := methodOf? t (.ofText t) (accessAt (accessLabels body) default))
    (((methodDeclaration.findAllFrom body).filter declaresMethod).filter (!isConstructor c.name ·)) fun m hm => by
      rw [methodOf?, methodOf?, h.line_group (hclaimed _ m hm), h.declaredComplexity?_lineFeed (hclaimed _ m hm)]
  have hmembers : ∀ (p : Match → Bool) (access : Nat → Visibility),
      ((dataMember.findAllFrom body).filter p).map (propertyOf (.ofText (t ++ ['\n'])) access) =
        ((dataMember.findAllFrom body).filter p).map (propertyOf (.ofText t) access) := by
    intro p access
    refine List.map_congr_left fun m hm => ?_
    rw [propertyOf, propertyOf, h.line_group (scan_liesBehind _ _ body m (List.mem_filter.mp hm).1)]
  simp only [withMembers?, hconstructors, hmethods, hmembers]

/-- The same class is behind the header in the longer text. -/
theorem classWith?_lineFeed {t : Text} {header : Match} (hheader : header ∈ classHeader.findAll t) {body : Cursor}
    (h : body.MasksPart t) :
    classWith? (t ++ ['\n']) (header.extend ['\n']) body = classWith? t header body := by
  have hlies := scan_liesBehind _ _ t.start header hheader
  have hspans := scan_spans _ _ t.start header hheader
  have hgroup := header.extend_group ['\n'] hspans
  have hline : (LineIndex.ofText (t ++ ['\n'])).lineNumber (header.extend ['\n']).start.offset =
      (LineIndex.ofText t).lineNumber header.start.offset :=
    hlies.lineNumber_lineFeed hlies.stop.offset_le
  simp only [classWith?, withMembers?_lineFeed h, hgroup, hline, Match.string, classAttributes, Match.extend_has]

end Cpp

namespace Java

open Regex

/-- The class behind a header with the given masked body. -/
def classWith? (t : Text) (header : Match) (body : Cursor) : Option ClassDecl :=
  withMembers? t (.ofText t) body
    { name := header.string 3
      line := (LineIndex.ofText t).lineNumber (header.groupStart 2)
      superclass := header.string? 4
      interfaces := commaStrings (header.group 5)
      attributes := (header.group 2).words.map String.ofList
      decorators := annotations (header.group 1) }

theorem classOf?_eq (t : Text) :
    classOf? t (.ofText t) = fun header => (maskedBody? t header).bind (classWith? t header) := rfl

theorem withMembers?_lineFeed {t : Text} {body : Cursor} (h : body.MasksPart t) (c : ClassDecl) :
    withMembers? (t ++ ['\n']) (.ofText (t ++ ['\n'])) body c = withMembers? t (.ofText t) body c := by
  have hconstructors : ∀ (p : Match → Bool), ((constructorHeader.findAllFrom body).filter p).mapM
      (constructorOf? (.ofText (t ++ ['\n']))) =
        ((constructorHeader.findAllFrom body).filter p).mapM (constructorOf? (.ofText t)) := by
    refine fun p => mapM_congr _ fun m hm => ?_
    rw [constructorOf?, constructorOf?, h.line_group (scan_liesBehind _ _ body m (List.mem_filter.mp hm).1)]
  have hmethods : ∀ (p : Match → Bool), ((methodDeclaration.findAllFrom body).filter p).mapM
      (methodOf? (t ++ ['\n']) (.ofText (t ++ ['\n']))) =
        ((methodDeclaration.findAllFrom body).filter p).mapM (methodOf? t (.ofText t)) := by
    refine fun p => mapM_congr _ fun m hm => ?_
    have hlies := scan_liesBehind _ _ body m (List.mem_filter.mp hm).1
    rw [methodOf?, methodOf?, h.line_group hlies, h.declaredComplexity?_lineFeed hlies]
  have hfields : ∀ (p : Match → Bool), ((fieldDeclaration.findAllFrom body).filter p).map
      (propertyOf (.ofText (t ++ ['\n']))) =
        ((fieldDeclaration.findAllFrom body).filter p).map (propertyOf (.ofText t)) := by
    refine fun p => List.map_congr_left fun m hm => ?_
    rw [propertyOf, propertyOf, h.line_group (scan_liesBehind _ _ body m (List.mem_filter.mp hm).1)]
  simp only [withMembers?, hconstructors, hmethods, hfields]

/-- The same class is behind the header in the longer text. -/
theorem classWith?_lineFeed {t : Text} {header : Match} (hheader : header ∈ classHeader.findAll t) {body : Cursor}
    (h : body.MasksPart t) :
    classWith? (t ++ ['\n']) (header.extend ['\n']) body = classWith? t header body := by
  have hlies := scan_liesBehind _ _ t.start header hheader
  have hspans := scan_spans _ _ t.start header hheader
  have hgroup := header.extend_group ['\n'] hspans
  have hgroup' := header.extend_group? ['\n'] hspans
  have hline : (LineIndex.ofText (t ++ ['\n'])).lineNumber (header.groupStart 2) =
      (LineIndex.ofText t).lineNumber (header.groupStart 2) :=
    hlies.lineNumber_lineFeed (hlies.groups 2).2
  simp only [classWith?, withMembers?_lineFeed h, hgroup, hgroup', Match.extend_groupStart, hline, Match.string,
    Match.string?]

end Java

end CodeIndex
