import CodeIndex.Proofs.Regex.Tried
import CodeIndex.Proofs.RuleSet.LastLineFeed

/-!
# Classes behind headers that are tried

A header that is taken at a place which the scan tries is found, and unless the text cannot be described there is
a class for it.
-/

namespace CodeIndex

open Regex

/-! ### Places behind a text -/

section

variable (before rest : Text)

theorem start_after_offset : ((before ++ rest).start.after before rest).offset = before.width :=
  Nat.zero_add _

theorem start_after_before : ((before ++ rest).start.after before rest).before = before.getLast? :=
  Option.or_none

theorem lineNumber_start_after :
    (LineIndex.ofText (before ++ rest)).lineNumber ((before ++ rest).start.after before rest).offset =
      .ofNat (before.count '\n' + 1) := by
  rw [start_after_offset, LineIndex.lineNumber, LineIndex.lineAt_width]

end

/-! ### Descriptions -/

theorem BraceRules.class_at {language : Language} (rules : BraceRules language)
    (hlanguage : language ∈ [.javaScript, .typeScript, .c, .cpp, .java]) {before passed rest : Text}
    {groups : List (Nat × Span)} (htried : rules.classHeader.TriesAt before (passed ++ rest))
    (htakes : rules.classHeader.Takes (before ++ (passed ++ rest)).length
      ((before ++ (passed ++ rest)).start.after before (passed ++ rest)) passed rest groups)
    (hcuts : ¬language.Cuts (before ++ (passed ++ rest))) :
    let t := before ++ (passed ++ rest)
    let place := t.start.after before (passed ++ rest)
    let header : Match := ⟨place, place.after passed rest, groups⟩
    ∃ d, Registry.standard.extract language t = .ok d ∧
      ∃ c ∈ d.classes, (maskedBody? t header).bind (rules.classWith? t header) = some c := by
  intro t place header
  obtain ⟨d, hd⟩ : ∃ d, rules.describe? t = some d := by
    refine Option.ne_none_iff_exists'.mp fun hnone => hcuts ?_
    exact (language.cuts_iff t hlanguage).mpr ((rules.describe?_eq_none t).mp hnone)
  obtain ⟨c, hc, hclass⟩ := mapM_of_mem (rules.classes_eq t d hd) (htried.mem_findAll htakes)
  exact ⟨d, by rw [rules.extract_eq, hd, foundOrCut], c, hc, hclass⟩

end CodeIndex
