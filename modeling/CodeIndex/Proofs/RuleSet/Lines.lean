import CodeIndex.Proofs.RuleSet.Bodies
import CodeIndex.Proofs.Text.LineIndex

/-!
# Lines of items

An item reports the line of a place in the match where it was found. Matches do not overlap and come in
the order of the text, so the lines of the items of one scan never decrease, whichever of the matches
become items; items of several scans are put in that order.
-/

namespace CodeIndex

/-! ### Lines of a text -/

/-- A line of a text, counted from 1. -/
def Text.HasLine (t : Text) (line : UInt64) : Prop :=
  1 ≤ line.toNat ∧ line.toNat ≤ 1 + t.count '\n'

/-- Lines of a text that never decrease. -/
structure Text.OrdersLines (t : Text) (lines : List UInt64) : Prop where
  within : ∀ line ∈ lines, t.HasLine line
  rising : lines.Pairwise (· ≤ ·)

namespace Text

theorem OrdersLines.nil (t : Text) : t.OrdersLines [] :=
  ⟨fun _ h => (by cases h), .nil⟩

theorem OrdersLines.sublist {t : Text} {lines some : List UInt64} (h : t.OrdersLines lines)
    (hs : some.Sublist lines) : t.OrdersLines some :=
  ⟨fun line hline => h.within line (hs.subset hline), h.rising.sublist hs⟩

theorem count_le_width (t : Text) (c : Char) : t.count c ≤ t.width := by
  induction t with
  | nil => exact Nat.le_refl 0
  | cons d rest ih =>
    have hpos := d.utf8Size_pos
    rw [List.count_cons, width]
    split <;> omega

theorem takeBytes_width_le (t : Text) (n : Nat) : (t.takeBytes n).width ≤ n := by
  induction t generalizing n with
  | nil => exact Nat.zero_le n
  | cons c rest ih =>
    rw [takeBytes]
    split
    · have hrest := ih (n - c.utf8Size)
      rw [width]
      omega
    · exact Nat.zero_le n

theorem takeWhile_width_le (t : Text) (p : Char → Bool) : Text.width (t.takeWhile p) ≤ t.width := by
  have hparts := congrArg width (List.takeWhile_append_dropWhile (p := p) (l := t))
  rw [width_append] at hparts
  omega

end Text

/-- The offsets of items that are put in their order. -/
theorem mergeSort_offsets {α : Type} (found : List (Nat × α)) :
    (found.mergeSort fun a b => a.1 ≤ b.1).Pairwise fun a b => a.1 ≤ b.1 :=
  (List.pairwise_mergeSort (fun a b c => by simp only [decide_eq_true_eq]; omega)
    (fun a b => by simp only [Bool.or_eq_true, decide_eq_true_eq]; omega) found).imp fun h => of_decide_eq_true h

section

variable {t : Text} (hsize : t.width < bound63)

include hsize

theorem lineNumber_toNat (offset : Nat) :
    ((LineIndex.ofText t).lineNumber offset).toNat = (LineIndex.ofText t).lineAt offset := by
  have hle := LineIndex.lineAt_le t offset
  have hcount := t.count_le_width '\n'
  have hbound : bound63 + 1 < UInt64.size := by decide
  exact UInt64.toNat_ofNat_of_lt' (by omega)

theorem hasLine_lineNumber (offset : Nat) : t.HasLine ((LineIndex.ofText t).lineNumber offset) := by
  rw [Text.HasLine, lineNumber_toNat hsize]
  have hle := LineIndex.lineAt_le t offset
  have hpos : 1 ≤ (LineIndex.ofText t).lineAt offset := Nat.succ_pos _
  omega

/-- The lines of places that never decrease. -/
theorem ordersLines_places (places : List Nat) (h : places.Pairwise (· ≤ ·)) :
    t.OrdersLines (places.map (LineIndex.ofText t).lineNumber) := by
  constructor
  · intro line hline
    obtain ⟨offset, -, rfl⟩ := List.mem_map.mp hline
    exact hasLine_lineNumber hsize offset
  · refine h.map _ fun offset later hle => ?_
    rw [UInt64.le_iff_toNat_le, lineNumber_toNat hsize, lineNumber_toNat hsize]
    exact LineIndex.lineAt_mono t hle

/-! ### Items of a scan -/

/-- The lines of places in the matches of a scan. -/
theorem ordersLines_matches (r : Regex) (place : Cursor) (at_ : Match → Nat)
    (hat : ∀ m : Match, m.LiesBehind place → m.start.offset ≤ at_ m ∧ at_ m ≤ m.stop.offset) :
    t.OrdersLines ((r.findAllFrom place).map fun m => (LineIndex.ofText t).lineNumber (at_ m)) := by
  have hsorted : (r.findAllFrom place).Pairwise fun a b => at_ a ≤ at_ b := by
    refine (r.scan_sorted (·.stop.offset) place).imp_of_mem fun {a b} ha hb hab => ?_
    have hlater := hat a (r.scan_liesBehind _ place a ha)
    have hearlier := hat b (r.scan_liesBehind _ place b hb)
    omega
  have hplaces := ordersLines_places hsize _ (hsorted.map at_ fun _ _ h => h)
  rwa [List.map_map] at hplaces

theorem ordersLines_starts (r : Regex) (place : Cursor) :
    t.OrdersLines ((r.findAllFrom place).map fun m => (LineIndex.ofText t).lineNumber m.start.offset) :=
  ordersLines_matches hsize r place _ fun _ h => ⟨Nat.le_refl _, h.stop.offset_le⟩

theorem ordersLines_groups (r : Regex) (place : Cursor) (label : Nat) :
    t.OrdersLines ((r.findAllFrom place).map fun m =>
      (LineIndex.ofText t).lineNumber (m.groupStart label)) :=
  ordersLines_matches hsize r place _ fun _ h => h.groups label

/-- The lines of items found at places and put in the order of the places. -/
theorem ordersLines_sorted {α : Type} (line : α → UInt64) (found : List (Nat × α))
    (h : ∀ f ∈ found, line f.2 = (LineIndex.ofText t).lineNumber f.1) :
    t.OrdersLines ((inSourceOrder found).map line) := by
  have hplaces := ordersLines_places hsize ((found.mergeSort fun a b => a.1 ≤ b.1).map (·.1))
    ((mergeSort_offsets found).map _ fun _ _ hle => hle)
  have hsame : ((found.mergeSort fun a b => a.1 ≤ b.1).map (·.1)).map (LineIndex.ofText t).lineNumber =
      (inSourceOrder found).map line := by
    rw [inSourceOrder, List.map_map, List.map_map]
    exact List.map_congr_left fun f hf => (h f (List.mem_mergeSort.mp hf)).symm
  rwa [hsame] at hplaces

end

/-! ### Items that steps make -/

section

variable {α β γ : Type} (make : α → Option β) (line : β → γ) (lineOf : α → γ)
  (h : ∀ a b, make a = some b → line b = lineOf a)

include h

theorem lines_mapM (list : List α) (items : List β) (hitems : list.mapM make = some items) :
    items.map line = list.map lineOf := by
  have hall := mapM_forall₂ make list items hitems
  clear hitems
  induction hall with
  | nil => rfl
  | cons hab _ ih => rw [List.map_cons, List.map_cons, h _ _ hab, ih]

theorem lines_filterMap (list : List α) :
    ((list.filterMap make).map line).Sublist (list.map lineOf) := by
  induction list with
  | nil => exact .slnil
  | cons a rest ih =>
    cases ha : make a with
    | none =>
      rw [List.filterMap_cons_none ha]
      exact ih.cons _
    | some b =>
      rw [List.filterMap_cons_some ha, List.map_cons, List.map_cons, h a b ha]
      exact ih.cons_cons _

end

/-- Items that are each made on the line of their match, with what holds of each item. -/
theorem mapM_ordersLines {α β : Type} {t : Text} (make : α → Option β) (line : β → UInt64)
    (lineOf : α → UInt64) (Made : β → Prop)
    (h : ∀ a b, make a = some b → line b = lineOf a ∧ Made b) (list : List α)
    (hlist : t.OrdersLines (list.map lineOf)) (items : List β) (hitems : list.mapM make = some items) :
    t.OrdersLines (items.map line) ∧ ∀ b ∈ items, Made b := by
  constructor
  · rw [lines_mapM make line lineOf (fun a b hb => (h a b hb).1) list items hitems]
    exact hlist
  · intro b hb
    obtain ⟨a, -, ha⟩ := mapM_mem make list items hitems b hb
    exact (h a b ha).2

/-- The lines of items of which several may come from one match. -/
theorem Text.OrdersLines.flatMap {α β : Type} {t : Text} (list : List α) (items : α → List β)
    (line : β → UInt64) (lineOf : α → UInt64) (h : ∀ a, ∀ b ∈ items a, line b = lineOf a)
    (hlist : t.OrdersLines (list.map lineOf)) : t.OrdersLines ((list.flatMap items).map line) := by
  rw [List.map_flatMap]
  have hitems : ∀ a, ∀ l ∈ (items a).map line, l = lineOf a := by
    intro a l hl
    obtain ⟨b, hb, rfl⟩ := List.mem_map.mp hl
    exact h a b hb
  constructor
  · intro l hl
    obtain ⟨a, ha, hl⟩ := List.mem_flatMap.mp hl
    rw [hitems a l hl]
    exact hlist.within _ (List.mem_map_of_mem ha)
  · refine List.pairwise_flatMap.mpr ⟨fun a _ => ?_, ?_⟩
    · refine List.pairwise_of_forall_mem_list fun l hl k hk => ?_
      rw [hitems a l hl, hitems a k hk]
      exact UInt64.le_refl _
    · refine (List.pairwise_map.mp hlist.rising).imp fun {a b} hle l hl k hk => ?_
      rw [hitems a l hl, hitems b k hk]
      exact hle

/-! ### Descriptions -/

/-- A class whose members are each listed on lines that never decrease. -/
structure ClassDecl.OrdersLines (c : ClassDecl) (t : Text) : Prop where
  methods : t.OrdersLines (c.methods.map (·.line))
  properties : t.OrdersLines (c.properties.map (·.line))
  constructors : t.OrdersLines (c.constructors.map (·.line))

/-- A description whose items are on lines of its text; those of each list other than the functions never
decrease. -/
structure Description.OrdersLines (d : Description) (t : Text) : Prop where
  classes : t.OrdersLines (d.classes.map (·.line))
  members : ∀ c ∈ d.classes, c.OrdersLines t
  functions : ∀ f ∈ d.functions, t.HasLine f.line
  imports : t.OrdersLines (d.imports.map (·.line))
  exports : t.OrdersLines (d.exports.map (·.line))
  interfaces : t.OrdersLines (d.interfaces.map (·.line))
  fields : ∀ i ∈ d.interfaces, t.OrdersLines (i.properties.map (·.line))
  includes : t.OrdersLines (d.includes.map (·.line))
  structures : t.OrdersLines (d.structures.map (·.line))

end CodeIndex
