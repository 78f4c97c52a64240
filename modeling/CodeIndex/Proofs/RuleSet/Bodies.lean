import CodeIndex.Proofs.Regex.Scan
import CodeIndex.Proofs.Structure.ParameterList
import CodeIndex.Proofs.Text.Brace
import CodeIndex.RuleSet.Basic
import Mathlib.Data.List.Forall2

/-!
# Bodies and blocks of matches

A match whose last character is an opening brace, in a text or in a masked body of it, stands in front
of a block of the text. The body behind a header is missing in one case: the block is never closed and
the text ends in a character of several bytes.
-/

namespace CodeIndex

/-! ### Lists of steps that may fail -/

theorem mapM_eq_none {α β : Type} (f : α → Option β) (list : List α) :
    list.mapM f = none ↔ ∃ a ∈ list, f a = none := by
  induction list with
  | nil =>
    constructor
    · intro h
      cases h
    · rintro ⟨_, h, -⟩
      cases h
  | cons a rest ih =>
    rw [List.mapM_cons]
    cases ha : f a with
    | none => exact ⟨fun _ => ⟨a, List.mem_cons_self, ha⟩, fun _ => rfl⟩
    | some b =>
      have hrest : (do let b ← some b; let bs ← rest.mapM f; pure (b :: bs)) = none ↔
          rest.mapM f = none := by
        cases rest.mapM f with
        | none => exact Iff.rfl
        | some bs => exact ⟨fun h => (by cases h), fun h => (by cases h)⟩
      rw [hrest, ih]
      constructor
      · rintro ⟨x, hx, hnone⟩
        exact ⟨x, List.mem_cons_of_mem a hx, hnone⟩
      · rintro ⟨x, hx, hnone⟩
        rcases List.mem_cons.mp hx with rfl | hx
        · rw [ha] at hnone
          cases hnone
        · exact ⟨x, hx, hnone⟩

theorem mapM_exists {α β : Type} (f : α → Option β) (list : List α)
    (h : ∀ a ∈ list, ∃ b, f a = some b) : ∃ bs, list.mapM f = some bs := by
  cases hall : list.mapM f with
  | some bs => exact ⟨bs, rfl⟩
  | none =>
    obtain ⟨a, ha, hnone⟩ := (mapM_eq_none f list).mp hall
    obtain ⟨b, hb⟩ := h a ha
    rw [hb] at hnone
    cases hnone

theorem mapM_forall₂ {α β : Type} (f : α → Option β) (list : List α) (bs : List β)
    (h : list.mapM f = some bs) : List.Forall₂ (fun a b => f a = some b) list bs := by
  induction list generalizing bs with
  | nil =>
    cases h
    exact .nil
  | cons a rest ih =>
    rw [List.mapM_cons] at h
    cases ha : f a with
    | none =>
      rw [ha] at h
      cases h
    | some b =>
      cases hrest : rest.mapM f with
      | none =>
        rw [ha, hrest] at h
        cases h
      | some later =>
        rw [ha, hrest] at h
        cases h
        exact .cons ha (ih later hrest)

/-- A reading of the results that the items determine. -/
theorem map_of_mapM {α β γ : Type} {f : α → Option β} {g : β → γ} {h : α → γ} {as : List α} {bs : List β}
    (hall : as.mapM f = some bs) (hread : ∀ a b, f a = some b → g b = h a) : bs.map g = as.map h := by
  have hpairs := mapM_forall₂ f as bs hall
  clear hall
  induction hpairs with
  | nil => rfl
  | cons hab _ ih => rw [List.map_cons, List.map_cons, hread _ _ hab, ih]

theorem mapM_mem {α β : Type} (f : α → Option β) (list : List α) (bs : List β)
    (h : list.mapM f = some bs) (b : β) (hb : b ∈ bs) : ∃ a ∈ list, f a = some b := by
  have hall := mapM_forall₂ f list bs h
  obtain ⟨i, hi, rfl⟩ := List.mem_iff_getElem.mp hb
  have hlength := hall.length_eq
  exact ⟨list[i], List.getElem_mem _, hall.get (by omega) hi⟩

theorem mapM_of_mem {α β : Type} {f : α → Option β} {list : List α} {bs : List β} (h : list.mapM f = some bs)
    {a : α} (ha : a ∈ list) : ∃ b ∈ bs, f a = some b := by
  have hall := mapM_forall₂ f list bs h
  obtain ⟨i, hi, rfl⟩ := List.mem_iff_getElem.mp ha
  have hlength := hall.length_eq
  exact ⟨bs[i], List.getElem_mem _, hall.get hi (by omega)⟩

/-! ### Matches in front of a block -/

/-- A match that ends behind an opening brace of a text. -/
def Match.OpensBlock (m : Match) (t : Text) : Prop :=
  ∃ before rest : Text, t = before ++ '{' :: rest ∧ m.stop.offset = before.width + 1

theorem Match.OpensBlock.complexity {m : Match} {t : Text} (h : m.OpensBlock t) :
    ∃ n, blockComplexity? t (m.stop.offset - 1) = some n := by
  obtain ⟨before, rest, rfl, hstop⟩ := h
  obtain ⟨block, hblock⟩ := blockText?_brace before rest
  rw [hstop, Nat.add_sub_cancel, blockComplexity?, hblock]
  exact ⟨_, rfl⟩

theorem Match.OpensBlock.end_le {m : Match} {t : Text} (h : m.OpensBlock t) :
    (balancedBlock t (m.stop.offset - 1)).2 ≤ t.width := by
  obtain ⟨before, rest, rfl, hstop⟩ := h
  rw [hstop, Nat.add_sub_cancel]
  exact balancedBlock_le before rest

/-- A match in a text that ends in an opening brace, with the text behind it. -/
theorem Match.LiesBehind.opening {m : Match} {t : Text} (h : m.LiesBehind t.start)
    (hlast : m.stop.before = some '{') :
    ∃ before : Text, t = before ++ '{' :: m.stop.rest ∧ m.stop.offset = before.width + 1 := by
  obtain ⟨passed, hsplit, hoffset, hbefore⟩ := h.split
  obtain ⟨before, hpassed⟩ := List.getLast?_eq_some_iff.mp (hbefore.symm.trans hlast)
  refine ⟨before, ?_, ?_⟩
  · rw [hsplit, hpassed, List.append_assoc, List.singleton_append]
  · rw [hoffset, hpassed, Text.width_append]
    rfl

theorem Match.LiesBehind.opensBlock {m : Match} {t : Text} (h : m.LiesBehind t.start)
    (hlast : m.stop.before = some '{') : m.OpensBlock t := by
  obtain ⟨before, hsplit, hoffset⟩ := h.opening hlast
  exact ⟨before, m.stop.rest, hsplit, hoffset⟩

/-! ### Masked bodies -/

/-- A place that starts the mask of a part of a text. -/
def Cursor.MasksPart (body : Cursor) (t : Text) : Prop :=
  ∃ before inner rest : Text, t = before ++ (inner ++ rest) ∧ body = ⟨none, before.width, maskNested inner⟩

/-- A match in a masked part that ends in an opening brace ends behind a brace of the text. -/
theorem Cursor.MasksPart.opensBlock {body : Cursor} {t : Text} (h : body.MasksPart t) {m : Match}
    (hm : m.LiesBehind body) (hlast : m.stop.before = some '{') : m.OpensBlock t := by
  obtain ⟨before, inner, rest, rfl, rfl⟩ := h
  obtain ⟨passed, hpassed⟩ := hm.stops
  have hbefore : passed.getLast? = some '{' := by
    rw [← hlast, hpassed.before]
    exact Option.or_none.symm
  obtain ⟨masked, rfl⟩ := List.getLast?_eq_some_iff.mp hbefore
  have hmask := hpassed.rest
  rw [List.append_assoc, List.singleton_append] at hmask
  obtain ⟨before', rest', rfl, hwidth⟩ := maskFrom_brace 0 inner masked m.stop.rest hmask
  refine ⟨before ++ before', rest' ++ rest, by simp, ?_⟩
  have hoffset := hpassed.offset
  rw [Text.width_append] at hoffset
  rw [hoffset, Text.width_append, hwidth, Nat.add_assoc]
  rfl

theorem Cursor.MasksPart.declaredComplexity {body : Cursor} {t : Text} (h : body.MasksPart t)
    {m : Match} (hm : m.LiesBehind body) : ∃ n, declaredComplexity? t m = some n := by
  rw [declaredComplexity?]
  split
  · next hlast => exact (h.opensBlock hm hlast).complexity
  · exact ⟨1, rfl⟩

/-- Whether the block behind a header of a text is never closed and the text ends in a character of
several bytes. -/
structure Match.CutsLast (header : Match) (t : Text) : Prop where
  opens : header.stop.rest.LeavesOpen
  wide : ∃ c, t.getLast? = some c ∧ 1 < c.utf8Size

theorem maskedBody?_opening (before rest : Text) (header : Match)
    (hstop : header.stop.offset = before.width + 1) :
    maskedBody? (before ++ '{' :: rest) header =
      ((before ++ '{' :: rest).slice? (before.width + 1)
        (max (blockEndFrom 1 (before.width + 1) rest - 1) (before.width + 1))).map fun body =>
          ⟨none, before.width + 1, maskNested body⟩ := by
  rw [maskedBody?, openingBrace, hstop, Nat.add_sub_cancel, balancedBlock_brace]

/-- The part of a text behind an opening brace. -/
theorem slice?_behind (before inner rest : Text) :
    (before ++ '{' :: (inner ++ rest)).slice? (before.width + 1) (before.width + 1 + inner.width) =
      some inner := by
  have h := Text.slice?_between (before ++ ['{']) inner rest
  have hone : Text.width ['{'] = 1 := rfl
  rwa [Text.width_append, hone, List.append_assoc, List.singleton_append] at h

/-- The body of a header where the slice of the text ends behind `inner`. -/
theorem maskedBody?_inner (before inner rest : Text) (header : Match)
    (hstop : header.stop.offset = before.width + 1)
    (hend : max (blockEndFrom 1 (before.width + 1) (inner ++ rest) - 1) (before.width + 1) =
      before.width + 1 + inner.width) :
    maskedBody? (before ++ '{' :: (inner ++ rest)) header =
      some ⟨none, before.width + 1, maskNested inner⟩ := by
  rw [maskedBody?_opening before _ header hstop, hend, slice?_behind]
  rfl

/-- A part of a text behind an opening brace. -/
theorem Cursor.masksPart_behind (before inner rest : Text) :
    Cursor.MasksPart ⟨none, before.width + 1, maskNested inner⟩ (before ++ '{' :: (inner ++ rest)) := by
  refine ⟨before ++ ['{'], inner, rest, ?_, ?_⟩
  · rw [List.append_assoc, List.singleton_append]
  · rw [Text.width_append]
    rfl

/-- The body behind a header masks a part of the text; there is none if the header cuts the last
character. -/
theorem maskedBody?_cases (t : Text) (header : Match) (h : header.LiesBehind t.start)
    (hlast : header.stop.before = some '{') :
    (∃ body, maskedBody? t header = some body ∧ body.MasksPart t) ∧ ¬header.CutsLast t ∨
      maskedBody? t header = none ∧ header.CutsLast t := by
  obtain ⟨before, hsplit, hstop⟩ := h.opening hlast
  -- a body that ends where the slice does
  have hbody : ∀ inner rest : Text, header.stop.rest = inner ++ rest →
      max (blockEndFrom 1 (before.width + 1) header.stop.rest - 1) (before.width + 1) =
        before.width + 1 + inner.width →
      ∃ body, maskedBody? t header = some body ∧ body.MasksPart t := by
    intro inner rest hrest hend
    rw [hrest] at hsplit hend
    rw [hsplit]
    exact ⟨_, maskedBody?_inner before inner rest header hstop hend, Cursor.masksPart_behind before inner rest⟩
  obtain ⟨inner, rest, hrest, hend, hclosed⟩ | ⟨hopen, hend⟩ :=
    blockEndFrom_brace (before.width + 1) header.stop.rest
  · exact Or.inl ⟨hbody inner ('}' :: rest) hrest (by omega), fun hcut => hclosed hcut.opens⟩
  · rcases List.eq_nil_or_concat header.stop.rest with hnil | ⟨inner, c, hrest⟩
    · refine Or.inl ⟨hbody [] [] hnil ?_, fun hcut => ?_⟩
      · rw [hend, hnil, Text.width]
        omega
      · obtain ⟨c, hc, hwide⟩ := hcut.wide
        rw [hsplit, hnil, List.getLast?_append, List.getLast?_singleton, Option.some_or] at hc
        cases hc
        exact absurd hwide (by decide)
    · have hlast : t.getLast? = some c := by
        rw [hsplit, hrest, List.concat_eq_append, ← List.cons_append, ← List.append_assoc,
          List.getLast?_append, List.getLast?_singleton, Option.some_or]
      have hpos := c.utf8Size_pos
      have hwidth : Text.width header.stop.rest = Text.width inner + c.utf8Size := by
        rw [hrest, List.concat_eq_append, Text.width_append, Text.width, Text.width, Nat.add_zero]
      rw [hwidth] at hend
      by_cases hwide : 1 < c.utf8Size
      · refine Or.inr ⟨?_, hopen, c, hlast, hwide⟩
        have hmax : max (blockEndFrom 1 (before.width + 1) header.stop.rest - 1) (before.width + 1) =
            before.width + 1 + (Text.width inner + (c.utf8Size - 1)) := by omega
        have hcut := Text.takeBytes?_inside inner c [] (c.utf8Size - 1) (by omega) (by omega)
        have hdrop := Text.dropBytes?_width (before ++ ['{']) (inner ++ [c])
        have hone : Text.width ['{'] = 1 := rfl
        rw [Text.width_append, hone, List.append_assoc, List.singleton_append] at hdrop
        rw [hsplit, maskedBody?_opening before _ header hstop, hmax, Text.slice?,
          if_pos (Nat.le_add_right ..), hrest, List.concat_eq_append, hdrop, Option.bind_some,
          Nat.add_sub_cancel_left, hcut]
        rfl
      · refine Or.inl ⟨hbody inner [c] (by rw [hrest, List.concat_eq_append]) (by omega), ?_⟩
        rintro ⟨-, d, hd, hwide'⟩
        rw [hlast] at hd
        cases hd
        exact hwide hwide'

/-- What is made of a body, where it never fails itself. -/
theorem body_bind_eq_none {α : Type} (t : Text) (header : Match) (h : header.LiesBehind t.start)
    (hlast : header.stop.before = some '{') (make : Cursor → Option α)
    (hmake : ∀ body : Cursor, body.MasksPart t → ∃ a, make body = some a) :
    (maskedBody? t header).bind make = none ↔ header.CutsLast t := by
  obtain ⟨⟨body, hbody, hpart⟩, hcut⟩ | ⟨hbody, hcut⟩ := maskedBody?_cases t header h hlast
  · obtain ⟨a, ha⟩ := hmake body hpart
    rw [hbody, Option.bind_some, ha]
    exact ⟨fun hnone => (by cases hnone), fun h => absurd h hcut⟩
  · rw [hbody]
    exact ⟨fun _ => hcut, fun _ => rfl⟩

/-- What is made of the bodies behind the headers of a scan. -/
theorem bodies_eq_none {α : Type} (r : Regex) (t : Text) (make : Match → Cursor → Option α)
    (hmake : ∀ header, ∀ body : Cursor, body.MasksPart t → ∃ a, make header body = some a) :
    (((r ++ Regex.char '{').findAll t).mapM fun header => (maskedBody? t header).bind (make header)) = none ↔
      ∃ header ∈ (r ++ Regex.char '{').findAll t, header.CutsLast t := by
  rw [mapM_eq_none]
  refine exists_congr fun header => and_congr_right fun h => ?_
  exact body_bind_eq_none t header (Regex.scan_liesBehind _ _ t.start header h)
    (Regex.scan_char _ _ _ _ header h) _ (hmake header)

end CodeIndex
