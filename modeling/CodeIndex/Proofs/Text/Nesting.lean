import CodeIndex.Proofs.Text.Balance
import CodeIndex.Proofs.Text.ByteOrder
import Mathlib.Data.List.Infix

/-!
# Masks and blocks

A mask and the blocks of a text count braces each on its own, the mask over all of the text and a block from
its opening brace on. They see the same nesting: an opening brace of the mask opens a block of the text that
ends behind the next closing brace of the mask. What is inside of a block is blank in the mask, and what is
outside of all blocks stays, closing braces that close nothing apart. Of two blocks one is inside of the
other, or they have no place in common.
-/

namespace CodeIndex

/-! ### Characters at places -/

/-- Whether a character stands at a place of a text. -/
def Text.HasAt (t : Text) (c : Char) (place : Nat) : Prop :=
  ∃ before after : Text, t = before ++ c :: after ∧ before.width = place

namespace Text

theorem hasAt_append (t u : Text) (c : Char) (place : Nat) :
    (t ++ u).HasAt c place ↔ t.HasAt c place ∨ ∃ behind, u.HasAt c behind ∧ place = t.width + behind := by
  constructor
  · rintro ⟨before, after, h, rfl⟩
    obtain ⟨more, rfl, hu⟩ | ⟨more, rfl, hu⟩ := List.append_eq_append_iff.mp h
    · exact Or.inr ⟨_, ⟨more, after, hu, rfl⟩, width_append t more⟩
    · cases more with
      | nil => exact Or.inr ⟨0, ⟨[], after, hu.symm, rfl⟩, by rw [List.append_nil, Nat.add_zero]⟩
      | cons d more =>
        obtain ⟨rfl, -⟩ := List.cons.inj hu
        exact Or.inl ⟨before, more, rfl, rfl⟩
  · rintro (⟨before, after, rfl, rfl⟩ | ⟨behind, ⟨before, after, rfl, rfl⟩, rfl⟩)
    · exact ⟨before, after ++ u, by simp, rfl⟩
    · exact ⟨t ++ before, after, by simp, width_append t before⟩

theorem HasAt.mem {t : Text} {c : Char} {place : Nat} (h : t.HasAt c place) : c ∈ t := by
  obtain ⟨before, after, rfl, -⟩ := h
  simp

theorem HasAt.lt {t : Text} {c : Char} {place : Nat} (h : t.HasAt c place) : place < t.width := by
  obtain ⟨before, after, rfl, rfl⟩ := h
  have hpos := c.utf8Size_pos
  rw [width_append, width]
  omega

/-- A character that is not in a middle part is in front of it or behind it. -/
theorem HasAt.passes {front middle back : Text} {c : Char} {place : Nat} (hnone : c ∉ middle)
    (h : (front ++ (middle ++ back)).HasAt c place) :
    place < front.width ∨ front.width + middle.width ≤ place := by
  obtain hfront | ⟨behind, hrest, rfl⟩ := (hasAt_append front _ c place).mp h
  · exact Or.inl hfront.lt
  · obtain hmiddle | ⟨more, -, rfl⟩ := (hasAt_append middle back c behind).mp hrest
    · exact absurd hmiddle.mem hnone
    · omega

theorem hasAt_singleton (c d : Char) (place : Nat) : Text.HasAt [d] c place ↔ c = d ∧ place = 0 := by
  constructor
  · intro h
    obtain ⟨before, after, heq, rfl⟩ := h
    cases before with
    | nil =>
      obtain ⟨rfl, -⟩ := List.cons.inj heq
      exact ⟨rfl, rfl⟩
    | cons e before => simp at heq
  · rintro ⟨rfl, rfl⟩
    exact ⟨[], [], rfl, rfl⟩

theorem width_singleton (c : Char) : Text.width [c] = c.utf8Size := Nat.add_zero _

end Text

/-! ### Open blocks -/

/-- The number of open blocks behind a character; what closes nothing is passed over. -/
def blocksBehind (depth : Nat) (c : Char) : Nat :=
  if c = '{' then depth + 1 else if c = '}' then depth - 1 else depth

/-- The number of open blocks behind a text. -/
def openBlocks (depth : Nat) (t : Text) : Nat := t.foldl blocksBehind depth

/-- Whether some block that opens in a text is open behind it. -/
def Text.HasOpenBlock (t : Text) : Prop :=
  ∃ outer inner : Text, t = outer ++ '{' :: inner ∧ inner.LeavesOpen

theorem openBlocks_append (depth : Nat) (t u : Text) :
    openBlocks depth (t ++ u) = openBlocks (openBlocks depth t) u :=
  List.foldl_append

theorem hasOpenBlock_cons (c : Char) (t : Text) :
    Text.HasOpenBlock (c :: t) ↔ c = '{' ∧ t.LeavesOpen ∨ t.HasOpenBlock := by
  constructor
  · rintro ⟨outer, inner, h, hopen⟩
    cases outer with
    | nil =>
      obtain ⟨rfl, rfl⟩ := List.cons.inj h
      exact Or.inl ⟨rfl, hopen⟩
    | cons d outer =>
      obtain ⟨rfl, rfl⟩ := List.cons.inj h
      exact Or.inr ⟨outer, inner, rfl, hopen⟩
  · rintro (⟨rfl, hopen⟩ | ⟨outer, inner, rfl, hopen⟩)
    · exact ⟨[], t, rfl, hopen⟩
    · exact ⟨c :: outer, inner, rfl, hopen⟩

/-- Whether some of the blocks in front of a text, `depth` of them, stay open in it. -/
def StaysOpen (depth : Nat) (t : Text) : Prop :=
  ∀ before, before <+: t → before.count '}' < before.count '{' + depth

theorem staysOpen_one (t : Text) : StaysOpen 1 t ↔ t.LeavesOpen :=
  forall_congr' fun _ => imp_congr_right fun _ => Nat.lt_succ_iff

theorem staysOpen_cons (depth : Nat) (c : Char) (t : Text) :
    StaysOpen depth (c :: t) ↔ 0 < depth ∧ StaysOpen (blocksBehind depth c) t := by
  have hstep : ∀ before : Text, 0 < depth →
      ((c :: before).count '}' < (c :: before).count '{' + depth ↔
        before.count '}' < before.count '{' + blocksBehind depth c) := by
    intro before hpos
    unfold blocksBehind
    simp only [List.count_cons, beq_iff_eq]
    split
    · next hc =>
      subst hc
      simp only [Char.reduceEq, ite_false]
      omega
    · split
      · next hc => omega
      · omega
  constructor
  · intro h
    have hpos : 0 < depth := by simpa using h [] List.nil_prefix
    refine ⟨hpos, fun before hb => ?_⟩
    exact (hstep before hpos).mp (h (c :: before) (List.cons_prefix_cons.mpr ⟨rfl, hb⟩))
  · rintro ⟨hpos, h⟩ before hb
    cases before with
    | nil => simpa using hpos
    | cons d before =>
      obtain ⟨rfl, hrest⟩ := List.cons_prefix_cons.mp hb
      exact (hstep before hpos).mpr (h before hrest)

/-- Blocks are open behind a text if it opens one and leaves it open, or leaves some in front of it open. -/
theorem openBlocks_pos (depth : Nat) (t : Text) :
    0 < openBlocks depth t ↔ t.HasOpenBlock ∨ StaysOpen depth t := by
  induction t generalizing depth with
  | nil => simp [openBlocks, Text.HasOpenBlock, StaysOpen]
  | cons c t ih =>
    change 0 < openBlocks (blocksBehind depth c) t ↔ _
    rw [ih, hasOpenBlock_cons, staysOpen_cons]
    unfold blocksBehind
    by_cases hopening : c = '{'
    · rw [if_pos hopening, ← staysOpen_one]
      -- with nothing open in front, the block that opens here is the only one to stay open
      have hone : StaysOpen 1 t → StaysOpen (depth + 1) t := fun h before hb => by
        have hlt := h before hb
        omega
      cases depth with
      | zero => tauto
      | succ depth =>
        have hpos := Nat.succ_pos depth
        tauto
    · rw [if_neg hopening]
      have hpos : ∀ n, n ≤ depth → StaysOpen n t → 0 < depth := fun n hn h => by
        have hlt := h [] List.nil_prefix
        simp only [List.count_nil] at hlt
        omega
      split
      · have hdepth := hpos (depth - 1) (by omega)
        tauto
      · have hdepth := hpos depth le_rfl
        tauto

theorem hasOpenBlock_iff (t : Text) : t.HasOpenBlock ↔ 0 < openBlocks 0 t := by
  rw [openBlocks_pos, or_iff_left]
  intro h
  exact Nat.lt_irrefl 0 (h [] List.nil_prefix)

instance (t : Text) : Decidable t.HasOpenBlock :=
  decidable_of_iff _ (hasOpenBlock_iff t).symm

/-! ### Pieces of a mask -/

theorem maskFrom_eq (depth : Nat) (c : Char) (rest : Text) :
    maskFrom depth (c :: rest) = maskFrom depth [c] ++ maskFrom (blocksBehind depth c) rest := by
  simp only [maskFrom, blocksBehind, beq_iff_eq]
  split
  · rfl
  · split
    · rfl
    · split
      · rfl
      · split
        · simp
        · rfl

theorem maskFrom_append (depth : Nat) (t u : Text) :
    maskFrom depth (t ++ u) = maskFrom depth t ++ maskFrom (openBlocks depth t) u := by
  induction t generalizing depth with
  | nil => rfl
  | cons c t ih =>
    rw [List.cons_append, maskFrom_eq, ih, maskFrom_eq depth c t, List.append_assoc]
    rfl

theorem maskFrom_singleton (depth : Nat) (c : Char) :
    maskFrom depth [c] =
      if c = '{' then [if depth = 0 then '{' else ' ']
      else if c = '}' then [if depth = 1 then '}' else ' ']
      else if c = '\n' then ['\n']
      else if 0 < depth then List.replicate c.utf8Size ' '
      else [c] := by
  simp only [maskFrom, beq_iff_eq, List.append_nil]

/-- Outside of blocks a character stays, and so does the brace that closes the outermost block. -/
theorem maskFrom_outside (depth : Nat) (c : Char) (h : depth = 0 ∨ blocksBehind depth c = 0)
    (hclosing : c = '}' → 0 < depth) : maskFrom depth [c] = [c] := by
  unfold blocksBehind at h
  rw [maskFrom_singleton]
  split
  · next hc =>
    subst hc
    have hdepth : depth = 0 := by simpa using h
    rw [if_pos hdepth]
  · split
    · next hc =>
      subst hc
      have hpos := hclosing rfl
      have hdepth : depth = 1 := by
        simp only [Char.reduceEq, ite_false, ite_true] at h
        omega
      rw [if_pos hdepth]
    · next hopening hnot =>
      rw [if_neg hopening, if_neg hnot, or_self] at h
      split
      · next hfeed => rw [hfeed]
      · rw [if_neg (by omega)]

theorem maskFrom_stray : maskFrom 0 ['}'] = [' '] := rfl

/-- Inside of a block there is only white space. -/
theorem maskFrom_inside (depth : Nat) (c : Char) (h : 0 < depth) (hbehind : 0 < blocksBehind depth c) :
    Text.Blanks (maskFrom depth [c]) [c] := by
  refine ⟨maskFrom_width depth [c], ?_⟩
  unfold blocksBehind at hbehind
  rw [maskFrom_singleton]
  split
  · next hc =>
    rw [if_neg (by omega)]
    simp
  · split
    · next hopening hc =>
      rw [if_neg hopening, if_pos hc] at hbehind
      rw [if_neg (by omega)]
      simp
    · split
      · simp
      · intro d hd
        exact Or.inl (List.eq_of_mem_replicate hd)

/-! ### Line feeds and opening braces -/

theorem maskFrom_lineFeed (depth : Nat) (c : Char) (place : Nat) :
    (maskFrom depth [c]).HasAt '\n' place ↔ Text.HasAt [c] '\n' place := by
  by_cases hc : c = '\n'
  · subst hc
    exact Iff.rfl
  · have hmask : '\n' ∉ maskFrom depth [c] := by
      simp only [maskFrom, beq_iff_eq]
      repeat' split
      all_goals simp_all [eq_comm]
    exact iff_of_false (fun h => hmask h.mem) fun h => hc (List.mem_singleton.mp h.mem).symm

theorem lineFeed_maskFrom (depth : Nat) (t : Text) (place : Nat) :
    (maskFrom depth t).HasAt '\n' place ↔ t.HasAt '\n' place := by
  induction t generalizing depth place with
  | nil => exact Iff.rfl
  | cons c t ih =>
    have htext := Text.hasAt_append [c] t '\n' place
    rw [List.singleton_append] at htext
    rw [maskFrom_eq, Text.hasAt_append, htext, maskFrom_lineFeed, maskFrom_width]
    simp only [ih]

theorem opening_of_mem (depth : Nat) (c : Char) (h : '{' ∈ maskFrom depth [c]) : c = '{' ∧ depth = 0 := by
  rw [maskFrom_singleton] at h
  split at h
  · next hc =>
    refine ⟨hc, ?_⟩
    by_contra hdepth
    rw [if_neg hdepth] at h
    exact absurd h (by decide)
  · next hc =>
    exfalso
    split at h
    · split at h <;> exact absurd h (by decide)
    · split at h
      · exact absurd h (by decide)
      · split at h
        · exact absurd (List.eq_of_mem_replicate h) (by decide)
        · exact hc (List.mem_singleton.mp h).symm

/-- An opening brace of a mask stands where the text has one and nothing is open. -/
theorem opening_maskFrom (depth : Nat) (t : Text) (place : Nat) (h : (maskFrom depth t).HasAt '{' place) :
    ∃ before rest : Text, t = before ++ '{' :: rest ∧ before.width = place ∧ openBlocks depth before = 0 := by
  induction t generalizing depth place with
  | nil => cases h.mem
  | cons c t ih =>
    rw [maskFrom_eq, Text.hasAt_append] at h
    obtain hpiece | ⟨behind, hrest, rfl⟩ := h
    · obtain ⟨rfl, rfl⟩ := opening_of_mem depth c hpiece.mem
      obtain ⟨-, rfl⟩ := (Text.hasAt_singleton '{' '{' place).mp hpiece
      exact ⟨[], t, rfl, rfl, rfl⟩
    · obtain ⟨before, rest, rfl, rfl, hopen⟩ := ih _ _ hrest
      refine ⟨c :: before, rest, rfl, ?_, hopen⟩
      rw [maskFrom_width, Text.width_singleton, Text.width]

/-! ### Masks of masks -/

theorem maskFrom_spaces (depth n : Nat) : maskFrom depth (List.replicate n ' ') = List.replicate n ' ' := by
  induction n with
  | zero => rfl
  | succ n ih =>
    have hspace : maskFrom depth [' '] = [' '] := by
      rw [maskFrom_singleton, if_neg (by decide), if_neg (by decide), if_neg (by decide)]
      split <;> rfl
    rw [List.replicate_succ, maskFrom_eq, hspace]
    exact congrArg (' ' :: ·) ih

theorem openBlocks_spaces (depth n : Nat) : openBlocks depth (List.replicate n ' ') = depth := by
  induction n with
  | zero => rfl
  | succ n ih => exact ih

/-- Read again, a piece of a mask stays as it is, and at most the outermost block is open behind it. -/
theorem maskFrom_piece (depth : Nat) (c : Char) :
    maskFrom (min depth 1) (maskFrom depth [c]) = maskFrom depth [c] ∧
      openBlocks (min depth 1) (maskFrom depth [c]) = min (blocksBehind depth c) 1 := by
  by_cases hopening : c = '{'
  · subst hopening
    cases depth with
    | zero => exact ⟨rfl, rfl⟩
    | succ depth =>
      rw [Nat.min_eq_right (Nat.succ_pos depth), blocksBehind, if_pos rfl, Nat.min_eq_right (by omega)]
      exact ⟨rfl, rfl⟩
  · by_cases hclosing : c = '}'
    · subst hclosing
      match depth with
      | 0 => exact ⟨rfl, rfl⟩
      | 1 => exact ⟨rfl, rfl⟩
      | depth + 2 =>
        rw [Nat.min_eq_right (by omega), maskFrom_singleton, if_neg hopening, if_pos rfl, if_neg (by omega),
          blocksBehind, if_neg hopening, if_pos rfl, Nat.min_eq_right (by omega)]
        exact ⟨rfl, rfl⟩
    · rw [blocksBehind, if_neg hopening, if_neg hclosing]
      by_cases hfeed : c = '\n'
      · subst hfeed
        exact ⟨rfl, rfl⟩
      · rw [maskFrom_singleton depth, if_neg hopening, if_neg hclosing, if_neg hfeed]
        split
        · exact ⟨maskFrom_spaces _ _, openBlocks_spaces _ _⟩
        · next hdepth =>
          have hzero : depth = 0 := by omega
          subst hzero
          refine ⟨?_, ?_⟩
          · rw [maskFrom_singleton, if_neg hopening, if_neg hclosing, if_neg hfeed]
            rfl
          · change blocksBehind 0 c = 0
            rw [blocksBehind, if_neg hopening, if_neg hclosing]

theorem maskFrom_maskFrom (depth : Nat) (t : Text) :
    maskFrom (min depth 1) (maskFrom depth t) = maskFrom depth t := by
  induction t generalizing depth with
  | nil => rfl
  | cons c t ih =>
    obtain ⟨hpiece, hopen⟩ := maskFrom_piece depth c
    rw [maskFrom_eq depth c t, maskFrom_append, hpiece, hopen, ih]

/-! ### Ends of blocks in a mask -/

theorem blocksBehind_mono {depth deeper : Nat} (c : Char) (h : depth ≤ deeper) :
    blocksBehind depth c ≤ blocksBehind deeper c := by
  unfold blocksBehind
  split
  · omega
  · split <;> omega

/-- Unless a character closes the last block, the end is looked for behind it. -/
theorem blockEndFrom_cons (depth offset : Nat) (c : Char) (t : Text) (h : 0 < depth) :
    (0 < blocksBehind depth c ∧
      blockEndFrom depth offset (c :: t) = blockEndFrom (blocksBehind depth c) (offset + c.utf8Size) t) ∨
    (c = '}' ∧ depth = 1 ∧ blockEndFrom depth offset (c :: t) = offset + 1) := by
  unfold blocksBehind
  rw [blockEndFrom]
  simp only [beq_iff_eq]
  split
  · exact Or.inl ⟨Nat.succ_pos depth, rfl⟩
  · split
    · next hc =>
      subst hc
      split
      · exact Or.inr ⟨rfl, by omega, rfl⟩
      · exact Or.inl ⟨by omega, rfl⟩
    · exact Or.inl ⟨h, rfl⟩

/-- Blocks that are open in front of a text end behind the first closing brace of its mask, or with it. -/
theorem blockEndFrom_mask (depth offset : Nat) (t : Text) (h : 0 < depth) :
    (∃ inner after : Text, maskFrom depth t = inner ++ '}' :: after ∧ '}' ∉ inner ∧
      blockEndFrom depth offset t = offset + inner.width + 1) ∨
    ('}' ∉ maskFrom depth t ∧ blockEndFrom depth offset t = offset + t.width) := by
  induction t generalizing depth offset with
  | nil => exact Or.inr ⟨List.not_mem_nil, rfl⟩
  | cons c t ih =>
    obtain ⟨hbehind, hend⟩ | ⟨rfl, rfl, hend⟩ := blockEndFrom_cons depth offset c t h
    · have hblank := maskFrom_inside depth c h hbehind
      have hpiece : '}' ∉ maskFrom depth [c] := by
        intro hmem
        obtain hspace | hfeed := hblank.only _ hmem
        · cases hspace
        · cases hfeed
      have hwidth : (maskFrom depth [c]).width = c.utf8Size := maskFrom_width depth [c]
      rw [maskFrom_eq, hend]
      obtain ⟨inner, after, hmask, hinner, hplace⟩ | ⟨hmask, hplace⟩ := ih _ (offset + c.utf8Size) hbehind
      · refine Or.inl ⟨maskFrom depth [c] ++ inner, after, ?_, ?_, ?_⟩
        · rw [hmask, List.append_assoc]
        · rw [List.mem_append, not_or]
          exact ⟨hpiece, hinner⟩
        · rw [hplace, Text.width_append, hwidth]
          omega
      · refine Or.inr ⟨?_, ?_⟩
        · rw [List.mem_append, not_or]
          exact ⟨hpiece, hmask⟩
        · rw [hplace, Text.width]
          omega
    · exact Or.inl ⟨[], maskFrom 0 t, rfl, List.not_mem_nil, hend⟩

/-! ### Blocks in blocks -/

theorem blockEndFrom_ge (depth offset : Nat) (t : Text) : offset ≤ blockEndFrom depth offset t := by
  fun_induction blockEndFrom depth offset t <;> omega

/-- Where more blocks are open, they end later. -/
theorem blockEndFrom_mono (depth deeper offset : Nat) (t : Text) (h : 0 < depth) (hle : depth ≤ deeper) :
    blockEndFrom depth offset t ≤ blockEndFrom deeper offset t := by
  induction t generalizing depth deeper offset with
  | nil => exact Nat.le_refl _
  | cons c t ih =>
    have hmono := blocksBehind_mono c hle
    obtain ⟨hbehind, hend⟩ | ⟨rfl, rfl, hend⟩ := blockEndFrom_cons depth offset c t h
    · obtain ⟨-, hend'⟩ | ⟨rfl, rfl, -⟩ := blockEndFrom_cons deeper offset c t (by omega)
      · rw [hend, hend']
        exact ih _ _ _ hbehind hmono
      · -- the deeper blocks end here, so the others have ended too
        have hzero : blocksBehind 1 '}' = 0 := rfl
        omega
    · obtain ⟨-, hend'⟩ | ⟨-, -, hend'⟩ := blockEndFrom_cons deeper offset '}' t (by omega)
      · rw [hend, hend']
        exact blockEndFrom_ge _ _ t
      · rw [hend, hend']

/-- Blocks that are open in front of a text end in it, or some are open behind it. -/
theorem blockEndFrom_within (depth offset : Nat) (t u : Text) (h : 0 < depth) :
    blockEndFrom depth offset (t ++ u) ≤ offset + t.width ∨
    ∃ deeper, 0 < deeper ∧ blockEndFrom depth offset (t ++ u) = blockEndFrom deeper (offset + t.width) u := by
  induction t generalizing depth offset with
  | nil => exact Or.inr ⟨depth, h, rfl⟩
  | cons c t ih =>
    rw [List.cons_append, Text.width, ← Nat.add_assoc]
    obtain ⟨hbehind, hend⟩ | ⟨rfl, -, hend⟩ := blockEndFrom_cons depth offset c (t ++ u) h
    · rw [hend]
      exact ih _ _ hbehind
    · rw [hend, closing_utf8Size]
      exact Or.inl (Nat.le_add_right _ _)

/-- Of two opening braces, the later one opens a block inside of the block of the other, or behind it. -/
theorem balancedBlock_apart (t : Text) (i j : Nat) (hi : t.HasAt '{' i) (hj : t.HasAt '{' j) (h : i < j) :
    (balancedBlock t j).2 ≤ (balancedBlock t i).2 ∨ (balancedBlock t i).2 ≤ j := by
  obtain ⟨before, rest, rfl, rfl⟩ := hi
  obtain ⟨before', rest', hsplit, rfl⟩ := hj
  rw [hsplit, balancedBlock_brace, ← hsplit, balancedBlock_brace]
  -- the later brace is in what follows the earlier one, whose block ends before it or is open there
  obtain ⟨more, rfl, hmore⟩ | ⟨more, rfl, -⟩ := List.append_eq_append_iff.mp hsplit
  · cases more with
    | nil => simp at h
    | cons d more =>
      obtain ⟨rfl, hrest⟩ := List.cons.inj hmore
      have hrest : rest = more ++ '{' :: rest' := hrest
      have hplace : Text.width (before ++ '{' :: more) = before.width + 1 + Text.width more := by
        rw [Text.width_append, Text.width, opening_utf8Size, Nat.add_assoc]
      rw [hplace, hrest]
      obtain hle | ⟨deeper, hdeeper, hend⟩ :=
        blockEndFrom_within 1 (before.width + 1) more ('{' :: rest') Nat.one_pos
      · exact Or.inr hle
      · refine Or.inl ?_
        rw [hend]
        exact blockEndFrom_mono 1 (deeper + 1) _ rest' Nat.one_pos (by omega)
  · rw [Text.width_append] at h
    omega

/-! ### Blocks in bytes -/

/-- The place after the byte that closes `depth` open blocks, or the end of the bytes. -/
def blockEndInBytes : (depth offset : Nat) → List UInt8 → Nat
  | _, offset, [] => offset
  | depth, offset, b :: rest =>
    if b = 0x7b then blockEndInBytes (depth + 1) (offset + 1) rest
    else if b = 0x7d then
      if depth ≤ 1 then offset + 1 else blockEndInBytes (depth - 1) (offset + 1) rest
    else blockEndInBytes depth (offset + 1) rest

theorem blockEndInBytes_plain (depth offset : Nat) (plain rest : List UInt8)
    (h : ∀ b ∈ plain, b ≠ 0x7b ∧ b ≠ 0x7d) :
    blockEndInBytes depth offset (plain ++ rest) = blockEndInBytes depth (offset + plain.length) rest := by
  induction plain generalizing offset with
  | nil => rfl
  | cons b plain ih =>
    obtain ⟨⟨hopening, hclosing⟩, hplain⟩ := List.forall_mem_cons.mp h
    rw [List.cons_append, blockEndInBytes, if_neg hopening, if_neg hclosing, ih _ hplain, List.length_cons]
    congr 1
    omega

/-- The bytes of braces are in no other character. -/
theorem bytes_plain (c : Char) (hopening : c ≠ '{') (hclosing : c ≠ '}') :
    ∀ b ∈ String.utf8EncodeChar c, b ≠ 0x7b ∧ b ≠ 0x7d := by
  intro b hb
  constructor
  · rintro rfl
    exact hopening (Char.toNat_inj.mp (toNat_of_mem_utf8EncodeChar hb (by decide)).symm)
  · rintro rfl
    exact hclosing (Char.toNat_inj.mp (toNat_of_mem_utf8EncodeChar hb (by decide)).symm)

theorem blockEndFrom_bytes (depth offset : Nat) (t : Text) :
    blockEndInBytes depth offset t.bytes = blockEndFrom depth offset t := by
  induction t generalizing depth offset with
  | nil =>
    rw [bytes_nil]
    rfl
  | cons c t ih =>
    rw [bytes_cons]
    by_cases hopening : c = '{'
    · subst hopening
      exact ih (depth + 1) (offset + 1)
    · by_cases hclosing : c = '}'
      · subst hclosing
        change (if depth ≤ 1 then offset + 1 else blockEndInBytes (depth - 1) (offset + 1) (Text.bytes t)) = _
        rw [ih]
        rfl
      · rw [blockEndInBytes_plain _ _ _ _ (bytes_plain c hopening hclosing), String.length_utf8EncodeChar, ih,
          blockEndFrom, if_neg (by simpa using hopening), if_neg (by simpa using hclosing)]

theorem blockEndAt_of_le (start offset : Nat) (t : Text) (h : start ≤ offset) :
    blockEndAt start offset t = blockEndFrom 0 offset t := by
  cases t with
  | nil => rfl
  | cons c t => rw [blockEndAt, if_neg (by omega)]

/-- The block at a place ends where the count over the bytes from the place on ends, also for a place inside
of a character. -/
theorem blockEndAt_bytes (start offset : Nat) (t : Text) (hstart : offset ≤ start)
    (hstop : start ≤ offset + t.width) :
    blockEndAt start offset t = blockEndInBytes 0 start (t.bytes.drop (start - offset)) := by
  induction t generalizing offset with
  | nil =>
    have heq : start = offset := by
      rw [Text.width] at hstop
      omega
    rw [bytes_nil, List.drop_nil, heq]
    rfl
  | cons c t ih =>
    obtain hlt | rfl := Nat.lt_or_eq_of_le hstart
    · have hlength : (String.utf8EncodeChar c).length = c.utf8Size := String.length_utf8EncodeChar c
      rw [blockEndAt, if_pos hlt, bytes_cons, List.drop_append, hlength]
      by_cases hin : start < offset + c.utf8Size
      · -- the place is inside of a character, which is no brace then
        have hopening : c ≠ '{' := by
          rintro rfl
          rw [opening_utf8Size] at hin
          omega
        have hclosing : c ≠ '}' := by
          rintro rfl
          rw [closing_utf8Size] at hin
          omega
        have hplain : ∀ b ∈ (String.utf8EncodeChar c).drop (start - offset), b ≠ 0x7b ∧ b ≠ 0x7d :=
          fun b hb => bytes_plain c hopening hclosing b (List.mem_of_mem_drop hb)
        have hnone : start - offset - c.utf8Size = 0 := by omega
        have hend : start + (c.utf8Size - (start - offset)) = offset + c.utf8Size := by omega
        rw [blockEndAt_of_le _ _ _ (by omega), blockEndInBytes_plain _ _ _ _ hplain, List.length_drop, hlength,
          hnone, List.drop_zero, hend, blockEndFrom_bytes]
      · have hdrop : (String.utf8EncodeChar c).drop (start - offset) = [] := List.drop_eq_nil_of_le (by omega)
        have hmore : start - offset - c.utf8Size = start - (offset + c.utf8Size) := by omega
        rw [Text.width] at hstop
        rw [hdrop, List.nil_append, hmore]
        exact ih (offset + c.utf8Size) (by omega) (by omega)
    · rw [blockEndAt_of_le _ _ _ (Nat.le_refl _), Nat.sub_self, List.drop_zero, blockEndFrom_bytes]

theorem balancedBlock_bytes (t : Text) (start : Nat) (h : start ≤ t.width) :
    balancedBlock t start = (start, blockEndInBytes 0 start (t.bytes.drop start)) := by
  have hend := blockEndAt_bytes start 0 t (Nat.zero_le _) (by rwa [Nat.zero_add])
  rw [balancedBlock, hend, Nat.sub_zero]

/-! ### Masks and blocks together -/

/-- What the mask of a text is, by the blocks that are open in front of a character and behind it. -/
structure Text.IsMask (mask t : Text) : Prop where
  width : mask.width = t.width
  lineFeeds : ∀ place, mask.HasAt '\n' place ↔ t.HasAt '\n' place
  /-- What is outside of blocks stays, with the braces around a block. -/
  outside : ∀ (before : Text) (c : Char) (after : Text), t = before ++ c :: after →
    ¬(before.HasOpenBlock ∧ (before ++ [c]).HasOpenBlock) → (c = '}' → before.HasOpenBlock) →
    mask.HasAt c before.width
  /-- A brace that closes nothing becomes a space. -/
  stray : ∀ before after : Text, t = before ++ '}' :: after → ¬before.HasOpenBlock → mask.HasAt ' ' before.width
  /-- What is inside of a block becomes spaces, or stays a line feed. -/
  inside : ∀ (before : Text) (c : Char) (after : Text), t = before ++ c :: after →
    before.HasOpenBlock → (before ++ [c]).HasOpenBlock →
    ∃ blank : Text, mask.slice? before.width (before.width + c.utf8Size) = some blank ∧ blank.Blanks [c]

/-- Whether a character is the first of its kind behind a place. -/
def Text.HasNext (t : Text) (c : Char) (place next : Nat) : Prop :=
  t.HasAt c next ∧ place < next ∧ ∀ between, t.HasAt c between → between ≤ place ∨ next ≤ between

theorem maskNested_around (before : Text) (c : Char) (after : Text) :
    ∃ front back : Text, maskNested (before ++ c :: after) =
        front ++ (maskFrom (openBlocks 0 before) [c] ++ back) ∧
      front.width = before.width := by
  refine ⟨maskFrom 0 before, maskFrom (blocksBehind (openBlocks 0 before) c) after, ?_, maskFrom_width 0 before⟩
  rw [maskNested, maskFrom_append, maskFrom_eq]

theorem maskNested_isMask (t : Text) : (maskNested t).IsMask t := by
  have hbehind : ∀ (before : Text) (c : Char),
      (before ++ [c]).HasOpenBlock ↔ 0 < blocksBehind (openBlocks 0 before) c := by
    intro before c
    rw [hasOpenBlock_iff, openBlocks_append]
    rfl
  refine ⟨maskFrom_width 0 t, lineFeed_maskFrom 0 t, ?_, ?_, ?_⟩
  · rintro before c after rfl houtside hclosing
    rw [hasOpenBlock_iff, hbehind] at houtside
    rw [hasOpenBlock_iff] at hclosing
    obtain ⟨front, back, hmask, hwidth⟩ := maskNested_around before c after
    rw [hmask, maskFrom_outside _ c (by omega) hclosing]
    exact ⟨front, back, rfl, hwidth⟩
  · rintro before after rfl hnone
    rw [hasOpenBlock_iff] at hnone
    have hzero : openBlocks 0 before = 0 := by omega
    obtain ⟨front, back, hmask, hwidth⟩ := maskNested_around before '}' after
    rw [hmask, hzero, maskFrom_stray]
    exact ⟨front, back, rfl, hwidth⟩
  · rintro before c after rfl hfront hback
    rw [hasOpenBlock_iff] at hfront
    rw [hbehind] at hback
    obtain ⟨front, back, hmask, hwidth⟩ := maskNested_around before c after
    have hblank := maskFrom_inside _ c hfront hback
    have hslice := Text.slice?_between front (maskFrom (openBlocks 0 before) [c]) back
    rw [hblank.width, Text.width_singleton, hwidth] at hslice
    rw [hmask]
    exact ⟨_, hslice, hblank⟩

/-- An opening brace of a mask opens a block that ends with the next closing brace of the mask. -/
theorem maskNested_block (t : Text) (place : Nat) (h : (maskNested t).HasAt '{' place) :
    t.HasAt '{' place ∧
      ((∃ next, (maskNested t).HasNext '}' place next ∧ balancedBlock t place = (place, next + 1)) ∨
        ((∀ closing, (maskNested t).HasAt '}' closing → closing < place) ∧
          balancedBlock t place = (place, t.width))) := by
  obtain ⟨before, rest, rfl, rfl, hopen⟩ := opening_maskFrom 0 t place h
  have hmask : maskNested (before ++ '{' :: rest) = maskFrom 0 before ++ '{' :: maskFrom 1 rest := by
    rw [maskNested, maskFrom_append, hopen]
    rfl
  have hfront := maskFrom_width 0 before
  have hbrace (inner : Text) : Text.width ('{' :: inner) = inner.width + 1 := by
    rw [Text.width, opening_utf8Size, Nat.add_comm]
  refine ⟨⟨before, rest, rfl, rfl⟩, ?_⟩
  rw [hmask, balancedBlock_brace]
  obtain ⟨inner, after, hrest, hnone, hend⟩ | ⟨hnone, hend⟩ :=
    blockEndFrom_mask 1 (before.width + 1) rest Nat.one_pos
  · -- no closing brace is between the two, so the mask has its next one where the block ends
    have hclosing : '}' ∉ '{' :: inner := by simpa using hnone
    refine Or.inl ⟨before.width + 1 + inner.width, ⟨?_, by omega, ?_⟩, by rw [hend]⟩
    · refine ⟨maskFrom 0 before ++ '{' :: inner, after, by simp [hrest], ?_⟩
      rw [Text.width_append, hfront, hbrace]
      omega
    · intro between hbetween
      rw [hrest] at hbetween
      have hpasses := Text.HasAt.passes hclosing hbetween
      rw [hfront, hbrace] at hpasses
      omega
  · have hclosing : '}' ∉ '{' :: maskFrom 1 rest := by simpa using hnone
    refine Or.inr ⟨fun closing h => ?_, ?_⟩
    · have hlt := h.lt
      rw [← List.append_nil ('{' :: maskFrom 1 rest)] at h
      have hpasses := h.passes hclosing
      rw [Text.width_append] at hlt
      omega
    · rw [hend, Text.width_append, hbrace]
      congr 1
      omega

/-- The mask of a text and its blocks are the same nesting. A mask has the width and the line feeds of its
text, is its own mask, has spaces and line feeds inside of blocks and the text outside of them, with a space
for a brace that closes nothing. Its opening braces are those of the outermost blocks, which end with its
next closing brace or with the text. Blocks are one in the other or apart. A block is the same whether
characters are counted or the bytes from its place on. -/
theorem maskNested_agrees_with_blocks (t : Text) :
    (maskNested t).IsMask t ∧
    maskNested (maskNested t) = maskNested t ∧
    (∀ i, (maskNested t).HasAt '{' i → t.HasAt '{' i ∧
      ((∃ next, (maskNested t).HasNext '}' i next ∧ balancedBlock t i = (i, next + 1)) ∨
        ((∀ closing, (maskNested t).HasAt '}' closing → closing < i) ∧ balancedBlock t i = (i, t.width)))) ∧
    (∀ i j, t.HasAt '{' i → t.HasAt '{' j → i < j →
      (balancedBlock t j).2 ≤ (balancedBlock t i).2 ∨ (balancedBlock t i).2 ≤ j) ∧
    ∀ i ≤ t.width, balancedBlock t i = (i, blockEndInBytes 0 i (t.bytes.drop i)) :=
  ⟨maskNested_isMask t, maskFrom_maskFrom 0 t, maskNested_block t, balancedBlock_apart t, balancedBlock_bytes t⟩

/-- A text with a closing brace too many, a block in a block and a block that stays open. -/
def unevenBlocks : Text := "é \x7d a \x7b x \x7b \n \x7d \x7d \x7b é".toList

theorem maskNested_agrees_with_blocks_uneven :
    (maskNested unevenBlocks).HasAt ' ' 3 ∧
    (∃ blank : Text, (maskNested unevenBlocks).slice? 9 10 = some blank ∧ blank.Blanks ['x']) ∧
    (∃ next, (maskNested unevenBlocks).HasNext '}' 7 next ∧ balancedBlock unevenBlocks 7 = (7, next + 1)) ∧
    (balancedBlock unevenBlocks 11).2 ≤ (balancedBlock unevenBlocks 7).2 ∧
    balancedBlock unevenBlocks 1 = (1, blockEndInBytes 0 1 (unevenBlocks.bytes.drop 1)) := by
  obtain ⟨hmask, -, hblock, hapart, hbytes⟩ := maskNested_agrees_with_blocks unevenBlocks
  have hseven : unevenBlocks.HasAt '{' 7 :=
    ⟨"é \x7d a ".toList, " x \x7b \n \x7d \x7d \x7b é".toList, by decide, by decide⟩
  have heleven : unevenBlocks.HasAt '{' 11 :=
    ⟨"é \x7d a \x7b x ".toList, " \n \x7d \x7d \x7b é".toList, by decide, by decide⟩
  have hmasked : (maskNested unevenBlocks).HasAt '{' 7 :=
    ⟨"é   a ".toList, "     \n   \x7d \x7b   ".toList, by decide, by decide⟩
  refine ⟨?_, ?_, ?_, ?_, ?_⟩
  · exact hmask.stray "é ".toList " a \x7b x \x7b \n \x7d \x7d \x7b é".toList (by decide) (by decide)
  · exact hmask.inside "é \x7d a \x7b ".toList 'x' " \x7b \n \x7d \x7d \x7b é".toList (by decide) (by decide)
      (by decide)
  · obtain ⟨-, hnext | ⟨-, hend⟩⟩ := hblock 7 hmasked
    · exact hnext
    · exact absurd hend (by decide)
  · exact (hapart 7 11 hseven heleven (by decide)).resolve_right (by decide)
  · exact hbytes 1 (by decide)

end CodeIndex
