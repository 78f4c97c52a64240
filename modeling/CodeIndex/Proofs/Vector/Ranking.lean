import CodeIndex.Vector.Embedder
import CodeIndex.Vector.Ranking
import Mathlib.Data.List.Perm.Subperm

/-!
# What a ranking keeps

Ordering by score loses nothing and repeats nothing, so a ranking holds as many of the comparable items as
its limit lets in. Feature vectors all have one length: with them alone, every item is comparable.

As long as every score is a number, a ranking puts the higher score first and equal scores as they were
listed. Candidates are told apart by their places in the list, so that the same candidate may be listed
twice. The first ones of that order are kept: no candidate that is left out should have stood before
one that is kept, and candidates that cannot be compared have no say in it.
-/

namespace CodeIndex

/-! ### Orders -/

section

variable {α : Type}

theorem insertWorseFirst_perm (x : Scored α) (sorted : List (Scored α)) :
    (insertWorseFirst x sorted).Perm (x :: sorted) := by
  induction sorted with
  | nil => exact .refl _
  | cons y rest ih =>
    rw [insertWorseFirst]
    split
    · exact (ih.cons y).trans (.swap x y rest)
    · exact .refl _

theorem foldl_insertWorseFirst_perm (items sorted : List (Scored α)) :
    (items.foldl (fun sorted x => insertWorseFirst x sorted) sorted).Perm (items ++ sorted) := by
  induction items generalizing sorted with
  | nil => exact .refl sorted
  | cons x rest ih =>
    have hx := (insertWorseFirst_perm x sorted).append_left rest
    exact ((ih _).trans hx).trans List.perm_middle

theorem worstFirst_perm (items : List (Scored α)) : (worstFirst items).Perm items := by
  have hfold := foldl_insertWorseFirst_perm items []
  rwa [List.append_nil] at hfold

theorem bestFirst_perm (items : List (Scored α)) : (bestFirst items).Perm items :=
  (List.reverse_perm _).trans (worstFirst_perm items)

/-! ### Rankings -/

variable (candidateOf : α → Candidate) (query : Embedding) (options : SearchOptions)

/-- The items that a query may be compared with. -/
def comparable (items : List α) : List α :=
  items.filter fun item =>
    query.isComparable (candidateOf item).modelType (candidateOf item).vector.length

theorem rank_length (items : List α) (limit : Nat) :
    (rank candidateOf query items limit options).length =
      min limit (comparable candidateOf query items).length := by
  have hp := (bestFirst_perm ((comparable candidateOf query items).map
    (score candidateOf query options))).length_eq
  rw [List.length_map] at hp
  rw [← hp]
  exact List.length_take

theorem bestFirst_items (items : List α) :
    ((bestFirst (items.map (score candidateOf query options))).map (·.item)).Perm items := by
  have hp := (bestFirst_perm (items.map (score candidateOf query options))).map (·.item)
  rw [List.map_map] at hp
  have hitem : (fun r : Scored α => r.item) ∘ score candidateOf query options = id := rfl
  rwa [hitem, List.map_id] at hp

theorem rank_items (items : List α) (limit : Nat) :
    ((rank candidateOf query items limit options).map (·.item)).Subperm
      (comparable candidateOf query items) := by
  have hp := bestFirst_items candidateOf query options (comparable candidateOf query items)
  have htake := ((List.take_sublist limit (bestFirst ((comparable candidateOf query items).map
    (score candidateOf query options)))).map (·.item)).subperm
  exact htake.trans hp.subperm

end

/-! ### Feature vectors -/

theorem Single.less_eq (x y : Single) (hx : x.isNaN = false) (hy : y.isNaN = false) :
    x.less y = decide (x.key < y.key) := by
  simp only [less, hx, hy, Bool.not_false, Bool.true_and]

/-- Whether an item stands before another: its score is higher, or it is not lower and it came earlier. -/
def Outranks {ι : Type} (similarity : ι → Single) (earlier : ι → ι → Prop) (x y : ι) : Prop :=
  (similarity y).less (similarity x) = true ∨
    (similarity x).less (similarity y) = false ∧ earlier x y

theorem Outranks.key_le {ι : Type} {similarity : ι → Single} {earlier : ι → ι → Prop} {x y : ι}
    (h : Outranks similarity earlier x y) (hx : (similarity x).isNaN = false)
    (hy : (similarity y).isNaN = false) : (similarity y).key ≤ (similarity x).key := by
  rcases h with h | ⟨h, -⟩
  · rw [Single.less_eq _ _ hy hx] at h
    exact Int.le_of_lt (of_decide_eq_true h)
  · rw [Single.less_eq _ _ hx hy] at h
    exact Int.not_lt.mp (of_decide_eq_false h)

theorem Outranks.not_less {ι : Type} {similarity : ι → Single} {earlier : ι → ι → Prop} {x y : ι}
    (h : Outranks similarity earlier x y) (hx : (similarity x).isNaN = false)
    (hy : (similarity y).isNaN = false) : (similarity x).less (similarity y) = false := by
  rw [Single.less_eq _ _ hx hy]
  exact decide_eq_false (Int.not_lt.mpr (h.key_le hx hy))

/-! ### The order that sorting makes -/

section

variable {α : Type} {earlier : Scored α → Scored α → Prop}

/-- Items from worst to best: each is outranked by those behind it. -/
def WorstFirst (earlier : Scored α → Scored α → Prop) (list : List (Scored α)) : Prop :=
  list.Pairwise fun x y => Outranks Scored.similarity earlier y x

theorem insertWorseFirst_worstFirst (x : Scored α) (sorted : List (Scored α))
    (hx : x.similarity.isNaN = false) (hn : ∀ y ∈ sorted, y.similarity.isNaN = false)
    (he : ∀ y ∈ sorted, earlier y x) (hs : WorstFirst earlier sorted) :
    WorstFirst earlier (insertWorseFirst x sorted) := by
  induction sorted with
  | nil => exact List.pairwise_singleton _ x
  | cons y rest ih =>
    obtain ⟨hfirst, hrest⟩ := List.pairwise_cons.mp hs
    obtain ⟨hy, hn'⟩ := List.forall_mem_cons.mp hn
    rw [insertWorseFirst]
    split
    · next hless =>
      have htail := ih hn' (fun z hz => he z (List.mem_cons_of_mem y hz)) hrest
      refine List.pairwise_cons.mpr ⟨fun z hz => ?_, htail⟩
      rcases List.mem_cons.mp ((insertWorseFirst_perm x rest).mem_iff.mp hz) with rfl | hz
      · exact Or.inl hless
      · exact hfirst z hz
    · next hless =>
      -- what is behind `y` is not lower than `y`, so not lower than `x` either
      have hkey : x.similarity.key ≤ y.similarity.key := by
        rw [Single.less_eq _ _ hy hx] at hless
        exact Int.not_lt.mp fun h => hless (decide_eq_true h)
      refine List.pairwise_cons.mpr ⟨fun z hz => Or.inr ⟨?_, he z hz⟩, hs⟩
      rw [Single.less_eq _ _ (hn z hz) hx]
      refine decide_eq_false (Int.not_lt.mpr ?_)
      rcases List.mem_cons.mp hz with rfl | hz
      · exact hkey
      · exact Int.le_trans hkey ((hfirst z hz).key_le (hn' z hz) hy)

theorem foldl_worstFirst (items sorted : List (Scored α))
    (hitems : ∀ x ∈ items, x.similarity.isNaN = false)
    (hsorted : ∀ y ∈ sorted, y.similarity.isNaN = false)
    (hlisted : items.Pairwise earlier) (he : ∀ x ∈ items, ∀ y ∈ sorted, earlier y x)
    (hs : WorstFirst earlier sorted) :
    WorstFirst earlier (items.foldl (fun sorted x => insertWorseFirst x sorted) sorted) := by
  induction items generalizing sorted with
  | nil => exact hs
  | cons x rest ih =>
    obtain ⟨hx, hrest⟩ := List.forall_mem_cons.mp hitems
    obtain ⟨hfirst, hlater⟩ := List.pairwise_cons.mp hlisted
    have hmem : ∀ y ∈ insertWorseFirst x sorted, y = x ∨ y ∈ sorted := fun y hy =>
      List.mem_cons.mp ((insertWorseFirst_perm x sorted).mem_iff.mp hy)
    refine ih _ hrest (fun y hy => ?_) hlater (fun z hz y hy => ?_)
      (insertWorseFirst_worstFirst x sorted hx hsorted (he x List.mem_cons_self) hs)
    · rcases hmem y hy with rfl | hy
      · exact hx
      · exact hsorted y hy
    · rcases hmem y hy with rfl | hy
      · exact hfirst z hz
      · exact he z (List.mem_cons_of_mem x hz) y hy

/-- The best come first, and equal scores in the order in which they were listed. -/
theorem bestFirst_outranks (items : List (Scored α)) (hn : ∀ x ∈ items, x.similarity.isNaN = false)
    (hlisted : items.Pairwise earlier) :
    (bestFirst items).Pairwise (Outranks Scored.similarity earlier) :=
  List.pairwise_reverse.mpr (foldl_worstFirst items [] hn (fun _ hy => absurd hy List.not_mem_nil)
    hlisted (fun _ _ _ hy => absurd hy List.not_mem_nil) List.Pairwise.nil)

end

/-! ### What a ranking does not look at -/

section

variable {α β : Type}

/-- A scored item under another name. -/
def Scored.map (f : α → β) (r : Scored α) : Scored β := ⟨f r.item, r.similarity, r.cosine⟩

theorem insertWorseFirst_map (f : α → β) (x : Scored α) (sorted : List (Scored α)) :
    insertWorseFirst (x.map f) (sorted.map (Scored.map f)) =
      (insertWorseFirst x sorted).map (Scored.map f) := by
  induction sorted with
  | nil => rfl
  | cons y rest ih =>
    have hless : (y.map f).similarity.less (x.map f).similarity = y.similarity.less x.similarity := rfl
    rw [List.map_cons, insertWorseFirst, insertWorseFirst, hless, ih]
    split <;> rfl

theorem bestFirst_map (f : α → β) (items : List (Scored α)) :
    bestFirst (items.map (Scored.map f)) = (bestFirst items).map (Scored.map f) := by
  have hfold : ∀ sorted : List (Scored α),
      (items.map (Scored.map f)).foldl (fun sorted x => insertWorseFirst x sorted)
          (sorted.map (Scored.map f)) =
        (items.foldl (fun sorted x => insertWorseFirst x sorted) sorted).map (Scored.map f) := by
    induction items with
    | nil => exact fun _ => rfl
    | cons x rest ih =>
      intro sorted
      rw [List.map_cons, List.foldl_cons, insertWorseFirst_map, ih, List.foldl_cons]
  have hempty := hfold []
  rw [bestFirst, worstFirst, ← List.map_nil (f := Scored.map f), hempty, ← List.map_reverse]
  rfl

theorem comparable_map (f : α → β) (candidateOf : β → Candidate) (query : Embedding) (items : List α) :
    comparable candidateOf query (items.map f) =
      (comparable (candidateOf ∘ f) query items).map f :=
  List.filter_map

/-- A ranking looks at candidates only: what else the items hold makes no difference. -/
theorem rank_map (f : α → β) (candidateOf : β → Candidate) (query : Embedding) (items : List α)
    (limit : Nat) (options : SearchOptions) :
    rank candidateOf query (items.map f) limit options =
      (rank (candidateOf ∘ f) query items limit options).map (Scored.map f) := by
  have hscores : ∀ list : List α, (list.map f).map (score candidateOf query options) =
      (list.map (score (candidateOf ∘ f) query options)).map (Scored.map f) := fun list => by
    rw [List.map_map, List.map_map]
    rfl
  change ((bestFirst ((comparable candidateOf query (items.map f)).map _)).take limit) = _
  rw [comparable_map, hscores, bestFirst_map, ← List.map_take]
  rfl

end

/-- A list with more items in it, all of one kind, at any places. -/
inductive Interspersed {α : Type} (ofKind : α → Prop) : (list more : List α) → Prop
  | nil : Interspersed ofKind [] []
  | keep (x : α) {list more : List α} : Interspersed ofKind list more →
      Interspersed ofKind (x :: list) (x :: more)
  | insert (x : α) {list more : List α} : ofKind x → Interspersed ofKind list more →
      Interspersed ofKind list (x :: more)

section

variable {α : Type} (candidateOf : α → Candidate) (query : Embedding) (options : SearchOptions)

/-- Whether a query may be compared with a candidate: both vectors have one type and one length. -/
def MayCompare (c : Candidate) : Prop :=
  c.modelType = query.modelType ∧ c.vector.length = query.vector.length

instance (c : Candidate) : Decidable (MayCompare query c) := inferInstanceAs (Decidable (_ ∧ _))

theorem isComparable_iff (c : Candidate) :
    query.isComparable c.modelType c.vector.length = true ↔ MayCompare query c := by
  rw [Embedding.isComparable, Bool.and_eq_true, beq_iff_eq, beq_iff_eq, MayCompare, eq_comm,
    eq_comm (a := query.vector.length)]

theorem comparable_interspersed (items more : List α)
    (h : Interspersed (fun item => ¬MayCompare query (candidateOf item)) items more) :
    comparable candidateOf query more = comparable candidateOf query items := by
  induction h with
  | nil => rfl
  | keep x _ ih =>
    simp only [comparable, List.filter_cons] at ih ⊢
    rw [ih]
  | insert x hx _ ih =>
    have hnot : ¬query.isComparable (candidateOf x).modelType (candidateOf x).vector.length = true :=
      fun hc => hx ((isComparable_iff query (candidateOf x)).mp hc)
    simp only [comparable, List.filter_cons, if_neg hnot] at ih ⊢
    exact ih

theorem rank_interspersed (items more : List α) (limit : Nat)
    (h : Interspersed (fun item => ¬MayCompare query (candidateOf item)) items more) :
    rank candidateOf query more limit options = rank candidateOf query items limit options := by
  have hc := comparable_interspersed candidateOf query items more h
  change ((bestFirst ((comparable candidateOf query more).map _)).take limit) = _
  rw [hc]
  rfl

end

/-! ### Kept and left out -/

section

variable {α : Type} (candidateOf : α → Candidate) (query : Embedding) (options : SearchOptions)

/-- The score of a candidate. -/
def similarityOf (item : α) : Single := (score candidateOf query options item).similarity

/-- Whether a candidate stands before another, each with its place: by score, then by place. -/
def StandsBefore : α × Nat → α × Nat → Prop :=
  Outranks (fun p => similarityOf candidateOf query options p.1) fun p q => p.2 < q.2

/-- The comparable candidates of a list, with their places, split into those that a ranking keeps and
those that it leaves out. -/
structure Keeps (items : List α) (ranking : List (Scored α)) (kept out : List (α × Nat)) : Prop where
  split : (kept ++ out).Perm (items.zipIdx.filter fun p =>
    query.isComparable (candidateOf p.1).modelType (candidateOf p.1).vector.length)
  scored : ranking = kept.map fun p => score candidateOf query options p.1
  ordered : kept.Pairwise (StandsBefore candidateOf query options)
  best : ∀ p ∈ kept, ∀ q ∈ out, StandsBefore candidateOf query options p q

/-- The comparable candidates with their places, from best to worst. -/
def placedBestFirst (items : List α) : List (Scored (α × Nat)) :=
  bestFirst ((comparable (candidateOf ∘ Prod.fst) query items.zipIdx).map
    (score (candidateOf ∘ Prod.fst) query options))

theorem rank_placed (items : List α) (limit : Nat) :
    rank candidateOf query items limit options =
      ((placedBestFirst candidateOf query options items).take limit).map (Scored.map Prod.fst) := by
  have hmap := rank_map Prod.fst candidateOf query items.zipIdx limit options
  rwa [List.zipIdx_map_fst] at hmap

theorem placedBestFirst_scored (items : List α) (r : Scored (α × Nat))
    (hr : r ∈ placedBestFirst candidateOf query options items) :
    r.item.1 ∈ comparable candidateOf query items ∧
      r = score (candidateOf ∘ Prod.fst) query options r.item := by
  obtain ⟨p, hp, rfl⟩ := List.mem_map.mp ((bestFirst_perm _).mem_iff.mp hr)
  refine ⟨?_, rfl⟩
  have hfirst := List.mem_map_of_mem (f := Prod.fst) hp
  rwa [← comparable_map, List.zipIdx_map_fst] at hfirst

theorem zipIdx_places {β : Type} (list : List β) : list.zipIdx.Pairwise fun p q => p.2 < q.2 := by
  have hplaces : (list.zipIdx.map Prod.snd).Pairwise (· < ·) := by
    rw [List.zipIdx_map_snd]
    exact List.pairwise_lt_range'
  exact List.pairwise_map.mp hplaces

theorem placedBestFirst_ordered (items : List α)
    (hn : ∀ item ∈ comparable candidateOf query items,
      (similarityOf candidateOf query options item).isNaN = false) :
    ((placedBestFirst candidateOf query options items).map (·.item)).Pairwise
      (StandsBefore candidateOf query options) := by
  have hnumbers : ∀ x ∈ (comparable (candidateOf ∘ Prod.fst) query items.zipIdx).map
      (score (candidateOf ∘ Prod.fst) query options), x.similarity.isNaN = false := by
    intro x hx
    have hb := (bestFirst_perm _).mem_iff.mpr hx
    obtain ⟨hin, he⟩ := placedBestFirst_scored candidateOf query options items x hb
    rw [he]
    exact hn _ hin
  have hlisted : ((comparable (candidateOf ∘ Prod.fst) query items.zipIdx).map
      (score (candidateOf ∘ Prod.fst) query options)).Pairwise fun r s => r.item.2 < s.item.2 :=
    List.pairwise_map.mpr ((zipIdx_places items).sublist List.filter_sublist)
  refine List.pairwise_map.mpr ((bestFirst_outranks _ hnumbers hlisted).imp_of_mem ?_)
  intro r s hr hs h
  obtain ⟨-, her⟩ := placedBestFirst_scored candidateOf query options items r hr
  obtain ⟨-, hes⟩ := placedBestFirst_scored candidateOf query options items s hs
  rw [her, hes] at h
  exact h

theorem rank_keeps (items : List α) (limit : Nat)
    (hn : ∀ item ∈ comparable candidateOf query items,
      (similarityOf candidateOf query options item).isNaN = false) :
    ∃ kept out, Keeps candidateOf query options items (rank candidateOf query items limit options)
      kept out := by
  have hordered := placedBestFirst_ordered candidateOf query options items hn
  have hsplit := bestFirst_items (candidateOf ∘ Prod.fst) query options
    (comparable (candidateOf ∘ Prod.fst) query items.zipIdx)
  change ((placedBestFirst candidateOf query options items).map (·.item)).Perm _ at hsplit
  rw [← List.take_append_drop limit (List.map _ _)] at hordered hsplit
  obtain ⟨hkept, -, hbest⟩ := List.pairwise_append.mp hordered
  refine ⟨_, _, hsplit, ?_, hkept, hbest⟩
  rw [rank_placed, ← List.map_take, List.map_map]
  refine List.map_congr_left fun r hr => ?_
  obtain ⟨-, he⟩ := placedBestFirst_scored candidateOf query options items r (List.mem_of_mem_take hr)
  rw [he]
  rfl

theorem rank_prefix (items : List α) (k m : Nat) (h : k ≤ m) :
    rank candidateOf query items k options <+: rank candidateOf query items m options :=
  List.take_prefix_take_left h

theorem Keeps.falling {items : List α} {ranking : List (Scored α)} {kept out : List (α × Nat)}
    (h : Keeps candidateOf query options items ranking kept out)
    (hn : ∀ item ∈ comparable candidateOf query items,
      (similarityOf candidateOf query options item).isNaN = false) :
    ranking.Pairwise fun r s => r.similarity.less s.similarity = false := by
  have hnumber : ∀ p ∈ kept, (similarityOf candidateOf query options p.1).isNaN = false := by
    intro p hp
    obtain ⟨hin, hc⟩ := List.mem_filter.mp (h.split.subset (List.mem_append_left out hp))
    exact hn p.1 (List.mem_filter.mpr ⟨List.fst_mem_of_mem_zipIdx hin, hc⟩)
  rw [h.scored]
  refine List.pairwise_map.mpr (h.ordered.imp_of_mem fun hp hq hpq => ?_)
  exact hpq.not_less (hnumber _ hp) (hnumber _ hq)

/-- A ranking of candidates whose scores are numbers holds the best of those that may be compared with the
query, as many as its limit lets in: the higher score first, equal scores as they were listed. A larger
limit goes on behind it, and what cannot be compared with the query makes no difference. -/
theorem rank_keeps_best (items : List α) (k m : Nat) (hkm : k ≤ m)
    (hn : ∀ item ∈ items, MayCompare query (candidateOf item) →
      (similarityOf candidateOf query options item).isNaN = false) :
    let ranking := rank candidateOf query items k options
    (∀ r ∈ ranking, MayCompare query (candidateOf r.item)) ∧
      ranking.length = min k (comparable candidateOf query items).length ∧
      ranking.Pairwise (fun r s => r.similarity.less s.similarity = false) ∧
      (∃ kept out, Keeps candidateOf query options items ranking kept out) ∧
      ranking <+: rank candidateOf query items m options ∧
      ∀ more, Interspersed (fun item => ¬MayCompare query (candidateOf item)) items more →
        rank candidateOf query more k options = ranking := by
  intro ranking
  have hnumbers : ∀ item ∈ comparable candidateOf query items,
      (similarityOf candidateOf query options item).isNaN = false := fun item hi =>
    hn item (List.mem_filter.mp hi).1 ((isComparable_iff query _).mp (List.mem_filter.mp hi).2)
  obtain ⟨kept, out, hkeeps⟩ := rank_keeps candidateOf query options items k hnumbers
  refine ⟨fun r hr => ?_, rank_length candidateOf query options items k, hkeeps.falling _ _ _ hnumbers,
    ⟨kept, out, hkeeps⟩, rank_prefix candidateOf query options items k m hkm,
    fun more hmore => rank_interspersed candidateOf query options items more k hmore⟩
  have hin := (rank_items candidateOf query options items k).subset (List.mem_map_of_mem hr)
  exact (isComparable_iff query _).mp (List.mem_filter.mp hin).2

end

/-- Candidates for the query `[1, 0]`. Of the two with its direction, one is raised and forced back to one,
so that they tie; another has the opposite direction, and one is too short. -/
def directions : List Candidate :=
  [⟨[.zero, .one], .heuristic, "", [], []⟩, ⟨[.one, .zero], .heuristic, "", [], []⟩,
    ⟨[.one], .heuristic, "rust", [], []⟩, ⟨[.one, .zero], .heuristic, "rust", [], []⟩,
    ⟨[.minusOne, .zero], .heuristic, "", [], []⟩]

theorem rank_keeps_best_directions :
    let query : Embedding := ⟨[.one, .zero], .heuristic⟩
    let options : SearchOptions := { language := some "rust" }
    let ranking := rank id query directions 3 options
    (∀ c ∈ directions, MayCompare query c → (similarityOf id query options c).isNaN = false) ∧
      ranking.length = 3 ∧ (∃ kept out, Keeps id query options directions ranking kept out) ∧
      ranking <+: rank id query directions 4 options ∧
      rank id query (⟨[.one, .zero], .model "m", "rust", [], []⟩ :: directions) 3 options = ranking := by
  intro query options ranking
  have hn : ∀ c ∈ directions, MayCompare query c → (similarityOf id query options c).isNaN = false := by
    decide +kernel
  obtain ⟨-, hlength, -, hkeeps, hprefix, hmore⟩ :=
    rank_keeps_best id query options directions 3 4 (by decide) hn
  refine ⟨hn, hlength, hkeeps, hprefix, hmore _ (.insert _ (by decide) ?_)⟩
  exact .keep _ (.keep _ (.keep _ (.keep _ (.keep _ .nil))))

/-- Of the two candidates with the highest score the first one comes first. -/
example : (rank id ⟨[.one, .zero], .heuristic⟩ directions 2 { language := some "rust" }).map (·.item) =
    [⟨[.one, .zero], .heuristic, "", [], []⟩, ⟨[.one, .zero], .heuristic, "rust", [], []⟩] := by
  decide +kernel

end CodeIndex
