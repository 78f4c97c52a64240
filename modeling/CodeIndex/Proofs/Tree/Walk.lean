import CodeIndex.Proofs.Path.Below
import CodeIndex.Proofs.Tree.Listing

/-!
# Walks without ignore rules

Where no ignore file is in a directory, below it or above it, a walk takes in the files below the
directory that have a wanted extension, no name that starts with a dot on the way to them and no excluded
name of a directory. They come depth first, entries in the order of their bytes, up to the limit.
-/

namespace CodeIndex

/-! ### Directories without rules -/

/-- Whether no ignore file is in a directory. -/
def Tree.hasNoIgnoreFile (t : Tree) : Bool :=
  ignoreFiles.all fun names => (t.descend? names).all Tree.isDirectory

/-- Whether a layer has no rules. -/
def IgnoreLayer.IsSilent (l : IgnoreLayer) : Prop :=
  ∀ rules ∈ l.rules, rules = []

theorem IgnoreLayer.of_isSilent (t : Tree) (h : t.hasNoIgnoreFile = true) : (of t).IsSilent := by
  intro rules hrules
  obtain ⟨names, hnames, rfl⟩ := List.mem_map.mp hrules
  have hfound := List.all_eq_true.mp h names hnames
  rw [rulesAt]
  split
  · next c hc =>
    rw [hc] at hfound
    cases hfound
  · rfl

theorem IgnoreLayer.enter_isSilent (layers : List IgnoreLayer) (h : ∀ l ∈ layers, l.IsSilent)
    (name : Text) : ∀ l ∈ layers.map (·.enter name), l.IsSilent := by
  intro l hl
  obtain ⟨above, habove, rfl⟩ := List.mem_map.mp hl
  exact h above habove

theorem kindVerdict?_silent (layers : List IgnoreLayer) (h : ∀ l ∈ layers, l.IsSilent) (kind : Nat)
    (name : Text) (isDirectory : Bool) : kindVerdict? layers kind name isDirectory = none := by
  rw [kindVerdict?, List.findSome?_eq_none_iff]
  intro l hl
  have hrules : l.rules.getD kind [] = [] := by
    rw [List.getD_eq_getElem?_getD]
    cases hk : l.rules[kind]? with
    | none => rfl
    | some rules => exact h l hl rules (List.mem_of_getElem? hk)
  rw [hrules]
  rfl

theorem isLeftOut_silent (excluded : List String) (layers : List IgnoreLayer)
    (h : ∀ l ∈ layers, l.IsSilent) (name : Text) (t : Tree) :
    isLeftOut excluded layers name t = (isHidden name || (t.isDirectory && isOneOf excluded name)) := by
  have hnone : layersVerdict? layers name t.isDirectory = none := by
    rw [layersVerdict?, List.findSome?_eq_none_iff]
    exact fun kind _ => kindVerdict?_silent layers h kind name t.isDirectory
  rw [isLeftOut, hnone]

theorem layersAbove_silent (layers : List IgnoreLayer) (h : ∀ l ∈ layers, l.IsSilent) (t : Tree)
    (names : List Text)
    (ht : ∀ front d, front <+: names → t.descend? front = some d → d.hasNoIgnoreFile = true) :
    ∀ l ∈ layersAbove layers t names, l.IsSilent := by
  induction names generalizing layers t with
  | nil => exact h
  | cons name names ih =>
    have hof := IgnoreLayer.of_isSilent t (ht [] t List.nil_prefix rfl)
    refine ih _ (IgnoreLayer.enter_isSilent _ (List.forall_mem_cons.mpr ⟨hof, h⟩) name) _
      fun front d hfront hd => ?_
    cases hc : t.child? name with
    | some c =>
      rw [hc, Option.getD_some] at hd
      exact ht (name :: front) d (List.cons_prefix_cons.mpr ⟨rfl, hfront⟩)
        (by rw [Tree.descend?, hc, Option.bind_some, hd])
    | none =>
      -- nothing stands below a name that is not there
      rw [hc, Option.getD_none] at hd
      cases front with
      | nil =>
        cases hd
        rfl
      | cons n front => cases hd

/-! ### Entries that are kept -/

/-- Whether no name is hidden, and none but the last is excluded. -/
def isKept (excluded : List String) (names : List Text) : Bool :=
  names.all (!isHidden ·) && names.dropLast.all (!isOneOf excluded ·)

theorem isKept_entry (excluded : List String) (name : Text) (t : Tree) (names : List Text)
    (h : names ∈ t.listing) : isKept excluded (name :: names) =
      (!(isHidden name || (t.isDirectory && isOneOf excluded name)) && isKept excluded names) := by
  cases t with
  | file c =>
    rw [List.mem_singleton.mp h]
    simp [isKept, Tree.isDirectory]
  | directory entries =>
    rw [Tree.listing_directory] at h
    obtain ⟨e, -, hmem⟩ := List.mem_flatMap.mp h
    obtain ⟨rest, -, rfl⟩ := List.mem_map.mp hmem
    simp only [isKept, Tree.isDirectory, List.all_cons, List.dropLast_cons_cons, Bool.true_and,
      Bool.not_or]
    ac_rfl

theorem filesBelow_eq (excluded : List String) (layers : List IgnoreLayer) (path : Path)
    (entries : List (Text × Tree)) : filesBelow excluded layers path entries =
      entries.flatMap fun e => if isLeftOut excluded layers e.1 e.2 then []
        else filesOf excluded (layers.map (·.enter e.1)) (path.entry e.1) e.2 := by
  induction entries with
  | nil => rfl
  | cons e rest ih =>
    rw [filesBelow, ih]
    rfl

/-- Without rules the files of a tree are those of its listing whose names are kept. -/
theorem filesOf_silent (excluded : List String) (layers : List IgnoreLayer)
    (h : ∀ l ∈ layers, l.IsSilent) (path : Path) (t : Tree) (ht : t.Everywhere Tree.NamesOnce)
    (hrules : t.Everywhere fun d => d.hasNoIgnoreFile = true) :
    filesOf excluded layers path t = (t.listing.filter (isKept excluded)).map path.below := by
  induction t generalizing layers path with
  | file c => rfl
  | directory entries ih =>
    have hlayers : ∀ l ∈ IgnoreLayer.of (.directory entries) :: layers, l.IsSilent :=
      List.forall_mem_cons.mpr ⟨IgnoreLayer.of_isSilent _ hrules.here, h⟩
    rw [filesOf, filesBelow_eq, Tree.listing_directory, List.filter_flatMap, List.map_flatMap]
    refine List.flatMap_congr fun e he => ?_
    have hkept : e.2.listing.filter (isKept excluded ∘ (e.1 :: ·)) = e.2.listing.filter fun names =>
        !(isHidden e.1 || (e.2.isDirectory && isOneOf excluded e.1)) && isKept excluded names :=
      List.filter_congr fun names hnames => isKept_entry excluded e.1 e.2 names hnames
    rw [isLeftOut_silent excluded _ hlayers, List.filter_map, hkept]
    cases isHidden e.1 || (e.2.isDirectory && isOneOf excluded e.1) with
    | true => simp
    | false =>
      simp only [Bool.false_eq_true, ite_false, Bool.not_false, Bool.true_and, List.map_map]
      exact ih e he _ (IgnoreLayer.enter_isSilent _ hlayers e.1) (path.entry e.1)
        (ht.entry ht.here he) (hrules.entry ht.here he)

/-! ### Files that are taken in -/

/-- Whether the names in a directory are different and can be names: none is empty or holds a slash. -/
structure Tree.IsNamed (t : Tree) : Prop where
  once : t.NamesOnce
  spelt : ∀ e ∈ t.entries, e.1 ≠ [] ∧ '/' ∉ e.1

instance (t : Tree) : Decidable t.IsNamed :=
  decidable_of_iff (t.NamesOnce ∧ ∀ e ∈ t.entries, e.1 ≠ [] ∧ '/' ∉ e.1)
    ⟨fun h => ⟨h.1, h.2⟩, fun h => ⟨h.once, h.spelt⟩⟩

/-- Whether a walk may take in the file that names lead to: no name starts with a dot, no directory has an
excluded name, and the file has a wanted extension. -/
structure WalkOptions.Allows (options : WalkOptions) (names : List Text) : Prop where
  shown : ∀ name ∈ names, ¬['.'] <+: name
  entered : ∀ name ∈ names.dropLast, String.ofList name ∉ options.excluded
  extension : ∃ name ∈ names.getLast?, EndsInOneOf options.extensions name

/-- Whether a list holds the names that lead from a directory to a file that a walk may take in, depth
first. -/
structure Tree.Lists (t : Tree) (options : WalkOptions) (listing : List (List Text)) : Prop where
  mem : ∀ names, names ∈ listing ↔ (∃ c, t.descend? names = some (.file c)) ∧ options.Allows names
  order : listing.Pairwise ComesBefore

theorem isKept_iff (excluded : List String) (names : List Text) :
    isKept excluded names = true ↔ (∀ name ∈ names, ¬['.'] <+: name) ∧
      ∀ name ∈ names.dropLast, String.ofList name ∉ excluded := by
  rw [isKept, Bool.and_eq_true, List.all_eq_true, List.all_eq_true]
  refine and_congr (forall₂_congr fun name _ => ?_) (forall₂_congr fun name _ => ?_)
  · rw [← startsWith_iff, Bool.not_eq_true', Bool.not_eq_true]
    rfl
  · rw [isOneOf, Bool.not_eq_true', ← Bool.not_eq_true, List.contains_iff_mem]

namespace Tree

theorem Lists.unique {t : Tree} {options : WalkOptions} {listing other : List (List Text)}
    (h : t.Lists options listing) (h' : t.Lists options other) : other = listing :=
  ComesBefore.unique h'.order h.order fun names => (h'.mem names).trans (h.mem names).symm

theorem spelt_of_descend? {t : Tree} (h : t.Everywhere IsNamed) (names : List Text) (d : Tree)
    (hd : t.descend? names = some d) : ∀ name ∈ names, name ≠ [] ∧ '/' ∉ name := by
  induction names generalizing t with
  | nil => exact fun _ hn => nomatch hn
  | cons name names ih =>
    obtain ⟨c, hc, hd⟩ := Option.bind_eq_some_iff.mp hd
    have hentry := h.here.spelt (name, c) (mem_of_child? hc)
    exact List.forall_mem_cons.mpr ⟨hentry, ih (h.child hc) hd⟩

theorem isShownName_of_kept {t : Tree} (h : t.Everywhere IsNamed) (excluded : List String)
    (names : List Text) (d : Tree) (hd : t.descend? names = some d)
    (hkept : isKept excluded names = true) : ∀ name ∈ names, IsShownName name := by
  intro name hn
  obtain ⟨hne, hslash⟩ := spelt_of_descend? h names d hd name hn
  exact ⟨hne, hslash, ((isKept_iff excluded names).mp hkept).1 name hn⟩

/-- The names that a walk takes in, without the limit. -/
def taken (options : WalkOptions) (spelling : Path) (t : Tree) : List (List Text) :=
  (t.inOrder.listing.filter (isKept options.excluded)).filter fun names =>
    hasExtension options.extensions (spelling.below names)

theorem taken_lists (options : WalkOptions) (spelling : Path) (t : Tree) (ht : t.isDirectory = true)
    (h : t.Everywhere IsNamed) : t.Lists options (t.taken options spelling) := by
  obtain ⟨hmem, horder⟩ := listing_inOrder (h.imp fun _ hd => hd.once)
  refine ⟨fun names => ?_, (horder.filter _).filter _⟩
  rw [taken, List.mem_filter, List.mem_filter, hmem, and_assoc]
  refine and_congr_right fun ⟨c, hc⟩ => ?_
  -- the directory itself is no file, so there is a last name
  have hlast : ∃ name, names.getLast? = some name := by
    cases names with
    | nil =>
      cases hc
      cases ht
    | cons name names => exact ⟨_, List.getLast?_eq_some_getLast (List.cons_ne_nil name names)⟩
  obtain ⟨name, hname⟩ := hlast
  constructor
  · rintro ⟨hkept, hext⟩
    have hshown := isShownName_of_kept h options.excluded names _ hc hkept
    rw [hasExtension_iff _ _ name (fileName?_below spelling names hshown name hname)] at hext
    obtain ⟨hdots, hentered⟩ := (isKept_iff _ _).mp hkept
    exact ⟨hdots, hentered, name, hname, hext⟩
  · rintro ⟨hdots, hentered, last, hl, hext⟩
    have hkept := (isKept_iff options.excluded names).mpr ⟨hdots, hentered⟩
    have hshown := isShownName_of_kept h options.excluded names _ hc hkept
    cases hname.symm.trans hl
    exact ⟨hkept, (hasExtension_iff _ _ name (fileName?_below spelling names hshown name hname)).mpr hext⟩

theorem taken_below_nodup (options : WalkOptions) (spelling : Path) (t : Tree)
    (ht : t.isDirectory = true) (h : t.Everywhere IsNamed) :
    ((t.taken options spelling).map spelling.below).Nodup := by
  have hlists := taken_lists options spelling t ht h
  have hshown : ∀ names ∈ t.taken options spelling, ∀ name ∈ names, IsShownName name := by
    intro names hn
    obtain ⟨⟨c, hc⟩, hallowed⟩ := (hlists.mem names).mp hn
    exact isShownName_of_kept h options.excluded names _ hc
      ((isKept_iff _ _).mpr ⟨hallowed.shown, hallowed.entered⟩)
  exact (ComesBefore.nodup hlists.order).map_on fun names hn others ho =>
    below_injective spelling names others (hshown names hn) (hshown others ho)

/-! ### Walks -/

theorem isDirectory_inOrder (t : Tree) : t.inOrder.isDirectory = t.isDirectory := by
  cases t <;> rfl

theorem hasNoIgnoreFile_inOrder {t : Tree} (h : t.Everywhere NamesOnce) :
    t.inOrder.hasNoIgnoreFile = t.hasNoIgnoreFile := by
  simp only [hasNoIgnoreFile, descend?_inOrder h, Option.all_map, isDirectory_inOrder]

theorem walkAs_eq (root : Tree) (options : WalkOptions) (p spelling : Path) (place : Place)
    (hp : root.locate p = .ok place) (h : place.tree.Everywhere IsNamed)
    (hrules : place.tree.Everywhere fun d => d.hasNoIgnoreFile = true)
    (habove : ∀ front d, front <+: place.names → root.descend? front = some d →
      d.hasNoIgnoreFile = true) :
    root.walkAs options p spelling =
      ((place.tree.taken options spelling).map spelling.below).take options.maxFiles := by
  have honce := h.imp fun _ hd => hd.once
  have hinner : place.tree.inOrder.Everywhere fun d => d.hasNoIgnoreFile = true :=
    Everywhere.inOrder (fun names d hd =>
      (hasNoIgnoreFile_inOrder (honce.everywhere names d hd)).trans (hrules names d hd)) honce
  have hfiles := filesOf_silent options.excluded (layersAbove [] root place.names)
    (layersAbove_silent [] (fun _ hl => nomatch hl) root place.names habove) spelling place.tree.inOrder
    (Everywhere.inOrder (honce.imp fun _ => inOrder_namesOnce) honce) hinner
  simp only [walkAs, hp, hfiles, List.filter_map, taken, Function.comp_def]

/-- A walk from a directory without ignore files in it, below it and above it gives the first of the files
that it may take in, depth first. Below the limit it gives all of them; it gives none twice, and with a
smaller limit it stops earlier. -/
theorem walkAs_lists (root : Tree) (options : WalkOptions) (p spelling : Path) (place : Place)
    (hp : root.locate p = .ok place) (hd : place.tree.isDirectory = true)
    (h : place.tree.Everywhere IsNamed)
    (hrules : place.tree.Everywhere fun d => d.hasNoIgnoreFile = true)
    (habove : ∀ front d, front <+: place.names → root.descend? front = some d →
      d.hasNoIgnoreFile = true) :
    ∃ listing, place.tree.Lists options listing ∧
      (∀ other, place.tree.Lists options other → other = listing) ∧
      root.walkAs options p spelling = (listing.map spelling.below).take options.maxFiles ∧
      ((root.walkAs options p spelling).length < options.maxFiles →
        ∀ names ∈ listing, spelling.below names ∈ root.walkAs options p spelling) ∧
      (root.walkAs options p spelling).Nodup ∧
      ∀ fewer ≤ options.maxFiles,
        root.walkAs { options with maxFiles := fewer } p spelling <+: root.walkAs options p spelling := by
  have hwalk := walkAs_eq root options p spelling place hp h hrules habove
  have hlists := taken_lists options spelling place.tree hd h
  refine ⟨_, hlists, fun other hother => hlists.unique hother, hwalk, fun hshort names hn => ?_, ?_,
    fun fewer hle => ?_⟩
  · rw [hwalk, List.length_take] at hshort
    rw [hwalk, List.take_of_length_le (by omega)]
    exact List.mem_map_of_mem hn
  · rw [hwalk]
    exact (taken_below_nodup options spelling place.tree hd h).sublist (List.take_sublist _ _)
  · rw [hwalk, walkAs_eq root { options with maxFiles := fewer } p spelling place hp h hrules habove]
    exact List.take_prefix_take_left hle

/-- A directory with sources, one of them hidden, and with an excluded directory. -/
def sources : Tree :=
  .directory
    [("Main.JS".toList, .file (.text [])),
      ("node_modules".toList, .directory [("i.js".toList, .file (.text []))]),
      ("src".toList, .directory [(".c.ts".toList, .file (.text [])), ("a.TS".toList, .file (.text [])),
        ("b.ts".toList, .file (.text []))])]

theorem sources_everywhere : sources.Everywhere fun d => d.IsNamed ∧ d.hasNoIgnoreFile = true := by
  have hfile : ∀ content, (file content).Everywhere fun d => d.IsNamed ∧ d.hasNoIgnoreFile = true :=
    fun _ => .file ⟨⟨List.nodup_nil, fun _ he => nomatch he⟩, rfl⟩
  refine .directory (by decide) ?_
  simp only [List.forall_mem_cons]
  refine ⟨hfile _, .directory (by decide) ?_, .directory (by decide) ?_, fun _ he => nomatch he⟩
  · simp only [List.forall_mem_cons]
    exact ⟨hfile _, fun _ he => nomatch he⟩
  · simp only [List.forall_mem_cons]
    exact ⟨hfile _, hfile _, hfile _, fun _ he => nomatch he⟩

theorem sources_inOrder : sources.inOrder = sources := by
  simp only [sources, inOrder, entriesInOrder, List.mergeSort_singleton]
  rw [List.mergeSort_of_pairwise (by decide), List.mergeSort_of_pairwise (by decide)]

theorem walkAs_lists_sources :
    ∃ listing, sources.Lists ⟨[".js", "ts"], ["node_modules"], 2⟩ listing ∧
      (directory [("w".toList, sources)]).walk ⟨[".js", "ts"], ["node_modules"], 2⟩ (.ofString "/w") =
        (listing.map (Path.ofString "/w").below).take 2 ∧
      (listing.map (Path.ofString "/w").below).take 2 =
        [.ofString "/w/Main.JS", .ofString "/w/src/a.TS"] := by
  have hplace : (directory [("w".toList, sources)]).locate (.ofString "/w") =
      .ok ⟨["w".toList], sources⟩ := rfl
  obtain ⟨listing, hlists, -, hwalk, -⟩ := walkAs_lists (directory [("w".toList, sources)])
    ⟨[".js", "ts"], ["node_modules"], 2⟩ (.ofString "/w") (.ofString "/w") ⟨["w".toList], sources⟩ hplace rfl
    (sources_everywhere.imp fun _ hd => hd.1) (sources_everywhere.imp fun _ hd => hd.2) (by
      intro front d hfront hd
      rcases List.prefix_cons_iff.mp hfront with rfl | ⟨rest, rfl, hrest⟩
      · cases hd
        decide
      · cases List.prefix_nil.mp hrest
        cases hd
        decide)
  refine ⟨listing, hlists, hwalk, ?_⟩
  rw [← hwalk]
  simp only [walkAs, hplace, sources_inOrder]
  decide +kernel

end Tree

end CodeIndex
