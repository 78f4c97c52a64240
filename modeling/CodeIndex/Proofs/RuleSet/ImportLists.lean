import CodeIndex.Proofs.Regex.Language
import CodeIndex.Proofs.Structure.PrintedParameter
import CodeIndex.Proofs.Text.Name
import CodeIndex.Proofs.Text.Places
import CodeIndex.RuleSet.JavaScript

/-!
# Lists of imported names

The items of a list between braces are names, each with the local name that it gets, if any. What the rules read
of a list are its local names: dollar signs are kept, and a name is no other for being spelled like the words
between it and its local name.
-/

namespace CodeIndex

namespace JavaScript

open Regex

/-! ### Items -/

/-- A name in a list: one or more word characters and dollar signs. -/
structure ListedName where
  text : Text
  nonempty : text ≠ []
  letters : text.Uses ['$']

/-- How a list gives a name another local name. -/
inductive Renaming where
  | as_
  | colon

def Renaming.text : Renaming → Text
  | .as_ => " as ".toList
  | .colon => ": ".toList

/-- An item of a list: a name, and its local name if that is another one. The word `type` in front of `as` does not
name anything. -/
structure ListedItem (form : Renaming) where
  name : ListedName
  renamed : Option ListedName
  plain : form = .as_ → renamed.isSome = true → name.text ≠ "type".toList

namespace ListedName

variable (n : ListedName)

theorem not_blank : ∀ c ∈ n.text, isBlank c = false :=
  n.letters.outside (fun _ => isBlank_eq_false) (Text.forall_mem _ (by decide))

theorem trimmed : n.text.trim = n.text := trim_of_not_blank n.text n.not_blank

end ListedName

namespace ListedItem

variable {form : Renaming} (item : ListedItem form)

def tail : Text :=
  match item.renamed with
  | none => []
  | some other => form.text ++ other.text

def text : Text :=
  item.name.text ++ item.tail

theorem text_of_none (h : item.renamed = none) : item.text = item.name.text := by
  rw [text, tail, h, List.append_nil]

theorem text_of_some {other : ListedName} (h : item.renamed = some other) :
    item.text = item.name.text ++ (form.text ++ other.text) := by
  rw [text, tail, h]

/-- The name that an item has in the importing module. -/
def localName : String :=
  String.ofList (item.renamed.getD item.name).text

theorem uses : item.text.Uses ['$', ' ', ':'] := by
  have hname : ∀ n : ListedName, n.text.Uses ['$', ' ', ':'] := fun n => n.letters.mono (by decide)
  have hseparator : form.text.Uses ['$', ' ', ':'] := by cases form <;> exact .of_all (by decide)
  cases hrenamed : item.renamed with
  | none =>
    rw [item.text_of_none hrenamed]
    exact hname item.name
  | some other =>
    rw [item.text_of_some hrenamed]
    exact (hname item.name).append (hseparator.append (hname other))

theorem trimmed : item.text.trim = item.text := by
  cases hrenamed : item.renamed with
  | none =>
    rw [item.text_of_none hrenamed]
    exact item.name.trimmed
  | some other =>
    rw [item.text_of_some hrenamed]
    refine Text.trim_append _ _ item.name.trimmed item.name.nonempty fun c hc => ?_
    rw [List.getLast?_append_of_ne_nil _ other.nonempty] at hc
    exact other.not_blank c (List.mem_of_getLast? hc)

/-- An item does not begin like a type. -/
theorem not_type : Text.dropStart? "type ".toList item.text = none := by
  refine Option.eq_none_iff_forall_ne_some.mpr fun rest hdrop => ?_
  have hsplit : item.text = "type".toList ++ ' ' :: rest := Text.dropStart?_eq_some "type ".toList _ _ hdrop
  have hblank : ∀ c ∈ item.name.text, (c != ' ') = true := fun c hc => by
    refine bne_iff_ne.mpr ?_
    rintro rfl
    exact item.name.letters.not_mem (by decide) (by decide) hc
  have htype : ∀ c ∈ "type".toList, (c != ' ') = true := Text.forall_mem _ (by decide)
  cases hrenamed : item.renamed with
  | none =>
    rw [item.text_of_none hrenamed] at hsplit
    refine item.name.letters.not_mem (d := ' ') (by decide) (by decide) ?_
    rw [hsplit]
    exact List.mem_append_right _ List.mem_cons_self
  | some other =>
    rw [item.text_of_some hrenamed] at hsplit
    cases form with
    | as_ =>
      obtain ⟨hname, -⟩ := run_unique hsplit hblank rfl htype rfl
      exact item.plain rfl (by rw [hrenamed]; rfl) hname
    | colon =>
      have hcolon : ∀ c ∈ item.name.text ++ [':'], (c != ' ') = true :=
        List.forall_mem_append.mpr ⟨hblank, Text.forall_mem _ (by decide)⟩
      have hspaced : item.name.text ++ [':'] ++ ' ' :: other.text = "type".toList ++ ' ' :: rest := by
        rw [List.append_assoc]
        exact hsplit
      obtain ⟨hname, -⟩ := run_unique hspaced hcolon rfl htype rfl
      have hmem : ':' ∈ "type".toList := hname ▸ List.mem_append_right _ List.mem_cons_self
      exact absurd hmem (by decide)

/-- Only the word `as` stands between two spaces of an item. -/
theorem splitLast?_none (h : form = .colon ∨ item.renamed = none) : Text.splitLast? " as ".toList item.text = none := by
  have hspaces : ∀ n : ListedName, n.text.count ' ' = 0 := fun n =>
    List.count_eq_zero.mpr (n.letters.not_mem (by decide) (by decide))
  have hcount : item.text.count ' ' ≤ 1 := by
    cases hrenamed : item.renamed with
    | none =>
      rw [item.text_of_none hrenamed, hspaces]
      exact Nat.zero_le 1
    | some other =>
      obtain rfl : form = .colon := h.resolve_right (by rw [hrenamed]; exact Option.some_ne_none other)
      have hcolon : Renaming.colon.text.count ' ' = 1 := rfl
      rw [item.text_of_some hrenamed, List.count_append, List.count_append, hspaces, hspaces, hcolon]
  rw [Text.splitLast?, Option.map_eq_none_iff]
  refine Option.eq_none_iff_forall_ne_some.mpr fun parts hparts => ?_
  have hsplit := congrArg (List.count ' ') (Text.splitFirst?_eq_some _ _ parts.1 parts.2 hparts)
  have hneedle : " as ".toList.reverse.count ' ' = 2 := rfl
  rw [List.count_reverse, List.count_append, List.count_append, hneedle] at hsplit
  omega

theorem splitLast?_as (item : ListedItem .as_) {other : ListedName} (h : item.renamed = some other) :
    Text.splitLast? " as ".toList item.text = some (item.name.text, other.text) := by
  have hnot : ' ' ∉ other.text.reverse := fun hmem =>
    other.letters.not_mem (by decide) (by decide) (List.mem_reverse.mp hmem)
  have hreverse : item.text.reverse = other.text.reverse ++ (' ' :: "sa ".toList ++ item.name.text.reverse) := by
    rw [item.text_of_some h, List.reverse_append, List.reverse_append, List.append_assoc]
    rfl
  rw [Text.splitLast?, hreverse, show " as ".toList.reverse = ' ' :: "sa ".toList from rfl,
    Text.splitFirst?_append _ _ _ _ hnot, Option.map_some]
  simp only [List.reverse_reverse]

/-- White space around an item does not matter. -/
theorem localName?_text (before behind : Gap) :
    localName? (before.text ++ (item.text ++ behind.text)) = some item.localName := by
  have hname : ∀ n : ListedName, ∀ t : Text, t.trim = n.text → nonEmptyString? t = some (String.ofList n.text) := by
    intro n t ht
    have hsome : n.text.isEmpty = false := List.isEmpty_eq_false_iff.mpr n.nonempty
    rw [nonEmptyString?, Text.nonEmpty?, ht, hsome, if_neg Bool.false_ne_true, Option.map_some]
  have hdropped : ∀ fuel, Text.dropStarts "type ".toList fuel item.text = item.text := fun fuel => by
    cases fuel with
    | zero => rfl
    | succ fuel => rw [Text.dropStarts, item.not_type]
  rw [localName?, Text.trim_between _ _ _ before.blank behind.blank item.trimmed, hdropped, item.trimmed, localName]
  cases hrenamed : item.renamed with
  | none =>
    have hcolon : Text.splitFirst? [':'] item.text = none := by
      rw [item.text_of_none hrenamed]
      exact Text.splitFirst?_none ':' _ (item.name.letters.not_mem (by decide) (by decide))
    rw [item.splitLast?_none (Or.inr hrenamed), hcolon]
    exact hname item.name _ (by rw [item.trimmed, item.text_of_none hrenamed])
  | some other =>
    cases form with
    | as_ =>
      rw [item.splitLast?_as hrenamed]
      exact hname other _ other.trimmed
    | colon =>
      have hcolon : Text.splitFirst? [':'] item.text = some (item.name.text, ' ' :: other.text) := by
        rw [item.text_of_some hrenamed]
        exact Text.splitFirst?_char ':' _ _ (item.name.letters.not_mem (by decide) (by decide))
      have hspaced : Text.trim (' ' :: other.text) = other.text := by
        have htrim := Text.trim_between [' '] other.text [] Gap.space.blank (List.forall_mem_nil _) other.trimmed
        rwa [List.append_nil] at htrim
      rw [item.splitLast?_none (Or.inl rfl), hcolon]
      exact hname other _ hspaced

end ListedItem

/-! ### Lists -/

/-- A list of items: the first one, and each of the others behind a comma and some spaces. -/
structure ItemList (form : Renaming) where
  first : ListedItem form
  more : List (Nat × ListedItem form)

namespace ItemList

variable {form : Renaming}

def listed (more : List (Nat × ListedItem form)) : Text :=
  more.flatMap fun item => ',' :: (List.replicate item.1 ' ' ++ item.2.text)

def text (list : ItemList form) : Text :=
  list.first.text ++ listed list.more

def localNames (list : ItemList form) : List String :=
  list.first.localName :: list.more.map fun item => item.2.localName

theorem uses (list : ItemList form) : list.text.Uses ['$', ' ', ':', ','] := by
  have hitem : ∀ item : ListedItem form, item.text.Uses ['$', ' ', ':', ','] := fun item => item.uses.mono (by decide)
  refine (hitem list.first).append fun c hc => ?_
  obtain ⟨⟨spaces, item⟩, -, hc⟩ := List.mem_flatMap.mp hc
  have hspaces : Text.Uses (List.replicate spaces ' ') ['$', ' ', ':', ','] := fun c hc => by
    obtain rfl := List.eq_of_mem_replicate hc
    exact Or.inr (by decide)
  rcases List.mem_cons.mp hc with rfl | hc
  · exact Or.inr (by decide)
  · exact hspaces.append (hitem item) c hc

/-- The rules read the local names of a list between its braces, in order. -/
theorem localNames_text (list : ItemList form) (before : Gap) :
    JavaScript.localNames (before.text ++ (list.text ++ [' '])) = list.localNames := by
  obtain ⟨first, more⟩ := list
  have hpiece : ∀ (before behind : Gap) (item : ListedItem form),
      ∀ c ∈ before.text ++ (item.text ++ behind.text), (c == ',') = false := by
    intro before behind item
    have hblank : ∀ gap : Gap, ∀ c ∈ gap.text, (c == ',') = false := by
      intro gap c hc
      refine beq_eq_false_iff_ne.mpr ?_
      rintro rfl
      exact absurd (gap.blank _ hc) (by decide)
    refine List.forall_mem_append.mpr ⟨hblank before, List.forall_mem_append.mpr ⟨fun c hc => ?_, hblank behind⟩⟩
    refine beq_eq_false_iff_ne.mpr ?_
    rintro rfl
    exact item.uses.not_mem (by decide) (by decide) hc
  induction more generalizing first before with
  | nil =>
    have hsplit := splitOn_of_none (· == ',') _ (hpiece before .space first)
    rw [text, listed, List.flatMap_nil, List.append_nil, JavaScript.localNames]
    rw [show first.text ++ [' '] = first.text ++ Gap.space.text from rfl, hsplit]
    exact List.filterMap_cons_some (first.localName?_text before .space)
  | cons item more ih =>
    obtain ⟨spaces, item⟩ := item
    have hmore := ih ⟨List.replicate spaces ' ', fun c hc => by rw [List.eq_of_mem_replicate hc]; rfl⟩ item
    have htext : before.text ++ (text ⟨first, (spaces, item) :: more⟩ ++ [' ']) =
        (before.text ++ (first.text ++ Gap.none.text)) ++
          ',' :: (List.replicate spaces ' ' ++ (text ⟨item, more⟩ ++ [' '])) := by
      simp only [text, listed, List.flatMap_cons, List.append_assoc, List.cons_append, Gap.none, List.nil_append]
    rw [JavaScript.localNames] at hmore
    rw [htext, JavaScript.localNames, splitOn_append _ _ _ ',' rfl, splitOn_of_none _ _ (hpiece before .none first),
      List.filterMap_append, hmore, List.filterMap_cons_some (first.localName?_text before .none)]
    rfl

end ItemList

end JavaScript

end CodeIndex
