import Mathlib
import Warrant.Proofs.Owners

/-!
# What identifiers look like

An identifier is a word of name characters, or such a word with one line feed behind it
(`Identifier.isAccepted_iff`). In the display of an entity, in its path and in the path within the name
of a shadow role, the marks part just the identifiers of the nodes (`Entity.words_text`,
`Entity.words_path`, `ShadowRole.pathPart?_name`). So nothing else stands in a place of an identifier.
-/

namespace Warrant

namespace Identifier

variable {c : Char} {cs : List Char}

/-- The characters of names, spelled out. -/
def NameChar (c : Char) : Prop :=
  ('a' ≤ c ∧ c ≤ 'z') ∨ ('A' ≤ c ∧ c ≤ 'Z') ∨ ('0' ≤ c ∧ c ≤ '9') ∨ c = '_' ∨ c = '-' ∨ c = '.'

instance (c : Char) : Decidable (NameChar c) := inferInstanceAs (Decidable (_ ∨ _))

/-- Some name characters and nothing else. -/
def Proper (cs : List Char) : Prop := cs ≠ [] ∧ ∀ c ∈ cs, NameChar c

theorem isNameChar_iff : isNameChar c = true ↔ NameChar c := by
  simp only [isNameChar, NameChar, Char.isAlphanum, Char.isAlpha, Char.isUpper, Char.isLower,
    Char.isDigit, Bool.or_eq_true, Bool.and_eq_true, decide_eq_true_eq, beq_iff_eq]
  simp only [ge_iff_le, Char.le_def, UInt32.le_iff_toNat_le]
  tauto

theorem isWord_iff : isWord cs = true ↔ Proper cs := by
  simp [isWord, Proper, isNameChar_iff]

instance (cs : List Char) : Decidable (Proper cs) := decidable_of_iff _ isWord_iff

theorem isAccepted_iff : isAccepted cs = true ↔ Proper cs ∨ ∃ w, Proper w ∧ cs = w ++ ['\n'] := by
  rw [isAccepted, Bool.or_eq_true, Bool.and_eq_true, beq_iff_eq, isWord_iff, isWord_iff]
  refine or_congr_right ⟨?_, ?_⟩
  · rintro ⟨hlast, hword⟩
    obtain ⟨front, rfl⟩ := List.getLast?_eq_some_iff.mp hlast
    rw [List.dropLast_concat] at hword
    exact ⟨front, hword, rfl⟩
  · rintro ⟨w, hw, rfl⟩
    rw [List.getLast?_concat, List.dropLast_concat]
    exact ⟨rfl, hw⟩

theorem make?_isOk_iff {what value : String} :
    (∃ i, make? what value = .ok i) ↔ isAccepted value.toList = true := by
  rw [make?]
  split
  · rename_i h
    exact ⟨fun _ => h, fun _ => ⟨_, rfl⟩⟩
  · rename_i h
    refine ⟨?_, fun hi => absurd hi h⟩
    rintro ⟨i, hi⟩
    cases hi

/-- What is accepted is proper unless a line feed stands in it. -/
theorem proper_iff_of_isAccepted (h : isAccepted cs = true) : Proper cs ↔ '\n' ∉ cs := by
  constructor
  · intro hp hn
    exact absurd (hp.2 '\n' hn) (by decide)
  · intro hn
    rcases isAccepted_iff.mp h with hp | ⟨w, -, rfl⟩
    · exact hp
    · exact absurd (List.mem_append_right w (List.mem_singleton.mpr rfl)) hn

end Identifier

open Identifier

namespace Node

/-- The name of the node and its qualifier if it has one, in the order in which they are displayed. -/
def words (n : Node) : List (List Char) :=
  match n.qualifier with
  | none => [n.name.text.toList]
  | some q =>
    if n.type = .of .program then [q.text.toList, n.name.text.toList]
    else [n.name.text.toList, q.text.toList]

theorem mem_words_iff {n : Node} {w : List Char} : w ∈ n.words ↔
    w = n.name.text.toList ∨ ∃ q, n.qualifier = some q ∧ w = q.text.toList := by
  obtain ⟨t, i, q⟩ := n
  cases q with
  | none => simp [words]
  | some q => by_cases ht : t = .of .program <;> simp [words, ht, or_comm]

theorem isAccepted_of_mem_words {n : Node} {w : List Char} (h : w ∈ n.words) :
    isAccepted w = true := by
  rcases mem_words_iff.mp h with rfl | ⟨q, -, rfl⟩
  · exact n.name.accepted
  · exact q.accepted

/-- The separator parts the words of a component. -/
theorem parts_component (n : Node) : Text.parts separator n.component.toList = n.words := by
  have hpair : ∀ i j : Identifier,
      Text.parts separator (i.text ++ String.singleton separator ++ j.text).toList =
        [i.text.toList, j.text.toList] := fun i j => by
    rw [toList_pair, Text.parts_append_mark (i.mark_not_mem (.inl rfl)),
      Text.parts_of_not_mem (j.mark_not_mem (.inl rfl))]
  obtain ⟨t, i, q⟩ := n
  cases q with
  | none =>
    rw [component_none]
    exact Text.parts_of_not_mem (i.mark_not_mem (.inl rfl))
  | some q =>
    by_cases ht : t = .of .program
    · subst ht
      exact hpair q i
    · rw [component_version ht, hpair, words]
      exact (if_neg ht).symm

end Node

namespace Path

/-- What stands in the places of identifiers in a path: the parts of the values of its levels. -/
def wordsIn (cs : List Char) : List (List Char) :=
  (Text.parts slash cs).flatMap fun level =>
    match Text.cut? Segment.equals level with
    | some (_, value) => Text.parts Node.separator value
    | none => []

end Path

namespace Entity

variable {e : Entity} {r : Resolver} {path : Path}

/-- The nodes in the display of an entity: all but the instance, unless it is the instance itself. -/
def shown (e : Entity) : List Node := if e.depth = 1 then e.nodes else e.nodes.drop 1

/-- The names and qualifiers of an entity and of those above it. -/
def words (e : Entity) : List (List Char) := e.nodes.flatMap Node.words

theorem shown_ne_nil (e : Entity) : e.shown ≠ [] := by
  rw [shown]
  split
  · exact e.nonempty
  · rename_i hdepth
    intro hnil
    have hle : e.depth ≤ 1 := List.drop_eq_nil_iff.mp hnil
    have hpos : 0 < e.depth := List.length_pos_of_ne_nil e.nonempty
    omega

theorem toList_text (e : Entity) : e.text.toList = e.type.label.toList ++
    ':' :: Text.joined Path.slash (e.shown.map fun n => n.component.toList) := by
  simp [text, shown]
  rfl

theorem parts_shown (e : Entity) :
    Text.parts Path.slash (Text.joined Path.slash (e.shown.map fun n => n.component.toList)) =
      e.shown.map fun n => n.component.toList := by
  refine Text.parts_joined (by simpa using e.shown_ne_nil) fun cs hcs => ?_
  obtain ⟨n, -, rfl⟩ := List.mem_map.mp hcs
  exact n.mark_not_mem_component (.inr (.inr (.inl rfl))) (by decide)

/-- In the display of an entity the marks part the identifiers of the nodes that it shows. -/
theorem words_text (e : Entity) : ∃ behind, e.text.toList = e.type.label.toList ++ ':' :: behind ∧
    (Text.parts Path.slash behind).flatMap (Text.parts Node.separator) =
      e.shown.flatMap Node.words := by
  refine ⟨_, e.toList_text, ?_⟩
  rw [e.parts_shown, List.flatMap_map]
  exact List.flatMap_congr fun n _ => n.parts_component

/-- In the path of an entity they part the identifiers of all its nodes. -/
theorem words_path (h : r.resolve e = .ok path) : Path.wordsIn path.text.toList = e.words := by
  have hplain : ∀ s ∈ path.segments, s.Plain := Resolver.plain_of_resolve h
  obtain rfl := Resolver.eq_path_of_resolve h
  rw [Path.wordsIn, Path.parts_text (by simpa [Entity.path] using e.nonempty)
    fun s hs => (hplain s hs).legible, words, Entity.path, List.map_map, List.flatMap_map]
  refine List.flatMap_congr fun n hn => ?_
  have hcut : Text.cut? Segment.equals n.segment.chars =
      some (n.segment.name.toList, n.component.toList) :=
    Text.cut?_eq_some_iff.mpr ⟨rfl, (hplain _ (List.mem_map_of_mem hn)).equals_not_mem⟩
  rw [Function.comp_apply, hcut]
  exact n.parts_component

end Entity

namespace ShadowRole

variable {r : Resolver} {e : Entity} {p : Principal} {role : String}

/-- What stands between the marker of a name and the first colon behind it. -/
def pathPart? (role : String) : Option (List Char) :=
  (Text.cut? colon (role.toList.drop marker.length)).map Prod.fst

theorem pathPart?_name (h : name? r e p = .ok role) :
    ∃ part, pathPart? role = some part ∧ Path.wordsIn part = e.words := by
  obtain ⟨-, path, hpath, rfl⟩ := name?_eq_ok_iff.mp h
  refine ⟨path.text.toList, ?_, Entity.words_path hpath⟩
  rw [pathPart?, cut?_nameOn (Resolver.plain_of_resolve hpath)]
  rfl

end ShadowRole

namespace Entity

/-- A text is accepted as a name if it consists of name characters, or of name characters and one line
feed at its end. The places of identifiers in the display of an entity, in its path and in the path
within the name of a shadow role hold the names and qualifiers of the entity and of those above it,
which are accepted. So every such place holds name characters only, unless a line feed ends it. -/
theorem identifiers_by_grammar (r : Resolver) :
    (∀ what value, (∃ i, Identifier.make? what value = .ok i) ↔
      Proper value.toList ∨ ∃ w, Proper w ∧ value.toList = w ++ ['\n']) ∧
    ∀ e : Entity,
      (∀ w, w ∈ e.words ↔ ∃ n ∈ e.nodes,
        w = n.name.text.toList ∨ ∃ q, n.qualifier = some q ∧ w = q.text.toList) ∧
      (∃ behind, e.text.toList = e.type.label.toList ++ ':' :: behind ∧
        (Text.parts Path.slash behind).flatMap (Text.parts Node.separator) =
          e.shown.flatMap Node.words ∧ e.shown <:+ e.nodes) ∧
      (∀ path, r.resolve e = .ok path → Path.wordsIn path.text.toList = e.words) ∧
      (∀ p role, ShadowRole.name? r e p = .ok role →
        ∃ part, ShadowRole.pathPart? role = some part ∧ Path.wordsIn part = e.words) ∧
      ∀ w ∈ e.words, (Proper w ↔ '\n' ∉ w) ∧ (Proper w ∨ ∃ v, Proper v ∧ w = v ++ ['\n']) := by
  refine ⟨fun what value => make?_isOk_iff.trans isAccepted_iff, fun e => ⟨fun w => ?_, ?_,
    fun path => words_path, fun p role => ShadowRole.pathPart?_name, fun w hw => ?_⟩⟩
  · simp only [words, List.mem_flatMap, Node.mem_words_iff]
  · obtain ⟨behind, htext, hwords⟩ := e.words_text
    refine ⟨behind, htext, hwords, ?_⟩
    rw [shown]
    split
    · exact List.suffix_rfl
    · exact List.drop_suffix ..
  · obtain ⟨n, -, hw⟩ := List.mem_flatMap.mp hw
    have haccepted := Node.isAccepted_of_mem_words hw
    exact ⟨proper_iff_of_isAccepted haccepted, isAccepted_iff.mp haccepted⟩

namespace Sample

open Resolver.Sample ShadowRole.Sample

/-- Of the identifiers of the program only its name, which ends with a line feed, is not proper. -/
theorem words_of_flow :
    (∃ path, served.resolve flow = .ok path ∧ Path.wordsIn path.text.toList = flow.words) ∧
    (∃ role, ShadowRole.name? served flow mimic = .ok role ∧
      ∃ part, ShadowRole.pathPart? role = some part ∧ Path.wordsIn part = flow.words) ∧
    flow.words = ["cdap", "ns1", "app1", "1.0", "flow", "f1\n"].map String.toList ∧
    Proper "1.0".toList ∧ ¬ Proper "f1\n".toList := by
  have hwords : flow.words = ["cdap", "ns1", "app1", "1.0", "flow", "f1\n"].map String.toList := by
    decide +kernel
  have hpath : served.resolve flow = .ok flow.path := toOption_eq_some_iff.mp (by decide +kernel)
  obtain ⟨-, -, hplaces, hroles, hproper⟩ := (identifiers_by_grammar served).2 flow
  have hname : ShadowRole.name? served flow mimic = .ok (ShadowRole.nameOn flow.path mimic) :=
    ShadowRole.name?_of_resolve hpath (by decide)
  have hversion : "1.0".toList ∈ flow.words := by rw [hwords]; decide
  have hflow : "f1\n".toList ∈ flow.words := by rw [hwords]; decide
  exact ⟨⟨_, hpath, hplaces _ hpath⟩, ⟨_, hname, hroles mimic _ hname⟩, hwords,
    (hproper _ hversion).1.mpr (by decide), fun h => (hproper _ hflow).1.mp h (by decide)⟩

/-- The name of an instance may end with a line feed, and shows it. -/
theorem line_feed_accepted : ¬ Proper "cdap\n".toList ∧
    (∃ i, Identifier.make? "name" "cdap\n" = .ok i) ∧
    make? (.of .root) "cdap\n" none none = .ok odd ∧ odd.text = "instance:cdap\n" :=
  ⟨by decide, ⟨_, rfl⟩, toOption_eq_some_iff.mp (by decide +kernel), by decide +kernel⟩

end Sample

end Entity

end Warrant
