import Warrant.Proofs.Grammar
import Warrant.Audit.Event

/-!
# What a display tells

The display of an entity leaves out the instance that it belongs to. It tells everything else: the word
in front tells the type, the type tells those of the entities above (`Node.types_of_descends`), and with
them how the components are to be read. So entities of one instance differ in their displays
(`Entity.text_injective`), also where the display stands inside the wording of a fault
(`Fault.text_of_message`).
-/

namespace Warrant

namespace Node

variable {as bs : List Node}

/-- The type of the last node tells the types of all nodes above it. -/
theorem types_of_descends (ha : Descends none as) (hb : Descends none bs)
    (h : as.getLast?.map type = bs.getLast?.map type) : as.map type = bs.map type := by
  induction as using List.reverseRecOn generalizing bs with
  | nil =>
    obtain rfl : bs = [] := by simpa [eq_comm] using h
    rfl
  | append_singleton front n ih =>
    rcases List.eq_nil_or_concat bs with rfl | ⟨front', m, rfl⟩
    · simp at h
    · rw [List.concat_eq_append] at hb h ⊢
      have htype : n.type = m.type := by simpa using h
      have habove : front.getLast?.map type = front'.getLast?.map type := by
        have hn := ha.split.2
        have hm := hb.split.2
        rw [htype, hm] at hn
        simpa using hn.symm
      have hfront := ih (by simpa using ha.dropLast) (by simpa using hb.dropLast) habove
      rw [List.map_append, List.map_append, hfront, List.map_singleton, List.map_singleton, htype]

/-- Nodes are known from their types and components. -/
theorem eq_of_components (ha : ∀ n ∈ as, isQualified n.type n.qualifier = true)
    (hb : ∀ n ∈ bs, isQualified n.type n.qualifier = true) (ht : as.map type = bs.map type)
    (hc : as.map component = bs.map component) : as = bs := by
  induction as generalizing bs with
  | nil => simpa using ht
  | cons n as ih =>
    cases bs with
    | nil => cases ht
    | cons m bs =>
      rw [List.map_cons, List.map_cons, List.cons.injEq] at ht hc
      have hsegment : n.segment = m.segment := by rw [segment, segment, ht.1, hc.1]
      obtain rfl := segment_injective (ha n (by simp)) (hb m (by simp)) hsegment
      rw [ih (fun k hk => ha k (by simp [hk])) (fun k hk => hb k (by simp [hk])) ht.2 hc.2]

end Node

namespace Entity

variable {a b e : Entity}

theorem getLast?_nodes (e : Entity) : e.nodes.getLast?.map Node.type = some e.type := by
  rw [List.getLast?_eq_some_getLast e.nonempty]
  rfl

/-- Two entities of one type have as many entities above them, of the same types. -/
theorem types_of_type (h : a.type = b.type) : a.nodes.map Node.type = b.nodes.map Node.type :=
  Node.types_of_descends a.descends b.descends (by rw [getLast?_nodes, getLast?_nodes, h])

theorem colon_not_mem_label (h : ∃ t, e.type = .of t) : ShadowRole.colon ∉ e.type.label.toList := by
  obtain ⟨t, ht⟩ := h
  rw [ht]
  exact t.label_plain.2 _ (.inr (.inr rfl))

/-- The display tells the type and the components that are shown. -/
theorem shown_of_text (ha : ∃ t, a.type = .of t) (hb : ∃ t, b.type = .of t) (h : a.text = b.text) :
    a.type = b.type ∧ a.shown.map Node.component = b.shown.map Node.component := by
  have htext := congrArg String.toList h
  rw [a.toList_text, b.toList_text] at htext
  obtain ⟨hlabel, hjoined⟩ :=
    Text.eq_of_append_mark (colon_not_mem_label ha) (colon_not_mem_label hb) htext
  have hparts := congrArg (Text.parts Path.slash) hjoined
  rw [a.parts_shown, b.parts_shown] at hparts
  refine ⟨EntityType.label_injective (String.toList_injective hlabel), ?_⟩
  refine List.map_injective_iff.mpr (fun _ _ hcs => String.toList_injective hcs) ?_
  rw [List.map_map, List.map_map]
  exact hparts

theorem mem_nodes_of_mem_shown {n : Node} (h : n ∈ e.shown) : n ∈ e.nodes := by
  rw [shown] at h
  split at h
  · exact h
  · exact List.mem_of_mem_drop h

theorem isQualified_of_mem_shown (e : Entity) :
    ∀ n ∈ e.shown, Node.isQualified n.type n.qualifier = true :=
  fun n hn => isQualified_of_descends e.descends n (mem_nodes_of_mem_shown hn)

/-- Entities of one type show as many nodes, of the same types. -/
theorem types_shown (h : a.type = b.type) :
    a.depth = b.depth ∧ a.shown.map Node.type = b.shown.map Node.type := by
  have htypes := types_of_type h
  have hdepth : a.depth = b.depth := by simpa [depth] using congrArg List.length htypes
  refine ⟨hdepth, ?_⟩
  rw [shown, shown, hdepth]
  split
  · exact htypes
  · rw [List.map_drop, List.map_drop, htypes]

/-- An entity consists of its root and what it shows. -/
theorem eq_of_shown (hroot : a.root = b.root) (hdepth : a.depth = b.depth) (h : a.shown = b.shown) :
    a = b := by
  refine ext ?_
  rw [shown, shown, hdepth] at h
  split at h
  · exact h
  · rw [List.drop_one, List.drop_one] at h
    rw [← List.cons_head_tail a.nonempty, ← List.cons_head_tail b.nonempty]
    exact congrArg₂ List.cons hroot h

/-- Entities below one root are known from their displays. -/
theorem text_injective (ha : ∃ t, a.type = .of t) (hb : ∃ t, b.type = .of t)
    (hroot : a.root = b.root) (h : a.text = b.text) : a = b := by
  obtain ⟨htype, hcomponents⟩ := shown_of_text ha hb h
  obtain ⟨hdepth, htypes⟩ := types_shown htype
  exact eq_of_shown hroot hdepth
    (Node.eq_of_components a.isQualified_of_mem_shown b.isQualified_of_mem_shown htypes hcomponents)

/-- No quote stands in the display of an entity of a supported type. -/
theorem quote_not_mem_text (h : ∃ t, e.type = .of t) : '\'' ∉ e.text.toList := by
  obtain ⟨t, ht⟩ := h
  intro hquote
  rw [toList_text, ht, List.mem_append, List.mem_cons] at hquote
  rcases hquote with hlabel | hcolon | hshown
  · exact absurd hlabel (by cases t <;> decide)
  · exact absurd hcolon (by decide)
  · rcases Path.mem_joined hshown with hslash | ⟨cs, hcs, hquote⟩
    · exact absurd hslash (by decide)
    · obtain ⟨n, -, rfl⟩ := List.mem_map.mp hcs
      rcases Node.mem_component hquote with hseparator | ⟨i, hi⟩
      · exact absurd hseparator (by decide)
      · exact absurd (Identifier.mem_of_isAccepted i.accepted hi) (by decide)

end Entity

namespace Fault

variable {a b : Entity} {p q : Principal} {as bs : List Action}

theorem message_unauthorized (p : Principal) (e : Entity) (as : List Action) :
    (unauthorized p e as).message = "Principal '" ++ p.text ++
      ("' is not authorized to perform " ++
        ", ".intercalate ((Action.distinct as).map Action.capitals) ++ " on entity '") ++
      e.text ++ "'" := rfl

/-- The wording of a denial ends with the display of the entity in quotes. -/
theorem toList_message_unauthorized (p : Principal) (e : Entity) (as : List Action) :
    ∃ front, (unauthorized p e as).message.toList = front ++ '\'' :: (e.text.toList ++ ['\'']) := by
  have hopen : " on entity '".toList = " on entity ".toList ++ ['\''] := by decide
  have hclose : "'".toList = ['\''] := by decide
  have hmessage := congrArg String.toList (message_unauthorized p e as)
  simp only [String.toList_append, hopen, hclose, ← List.append_assoc] at hmessage
  rw [List.append_assoc, List.append_assoc] at hmessage
  exact ⟨_, hmessage⟩

/-- Denials that are worded alike are about entities that are displayed alike, whoever is denied. -/
theorem text_of_message (ha : ∃ t, a.type = .of t) (hb : ∃ t, b.type = .of t)
    (h : (unauthorized p a as).message = (unauthorized q b bs).message) : a.text = b.text := by
  obtain ⟨front, hfront⟩ := toList_message_unauthorized p a as
  obtain ⟨front', hfront'⟩ := toList_message_unauthorized q b bs
  rw [h, hfront'] at hfront
  -- a principal may hold quotes, so the display is read from the end
  have hback := congrArg List.reverse hfront
  simp only [List.reverse_append, List.reverse_cons, List.reverse_nil, List.nil_append,
    List.cons_append, List.append_assoc, List.cons.injEq, true_and] at hback
  have htext := (Text.eq_of_append_mark (by simpa using Entity.quote_not_mem_text hb)
    (by simpa using Entity.quote_not_mem_text ha) hback).1
  exact (String.toList_injective (List.reverse_injective htext)).symm

end Fault

namespace Audit.Event

/-- No two fields of an event have one name. -/
theorem nodup_fields (event : Event) : (event.fields.map Prod.fst).Nodup := by
  cases event with
  | roleOperationCompleted operation role principal => cases principal <;> simp [fields]
  | _ => simp [fields, faultFields, keyFields]

end Audit.Event

namespace Entity

open Audit

/-- Entities of supported types below one root differ in their displays. So the wording of a denial and
the entity that an event shows are those of one entity below that root only, whoever is denied, and
whatever the event is. -/
theorem display_unambiguous {a b : Entity} (ha : ∃ t, a.type = .of t) (hb : ∃ t, b.type = .of t)
    (hroot : a.root = b.root) :
    (a.text = b.text → a = b) ∧
    (∀ p q as bs, (Fault.unauthorized p a as).message = (Fault.unauthorized q b bs).message →
      a = b) ∧
    ∀ event : Event, ("entity", Value.text a.text) ∈ event.fields →
      ("entity", Value.text b.text) ∈ event.fields → a = b := by
  refine ⟨text_injective ha hb hroot,
    fun p q as bs h => text_injective ha hb hroot (Fault.text_of_message ha hb h),
    fun event hevent hevent' => text_injective ha hb hroot ?_⟩
  have hvalue := List.inj_on_of_nodup_map event.nodup_fields hevent hevent' rfl
  simpa using hvalue

namespace Sample

open Resolver.Sample

/-- An artifact with the name, the version and the namespace of the application. -/
def artifact : Entity :=
  ⟨application.nodes.dropLast ++ [{ application.leaf with type := .of .artifact }], by simp,
    application.descends.dropLast.concat (by decide) (by decide)⟩

/-- The two are told apart though all their components are the same. -/
theorem artifact_told_apart :
    artifact.nodes.map Node.component = application.nodes.map Node.component ∧
    artifact.text ≠ application.text ∧
    (∀ p q as bs, (Fault.unauthorized p artifact as).message ≠
      (Fault.unauthorized q application bs).message) ∧
    ∀ event : Event, ("entity", Value.text artifact.text) ∈ event.fields →
      ("entity", Value.text application.text) ∉ event.fields := by
  have hne : artifact ≠ application := by decide
  obtain ⟨htexts, hmessages, hevents⟩ :=
    display_unambiguous (a := artifact) (b := application) ⟨_, rfl⟩ ⟨_, rfl⟩ rfl
  exact ⟨by decide, fun h => hne (htexts h), fun p q as bs h => hne (hmessages p q as bs h),
    fun event h h' => hne (hevents event h h')⟩

end Sample

end Entity

end Warrant
