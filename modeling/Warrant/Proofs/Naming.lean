import Warrant.Cache.Key
import Warrant.ShadowRole

/-!
# Entities, their paths and the names of their shadow roles

No mark that separates parts of a path or of a role name stands in an identifier. So a node is known
from its level (`Node.segment_injective`), one path covers another one exactly when the entity of
the first is that of the second or lies above it (`Entity.covers_path_iff`), and the name of a shadow
role tells the path and the principal (`ShadowRole.read?_nameOn`).
-/

namespace Warrant

/-- The marks that separate components, levels and the parts of role names. -/
def IsMark (c : Char) : Prop :=
  c = Node.separator ∨ c = Segment.equals ∨ c = Path.slash ∨ c = ShadowRole.colon

namespace Identifier

theorem isNameChar_of_isWord {cs : List Char} {c : Char} (h : isWord cs = true) (hc : c ∈ cs) :
    isNameChar c = true := by
  simp only [isWord, Bool.and_eq_true] at h
  exact List.all_eq_true.mp h.2 c hc

theorem mem_of_isAccepted {cs : List Char} {c : Char} (h : isAccepted cs = true) (hc : c ∈ cs) :
    isNameChar c = true ∨ c = '\n' := by
  rcases Bool.or_eq_true_iff.mp h with h | h
  · exact .inl (isNameChar_of_isWord h hc)
  · simp only [Bool.and_eq_true, beq_iff_eq] at h
    obtain ⟨hl, hw⟩ := h
    obtain ⟨front, rfl⟩ := List.getLast?_eq_some_iff.mp hl
    rw [List.dropLast_concat] at hw
    rw [List.mem_append, List.mem_singleton] at hc
    exact hc.imp_left (isNameChar_of_isWord hw)

theorem toList_ne_nil (i : Identifier) : i.text.toList ≠ [] := by
  intro h
  have := i.accepted
  rw [h] at this
  exact absurd this (by decide)

theorem mark_not_mem (i : Identifier) {c : Char} (hc : IsMark c) : c ∉ i.text.toList := by
  intro h
  have := mem_of_isAccepted i.accepted h
  rcases hc with rfl | rfl | rfl | rfl <;> exact absurd this (by decide)

@[ext] theorem ext {i j : Identifier} (h : i.text = j.text) : i = j := by
  cases i; cases j; cases h; rfl

end Identifier

theorem Text.eq_of_append_mark {mark : Char} {a b a' b' : List Char} (ha : mark ∉ a) (ha' : mark ∉ a')
    (h : a ++ mark :: b = a' ++ mark :: b') : a = a' ∧ b = b' := by
  have hcut : cut? mark (a ++ mark :: b) = some (a, b) := cut?_eq_some_iff.mpr ⟨rfl, ha⟩
  have hcut' : cut? mark (a ++ mark :: b) = some (a', b') := cut?_eq_some_iff.mpr ⟨h, ha'⟩
  rw [hcut] at hcut'
  simpa using hcut'

namespace Node

theorem isComposite_of_isQualified_some {t : EntityType} {q : Identifier}
    (h : isQualified t (some q) = true) : t.isComposite = true := by
  unfold isQualified at h
  split at h
  · rfl
  · exact h
  · rename_i heq; cases heq

theorem not_isComposite_of_isQualified_none {t : EntityType} (h : isQualified t none = true) :
    t.isComposite = false := by
  simpa [isQualified] using h

theorem toList_pair (i j : Identifier) :
    (i.text ++ String.singleton separator ++ j.text).toList =
      i.text.toList ++ separator :: j.text.toList := by
  simp

theorem pair_injective {i j i' j' : Identifier}
    (h : i.text ++ String.singleton separator ++ j.text =
      i'.text ++ String.singleton separator ++ j'.text) : i = i' ∧ j = j' := by
  have h' := congrArg String.toList h
  rw [toList_pair, toList_pair] at h'
  obtain ⟨h₁, h₂⟩ := Text.eq_of_append_mark (i.mark_not_mem (.inl rfl)) (i'.mark_not_mem (.inl rfl)) h'
  exact ⟨Identifier.ext (String.toList_injective h₁), Identifier.ext (String.toList_injective h₂)⟩

theorem component_none (t : EntityType) (i : Identifier) : component ⟨t, i, none⟩ = i.text := by
  unfold component
  split
  · rename_i heq; cases heq
  · rename_i heq _; cases heq
  · rfl

theorem component_program (i q : Identifier) :
    component ⟨.of .program, i, some q⟩ = q.text ++ String.singleton separator ++ i.text := rfl

theorem component_version {t : EntityType} (ht : t ≠ .of .program) (i q : Identifier) :
    component ⟨t, i, some q⟩ = i.text ++ String.singleton separator ++ q.text := by
  unfold component
  split
  · rename_i heq _; exact absurd heq ht
  · rename_i heq _; cases heq; rfl
  · rename_i heq; cases heq

theorem segment_injective {n m : Node} (hn : isQualified n.type n.qualifier = true)
    (hm : isQualified m.type m.qualifier = true) (h : n.segment = m.segment) : n = m := by
  obtain ⟨t, i, q⟩ := n
  obtain ⟨t', i', q'⟩ := m
  simp only [segment, Segment.mk.injEq] at h
  obtain rfl : t = t' := EntityType.label_injective h.1
  replace h := h.2
  cases q with
  | none =>
    cases q' with
    | none =>
      rw [component_none, component_none] at h
      obtain rfl := Identifier.ext h
      rfl
    | some k' =>
      have := not_isComposite_of_isQualified_none hn
      rw [isComposite_of_isQualified_some hm] at this
      cases this
  | some k =>
    cases q' with
    | none =>
      have := not_isComposite_of_isQualified_none hm
      rw [isComposite_of_isQualified_some hn] at this
      cases this
    | some k' =>
      by_cases ht : t = .of .program
      · subst ht
        obtain ⟨rfl, rfl⟩ := pair_injective (show k.text ++ _ ++ i.text = k'.text ++ _ ++ i'.text from h)
        rfl
      · rw [component_version ht, component_version ht] at h
        obtain ⟨rfl, rfl⟩ := pair_injective h
        rfl

/-- Only the separator parts the identifiers of a component. -/
theorem mem_component {n : Node} {c : Char} (hc : c ∈ n.component.toList) :
    c = separator ∨ ∃ i : Identifier, c ∈ i.text.toList := by
  obtain ⟨t, i, q⟩ := n
  cases q with
  | none =>
    rw [component_none] at hc
    exact .inr ⟨i, hc⟩
  | some q =>
    have hpair : ∀ j k : Identifier, c ∈ (j.text ++ String.singleton separator ++ k.text).toList →
        c = separator ∨ ∃ i : Identifier, c ∈ i.text.toList := fun j k h => by
      rw [toList_pair, List.mem_append, List.mem_cons] at h
      rcases h with h | h | h
      · exact .inr ⟨j, h⟩
      · exact .inl h
      · exact .inr ⟨k, h⟩
    by_cases ht : t = .of .program
    · subst ht
      exact hpair q i hc
    · rw [component_version ht] at hc
      exact hpair i q hc

/-- Of the marks only the separator of components stands in a component. -/
theorem mark_not_mem_component (n : Node) {c : Char} (hc : IsMark c) (hs : c ≠ separator) :
    c ∉ n.component.toList := by
  intro h
  rcases mem_component h with h | ⟨i, h⟩
  · exact hs h
  · exact i.mark_not_mem hc h

theorem component_ne_nil (n : Node) : n.component.toList ≠ [] := by
  obtain ⟨t, i, q⟩ := n
  cases q with
  | none => rw [component_none]; exact i.toList_ne_nil
  | some q =>
    by_cases ht : t = .of .program
    · subst ht
      rw [component_program, toList_pair]
      simp
    · rw [component_version ht, toList_pair]
      simp

end Node

namespace Entity

/-- The path of an entity, one level for every node. -/
def path (e : Entity) : Path := ⟨e.nodes.map Node.segment⟩

@[ext] theorem ext {a b : Entity} (h : a.nodes = b.nodes) : a = b := by
  cases a; cases b; cases h; rfl

theorem isQualified_of_descends {above : Option EntityType} {nodes : List Node}
    (h : Node.Descends above nodes) : ∀ n ∈ nodes, Node.isQualified n.type n.qualifier = true := by
  induction nodes generalizing above with
  | nil => simp
  | cons n rest ih =>
    intro m hm
    rcases List.mem_cons.mp hm with rfl | hm
    · exact h.1
    · exact ih h.2.2 m hm

theorem prefix_of_map_segment {as bs : List Node}
    (ha : ∀ n ∈ as, Node.isQualified n.type n.qualifier = true)
    (hb : ∀ n ∈ bs, Node.isQualified n.type n.qualifier = true)
    (h : as.map Node.segment <+: bs.map Node.segment) : as <+: bs := by
  induction as generalizing bs with
  | nil => exact List.nil_prefix
  | cons n as ih =>
    cases bs with
    | nil => simp at h
    | cons m bs =>
      rw [List.map_cons, List.map_cons, List.cons_prefix_cons] at h
      obtain rfl := Node.segment_injective (ha n (by simp)) (hb m (by simp)) h.1
      exact List.cons_prefix_cons.mpr ⟨rfl, ih (fun k hk => ha k (by simp [hk]))
        (fun k hk => hb k (by simp [hk])) h.2⟩

/-- A path covers another one exactly when its entity is the other one's or lies above it. -/
theorem covers_path_iff {a b : Entity} : a.path.covers b.path = true ↔ a.nodes <+: b.nodes := by
  rw [Path.covers, List.isPrefixOf_iff_prefix]
  constructor
  · exact prefix_of_map_segment (isQualified_of_descends a.descends) (isQualified_of_descends b.descends)
  · exact fun h => h.map Node.segment

theorem path_injective {a b : Entity} (h : a.path = b.path) : a = b := by
  have hab : a.nodes <+: b.nodes := covers_path_iff.mp (by rw [h]; exact b.path.covers_self)
  have hba : b.nodes <+: a.nodes := covers_path_iff.mp (by rw [h]; exact b.path.covers_self)
  exact ext (hab.eq_of_length_le hba.length_le)

theorem isBelow_iff {a b : Entity} : b.isBelow a = true ↔ a.nodes <+: b.nodes ∧ a ≠ b := by
  rw [isBelow, Bool.and_eq_true, decide_eq_true_eq, List.isPrefixOf_iff_prefix]
  constructor
  · rintro ⟨hl, hp⟩
    exact ⟨hp, fun h => Nat.lt_irrefl _ (h ▸ hl)⟩
  · rintro ⟨hp, hne⟩
    exact ⟨Nat.lt_of_le_of_ne hp.length_le fun hl => hne (ext (hp.eq_of_length hl)), hp⟩

end Entity

/-! ### Resolution -/

namespace Node

/-- Above a node of a supported type all nodes are of supported types. -/
theorem supported_of_descends {above : Option EntityType} {nodes : List Node} {n : Node} {t : Tier}
    (h : Descends above nodes) (hl : nodes.getLast? = some n) (ht : n.type = .of t) :
    ∀ m ∈ nodes, ∃ t, m.type = .of t := by
  induction nodes generalizing above with
  | nil => simp
  | cons k rest ih =>
    cases rest with
    | nil =>
      obtain rfl : k = n := by simpa using hl
      simpa using ⟨t, ht⟩
    | cons j rest =>
      have hrest := ih h.2.2 (by simpa using hl)
      intro m hm
      rcases List.mem_cons.mp hm with rfl | hm
      · obtain ⟨s, hs⟩ := hrest j (by simp)
        have habove : j.type.above? = some m.type := h.2.2.2.1
        rw [hs, EntityType.above?, Option.map_eq_some_iff] at habove
        obtain ⟨u, -, hu⟩ := habove
        exact ⟨u, hu.symm⟩
      · exact hrest m hm

end Node

namespace Fault

variable {α : Type}

theorem lift_ok (a : α) : (liftM (.ok a : Except Malformed α) : Except Fault α) = .ok a := rfl

theorem lift_error (reason : Malformed) :
    (liftM (.error reason : Except Malformed α) : Except Fault α) = .error (.malformed reason) := rfl

end Fault

namespace Resolver

variable {r : Resolver} {e : Entity} {p : Path}

/-- What it takes for an entity to have a path. -/
theorem resolve_eq_ok_iff :
    r.resolve e = .ok p ↔
      (∃ t, e.type = .of t) ∧ r.check e.root.name.text = .ok () ∧ p = e.path := by
  unfold resolve
  split
  · rename_i h; simp [h]
  · rename_i t h
    cases hc : r.check e.root.name.text with
    | error m => simp [bind, Except.bind, Fault.lift_error]
    | ok u => simp [bind, Except.bind, Fault.lift_ok, pure, Except.pure, h, Entity.path, eq_comm]

theorem eq_path_of_resolve (h : r.resolve e = .ok p) : p = e.path := (resolve_eq_ok_iff.mp h).2.2

theorem supported_of_resolve (h : r.resolve e = .ok p) : ∀ n ∈ e.nodes, ∃ t, n.type = .of t := by
  obtain ⟨⟨t, ht⟩, -⟩ := resolve_eq_ok_iff.mp h
  exact Node.supported_of_descends e.descends (List.getLast?_eq_some_getLast e.nonempty) ht

end Resolver

/-! ### Reading paths and names back -/

namespace Segment

/-- A level that can be read back from the text of a path. -/
structure Legible (s : Segment) : Prop where
  name_ne : s.name.toList ≠ []
  value_ne : s.value.toList ≠ []
  equals_not_mem : equals ∉ s.name.toList
  slash_not_mem : Path.slash ∉ s.chars

/-- A level that can be read back, also from the name of a shadow role. -/
structure Plain (s : Segment) : Prop where
  name_ne : s.name.toList ≠ []
  value_ne : s.value.toList ≠ []
  equals_not_mem : equals ∉ s.name.toList
  slash_not_mem : Path.slash ∉ s.chars
  colon_not_mem : ShadowRole.colon ∉ s.chars

theorem Plain.legible {s : Segment} (h : s.Plain) : s.Legible :=
  ⟨h.name_ne, h.value_ne, h.equals_not_mem, h.slash_not_mem⟩

/-- What a level is read from: a name, the mark and a value, neither of them empty. -/
theorem read?_eq_some_iff {cs : List Char} {s : Segment} : read? cs = some s ↔
    cs = s.chars ∧ s.name.toList ≠ [] ∧ s.value.toList ≠ [] ∧ equals ∉ s.name.toList := by
  constructor
  · intro h
    unfold read? at h
    split at h
    · rename_i name value hcut
      obtain ⟨hcs, hname⟩ := Text.cut?_eq_some_iff.mp hcut
      split at h
      · cases h
      · rename_i hne
        cases h
        simpa [chars, hcs, hname] using hne
    · cases h
  · rintro ⟨rfl, hname, hvalue, hequals⟩
    have hcut : Text.cut? equals s.chars = some (s.name.toList, s.value.toList) :=
      Text.cut?_eq_some_iff.mpr ⟨rfl, hequals⟩
    simp [read?, hcut, hname, hvalue]

theorem read?_chars {s : Segment} (h : s.Legible) : read? s.chars = some s :=
  read?_eq_some_iff.mpr ⟨rfl, h.name_ne, h.value_ne, h.equals_not_mem⟩

end Segment

theorem Tier.label_plain (t : Tier) : t.label.toList ≠ [] ∧
    ∀ c, c = Segment.equals ∨ c = Path.slash ∨ c = ShadowRole.colon → c ∉ t.label.toList := by
  refine ⟨by cases t <;> decide, ?_⟩
  rintro c (rfl | rfl | rfl) <;> cases t <;> decide

theorem Node.segment_plain {n : Node} (h : ∃ t, n.type = .of t) : n.segment.Plain := by
  obtain ⟨t, ht⟩ := h
  have hl : n.segment.name = t.label := by rw [segment, ht]; rfl
  obtain ⟨hne, hm⟩ := t.label_plain
  have hslash : Path.slash ∉ n.component.toList :=
    n.mark_not_mem_component (.inr (.inr (.inl rfl))) (by decide)
  have hcolon : ShadowRole.colon ∉ n.component.toList :=
    n.mark_not_mem_component (.inr (.inr (.inr rfl))) (by decide)
  refine ⟨by rwa [hl], n.component_ne_nil, by rw [hl]; exact hm _ (.inl rfl), ?_, ?_⟩
  · rw [Segment.chars, hl, List.mem_append, List.mem_cons]
    rintro (h | h | h)
    · exact hm _ (.inr (.inl rfl)) h
    · exact absurd h (by decide)
    · exact hslash h
  · rw [Segment.chars, hl, List.mem_append, List.mem_cons]
    rintro (h | h | h)
    · exact hm _ (.inr (.inr rfl)) h
    · exact absurd h (by decide)
    · exact hcolon h

/-- Every level of the path of an entity is plain. -/
theorem Resolver.plain_of_resolve {r : Resolver} {e : Entity} {p : Path} (h : r.resolve e = .ok p) :
    ∀ s ∈ p.segments, s.Plain := by
  have hsupported := supported_of_resolve h
  obtain rfl := eq_path_of_resolve h
  intro s hs
  obtain ⟨n, hn, rfl⟩ := List.mem_map.mp hs
  exact Node.segment_plain (hsupported n hn)

namespace Path

theorem mapM_ok {α β ε : Type} {f : α → Except ε β} {g : α → β} {l : List α}
    (h : ∀ a ∈ l, f a = .ok (g a)) : l.mapM f = .ok (l.map g) := by
  induction l with
  | nil => rfl
  | cons a l ih =>
    rw [List.mapM_cons, h a (by simp), ih fun b hb => h b (by simp [hb])]
    rfl

theorem parts_text {p : Path} (hne : p.segments ≠ []) (h : ∀ s ∈ p.segments, s.Legible) :
    Text.parts slash p.text.toList = p.segments.map Segment.chars := by
  rw [text, String.toList_ofList, Text.parts_joined (by simpa using hne)]
  intro cs hcs
  obtain ⟨s, hs, rfl⟩ := List.mem_map.mp hcs
  exact (h s hs).slash_not_mem

/-- A path of legible levels is read back from its text. -/
theorem read?_text {p : Path} (hne : p.segments ≠ []) (h : ∀ s ∈ p.segments, s.Legible) :
    read? p.text = .ok p := by
  have hparts := parts_text hne h
  have hback : (p.segments.map Segment.chars).map (fun part => (Segment.read? part).getD ⟨"", ""⟩) =
      p.segments := by
    rw [List.map_map]
    refine (List.map_congr_left fun s hs => ?_).trans (List.map_id _)
    simp [Segment.read?_chars (h s hs)]
  rw [read?, mapM_ok (g := fun part => (Segment.read? part).getD ⟨"", ""⟩), hparts, hback]
  · rfl
  · rw [hparts]
    intro part hpart
    obtain ⟨s, hs, rfl⟩ := List.mem_map.mp hpart
    rw [Segment.read?_chars (h s hs)]
    rfl

theorem mem_joined {mark c : Char} {ps : List (List Char)} (h : c ∈ Text.joined mark ps) :
    c = mark ∨ ∃ p ∈ ps, c ∈ p := by
  induction ps with
  | nil => simp [Text.joined] at h
  | cons part more ih =>
    cases more with
    | nil => exact .inr ⟨part, by simp, h⟩
    | cons next more =>
      rw [Text.joined, List.mem_append, List.mem_cons] at h
      rcases h with h | h | h
      · exact .inr ⟨part, by simp, h⟩
      · exact .inl h
      · rcases ih h with h | ⟨q, hq, hc⟩
        · exact .inl h
        · exact .inr ⟨q, List.mem_cons_of_mem _ hq, hc⟩

theorem colon_not_mem_text {p : Path} (h : ∀ s ∈ p.segments, s.Plain) :
    ShadowRole.colon ∉ p.text.toList := by
  rw [text, String.toList_ofList]
  intro hc
  rcases mem_joined hc with hc | ⟨cs, hcs, hc⟩
  · exact absurd hc (by decide)
  · obtain ⟨s, hs, rfl⟩ := List.mem_map.mp hcs
    exact (h s hs).colon_not_mem hc

end Path

namespace ShadowRole

theorem toList_nameOn (path : Path) (p : Principal) :
    (nameOn path p).toList =
      marker.toList ++ (path.text.toList ++ colon :: (p.kind.tag.toList ++ colon :: p.name.toList)) := by
  simp [nameOn]

theorem isReserved_nameOn (path : Path) (p : Principal) : isReserved (nameOn path p) = true := by
  rw [isReserved, List.isPrefixOf_iff_prefix, toList_nameOn]
  exact List.prefix_append ..

/-- Behind the marker, the path ends at the first colon. -/
theorem cut?_nameOn {path : Path} {p : Principal} (h : ∀ s ∈ path.segments, s.Plain) :
    Text.cut? colon ((nameOn path p).toList.drop marker.length) =
      some (path.text.toList, p.kind.tag.toList ++ colon :: p.name.toList) := by
  have hdrop : (nameOn path p).toList.drop marker.length =
      path.text.toList ++ colon :: (p.kind.tag.toList ++ colon :: p.name.toList) := by
    rw [toList_nameOn]; rfl
  exact Text.cut?_eq_some_iff.mpr ⟨hdrop, Path.colon_not_mem_text h⟩

/-- The name of a shadow role tells the path and the principal. -/
theorem read?_nameOn {path : Path} {p : Principal} (hne : path.segments ≠ [])
    (h : ∀ s ∈ path.segments, s.Plain) (hp : p.kind ≠ .role) :
    read? (nameOn path p) = some (path, p) := by
  have hcut := cut?_nameOn (p := p) h
  have hcut' : Text.cut? colon (p.kind.tag.toList ++ colon :: p.name.toList) =
      some (p.kind.tag.toList, p.name.toList) :=
    Text.cut?_eq_some_iff.mpr ⟨rfl, by cases p.kind <;> decide⟩
  have hs : isShadowed p.kind = true := by simpa [isShadowed] using hp
  rw [read?, hcut]
  simp only [isReserved_nameOn, Bool.not_true, Bool.false_eq_true, ↓reduceIte, Option.bind_some,
    Option.bind_eq_bind, hcut', String.ofList_toList, PrincipalKind.ofTag?_tag,
    Path.read?_text hne fun s hs => (h s hs).legible]
  simp [Principal.make?, p.named, hs, bind, Except.bind, Except.toOption]

variable {r : Resolver} {e e' : Entity} {path path' : Path} {p p' : Principal} {role : String}

theorem read?_of_resolve (h : r.resolve e = .ok path) (hp : p.kind ≠ .role) :
    read? (nameOn path p) = some (path, p) := by
  have hplain := Resolver.plain_of_resolve h
  obtain rfl := Resolver.eq_path_of_resolve h
  exact read?_nameOn (by simpa [Entity.path] using e.nonempty) hplain hp

theorem nameOn_injective (h : r.resolve e = .ok path) (h' : r.resolve e' = .ok path')
    (hp : p.kind ≠ .role) (hp' : p'.kind ≠ .role) (hn : nameOn path p = nameOn path' p') :
    path = path' ∧ p = p' := by
  have hread := read?_of_resolve h hp
  rw [hn, read?_of_resolve h' hp'] at hread
  simpa [eq_comm] using hread

theorem name?_of_resolve (h : r.resolve e = .ok path) (hp : p.kind ≠ .role) :
    name? r e p = .ok (nameOn path p) := by
  have hs : isShadowed p.kind = true := by simpa [isShadowed] using hp
  simp [name?, hs, h, bind, Except.bind, pure, Except.pure]

theorem isOwnedBy?_of_resolve (h : r.resolve e = .ok path) (role : String) :
    isOwnedBy? r role e = .ok ((read? role).any fun found => decide (found.1 = path)) := by
  unfold isOwnedBy?
  cases read? role with
  | none => rfl
  | some found => simp [h, bind, Except.bind, pure, Except.pure]

theorem isReserved_of_read? {found : Path × Principal} (h : read? role = some found) :
    isReserved role = true := by
  cases hr : isReserved role with
  | true => rfl
  | false => simp [read?, hr] at h

end ShadowRole

/-! ### From a path back to its entity -/

namespace Node

theorem Descends.split {above : Option EntityType} {front rest : List Node} {n : Node}
    (h : Descends above (front ++ n :: rest)) :
    isQualified n.type n.qualifier = true ∧ n.type.above? = (front.getLast?.map type).or above := by
  induction front generalizing above with
  | nil => exact ⟨h.1, by simpa using h.2.1⟩
  | cons m front ih =>
    obtain ⟨hq, ht⟩ := ih h.2.2
    refine ⟨hq, ht.trans ?_⟩
    cases front with
    | nil => rfl
    | cons k front => simp [List.getLast?_cons]

end Node

/-- A node is built again from its type, name and qualifier below the same parent. -/
theorem Entity.make?_of_node {n : Node} {parent : Option Entity}
    (hq : Node.isQualified n.type n.qualifier = true) (ht : n.type.above? = parent.map type) :
    ∃ e, make? n.type n.name.text parent (n.qualifier.map Identifier.text) = .ok e ∧
      e.nodes = nodesOf parent ++ [n] := by
  have hname : ∀ what (i : Identifier), Identifier.make? what i.text = .ok i := fun what i => by
    simp [Identifier.make?, i.accepted]
  have hqual : qualify? n.type (n.qualifier.map Identifier.text) = .ok ⟨n.qualifier, hq⟩ := by
    obtain ⟨t, i, q⟩ := n
    cases q with
    | none => simp [qualify?, show Node.isQualified t none = true from hq]
    | some q =>
      simp [qualify?, Node.isComposite_of_isQualified_some hq, hname, bind, Except.bind,
        show Node.isQualified t (some q) = true from hq]
  refine ⟨⟨nodesOf parent ++ [n], by simp, (descends_nodesOf parent).concat hq
    (by rw [getLast?_nodesOf]; simpa using ht)⟩, ?_, rfl⟩
  simp only [make?, hname, hqual, bind, Except.bind]
  exact dif_pos ht

namespace Resolver

variable {r : Resolver}

theorem splitValue?_component {n : Node} {t : Tier} (ht : n.type = .of t)
    (hq : Node.isQualified n.type n.qualifier = true) :
    splitValue? t n.component = .ok (n.name.text, n.qualifier.map Identifier.text) := by
  obtain ⟨type, i, q⟩ := n
  obtain rfl : type = .of t := ht
  cases q with
  | none =>
    have hc : t.isComposite = false := Node.not_isComposite_of_isQualified_none hq
    simp [splitValue?, hc, Node.component_none]
  | some q =>
    have hc : t.isComposite = true := Node.isComposite_of_isQualified_some hq
    have hcut : ∀ a b : Identifier,
        Text.cut? Node.separator (a.text ++ String.singleton Node.separator ++ b.text).toList =
          some (a.text.toList, b.text.toList) := fun a b =>
      Text.cut?_eq_some_iff.mpr ⟨Node.toList_pair a b, a.mark_not_mem (.inl rfl)⟩
    by_cases hp : t = .program
    · subst hp
      rw [splitValue?, if_pos hc, Node.component_program, hcut]
      simp
    · rw [splitValue?, if_pos hc, Node.component_version (by simpa using hp), hcut]
      simp [hp]

theorem extend?_segment {n : Node} {above : Option Entity} (hs : ∃ t, n.type = .of t)
    (hq : Node.isQualified n.type n.qualifier = true) (ht : n.type.above? = above.map Entity.type)
    (hr : above = none → r.check n.name.text = .ok ()) :
    ∃ e, r.extend? above n.segment = .ok e ∧ e.nodes = Entity.nodesOf above ++ [n] := by
  obtain ⟨t, hs⟩ := hs
  obtain ⟨e, he, hn⟩ := Entity.make?_of_node hq ht
  have hl : n.segment.name = t.label := by rw [Node.segment, hs]; rfl
  refine ⟨e, ?_, hn⟩
  rw [hs] at he
  cases above <;>
    simp [extend?, hl, Tier.ofLabel?_label, show n.segment.value = n.component from rfl,
      splitValue?_component hs hq, hr, he, bind, Except.bind, Fault.lift_ok]

/-- The levels of the nodes below an entity lead back to them. -/
theorem descend?_segments {above : Option Entity} {rest : List Node}
    (hs : ∀ n ∈ rest, ∃ t, n.type = .of t)
    (hd : Node.Descends none (Entity.nodesOf above ++ rest))
    (hr : above = none → ∀ n ∈ rest.head?, r.check n.name.text = .ok ()) :
    ∃ e, r.descend? above (rest.map Node.segment) = .ok e ∧
      Entity.nodesOf e = Entity.nodesOf above ++ rest := by
  induction rest generalizing above with
  | nil => exact ⟨above, rfl, by simp⟩
  | cons n rest ih =>
    obtain ⟨hq, ht⟩ := hd.split
    obtain ⟨e, he, hn⟩ := extend?_segment (r := r) (hs n (by simp)) hq
      (by rw [ht, Entity.getLast?_nodesOf]; simp) (fun h => hr h n (by simp))
    have hd' : Node.Descends none (Entity.nodesOf (some e) ++ rest) := by
      rw [Entity.nodesOf, hn]
      simpa using hd
    obtain ⟨e', he', hn'⟩ := ih (fun m hm => hs m (by simp [hm])) hd' (by simp)
    refine ⟨e', ?_, by rw [hn', Entity.nodesOf, hn]; simp⟩
    rw [List.map_cons, descend?, he]
    exact he'

/-- The path of an entity leads back to the entity. -/
theorem entityOf?_of_resolve {e : Entity} {p : Path} (h : r.resolve e = .ok p) :
    r.entityOf? p = .ok e := by
  have hs := supported_of_resolve h
  obtain ⟨-, hc, rfl⟩ := resolve_eq_ok_iff.mp h
  have hd : Node.Descends none (Entity.nodesOf none ++ e.nodes) := e.descends
  have hr : ∀ n ∈ e.nodes.head?, r.check n.name.text = .ok () := by
    intro n hm
    obtain rfl : e.root = n := by simpa [Entity.root, List.head?_eq_some_head e.nonempty] using hm
    exact hc
  obtain ⟨found, hf, hn⟩ := descend?_segments hs hd fun _ => hr
  cases found with
  | none => exact absurd hn.symm (by simpa [Entity.nodesOf] using e.nonempty)
  | some e' =>
    obtain rfl : e' = e := Entity.ext (by simpa [Entity.nodesOf] using hn)
    simp [entityOf?, Entity.path, hf, bind, Except.bind, pure, Except.pure]

end Resolver

/-- The decisions in the subtree of an entity are those whose path its path covers. -/
theorem Cache.Scope.subtree_covers_iff {e : Entity} {k : Cache.Key} :
    (Cache.Scope.subtree e).covers k = true ↔ e.path.covers k.entity.path = true := by
  rw [Entity.covers_path_iff]
  simp only [Cache.Scope.covers, Bool.or_eq_true, decide_eq_true_eq, Entity.isBelow_iff]
  constructor
  · rintro (rfl | h)
    · exact List.prefix_rfl
    · exact h.1
  · intro h
    by_cases hk : e = k.entity
    · exact .inl hk.symm
    · exact .inr ⟨h, hk⟩

end Warrant
