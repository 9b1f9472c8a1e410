import Warrant.Proofs.Naming

/-!
# Entities and paths, one to one

`Resolver.resolve_iff_entityOf?` is the one fact behind this module: a path leads to an entity
exactly when the entity resolves to the path. Going down a path is undone level by level: the level
that `extend?` accepts is the segment of the node that it adds.
-/

namespace Warrant

section Sequencing

variable {ε α β : Type} {x : Except ε α} {f : α → Except ε β} {a : α} {b : β} {err : ε}

theorem bind_eq_ok_iff : (x >>= f) = .ok b ↔ ∃ a, x = .ok a ∧ f a = .ok b := by
  cases x with
  | ok a => simp [bind, Except.bind]
  | error e => simp [bind, Except.bind]

theorem bind_eq_error_iff :
    (x >>= f) = .error err ↔ x = .error err ∨ ∃ a, x = .ok a ∧ f a = .error err := by
  cases x with
  | ok a => simp [bind, Except.bind]
  | error e => simp [bind, Except.bind]

theorem map_eq_error_iff {g : α → β} : x.map g = .error err ↔ x = .error err := by
  cases x with
  | ok a => exact ⟨nofun, nofun⟩
  | error e => exact ⟨fun h => congrArg Except.error (Except.error.inj h), fun h => by rw [h]; rfl⟩

theorem mapError_eq_ok_iff {ε' : Type} {wrap : ε → ε'} :
    x.mapError wrap = .ok a ↔ x = .ok a := by
  cases x with
  | ok c => constructor <;> exact fun h => congrArg Except.ok (Except.ok.inj h)
  | error e => exact ⟨nofun, nofun⟩

variable {g : α → Except ε β} {l : List α} {bs : List β}

theorem exists_mapM (h : ∀ a ∈ l, ∃ b, g a = .ok b) : ∃ bs, l.mapM g = .ok bs ∧
      (∀ a ∈ l, ∃ b ∈ bs, g a = .ok b) ∧ ∀ b ∈ bs, ∃ a ∈ l, g a = .ok b := by
  induction l with
  | nil => exact ⟨[], rfl, fun a ha => (by cases ha), fun b hb => (by cases hb)⟩
  | cons a rest ih =>
    obtain ⟨b, hb⟩ := h a (List.mem_cons_self ..)
    obtain ⟨bs, hbs, hto, hfrom⟩ := ih fun c hc => h c (List.mem_cons_of_mem _ hc)
    refine ⟨b :: bs, by rw [List.mapM_cons, hb, hbs]; rfl, fun c hc => ?_, fun d hd => ?_⟩
    · rcases List.mem_cons.mp hc with rfl | hc
      · exact ⟨b, List.mem_cons_self .., hb⟩
      · obtain ⟨d, hd, hg⟩ := hto c hc
        exact ⟨d, List.mem_cons_of_mem _ hd, hg⟩
    · rcases List.mem_cons.mp hd with rfl | hd
      · exact ⟨a, List.mem_cons_self .., hb⟩
      · obtain ⟨c, hc, hg⟩ := hfrom d hd
        exact ⟨c, List.mem_cons_of_mem _ hc, hg⟩

theorem mapM_isOk_iff : (∃ bs, l.mapM g = .ok bs) ↔ ∀ a ∈ l, ∃ b, g a = .ok b := by
  constructor
  · rintro ⟨bs, h⟩
    induction l generalizing bs with
    | nil => nofun
    | cons a rest ih =>
      rw [List.mapM_cons] at h
      obtain ⟨b, hb, h⟩ := bind_eq_ok_iff.mp h
      obtain ⟨cs, hcs, -⟩ := bind_eq_ok_iff.mp h
      exact List.forall_mem_cons.mpr ⟨⟨b, hb⟩, ih cs hcs⟩
  · intro h
    obtain ⟨bs, hbs, -⟩ := exists_mapM h
    exact ⟨bs, hbs⟩

theorem mapM_eq_ok (h : l.mapM g = .ok bs) :
    (∀ a ∈ l, ∃ b ∈ bs, g a = .ok b) ∧ ∀ b ∈ bs, ∃ a ∈ l, g a = .ok b := by
  obtain ⟨cs, hcs, hto, hfrom⟩ := exists_mapM (mapM_isOk_iff.mp ⟨bs, h⟩)
  obtain rfl : bs = cs := Except.ok.inj (h.symm.trans hcs)
  exact ⟨hto, hfrom⟩

theorem map_of_mapM {back : β → α} (hback : ∀ a b, g a = .ok b → back b = a)
    (h : l.mapM g = .ok bs) : bs.map back = l := by
  induction l generalizing bs with
  | nil => cases h; rfl
  | cons a l ih =>
    rw [List.mapM_cons] at h
    obtain ⟨b, hb, h⟩ := bind_eq_ok_iff.mp h
    obtain ⟨rest, hrest, h⟩ := bind_eq_ok_iff.mp h
    cases h
    rw [List.map_cons, hback a b hb, ih hrest]

/-- The first failure ends it. -/
theorem mapM_eq_error_iff : l.mapM g = .error err ↔
    ∃ front a rest, l = front ++ a :: rest ∧ (∀ c ∈ front, ∃ b, g c = .ok b) ∧ g a = .error err := by
  induction l with
  | nil => exact iff_of_false nofun fun ⟨front, a, rest, h, _⟩ => by simp at h
  | cons c l ih =>
    rw [List.mapM_cons]
    constructor
    · intro h
      rcases bind_eq_error_iff.mp h with h | ⟨b, hb, h⟩
      · exact ⟨[], c, l, rfl, nofun, h⟩
      · rcases bind_eq_error_iff.mp h with h | ⟨bs, -, h⟩
        · obtain ⟨front, a, rest, rfl, hfront, ha⟩ := ih.mp h
          exact ⟨c :: front, a, rest, rfl, List.forall_mem_cons.mpr ⟨⟨b, hb⟩, hfront⟩, ha⟩
        · cases h
    · rintro ⟨front, a, rest, hl, hfront, ha⟩
      cases front with
      | nil =>
        obtain ⟨rfl, rfl⟩ : c = a ∧ l = rest := by simpa using hl
        exact bind_eq_error_iff.mpr (.inl ha)
      | cons d front =>
        obtain ⟨rfl, rfl⟩ : c = d ∧ l = front ++ a :: rest := by simpa using hl
        obtain ⟨⟨b, hb⟩, hfront⟩ := List.forall_mem_cons.mp hfront
        have hrest := ih.mpr ⟨front, a, rest, rfl, hfront, ha⟩
        exact bind_eq_error_iff.mpr (.inr ⟨b, hb, bind_eq_error_iff.mpr (.inl hrest)⟩)

end Sequencing

namespace Fault

variable {α : Type} {x : Except Malformed α} {a : α} {fault : Fault}

theorem lift_eq_ok_iff : (liftM x : Except Fault α) = .ok a ↔ x = .ok a := by
  cases x <;> simp [lift_ok, lift_error]

theorem lift_eq_error_iff :
    (liftM x : Except Fault α) = .error fault ↔ ∃ reason, x = .error reason ∧ fault = .malformed reason := by
  cases x <;> simp [lift_ok, lift_error, eq_comm]

/-- A text or path was refused as such: it names no tier, or a part of it is malformed. -/
def IsRefusal (fault : Fault) : Prop :=
  (∃ word, fault = .unsupportedEntityType word) ∨ ∃ reason, fault = .malformed reason

theorem IsRefusal.of_lift (h : (liftM x : Except Fault α) = .error fault) : fault.IsRefusal := by
  obtain ⟨reason, -, rfl⟩ := lift_eq_error_iff.mp h
  exact .inr ⟨reason, rfl⟩

end Fault

theorem Identifier.text_of_make? {what value : String} {i : Identifier}
    (h : make? what value = .ok i) : i.text = value := by
  unfold make? at h
  split at h
  · cases h; rfl
  · cases h

/-! ### The entity above -/

namespace Node

theorem Descends.dropLast {above : Option EntityType} {nodes : List Node}
    (h : Descends above nodes) : Descends above nodes.dropLast := by
  induction nodes generalizing above with
  | nil => trivial
  | cons n rest ih =>
    cases rest with
    | nil => trivial
    | cons m rest => exact ⟨h.1, h.2.1, ih h.2.2⟩

end Node

namespace Entity

variable {e f : Entity}

/-- The entity right above, unless the entity is a root. -/
def parent? (e : Entity) : Option Entity :=
  if h : e.nodes.dropLast = [] then none else some ⟨e.nodes.dropLast, h, e.descends.dropLast⟩

theorem nodes_of_parent? (h : e.parent? = some f) : f.nodes = e.nodes.dropLast := by
  unfold parent? at h
  split at h
  · cases h
  · cases h; rfl

theorem parent?_of_nodes {parent : Option Entity} {n : Node} (h : e.nodes = nodesOf parent ++ [n]) :
    e.parent? = parent := by
  have hd : e.nodes.dropLast = nodesOf parent := by rw [h, List.dropLast_concat]
  cases parent with
  | none => exact dif_pos hd
  | some f =>
    have hne : e.nodes.dropLast ≠ [] := by rw [hd]; exact f.nonempty
    rw [parent?, dif_neg hne]
    exact congrArg some (ext hd)

theorem root_of_parent? (h : e.parent? = some f) : f.root = e.root := by
  have hn := nodes_of_parent? h
  obtain ⟨nodes, hne, hd⟩ := e
  cases nodes with
  | nil => exact absurd rfl hne
  | cons n rest =>
    cases rest with
    | nil => exact absurd hn f.nonempty
    | cons m rest =>
      simp only [root, hn]
      rfl

/-- The type of an entity asks for the type of the entity right above. -/
theorem above?_of_parent? (h : e.parent? = some f) : e.type.above? = some f.type := by
  have hd : Node.Descends none (f.nodes ++ e.leaf :: []) := by
    rw [nodes_of_parent? h, leaf, List.dropLast_concat_getLast e.nonempty]
    exact e.descends
  rw [type, hd.split.2, List.getLast?_eq_some_getLast f.nonempty]
  rfl

theorem text_of_qualify? {type : EntityType} {qualifier : Option String}
    {q : { q : Option Identifier // Node.isQualified type q = true }}
    (h : qualify? type qualifier = .ok q) : q.1.map Identifier.text = qualifier := by
  cases qualifier with
  | none =>
    simp only [qualify?] at h
    split at h
    · cases h; rfl
    · cases h
  | some value =>
    simp only [qualify?] at h
    split at h
    · cases h
    · obtain ⟨i, hi, h⟩ := bind_eq_ok_iff.mp h
      split at h
      · cases h
        exact congrArg some (Identifier.text_of_make? hi)
      · cases h

/-- What an entity that is built consists of: the nodes of its parent and one of its own. -/
theorem nodes_of_make? {type : EntityType} {name : String} {parent : Option Entity}
    {qualifier : Option String} (h : make? type name parent qualifier = .ok e) :
    ∃ n, e.nodes = nodesOf parent ++ [n] ∧ n.type = type ∧ n.name.text = name ∧
      n.qualifier.map Identifier.text = qualifier := by
  obtain ⟨i, hi, h⟩ := bind_eq_ok_iff.mp h
  obtain ⟨q, hq, h⟩ := bind_eq_ok_iff.mp h
  by_cases ht : type.above? = parent.map Entity.type
  · simp only [dif_pos ht] at h
    cases h
    exact ⟨⟨type, i, q.1⟩, rfl, rfl, Identifier.text_of_make? hi, text_of_qualify? hq⟩
  · simp only [dif_neg ht] at h
    cases h

theorem parent?_of_make? {type : EntityType} {name : String} {parent : Option Entity}
    {qualifier : Option String} (h : make? type name parent qualifier = .ok e) :
    e.parent? = parent := by
  obtain ⟨n, hn, -⟩ := nodes_of_make? h
  exact parent?_of_nodes hn

end Entity

/-! ### Down a path and back -/

namespace Resolver

variable {r : Resolver} {e : Entity} {p : Path}

/-- The components that a value is split into make up the value. -/
theorem component_of_splitValue? {n : Node} {t : Tier} {value : String} (ht : n.type = .of t)
    (h : splitValue? t value = .ok (n.name.text, n.qualifier.map Identifier.text)) :
    n.component = value := by
  obtain ⟨type, i, q⟩ := n
  obtain rfl : type = .of t := ht
  have hpair : ∀ {front behind : List Char}, value.toList = front ++ Node.separator :: behind →
      String.ofList front ++ String.singleton Node.separator ++ String.ofList behind = value := by
    intro front behind hv
    apply String.toList_injective
    simp [hv]
  unfold splitValue? at h
  split at h
  · split at h
    · cases h
    · rename_i front behind hcut
      have hvalue := hpair (Text.cut?_eq_some_iff.mp hcut).1
      cases q with
      | none => split at h <;> simp at h
      | some q =>
        split at h
        · rename_i hp
          subst hp
          obtain ⟨hi, hq⟩ : String.ofList behind = i.text ∧ String.ofList front = q.text := by
            simpa using h
          rw [Node.component_program, ← hi, ← hq, hvalue]
        · rename_i hp
          obtain ⟨hi, hq⟩ : String.ofList front = i.text ∧ String.ofList behind = q.text := by
            simpa using h
          rw [Node.component_version (by simpa using hp), ← hi, ← hq, hvalue]
  · obtain ⟨hi, hq⟩ : value = i.text ∧ none = q.map Identifier.text := by simpa using h
    obtain rfl : q = none := Option.map_eq_none_iff.mp hq.symm
    rw [Node.component_none, hi]

/-- One more level adds the node whose segment it is. -/
theorem segment_of_extend? {above : Option Entity} {s : Segment} (h : r.extend? above s = .ok e) :
    ∃ n, e.nodes = Entity.nodesOf above ++ [n] ∧ n.segment = s ∧ (∃ t, n.type = .of t) ∧
      (above = none → r.check n.name.text = .ok ()) := by
  unfold extend? at h
  split at h
  · cases h
  · rename_i t ht
    obtain ⟨⟨name, qualifier⟩, hsplit, h⟩ := bind_eq_ok_iff.mp h
    obtain ⟨hcheck, hmake⟩ : (above = none → r.check name = .ok ()) ∧
        Entity.make? (.of t) name above qualifier = .ok e := by
      cases above with
      | none =>
        simp only [Option.isNone_none, if_true] at h
        obtain ⟨u, hc, h⟩ := bind_eq_ok_iff.mp h
        exact ⟨fun _ => Fault.lift_eq_ok_iff.mp hc, Fault.lift_eq_ok_iff.mp h⟩
      | some a =>
        simp only [Option.isNone_some, Bool.false_eq_true, if_false] at h
        exact ⟨nofun, Fault.lift_eq_ok_iff.mp h⟩
    obtain ⟨n, hn, htype, rfl, rfl⟩ := Entity.nodes_of_make? hmake
    have hname : n.type.label = s.name := by rw [htype]; exact Tier.label_ofLabel? ht
    have hvalue := component_of_splitValue? htype (Fault.lift_eq_ok_iff.mp hsplit)
    exact ⟨n, hn, by rw [Node.segment, hname, hvalue], ⟨t, htype⟩, hcheck⟩

/-- The levels that lead from one entity to another are those of the nodes between them. -/
theorem segments_of_descend? {above found : Option Entity} {segments : List Segment}
    (h : r.descend? above segments = .ok found) :
    ∃ rest, Entity.nodesOf found = Entity.nodesOf above ++ rest ∧
      rest.map Node.segment = segments ∧ (∀ n ∈ rest, ∃ t, n.type = .of t) ∧
      (above = none → ∀ n ∈ rest.head?, r.check n.name.text = .ok ()) := by
  induction segments generalizing above with
  | nil =>
    cases h
    exact ⟨[], by simp, rfl, by simp, by simp⟩
  | cons s segments ih =>
    obtain ⟨e, he, h⟩ := bind_eq_ok_iff.mp h
    obtain ⟨n, hn, hs, ht, hc⟩ := segment_of_extend? he
    obtain ⟨rest, hnodes, hrest, htypes, -⟩ := ih h
    refine ⟨n :: rest, ?_, by rw [List.map_cons, hs, hrest], ?_, ?_⟩
    · rw [hnodes, Entity.nodesOf, hn]
      simp
    · intro m hm
      rcases List.mem_cons.mp hm with rfl | hm
      · exact ht
      · exact htypes m hm
    · intro ha m hm
      obtain rfl : n = m := by simpa using hm
      exact hc ha

/-- A path leads to no other entity than the one that resolves to it. -/
theorem resolve_of_entityOf? (h : r.entityOf? p = .ok e) : r.resolve e = .ok p := by
  obtain ⟨found, hf, h⟩ := bind_eq_ok_iff.mp h
  cases found with
  | none => cases h
  | some found =>
    cases h
    obtain ⟨nodes, hn, hp, ht, hc⟩ := segments_of_descend? hf
    obtain rfl : e.nodes = nodes := by simpa [Entity.nodesOf] using hn
    refine resolve_eq_ok_iff.mpr ⟨ht e.leaf (List.getLast_mem e.nonempty), ?_, ?_⟩
    · exact hc rfl e.root (by simp [Entity.root, List.head?_eq_some_head e.nonempty])
    · rw [Entity.path, hp]

theorem resolve_iff_entityOf? : r.resolve e = .ok p ↔ r.entityOf? p = .ok e :=
  ⟨entityOf?_of_resolve, resolve_of_entityOf?⟩

/-! ### Refused paths -/

theorem isRefusal_of_extend? {above : Option Entity} {s : Segment} {fault : Fault}
    (h : r.extend? above s = .error fault) : fault.IsRefusal := by
  unfold extend? at h
  split at h
  · cases h
    exact .inl ⟨s.name, rfl⟩
  · rcases bind_eq_error_iff.mp h with h | ⟨parts, -, h⟩
    · exact .of_lift h
    · cases above with
      | none =>
        simp only [Option.isNone_none, if_true] at h
        rcases bind_eq_error_iff.mp h with h | ⟨-, -, h⟩
        · exact .of_lift h
        · exact .of_lift h
      | some a =>
        simp only [Option.isNone_some, Bool.false_eq_true, if_false] at h
        exact .of_lift h

theorem isRefusal_of_descend? {above : Option Entity} {segments : List Segment} {fault : Fault}
    (h : r.descend? above segments = .error fault) : fault.IsRefusal := by
  induction segments generalizing above with
  | nil => cases h
  | cons s segments ih =>
    rcases bind_eq_error_iff.mp h with h | ⟨e, -, h⟩
    · exact isRefusal_of_extend? h
    · exact ih h

theorem isRefusal_of_entityOf? {fault : Fault} (h : r.entityOf? p = .error fault) :
    fault.IsRefusal := by
  rcases bind_eq_error_iff.mp h with h | ⟨found, -, h⟩
  · exact isRefusal_of_descend? h
  · cases found with
    | none => cases h; exact .inr ⟨.emptyPath, rfl⟩
    | some e => cases h

theorem isRefusal_of_resolve {fault : Fault} (h : r.resolve e = .error fault) : fault.IsRefusal := by
  unfold resolve at h
  split at h
  · cases h
    exact .inl ⟨_, rfl⟩
  · rcases bind_eq_error_iff.mp h with h | ⟨-, -, h⟩
    · exact .of_lift h
    · cases h

/-! ### The path of the entity above -/

theorem resolve_parent? {f : Entity} (h : r.resolve e = .ok p) (hf : e.parent? = some f) :
    r.resolve f = .ok ⟨p.segments.take f.depth⟩ := by
  have hn := Entity.nodes_of_parent? hf
  have hs := supported_of_resolve h
  obtain ⟨-, hc, rfl⟩ := resolve_eq_ok_iff.mp h
  refine resolve_eq_ok_iff.mpr ⟨?_, by rwa [Entity.root_of_parent? hf], ?_⟩
  · have hleaf : f.leaf ∈ e.nodes.dropLast := hn ▸ List.getLast_mem f.nonempty
    exact hs f.leaf (List.dropLast_subset _ hleaf)
  · have htake : f.nodes = e.nodes.take f.depth := by
      rw [Entity.depth, hn, List.length_dropLast, List.dropLast_eq_take]
    rw [Entity.path, Entity.path, ← List.map_take, ← htake]

/-- What is served is so with everything right below it. -/
theorem resolve_of_parent? {f : Entity} (h : r.resolve f = .ok p) (hf : e.parent? = some f) :
    r.resolve e = .ok e.path := by
  obtain ⟨-, hc, -⟩ := resolve_eq_ok_iff.mp h
  refine resolve_eq_ok_iff.mpr ⟨?_, by rwa [← Entity.root_of_parent? hf], rfl⟩
  have habove := Entity.above?_of_parent? hf
  cases ht : e.type with
  | of t => exact ⟨t, rfl⟩
  | foreign =>
    rw [ht] at habove
    cases habove

theorem read?_text_of_resolve (h : r.resolve e = .ok p) : Path.read? p.text = .ok p := by
  have hplain := plain_of_resolve h
  obtain rfl := eq_path_of_resolve h
  exact Path.read?_text (by simpa [Entity.path] using e.nonempty) fun s hs => (hplain s hs).legible

/-- An entity is accepted if its type is a tier and its instance is served. -/
def Accepts (r : Resolver) (e : Entity) : Prop :=
  (∃ t, e.type = .of t) ∧ ∀ served, r.served = some served → e.root.name.text = served

theorem check_eq_ok_iff {name : String} :
    r.check name = .ok () ↔ ∀ served, r.served = some served → name = served := by
  unfold check
  cases r.served with
  | none => simp
  | some served => by_cases hn : name = served <;> simp [hn]

/-- Entities that are accepted and paths that lead to one are in bijection: a path has a level for
every node, its front is the path of the entity above, its text can be read back, and it leads back
to its entity; no other path leads anywhere, and such a path is refused as malformed or for a level
that is no tier. -/
theorem resolve_bijective (r : Resolver) :
    (∀ e, r.Accepts e → ∃ p, r.resolve e = .ok p ∧ p.size = e.depth ∧
      (∀ f, e.parent? = some f → r.resolve f = .ok ⟨p.segments.take f.depth⟩) ∧
      Path.read? p.text = .ok p ∧ r.entityOf? p = .ok e) ∧
    (∀ e p, r.resolve e = .ok p → r.Accepts e) ∧
    ∀ p, match r.entityOf? p with
      | .ok e => r.resolve e = .ok p
      | .error fault => fault.IsRefusal := by
  refine ⟨fun e ha => ?_, fun e p h => ?_, fun p => ?_⟩
  · have h : r.resolve e = .ok e.path :=
      resolve_eq_ok_iff.mpr ⟨ha.1, check_eq_ok_iff.mpr ha.2, rfl⟩
    refine ⟨e.path, h, ?_, fun f hf => resolve_parent? h hf, read?_text_of_resolve h,
      entityOf?_of_resolve h⟩
    exact List.length_map ..
  · obtain ⟨ht, hc, -⟩ := resolve_eq_ok_iff.mp h
    exact ⟨ht, check_eq_ok_iff.mp hc⟩
  · split
    · exact resolve_of_entityOf? ‹_›
    · exact isRefusal_of_entityOf? ‹_›

namespace Sample

def served : Resolver := ⟨some "cdap"⟩

def cdap : Identifier := ⟨"cdap", by decide⟩

def nodes : List Node :=
  [⟨.of .root, cdap, none⟩, ⟨.of .space, ⟨"ns1", by decide⟩, none⟩,
    ⟨.of .application, ⟨"app1", by decide⟩, some ⟨"1.0", by decide⟩⟩]

def application : Entity :=
  ⟨nodes, by decide, by decide, by decide, by decide, by decide, by decide, by decide, trivial⟩

/-- A program whose name ends with a line feed. -/
def program : Node := ⟨.of .program, ⟨"f1\n", by decide⟩, some ⟨"flow", by decide⟩⟩

def flow : Entity :=
  ⟨nodes ++ [program], by simp, application.descends.concat (by decide) (by decide)⟩

theorem resolve_flow :
    ∃ p, served.resolve flow = .ok p ∧ p.size = 4 ∧
      served.resolve application = .ok ⟨p.segments.take 3⟩ ∧
      Path.read? p.text = .ok p ∧ served.entityOf? p = .ok flow := by
  have haccepts : served.Accepts flow := by
    refine ⟨⟨.program, rfl⟩, fun name hname => ?_⟩
    cases hname
    rfl
  obtain ⟨p, h, hsize, habove, htext, hback⟩ := (resolve_bijective served).1 flow haccepts
  exact ⟨p, h, hsize, habove application rfl, htext, hback⟩

end Sample

end Resolver

end Warrant
