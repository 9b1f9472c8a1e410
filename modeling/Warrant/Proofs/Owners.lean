import Warrant.Proofs.Paths

/-!
# Shadow roles and their owners

Nothing but the name of a pair is read as a pair: what `ShadowRole.read?` makes of a text is written
as that text again (`nameOn_of_read?`). With the way from a path back to its entity this makes
`ShadowRole.ownerOf` the exact inverse of naming, on all texts.
-/

namespace Warrant

theorem toOption_eq_some_iff {ε α : Type} {x : Except ε α} {a : α} :
    x.toOption = some a ↔ x = .ok a := by
  cases x <;> simp [Except.toOption]

namespace Path

/-- A text that is read as a path is the text of that path. -/
theorem text_of_read? {s : String} {p : Path} (h : read? s = .ok p) : p.text = s := by
  obtain ⟨segments, hsegments, h⟩ := bind_eq_ok_iff.mp h
  cases h
  have hparts : segments.map Segment.chars = Text.parts slash s.toList := by
    refine map_of_mapM (fun part segment hpart => ?_) hsegments
    split at hpart
    · rename_i hread
      cases hpart
      exact (Segment.read?_eq_some_iff.mp hread).1.symm
    · cases hpart
  rw [text, hparts, Text.joined_parts, String.ofList_toList]

end Path

theorem Principal.of_make? {kind : PrincipalKind} {name : String} {p : Principal}
    (h : make? kind name = .ok p) : p.kind = kind ∧ p.name = name := by
  unfold make? at h
  split at h
  · cases h; exact ⟨rfl, rfl⟩
  · cases h

theorem PrincipalKind.tag_of_ofTag? {tag : String} {k : PrincipalKind} (h : ofTag? tag = .ok k) :
    k.tag = tag := by
  unfold ofTag? at h
  split at h
  · rename_i k' hfind
    cases h
    simpa using List.find?_some hfind
  · cases h

namespace ShadowRole

variable {r : Resolver} {e e₁ e₂ : Entity} {path : Path} {p p₁ p₂ : Principal} {role : String}

theorem toList_of_isReserved (h : isReserved role = true) :
    role.toList = marker.toList ++ role.toList.drop marker.length := by
  obtain ⟨rest, hrest⟩ := List.isPrefixOf_iff_prefix.mp h
  rw [← hrest, show marker.length = marker.toList.length from rfl, List.drop_left]

/-- The path and principal that are read off a name make up the name. -/
theorem nameOn_of_read? (h : read? role = some (path, p)) : nameOn path p = role ∧ p.kind ≠ .role := by
  have hreserved := isReserved_of_read? h
  simp only [read?, hreserved, Bool.not_true, Bool.false_eq_true, ↓reduceIte] at h
  obtain ⟨⟨front, behind⟩, hfront, h⟩ := Option.bind_eq_some_iff.mp h
  obtain ⟨⟨tag, name⟩, htag, h⟩ := Option.bind_eq_some_iff.mp h
  obtain ⟨principal, hprincipal, h⟩ := Option.bind_eq_some_iff.mp h
  obtain ⟨found, hfound, h⟩ := Option.bind_eq_some_iff.mp h
  split at h
  · rename_i hshadowed
    obtain ⟨rfl, rfl⟩ : found = path ∧ principal = p := by simpa using h
    obtain ⟨kind, hkind, hmake⟩ := bind_eq_ok_iff.mp (toOption_eq_some_iff.mp hprincipal)
    obtain ⟨rfl, hname⟩ := Principal.of_make? hmake
    have hpath : found.text.toList = front := by
      rw [Path.text_of_read? (toOption_eq_some_iff.mp hfound), String.toList_ofList]
    have hword : principal.kind.tag.toList = tag := by
      rw [PrincipalKind.tag_of_ofTag? hkind, String.toList_ofList]
    refine ⟨String.toList_injective ?_, by simpa [isShadowed] using hshadowed⟩
    rw [toList_nameOn, hpath, hword, hname, String.toList_ofList,
      ← (Text.cut?_eq_some_iff.mp htag).1, ← (Text.cut?_eq_some_iff.mp hfront).1,
      ← toList_of_isReserved hreserved]
  · cases h

theorem name?_eq_ok_iff :
    name? r e p = .ok role ↔ p.kind ≠ .role ∧ ∃ path, r.resolve e = .ok path ∧ nameOn path p = role := by
  constructor
  · intro h
    simp only [name?] at h
    split at h
    · cases h
    · rename_i hshadowed
      obtain ⟨path, hpath, h⟩ := bind_eq_ok_iff.mp h
      cases h
      exact ⟨by simpa [isShadowed] using hshadowed, path, hpath, rfl⟩
  · rintro ⟨hp, path, hpath, rfl⟩
    exact name?_of_resolve hpath hp

theorem isReserved_of_name? (h : name? r e p = .ok role) : isReserved role = true := by
  obtain ⟨-, path, -, rfl⟩ := name?_eq_ok_iff.mp h
  exact isReserved_nameOn path p

theorem name?_injective (h₁ : name? r e₁ p₁ = .ok role) (h₂ : name? r e₂ p₂ = .ok role) :
    e₁ = e₂ ∧ p₁ = p₂ := by
  obtain ⟨hp₁, path₁, hr₁, rfl⟩ := name?_eq_ok_iff.mp h₁
  obtain ⟨hp₂, path₂, hr₂, hn⟩ := name?_eq_ok_iff.mp h₂
  obtain ⟨hpath, hp⟩ := nameOn_injective hr₁ hr₂ hp₁ hp₂ hn.symm
  rw [Resolver.eq_path_of_resolve hr₁, Resolver.eq_path_of_resolve hr₂] at hpath
  exact ⟨Entity.path_injective hpath, hp⟩

/-- The way back from a path fails for no other reason than the path. -/
theorem ownerOf_eq (r : Resolver) (role : String) : ownerOf r role = .ok (owner? r role) := by
  have hok : ∃ owner, ownerOf r role = .ok owner := by
    unfold ownerOf
    split
    · exact ⟨none, rfl⟩
    · split
      · exact ⟨_, rfl⟩
      · exact ⟨none, rfl⟩
      · exact ⟨none, rfl⟩
      · rename_i fault hunsupported hmalformed herror
        rcases Resolver.isRefusal_of_entityOf? herror with ⟨word, rfl⟩ | ⟨reason, rfl⟩
        · exact absurd rfl (hunsupported word)
        · exact absurd rfl (hmalformed reason)
  obtain ⟨owner, h⟩ := hok
  rw [owner?, h]
  rfl

theorem owner?_eq_some_iff : owner? r role = some e ↔ ∃ p, name? r e p = .ok role := by
  constructor
  · intro h
    have howner := ownerOf_eq r role
    rw [h] at howner
    unfold ownerOf at howner
    split at howner
    · cases howner
    · rename_i path p hread
      obtain ⟨hname, hp⟩ := nameOn_of_read? hread
      split at howner
      · rename_i found hentity
        cases howner
        exact ⟨p, name?_eq_ok_iff.mpr ⟨hp, path, Resolver.resolve_of_entityOf? hentity, hname⟩⟩
      all_goals cases howner
  · rintro ⟨p, h⟩
    obtain ⟨hp, path, hpath, rfl⟩ := name?_eq_ok_iff.mp h
    rw [owner?, ownerOf, read?_of_resolve hpath hp]
    simp only [Resolver.entityOf?_of_resolve hpath]
    rfl

theorem isOwnedBy?_iff_owner? (h : r.resolve e = .ok path) :
    isOwnedBy? r role e = .ok true ↔ owner? r role = some e := by
  rw [owner?_eq_some_iff, isOwnedBy?_of_resolve h]
  constructor
  · intro howned
    cases hread : read? role with
    | none => simp [hread] at howned
    | some found =>
      obtain ⟨q, p⟩ := found
      obtain rfl : q = path := by simpa [hread] using howned
      obtain ⟨hname, hp⟩ := nameOn_of_read? hread
      exact ⟨p, name?_eq_ok_iff.mpr ⟨hp, q, h, hname⟩⟩
  · rintro ⟨p, hname⟩
    obtain ⟨hp, q, hq, rfl⟩ := name?_eq_ok_iff.mp hname
    obtain rfl : q = path := Except.ok.inj (hq.symm.trans h)
    rw [read?_of_resolve h hp]
    simp

theorem exists_resolve_of_isOwnedBy? (h : isOwnedBy? r role e = .ok true) :
    ∃ path, r.resolve e = .ok path := by
  rw [isOwnedBy?] at h
  split at h
  · cases h
  · obtain ⟨path, hpath, -⟩ := bind_eq_ok_iff.mp h
    exact ⟨path, hpath⟩

/-- Pairs of an entity that resolves and a user or group, whatever its name, and the names of shadow
roles correspond: two pairs never share a name, every text has an answer to whose shadow role it is,
and the answer is an entity exactly for the names of its pairs. -/
theorem ownerOf_inverse (r : Resolver) :
    (∀ e p, (∃ role, name? r e p = .ok role) ↔ p.kind ≠ .role ∧ ∃ path, r.resolve e = .ok path) ∧
    (∀ e₁ e₂ p₁ p₂ role, name? r e₁ p₁ = .ok role → name? r e₂ p₂ = .ok role →
      e₁ = e₂ ∧ p₁ = p₂) ∧
    (∀ role, ∃ owner, ownerOf r role = .ok owner) ∧
    ∀ role e, ownerOf r role = .ok (some e) ↔ ∃ p, p.kind ≠ .role ∧ name? r e p = .ok role := by
  refine ⟨fun e p => ?_, fun _ _ _ _ _ => name?_injective, fun role => ⟨_, ownerOf_eq r role⟩,
    fun role e => ?_⟩
  · constructor
    · rintro ⟨role, h⟩
      obtain ⟨hp, path, hpath, -⟩ := name?_eq_ok_iff.mp h
      exact ⟨hp, path, hpath⟩
    · rintro ⟨hp, path, hpath⟩
      exact ⟨_, name?_of_resolve hpath hp⟩
  · rw [ownerOf_eq, Except.ok.injEq, owner?_eq_some_iff]
    constructor
    · rintro ⟨p, h⟩
      exact ⟨p, (name?_eq_ok_iff.mp h).1, h⟩
    · rintro ⟨p, -, h⟩
      exact ⟨p, h⟩

/-- Whether a role is one of an entity and whose role it is are answered alike, on all texts: an accepted
entity owns a role if and only if it is found to be the owner, that is, if the role carries the name of
one of its pairs. So a role has at most one owner, and none without the marker. -/
theorem ownership_agrees (r : Resolver) :
    (∀ role e path, r.resolve e = .ok path → ∃ owned, isOwnedBy? r role e = .ok owned ∧
      (owned = true ↔ ownerOf r role = .ok (some e)) ∧
      (owned = true ↔ ∃ p, name? r e p = .ok role)) ∧
    (∀ role e₁ e₂, isOwnedBy? r role e₁ = .ok true → isOwnedBy? r role e₂ = .ok true → e₁ = e₂) ∧
    ∀ role e, isOwnedBy? r role e = .ok true → isReserved role = true := by
  refine ⟨fun role e path hpath => ?_, fun role e₁ e₂ h₁ h₂ => ?_, fun role e h => ?_⟩
  · have howner : isOwnedBy? r role e = .ok true ↔ _ := isOwnedBy?_iff_owner? hpath
    refine ⟨_, isOwnedBy?_of_resolve hpath role, ?_⟩
    rw [isOwnedBy?_of_resolve hpath, Except.ok.injEq] at howner
    rw [howner, ownerOf_eq, Except.ok.injEq]
    exact ⟨.rfl, owner?_eq_some_iff⟩
  · obtain ⟨path₁, hpath₁⟩ := exists_resolve_of_isOwnedBy? h₁
    obtain ⟨path₂, hpath₂⟩ := exists_resolve_of_isOwnedBy? h₂
    have howner := (isOwnedBy?_iff_owner? hpath₁).mp h₁
    rw [(isOwnedBy?_iff_owner? hpath₂).mp h₂] at howner
    exact (Option.some.inj howner).symm
  · obtain ⟨path, hpath⟩ := exists_resolve_of_isOwnedBy? h
    obtain ⟨p, hname⟩ := owner?_eq_some_iff.mp ((isOwnedBy?_iff_owner? hpath).mp h)
    exact isReserved_of_name? hname

namespace Sample

/-- A user whose name holds every mark and looks like the end of the name of a shadow role. -/
def mimic : Principal := ⟨.user, "x=#/:g:staff", by decide⟩

/-- The instance whose name ends with a line feed. -/
def odd : Entity :=
  ⟨[⟨.of .root, ⟨"cdap\n", by decide⟩, none⟩], by decide, ⟨by decide, by decide, trivial⟩⟩

theorem owner_of_mimic :
    ownerOf ⟨none⟩ ".:instance=cdap\n:u:x=#/:g:staff" = .ok (some odd) ∧
    ∀ e p, name? ⟨none⟩ e p = .ok ".:instance=cdap\n:u:x=#/:g:staff" → e = odd ∧ p = mimic := by
  have hname : name? ⟨none⟩ odd mimic = .ok ".:instance=cdap\n:u:x=#/:g:staff" :=
    toOption_eq_some_iff.mp (by decide +kernel)
  obtain ⟨-, hinjective, -, hinverse⟩ := ownerOf_inverse ⟨none⟩
  exact ⟨(hinverse _ _).mpr ⟨mimic, by decide, hname⟩,
    fun e p h => hinjective e odd p mimic _ h hname⟩

open Resolver.Sample in
/-- The application owns the role of the user who looks like a group. It does not own one whose path can
be read and leads to no entity: there are no datasets right below an instance. -/
theorem ownerless_dataset : served.resolve application = .ok application.path ∧
    isOwnedBy? served ".:instance=cdap/namespace=ns1/application=app1#1.0:u:x=#/:g:staff" application =
      .ok true ∧
    isOwnedBy? served ".:instance=cdap/dataset=d:u:x=#/:g:staff" application = .ok false := by
  have hpath : served.resolve application = .ok application.path :=
    toOption_eq_some_iff.mp (by decide +kernel)
  have hagree := (ownership_agrees served).1
  obtain ⟨owned, howned, -, hname⟩ :=
    hagree ".:instance=cdap/namespace=ns1/application=app1#1.0:u:x=#/:g:staff" application _ hpath
  obtain ⟨owned', howned', howner, -⟩ :=
    hagree ".:instance=cdap/dataset=d:u:x=#/:g:staff" application _ hpath
  have hmimic : name? served application mimic =
      .ok ".:instance=cdap/namespace=ns1/application=app1#1.0:u:x=#/:g:staff" :=
    toOption_eq_some_iff.mp (by decide +kernel)
  have hnobody : ownerOf served ".:instance=cdap/dataset=d:u:x=#/:g:staff" = .ok none :=
    toOption_eq_some_iff.mp (by decide +kernel)
  refine ⟨hpath, ?_, ?_⟩
  · rw [howned, hname.mpr ⟨mimic, hmimic⟩]
  · rw [hnobody] at howner
    cases owned' with
    | false => exact howned'
    | true => cases howner.mp rfl

end Sample

end ShadowRole

end Warrant
