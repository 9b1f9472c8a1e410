import Mathlib
import Warrant.Proofs.Coherence
import Warrant.Proofs.Lookups
import Warrant.Proofs.Spelling
import Warrant.Proofs.Startup
import Warrant.Proofs.Tending

/-!
# The list of superusers

A list of names is written with commas between its items, each of them a name with white space around it
or nothing but white space, in any order and as often as one likes (`Settings.Lists`). The names that are
read off a text are those of which it is a list, and no others (`Settings.names_eq_iff`).
-/

namespace Warrant

namespace Text

variable {item : List Char} {name : String}

theorem comma_not_blank : isBlank ',' = false := by decide

/-- In an item without commas only single names can stand. -/
theorem Single.of_within (hcomma : ',' ∉ item) (ht : Trimmed isBlank name.toList)
    (h : Within isBlank item name.toList) (hne : name ≠ "") : Single name := by
  obtain ⟨front, back, -, -, rfl⟩ := h
  exact ⟨hne, fun hmem => hcomma (by simp [hmem]), ht⟩

theorem Single.comma_not_mem (hs : Single name) (h : Within isBlank item name.toList) :
    ',' ∉ item := by
  obtain ⟨front, back, hfront, hback, rfl⟩ := h
  have hno : ∀ side : List Char, (∀ c ∈ side, isBlank c = true) → ',' ∉ side := fun side hside hmem =>
    absurd (hside ',' hmem) (by simp [comma_not_blank])
  simp [hno front hfront, hno back hback, hs.comma_free]

/-- White space holds no name. -/
theorem Single.not_within_blank (hs : Single name) (hblank : ∀ c ∈ item, isBlank c = true) :
    ¬ Within isBlank item name.toList := by
  intro h
  have hnil : name.toList = [] := (trimBy_of_within hs.trimmed h).symm.trans (trimBy_eq_nil hblank)
  exact hs.nonempty (String.toList_eq_nil_iff.mp hnil)

/-- An item holds one name only. -/
theorem Single.eq_of_within {other : String} (hs : Single name) (ho : Single other)
    (h : Within isBlank item name.toList) (h' : Within isBlank item other.toList) : name = other :=
  String.toList_injective
    ((trimBy_of_within hs.trimmed h).symm.trans (trimBy_of_within ho.trimmed h'))

end Text

namespace Settings

open Text

variable {s : Settings} {names : Finset String} {text name : String}

/-- The text is a list of the names: between its commas stand names with white space around them, each
name at least once, and mere white space. -/
def Lists (names : Finset String) (text : String) : Prop :=
  ∃ items : List (List Char), text.toList = joined ',' items ∧
    (∀ item ∈ items, (∀ c ∈ item, isBlank c = true) ∨
      ∃ name ∈ names, Within isBlank item name.toList) ∧
    ∀ name ∈ names, ∃ item ∈ items, Within isBlank item name.toList

theorem mem_superuserNames_iff : name ∈ s.superuserNames ↔ Single name ∧
    ∃ item ∈ parts ',' s.superusers.toList, Within isBlank item name.toList := by
  have hread : name ∈ s.superuserNames ↔
      (∃ item ∈ parts ',' s.superusers.toList, trim (String.ofList item) = name) ∧ name ≠ "" := by
    simp [superuserNames, namesIn]
  rw [hread]
  simp only [trim_eq_iff, String.toList_ofList]
  constructor
  · rintro ⟨⟨item, hitem, ht, hwithin⟩, hne⟩
    exact ⟨.of_within (not_mem_of_mem_parts hitem) ht hwithin hne, item, hitem, hwithin⟩
  · rintro ⟨hs, item, hitem, hwithin⟩
    exact ⟨⟨item, hitem, hs.trimmed, hwithin⟩, hs.nonempty⟩

/-- The items of a list are its parts; a list of no items has one part, which is empty. -/
theorem mem_parts_joined {items : List (List Char)} (h : ∀ item ∈ items, ',' ∉ item)
    (item : List Char) :
    item ∈ parts ',' (joined ',' items) ↔ item ∈ items ∨ items = [] ∧ item = [] := by
  by_cases hnil : items = []
  · subst hnil
    simp [joined, parts]
  · simp [parts_joined hnil h, hnil]

/-- The names of a list are read off it. -/
theorem mem_iff_of_lists (hs : ∀ name ∈ names, Single name) (h : Lists names s.superusers) :
    name ∈ s.superuserNames ↔ name ∈ names := by
  obtain ⟨items, htext, hitems, hnames⟩ := h
  have hcomma : ∀ item ∈ items, ',' ∉ item := by
    intro item hitem hmem
    rcases hitems item hitem with hblank | ⟨other, hother, hwithin⟩
    · exact absurd (hblank ',' hmem) (by simp [comma_not_blank])
    · exact (hs other hother).comma_not_mem hwithin hmem
  rw [mem_superuserNames_iff, htext]
  simp only [mem_parts_joined hcomma]
  constructor
  · rintro ⟨hsingle, item, hitem | ⟨-, rfl⟩, hwithin⟩
    · rcases hitems item hitem with hblank | ⟨other, hother, hwithin'⟩
      · exact absurd hwithin (hsingle.not_within_blank hblank)
      · rwa [hsingle.eq_of_within (hs other hother) hwithin hwithin']
    · exact absurd hwithin (hsingle.not_within_blank fun c hc => absurd hc List.not_mem_nil)
  · intro hname
    obtain ⟨item, hitem, hwithin⟩ := hnames name hname
    exact ⟨hs name hname, item, .inl hitem, hwithin⟩

/-- Every text is a list of the names that are read off it. -/
theorem lists_superuserNames (s : Settings) : Lists s.superuserNames.toFinset s.superusers := by
  refine ⟨parts ',' s.superusers.toList, (joined_parts ..).symm, fun item hitem => ?_,
    fun name hname => (mem_superuserNames_iff.mp (List.mem_toFinset.mp hname)).2⟩
  obtain ⟨ht, hwithin⟩ :=
    trim_eq_iff.mp (rfl : trim (String.ofList item) = trim (String.ofList item))
  rw [String.toList_ofList] at hwithin
  by_cases hempty : trim (String.ofList item) = ""
  · rw [hempty] at hwithin
    exact .inl hwithin.of_nil
  · have hsingle : Single (trim (String.ofList item)) :=
      .of_within (not_mem_of_mem_parts hitem) ht hwithin hempty
    have hread : trim (String.ofList item) ∈ s.superuserNames :=
      mem_superuserNames_iff.mpr ⟨hsingle, item, hitem, hwithin⟩
    exact .inr ⟨_, List.mem_toFinset.mpr hread, hwithin⟩

/-- The names read off a text are those of which it is a list. -/
theorem names_eq_iff (hs : ∀ name ∈ names, Single name) :
    s.superuserNames.toFinset = names ↔ Lists names s.superusers := by
  constructor
  · rintro rfl
    exact lists_superuserNames s
  · intro h
    ext name
    rw [List.mem_toFinset, mem_iff_of_lists hs h]

/-- Names with commas between them are a list of these names. -/
theorem lists_intercalate (order : List String) :
    Lists order.toFinset (",".intercalate order) := by
  have hself : ∀ name : String, Within isBlank name.toList name.toList := fun name =>
    ⟨[], [], by simp, by simp, by simp⟩
  refine ⟨order.map String.toList, ?_, fun item hitem => ?_, fun name hname => ?_⟩
  · rw [String.toList_intercalate, joined_eq_intercalate]
    rfl
  · obtain ⟨name, hname, rfl⟩ := List.mem_map.mp hitem
    exact .inr ⟨name, List.mem_toFinset.mpr hname, hself name⟩
  · exact ⟨name.toList, List.mem_map_of_mem (List.mem_toFinset.mp hname), hself name⟩

end Settings

namespace Engine

variable {τ : Type} [Add τ] [LE τ] [DecidableLE τ] {E : Engine} {limits : Cache.Limits Float}

theorem superusers_of_configure? {c : Configuration} (h : configure? c = .ok (E, limits)) :
    E.superusers = c.superusers := by
  rw [configure?] at h
  obtain ⟨limits', -, h⟩ := bind_eq_ok_iff.mp h
  obtain ⟨rfl, -⟩ := Prod.mk.inj (Except.ok.inj h)
  rfl

/-- A user passes as a superuser exactly if the user is one. -/
theorem bypassed_as_superuser_iff (E : Engine) (user : String) (w : World Site τ) :
    (World.run (E.bypass user) w).1 = .ok (some "superuser") ↔ user ∈ E.superusers := by
  rw [run_bypass, bypassAt]
  by_cases hu : user ∈ E.superusers
  · simp [hu]
  · rw [if_neg hu]
    cases E.adminGroup with
    | none => simp [hu]
    | some admins =>
      by_cases hmem : admins ∈ E.groupsAt w.remote user <;> simp [hu, hmem]

end Engine

namespace Settings

open Text

variable {τ : Type} [Add τ] [LE τ] [DecidableLE τ]

/-- A text is a list of names exactly if these are the names that are read off it. Whatever the text is,
the names read off it are single names, each read once; with commas between them, in any order and as
often as one likes, they are read again; and they are the users who pass as superusers. -/
theorem superusers_round_trip (s : Settings) (looksUpGroups : Bool) :
    (∀ names : Finset String, (∀ name ∈ names, Single name) →
      (s.superuserNames.toFinset = names ↔ Lists names s.superusers)) ∧
    (∀ name ∈ s.superuserNames, Single name) ∧ s.superuserNames.Nodup ∧
    (∀ order : List String, order.toFinset = s.superuserNames.toFinset →
      { s with superusers := ",".intercalate order }.superuserNames.toFinset =
        s.superuserNames.toFinset) ∧
    ∀ E limits, Engine.configure? (s.configuration looksUpGroups) = .ok (E, limits) →
      ∀ (user : String) (w : World Engine.Site τ),
        (World.run (E.bypass user) w).1 = .ok (some "superuser") ↔ user ∈ s.superuserNames := by
  have hsingle : ∀ name ∈ s.superuserNames, Single name := fun name hname =>
    (mem_superuserNames_iff.mp hname).1
  refine ⟨fun names hs => names_eq_iff hs, hsingle, nodup_sortedDistinct _, fun order horder => ?_,
    fun E limits hE user w => ?_⟩
  · refine (names_eq_iff fun name hname => hsingle name (List.mem_toFinset.mp hname)).mpr ?_
    rw [← horder]
    exact lists_intercalate order
  · rw [Engine.bypassed_as_superuser_iff, Engine.superusers_of_configure? hE]
    rfl

namespace Sample

/-- A list with white space around the names, an empty item and a name that comes twice. -/
def listed : Settings :=
  { instanceName := "cdap"
    cacheMaxEntries := 10
    cacheLifetime := 300
    adminGroup := none
    superusers := " root, admin ,,root"
    logLevel := .info }

theorem single_names : ∀ name ∈ ({"root", "admin"} : Finset String), Single name := by
  intro name hname
  rcases Finset.mem_insert.mp hname with rfl | hname
  · exact ⟨by decide, by simp, (trim_eq_iff.mp (rfl : trim "root" = "root")).1⟩
  · obtain rfl := Finset.mem_singleton.mp hname
    exact ⟨by decide, by simp, (trim_eq_iff.mp (rfl : trim "admin" = "admin")).1⟩

theorem lists_root_and_admin : Lists {"root", "admin"} listed.superusers := by
  have hroot : Within isBlank " root".toList "root".toList := (trim_eq_iff.mp rfl).2
  have hadmin : Within isBlank " admin ".toList "admin".toList := (trim_eq_iff.mp rfl).2
  have hagain : Within isBlank "root".toList "root".toList := (trim_eq_iff.mp rfl).2
  refine ⟨[" root", " admin ", "", "root"].map String.toList, rfl, ?_, ?_⟩
  · simp only [List.map_cons, List.map_nil, List.forall_mem_cons]
    exact ⟨.inr ⟨_, by decide, hroot⟩, .inr ⟨_, by decide, hadmin⟩, .inl (by simp),
      .inr ⟨_, by decide, hagain⟩, nofun⟩
  · intro name hname
    rcases Finset.mem_insert.mp hname with rfl | hname
    · exact ⟨_, by simp, hroot⟩
    · obtain rfl := Finset.mem_singleton.mp hname
      exact ⟨_, by simp, hadmin⟩

/-- The two names are read off the list, and off one in which they stand the other way round. Root passes
as a superuser, and nobody does whose name has white space around it. -/
theorem root_and_admin :
    Lists {"root", "admin"} listed.superusers ∧ listed.superuserNames.toFinset = {"root", "admin"} ∧
    { listed with superusers := ",".intercalate ["root", "admin", "root"] }.superuserNames.toFinset =
      {"root", "admin"} ∧
    ∃ E limits, Engine.configure? (listed.configuration false) = .ok (E, limits) ∧
      (World.run (E.bypass "root") Engine.Sample.start).1 = .ok (some "superuser") ∧
      (World.run (E.bypass " root") Engine.Sample.start).1 ≠ .ok (some "superuser") := by
  obtain ⟨hlists, -, -, hrejoined, hpass⟩ :=
    superusers_round_trip (τ := Nat) listed false
  have hnames := (hlists _ single_names).mpr lists_root_and_admin
  obtain ⟨E, limits, hconfigured, -⟩ := Engine.configure?_of_pos (v := listed.values)
    (by decide) (by decide +kernel) false
  have hroot : "root" ∈ listed.superuserNames := List.mem_toFinset.mp (by rw [hnames]; decide)
  have hpadded : " root" ∉ listed.superuserNames := fun h =>
    absurd (List.mem_toFinset.mpr h) (by rw [hnames]; decide)
  refine ⟨lists_root_and_admin, hnames, ?_, E, limits, hconfigured, ?_, ?_⟩
  · rw [hrejoined _ (by rw [hnames]; decide), hnames]
  · exact (hpass _ _ hconfigured _ _).mpr hroot
  · exact fun h => hpadded ((hpass _ _ hconfigured _ _).mp h)

end Sample

end Settings

end Warrant
