import Mathlib
import Warrant.Engine.Configuration
import Warrant.Entity.Address
import Warrant.Proofs.Grammar
import Warrant.Proofs.Isolation
import Warrant.Proofs.Trimming

/-!
# Starting with the settings that were read

The settings are checked when they are read and once more by what they are for: the engine looks at the
limits of its cache, entities at their names, and the log output at its level. What a reader lets pass
that does what is declared (`Settings.Reader.Follows`) passes there as well. Names are looked at more
closely by the reading: an instance name has no line feed behind it, which an identifier may have
(`Identifier.isAccepted_iff`).
-/

namespace Warrant

/-! ### Numbers above zero -/

section Order

open Float.Model

theorem UnpackedFloat.compare_swap (a b : UnpackedFloat) :
    b.compare a = (a.compare b).map Ordering.swap := by
  have hsign : ∀ s t : UnpackedFloat.Sign, compare t s = (compare s t).swap := by
    intro s t
    cases s <;> cases t <;> rfl
  have hsize : ∀ (m n : Nat) (e f : Int),
      (compare f e).then (compare n m) = ((compare e f).then (compare m n)).swap := by
    intro m n e f
    rw [Ordering.swap_then, Int.compare_swap, Nat.compare_swap]
  cases a with
  | notANumber => cases b <;> rfl
  | infinity s =>
    cases b with
    | infinity t => exact congrArg some (hsign s t)
    | _ => cases s <;> rfl
  | zero s =>
    cases b with
    | finite t | infinity t => cases t <;> rfl
    | _ => rfl
  | finite s m e hm =>
    cases b with
    | finite t n f hn =>
      cases s <;> cases t
      · exact congrArg some (congrArg Ordering.swap (hsize m n e f))
      · rfl
      · rfl
      · exact congrArg some (hsize m n e f)
    | infinity t => cases t <;> rfl
    | _ => cases s <;> rfl

theorem not_float_le_of_lt {x y : Float} (h : x < y) : ¬ y ≤ x := by
  have hxy : x.toModel.unpack.compare y.toModel.unpack = some .lt := eq_of_beq (of_decide_eq_true h)
  intro hle
  have hyx : (y.toModel.unpack.compare x.toModel.unpack).any (·.isLE) = true := of_decide_eq_true hle
  rw [UnpackedFloat.compare_swap x.toModel.unpack, hxy] at hyx
  cases hyx

end Order

/-! ### Log levels -/

namespace Text

/-- What stands in front of the small letters is its own upper case. -/
theorem upperChar_of_lt {c : Char} (h : c.toNat < 'a'.toNat) : upperChar c = [c] := by
  have hspecials : ∀ s ∈ upperSpecials, 'a'.toNat ≤ s.1 := by decide +kernel
  have hruns : ∀ r ∈ upperRuns, 'a'.toNat ≤ r.first := by decide +kernel
  have hspecial : (upperSpecials.find? fun s => s.1 == c.toNat) = none := by
    refine List.find?_eq_none.mpr fun s hs => ?_
    have hfirst := hspecials s hs
    simp only [beq_iff_eq]
    omega
  have hrun : (upperRuns.find? fun r => r.holds c.toNat) = none := by
    refine List.find?_eq_none.mpr fun r hr => ?_
    have hfirst := hruns r hr
    simp only [UpperRun.holds, decide_eq_true_eq]
    omega
  rw [upperChar, hspecial, hrun]

theorem upper_of_lt {s : String} (h : ∀ c ∈ s.toList, c.toNat < 'a'.toNat) : upper s = s := by
  have hflat : s.toList.flatMap upperChar = s.toList.flatMap fun c => [c] :=
    List.flatMap_congr fun c hc => upperChar_of_lt (h c hc)
  rw [upper, hflat, List.flatMap_singleton', String.ofList_toList]

end Text

namespace LogLevel

variable {text : String} {level : LogLevel}

theorem mem_all (level : LogLevel) : level ∈ all := by
  cases level <;> decide

theorem label_injective : Function.Injective label := by
  have hall : ∀ l ∈ all, ∀ m ∈ all, l.label = m.label → l = m := by decide
  intro l m h
  exact hall l (mem_all l) m (mem_all m) h

theorem ofText?_eq_some_iff : ofText? text = some level ↔ level.label = Text.upper text := by
  constructor
  · intro h
    simpa using List.find?_some h
  · intro h
    cases hfound : ofText? text with
    | none => exact absurd h (by simpa using List.find?_eq_none.mp hfound level (mem_all level))
    | some other =>
      have hother : other.label = Text.upper text := by simpa using List.find?_some hfound
      rw [label_injective (hother.trans h.symm)]

theorem ofText?_label (level : LogLevel) : ofText? level.label = some level := by
  rw [ofText?_eq_some_iff, Text.upper_of_lt]
  cases level <;> simp [label]

end LogLevel

/-- The log output depends on the level only, however it is written. -/
theorem LogOutput.configure_of_ofText? {text : String} {level : LogLevel}
    (h : LogLevel.ofText? text = some level) (force : Option String) :
    ∃ output, configure level.label force = .ok output ∧ configure text force = .ok output ∧
      output.leastRank = level.rank := by
  rw [configure, configure, h, LogLevel.ofText?_label]
  exact ⟨_, rfl, rfl, rfl⟩

/-! ### The checks of the settings -/

namespace Settings

open Text

variable {text : String} {level : LogLevel} {group single : Option String}

theorem single_of_singleGroup (h : singleGroup group = .ok single) :
    ∀ name ∈ single, Single name := by
  intro name hname
  cases group with
  | none =>
    cases h
    cases hname
  | some text =>
    simp only [singleGroup] at h
    split at h
    · cases h
      cases hname
    · split at h
      · cases h
      · cases h
        obtain rfl : trim text = name := Option.some.inj hname
        exact ⟨‹_›, ‹_›, (trim_eq_iff.mp rfl).1⟩

theorem knownLevel_eq_ok_iff : knownLevel text = .ok level ↔ LogLevel.ofText? text = some level := by
  rw [knownLevel]
  cases LogLevel.ofText? text <;> simp

theorem validate_logLevel_eq_ok_iff {name : String} : Field.validate .logLevel text = .ok name ↔
    ∃ level, LogLevel.ofText? text = some level ∧ level.label = name := by
  simp only [← knownLevel_eq_ok_iff, Field.validate]
  cases knownLevel text <;> simp [Except.map]

theorem validate_default (f : Field) : f.validate f.default = .ok f.default := by
  cases f with
  | logLevel => exact validate_logLevel_eq_ok_iff.mpr ⟨.info, LogLevel.ofText?_label .info, rfl⟩
  | _ => rfl

/-! ### What a reader lets pass -/

namespace Reader.Follows

variable {I G : Type} {R : Reader I G} {i : I} {v : Values}

theorem proper_instanceName (hR : R.Follows) (h : R.read i = .ok v) :
    Identifier.Proper (v .instanceName).toList :=
  Identifier.isWord_iff.mp (hR.pattern h)

theorem single_adminGroup (hR : R.Follows) (h : R.read i = .ok v) :
    ∀ name ∈ v .adminGroup, Single name := by
  obtain ⟨group, -, hgroup⟩ := hR.validated h .adminGroup
  exact single_of_singleGroup hgroup

/-- The level is the one that the stated text names, whatever case it is written in. -/
theorem level_stated (hR : R.Follows) (h : R.read i = .ok v) : ∃ text level,
    R.stated i .logLevel = some text ∧ LogLevel.ofText? text = some level ∧
      v .logLevel = level.label := by
  obtain ⟨text, htext, hlevel⟩ := hR.validated h .logLevel
  obtain ⟨level, hfound, hlabel⟩ := validate_logLevel_eq_ok_iff.mp hlevel
  exact ⟨text, level, htext, hfound, hlabel.symm⟩

theorem instanceName_eq (hR : R.Follows) (h : R.read i = .ok v) {name : String}
    (hname : R.stated i .instanceName = some name) : v .instanceName = name := by
  obtain ⟨stated, hstated, hkept⟩ := hR.validated h .instanceName
  have hv : stated = v .instanceName := Except.ok.inj hkept
  exact Option.some.inj (hv ▸ hstated.symm.trans hname)

end Reader.Follows

end Settings

/-! ### The engine and its instance -/

theorem Entity.instance?_of_isAccepted {name : String}
    (h : Identifier.isAccepted name.toList = true) :
    ∃ e, instance? name = .ok e ∧ e.type = .of .root ∧ e.root.name.text = name := by
  refine ⟨⟨[⟨.of .root, ⟨name, h⟩, none⟩], by simp, rfl, rfl, trivial⟩, ?_, rfl, rfl⟩
  rw [instance?, make?, Identifier.make?, dif_pos h]
  rfl

/-- Without a line feed behind them identifiers are made of name characters only. -/
theorem Identifier.proper_of_make? {what name : String} {identifier : Identifier}
    (h : make? what name = .ok identifier) (hlast : name.toList.getLast? ≠ some '\n') :
    Proper name.toList := by
  rcases isAccepted_iff.mp (make?_isOk_iff.mp ⟨_, h⟩) with hproper | ⟨word, -, hword⟩
  · exact hproper
  · exact absurd (by rw [hword, List.getLast?_concat]) hlast

theorem Engine.configure?_of_pos {v : Settings.Values} (hsize : 0 ≤ v .cacheMaxEntries)
    (hlifetime : 0 < v .cacheLifetime) (looksUpGroups : Bool) :
    ∃ E limits, configure? (v.configuration looksUpGroups) = .ok (E, limits) ∧
      E.resolver.served = some (v .instanceName) := by
  have hsize : ¬ v .cacheMaxEntries < 0 := Int.not_lt.mpr hsize
  have hlimits : Cache.Limits.make? (v .cacheMaxEntries) (v .cacheLifetime)
      (Decimal.Numeral.real (v .cacheLifetime)).text =
        .ok ⟨(v .cacheMaxEntries).toNat, v .cacheLifetime⟩ :=
    (if_neg hsize).trans (if_neg (not_float_le_of_lt hlifetime))
  exact ⟨_, _, bind_eq_ok_iff.mpr ⟨_, hlimits, rfl⟩, rfl⟩

namespace Settings

open Text

/-- With settings that were read the engine can be made. It accepts the instance of their name and
rejects what belongs to any other one; the log output can be made, and its least level is the one whose
name was stated; the admin group, if there is one, is a single name. And each identifier without a line
feed behind it may be stated as the name of the instance. -/
theorem read_settings_serve {I G : Type} {R : Reader I G} (hR : R.Follows) (i : I) :
    (∀ v, R.read i = .ok v → ∀ looksUpGroups, ∃ E limits,
      Engine.configure? (v.configuration looksUpGroups) = .ok (E, limits) ∧
      (∃ e path, Entity.instance? (v .instanceName) = .ok e ∧ E.resolver.resolve e = .ok path) ∧
      (∀ e : Entity, e.root.name.text ≠ v .instanceName →
        ∃ fault, E.resolver.resolve e = .error fault) ∧
      (∃ text level, R.stated i .logLevel = some text ∧ LogLevel.ofText? text = some level ∧
        v .logLevel = Text.upper text ∧
        ∀ force, ∃ output, LogOutput.configure (v .logLevel) force = .ok output ∧
          LogOutput.configure text force = .ok output ∧ output.leastRank = level.rank) ∧
      (v .adminGroup = none ∨ ∃ name, v .adminGroup = some name ∧ Single name)) ∧
    ∀ what name identifier, Identifier.make? what name = .ok identifier →
      name.toList.getLast? ≠ some '\n' → R.stated i .instanceName = some name →
        (∀ v, R.read i = .ok v → v .instanceName = name) ∧
        ∀ fs, R.read i = .error fs → .instanceName ∉ fs := by
  refine ⟨fun v hv looksUpGroups => ?_, fun what name identifier hmake hlast hstated =>
    ⟨fun v hv => hR.instanceName_eq hv hstated, fun fs hfs hmem => ?_⟩⟩
  · obtain ⟨E, limits, hE, hserved⟩ :=
      Engine.configure?_of_pos (hR.ge hv) (hR.gt hv) looksUpGroups
    obtain ⟨e, he, htype, hroot⟩ := Entity.instance?_of_isAccepted
      (Identifier.isAccepted_iff.mpr (.inl (hR.proper_instanceName hv)))
    obtain ⟨text, level, htext, hfound, hlevel⟩ := hR.level_stated hv
    refine ⟨E, limits, hE, ⟨e, e.path, he, ?_⟩, fun e he => ?_,
      ⟨text, level, htext, hfound, ?_, ?_⟩, ?_⟩
    · refine Resolver.resolve_eq_ok_iff.mpr ⟨⟨_, htype⟩, Resolver.check_eq_ok_iff.mpr ?_, rfl⟩
      intro served hs
      rw [hroot]
      exact Option.some.inj (hserved.symm.trans hs)
    · exact (Resolver.rejects_iff hserved).mpr (.inr he)
    · exact hlevel.trans (LogLevel.ofText?_eq_some_iff.mp hfound)
    · rw [hlevel]
      exact fun force => LogOutput.configure_of_ofText? hfound force
    · cases hadmin : v .adminGroup with
      | none => exact .inl rfl
      | some name => exact .inr ⟨name, rfl, hR.single_adminGroup hv name hadmin⟩
  · have hword : Identifier.isWord name.toList = true :=
      Identifier.isWord_iff.mpr (Identifier.proper_of_make? hmake hlast)
    exact absurd hword (by rw [hR.refused hfs hmem hstated]; decide)

/-! ### The reader of variables and values -/

section Reading

variable {src : Source} {s : Settings} {f : Field} {g : Given} {ps : List (Field × Problem)}
variable {α : Type} {default a : α} {check : Given → Except Problem α}

theorem Source.read_eq_ok_iff : src.read f default check = .ok a ↔
    (src.find? f = none ∧ default = a) ∨ ∃ g, src.find? f = some g ∧ check g = .ok a := by
  rw [Source.read]
  cases hfind : src.find? f with
  | none => simp
  | some g => cases hcheck : check g <;> simp [Except.mapError, hcheck]

/-- The problem of one setting is told of no other one. -/
theorem Source.not_mem_problems {other : Field} (hne : other ≠ f) :
    other ∉ (problems (src.read f default check)).map Prod.fst := by
  rw [Source.read]
  cases src.find? f with
  | none => simp [problems]
  | some g => cases hcheck : check g <;> simp [Except.mapError, problems, hcheck, hne]

theorem read_eq_ok_iff : read src = .ok s ↔
    src.read .instanceName "cdap" instanceNameOf = .ok s.instanceName ∧
    src.read .cacheMaxEntries 10000 cacheMaxEntriesOf = .ok s.cacheMaxEntries ∧
    src.read .cacheLifetime 300 cacheLifetimeOf = .ok s.cacheLifetime ∧
    src.read .adminGroup none adminGroupOf = .ok s.adminGroup ∧
    src.read .superusers "" textOf = .ok s.superusers ∧
    src.read .logLevel .info logLevelOf = .ok s.logLevel := by
  constructor
  · intro h
    rw [read] at h
    split at h
    · cases h
      exact ⟨‹_›, ‹_›, ‹_›, ‹_›, ‹_›, ‹_›⟩
    · cases h
  · rintro ⟨hinstance, hsize, hlifetime, hadmin, hsuperusers, hlevel⟩
    rw [read, hinstance, hsize, hlifetime, hadmin, hsuperusers, hlevel]

/-- No problem is told of an instance name that was read. -/
theorem instanceName_not_mem {name : String} (h : read src = .error ps)
    (hname : src.read .instanceName "cdap" instanceNameOf = .ok name) :
    .instanceName ∉ ps.map Prod.fst := by
  rw [read] at h
  split at h
  · cases h
  · cases h
    rw [hname]
    simp only [List.map_append, List.mem_append, not_or]
    exact ⟨⟨⟨⟨⟨nofun, Source.not_mem_problems (by decide)⟩, Source.not_mem_problems (by decide)⟩,
      Source.not_mem_problems (by decide)⟩, Source.not_mem_problems (by decide)⟩,
      Source.not_mem_problems (by decide)⟩

theorem instanceNameOf_eq_ok_iff {name : String} : instanceNameOf g = .ok name ↔
    textOf g = .ok name ∧ Identifier.isWord name.toList = true := by
  rw [instanceNameOf, bind_eq_ok_iff]
  constructor
  · rintro ⟨text, htext, h⟩
    split at h
    · cases h
      exact ⟨htext, ‹_›⟩
    · cases h
  · rintro ⟨htext, hword⟩
    exact ⟨name, htext, by rw [if_pos hword]; rfl⟩

theorem wholeOf_of_cacheMaxEntriesOf {n : Nat} (h : cacheMaxEntriesOf g = .ok n) :
    wholeOf g = .ok n := by
  obtain ⟨size, hsize, h⟩ := bind_eq_ok_iff.mp h
  split at h
  · cases h
  · cases h
    rw [hsize, Int.toNat_of_nonneg (by omega)]

theorem realOf_of_cacheLifetimeOf {x : Float} (h : cacheLifetimeOf g = .ok x) :
    realOf g = .ok x ∧ 0 < x := by
  obtain ⟨lifetime, hlifetime, h⟩ := bind_eq_ok_iff.mp h
  split at h
  · cases h
    exact ⟨hlifetime, ‹_›⟩
  · cases h

theorem adminGroupOf_eq_ok_iff {group : Option String} : adminGroupOf g = .ok group ↔
    ∃ text, optionalTextOf g = .ok text ∧ singleGroup text = .ok group := by
  simp only [adminGroupOf, bind_eq_ok_iff, mapError_eq_ok_iff]

theorem logLevelOf_eq_ok_iff {level : LogLevel} : logLevelOf g = .ok level ↔
    ∃ text, textOf g = .ok text ∧ knownLevel text = .ok level := by
  simp only [logLevelOf, bind_eq_ok_iff, mapError_eq_ok_iff]

/-- A setting that was read has what its own check makes of the stated value. -/
theorem validated_of_read {b : f.Value} (h : src.read f default check = .ok a)
    (hdefault : default = a → f.default = b)
    (hcheck : ∀ g, check g = .ok a → ∃ x, reader.convert f g = some x ∧ f.validate x = .ok b) :
    ∃ x, reader.stated src f = some x ∧ f.validate x = .ok b := by
  rcases Source.read_eq_ok_iff.mp h with ⟨hfind, ha⟩ | ⟨g, hfind, hg⟩
  · refine ⟨f.default, by simp [Reader.stated, reader, hfind], ?_⟩
    rw [validate_default, hdefault ha]
  · obtain ⟨x, hx, hvalid⟩ := hcheck g hg
    exact ⟨x, by simpa [Reader.stated, reader, hfind] using hx, hvalid⟩

theorem validated_values (h : read src = .ok s) (f : Field) :
    ∃ x, reader.stated src f = some x ∧ f.validate x = .ok (s.values f) := by
  obtain ⟨hinstance, hsize, hlifetime, hadmin, hsuperusers, hlevel⟩ := read_eq_ok_iff.mp h
  cases f with
  | instanceName =>
    refine validated_of_read hinstance id fun g hg => ⟨_, ?_, rfl⟩
    exact toOption_eq_some_iff.mpr (instanceNameOf_eq_ok_iff.mp hg).1
  | cacheMaxEntries =>
    refine validated_of_read hsize (congrArg Int.ofNat) fun g hg => ⟨_, ?_, rfl⟩
    exact toOption_eq_some_iff.mpr (wholeOf_of_cacheMaxEntriesOf hg)
  | cacheLifetime =>
    refine validated_of_read hlifetime id fun g hg => ⟨_, ?_, rfl⟩
    exact toOption_eq_some_iff.mpr (realOf_of_cacheLifetimeOf hg).1
  | adminGroup =>
    refine validated_of_read hadmin id fun g hg => ?_
    obtain ⟨group, hgroup, hsingle⟩ := adminGroupOf_eq_ok_iff.mp hg
    exact ⟨group, toOption_eq_some_iff.mpr hgroup, hsingle⟩
  | superusers =>
    exact validated_of_read hsuperusers id fun g hg => ⟨_, toOption_eq_some_iff.mpr hg, rfl⟩
  | logLevel =>
    refine validated_of_read hlevel (congrArg LogLevel.label) fun g hg => ?_
    obtain ⟨text, htext, hknown⟩ := logLevelOf_eq_ok_iff.mp hg
    exact ⟨text, toOption_eq_some_iff.mpr htext, validate_logLevel_eq_ok_iff.mpr
      ⟨s.logLevel, knownLevel_eq_ok_iff.mp hknown, rfl⟩⟩

theorem read_instanceName {name : String} (hname : reader.stated src .instanceName = some name)
    (hword : Identifier.isWord name.toList = true) :
    src.read .instanceName "cdap" instanceNameOf = .ok name := by
  rw [Source.read_eq_ok_iff]
  cases hfind : src.find? .instanceName with
  | none => exact .inl ⟨rfl, by simpa [Reader.stated, reader, hfind, Field.default] using hname⟩
  | some g =>
    have htext : (textOf g).toOption = some name := by
      simpa [Reader.stated, reader, hfind] using hname
    exact .inr ⟨g, rfl, instanceNameOf_eq_ok_iff.mpr ⟨toOption_eq_some_iff.mp htext, hword⟩⟩

theorem reader_read_eq_ok_iff {v : Values} :
    reader.read src = .ok v ↔ ∃ s, read src = .ok s ∧ s.values = v := by
  simp only [reader]
  cases read src <;> simp

theorem reader_read_eq_error_iff {fs : List Field} :
    reader.read src = .error fs ↔ ∃ ps, read src = .error ps ∧ ps.map Prod.fst = fs := by
  simp only [reader]
  cases read src <;> simp

end Reading

/-- What is declared of the settings is what their checks test. -/
theorem reader_follows : reader.Follows where
  pattern := by
    intro src v h
    obtain ⟨s, hs, rfl⟩ := reader_read_eq_ok_iff.mp h
    rcases Source.read_eq_ok_iff.mp (read_eq_ok_iff.mp hs).1 with ⟨-, hdefault⟩ | ⟨g, -, hg⟩
    · rw [values, ← hdefault]
      decide
    · exact (instanceNameOf_eq_ok_iff.mp hg).2
  ge := by
    intro src v h
    obtain ⟨s, -, rfl⟩ := reader_read_eq_ok_iff.mp h
    exact Int.natCast_nonneg s.cacheMaxEntries
  gt := by
    intro src v h
    obtain ⟨s, hs, rfl⟩ := reader_read_eq_ok_iff.mp h
    obtain ⟨-, -, hlifetime, -⟩ := read_eq_ok_iff.mp hs
    rcases Source.read_eq_ok_iff.mp hlifetime with ⟨-, hdefault⟩ | ⟨g, -, hg⟩
    · rw [values, ← hdefault]
      decide +kernel
    · exact (realOf_of_cacheLifetimeOf hg).2
  validated := by
    intro src v h f
    obtain ⟨s, hs, rfl⟩ := reader_read_eq_ok_iff.mp h
    exact validated_values hs f
  refused := by
    intro src fs name h hmem hname
    obtain ⟨ps, hps, rfl⟩ := reader_read_eq_error_iff.mp h
    refine Bool.eq_false_iff.mpr fun hword => ?_
    exact instanceName_not_mem hps (read_instanceName hname hword) hmem

namespace Sample

/-- An admin group with white space around its name, and a log level whose first letter is a small i
without the dot. -/
def given : Source :=
  { environment := [("AUTHZ_BRIDGE_INSTANCE_NAME", "prod")]
    values := [("admin_group_name", .text " admins "), ("log_level", .text "ınfo")] }

theorem stated_given : reader.stated given .instanceName = some "prod" ∧
    reader.stated given .logLevel = some "ınfo" := by
  have hinstance : Text.lowerAscii "AUTHZ_BRIDGE_INSTANCE_NAME" =
      variableStart ++ Field.label .instanceName := by decide +kernel
  have hadmin : Text.lowerAscii "admin_group_name" = Field.label .adminGroup := by decide +kernel
  have hlevel : Text.lowerAscii "log_level" = Field.label .logLevel := by decide +kernel
  simp [Reader.stated, reader, given, Source.find?, hinstance, hadmin, hlevel, Field.label, textOf,
    Except.toOption]

/-- The engine serves the instance of the name, and not the one that is meant where none is given. What
is written has at least the level that was asked for. -/
theorem started : ∃ s : Settings, reader.read given = .ok s.values ∧ s.instanceName = "prod" ∧
    (∃ E limits, Engine.configure? (s.configuration true) = .ok (E, limits) ∧
      (∃ e path, Entity.instance? "prod" = .ok e ∧ E.resolver.resolve e = .ok path) ∧
      ∃ e fault, Entity.instance? "cdap" = .ok e ∧ E.resolver.resolve e = .error fault) ∧
    (∃ output, LogOutput.configure "ınfo" none = .ok output ∧ output.leastRank = 20) ∧
    s.adminGroup = some "admins" ∧ Single "admins" := by
  obtain ⟨hserve, hname⟩ := read_settings_serve reader_follows given
  have hread : (read given).toOption.map (fun s => (s.adminGroup, s.logLevel)) =
      some (some "admins", .info) := by decide +kernel
  obtain ⟨s, hs, hfields⟩ := Option.map_eq_some_iff.mp hread
  obtain ⟨hadmin, -⟩ := Prod.mk.inj hfields
  have hs : read given = .ok s := toOption_eq_some_iff.mp hs
  have hv : reader.read given = .ok s.values := reader_read_eq_ok_iff.mpr ⟨s, hs, rfl⟩
  have hprod : s.instanceName = "prod" :=
    (hname "instance name" "prod" ⟨"prod", by decide⟩ rfl (by decide) stated_given.1).1 _ hv
  obtain ⟨E, limits, hE, haccepts, hrejects, ⟨text, level, htext, hfound, -, hlog⟩, hgroup⟩ :=
    hserve _ hv true
  obtain ⟨e, he, -, hroot⟩ := Entity.instance?_of_isAccepted
    (show Identifier.isAccepted "cdap".toList = true by decide)
  obtain ⟨fault, hfault⟩ := hrejects e (by rw [hroot, values, hprod]; decide)
  obtain ⟨output, -, houtput, hrank⟩ := hlog none
  obtain rfl : "ınfo" = text := Option.some.inj (stated_given.2.symm.trans htext)
  obtain rfl : LogLevel.info = level :=
    Option.some.inj ((by decide +kernel : LogLevel.ofText? "ınfo" = some .info).symm.trans hfound)
  refine ⟨s, hv, hprod, ⟨E, limits, hE, hprod ▸ haccepts, e, fault, he, hfault⟩,
    ⟨output, houtput, hrank⟩, hadmin, ?_⟩
  rcases hgroup with hnone | ⟨name, hname, hsingle⟩
  · exact absurd (hadmin.symm.trans hnone) nofun
  · rwa [Option.some.inj (hadmin.symm.trans hname)]

end Sample

end Settings

end Warrant
