import PowerFpu.Proofs.Core.Run
import PowerFpu.Proofs.Json.Reader

/-! Configurations written in JSON.

Each setting may be given or left out, in any order and among members of unknown names. A text
that gives some of the settings is read as these with the defaults for the others, and what is
read starts a core. -/

set_option autoImplicit false

namespace PowerFpu

open Json (Value Denotes)

/-- A member that stands under its name, or is left out. -/
inductive Json.Entry (name : String) (absent : Prop) (describes : Value → Prop) : List (String × Value) → Prop where
  | omitted (isAbsent : absent) : Entry name absent describes []
  | stated (value : Value) (described : describes value) : Entry name absent describes [(name, value)]

/-- A setting is a member that is left out if it is not given. -/
def Json.Setting {α : Type} (name : String) (spells : α → Value → Prop) (given : Option α) :
    List (String × Value) → Prop :=
  Entry name (given = none) fun value => ∃ setting, given = some setting ∧ spells setting value

namespace Json

section Entry
variable {name : String} {absent : Prop} {describes : Value → Prop} {members : List (String × Value)}

theorem Entry.names (entry : Entry name absent describes members) : (members.map (·.1)).Sublist [name] := by
  cases entry with
  | omitted => simp
  | stated => simp

theorem Entry.lookup_of_ne (entry : Entry name absent describes members) {other : String} (different : other ≠ name) :
    members.lookup other = none := by
  cases entry with
  | omitted => rfl
  | stated value => simp [List.lookup_cons, beq_eq_false_iff_ne.mpr different]

variable {record : List (String × Value)} (same : record.lookup name = members.lookup name)
include same

theorem Entry.member_eq {α : Type} (entry : Entry name absent describes members) {read : Value → Option α}
    {default result : α} (ofAbsent : absent → result = default)
    (ofDescribed : ∀ value, describes value → read value = some result) :
    Value.member record name read default = some result := by
  cases entry with
  | omitted isAbsent => simp [Value.member, same, ofAbsent isAbsent]
  | stated value described => simp [Value.member, same, ofDescribed value described]

theorem Setting.member_eq {α : Type} {spells : α → Value → Prop} {given : Option α}
    (setting : Setting name spells given members) {read : Value → Option α} (default : α)
    (reads : ∀ setting value, spells setting value → read value = some setting) :
    Value.member record name read default = some (given.getD default) := by
  refine Entry.member_eq same setting ?_ ?_
  · rintro rfl
    rfl
  · rintro value ⟨stated, rfl, spelled⟩
    exact reads stated value spelled

end Entry

end Json

namespace Configuration

open Json (Entry Setting)

structure Given where
  trace : Option Bool
  model : Option ProcessorModel
  initialFpscr : Option Word
  host : Option HostKind

def SpellsTrace (trace : Bool) (value : Value) : Prop :=
  value = .bool trace

def SpellsModel : ProcessorModel → Value → Prop
  | .mpc601, value => value = .string "Mpc601" ∨ value = .string "601"
  | .mpc603e, value => value = .string "Mpc603e" ∨ value = .string "603e"

def SpellsWord (word : Word) (value : Value) : Prop :=
  value = .number (Nat.toDigits 10 word.toNat)

def SpellsHost : HostKind → Value → Prop
  | .native, value => value = .string "Native"
  | .detached, value => value = .string "Detached"

def sectionNames : List String :=
  ["general", "fpu"]

def generalNames : List String :=
  ["trace_instructions"]

def unitNames : List String :=
  ["model", "initial_fpscr", "host_env"]

namespace Given

def completed (given : Given) : Configuration where
  trace := given.trace.getD false
  model := given.model.getD .mpc603e
  initialFpscr := given.initialFpscr.getD 0
  host := given.host.getD .native

def InGeneral (given : Given) (value : Value) : Prop :=
  ∃ trace, Setting "trace_instructions" SpellsTrace given.trace trace ∧ value.HasMembers generalNames trace

def InUnit (given : Given) (value : Value) : Prop :=
  ∃ model initialFpscr host, Setting "model" SpellsModel given.model model ∧
    Setting "initial_fpscr" SpellsWord given.initialFpscr initialFpscr ∧
    Setting "host_env" SpellsHost given.host host ∧ value.HasMembers unitNames (model ++ initialFpscr ++ host)

/-- The value gives these settings and no others. A section that gives none may be left out. -/
def InRoot (given : Given) (root : Value) : Prop :=
  ∃ general unit, Entry "general" (given.trace = none) given.InGeneral general ∧
    Entry "fpu" (given.model = none ∧ given.initialFpscr = none ∧ given.host = none) given.InUnit unit ∧
    root.HasMembers sectionNames (general ++ unit)

end Given

section Values

theorem bool?_spells (trace : Bool) (value : Value) (spells : SpellsTrace trace value) : value.bool? = some trace := by
  cases spells
  rfl

theorem choice?_model (model : ProcessorModel) (value : Value) (spells : SpellsModel model value) :
    value.choice? modelNames = some model := by
  cases model <;> rcases spells with rfl | rfl <;> rfl

theorem choice?_host (host : HostKind) (value : Value) (spells : SpellsHost host value) :
    value.choice? hostNames = some host := by
  cases host <;> cases spells <;> rfl

theorem word?_spells (word : Word) (value : Value) (spells : SpellsWord word value) : value.word? = some word := by
  cases spells
  have isDigits : (Nat.toDigits 10 word.toNat).all Char.isDigit = true :=
    List.all_eq_true.mpr fun c mem => Nat.isDigit_of_mem_toDigits (by decide) (by decide) mem
  have folded : (Nat.toDigits 10 word.toNat).foldl (fun n c => n * 10 + (c.toNat - '0'.toNat)) 0 = word.toNat := by
    simp only [Nat.mul_comm _ 10]
    rw [← Nat.ofDigitChars_eq_foldl, Nat.ofDigitChars_ten_toDigits]
  have bound : word.toNat < 0x100000000 := word.isLt
  simp only [Value.word?, folded, isDigits, decide_eq_true bound, Bool.and_self, if_true, BitVec.ofNat_toNat,
    BitVec.setWidth_eq]

end Values

section Sections
variable {given : Given} {value : Value}

theorem general?_inGeneral (gives : given.InGeneral value) : general? value = some (given.trace.getD false) := by
  obtain ⟨trace, setting, has⟩ := gives
  obtain ⟨record, read, lookup⟩ := Value.record?_hasMembers (by decide) setting.names has
  change value.record? ["trace_instructions"] = some record at read
  have member := setting.member_eq (lookup "trace_instructions") default.trace bool?_spells
  simp only [general?, read, Option.bind_eq_bind, Option.bind_some, member]
  rfl

theorem fpu?_inUnit (gives : given.InUnit value) (trace : Bool) :
    fpu? trace value = some { given.completed with trace } := by
  obtain ⟨model, initialFpscr, host, settingModel, settingFpscr, settingHost, has⟩ := gives
  have listed : ((model ++ initialFpscr ++ host).map (·.1)).Sublist unitNames := by
    rw [List.map_append, List.map_append]
    exact (settingModel.names.append settingFpscr.names).append settingHost.names
  obtain ⟨record, read, lookup⟩ := Value.record?_hasMembers (by decide) listed has
  change value.record? ["model", "initial_fpscr", "host_env"] = some record at read
  simp only [List.lookup_append] at lookup
  -- Each name is found among its own members, whichever of the others are left out.
  have lookupModel : record.lookup "model" = model.lookup "model" := by
    rw [lookup, settingFpscr.lookup_of_ne (by decide), settingHost.lookup_of_ne (by decide), Option.or_none,
      Option.or_none]
  have lookupFpscr : record.lookup "initial_fpscr" = initialFpscr.lookup "initial_fpscr" := by
    rw [lookup, settingModel.lookup_of_ne (by decide), settingHost.lookup_of_ne (by decide), Option.none_or,
      Option.or_none]
  have lookupHost : record.lookup "host_env" = host.lookup "host_env" := by
    rw [lookup, settingModel.lookup_of_ne (by decide), settingFpscr.lookup_of_ne (by decide), Option.none_or,
      Option.none_or]
  have memberModel := settingModel.member_eq lookupModel default.model choice?_model
  have memberFpscr := settingFpscr.member_eq lookupFpscr default.initialFpscr word?_spells
  have memberHost := settingHost.member_eq lookupHost default.host choice?_host
  simp only [fpu?, read, Option.bind_eq_bind, Option.bind_some, memberModel, memberFpscr, memberHost]
  rfl

theorem ofValue?_inRoot {root : Value} (gives : given.InRoot root) : ofValue? root = some given.completed := by
  obtain ⟨general, unit, entryGeneral, entryUnit, has⟩ := gives
  have listed : ((general ++ unit).map (·.1)).Sublist sectionNames := by
    rw [List.map_append]
    exact entryGeneral.names.append entryUnit.names
  obtain ⟨record, read, lookup⟩ := Value.record?_hasMembers (by decide) listed has
  change root.record? ["general", "fpu"] = some record at read
  simp only [List.lookup_append] at lookup
  have lookupGeneral : record.lookup "general" = general.lookup "general" := by
    rw [lookup, entryUnit.lookup_of_ne (by decide), Option.or_none]
  have lookupUnit : record.lookup "fpu" = unit.lookup "fpu" := by
    rw [lookup, entryGeneral.lookup_of_ne (by decide), Option.none_or]
  have memberGeneral : Value.member record "general" general? default.trace = some given.completed.trace := by
    refine entryGeneral.member_eq lookupGeneral ?_ fun value gives => general?_inGeneral gives
    intro absent
    rw [Given.completed, absent]
    rfl
  have memberUnit : Value.member record "fpu" (fpu? given.completed.trace)
      { default with trace := given.completed.trace } = some given.completed := by
    refine entryUnit.member_eq lookupUnit ?_ fun value gives => fpu?_inUnit gives _
    rintro ⟨noModel, noFpscr, noHost⟩
    rw [Given.completed, noModel, noFpscr, noHost]
    rfl
  simp only [ofValue?, read, Option.bind_eq_bind, Option.bind_some, memberGeneral, memberUnit]

end Sections

/-- A known name stands for several members of one object. -/
inductive RepeatsKnown (root : Value) : Prop where
  | root (repeats : root.Repeats sectionNames)
  | general {value : Value} (has : root.HasMember sectionNames "general" value)
      (repeats : value.Repeats generalNames)
  | unit {value : Value} (has : root.HasMember sectionNames "fpu" value) (repeats : value.Repeats unitNames)

theorem ofValue?_repeatsKnown {root : Value} (repeated : RepeatsKnown root) : ofValue? root = none := by
  rw [ofValue?, Option.bind_eq_bind, ← sectionNames, Option.bind_eq_none_iff]
  intro record read
  cases repeated with
  | root repeats =>
    rw [Value.record?_repeats repeats] at read
    cases read
  | @general value has repeats =>
    have found := Value.lookup_record? (by decide) (by decide) read has
    have refused : general? value = none := by
      rw [general?, Option.bind_eq_bind, ← generalNames, Value.record?_repeats repeats, Option.bind_none]
    simp [Value.member, found, refused]
  | @unit value has repeats =>
    have found := Value.lookup_record? (by decide) (by decide) read has
    have refused (trace : Bool) : fpu? trace value = none := by
      rw [fpu?, Option.bind_eq_bind, ← unitNames, Value.record?_repeats repeats, Option.bind_none]
    simp [Value.member, found, refused]

theorem ofJson_of_denotes {text : String} {root : Value} {configuration : Configuration} (denotes : Denotes text root)
    (read : ofValue? root = some configuration) : ofJson text = configuration.validate := by
  rw [ofJson, Value.parse?_eq_some_iff.mpr denotes, Option.bind_some, read]

theorem ofJson_of_refused {text : String} (refused : ∀ root, Denotes text root → ofValue? root = none) :
    ofJson text = .error .malformed := by
  have unread : (Value.parse? text).bind ofValue? = none :=
    Option.bind_eq_none_iff.mpr fun root parsed => refused root (Value.parse?_eq_some_iff.mp parsed)
  rw [ofJson, unread]

theorem validate_of_ofJson {text : String} {configuration : Configuration} (read : ofJson text = .ok configuration) :
    configuration.validate = .ok configuration := by
  unfold ofJson at read
  split at read
  next found =>
    obtain rfl := Machine.eq_of_validate read
    exact read
  next => cases read

theorem create_of_validate {configuration : Configuration} (valid : configuration.validate = .ok configuration)
    (thread : RoundingMode) : ∃ core after, Core.create configuration thread = .ok (core, after) ∧
      Fpscr.Agree (~~~Fpscr.summary) core.fpscr.bits configuration.initialFpscr := by
  refine ⟨_, _, by rw [Core.create, valid], Fpscr.agree_summarize configuration.initialFpscr⟩

/-- A text that gives some settings is read as these with the defaults for the others, unless
the initial FPSCR has a bit that it must not have; the reserved bit is named first. A text
whose known names repeat is refused, and so is one that is not JSON. What is read starts a
core, on any thread, with the initial FPSCR but for VX and FEX, which follow from the causes. -/
theorem configurations_decode :
    (∀ (text : String) (root : Value) (given : Given), Denotes text root → given.InRoot root →
      ofJson text =
        let initial := given.completed.initialFpscr
        if initial &&& 0x800 ≠ 0 then .error (.reservedBit initial)
        else if initial &&& 0x40000000 ≠ 0 then .error (.presetSummary initial)
        else .ok given.completed) ∧
    (∀ text : String, (∀ root, Denotes text root → RepeatsKnown root) → ofJson text = .error .malformed) ∧
    ∀ (text : String) (configuration : Configuration) (thread : RoundingMode), ofJson text = .ok configuration →
      ∃ core after, Core.create configuration thread = .ok (core, after) ∧
        Fpscr.Agree (~~~(Fpscr.fex ||| Fpscr.vx)) core.fpscr.bits configuration.initialFpscr ∧
        Fpscr.Summarized core.fpscr.bits := by
  refine ⟨?_, ?_, ?_⟩
  · intro text root given denotes gives
    exact ofJson_of_denotes denotes (ofValue?_inRoot gives)
  · intro text repeats
    exact ofJson_of_refused fun root denotes => ofValue?_repeatsKnown (repeats root denotes)
  · intro text configuration thread read
    obtain ⟨core, after, created, agree⟩ := create_of_validate (validate_of_ofJson read) thread
    exact ⟨core, after, created, agree, Machine.create_consistent created⟩

/-- The unit stands before the general section and its settings are in another order, all of
them among unknown members. -/
def reorderedText : String :=
  "\x7b \"note\" :[1.5e+3 ,\x7b\"fpu\":null\x7d],\"fpu\" : \x7b\"initial_fpscr\":128,\"x\":\"\\ud800\"," ++
    "\"model\":\"601\" \x7d , \"general\":\x7b\x7d\x7d\n"

def reorderedUnit : Value :=
  .object [(some "initial_fpscr", .number ['1', '2', '8']), (some "x", .string none), (some "model", .string "601")]

def reordered : Value :=
  .object [(some "note", .array [.number ['1', '.', '5', 'e', '+', '3'], .object [(some "fpu", .null)]]),
    (some "fpu", reorderedUnit), (some "general", .object [])]

theorem reordered_inRoot : Given.InRoot ⟨none, some .mpc601, some 128, none⟩ reordered := by
  have inGeneral : Given.InGeneral ⟨none, some .mpc601, some 128, none⟩ (.object []) :=
    ⟨[], .omitted rfl, [], [], rfl, .nil, by simp⟩
  have inUnit : Given.InUnit ⟨none, some .mpc601, some 128, none⟩ reorderedUnit := by
    refine ⟨_, _, _, .stated _ ⟨_, rfl, .inr rfl⟩, .stated _ ⟨_, rfl, rfl⟩, .omitted rfl, ?_⟩
    let settings : List (String × Value) := [("initial_fpscr", .number ['1', '2', '8']), ("x", .string none)]
    exact ⟨settings ++ [("model", .string "601")], [("x", .string none)], rfl, List.perm_append_comm, by decide⟩
  let note : String × Value := ("note", .array [.number ['1', '.', '5', 'e', '+', '3'], .object [(some "fpu", .null)]])
  let sections : List (String × Value) := [("general", .object []), ("fpu", reorderedUnit)]
  exact ⟨_, _, .stated _ inGeneral, .stated _ inUnit,
    (sections ++ [note]).reverse, [note], rfl, List.reverse_perm _, by decide⟩

set_option maxRecDepth 2048 in
theorem reordered_denoted : Denotes reorderedText reordered := by
  rw [← Value.parse?_eq_some_iff]
  with_unfolding_all rfl

/-- The model is named twice, the first time by what is no name. -/
def repeatedText : String :=
  "\x7b\"fpu\":\x7b\"model\":0,\"model\":\"601\"\x7d\x7d"

def repeatedUnit : Value :=
  .object [(some "model", .number ['0']), (some "model", .string "601")]

set_option maxRecDepth 2048 in
theorem repeatedText_repeats {root : Value} (denotes : Denotes repeatedText root) : RepeatsKnown root := by
  have parsed : Value.parse? repeatedText = some (.object [(some "fpu", repeatedUnit)]) := by
    with_unfolding_all rfl
  rw [← Value.parse?_eq_some_iff, parsed] at denotes
  cases denotes
  exact .unit List.mem_cons_self ⟨"model", by decide, by decide⟩

/-- A text in another order, and one in which a model is named twice. -/
theorem configurations_decode_of_reordered :
    let read : Configuration := ⟨false, .mpc601, 128, .native⟩
    ofJson reorderedText = .ok read ∧ ofJson repeatedText = .error .malformed ∧
      ∃ core after, Core.create read .towardZero = .ok (core, after) ∧
        Fpscr.Agree (~~~(Fpscr.fex ||| Fpscr.vx)) core.fpscr.bits 128 := by
  intro read
  obtain ⟨reads, refuses, starts⟩ := configurations_decode
  have isRead : ofJson reorderedText = .ok read := reads _ _ _ reordered_denoted reordered_inRoot
  have isRefused : ofJson repeatedText = .error .malformed := refuses _ fun _ denotes => repeatedText_repeats denotes
  obtain ⟨core, after, created, agree, -⟩ := starts _ read .towardZero isRead
  exact ⟨isRead, isRefused, core, after, created, agree⟩

end Configuration

end PowerFpu
