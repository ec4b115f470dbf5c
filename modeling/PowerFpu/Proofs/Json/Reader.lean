import Mathlib.Data.List.Perm.Basic
import PowerFpu.Proofs.Json.Scanner

/-! The reader accepts exactly the values that a text denotes.

A reading determines the tokens that led to it, which each step extends by the token it takes.
In the other direction, the tokens of a value lead from any place where a value may stand to
the place behind it. -/

set_option autoImplicit false

namespace PowerFpu.Json

def trailed (rows : List (List Token)) : List Token :=
  rows.flatMap (· ++ [.comma])

theorem separated_concat (rows : List (List Token)) (row : List Token) :
    separated (rows ++ [row]) = trailed rows ++ row := by
  induction rows with
  | nil => simp [separated, trailed]
  | cons first rows ih =>
    unfold separated trailed at *
    rw [List.cons_append, List.intercalate_cons_of_ne_nil (by simp), ih]
    simp

namespace Value

def memberTokens (member : Option String × Value) : List Token :=
  .string member.1 :: .colon :: member.2.tokens

theorem tokens_array (items : List Value) :
    (Value.array items).tokens = .openArray :: separated (items.map tokens) ++ [.closeArray] := by
  rw [tokens]

theorem tokens_object (members : List (Option String × Value)) :
    (Value.object members).tokens = .openObject :: separated (members.map memberTokens) ++ [.closeObject] := by
  rw [tokens]
  rfl

end Value

/-! What has been read so far. -/

def Frame.tokens : Frame → List Token
  | .array items => .openArray :: trailed (items.reverse.map Value.tokens)
  | .object members => .openObject :: trailed (members.reverse.map Value.memberTokens)
  | .member key members => .openObject :: trailed (members.reverse.map Value.memberTokens) ++ [.string key, .colon]

def Expectation.tokens : Expectation → List Token
  | .value | .valueOrEnd | .key | .keyOrEnd => []
  | .colon name => [.string name]
  | .separator last => last.tokens

namespace Reading

def tokens (reading : Reading) : List Token :=
  reading.frames.reverse.flatMap Frame.tokens ++ reading.expectation.tokens

theorem tokens_openValue {frames : List Frame} {token : Token} {reading : Reading}
    (opened : openValue frames token = some reading) :
    reading.tokens = frames.reverse.flatMap Frame.tokens ++ [token] := by
  cases token <;> simp only [openValue, Option.some.injEq, reduceCtorEq] at opened <;>
    subst opened <;> simp [tokens, Expectation.tokens, Frame.tokens, trailed, Value.tokens]

theorem tokens_afterValue {value : Value} {frames : List Frame} {token : Token} {reading : Reading}
    (continued : afterValue value frames token = some reading) :
    reading.tokens = frames.reverse.flatMap Frame.tokens ++ value.tokens ++ [token] := by
  unfold afterValue at continued
  split at continued
  next items frames =>
    cases continued
    simp [tokens, Expectation.tokens, Frame.tokens, trailed]
  next items frames =>
    cases continued
    simp [tokens, Expectation.tokens, Frame.tokens, Value.tokens_array, separated_concat]
  next key members frames =>
    cases continued
    simp [tokens, Expectation.tokens, Frame.tokens, trailed, Value.memberTokens]
  next key members frames =>
    cases continued
    simp [tokens, Expectation.tokens, Frame.tokens, Value.tokens_object, separated_concat, Value.memberTokens]
  next => cases continued

theorem tokens_step {reading after : Reading} {token : Token} (stepped : reading.step token = some after) :
    after.tokens = reading.tokens ++ [token] := by
  obtain ⟨expectation, frames⟩ := reading
  unfold step at stepped
  dsimp only at stepped
  split at stepped
  case h_1 => simpa [tokens, Expectation.tokens] using tokens_openValue stepped
  case h_3 => simpa [tokens, Expectation.tokens] using tokens_openValue stepped
  case h_8 => simpa [tokens, Expectation.tokens] using tokens_afterValue stepped
  case h_9 => cases stepped
  all_goals
    cases stepped
    simp [tokens, Expectation.tokens, Frame.tokens, trailed, Value.tokens_array, Value.tokens_object, separated]

theorem tokens_foldlM {reading after : Reading} {tokens : List Token}
    (run : tokens.foldlM step reading = some after) : after.tokens = reading.tokens ++ tokens := by
  induction tokens generalizing reading with
  | nil =>
    cases run
    simp
  | cons token tokens ih =>
    rw [List.foldlM_cons, Option.bind_eq_bind, Option.bind_eq_some_iff] at run
    obtain ⟨next, stepped, others⟩ := run
    rw [ih others, tokens_step stepped]
    simp

/-- The tokens lead from one reading to another, whatever comes after them. -/
def Leads (reading : Reading) (tokens : List Token) (after : Reading) : Prop :=
  tokens.foldlM step reading = some after

theorem Leads.single {reading after : Reading} {token : Token} (stepped : reading.step token = some after) :
    Leads reading [token] after := by
  simp [Leads, stepped]

theorem Leads.append {reading middle after : Reading} {tokens others : List Token}
    (first : Leads reading tokens middle) (second : Leads middle others after) :
    Leads reading (tokens ++ others) after := by
  unfold Leads at *
  rw [List.foldlM_append, first]
  exact second

theorem Leads.cons {reading middle after : Reading} {token : Token} {others : List Token}
    (stepped : reading.step token = some middle) (second : Leads middle others after) :
    Leads reading (token :: others) after :=
  (Leads.single stepped).append second

/-- Where an array may also end, an item is read as everywhere else. -/
theorem step_valueOrEnd {frames : List Frame} {token : Token} (notEnd : token ≠ .closeArray) :
    step ⟨.valueOrEnd, frames⟩ token = step ⟨.value, frames⟩ token := by
  unfold step
  split <;> simp_all

theorem step_keyOrEnd (frames : List Frame) (key : Option String) :
    step ⟨.keyOrEnd, frames⟩ (.string key) = some ⟨.colon key, frames⟩ := by
  simp [step]

theorem Leads.valueOrEnd {frames : List Frame} {after : Reading} {token : Token} {others : List Token}
    (notEnd : token ≠ .closeArray) (leads : Leads ⟨.value, frames⟩ (token :: others) after) :
    Leads ⟨.valueOrEnd, frames⟩ (token :: others) after := by
  rw [Leads, List.foldlM_cons, step_valueOrEnd notEnd]
  exact leads

theorem Leads.keyOrEnd {frames : List Frame} {after : Reading} {key : Option String} {others : List Token}
    (leads : Leads ⟨.key, frames⟩ (.string key :: others) after) :
    Leads ⟨.keyOrEnd, frames⟩ (.string key :: others) after := by
  rw [Leads, List.foldlM_cons, step_keyOrEnd]
  exact leads

theorem separated_singleton (row : List Token) : separated [row] = row := by
  simp [separated]

theorem separated_cons_cons (row next : List Token) (rows : List (List Token)) :
    separated (row :: next :: rows) = row ++ .comma :: separated (next :: rows) := by
  simp [separated, List.intercalate_cons_cons]

theorem exists_separated_cons (row : List Token) (rows : List (List Token)) :
    ∃ others, separated (row :: rows) = row ++ others := by
  cases rows with
  | nil => exact ⟨[], by rw [separated_singleton, List.append_nil]⟩
  | cons next rows => exact ⟨_, separated_cons_cons row next rows⟩

theorem leads_items {item : Value} {items : List Value}
    (read : ∀ value ∈ item :: items, ∀ frames, Leads ⟨.value, frames⟩ value.tokens ⟨.separator value, frames⟩)
    (before : List Value) (frames : List Frame) :
    Leads ⟨.value, .array before :: frames⟩ (separated ((item :: items).map Value.tokens) ++ [.closeArray])
      ⟨.separator (.array (before.reverse ++ item :: items)), frames⟩ := by
  obtain ⟨first, others⟩ := List.forall_mem_cons.mp read
  induction items generalizing item before with
  | nil =>
    rw [List.map_cons, List.map_nil, separated_singleton]
    refine (first _).append (.single ?_)
    simp [step, afterValue]
  | cons next items ih =>
    obtain ⟨firstNext, othersNext⟩ := List.forall_mem_cons.mp others
    have tail := ih others (item :: before) firstNext othersNext
    rw [List.map_cons, List.map_cons, separated_cons_cons, List.append_assoc, List.cons_append]
    rw [List.reverse_cons, List.append_assoc] at tail
    exact (first _).append (.cons rfl tail)

theorem leads_members {member : Option String × Value} {members : List (Option String × Value)}
    (read : ∀ each ∈ member :: members, ∀ frames,
      Leads ⟨.value, frames⟩ each.2.tokens ⟨.separator each.2, frames⟩)
    (before : List (Option String × Value)) (frames : List Frame) :
    Leads ⟨.key, .object before :: frames⟩
      (separated ((member :: members).map Value.memberTokens) ++ [.closeObject])
      ⟨.separator (.object (before.reverse ++ member :: members)), frames⟩ := by
  obtain ⟨first, others⟩ := List.forall_mem_cons.mp read
  have toValue : Leads ⟨.key, .object before :: frames⟩ (Value.memberTokens member)
      ⟨.separator member.2, .member member.1 before :: frames⟩ := .cons rfl (.cons rfl (first _))
  induction members generalizing member before with
  | nil =>
    rw [List.map_cons, List.map_nil, separated_singleton]
    refine toValue.append (.single ?_)
    simp [step, afterValue]
  | cons next members ih =>
    obtain ⟨firstNext, othersNext⟩ := List.forall_mem_cons.mp others
    have tail := ih others (member :: before) firstNext othersNext (.cons rfl (.cons rfl (firstNext _)))
    rw [List.map_cons, List.map_cons, separated_cons_cons, List.append_assoc, List.cons_append]
    rw [List.reverse_cons, List.append_assoc] at tail
    exact toValue.append (.cons rfl tail)

end Reading

theorem Value.tokens_starts (value : Value) : ∃ token others, value.tokens = token :: others ∧ token ≠ .closeArray := by
  cases value <;> simp [tokens]

namespace Reading

theorem leads_value (value : Value) (frames : List Frame) :
    Leads ⟨.value, frames⟩ value.tokens ⟨.separator value, frames⟩ := by
  induction value using Value.tokens.induct generalizing frames with
  | case1 | case2 | case3 | case4 => rw [Value.tokens]; exact .single rfl
  | case5 items ih =>
    rw [Value.tokens_array]
    cases items with
    | nil => exact .cons rfl (.single rfl)
    | cons item items =>
      -- The first item stands where the array might also have ended.
      have leads := leads_items ih [] frames
      obtain ⟨token, rest, starts, notEnd⟩ := item.tokens_starts
      obtain ⟨others, row⟩ := exists_separated_cons item.tokens (items.map Value.tokens)
      rw [List.map_cons, row, starts] at leads ⊢
      exact .cons rfl (.valueOrEnd notEnd leads)
  | case6 members ih =>
    rw [Value.tokens_object]
    cases members with
    | nil => exact .cons rfl (.single rfl)
    | cons member members =>
      have leads := leads_members ih [] frames
      obtain ⟨others, row⟩ := exists_separated_cons (Value.memberTokens member) (members.map Value.memberTokens)
      rw [List.map_cons, row, Value.memberTokens] at leads ⊢
      exact .cons rfl (.keyOrEnd leads)

/-! A number is complete where it stands, and a complete value asks for a token that ends it. -/

theorem mem_follows_of_afterValue {value : Value} {frames : List Frame} {token : Token} {after : Reading}
    (continued : afterValue value frames token = some after) : token ∈ follows := by
  unfold afterValue at continued
  split at continued <;> cases continued <;> simp [follows]

theorem step_number {reading after : Reading} {literal : List Char}
    (stepped : reading.step (.number literal) = some after) : ∃ value, after.expectation = .separator value := by
  obtain ⟨expectation, frames⟩ := reading
  cases expectation with
  | value => cases stepped; exact ⟨_, rfl⟩
  | valueOrEnd =>
    rw [step_valueOrEnd (by simp)] at stepped
    cases stepped
    exact ⟨_, rfl⟩
  | separator value =>
    have ends := mem_follows_of_afterValue stepped
    simp [follows] at ends
  | key | keyOrEnd | colon => simp [step] at stepped

theorem delimited_of_foldlM {reading after : Reading} {tokens : List Token}
    (run : tokens.foldlM step reading = some after) : Delimited tokens := by
  induction tokens generalizing reading with
  | nil => trivial
  | cons token tokens ih =>
    rw [List.foldlM_cons, Option.bind_eq_bind, Option.bind_eq_some_iff] at run
    obtain ⟨middle, stepped, others⟩ := run
    refine ⟨?_, ih others⟩
    rintro literal rfl next isNext
    -- The number is a complete value, so the next step takes a token that may follow one.
    obtain ⟨value, isComplete⟩ := step_number stepped
    obtain ⟨rest, rfl⟩ := List.head?_eq_some_iff.mp isNext
    rw [List.foldlM_cons, Option.bind_eq_bind, Option.bind_eq_some_iff] at others
    obtain ⟨last, continued, -⟩ := others
    obtain ⟨expectation, frames⟩ := middle
    cases isComplete
    exact mem_follows_of_afterValue continued

end Reading

namespace Value

theorem ofTokens?_eq_some_iff {tokens : List Token} {value : Value} :
    ofTokens? tokens = some value ↔ tokens = value.tokens := by
  unfold ofTokens?
  rw [Option.bind_eq_some_iff]
  constructor
  · rintro ⟨reading, run, finished⟩
    have read := Reading.tokens_foldlM run
    obtain ⟨expectation, frames⟩ := reading
    unfold Reading.finish? at finished
    split at finished
    next same =>
      cases same
      cases finished
      simpa [Reading.tokens, Reading.start, Expectation.tokens] using read.symm
    next => cases finished
  · rintro rfl
    exact ⟨_, Reading.leads_value value [], rfl⟩

theorem delimited_tokens (value : Value) : Delimited value.tokens :=
  Reading.delimited_of_foldlM (Reading.leads_value value [])

/-- A text is read as a value exactly if it denotes the value. -/
theorem parse?_eq_some_iff {text : String} {value : Value} : parse? text = some value ↔ Denotes text value := by
  rw [parse?, Option.bind_eq_some_iff, Denotes, ← tokens?_eq_some_iff value.delimited_tokens]
  constructor
  · rintro ⟨tokens, scanned, read⟩
    rwa [ofTokens?_eq_some_iff.mp read] at scanned
  · intro scanned
    exact ⟨_, scanned, ofTokens?_eq_some_iff.mpr rfl⟩

end Value

/-! The members of a record: their order, members of other names, and names that stand twice. -/

namespace Value

theorem hasDuplicates_eq_false_iff {names : List String} : hasDuplicates names = false ↔ names.Nodup := by
  induction names with
  | nil => simp [hasDuplicates]
  | cons name names ih => simp [hasDuplicates, ih]

/-- Where each name stands once, a name finds the member that it belongs to. -/
theorem lookup_eq_some_iff {record : List (String × Value)} (once : (record.map (·.1)).Nodup) {name : String}
    {value : Value} : record.lookup name = some value ↔ (name, value) ∈ record := by
  induction record with
  | nil => simp
  | cons member record ih =>
    obtain ⟨first, held⟩ := member
    obtain ⟨fresh, others⟩ := List.nodup_cons.mp once
    by_cases same : name = first
    · subst same
      have absent : (name, value) ∉ record := fun mem => fresh (List.mem_map.mpr ⟨_, mem, rfl⟩)
      simp [absent, eq_comm]
    · have differs : (name == first) = false := beq_eq_false_iff_ne.mpr same
      simp [List.lookup_cons, differs, same, ih others]

theorem mapM_named_eq_some_iff {members : List (Option String × Value)} {named : List (String × Value)} :
    (members.mapM fun (key, value) => key.map fun name => (name, value)) = some named ↔
      members = named.map fun member => (some member.1, member.2) := by
  induction members generalizing named with
  | nil => cases named <;> simp
  | cons member members ih =>
    obtain ⟨key, value⟩ := member
    rw [List.mapM_cons, Option.bind_eq_bind, Option.bind_eq_some_iff]
    constructor
    · rintro ⟨first, isFirst, others⟩
      obtain ⟨name, rfl, rfl⟩ := Option.map_eq_some_iff.mp isFirst
      obtain ⟨rest, isRest, ⟨⟩⟩ := Option.bind_eq_some_iff.mp others
      rw [List.map_cons, ← ih.mp isRest]
    · intro same
      cases named with
      | nil => cases same
      | cons first named =>
        obtain ⟨⟨rfl, rfl⟩, rest⟩ := List.cons.inj same
        exact ⟨first, rfl, Option.bind_eq_some_iff.mpr ⟨named, ih.mpr rest, rfl⟩⟩

variable {names : List String}

theorem record?_object_eq_some_iff {members : List (Option String × Value)} {record : List (String × Value)} :
    record? names (.object members) = some record ↔
      ∃ named : List (String × Value), members = named.map (fun member => (some member.1, member.2)) ∧
        record = named.filter (fun member => names.contains member.1) ∧ (record.map (·.1)).Nodup := by
  simp only [record?, Option.bind_eq_bind, Option.bind_eq_some_iff, mapM_named_eq_some_iff]
  refine exists_congr fun named => and_congr_right fun _ => ?_
  rw [← hasDuplicates_eq_false_iff]
  split
  next repeated =>
    refine iff_of_false nofun ?_
    rintro ⟨rfl, once⟩
    rw [once] at repeated
    cases repeated
  next once =>
    rw [Option.some.injEq]
    constructor
    · rintro rfl
      exact ⟨rfl, Bool.eq_false_iff.mpr once⟩
    · rintro ⟨rfl, -⟩
      rfl

/-- An object with the given members, in any order and among others of unknown names. -/
def HasMembers (names : List String) (given : List (String × Value)) (value : Value) : Prop :=
  ∃ members others : List (String × Value), value = .object (members.map fun member => (some member.1, member.2)) ∧
    members.Perm (given ++ others) ∧ ∀ member ∈ others, member.1 ∉ names

theorem record?_hasMembers {given : List (String × Value)} {value : Value} (once : names.Nodup)
    (listed : (given.map (·.1)).Sublist names) (has : value.HasMembers names given) :
    ∃ record, value.record? names = some record ∧ ∀ name, record.lookup name = given.lookup name := by
  obtain ⟨members, others, rfl, order, unknown⟩ := has
  have known (member : String × Value) (mem : member ∈ given) : member.1 ∈ names :=
    listed.subset (List.mem_map_of_mem mem)
  have givenOnce := once.sublist listed
  have kept : (members.filter fun member => names.contains member.1).Perm given := by
    have filtered := order.filter fun member => names.contains member.1
    have allKnown : given.filter (fun member => names.contains member.1) = given := by
      simpa [List.filter_eq_self] using known
    have noneKnown : others.filter (fun member => names.contains member.1) = [] := by
      simpa [List.filter_eq_nil_iff] using unknown
    rwa [List.filter_append, allKnown, noneKnown, List.append_nil] at filtered
  have keptOnce := (kept.map (·.1)).nodup_iff.mpr givenOnce
  refine ⟨_, record?_object_eq_some_iff.mpr ⟨members, rfl, rfl, keptOnce⟩, fun name => ?_⟩
  ext value
  rw [lookup_eq_some_iff keptOnce, lookup_eq_some_iff givenOnce, kept.mem_iff]

def Repeats (names : List String) : Value → Prop
  | .object members => ∃ name ∈ names, 1 < members.countP fun member => member.1 = some name
  | _ => False

theorem record?_repeats {value : Value} (repeats : value.Repeats names) : value.record? names = none := by
  cases value with
  | null | bool | number | string | array => cases repeats
  | object members =>
    rw [Option.eq_none_iff_forall_not_mem]
    intro record read
    obtain ⟨named, rfl, rfl, once⟩ := record?_object_eq_some_iff.mp read
    obtain ⟨name, known, several⟩ := repeats
    have single := List.nodup_iff_count.mp once name
    rw [List.count_eq_countP, List.countP_map, List.countP_filter] at single
    rw [List.countP_map] at several
    refine absurd single (Nat.not_le.mpr (Nat.lt_of_lt_of_eq several (List.countP_congr fun member _ => ?_)))
    simp only [Function.comp_apply, decide_eq_true_eq, Option.some.injEq, Bool.and_eq_true, beq_iff_eq,
      List.contains_iff_mem]
    exact (and_iff_left_of_imp fun isName => isName ▸ known).symm

/-- A member of an object, or the item of an array in the place of the name. -/
def HasMember (value : Value) (names : List String) (name : String) (member : Value) : Prop :=
  match value with
  | .object members => (some name, member) ∈ members
  | .array items => (name, member) ∈ names.zip items
  | _ => False

theorem map_fst_zip_sublist (names : List String) (items : List Value) :
    ((names.zip items).map (·.1)).Sublist names := by
  induction names generalizing items with
  | nil => simp
  | cons name names ih => cases items <;> simp [ih]

theorem lookup_record? {value member : Value} {record : List (String × Value)} {name : String} (once : names.Nodup)
    (known : name ∈ names) (read : value.record? names = some record) (has : value.HasMember names name member) :
    record.lookup name = some member := by
  cases value with
  | null | bool | number | string => cases has
  | array items =>
    simp only [record?] at read
    split at read
    next =>
      cases read
      exact (lookup_eq_some_iff (once.sublist (map_fst_zip_sublist names items))).mpr has
    next => cases read
  | object members =>
    obtain ⟨named, rfl, rfl, keptOnce⟩ := record?_object_eq_some_iff.mp read
    obtain ⟨held, mem, same⟩ := List.mem_map.mp has
    cases same
    exact (lookup_eq_some_iff keptOnce).mpr (List.mem_filter.mpr ⟨mem, List.contains_iff_mem.mpr known⟩)

end Value

end PowerFpu.Json
