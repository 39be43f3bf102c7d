import Mathlib.Data.List.Count
import Mathlib.Data.List.Forall2
import Mathlib.Data.Nat.Digits.Defs
import WireCodec.Proofs.Planning
import WireCodec.Schema.Decode

/-!
# Records in JSON

How values of the types that occur in a schema are written in JSON, as relations, and what a record
holds under each of its keys (`Slot`). The decoders accept exactly the values so written
(`Decodes`), and no record with a fault is one (`FaultyRecord`).
-/

namespace WireCodec

namespace JsonValue

variable {α β γ : Type}

/-! ## Values -/

def IsText (text : String) (v : JsonValue) : Prop := v = .string (some text)

def IsBool (b : Bool) (v : JsonValue) : Prop := v = .bool b

/-- A number in decimal digits only. -/
def IsWhole (n : Nat) (v : JsonValue) : Prop :=
  ∃ literal, v = .number literal ∧ (∀ c ∈ literal.toList, c.isDigit) ∧
    n = Nat.ofDigits 10 (literal.toList.reverse.map fun c => c.toNat - '0'.toNat)

def IsUInt16 (n : UInt16) (v : JsonValue) : Prop := IsWhole n.toNat v

def IsUInt32 (n : UInt32) (v : JsonValue) : Prop := IsWhole n.toNat v

/-- A value, or a null in place of an absent one. -/
inductive IsOption (P : α → JsonValue → Prop) : Option α → JsonValue → Prop
  | null : IsOption P none .null
  | some {a : α} {v : JsonValue} (h : P a v) : IsOption P (some a) v

/-- An array of values, in their order. -/
def IsList (P : α → JsonValue → Prop) (xs : List α) (v : JsonValue) : Prop :=
  ∃ items, v = .array items ∧ List.Forall₂ P xs items

/-- No array, or an array with a faulty item. -/
def FaultyList (Faulty : JsonValue → Prop) (v : JsonValue) : Prop :=
  ∀ items, v = .array items → ∃ item ∈ items, Faulty item

/-! ## Records -/

/-- Members of which each key has a text. -/
abbrev texted (members : List (String × JsonValue)) : List (Option String × JsonValue) :=
  members.map fun (k, v) => (some k, v)

/-- What a record holds under a key. As an object it holds the key at most once, among any others;
as an array it holds the key's value at the place of its name. -/
inductive Slot (names : List String) : JsonValue → String → Option JsonValue → Prop
  | member {members : List (String × JsonValue)} {key : String} {v : JsonValue}
    (mem : (key, v) ∈ members) (once : (members.map Prod.fst).count key = 1) :
    Slot names (.object (texted members)) key (some v)
  | noMember {members : List (String × JsonValue)} {key : String}
    (absent : key ∉ members.map Prod.fst) :
    Slot names (.object (texted members)) key none
  | item {items : List JsonValue} {key : String} (short : items.length ≤ names.length) :
    Slot names (.array items) key items[names.idxOf key]?

/-- A key of a record, and what is not to stand under it. -/
structure Key where
  name : String
  required : Bool
  Unfit : JsonValue → Prop

/-- The slot of a key is of some kind. -/
def Held (keys : List Key) (v : JsonValue) (key : String) (P : Option JsonValue → Prop) : Prop :=
  ∃ slot, Slot (keys.map Key.name) v key slot ∧ P slot

theorem Held.imp {keys : List Key} {v : JsonValue} {key : String}
    {P Q : Option JsonValue → Prop} (h : Held keys v key P) (imp : ∀ slot, P slot → Q slot) :
    Held keys v key Q := by
  obtain ⟨slot, held, h⟩ := h
  exact ⟨slot, held, imp slot h⟩

/-- A slot for a value that must be written. -/
def Required (P : α → JsonValue → Prop) (a : α) (slot : Option JsonValue) : Prop :=
  ∃ v, slot = some v ∧ P a v

/-- A slot for a value that can be left out where it is the default. -/
def OrDefault (P : α → JsonValue → Prop) (default a : α) (slot : Option JsonValue) : Prop :=
  (∃ v, slot = some v ∧ P a v) ∨ slot = none ∧ a = default

/-! ### Faults -/

/-- A key under which one of some values is to stand. -/
def Key.of (name : String) (required : Bool) (P : α → JsonValue → Prop) : Key where
  name
  required
  Unfit v := ∀ a, ¬ P a v

/-- A key for a list, which can be left out. -/
def Key.list (name : String) (Faulty : JsonValue → Prop) : Key where
  name
  required := false
  Unfit := FaultyList Faulty

/-- The record has the value under the key, possibly beside others. -/
def Has (names : List String) (key : String) (v : JsonValue) : JsonValue → Prop
  | .object members => (some key, v) ∈ members
  | .array items => items[names.idxOf key]? = some v
  | _ => False

/-- What can be wrong with a record. -/
inductive FaultyRecord (keys : List Key) (record : JsonValue) : Prop
  /-- A key without which there is no record is missing. -/
  | lacks {k : Key} (mem : k ∈ keys) (required : k.required)
    (h : ∀ v, ¬ Has (keys.map Key.name) k.name v record)
  /-- A key stands twice in an object. -/
  | repeated {k : Key} {members : List (Option String × JsonValue)} (mem : k ∈ keys)
    (object : record = .object members) (h : 1 < (members.map Prod.fst).count (some k.name))
  /-- What stands under a key is not to stand there. -/
  | unfit {k : Key} {v : JsonValue} (mem : k ∈ keys)
    (h : Has (keys.map Key.name) k.name v record) (unfit : k.Unfit v)

/-- The slot is as the key wants it. -/
def Key.Accepts (k : Key) (slot : Option JsonValue) : Prop :=
  (k.required → slot ≠ none) ∧ ∀ v, slot = some v → ¬ k.Unfit v

section Accepted

variable {P : α → JsonValue → Prop} {a : α} {slot : Option JsonValue}

theorem Required.accepts (h : Required P a slot) (name : String) :
    (Key.of name true P).Accepts slot := by
  obtain ⟨v, rfl, written⟩ := h
  refine ⟨fun _ => nofun, ?_⟩
  rintro w ⟨⟩ unfit
  exact unfit a written

theorem OrDefault.accepts {default : α} (h : OrDefault P default a slot) (name : String) :
    (Key.of name false P).Accepts slot := by
  refine ⟨nofun, ?_⟩
  rintro w rfl unfit
  obtain ⟨v, same, written⟩ | ⟨none, -⟩ := h
  · cases same
    exact unfit a written
  · cases none

theorem OrDefault.accepts_list {default xs : List α} (h : OrDefault (IsList P) default xs slot)
    (name : String) {Faulty : JsonValue → Prop} (sound : ∀ a v, P a v → ¬ Faulty v) :
    (Key.list name Faulty).Accepts slot := by
  refine ⟨nofun, ?_⟩
  rintro w rfl unfit
  obtain ⟨v, same, items, rfl, written⟩ | ⟨none, -⟩ := h
  · cases same
    obtain ⟨item, mem, faulty⟩ := unfit items rfl
    obtain ⟨x, -, wellWritten⟩ := exists_of_mem_right written mem
    exact sound x item wellWritten faulty
  · cases none

end Accepted

/-! ### Members -/

section Members

variable {members : List (String × JsonValue)} {key : String}

theorem length_filter_key :
    (members.filter (·.1 = key)).length = (members.map Prod.fst).count key := by
  rw [List.count, List.countP_map, List.countP_eq_length_filter]
  rfl

theorem member?_eq_some_some {v : JsonValue} : member? members key = some (some v) ↔
    (key, v) ∈ members ∧ (members.map Prod.fst).count key = 1 := by
  have among : (key, v) ∈ members ↔ (key, v) ∈ members.filter (·.1 = key) := by simp
  have keyed : ∀ m ∈ members.filter (·.1 = key), m.1 = key := fun m mem => by
    simpa using (List.mem_filter.1 mem).2
  rw [among, ← length_filter_key, member?]
  generalize members.filter (·.1 = key) = found at keyed ⊢
  match found, keyed with
  | [], _ => simp
  | [(k, w)], keyed =>
    obtain rfl : k = key := keyed _ List.mem_cons_self
    simp [eq_comm]
  | _ :: _ :: _, _ => simp

theorem member?_eq_some_none : member? members key = some none ↔ key ∉ members.map Prod.fst := by
  rw [← List.count_eq_zero, ← length_filter_key, member?]
  generalize members.filter (·.1 = key) = found
  match found with
  | [] => simp
  | [_] => simp
  | _ :: _ :: _ => simp

theorem texted_injective : Function.Injective texted :=
  List.map_injective_iff.2 fun m m' same => by simpa [Prod.ext_iff] using same

end Members

theorem Slot.eq_of_has {names : List String} {record : JsonValue} {key : String}
    {slot : Option JsonValue} (h : Slot names record key slot) {v : JsonValue}
    (has : Has names key v record) : slot = some v := by
  cases h with
  | @member members _ w mem once =>
    have mem' : (key, v) ∈ members := by
      obtain ⟨m, mem', same⟩ := List.mem_map.1 has
      cases same
      exact mem'
    exact Option.some.inj
      ((member?_eq_some_some.2 ⟨mem, once⟩).symm.trans (member?_eq_some_some.2 ⟨mem', once⟩))
  | @noMember members _ absent =>
    obtain ⟨m, mem', same⟩ := List.mem_map.1 has
    cases same
    exact absurd (List.mem_map_of_mem mem') absent
  | item => exact has

theorem Slot.has {names : List String} {record : JsonValue} {key : String}
    {slot : Option JsonValue} (h : Slot names record key slot) {v : JsonValue}
    (some : slot = some v) : Has names key v record := by
  cases h with
  | @member members _ w mem once =>
    cases some
    exact List.mem_map_of_mem mem
  | noMember absent => cases some
  | item => exact some

theorem Slot.count_le_one {names : List String} {members : List (Option String × JsonValue)}
    {key : String} {slot : Option JsonValue} (h : Slot names (.object members) key slot) :
    (members.map Prod.fst).count (some key) ≤ 1 := by
  have counted (ms : List (String × JsonValue)) :
      ((texted ms).map Prod.fst).count (some key) = (ms.map Prod.fst).count key := by
    rw [← List.count_map_of_injective _ some (Option.some_injective String), List.map_map,
      List.map_map]
    rfl
  cases h with
  | member mem once => exact (counted _).trans_le once.le
  | noMember absent =>
    rw [(counted _).trans (List.count_eq_zero.2 absent)]
    exact zero_le_one

/-- Where every slot is as its key wants it there is no fault. -/
theorem not_faultyRecord {keys : List Key} {record : JsonValue}
    (h : ∀ k ∈ keys, Held keys record k.name k.Accepts) :
    ¬ FaultyRecord keys record := by
  rintro (⟨mem, required, lacks⟩ | ⟨mem, rfl, repeated⟩ | ⟨mem, has, unfit⟩)
  · obtain ⟨slot, holds, accepts⟩ := h _ mem
    obtain ⟨v, some⟩ := Option.ne_none_iff_exists'.1 (accepts.1 required)
    exact lacks v (holds.has some)
  · obtain ⟨slot, holds, -⟩ := h _ mem
    exact absurd holds.count_le_one (Nat.not_le.2 repeated)
  · obtain ⟨slot, holds, accepts⟩ := h _ mem
    exact accepts.2 _ (holds.eq_of_has has) unfit

/-! ## Decoders -/

theorem mapM_eq_some_iff {f : α → Option β} {xs : List α} {ys : List β} :
    xs.mapM f = some ys ↔ List.Forall₂ (fun x y => f x = some y) xs ys := by
  induction xs generalizing ys with
  | nil => cases ys <;> simp
  | cons x xs ih =>
    rw [List.mapM_cons]
    constructor
    · intro h
      obtain ⟨y, hy, h⟩ := Option.bind_eq_some_iff.1 h
      obtain ⟨zs, hzs, h⟩ := Option.bind_eq_some_iff.1 h
      cases h
      exact .cons hy (ih.1 hzs)
    · rintro (_ | ⟨hy, hys⟩)
      simp [hy, ih.2 hys]

/-- The decoder accepts what is so written, and nothing else. -/
def Decodes (decode : γ → Option α) (P : α → γ → Prop) : Prop :=
  ∀ v a, decode v = some a ↔ P a v

theorem decodes_text? : Decodes text? IsText := by
  intro v text
  cases v <;> simp [text?, IsText]

theorem decodes_bool? : Decodes bool? IsBool := by
  intro v b
  cases v <;> simp [bool?, IsBool]

theorem decimal_eq (digits : List Char) : decimal digits =
    Nat.ofDigits 10 (digits.reverse.map fun c => c.toNat - '0'.toNat) := by
  rw [Nat.ofDigits_eq_foldr, List.foldr_map, List.foldr_reverse, decimal]
  simp [add_comm]

theorem decodes_natBelow? (bound : Nat) :
    Decodes (natBelow? bound) fun n v => n < bound ∧ IsWhole n v := by
  intro v n
  cases v with
  | number literal =>
    simp only [natBelow?, IsWhole, ← decimal_eq, number.injEq, exists_eq_left', List.all_eq_true]
    rw [Option.ite_none_right_eq_some, Option.some.injEq]
    constructor
    · rintro ⟨⟨digits, small⟩, rfl⟩
      exact ⟨small, digits, rfl⟩
    · rintro ⟨small, digits, rfl⟩
      exact ⟨⟨digits, small⟩, rfl⟩
  | _ => simp [natBelow?, IsWhole]

section Decoded

variable {decode : JsonValue → Option α} {P : α → JsonValue → Prop} (h : Decodes decode P)

include h

theorem decodes_nullable? (filled : ∀ a, ¬ P a .null) :
    Decodes (nullable? decode) (IsOption P) := by
  intro v o
  constructor
  · intro read
    cases v with
    | null =>
      cases read
      exact .null
    | _ =>
      obtain ⟨a, decoded, rfl⟩ := Option.map_eq_some_iff.1 read
      exact .some ((h _ a).1 decoded)
  · rintro (_ | written)
    · rfl
    · cases v with
      | null => exact absurd written (filled _)
      | _ => exact Option.map_eq_some_iff.2 ⟨_, (h _ _).2 written, rfl⟩

theorem decodes_list? : Decodes (list? decode) (IsList P) := by
  intro v xs
  cases v with
  | array items =>
    simp only [list?, mapM_eq_some_iff, IsList, array.injEq, exists_eq_left', h _ _]
    exact ⟨.flip, .flip⟩
  | _ => simp [list?, IsList]

theorem decodes_required : Decodes (fun slot => slot >>= decode) (Required P) := by
  intro slot a
  cases slot with
  | none => simp [Required]
  | some v => simp [Required, h v a]

theorem decodes_orDefault (default : α) :
    Decodes (orDefault decode default) (OrDefault P default) := by
  intro slot a
  cases slot with
  | none => simp [orDefault, OrDefault, eq_comm]
  | some v => simp [orDefault, OrDefault, h v a]

end Decoded

/-! ### Records -/

theorem mapM_eq_texted {members : List (Option String × JsonValue)}
    {ms : List (String × JsonValue)} :
    (members.mapM fun (key, v) => (·, v) <$> key) = some ms ↔ members = texted ms := by
  have each (m : Option String × JsonValue) (m' : String × JsonValue) :
      (fun (key, v) => (·, v) <$> key) m = some m' ↔ m = (some m'.1, m'.2) := by
    obtain ⟨_ | key, v⟩ := m <;> simp [Prod.ext_iff]
  rw [mapM_eq_some_iff, ← List.forall₂_eq_eq_eq, List.forall₂_map_right_iff]
  simp only [each]

theorem slot_object_iff {names : List String} {ms : List (String × JsonValue)} {key : String}
    {slot : Option JsonValue} :
    Slot names (.object (texted ms)) key slot ↔ member? ms key = some slot := by
  constructor
  · intro h
    generalize same : object (texted ms) = record at h
    cases h with
    | member mem once =>
      cases texted_injective (object.inj same)
      exact member?_eq_some_some.2 ⟨mem, once⟩
    | noMember absent =>
      cases texted_injective (object.inj same)
      exact member?_eq_some_none.2 absent
    | item => cases same
  · intro h
    cases slot with
    | none => exact .noMember (member?_eq_some_none.1 h)
    | some v =>
      obtain ⟨mem, once⟩ := member?_eq_some_some.1 h
      exact .member mem once

theorem slot_array_iff {names : List String} {items : List JsonValue} {key : String}
    {slot : Option JsonValue} : Slot names (.array items) key slot ↔
      items.length ≤ names.length ∧ slot = items[names.idxOf key]? := by
  constructor
  · rintro ⟨⟩
    exact ⟨‹_›, rfl⟩
  · rintro ⟨short, rfl⟩
    exact .item short

/-- An array's items are the values of the first names. -/
theorem forall₂_slot_array {names : List String} (nodup : names.Nodup) {items : List JsonValue}
    (short : items.length ≤ names.length) {slots : List (Option JsonValue)} :
    List.Forall₂ (Slot names (.array items)) names slots ↔
      slots = items.map some ++ .replicate (names.length - items.length) none := by
  have all : names.map (fun key => items[names.idxOf key]?) =
      items.map some ++ .replicate (names.length - items.length) none := by
    refine List.ext_getElem (by simp; omega) fun i h h' => ?_
    rw [List.getElem_map, nodup.idxOf_getElem, List.getElem_append]
    split_ifs with before
    · simp
    · simpa using before
  have slot : Slot names (.array items) = fun key slot => items[names.idxOf key]? = slot := by
    funext key slot
    simp only [slot_array_iff, short, true_and, eq_comm]
  rw [← all, slot, ← List.forall₂_map_left_iff (f := fun key => items[names.idxOf key]?),
    List.forall₂_eq_eq_eq, eq_comm]

/-- The slots of a record are those of its names. -/
theorem record?_eq_some_iff {names : List String} (filled : names ≠ []) (nodup : names.Nodup)
    {v : JsonValue} {slots : List (Option JsonValue)} :
    record? names v = some slots ↔ List.Forall₂ (Slot names v) names slots := by
  have first : ∃ key rest, names = key :: rest := List.exists_cons_of_ne_nil filled
  constructor
  · intro read
    cases v with
    | object members =>
      obtain ⟨ms, keyed, found⟩ := Option.bind_eq_some_iff.1 read
      cases mapM_eq_texted.1 keyed
      exact (mapM_eq_some_iff.1 found).imp fun _ _ => slot_object_iff.2
    | array items =>
      obtain ⟨short, same⟩ := Option.ite_none_right_eq_some.1 read
      exact (forall₂_slot_array nodup short).2 (Option.some.inj same).symm
    | _ => cases read
  · intro held
    obtain ⟨key, rest, rfl⟩ := first
    cases v with
    | object members =>
      obtain ⟨ms, rfl⟩ : ∃ ms, members = texted ms := by
        obtain _ | ⟨held, -⟩ := held
        cases held with
        | member => exact ⟨_, rfl⟩
        | noMember => exact ⟨_, rfl⟩
      refine Option.bind_eq_some_iff.2 ⟨ms, mapM_eq_texted.2 rfl, mapM_eq_some_iff.2 ?_⟩
      exact held.imp fun _ _ => slot_object_iff.1
    | array items =>
      have short : items.length ≤ (key :: rest).length := by
        obtain _ | ⟨held, -⟩ := held
        exact (slot_array_iff.1 held).1
      rw [record?, if_pos short, (forall₂_slot_array nodup short).1 held]
    | _ =>
      obtain _ | ⟨held, -⟩ := held
      cases held

theorem bind_record?_eq_some_iff {names : List String} (filled : names ≠ []) (nodup : names.Nodup)
    {v : JsonValue} {build : List (Option JsonValue) → Option α} {a : α} :
    record? names v >>= build = some a ↔
      ∃ slots, List.Forall₂ (Slot names v) names slots ∧ build slots = some a := by
  simp only [Option.bind_eq_bind, Option.bind_eq_some_iff, record?_eq_some_iff filled nodup]

end JsonValue

end WireCodec
