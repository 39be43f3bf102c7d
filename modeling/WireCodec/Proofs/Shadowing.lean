import WireCodec.Proofs.LayoutNames
import WireCodec.Proofs.ModuleNames

/-!
# Shadowed names

The module of a message spells the names of messages and types of the schema. Type names that it
spells whatever those are called are spelled in another sense (`Source.SpelledElse`); a message or a
type of such a name would shadow what is meant. Planning rules that out for names of the prelude and
of the runtime crate, but not for the primitive types of the module (`Layout.nativeNames`).
-/

namespace WireCodec

/-! ## Renaming -/

section Rename

variable (ρ : String → String)

def TypeRef.rename (t : TypeRef) : TypeRef := { t with name := ρ t.name }

def FieldType.rename : FieldType → FieldType
  | primitive p => primitive p
  | custom t => custom (t.rename ρ)
  | polymorphic t => polymorphic (t.rename ρ)
  | sequence element => sequence element.rename

def Initial.rename : Initial → Initial
  | default p => default p
  | newInstance t => newInstance (t.rename ρ)
  | boxedInstance t => boxedInstance (t.rename ρ)
  | emptySequence => emptySequence

def Encoding.rename : Encoding → Encoding
  | primitive method p => primitive method p
  | object t => object (t.rename ρ)
  | polymorphic t => polymorphic (t.rename ρ)
  | primitiveVector method p => primitiveVector method p
  | objectVector t isOpen => objectVector (t.rename ρ) isOpen

def FieldSlot.rename (f : FieldSlot) : FieldSlot :=
  { f with
    type := f.type.rename ρ, initial := f.initial.rename ρ, encoding := f.encoding.rename ρ }

/-- The layout after messages and types of the schema are renamed; fields keep their names. -/
def Layout.rename (l : Layout) : Layout where
  parent := l.parent.map (·.rename ρ)
  flags := l.flags
  fields := l.fields.map (·.rename ρ)
  imports := l.imports.map fun i => { i with type := i.type.rename ρ }

/-- The message under another name. -/
def MessageDecl.rename (m : MessageDecl) : MessageDecl := { m with name := ρ m.name }

variable {ρ}

theorem Encoding.customType_rename (e : Encoding) :
    (e.rename ρ).customType = e.customType.map (·.rename ρ) := by
  cases e <;> rfl

theorem FieldSlot.Coherent.rename {f : FieldSlot} (h : f.Coherent) : (f.rename ρ).Coherent := by
  unfold FieldSlot.rename
  cases h with
  | primitive method p accepted type initial encoding =>
    rw [type, initial, encoding]
    exact .primitive method p accepted rfl rfl rfl
  | primitiveVector method p accepted type initial encoding =>
    rw [type, initial, encoding]
    exact .primitiveVector method p accepted rfl rfl rfl
  | object t type initial encoding =>
    rw [type, initial, encoding]
    exact .object (t.rename ρ) rfl rfl rfl
  | polymorphic t type initial encoding =>
    rw [type, initial, encoding]
    exact .polymorphic (t.rename ρ) rfl rfl rfl
  | closedVector t type initial encoding =>
    rw [type, initial, encoding]
    exact .closedVector (t.rename ρ) rfl rfl rfl
  | openVector t type initial encoding =>
    rw [type, initial, encoding]
    exact .openVector (t.rename ρ) rfl rfl rfl

theorem Layout.Sound.rename {l : Layout} (h : l.Sound) : (l.rename ρ).Sound where
  bit_le := h.bit_le
  coherent := List.forall_mem_map.2 fun f hf => (h.coherent f hf).rename
  nodup := by
    have idents : (l.rename ρ).fields.map (·.ident) = l.fields.map (·.ident) :=
      List.map_map
    rw [idents]
    exact h.nodup

theorem Layout.Worded.rename {l : Layout} (h : l.Worded) (words : ∀ name, IsWord (ρ name)) :
    (l.rename ρ).Worded where
  parent := by
    intro t ht
    obtain ⟨t, -, rfl⟩ := Option.map_eq_some_iff.1 ht
    exact words t.name
  flags := h.flags
  fields := List.forall_mem_map.2 fun f hf => by
    refine ⟨(h.fields f hf).ident, fun t ht => ?_⟩
    obtain ⟨t, -, rfl⟩ := Option.map_eq_some_iff.1 (f.encoding.customType_rename.symm.trans ht)
    exact words t.name
  imports := List.forall_mem_map.2 fun i _ => words i.type.name

end Rename

/-! ## Names of the schema and others -/

namespace FieldSlot

/-- The primitive types in the code of a field. -/
def nativeNames (f : FieldSlot) : List String :=
  match f.encoding with
  | .primitive method p => (p.native :: (method.castFor p).toList).map (·.spelling)
  | .primitiveVector method p => (p.native :: (method.castFor p).toList).map (·.spelling)
  | _ => []

/-- The types of the prelude and of the runtime crate in the code of a field. -/
def preludeNames (f : FieldSlot) : List String :=
  match f.encoding with
  | .polymorphic _ => ["Box", "ProtocolType"]
  | .primitiveVector _ _ => ["Vec"]
  | .objectVector _ false => ["Vec"]
  | .objectVector _ true => ["Vec", "Box", "ProtocolType"]
  | _ => []

/-- The types of the schema in the code of a field. -/
def schemaNames (f : FieldSlot) : List String :=
  match f.encoding with
  | .object t => [t.name]
  | .polymorphic t => [t.name]
  | .objectVector t false => [t.name]
  | _ => []

/-- Strings are not cast. -/
theorem castFor_string {method : Method} (accepted : method.accepts .string) :
    method.castFor .string = none := by
  cases method <;> first | rfl | exact nomatch accepted

/-- Writing and reading a value spells, besides its type, the type to which it is cast. -/
theorem mem_castNames {method : Method} {p : Primitive} (accepted : method.accepts p) {w : String} :
    w = p.native.spelling ∨ w ∈ method.castNames p ∨ w ∈ method.readNames p ↔
      w ∈ (p.native :: (method.castFor p).toList).map (·.spelling) := by
  by_cases string : p = .string
  · subst string
    simp [Method.castNames, Method.readNames, castFor_string accepted]
  · cases cast : method.castFor p <;>
      simp [Method.castNames, Method.readNames, cast, string, or_comm, or_left_comm]

theorem eq_of_mem_names_default {p : Primitive} {w : String} (h : w ∈ (Initial.default p).names) :
    w = p.native.spelling := by
  cases p with
  | string => exact List.mem_singleton.1 h
  | _ => exact nomatch h

theorem Coherent.mem_names {f : FieldSlot} (h : f.Coherent) {w : String} :
    w ∈ f.names ↔ w ∈ f.nativeNames ∨ w ∈ f.preludeNames ∨ w ∈ f.schemaNames := by
  unfold names nativeNames preludeNames schemaNames
  cases h with
  | primitive method p accepted type initial encoding =>
    have start := eq_of_mem_names_default (p := p) (w := w)
    rw [type, initial, encoding]
    simp only [FieldType.names, Encoding.writeNames, Encoding.readNames, List.mem_append,
      List.mem_singleton, List.not_mem_nil, or_false, ← mem_castNames accepted]
    tauto
  | primitiveVector method p accepted type initial encoding =>
    rw [type, initial, encoding]
    simp only [FieldType.names, Initial.names, Encoding.writeNames, Encoding.readNames,
      List.mem_append, List.mem_cons, List.not_mem_nil, or_false, ← mem_castNames accepted]
    tauto
  | object t type initial encoding =>
    rw [type, initial, encoding]
    simp [FieldType.names, Initial.names, Encoding.writeNames, Encoding.readNames]
  | polymorphic t type initial encoding =>
    rw [type, initial, encoding]
    simp [FieldType.names, Initial.names, Encoding.writeNames, Encoding.readNames, or_comm,
      or_left_comm]
  | closedVector t type initial encoding =>
    rw [type, initial, encoding]
    simp [FieldType.names, Initial.names, Encoding.writeNames, Encoding.readNames, or_comm,
      or_left_comm]
  | openVector t type initial encoding =>
    rw [type, initial, encoding]
    simp [FieldType.names, Initial.names, Encoding.writeNames, Encoding.readNames, or_comm,
      or_left_comm]

end FieldSlot

namespace Layout

/-- The primitive types in the module of a message. -/
def nativeNames (l : Layout) : List String :=
  "u16" :: (l.flags.flatMap (fun _ => ["bool"]) ++ l.fields.flatMap (·.nativeNames))

/-- The type names in the module of a message that are no names of the schema. -/
def foreignNames (l : Layout) : List String :=
  commonNames ++ l.nativeNames ++ l.fields.flatMap (·.preludeNames)

/-- The names of the schema in the module of a message. -/
def schemaNames (m : MessageDecl) (l : Layout) : List String :=
  m.name :: (l.parent.toList.map (·.name) ++ l.fields.flatMap (·.schemaNames))

theorem mem_names {m : MessageDecl} {l : Layout} (sound : l.Sound) {w : String} :
    w ∈ l.names m ↔ w ∈ l.foreignNames ∨ w ∈ l.schemaNames m := by
  have fields : w ∈ l.fields.flatMap (·.names) ↔ w ∈ l.fields.flatMap (·.nativeNames) ∨
      w ∈ l.fields.flatMap (·.preludeNames) ∨ w ∈ l.fields.flatMap (·.schemaNames) := by
    simp only [List.mem_flatMap, ← exists_or, ← and_or_left]
    exact exists_congr fun f => and_congr_right fun hf => (sound.coherent f hf).mem_names
  have u16 : w = "u16" → w ∈ commonNames := by
    rintro rfl
    decide
  simp only [names, foreignNames, nativeNames, schemaNames, List.mem_append, List.mem_cons, fields,
    List.map_eq_flatMap]
  tauto

theorem foreignNames_rename (ρ : String → String) (l : Layout) :
    (l.rename ρ).foreignNames = l.foreignNames := by
  have native (f : FieldSlot) : (f.rename ρ).nativeNames = f.nativeNames := by
    unfold FieldSlot.nativeNames FieldSlot.rename
    cases f.encoding <;> rfl
  have prelude (f : FieldSlot) : (f.rename ρ).preludeNames = f.preludeNames := by
    unfold FieldSlot.preludeNames FieldSlot.rename
    cases f.encoding with
    | objectVector t isOpen => cases isOpen <;> rfl
    | _ => rfl
  simp only [foreignNames, nativeNames, rename, List.flatMap_map, native, prelude]

theorem schemaNames_rename (ρ : String → String) (m : MessageDecl) (l : Layout) :
    (l.rename ρ).schemaNames (m.rename ρ) = (l.schemaNames m).map ρ := by
  have field (f : FieldSlot) : (f.rename ρ).schemaNames = f.schemaNames.map ρ := by
    unfold FieldSlot.schemaNames FieldSlot.rename
    cases f.encoding with
    | objectVector t isOpen => cases isOpen <;> rfl
    | _ => rfl
  cases parent : l.parent <;>
    simp [schemaNames, rename, MessageDecl.rename, TypeRef.rename, List.flatMap_map,
      List.map_flatMap, field, parent]

/-- What a module spells besides names of the schema is reserved, or a primitive type. -/
theorem mem_reservedNames_or_nativeNames {l : Layout} {w : String} (h : w ∈ l.foreignNames) :
    w ∈ reservedNames ∨ w ∈ l.nativeNames := by
  have common : ∀ w ∈ commonNames, w ∈ reservedNames ∨ w = "u16" := by decide
  have prelude (f : FieldSlot) : f.preludeNames ⊆ reservedNames := by
    unfold FieldSlot.preludeNames
    split <;> decide
  rcases List.mem_append.1 h with h | h
  · rcases List.mem_append.1 h with h | h
    · rcases common w h with h | rfl
      · exact .inl h
      · exact .inr List.mem_cons_self
    · exact .inr h
  · obtain ⟨f, -, h⟩ := List.mem_flatMap.1 h
    exact .inl (prelude f h)

theorem nativeNames_subset (l : Layout) : l.nativeNames ⊆ NativeType.all.map (·.spelling) := by
  have spelled (t : NativeType) : t ∈ NativeType.all := by cases t <;> decide
  have native (f : FieldSlot) : f.nativeNames ⊆ NativeType.all.map (·.spelling) := by
    unfold FieldSlot.nativeNames
    split
    · exact List.map_subset _ fun t _ => spelled t
    · exact List.map_subset _ fun t _ => spelled t
    · exact List.nil_subset _
  refine List.cons_subset.2 ⟨by decide, List.append_subset.2 ⟨fun w hw => ?_, fun w hw => ?_⟩⟩
  · obtain ⟨-, -, flag⟩ := List.mem_flatMap.1 hw
    cases List.mem_singleton.1 flag
    decide
  · obtain ⟨f, -, hw⟩ := List.mem_flatMap.1 hw
    exact native f hw

theorem foreignNames_subset (l : Layout) : l.foreignNames ⊆ typeNames := by
  intro w hw
  rcases mem_reservedNames_or_nativeNames hw with reserved | native
  · exact List.mem_append_left _ reserved
  · exact List.mem_append_right _ (l.nativeNames_subset native)

end Layout

namespace Source

/-- The module of a message spells the type name whatever the messages and types of the schema are
called. -/
def SpelledElse (settings : Settings) (m : MessageDecl) (l : Layout) (w : String) : Prop :=
  w ∈ typeNames ∧ ∀ ρ : String → String, (∀ name, IsWord (ρ name)) →
    w ∈ namesOf (print (moduleLines settings (m.rename ρ) (l.rename ρ)
      (.ofLayout (m.rename ρ) (l.rename ρ))))

section Module

variable {settings : Settings} (neat : settings.Neat) {m : MessageDecl}
  (package : Unbroken m.package) {l : Layout} (sound : l.Sound) (h : l.Worded)

include neat package sound h

theorem mem_namesOf_rename {ρ : String → String} (words : ∀ name, IsWord (ρ name)) :
    ∀ w ∈ typeNames, w ∈ namesOf (print (moduleLines settings (m.rename ρ) (l.rename ρ)
      (.ofLayout (m.rename ρ) (l.rename ρ)))) ↔
        w ∈ l.foreignNames ∨ w ∈ (l.schemaNames m).map ρ := by
  intro w hw
  have own : IsWord (m.rename ρ).name := words m.name
  have package' : Unbroken (m.rename ρ).package := package
  rw [mem_namesOf_moduleLines neat own package' sound.rename (h.rename words) w hw,
    Layout.mem_names sound.rename, Layout.foreignNames_rename, Layout.schemaNames_rename]

theorem spelledElse_iff {w : String} : SpelledElse settings m l w ↔ w ∈ l.foreignNames := by
  constructor
  · rintro ⟨hw, spelled⟩
    -- where everything in the schema has one name, a type name is none of the schema's
    have word : IsWord "Own" := by decide
    have other : "Own" ∉ typeNames := by decide
    have renamed := (mem_namesOf_rename neat package sound h (fun _ => word) w hw).1
      (spelled (fun _ => "Own") fun _ => word)
    refine renamed.resolve_right fun own => ?_
    obtain ⟨_, -, rfl⟩ := List.mem_map.1 own
    exact other hw
  · intro hw
    have type := l.foreignNames_subset hw
    exact ⟨type, fun ρ words => (mem_namesOf_rename neat package sound h words w type).2 (.inl hw)⟩

end Module

/-- Neither the name of a planned message nor those that it imports from generated code are spelled
in another sense exactly if none of them is a primitive type of the module. -/
theorem unshadowed_iff {settings : Settings} (neat : settings.Neat) {s : Schema} (words : s.Worded)
    {m : MessageDecl} (package : Unbroken m.package) {l : Layout}
    (planned : Layout.plan s m = .ok l) :
    (∀ w, SpelledElse settings m l w ↔ w ∈ l.foreignNames) ∧
      ((∀ x ∈ m.name :: usedNames l, ¬ SpelledElse settings m l x) ↔
        ∀ x ∈ m.name :: usedNames l, x ∉ l.nativeNames) := by
  have sound := Layout.sound_of_plan planned
  have worded := Layout.worded_of_plan words planned
  have spelled {w : String} := spelledElse_iff neat package sound worded (w := w)
  refine ⟨fun w => spelled, forall₂_congr fun x hx => not_congr ?_⟩
  rw [spelled]
  constructor
  · intro foreign
    have unreserved := Layout.not_mem_reservedNames_of_plan planned x hx
    exact (Layout.mem_reservedNames_or_nativeNames foreign).resolve_left unreserved
  · intro native
    exact List.mem_append_left _ (List.mem_append_right _ native)

theorem neat_defaultSettings : Settings.Neat {} := ⟨by decide, by decide, by decide⟩

/-- A message with a flag and with a number that is cast to `u16`. -/
def scoreMessage : MessageDecl where
  name := "Score"
  protocolId := 3
  parent := some "Event"
  fields :=
    [.flag "final" 0, .primitive "points" "uint" "writeVarUhShort", .object "player" "Actor"]

def scoreSchema : Schema where
  messages := [{ name := "Event", protocolId := 2 }, scoreMessage]
  types := [{ name := "Actor", package := "play" }]

/-- None of the names `Score`, `Event` and `Actor` is a primitive type. -/
theorem unshadowed_score :
    ∃ l, Layout.plan scoreSchema scoreMessage = .ok l ∧
      ∀ x ∈ scoreMessage.name :: usedNames l, ¬ SpelledElse {} scoreMessage l x := by
  obtain ⟨l, planned⟩ := exists_of_isOk
    (show (Layout.plan scoreSchema scoreMessage).isOk by decide +kernel)
  have words : scoreSchema.Worded := ⟨by decide, by decide⟩
  refine ⟨l, planned, (unshadowed_iff neat_defaultSettings words (by decide) planned).2.2 ?_⟩
  have others : ∀ x ∈ scoreMessage.name :: scoreMessage.usedNames,
      x ∉ NativeType.all.map (·.spelling) := by decide +kernel
  intro x hx native
  refine others x ?_ (l.nativeNames_subset native)
  rw [List.mem_cons] at hx ⊢
  exact hx.imp_right (Layout.mem_usedNames_iff planned).1

/-- Planning lets a message be called `u16`, although its module declares the id with that type. -/
theorem not_unshadowed :
    ¬ ∀ (settings : Settings) (s : Schema) (m : MessageDecl) (l : Layout), settings.Neat →
      s.Worded → m ∈ s.messages → Unbroken m.package → Layout.plan s m = .ok l →
        ∀ x ∈ m.name :: usedNames l, ¬ SpelledElse settings m l x := by
  intro all
  let m : MessageDecl := { name := "u16", protocolId := 1 }
  let s : Schema := { messages := [m] }
  obtain ⟨l, planned⟩ := exists_of_isOk (show (Layout.plan s m).isOk by decide +kernel)
  have words : s.Worded := ⟨by decide, by decide⟩
  refine all {} s m l neat_defaultSettings words List.mem_cons_self (by decide) planned "u16"
    List.mem_cons_self ?_
  refine (spelledElse_iff neat_defaultSettings (by decide) (Layout.sound_of_plan planned)
    (Layout.worded_of_plan words planned)).2 ?_
  exact List.mem_append_left _ (List.mem_append_right _ List.mem_cons_self)

end Source

end WireCodec
