import WireCodec.Proofs.Mirroring
import WireCodec.Proofs.SchemaText
import WireCodec.Proofs.WellFormed

/-!
# The protocol and its programs

The schema of the protocol lays out each of its messages. A message is represented by a record of
its fields, and the programs of its layouts do to the record what the message itself does: they
reset it, write it and read it in the same way, also where that fails.
-/

namespace WireCodec

open Game

/-! ## Layouts -/

namespace FieldSlot

/-- A field of a primitive type. -/
def scalar (name ident : String) (method : Method) (p : Primitive) : FieldSlot :=
  { name, ident, type := .primitive p, isCustom := false, initial := .default p
    encoding := .primitive method p }

/-- A sequence of a primitive type. -/
def scalars (name : String) (method : Method) (p : Primitive) : FieldSlot :=
  { name, ident := name, type := .sequence (.primitive p), isCustom := false
    initial := .emptySequence, encoding := .primitiveVector method p }

end FieldSlot

namespace Game

/-- How fields refer to a value type. -/
def EntityKind.typeRef (k : EntityKind) : TypeRef := ⟨k.declaration.name, k.declaration.package⟩

namespace MessageKind

/-- The flags, in the author's order. -/
def declaredFlags : MessageKind → List FlagSlot
  | status => [⟨"active", "active", 0, 0⟩]
  | flags =>
    [⟨"c", "c", 2, 2⟩, ⟨"a", "a", 0, 0⟩, ⟨"b", "b", 1, 1⟩, ⟨"overflow", "overflow", 9, 1⟩]
  | chatServerCopy => [⟨"muted", "muted", 0, 0⟩]
  | _ => []

/-- The flags, by their positions. -/
def flagSlots : MessageKind → List FlagSlot
  | flags =>
    [⟨"a", "a", 0, 0⟩, ⟨"b", "b", 1, 1⟩, ⟨"c", "c", 2, 2⟩, ⟨"overflow", "overflow", 9, 1⟩]
  | k => k.declaredFlags

theorem mergeSort_declaredFlags (k : MessageKind) :
    k.declaredFlags.mergeSort (·.position ≤ ·.position) = k.flagSlots := by
  cases k <;> simp [declaredFlags, flagSlots, List.mergeSort, List.MergeSort.Internal.splitInTwo]

/-- The fields that are no flags, in the author's order. -/
def fieldSlots : MessageKind → List FieldSlot
  | flags => [.scalar "count" "count" .int .int]
  | tags => [.scalars "tags" .int .int]
  | actors =>
    [{ name := "origin", ident := "origin", type := .custom EntityKind.point.typeRef
       isCustom := true, initial := .newInstance EntityKind.point.typeRef
       encoding := .object EntityKind.point.typeRef },
      { name := "actor", ident := "actor", type := .polymorphic EntityKind.actor.typeRef
        isCustom := true, initial := .boxedInstance EntityKind.actor.typeRef
        encoding := .polymorphic EntityKind.actor.typeRef },
      { name := "actors", ident := "actors"
        type := .sequence (.polymorphic EntityKind.actor.typeRef), isCustom := true
        initial := .emptySequence, encoding := .objectVector EntityKind.actor.typeRef true },
      { name := "path", ident := "path", type := .sequence (.custom EntityKind.point.typeRef)
        isCustom := true, initial := .emptySequence
        encoding := .objectVector EntityKind.point.typeRef false },
      .scalars "names" .utf .string,
      .scalar "label" "label" .utf .string,
      .scalar "kamas" "kamas" .varLong .number,
      .scalar "cellId" "cell_id" .varShort .int,
      .scalar "mapId" "map_id" .double .number,
      .scalar "type" "r#type" .byte .int]
  | chat => [.scalar "content" "content" .utf .string, .scalar "channel" "channel" .byte .uint]
  | chatServer =>
    [.scalar "senderId" "sender_id" .double .number,
      .scalar "senderName" "sender_name" .utf .string]
  | chatServerCopy => [.scalar "receiverId" "receiver_id" .varLong .number]
  | _ => []

/-- The messages that a message extends, the nearest first. -/
def ancestors : MessageKind → List MessageKind
  | chatServer => [chat]
  | chatServerCopy => [chatServer, chat]
  | _ => []

/-- The layout of the message. -/
def layout (k : MessageKind) : Layout :=
  let parent := k.ancestors.head?.map fun p => ⟨p.name, p.package⟩
  { parent, flags := k.flagSlots, fields := k.fieldSlots
    imports := Layout.importsOf parent k.fieldSlots }

/-- The layouts of the message and of those that it extends. -/
def lineage (k : MessageKind) : List Layout := k.layout :: k.ancestors.map layout

theorem message?_name (k : MessageKind) : schema.message? k.name = some k.declaration := by
  cases k <;> rfl

theorem ancestors_declaration (k : MessageKind) :
    schema.ancestors k.declaration = .ok (k.ancestors.map (·.declaration)) := by
  refine Schema.ancestors_eq_ok_iff.2 ⟨?_, by cases k <;> decide⟩
  cases k with
  | chatServer => exact .child rfl chat.message?_name (.root rfl)
  | chatServerCopy =>
    exact .child rfl chatServer.message?_name (.child rfl chat.message?_name (.root rfl))
  | _ => exact .root rfl

theorem plan_declaration (k : MessageKind) :
    Layout.plan schema k.declaration = .ok k.layout := by
  rw [Layout.plan, ancestors_declaration, layout, ← mergeSort_declaredFlags]
  cases k <;> rfl

theorem lineage_declaration (k : MessageKind) :
    schema.lineage k.declaration = .ok k.lineage ∧ Layout.Lineage k.lineage := by
  have above : List.Forall₂ (fun m l => Layout.plan schema m = .ok l)
      (k.ancestors.map (·.declaration)) (k.ancestors.map layout) :=
    List.forall₂_map_left_iff.2 <| List.forall₂_map_right_iff.2 <|
      List.forall₂_same.2 fun k _ => plan_declaration k
  refine ⟨?_, Layout.lineage_of_forall₂ (ancestors_declaration k) (plan_declaration k) above⟩
  rw [Schema.lineage, ancestors_declaration]
  exact mapM_eq_ok_iff.2 (.cons (plan_declaration k) above)

end MessageKind

/-! ## Representations -/

/-- The value types, under their names. -/
def entityTypes : CustomTypes Entity where
  fresh t := ((EntityKind.ofName? t.name).getD .point).fresh
  typeId := Entity.typeId
  write := Entity.write
  fill _ := Entity.fill

def StatusMessage.level (m : StatusMessage) : Level Entity :=
  ⟨[("active", .single (.scalar (.boolean m.active)))]⟩

def FlagsMessage.level (m : FlagsMessage) : Level Entity :=
  ⟨[("a", .single (.scalar (.boolean m.a))), ("b", .single (.scalar (.boolean m.b))),
    ("c", .single (.scalar (.boolean m.c))),
    ("overflow", .single (.scalar (.boolean m.overflow))),
    ("count", .single (.scalar (.int m.count)))]⟩

def TagsMessage.level (m : TagsMessage) : Level Entity :=
  ⟨[("tags", .sequence (m.tags.map fun tag => .scalar (.int tag)))]⟩

def ActorsMessage.level (m : ActorsMessage) : Level Entity :=
  ⟨[("origin", .single (.object (.point m.origin))), ("actor", .single (.object m.actor)),
    ("actors", .sequence (m.actors.map .object)),
    ("path", .sequence (m.path.map fun p => .object (.point p))),
    ("names", .sequence (m.names.map fun name => .scalar (.text name))),
    ("label", .single (.scalar (.text m.label))), ("kamas", .single (.scalar (.number m.kamas))),
    ("cell_id", .single (.scalar (.int m.cellId))),
    ("map_id", .single (.scalar (.number m.mapId))),
    ("r#type", .single (.scalar (.int m.type)))]⟩

def ChatMessage.level (m : ChatMessage) : Level Entity :=
  ⟨[("content", .single (.scalar (.text m.content))),
    ("channel", .single (.scalar (.uint m.channel)))]⟩

def ChatServerMessage.level (m : ChatServerMessage) : Level Entity :=
  ⟨[("sender_id", .single (.scalar (.number m.senderId))),
    ("sender_name", .single (.scalar (.text m.senderName)))]⟩

def ChatServerCopyMessage.level (m : ChatServerCopyMessage) : Level Entity :=
  ⟨[("muted", .single (.scalar (.boolean m.muted))),
    ("receiver_id", .single (.scalar (.number m.receiverId)))]⟩

namespace Message

/-- The record of a message: the fields that it adds, then those of the message that it extends. -/
def record : Message → Record Entity
  | ping _ => [⟨[]⟩]
  | status m => [m.level]
  | flags m => [m.level]
  | tags m => [m.level]
  | actors m => [m.level]
  | chat m => [m.level]
  | chatServer m => [m.level, m.base.level]
  | chatServerCopy m => [m.level, m.base.level, m.base.base.level]

theorem formed_record (m : Message) : Record.Formed m.kind.lineage m.record := by
  cases m <;> rfl

end Message

theorem MessageKind.fresh_lineage (k : MessageKind) :
    Record.fresh entityTypes k.lineage = k.fresh.record := by
  cases k with
  | tags =>
    rw [fresh, Message.record, TagsMessage.level, Array.map_empty]
    rfl
  | actors =>
    rw [fresh, Message.record, ActorsMessage.level, Array.map_empty, Array.map_empty,
      Array.map_empty]
    rfl
  | _ => rfl

theorem Message.reset_record (m : Message) :
    Record.reset entityTypes m.kind.lineage m.record = m.reset.record := by
  rw [Record.reset_of_formed entityTypes m.kind.lineage_declaration.2 m.formed_record,
    MessageKind.fresh_lineage, Message.reset_eq]

/-! ## Faithfulness -/

theorem StatusMessage.level_injective : Function.Injective level := by
  rintro ⟨_⟩ ⟨_⟩ same
  simpa [level] using same

theorem FlagsMessage.level_injective : Function.Injective level := by
  rintro ⟨_, _, _, _, _⟩ ⟨_, _, _, _, _⟩ same
  simpa [level] using same

theorem TagsMessage.level_injective : Function.Injective level := by
  rintro ⟨_⟩ ⟨_⟩ same
  simpa [level, Array.map_inj_right] using same

theorem ActorsMessage.level_injective : Function.Injective level := by
  rintro ⟨_, _, _, _, _, _, _, _, _, _⟩ ⟨_, _, _, _, _, _, _, _, _, _⟩ same
  simpa [level, Array.map_inj_right] using same

theorem ChatMessage.level_injective : Function.Injective level := by
  rintro ⟨_, _⟩ ⟨_, _⟩ same
  simpa [level] using same

theorem ChatServerMessage.eq_of_level {m m' : ChatServerMessage} (same : m.level = m'.level)
    (base : m.base = m'.base) : m = m' := by
  cases m
  cases m'
  cases base
  simpa [level] using same

theorem ChatServerCopyMessage.eq_of_level {m m' : ChatServerCopyMessage}
    (same : m.level = m'.level) (base : m.base = m'.base) : m = m' := by
  cases m
  cases m'
  cases base
  simpa [level] using same

/-- The identifiers of the fields tell the messages apart. -/
theorem MessageKind.eq_of_idents {k k' : MessageKind}
    (h : k.lineage.map Layout.idents = k'.lineage.map Layout.idents) : k = k' := by
  cases k <;> cases k' <;> first | rfl | exact absurd h (by decide)

theorem Message.record_injective : Function.Injective record := by
  intro m m' same
  have kinds : m.kind = m'.kind := by
    refine MessageKind.eq_of_idents ?_
    rw [← m.formed_record, ← m'.formed_record, same]
  cases m <;> cases m' <;> cases kinds
  case ping.ping => rfl
  case status.status => rw [StatusMessage.level_injective (List.singleton_inj.1 same)]
  case flags.flags => rw [FlagsMessage.level_injective (List.singleton_inj.1 same)]
  case tags.tags => rw [TagsMessage.level_injective (List.singleton_inj.1 same)]
  case actors.actors => rw [ActorsMessage.level_injective (List.singleton_inj.1 same)]
  case chat.chat => rw [ChatMessage.level_injective (List.singleton_inj.1 same)]
  case chatServer.chatServer =>
    obtain ⟨own, base⟩ := List.cons.inj same
    have base := ChatMessage.level_injective (List.singleton_inj.1 base)
    rw [ChatServerMessage.eq_of_level own base]
  case chatServerCopy.chatServerCopy =>
    obtain ⟨own, same⟩ := List.cons.inj same
    obtain ⟨middle, base⟩ := List.cons.inj same
    have base := ChatMessage.level_injective (List.singleton_inj.1 base)
    rw [ChatServerCopyMessage.eq_of_level own (ChatServerMessage.eq_of_level middle base)]

/-! ## Casts -/

theorem cast_int (v : Int32) : (Item.int v).cast .int = .int v :=
  congrArg Scalar.int (Int32.ofInt_toInt v)

theorem cast_varShort (v : Int16) : (Item.varShort v).cast .int = .int v.toInt32 :=
  congrArg Scalar.int (Int32.ofInt_int16ToInt v)

theorem cast_byte (v : Int8) : (Item.byte v).cast .int = .int v.toInt32 :=
  congrArg Scalar.int (Int32.ofInt_int8ToInt v)

theorem cast_byte_uint (v : Int8) : (Item.byte v).cast .uint = .uint v.toInt32.toUInt32 := by
  have low : (UInt32.ofInt v.toInt).toNat = (v.toInt % UInt32.size).toNat := by
    simp only [UInt32.ofInt, UInt32.toNat_ofNat', UInt32.size]
    omega
  have same : UInt32.ofInt v.toInt = v.toInt32.toUInt32 := by
    rw [← UInt32.toNat_inj, low, ← Int32.ofInt_int8ToInt]
    exact (BitVec.toNat_ofInt (n := 32) ..).symm
  exact congrArg Scalar.uint same

theorem item_int (v : Int32) : Method.int.item (.int v) = .int v :=
  congrArg Item.int (Int32.ofInt_toInt v)

theorem item_varShort (v : Int32) : Method.varShort.item (.int v) = .varShort v.toInt16 :=
  congrArg Item.varShort (Int16.ofInt_int32ToInt v)

theorem item_byte (v : Int32) : Method.byte.item (.int v) = .byte v.toInt8 :=
  congrArg Item.byte (Int8.ofInt_int32ToInt v)

theorem item_byte_uint (v : UInt32) : Method.byte.item (.uint v) = .byte v.toUInt8.toInt8 :=
  congrArg (fun bits : BitVec 8 => Item.byte ⟨⟨bits⟩⟩) (BitVec.ofInt_natCast ..)

/-! ## Writing -/

theorem writeSequence_map {α β : Type} {f : α → β} {write : β → WriteM Unit}
    {write' : α → WriteM Unit} (h : ∀ a, write (f a) = write' a) (xs : Array α) :
    writeSequence write (xs.map f) = writeSequence write' xs := by
  simp [writeSequence, List.forM_map, h]

section Programs

variable {g : Op → WriteM Unit} {op : Op} {w w' : WriteM Unit}

theorem write_program_cons {ops : List Op} (h : g op = w) (h' : ops.forM g = w') :
    (op :: ops).forM g = w >>= fun _ => w' := by
  rw [← h, ← h']
  rfl

theorem write_program_last (h : g op = w) : [op].forM g = w :=
  (write_program_cons h rfl).trans (bind_pure w)

end Programs

theorem StatusMessage.write_level (m : StatusMessage) :
    Record.write entityTypes MessageKind.status.lineage [m.level] = m.write :=
  write_program_last rfl

theorem FlagsMessage.write_level (m : FlagsMessage) :
    Record.write entityTypes MessageKind.flags.lineage [m.level] = m.write :=
  write_program_cons rfl <| write_program_cons rfl <| write_program_cons rfl <|
    write_program_cons rfl <| write_program_last (congrArg Item.write (item_int m.count))

theorem TagsMessage.write_level (m : TagsMessage) :
    Record.write entityTypes MessageKind.tags.lineage [m.level] = m.write :=
  have tag : ∀ tag, Op.writeScalar .int (.scalar (.int tag) : Element Entity) = writeInt tag :=
    fun tag => congrArg Item.write (item_int tag)
  write_program_last (writeSequence_map tag m.tags)

theorem ActorsMessage.write_level (m : ActorsMessage) :
    Record.write entityTypes MessageKind.actors.lineage [m.level] = m.write :=
  write_program_cons rfl <| write_program_cons rfl <|
    write_program_cons (writeSequence_map (fun _ => rfl) m.actors) <|
    write_program_cons (writeSequence_map (fun _ => rfl) m.path) <|
    write_program_cons (writeSequence_map (fun _ => rfl) m.names) <|
    write_program_cons rfl <| write_program_cons rfl <|
    write_program_cons (congrArg Item.write (item_varShort m.cellId)) <|
    write_program_cons rfl <| write_program_last (congrArg Item.write (item_byte m.type))

theorem ChatMessage.write_level (m : ChatMessage) :
    Record.write entityTypes MessageKind.chat.lineage [m.level] = m.write :=
  write_program_cons rfl <| write_program_last (congrArg Item.write (item_byte_uint m.channel))

theorem ChatServerMessage.write_level (m : ChatServerMessage) :
    Record.write entityTypes MessageKind.chatServer.lineage [m.level, m.base.level] = m.write :=
  write_program_cons m.base.write_level <| write_program_cons rfl <| write_program_last rfl

theorem ChatServerCopyMessage.write_level (m : ChatServerCopyMessage) :
    Record.write entityTypes MessageKind.chatServerCopy.lineage
      [m.level, m.base.level, m.base.base.level] = m.write :=
  write_program_cons m.base.write_level <| write_program_cons rfl <| write_program_last rfl

/-! ## Reading -/

section Reading

variable {types : TypeTable Entity}

theorem Entity.mirrors_point : Mirrors .point Point.fill Entity.fill :=
  fun v c => inside_eq_represented point v Point.fill ⟨.point v, c⟩

theorem Entity.mirrors_self : Mirrors id Entity.fill Entity.fill := by
  intro v c
  rw [id]
  cases Entity.fill ⟨v, c⟩ <;> rfl

theorem Ping.mirrors_fill :
    Mirrors (fun _ => [⟨[]⟩]) fill (Record.fill entityTypes types MessageKind.ping.lineage) :=
  Mirrors.root (mirrors_program_last mirrors_pure) (by decide)

theorem StatusMessage.mirrors_fill :
    Mirrors (fun m => [level m]) fill (Record.fill entityTypes types MessageKind.status.lineage) :=
  Mirrors.root (mirrors_program_last (mirrors_readFlag fun _ _ => rfl)) (by decide)

theorem FlagsMessage.mirrors_fill :
    Mirrors (fun m => [level m]) fill (Record.fill entityTypes types MessageKind.flags.lineage) :=
  Mirrors.root
    (mirrors_program_cons (mirrors_readFlag fun _ _ => rfl) <|
      mirrors_program_cons (mirrors_readFlag fun _ _ => rfl) <|
      mirrors_program_cons (mirrors_readFlag fun _ _ => rfl) <|
      mirrors_program_cons (mirrors_readFlag fun _ _ => rfl) <|
      mirrors_program_last (mirrors_readPrimitive rfl fun _ _ => by rw [cast_int]; rfl))
    (by decide)

theorem TagsMessage.mirrors_fill :
    Mirrors (fun m => [level m]) fill (Record.fill entityTypes types MessageKind.tags.lineage) := by
  refine Mirrors.root ?_ (by decide)
  refine mirrors_program_last (mirrors_readPrimitiveVector rfl fun m v => ?_)
  rw [cast_int, level, Array.map_push]
  rfl

theorem ChatMessage.mirrors_fill :
    Mirrors (fun m => [level m]) fill (Record.fill entityTypes types MessageKind.chat.lineage) :=
  Mirrors.root
    (mirrors_program_cons (mirrors_readPrimitive rfl fun _ _ => rfl) <|
      mirrors_program_last (mirrors_readPrimitive rfl fun _ _ => by rw [cast_byte_uint]; rfl))
    (by decide)

theorem ChatServerMessage.mirrors_fill :
    Mirrors (fun m => [level m, m.base.level]) fill
      (Record.fill entityTypes types MessageKind.chatServer.lineage) := by
  refine ChatMessage.mirrors_fill.child (mirrors_program_cons (mirrors_readPrimitive rfl ?_) <|
    mirrors_program_last (mirrors_readPrimitive rfl ?_)) rfl (by decide)
      ((keeps_assign ?_ _).bind fun _ => keeps_assign ?_ _) ?_ ?_
  all_goals exact fun _ _ => rfl

theorem ChatServerCopyMessage.mirrors_fill :
    Mirrors (fun m => [level m, m.base.level, m.base.base.level]) fill
      (Record.fill entityTypes types MessageKind.chatServerCopy.lineage) := by
  refine ChatServerMessage.mirrors_fill.child (mirrors_program_cons (mirrors_readFlag ?_) <|
    mirrors_program_last (mirrors_readPrimitive rfl ?_)) rfl (by decide)
      ((keeps_assign ?_ _).bind fun _ => keeps_assign ?_ _) ?_ ?_
  all_goals exact fun _ _ => rfl

namespace ActorsMessage

theorem level_push_actor (m : ActorsMessage) (e : Entity) :
    level { m with actors := m.actors.push e } =
      m.level.modify "actors" (·.push (.object e)) := by
  rw [level, Array.map_push]
  rfl

theorem level_push_point (m : ActorsMessage) (p : Point) :
    level { m with path := m.path.push p } =
      m.level.modify "path" (·.push (.object (.point p))) := by
  rw [level, Array.map_push]
  rfl

theorem level_push_name (m : ActorsMessage) (name : String) :
    level { m with names := m.names.push name } =
      m.level.modify "names" (·.push (.scalar ((Item.utf name).cast .string))) := by
  rw [level, Array.map_push]
  rfl

theorem level_set_cellId (m : ActorsMessage) (v : Int16) :
    level { m with cellId := v.toInt32 } =
      m.level.setSingle "cell_id" (.scalar ((Item.varShort v).cast .int)) := by
  rw [cast_varShort]
  rfl

theorem level_set_type (m : ActorsMessage) (v : Int8) :
    level { m with type := v.toInt32 } =
      m.level.setSingle "r#type" (.scalar ((Item.byte v).cast .int)) := by
  rw [cast_byte]
  rfl

theorem mirrors_fill :
    Mirrors (fun m => [level m]) (fill types)
      (Record.fill entityTypes types MessageKind.actors.lineage) := by
  refine Mirrors.root
    (mirrors_program_cons₂
        (mirrors_readObject ?_ (mirrors_fillObject Entity.mirrors_point ?_ ?_)) <|
      mirrors_program_cons₂
        (mirrors_readTypedObject ?_ (mirrors_fillObject Entity.mirrors_self ?_ ?_)) <|
      mirrors_program_cons (mirrors_readTypedVector level_push_actor) <|
      mirrors_program_cons
        (mirrors_readObjectVector Entity.mirrors_point (by rfl) level_push_point) <|
      mirrors_program_cons (mirrors_readPrimitiveVector rfl level_push_name) <|
      mirrors_program_cons (mirrors_readPrimitive rfl ?_) <|
      mirrors_program_cons (mirrors_readPrimitive rfl ?_) <|
      mirrors_program_cons (mirrors_readPrimitive rfl level_set_cellId) <|
      mirrors_program_cons (mirrors_readPrimitive rfl ?_) <|
      mirrors_program_last (mirrors_readPrimitive rfl level_set_type)) (by decide)
  -- Each field that is left has a place of its own in the record and is stored there as it is read.
  all_goals
    intros
    rfl

end ActorsMessage

end Reading

/-! ## Messages and programs -/

namespace Message

/-- The programs of the layouts do to the record of the message what the message does itself: they
start from its default, reset it, write the same bytes or fail in the same way behind the same
bytes, and from whatever input read the same values up to the same place. -/
structure Follows (layouts : List Layout) (m : Message) : Prop where
  fresh : Record.fresh entityTypes layouts = m.kind.fresh.record
  reset : Record.reset entityTypes layouts m.record = m.reset.record
  write : Record.write entityTypes layouts m.record = m.write
  fill : ∀ types c, Record.fill entityTypes types layouts ⟨m.record, c⟩ =
    represented record (Message.fill types ⟨m, c⟩)

theorem write_record (m : Message) :
    Record.write entityTypes m.kind.lineage m.record = m.write := by
  cases m with
  | ping m => exact write_program_last rfl
  | status m => exact m.write_level
  | flags m => exact m.write_level
  | tags m => exact m.write_level
  | actors m => exact m.write_level
  | chat m => exact m.write_level
  | chatServer m => exact m.write_level
  | chatServerCopy m => exact m.write_level

theorem fill_record (types : TypeTable Entity) (m : Message) (c : Cursor) :
    Record.fill entityTypes types m.kind.lineage ⟨m.record, c⟩ =
      represented record (fill types ⟨m, c⟩) := by
  cases m with
  | ping m => exact Ping.mirrors_fill.inside record ping m ⟨.ping m, c⟩
  | status m => exact StatusMessage.mirrors_fill.inside record status m ⟨.status m, c⟩
  | flags m => exact FlagsMessage.mirrors_fill.inside record flags m ⟨.flags m, c⟩
  | tags m => exact TagsMessage.mirrors_fill.inside record tags m ⟨.tags m, c⟩
  | actors m => exact ActorsMessage.mirrors_fill.inside record actors m ⟨.actors m, c⟩
  | chat m => exact ChatMessage.mirrors_fill.inside record chat m ⟨.chat m, c⟩
  | chatServer m =>
    exact ChatServerMessage.mirrors_fill.inside record chatServer m ⟨.chatServer m, c⟩
  | chatServerCopy m =>
    exact ChatServerCopyMessage.mirrors_fill.inside record chatServerCopy m ⟨.chatServerCopy m, c⟩

theorem follows_lineage (m : Message) : m.Follows m.kind.lineage where
  fresh := m.kind.fresh_lineage
  reset := m.reset_record
  write := m.write_record
  fill types c := m.fill_record types c

end Message

/-- The text of the schema declares each message of the protocol under its name and id, and the
programs that its declaration is laid out to do what the message itself does, whatever its state,
the input and the table of types. No two messages have the same record. -/
theorem follows_schemaText :
    Function.Injective Message.record ∧
    ∃ s, Schema.ofText? schemaText = some s ∧
      ∀ m : Message, ∃ decl l ls, s.message? m.kind.name = some decl ∧ decl.protocolId = m.id ∧
        Layout.plan s decl = .ok l ∧ s.lineage decl = .ok (l :: ls) ∧ m.Follows (l :: ls) := by
  refine ⟨Message.record_injective, schema, ofText?_schemaText, fun m => ?_⟩
  obtain ⟨found, -⟩ := m.kind.lineage_declaration
  exact ⟨m.kind.declaration, m.kind.layout, _, m.kind.message?_name, rfl, m.kind.plan_declaration,
    found, m.follows_lineage⟩

end Game

end WireCodec
