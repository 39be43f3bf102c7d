import WireCodec.Proofs.JsonRecords
import WireCodec.Proofs.JsonTexts

/-!
# Reading a schema

What is written in the JSON of a schema and of its declarations (`WrittenAs`), and what each of them
may not lack, repeat or misuse (`keys`). A text is read as the schema that it spells, and a text
with a fault anywhere in it is refused (`Schema.ofText_of_spelledBy`).
-/

namespace WireCodec

open JsonValue

/-! ## Fields -/

namespace FieldDecl

/-- The keys of a field. -/
def keys : List Key :=
  [.of "name" true IsText, .of "type" true IsText, .of "isVector" false IsBool,
    .of "useTypeManager" false IsBool, .of "useBBW" false IsBool,
    .of "bbwPosition" false (IsOption IsUInt32), .of "writeMethod" false (IsOption IsText)]

/-- The field is what the value says. -/
structure WrittenAs (f : FieldDecl) (v : JsonValue) : Prop where
  name : Held keys v "name" (Required IsText f.name)
  typeName : Held keys v "type" (Required IsText f.typeName)
  isVector : Held keys v "isVector" (OrDefault IsBool false f.isVector)
  isOpen : Held keys v "useTypeManager" (OrDefault IsBool false f.isOpen)
  isFlag : Held keys v "useBBW" (OrDefault IsBool false f.isFlag)
  flagPosition : Held keys v "bbwPosition" (OrDefault (IsOption IsUInt32) none f.flagPosition)
  writeMethod : Held keys v "writeMethod" (OrDefault (IsOption IsText) none f.writeMethod)

end FieldDecl

theorem decodes_optionalText : Decodes (nullable? text?) (IsOption IsText) :=
  decodes_nullable? decodes_text? nofun

theorem exists_position_iff {slot : Option JsonValue} {position : Option UInt32} :
    (∃ o, orDefault (nullable? (natBelow? UInt32.size)) none slot = some o ∧
      o.map .ofNat = position) ↔ OrDefault (IsOption IsUInt32) none position slot := by
  have decodes := decodes_orDefault
    (decodes_nullable? (decodes_natBelow? UInt32.size) (by rintro n ⟨-, literal, ⟨⟩, -⟩)) none
  simp only [decodes slot _]
  constructor
  · rintro ⟨o, ⟨v, rfl, _ | ⟨small, whole⟩⟩ | ⟨rfl, rfl⟩, rfl⟩
    · exact .inl ⟨_, rfl, .null⟩
    · refine .inl ⟨_, rfl, .some ?_⟩
      rwa [IsUInt32, UInt32.toNat_ofNat_of_lt' small]
    · exact .inr ⟨rfl, rfl⟩
  · rintro (⟨v, rfl, _ | whole⟩ | ⟨rfl, rfl⟩)
    · exact ⟨none, .inl ⟨_, rfl, .null⟩, rfl⟩
    · refine ⟨some _, .inl ⟨_, rfl, .some ⟨UInt32.toNat_lt _, whole⟩⟩, ?_⟩
      simp
    · exact ⟨none, .inr ⟨rfl, rfl⟩, rfl⟩

theorem exists_id_iff {slot : Option JsonValue} {id : UInt16} :
    (∃ n, slot >>= natBelow? UInt16.size = some n ∧ .ofNat n = id) ↔ Required IsUInt16 id slot := by
  have decodes := decodes_required (decodes_natBelow? UInt16.size)
  simp only [decodes slot _]
  constructor
  · rintro ⟨n, ⟨v, rfl, small, whole⟩, rfl⟩
    refine ⟨v, rfl, ?_⟩
    rwa [IsUInt16, UInt16.toNat_ofNat_of_lt' small]
  · rintro ⟨v, rfl, whole⟩
    exact ⟨id.toNat, ⟨v, rfl, UInt16.toNat_lt _, whole⟩, UInt16.ofNat_toNat⟩

namespace FieldDecl

theorem decodes_ofJson? : Decodes ofJson? WrittenAs := by
  intro v f
  have bool := decodes_orDefault decodes_bool? false
  have optionalText := decodes_orDefault decodes_optionalText none
  refine (bind_record?_eq_some_iff (by decide) (by decide)).trans ?_
  constructor
  · rintro ⟨_, _ | ⟨name, _ | ⟨typeName, _ | ⟨isVector, _ | ⟨isOpen, _ | ⟨isFlag,
      _ | ⟨flagPosition, _ | ⟨writeMethod, _ | _⟩⟩⟩⟩⟩⟩⟩, h⟩
    simp only [Option.bind_eq_bind, Option.bind_eq_some_iff, Option.pure_def, Option.some.injEq,
      decodes_text? _ _, bool _ _, optionalText _ _] at h
    obtain ⟨_, hName, _, hType, _, hVector, _, hOpen, _, hFlag, o, hPosition, _, hMethod, rfl⟩ := h
    exact ⟨⟨_, name, hName⟩, ⟨_, typeName, hType⟩, ⟨_, isVector, hVector⟩, ⟨_, isOpen, hOpen⟩,
      ⟨_, isFlag, hFlag⟩, ⟨_, flagPosition, exists_position_iff.1 ⟨o, hPosition, rfl⟩⟩,
      ⟨_, writeMethod, hMethod⟩⟩
  · rintro ⟨⟨_, name, hName⟩, ⟨_, typeName, hType⟩, ⟨_, isVector, hVector⟩, ⟨_, isOpen, hOpen⟩,
      ⟨_, isFlag, hFlag⟩, ⟨_, flagPosition, hPosition⟩, ⟨_, writeMethod, hMethod⟩⟩
    obtain ⟨o, hPosition, same⟩ := exists_position_iff.2 hPosition
    refine ⟨_, .cons name (.cons typeName (.cons isVector (.cons isOpen (.cons isFlag
      (.cons flagPosition (.cons writeMethod .nil)))))), ?_⟩
    simp only [Option.bind_eq_bind, Option.bind_eq_some_iff, Option.pure_def, Option.some.injEq,
      decodes_text? _ _, bool _ _, optionalText _ _]
    exact ⟨_, hName, _, hType, _, hVector, _, hOpen, _, hFlag, o, hPosition, _, hMethod,
      by rw [same]⟩

theorem not_faulty {f : FieldDecl} {v : JsonValue} (h : f.WrittenAs v) : ¬ FaultyRecord keys v := by
  refine not_faultyRecord ?_
  simp only [keys, List.forall_mem_cons]
  exact ⟨h.name.imp fun _ h => h.accepts _, h.typeName.imp fun _ h => h.accepts _,
    h.isVector.imp fun _ h => h.accepts _, h.isOpen.imp fun _ h => h.accepts _,
    h.isFlag.imp fun _ h => h.accepts _, h.flagPosition.imp fun _ h => h.accepts _,
    h.writeMethod.imp fun _ h => h.accepts _, nofun⟩

end FieldDecl

/-! ## Messages -/

namespace MessageDecl

/-- The keys of a message. -/
def keys : List Key :=
  [.of "name" true IsText, .of "package" false IsText, .of "protocolId" true IsUInt16,
    .of "parent" false (IsOption IsText), .list "fields" (FaultyRecord FieldDecl.keys)]

/-- The message is what the value says, its fields in their order. -/
structure WrittenAs (m : MessageDecl) (v : JsonValue) : Prop where
  name : Held keys v "name" (Required IsText m.name)
  package : Held keys v "package" (OrDefault IsText "" m.package)
  protocolId : Held keys v "protocolId" (Required IsUInt16 m.protocolId)
  parent : Held keys v "parent" (OrDefault (IsOption IsText) none m.parent)
  fields : Held keys v "fields" (OrDefault (IsList FieldDecl.WrittenAs) [] m.fields)

theorem decodes_ofJson? : Decodes ofJson? WrittenAs := by
  intro v m
  have text := decodes_orDefault decodes_text? ""
  have optionalText := decodes_orDefault decodes_optionalText none
  have list := decodes_orDefault (decodes_list? FieldDecl.decodes_ofJson?) []
  refine (bind_record?_eq_some_iff (by decide) (by decide)).trans ?_
  constructor
  · rintro ⟨_, _ | ⟨name, _ | ⟨package, _ | ⟨protocolId, _ | ⟨parent, _ | ⟨fields, _ | _⟩⟩⟩⟩⟩, h⟩
    simp only [Option.bind_eq_bind, Option.bind_eq_some_iff, Option.pure_def, Option.some.injEq,
      decodes_text? _ _, text _ _, optionalText _ _, list _ _] at h
    obtain ⟨_, hName, _, hPackage, n, hId, _, hParent, _, hFields, rfl⟩ := h
    have hId := exists_id_iff.1 ⟨n, Option.bind_eq_some_iff.2 hId, rfl⟩
    exact ⟨⟨_, name, hName⟩, ⟨_, package, hPackage⟩, ⟨_, protocolId, hId⟩, ⟨_, parent, hParent⟩,
      ⟨_, fields, hFields⟩⟩
  · rintro ⟨⟨_, name, hName⟩, ⟨_, package, hPackage⟩, ⟨_, protocolId, hId⟩, ⟨_, parent, hParent⟩,
      ⟨_, fields, hFields⟩⟩
    obtain ⟨n, hId, same⟩ := exists_id_iff.2 hId
    refine ⟨_, .cons name (.cons package (.cons protocolId (.cons parent (.cons fields .nil)))), ?_⟩
    simp only [Option.bind_eq_bind, Option.bind_eq_some_iff, Option.pure_def, Option.some.injEq,
      decodes_text? _ _, text _ _, optionalText _ _, list _ _]
    exact ⟨_, hName, _, hPackage, n, Option.bind_eq_some_iff.1 hId, _, hParent, _, hFields,
      by rw [same]⟩

theorem not_faulty {m : MessageDecl} {v : JsonValue} (h : m.WrittenAs v) :
    ¬ FaultyRecord keys v := by
  refine not_faultyRecord ?_
  simp only [keys, List.forall_mem_cons]
  exact ⟨h.name.imp fun _ h => h.accepts _, h.package.imp fun _ h => h.accepts _,
    h.protocolId.imp fun _ h => h.accepts _, h.parent.imp fun _ h => h.accepts _,
    h.fields.imp fun _ h => h.accepts_list _ fun _ _ => FieldDecl.not_faulty, nofun⟩

end MessageDecl

/-! ## Types -/

namespace TypeDecl

/-- The keys of a type. -/
def keys : List Key := [.of "name" true IsText, .of "package" false IsText]

/-- The type is what the value says. -/
structure WrittenAs (t : TypeDecl) (v : JsonValue) : Prop where
  name : Held keys v "name" (Required IsText t.name)
  package : Held keys v "package" (OrDefault IsText "" t.package)

theorem decodes_ofJson? : Decodes ofJson? WrittenAs := by
  intro v t
  have text := decodes_orDefault decodes_text? ""
  refine (bind_record?_eq_some_iff (by decide) (by decide)).trans ?_
  constructor
  · rintro ⟨_, _ | ⟨name, _ | ⟨package, _ | _⟩⟩, h⟩
    simp only [Option.bind_eq_bind, Option.bind_eq_some_iff, Option.pure_def, Option.some.injEq,
      decodes_text? _ _, text _ _] at h
    obtain ⟨_, hName, _, hPackage, rfl⟩ := h
    exact ⟨⟨_, name, hName⟩, ⟨_, package, hPackage⟩⟩
  · rintro ⟨⟨_, name, hName⟩, ⟨_, package, hPackage⟩⟩
    refine ⟨_, .cons name (.cons package .nil), ?_⟩
    simp only [Option.bind_eq_bind, Option.bind_eq_some_iff, Option.pure_def, Option.some.injEq,
      decodes_text? _ _, text _ _]
    exact ⟨_, hName, _, hPackage, rfl⟩

theorem not_faulty {t : TypeDecl} {v : JsonValue} (h : t.WrittenAs v) :
    ¬ FaultyRecord keys v := by
  refine not_faultyRecord ?_
  simp only [keys, List.forall_mem_cons]
  exact ⟨h.name.imp fun _ h => h.accepts _, h.package.imp fun _ h => h.accepts _, nofun⟩

end TypeDecl

/-! ## Schemas -/

namespace Schema

/-- The keys of a schema. -/
def keys : List Key :=
  [.list "messages" (FaultyRecord MessageDecl.keys), .list "types" (FaultyRecord TypeDecl.keys)]

/-- The schema is what the value says, its declarations in their order. -/
structure WrittenAs (s : Schema) (v : JsonValue) : Prop where
  messages : Held keys v "messages" (OrDefault (IsList MessageDecl.WrittenAs) [] s.messages)
  types : Held keys v "types" (OrDefault (IsList TypeDecl.WrittenAs) [] s.types)

theorem decodes_ofJson? : Decodes ofJson? WrittenAs := by
  intro v s
  have messages := decodes_orDefault (decodes_list? MessageDecl.decodes_ofJson?) []
  have types := decodes_orDefault (decodes_list? TypeDecl.decodes_ofJson?) []
  refine (bind_record?_eq_some_iff (by decide) (by decide)).trans ?_
  constructor
  · rintro ⟨_, _ | ⟨slot, _ | ⟨slot', _ | _⟩⟩, h⟩
    simp only [Option.bind_eq_bind, Option.bind_eq_some_iff, Option.pure_def, Option.some.injEq,
      messages _ _, types _ _] at h
    obtain ⟨_, hMessages, _, hTypes, rfl⟩ := h
    exact ⟨⟨_, slot, hMessages⟩, ⟨_, slot', hTypes⟩⟩
  · rintro ⟨⟨_, slot, hMessages⟩, ⟨_, slot', hTypes⟩⟩
    refine ⟨_, .cons slot (.cons slot' .nil), ?_⟩
    simp only [Option.bind_eq_bind, Option.bind_eq_some_iff, Option.pure_def, Option.some.injEq,
      messages _ _, types _ _]
    exact ⟨_, hMessages, _, hTypes, rfl⟩

theorem not_faulty {s : Schema} {v : JsonValue} (h : s.WrittenAs v) : ¬ FaultyRecord keys v := by
  refine not_faultyRecord ?_
  simp only [keys, List.forall_mem_cons]
  exact ⟨h.messages.imp fun _ h => h.accepts_list _ fun _ _ => MessageDecl.not_faulty,
    h.types.imp fun _ h => h.accepts_list _ fun _ _ => TypeDecl.not_faulty, nofun⟩

/-- A text that spells a schema is read as that schema, and one with a fault is refused. -/
theorem ofText_of_spelledBy {v : JsonValue} {text : String} (h : v.SpelledBy text) :
    (∀ s : Schema, s.WrittenAs v → ofText text = .ok s) ∧
      (FaultyRecord keys v → ofText text = .error .malformed) := by
  have read : ofText? text = ofJson? v := by
    rw [ofText?, ofText?_of_spelledBy h]
    rfl
  constructor
  · intro s written
    rw [ofText, read, (decodes_ofJson? v s).2 written]
  · intro faulty
    have none : ofJson? v = none := by
      rw [Option.eq_none_iff_forall_ne_some]
      intro s decoded
      exact not_faulty ((decodes_ofJson? v s).1 decoded) faulty
    rw [ofText, read, none]

/-- A text with blanks, an escape and an unknown key, and one in which a message has no name. -/
theorem ofText_of_spelledBy_ping :
    ofText " \x7b\"messages\": [\x7b\"x\":-1.5e3,\"protocolId\":7,\"n\\u0061me\":\"Ping\"\x7d]\x7d"
        = .ok { messages := [{ name := "Ping", protocolId := 7 }] } ∧
      ofText " \x7b\"messages\": [\x7b\"protocolId\":7\x7d]\x7d" = .error .malformed := by
  have noBlanks : IsBlanks [] := nofun
  have blank : IsBlanks [' '] := by simp [IsBlanks]
  have mark (c : Char) : IsMark c [c] := .blanks noBlanks noBlanks
  have colon : IsMark ':' [':', ' '] := .blanks noBlanks blank
  have key (name : String) (h : name.toList.all fun c => IsUnescaped c) :
      StringSpells ('"' :: (name.toList ++ ['"'])) (some name) :=
    stringSpells_self fun c mem => of_decide_eq_true (List.all_eq_true.1 h c mem)
  have spelled {cs : List Char} {members : List (Option String × JsonValue)}
      (h : PartSpells cs (.members members)) :
      (object (texted [("messages", array [object members])])).SpelledBy
        (.ofList (" \x7b\"messages\": [\x7b".toList ++ cs ++ "\x7d]\x7d".toList)) := by
    have message := PartSpells.object (mark '\x7b') h (mark '\x7d')
    have list := PartSpells.array (mark '[') (.item message) (mark ']')
    have messages := PartSpells.member (key "messages" rfl) colon list
    have record := PartSpells.object (mark '\x7b') messages (mark '\x7d')
    have spelled := SpelledBy.blanks blank record noBlanks
    simpa using spelled
  have digit (c : Char) (h : c.isDigit) : IsDigits [c] := ⟨nofun, by simpa using h⟩
  have seven : IsNumeral [] ['7'] [] [] :=
    ⟨.inl rfl, .inr ⟨digit '7' rfl, by decide⟩, .inl rfl, .inl rfl⟩
  have id : PartSpells "\"protocolId\":7".toList (.members [(some "protocolId", .number "7")]) :=
    .member (key "protocolId" rfl) (mark ':') (.number seven)
  have numeral : IsNumeral ['-'] ['1'] ['.', '5'] ['e', '3'] :=
    ⟨.inr rfl, .inr ⟨digit '1' rfl, by decide⟩, .inr ⟨_, digit '5' rfl, rfl⟩,
      .inr ⟨'e', [], _, .inl rfl, .inl rfl, digit '3' rfl, rfl⟩⟩
  have code : IsHexCode ['0', '0', '6', '1'] (0 * 0x1000 + 0 * 0x100 + 6 * 0x10 + 1) :=
    .digits ⟨by decide, .inl rfl⟩ ⟨by decide, .inl rfl⟩ ⟨by decide, .inl rfl⟩ ⟨by decide, .inl rfl⟩
  have me : BodySpells ['m', 'e'] ['m', 'e'] := bodySpells_self (by simp [IsUnescaped])
  have name : StringSpells "\"n\\u0061me\"".toList (some "name") :=
    .text (.unescaped (by decide) (.code (c := 'a') code me))
  have full : PartSpells "\"x\":-1.5e3,\"protocolId\":7,\"n\\u0061me\":\"Ping\"".toList
      (.members (texted [("x", .number "-1.5e3"), ("protocolId", .number "7"),
        ("name", .string (some "Ping"))])) :=
    .moreMembers (key "x" rfl) (mark ':') (.number numeral) (mark ',')
      (.moreMembers (key "protocolId" rfl) (mark ':') (.number seven) (mark ',')
        (.member name (mark ':') (.string (key "Ping" rfl))))
  constructor
  · refine (ofText_of_spelledBy (spelled full)).1 _ ?_
    refine ⟨⟨_, .member (.head _) (by decide), .inl ⟨_, rfl, _, rfl, .cons ?_ .nil⟩⟩,
      ⟨_, .noMember (by decide), .inr ⟨rfl, rfl⟩⟩⟩
    exact ⟨⟨_, .member (.tail _ (.tail _ (.head _))) (by decide), _, rfl, rfl⟩,
      ⟨_, .noMember (by decide), .inr ⟨rfl, rfl⟩⟩,
      ⟨_, .member (.tail _ (.head _)) (by decide), _, rfl, "7", rfl, (digit '7' rfl).2, by decide⟩,
      ⟨_, .noMember (by decide), .inr ⟨rfl, rfl⟩⟩, ⟨_, .noMember (by decide), .inr ⟨rfl, rfl⟩⟩⟩
  · refine (ofText_of_spelledBy (spelled id)).2 (.unfit (.head _) (.head _) ?_)
    rintro items ⟨⟩
    exact ⟨_, .head _, .lacks (.head _) rfl fun v has => by simp [Has, Key.of] at has⟩

end Schema

end WireCodec
