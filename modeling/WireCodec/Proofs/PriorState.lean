import WireCodec.Proofs.FieldReads
import WireCodec.Proofs.MessageRoundTrip

/-!
# Filling a value that holds something already

What a message or a value held before it is filled matters little: it ends as the default value of
its type would, but for its sequences, which keep their elements in front of those that are read,
and for the fields that a failed read does not come to.
-/

namespace WireCodec.Game

/-! ## Fields in wire order -/

def Point.fields (p : Point) : List (FieldState Entity) :=
  [.scalar (.int p.x.toInt32), .scalar (.int p.y.toInt32)]

def ActorInformation.fields (a : ActorInformation) : List (FieldState Entity) :=
  [.scalar (.number a.contextualId)]

def CharacterInformation.fields (c : CharacterInformation) : List (FieldState Entity) :=
  c.base.fields ++ [.scalar (.text c.name), .scalar (.uint c.level.toUInt32)]

def MonsterInformation.fields (m : MonsterInformation) : List (FieldState Entity) :=
  m.base.fields ++ [.scalar (.int m.creatureId)]

def Ping.fields (_ : Ping) : List (FieldState Entity) := []

def StatusMessage.fields (m : StatusMessage) : List (FieldState Entity) :=
  [.scalar (.boolean m.active)]

def FlagsMessage.fields (m : FlagsMessage) : List (FieldState Entity) :=
  [.scalar (.boolean m.a), .scalar (.boolean m.b), .scalar (.boolean m.c),
    .scalar (.boolean m.overflow), .scalar (.int m.count)]

def TagsMessage.fields (m : TagsMessage) : List (FieldState Entity) :=
  [.sequence (m.tags.toList.map fun tag => .scalar (.int tag))]

def ActorsMessage.fields (m : ActorsMessage) : List (FieldState Entity) :=
  [.object (.point m.origin), .openObject m.actor, .sequence (m.actors.toList.map .object),
    .sequence (m.path.toList.map fun p => .object (.point p)),
    .sequence (m.names.toList.map fun name => .scalar (.text name)), .scalar (.text m.label),
    .scalar (.number m.kamas), .scalar (.int m.cellId), .scalar (.number m.mapId),
    .scalar (.int m.type)]

def ChatMessage.fields (m : ChatMessage) : List (FieldState Entity) :=
  [.scalar (.text m.content), .scalar (.uint m.channel)]

def ChatServerMessage.fields (m : ChatServerMessage) : List (FieldState Entity) :=
  m.base.fields ++ [.scalar (.number m.senderId), .scalar (.text m.senderName)]

def ChatServerCopyMessage.fields (m : ChatServerCopyMessage) : List (FieldState Entity) :=
  m.base.fields ++ [.scalar (.boolean m.muted), .scalar (.number m.receiverId)]

/-- The fields of a value, those of its parent first. -/
def Entity.fields : Entity → List (FieldState Entity)
  | point v => v.fields
  | actor v => v.fields
  | character v => v.fields
  | monster v => v.fields

/-- The fields of a message: those of its parent first, then flags by position, then the others. -/
def Message.fields : Message → List (FieldState Entity)
  | ping m => m.fields
  | status m => m.fields
  | flags m => m.fields
  | tags m => m.fields
  | actors m => m.fields
  | chat m => m.fields
  | chatServer m => m.fields
  | chatServerCopy m => m.fields

section Fields

variable {types : TypeTable Entity} {fillValue : FillM Entity Unit}

/-! ## Value types -/

theorem Point.uniform_fill : Uniform types fillValue fields 0 2 fill :=
  .bind (uniform_assign (.int ·.toInt32) fun _ => ⟨⟨_, rfl⟩, fun _ => rfl⟩) <|
  uniform_assign (.int ·.toInt32) fun _ => ⟨⟨_, rfl⟩, fun _ => rfl⟩

theorem ActorInformation.uniform_fill : Uniform types fillValue fields 0 1 fill :=
  uniform_assign .number fun _ => ⟨⟨_, rfl⟩, fun _ => rfl⟩

theorem CharacterInformation.uniform_fill : Uniform types fillValue fields 0 3 fill :=
  .bind (ActorInformation.uniform_fill.parent (fun _ => [_, _]) (fun _ => rfl) (fun _ => rfl)
    fun _ _ => ⟨rfl, rfl⟩) <|
  .bind (uniform_assign .text fun _ => ⟨⟨_, rfl⟩, fun _ => rfl⟩) <|
  uniform_assign (.uint ·.toUInt32) fun _ => ⟨⟨_, rfl⟩, fun _ => rfl⟩

theorem MonsterInformation.uniform_fill : Uniform types fillValue fields 0 2 fill :=
  .bind (ActorInformation.uniform_fill.parent (fun _ => [_]) (fun _ => rfl) (fun _ => rfl)
    fun _ _ => ⟨rfl, rfl⟩) <|
  uniform_assign .int fun _ => ⟨⟨_, rfl⟩, fun _ => rfl⟩

/-! ## Messages -/

theorem Ping.uniform_fill : Uniform types fillValue fields 0 0 fill := uniform_pure 0

theorem StatusMessage.uniform_fill : Uniform types fillValue fields 0 1 fill :=
  uniform_assign .boolean fun _ => ⟨⟨_, rfl⟩, fun _ => rfl⟩

theorem FlagsMessage.uniform_fill : Uniform types fillValue fields 0 5 fill :=
  .bind (uniform_assign .boolean fun _ => ⟨⟨_, rfl⟩, fun _ => rfl⟩) <|
  .bind (uniform_assign .boolean fun _ => ⟨⟨_, rfl⟩, fun _ => rfl⟩) <|
  .bind (uniform_assign .boolean fun _ => ⟨⟨_, rfl⟩, fun _ => rfl⟩) <|
  .bind (uniform_assign .boolean fun _ => ⟨⟨_, rfl⟩, fun _ => rfl⟩) <|
  uniform_assign .int fun _ => ⟨⟨_, rfl⟩, fun _ => rfl⟩

theorem TagsMessage.uniform_fill : Uniform types fillValue fields 0 1 fill :=
  uniform_extend tagsField (fun tag => .scalar (.int tag)) (fun _ => rfl) fun _ _ => rfl

theorem ChatMessage.uniform_fill : Uniform types fillValue fields 0 2 fill :=
  .bind (uniform_assign .text fun _ => ⟨⟨_, rfl⟩, fun _ => rfl⟩) <|
  uniform_assign (.uint ·.toInt32.toUInt32) fun _ => ⟨⟨_, rfl⟩, fun _ => rfl⟩

theorem ChatServerMessage.uniform_fill : Uniform types fillValue fields 0 4 fill :=
  .bind (ChatMessage.uniform_fill.parent (fun _ => [_, _]) (fun _ => rfl) (fun _ => rfl)
    fun _ _ => ⟨rfl, rfl⟩) <|
  .bind (uniform_assign .number fun _ => ⟨⟨_, rfl⟩, fun _ => rfl⟩) <|
  uniform_assign .text fun _ => ⟨⟨_, rfl⟩, fun _ => rfl⟩

theorem ChatServerCopyMessage.uniform_fill : Uniform types fillValue fields 0 6 fill :=
  .bind (ChatServerMessage.uniform_fill.parent (fun _ => [_, _]) (fun _ => rfl) (fun _ => rfl)
    fun _ _ => ⟨rfl, rfl⟩) <|
  .bind (uniform_assign .boolean fun _ => ⟨⟨_, rfl⟩, fun _ => rfl⟩) <|
  uniform_assign (.number <| .ofInt64 ·) fun _ => ⟨⟨_, rfl⟩, fun _ => rfl⟩

theorem ActorsMessage.uniform_fill :
    Uniform types Entity.fill fields 0 10 (fill types) := by
  -- the first two fields take two actions each
  have byField : fill types = (do
      (do
        .change fun m => { m with origin := {} }
        .within origin (fun m origin => { m with origin }) Point.fill)
      (do
        .assign (fun m actor => { m with actor }) types.readInstance
        .within actor (fun m actor => { m with actor }) Entity.fill)
      .extend actorsField.push (types.readValue Entity.fill)
      .extend pathField.push (FillM.fresh {} Point.fill)
      .extend namesField.push readUtf
      .assign (fun m label => { m with label }) readUtf
      .assign (fun m kamas => { m with kamas := .ofInt64 kamas }) readVarLong
      .assign (fun m cellId => { m with cellId := cellId.toInt32 }) readVarShort
      .assign (fun m mapId => { m with mapId }) readDouble
      .assign (fun m type => { m with type := type.toInt32 }) readByte) := by
    simp only [bind_assoc]
    rfl
  rw [byField]
  exact .bind (uniform_object Entity.point (fun _ => ⟨_, rfl⟩) (fun _ _ => rfl) (fun _ _ _ => rfl)
      fun _ _ => rfl) <|
    .bind (uniform_openObject (fun _ => ⟨_, rfl⟩) (fun _ _ => rfl) (fun _ _ _ => rfl)
      fun _ _ => rfl) <|
    .bind (uniform_extend actorsField .object (fun _ => rfl) fun _ _ => rfl) <|
    .bind (uniform_extend pathField (fun p => .object (.point p)) (fun _ => rfl) fun _ _ => rfl) <|
    .bind (uniform_extend namesField (fun name => .scalar (.text name)) (fun _ => rfl)
      fun _ _ => rfl) <|
    .bind (uniform_assign .text fun _ => ⟨⟨_, rfl⟩, fun _ => rfl⟩) <|
    .bind (uniform_assign (.number <| .ofInt64 ·) fun _ => ⟨⟨_, rfl⟩, fun _ => rfl⟩) <|
    .bind (uniform_assign (.int ·.toInt32) fun _ => ⟨⟨_, rfl⟩, fun _ => rfl⟩) <|
    .bind (uniform_assign .number fun _ => ⟨⟨_, rfl⟩, fun _ => rfl⟩) <|
    uniform_assign (.int ·.toInt32) fun _ => ⟨⟨_, rfl⟩, fun _ => rfl⟩

end Fields

/-! ## Fields determine their value -/

theorem toInt32_inj {x y : Int16} (h : x.toInt32 = y.toInt32) : x = y := by
  have := congrArg Int32.toInt16 h
  simpa using this

theorem Point.eq_of_fields {p q : Point} (h : p.fields = q.fields) : p = q := by
  cases p
  cases q
  simp only [fields, List.cons.injEq, FieldState.scalar.injEq, Scalar.int.injEq] at h
  rw [toInt32_inj h.1, toInt32_inj h.2.1]

theorem ActorInformation.eq_of_fields {a b : ActorInformation} (h : a.fields = b.fields) :
    a = b := by
  cases a
  cases b
  simpa [fields] using h

theorem CharacterInformation.eq_of_fields {c d : CharacterInformation} (h : c.fields = d.fields) :
    c = d := by
  cases c
  cases d
  obtain ⟨base, own⟩ := List.append_inj h rfl
  cases ActorInformation.eq_of_fields base
  simpa [UInt16.toUInt32_inj] using own

theorem MonsterInformation.eq_of_fields {m n : MonsterInformation} (h : m.fields = n.fields) :
    m = n := by
  cases m
  cases n
  obtain ⟨base, own⟩ := List.append_inj h rfl
  cases ActorInformation.eq_of_fields base
  simpa using own

theorem Entity.eq_of_fields : ∀ {e e' : Entity}, e.kind = e'.kind → e.fields = e'.fields → e = e'
  | point _, point _, _, h => congrArg point (Point.eq_of_fields h)
  | actor _, actor _, _, h => congrArg actor (ActorInformation.eq_of_fields h)
  | character _, character _, _, h => congrArg character (CharacterInformation.eq_of_fields h)
  | monster _, monster _, _, h => congrArg monster (MonsterInformation.eq_of_fields h)

theorem sequence_inj {α : Type} {element : α → Element Entity}
    (injective : ∀ x y, element x = element y → x = y) {xs ys : Array α}
    (h : FieldState.sequence (xs.toList.map element) = .sequence (ys.toList.map element)) :
    xs = ys := by
  injection h with h
  exact Array.toList_inj.1 (List.map_inj_right injective |>.1 h)

theorem StatusMessage.eq_of_fields {m n : StatusMessage} (h : m.fields = n.fields) : m = n := by
  cases m
  cases n
  simpa [fields] using h

theorem FlagsMessage.eq_of_fields {m n : FlagsMessage} (h : m.fields = n.fields) : m = n := by
  cases m
  cases n
  simpa [fields] using h

theorem TagsMessage.eq_of_fields {m n : TagsMessage} (h : m.fields = n.fields) : m = n := by
  cases m
  cases n
  cases sequence_inj (by simp) (List.head_eq_of_cons_eq h)
  rfl

theorem ActorsMessage.eq_of_fields {m n : ActorsMessage} (h : m.fields = n.fields) : m = n := by
  cases m
  cases n
  simp only [fields, List.cons.injEq, FieldState.object.injEq, FieldState.openObject.injEq,
    FieldState.scalar.injEq, Entity.point.injEq, Scalar.text.injEq, Scalar.number.injEq,
    Scalar.int.injEq] at h
  obtain ⟨rfl, rfl, actors, path, names, rfl, rfl, rfl, rfl, rfl, -⟩ := h
  cases sequence_inj (by simp) actors
  cases sequence_inj (by simp) path
  cases sequence_inj (by simp) names
  rfl

theorem ChatMessage.eq_of_fields {m n : ChatMessage} (h : m.fields = n.fields) : m = n := by
  cases m
  cases n
  simpa [fields] using h

theorem ChatServerMessage.eq_of_fields {m n : ChatServerMessage} (h : m.fields = n.fields) :
    m = n := by
  cases m
  cases n
  obtain ⟨base, own⟩ := List.append_inj h rfl
  cases ChatMessage.eq_of_fields base
  simpa using own

theorem ChatServerCopyMessage.eq_of_fields {m n : ChatServerCopyMessage}
    (h : m.fields = n.fields) : m = n := by
  cases m
  cases n
  obtain ⟨base, own⟩ := List.append_inj h rfl
  cases ChatServerMessage.eq_of_fields base
  simpa using own

theorem Message.eq_of_fields :
    ∀ {m n : Message}, m.kind = n.kind → m.fields = n.fields → m = n
  | ping _, ping _, _, _ => rfl
  | status _, status _, _, h => congrArg status (StatusMessage.eq_of_fields h)
  | flags _, flags _, _, h => congrArg flags (FlagsMessage.eq_of_fields h)
  | tags _, tags _, _, h => congrArg tags (TagsMessage.eq_of_fields h)
  | actors _, actors _, _, h => congrArg actors (ActorsMessage.eq_of_fields h)
  | chat _, chat _, _, h => congrArg chat (ChatMessage.eq_of_fields h)
  | chatServer _, chatServer _, _, h => congrArg chatServer (ChatServerMessage.eq_of_fields h)
  | chatServerCopy _, chatServerCopy _, _, h =>
    congrArg chatServerCopy (ChatServerCopyMessage.eq_of_fields h)

/-! ## Two runs -/

section Runs

variable (types : TypeTable Entity)

/-- A value is filled as the default value of its type is. -/
theorem Entity.compares_fill (e : Entity) (c : Cursor) :
    Compares types fill kind fields e e.kind.fresh (fill ⟨e, c⟩) (fill ⟨e.kind.fresh, c⟩) := by
  cases e with
  | point v =>
    refine Point.uniform_fill.compares point ?_ v c (fun _ => rfl) fun _ => ⟨rfl, rfl⟩
    simp [Point.fields]
  | actor v =>
    refine ActorInformation.uniform_fill.compares actor ?_ v c (fun _ => rfl) fun _ => ⟨rfl, rfl⟩
    simp [ActorInformation.fields]
  | character v =>
    refine CharacterInformation.uniform_fill.compares character ?_ v c (fun _ => rfl)
      fun _ => ⟨rfl, rfl⟩
    simp [CharacterInformation.fields, ActorInformation.fields]
  | monster v =>
    refine MonsterInformation.uniform_fill.compares monster ?_ v c (fun _ => rfl)
      fun _ => ⟨rfl, rfl⟩
    simp [MonsterInformation.fields, ActorInformation.fields]

/-- A message is filled as the default value of its kind is. -/
theorem Message.compares_fill (m : Message) (c : Cursor) :
    Compares types Entity.fill kind fields m m.kind.fresh (fill types ⟨m, c⟩)
      (fill types ⟨m.kind.fresh, c⟩) := by
  cases m with
  | ping m =>
    refine Ping.uniform_fill.compares ping ?_ m c (fun _ => rfl) fun _ => ⟨rfl, rfl⟩
    simp [Ping.fields]
  | status m =>
    refine StatusMessage.uniform_fill.compares status ?_ m c (fun _ => rfl) fun _ => ⟨rfl, rfl⟩
    simp [StatusMessage.fields]
  | flags m =>
    refine FlagsMessage.uniform_fill.compares flags ?_ m c (fun _ => rfl) fun _ => ⟨rfl, rfl⟩
    simp [FlagsMessage.fields]
  | tags m =>
    refine TagsMessage.uniform_fill.compares tags ?_ m c (fun _ => rfl) fun _ => ⟨rfl, rfl⟩
    simp [TagsMessage.fields]
  | actors m =>
    refine ActorsMessage.uniform_fill.compares actors ?_ m c (fun _ => rfl) fun _ => ⟨rfl, rfl⟩
    simp [ActorsMessage.fields]
  | chat m =>
    refine ChatMessage.uniform_fill.compares chat ?_ m c (fun _ => rfl) fun _ => ⟨rfl, rfl⟩
    simp [ChatMessage.fields]
  | chatServer m =>
    refine ChatServerMessage.uniform_fill.compares chatServer ?_ m c (fun _ => rfl)
      fun _ => ⟨rfl, rfl⟩
    simp [ChatServerMessage.fields, ChatMessage.fields]
  | chatServerCopy m =>
    refine ChatServerCopyMessage.uniform_fill.compares chatServerCopy ?_ m c (fun _ => rfl)
      fun _ => ⟨rfl, rfl⟩
    simp [ChatServerCopyMessage.fields, ChatServerMessage.fields, ChatMessage.fields]

end Runs

/-- Whatever a message or a value held before it is filled, its reading succeeds or fails as if it
had held the default, with the same fault and at the same cursor. If it succeeds, each field holds
what it would hold in place of the default, but a sequence holds its former elements before that. If
it fails at a field, this is true of the fields before that one, those behind it are kept, and the
field itself is kept if it is a scalar or if its type cannot be resolved. The fields are all there
is to a message or a value of a given kind. -/
theorem fill_like_fresh (types : TypeTable Entity) (c : Cursor) :
    (∀ m : Message, Compares types Entity.fill Message.kind Message.fields m m.kind.fresh
      (Message.fill types ⟨m, c⟩) (Message.fill types ⟨m.kind.fresh, c⟩)) ∧
    (∀ e : Entity, Compares types Entity.fill Entity.kind Entity.fields e e.kind.fresh
      (Entity.fill ⟨e, c⟩) (Entity.fill ⟨e.kind.fresh, c⟩)) ∧
    Function.Injective (fun m : Message => (m.kind, m.fields)) ∧
    Function.Injective (fun e : Entity => (e.kind, e.fields)) := by
  refine ⟨fun m => m.compares_fill types c, fun e => e.compares_fill types c, ?_, ?_⟩
  · intro m n same
    obtain ⟨kind, fields⟩ := Prod.mk.inj same
    exact Message.eq_of_fields kind fields
  · intro e e' same
    obtain ⟨kind, fields⟩ := Prod.mk.inj same
    exact Entity.eq_of_fields kind fields

end WireCodec.Game
