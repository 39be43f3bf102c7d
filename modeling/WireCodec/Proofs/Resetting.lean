import WireCodec.Proofs.Incremental
import WireCodec.Proofs.ProgramRoundTrip

/-!
# Resetting

A record of a message has the fields of its lineage (`Record.Formed`), whatever was set in it and
however far it was filled. To reset such a record is to replace it by the default record, so that
filling it afterwards goes as it does with a fresh one.
-/

namespace WireCodec

variable {α β γ κ ι σ τ : Type}

/-! ## What filling keeps -/

section Keeping

/-- The action keeps what `view` shows of the value, even if it fails. -/
def Keeps (view : σ → κ) (f : FillM σ α) : Prop :=
  ∀ s, view (stateAfter f s).value = view s.value

variable {view : σ → κ}

theorem keeps_pure (a : α) : Keeps view (pure a) := fun _ => rfl

theorem Keeps.bind {f : FillM σ α} {g : α → FillM σ β} (h : Keeps view f)
    (h' : ∀ a, Keeps view (g a)) : Keeps view (f >>= g) := by
  intro s
  have first := h s
  cases run : f s with
  | ok a s₁ =>
    rw [stateAfter_of_ok run] at first
    have second := h' a s₁
    rw [stateAfter, bind_of_ok run]
    exact second.trans first
  | error e s₁ =>
    rw [stateAfter_of_error run] at first
    rwa [stateAfter_of_error (bind_of_error run)]

theorem keeps_forM {f : ι → FillM σ Unit} (is : List ι) (h : ∀ i, Keeps view (f i)) :
    Keeps view (is.forM f) := by
  induction is with
  | nil => exact keeps_pure _
  | cons i is ih => exact (h i).bind fun _ => ih

theorem keeps_change {g : σ → σ} (h : ∀ v, view (g v) = view v) : Keeps view (.change g) :=
  fun s => h s.value

theorem keeps_reading (read : ReadM α) : Keeps view (.reading read) := by
  intro ⟨v, c⟩
  rw [stateAfter, FillM.reading]
  cases read c <;> rfl

theorem keeps_assign {store : σ → α → σ} (h : ∀ v a, view (store v a) = view v)
    (read : ReadM α) : Keeps view (.assign store read) := by
  intro ⟨v, c⟩
  rw [stateAfter, FillM.assign]
  cases read c with
  | ok a c' => exact h v a
  | error e c' => rfl

theorem keeps_within {store : σ → τ → σ} (h : ∀ v u, view (store v u) = view v) (part : σ → τ)
    (fill : FillM τ Unit) : Keeps view (.within part store fill) := by
  intro ⟨v, c⟩
  rw [stateAfter, FillM.within]
  cases fill ⟨part v, c⟩ with
  | ok _ s => exact h v s.value
  | error e s => exact h v s.value

theorem Keeps.times {f : FillM σ Unit} (h : Keeps view f) (n : Nat) : Keeps view (.times f n) := by
  induction n with
  | zero => exact keeps_pure _
  | succ n ih => exact h.bind fun _ => ih

theorem keeps_extend {push : σ → α → σ} (h : ∀ v a, view (push v a) = view v) (read : ReadM α) :
    Keeps view (.extend push read) :=
  (keeps_reading _).bind (keeps_assign h read).times

/-- Of what a constructor wraps, the part that is filled keeps its own view. -/
theorem Keeps.inside {inner : τ → κ} {f : FillM τ Unit} (h : Keeps inner f) (wrap : τ → σ)
    (outer : σ → ι) (wrapped : ∀ u u', inner u = inner u' → outer (wrap u) = outer (wrap u'))
    (s : Filling σ) (u : τ) :
    outer (stateAfter (FillM.inside wrap u f) s).value = outer (wrap u) := by
  have kept := h ⟨u, s.cursor⟩
  unfold stateAfter at kept ⊢
  rw [FillM.inside, FillM.within]
  cases run : f ⟨u, s.cursor⟩ <;> rw [run] at kept <;> exact wrapped _ _ kept

end Keeping

/-! ## The form of a record -/

/-- The identifiers of the fields that a layout adds: those of the flags first. -/
def Layout.idents (l : Layout) : List String := l.flags.map (·.ident) ++ l.fields.map (·.ident)

/-- The identifiers of the fields of a level. -/
def Level.idents (own : Level γ) : List String := own.fields.map (·.1)

/-- The identifiers of the fields of each level. -/
def Record.idents (r : Record γ) : List (List String) := r.map Level.idents

/-- The record has the fields of each of the layouts. -/
def Record.Formed (layouts : List Layout) (r : Record γ) : Prop :=
  r.idents = layouts.map Layout.idents

theorem Level.idents_modify (own : Level γ) (field : String) (f : FieldValue γ → FieldValue γ) :
    (own.modify field f).idents = own.idents := by
  simp [idents, modify]

theorem Level.idents_setSingle (own : Level γ) (field : String) (e : Element γ) :
    (own.setSingle field e).idents = own.idents :=
  own.idents_modify field fun _ => .single e

theorem Layout.idents_fresh (custom : CustomTypes γ) (l : Layout) :
    (l.fresh custom).idents = l.idents := by
  simp [Level.idents, fresh, idents, Function.comp_def]

theorem Record.formed_fresh (custom : CustomTypes γ) (layouts : List Layout) :
    Formed layouts (fresh custom layouts) := by
  simp [Formed, idents, fresh, Layout.idents_fresh]

section Filling

variable (custom : CustomTypes γ) (types : TypeTable γ)

theorem Op.keeps_fillObject (field : String) :
    Keeps Level.idents (fillObject custom types field) := by
  intro s
  rw [stateAfter, fillObject]
  rcases s.value.get? field with - | ((- | v) | -)
  · rfl
  · rfl
  · exact keeps_within (fun own v => own.idents_setSingle field (.object v)) _ _ s
  · rfl

theorem Op.keeps_readOwn (op : Op) : Keeps Level.idents (readOwn custom types op) := by
  cases op with
  | readFlag field bit =>
    rw [readOwn]
    exact keeps_assign (fun own _ => own.idents_setSingle field _) _
  | readPrimitive field method p =>
    rw [readOwn]
    exact keeps_assign (fun own _ => own.idents_setSingle field _) _
  | readObject field t =>
    exact (keeps_change fun own => own.idents_setSingle field _).bind fun _ =>
      keeps_fillObject custom types field
  | readTypedObject field =>
    exact (keeps_assign (fun own _ => own.idents_setSingle field _) _).bind fun _ =>
      keeps_fillObject custom types field
  | readPrimitiveVector field method p =>
    exact keeps_extend (fun own _ => own.idents_modify field _) _
  | readObjectVector field t isOpen =>
    exact keeps_extend (fun own _ => own.idents_modify field _) _
  | _ => exact keeps_pure _

theorem Op.keeps_runRead {delegate : FillM (Record γ) Unit} (h : Keeps Record.idents delegate)
    (op : Op) : Keeps Record.idents (runRead custom types delegate op) := by
  intro ⟨r, c⟩
  cases r with
  | nil => rfl
  | cons own base =>
    have below := h.inside (own :: ·) Record.idents
      (fun _ _ same => congrArg (own.idents :: ·) same) ⟨own :: base, c⟩ base
    have above := (keeps_readOwn custom types op).inside (· :: base) Record.idents
      (fun _ _ same => congrArg (· :: Record.idents base) same) ⟨own :: base, c⟩ own
    cases op with
    | delegateParent => exact below
    | _ => exact above

/-- Filling keeps the form of a record, whether it succeeds or fails. -/
theorem Record.keeps_fill (layouts : List Layout) :
    Keeps idents (fill custom types layouts) := by
  induction layouts with
  | nil => exact keeps_pure _
  | cons l ls ih => exact keeps_forM _ (Op.keeps_runRead custom types ih)

end Filling

/-! ## Programs that reset -/

/-- A level whose fields are all set holds what they are set to. -/
theorem Level.foldl_set {fields others : List (String × FieldValue γ)}
    (same : others.map (·.1) = fields.map (·.1)) (done : List (String × FieldValue γ))
    (nodup : ((done ++ fields).map (·.1)).Nodup) :
    fields.foldl (fun own f => Level.set own f.1 f.2) ⟨done ++ others⟩ = ⟨done ++ fields⟩ := by
  induction fields generalizing others done with
  | nil => rw [List.map_eq_nil_iff.1 same, List.foldl_nil]
  | cons f fields ih =>
    obtain ⟨other, others, rfl, ident, rest⟩ := List.map_eq_cons_iff.1 same
    have alone : ∀ x ∈ done ++ others, x.1 ≠ f.1 := by
      rw [List.map_append, List.map_cons, ← rest, ← List.map_cons, ← List.map_append] at nodup
      exact forall_ne_of_nodup_map nodup
    have set : (⟨done ++ other :: others⟩ : Level γ).set f.1 f.2 = ⟨done ++ f :: others⟩ := by
      obtain ⟨_, v⟩ := other
      cases ident
      exact Hole.modify_plug ⟨done, f.1, others, alone⟩ v fun _ => f.2
    rw [List.foldl_cons, set, List.append_cons, ih rest (done ++ [f]) (by simpa using nodup),
      ← List.append_cons]

namespace Record

variable (custom : CustomTypes γ)

/-- Operations that set one field each act on the level above the base. -/
theorem foldl_runReset {delegate : Record γ → Record γ} {op : ι → Op}
    (field : ι → String × FieldValue γ)
    (step : ∀ i own base, (op i).runReset custom delegate (own :: base) =
      own.set (field i).1 (field i).2 :: base) (is : List ι) (own : Level γ) (base : Record γ) :
    (is.map op).foldl (fun r op => op.runReset custom delegate r) (own :: base) =
      (is.map field).foldl (fun own f => own.set f.1 f.2) own :: base := by
  induction is generalizing own with
  | nil => rfl
  | cons i is ih =>
    simp only [List.map_cons, List.foldl_cons]
    rw [step, ih]

/-- The program of a layout that resets sets the fields of the layout to their initial values and
leaves those below to the parent. -/
theorem reset_cons (l : Layout) (ls : List Layout) (own : Level γ) (base : Record γ) :
    reset custom (l :: ls) (own :: base) =
      (l.fresh custom).fields.foldl (fun own f => own.set f.1 f.2) own ::
        if l.parent.isSome then reset custom ls base else base := by
  have idle (ops : List Op) :
      (if ops.isEmpty then [.nop] else ops).foldl
          (fun r op => op.runReset custom (reset custom ls) r) (own :: base) =
        ops.foldl (fun r op => op.runReset custom (reset custom ls) r) (own :: base) := by
    cases ops <;> rfl
  have delegated : (if l.parent.isSome then [Op.delegateParent] else []).foldl
      (fun r op => op.runReset custom (reset custom ls) r) (own :: base) =
        own :: if l.parent.isSome then reset custom ls base else base := by
    split <;> rfl
  rw [reset, Layout.resetProgram, Layout.program, idle, List.foldl_append, List.foldl_append,
    delegated, Layout.fresh, List.foldl_append,
    foldl_runReset custom (fun f => (f.ident, .single (.scalar (.boolean false)))) fun _ _ _ => rfl,
    foldl_runReset custom (fun f => (f.ident, f.initial.value custom)) fun _ _ _ => rfl]

/-- A record with the fields of a lineage is reset to the default record. -/
theorem reset_of_formed {layouts : List Layout} (lineage : Layout.Lineage layouts) {r : Record γ}
    (formed : Formed layouts r) : reset custom layouts r = fresh custom layouts := by
  induction layouts generalizing r with
  | nil => exact List.map_eq_nil_iff.1 formed
  | cons l ls ih =>
    have last := lineage.eq_nil
    obtain ⟨sound, -, lineage⟩ := lineage
    obtain ⟨own, base, rfl, idents, formed⟩ := List.map_eq_cons_iff.1 formed
    have nodup : (l.fresh custom).idents.Nodup := l.idents_fresh custom ▸ sound.nodup
    have set : (l.fresh custom).fields.foldl (fun own f => own.set f.1 f.2) own = l.fresh custom :=
      Level.foldl_set (idents.trans (l.idents_fresh custom).symm) [] nodup
    have below : (if l.parent.isSome then reset custom ls base else base) = fresh custom ls := by
      split_ifs with inherits
      · exact ih lineage formed
      · obtain rfl := last inherits
        exact List.map_eq_nil_iff.1 formed
    rw [reset_cons, below, set]
    rfl

end Record

/-! ## Rendered programs -/

namespace Source

/-- The fields that a layout adds, with the expressions of their initial values. -/
def initTexts (l : Layout) : List (String × String) :=
  l.flags.map (fun f => (f.ident, "false")) ++
    l.fields.map fun f => (f.ident, initialText f.initial)

/-- The lines of a struct expression with these values, on the default value of the parent. -/
def initLines (l : Layout) : List Line :=
  (l.parent.toList.map fun p => .outer (baseField ++ ": " ++ p.name ++ "::default(),")) ++
    (initTexts l).map fun (field, text) => .outer (field ++ ": " ++ text ++ ",")

/-- The statements that assign these values, once the parent is reset. -/
def assignLines (l : Layout) : List Line :=
  (l.parent.toList.map fun _ => .outer (fieldText baseField ++ ".reset();")) ++
    (initTexts l).map fun (field, text) => .outer (fieldText field ++ " = " ++ text ++ ";")

/-- The rendered default value and the rendered function that resets give each field the same
expression, in the same order, and leave the fields of the parent to the parent's. -/
structure ResetsToDefault (m : MessageDecl) (l : Layout) : Prop where
  idents : (initTexts l).map (·.1) = l.idents
  default : defaultLines m l =
    block ("impl Default for " ++ m.name ++ " \x7b")
      (block "fn default() -> Self \x7b"
        (if l.isEmpty then [.outer "Self \x7b\x7d"] else block "Self \x7b" (initLines l) "\x7d")
        "\x7d")
      "\x7d"
  reset : resetFunction l.resetProgram =
    if l.isEmpty then [.outer "fn reset(&mut self) \x7b\x7d"]
    else block "fn reset(&mut self) \x7b" (assignLines l) "\x7d"

theorem isIdle_resetProgram (l : Layout) : isIdle l.resetProgram = l.isEmpty := by
  obtain ⟨parent, flags, fields, imports⟩ := l
  cases parent <;> cases flags <;> cases fields <;> rfl

theorem flatMap_resetProgram (l : Layout) : l.resetProgram.flatMap resetLines = assignLines l := by
  have flag (field : String) : field ++ " = false;" = field ++ " = " ++ "false" ++ ";" := by
    simp [String.append_assoc]
  rw [Layout.resetProgram, Layout.flatMap_program rfl]
  cases parent : l.parent <;>
    simp [assignLines, parent, initTexts, resetLines, flag, ← List.map_eq_flatMap,
      Function.comp_def]

theorem resetsToDefault (m : MessageDecl) (l : Layout) : ResetsToDefault m l where
  idents := by simp [initTexts, Layout.idents, Function.comp_def]
  default := by
    have flag (field : String) : field ++ ": false," = field ++ ": " ++ "false" ++ "," := by
      simp [String.append_assoc]
    simp [defaultLines, initLines, initTexts, flag, Function.comp_def]
  reset := by rw [resetFunction, isIdle_resetProgram, flatMap_resetProgram]

end Source

/-! ## Resetting before filling -/

namespace Game

theorem Entity.reset_eq (e : Entity) : e.reset = e.kind.fresh := by
  cases e <;> rfl

theorem Message.reset_eq (m : Message) : m.reset = m.kind.fresh := by
  cases m <;> rfl

end Game

open Game in
/-- Each message of a schema that can be generated is reset to its default, from any record that has
the fields of its lineage, and each of the value types and messages of the game likewise. The
default record is one of those records, and filling leaves them among themselves, even if it fails.
So a value that was reset is filled as a fresh one is. In the rendered module, the default value and
the function that resets assign the same expressions. -/
theorem reset_eq_fresh :
    (∀ (s : Schema) (settings : Settings) (o : Output), s.generate settings = .ok o →
      ∀ m ∈ s.messages, ∃ l ls, Layout.plan s m = .ok l ∧ s.lineage m = .ok (l :: ls) ∧
        Source.ResetsToDefault m l ∧
        ∀ (γ : Type) (custom : CustomTypes γ),
          Record.Formed (l :: ls) (Record.fresh custom (l :: ls)) ∧
          ∀ r : Record γ, Record.Formed (l :: ls) r →
            Record.reset custom (l :: ls) r = Record.fresh custom (l :: ls) ∧
            ∀ (types : TypeTable γ) (c : Cursor),
              Record.Formed (l :: ls)
                (stateAfter (Record.fill custom types (l :: ls)) ⟨r, c⟩).value ∧
              Record.fill custom types (l :: ls) ⟨Record.reset custom (l :: ls) r, c⟩ =
                Record.fill custom types (l :: ls) ⟨Record.fresh custom (l :: ls), c⟩) ∧
    (∀ e : Entity, e.reset = e.kind.fresh ∧
      ∀ c, Entity.fill ⟨e.reset, c⟩ = Entity.fill ⟨e.kind.fresh, c⟩) ∧
    ∀ m : Message, m.reset = m.kind.fresh ∧
      ∀ types c, Message.fill types ⟨m.reset, c⟩ = Message.fill types ⟨m.kind.fresh, c⟩ := by
  refine ⟨fun s settings o generated m hm => ?_, fun e => ⟨e.reset_eq, fun c => by rw [e.reset_eq]⟩,
    fun m => ⟨m.reset_eq, fun types c => by rw [m.reset_eq]⟩⟩
  obtain ⟨l, ls, planned, found, lineage⟩ := Schema.exists_lineage_of_generate generated hm
  refine ⟨l, ls, planned, found, Source.resetsToDefault m l, fun γ custom =>
    ⟨Record.formed_fresh custom _, fun r formed => ?_⟩⟩
  have reset := Record.reset_of_formed custom lineage formed
  exact ⟨reset, fun types c =>
    ⟨(Record.keeps_fill custom types _ ⟨r, c⟩).trans formed, by rw [reset]⟩⟩

open Game in
/-- A speech whose filling broke off is reset to silence at no volume. -/
theorem reset_eq_fresh_speech :
    ∃ layouts, speechSchema.lineage speechMessage = .ok layouts ∧
      ∀ c, Record.reset valueTypes layouts
          (stateAfter (Record.fill valueTypes Entity.types layouts)
            ⟨speech ⟨0x3FF8000000000000⟩, c⟩).value =
        [⟨[("words", .sequence #[]), ("place", .single (.object (.point {})))]⟩,
          ⟨[("muted", .single (.scalar (.boolean false))),
            ("volume", .single (.scalar (.number {})))]⟩] := by
  obtain ⟨o, generated⟩ := exists_of_isOk (x := speechSchema.generate {}) (by decide +kernel)
  obtain ⟨l, ls, -, found, -, resets⟩ :=
    reset_eq_fresh.1 speechSchema {} o generated speechMessage (by decide)
  have lineage : (speechSchema.lineage speechMessage).toOption = some speechLayouts := by
    decide +kernel
  rw [found] at lineage
  injection lineage with lineage
  rw [lineage] at resets found
  refine ⟨_, found, fun c => ?_⟩
  obtain ⟨-, fromFormed⟩ := resets Entity valueTypes
  obtain ⟨-, filled⟩ := fromFormed (speech ⟨0x3FF8000000000000⟩) rfl
  obtain ⟨silence, -⟩ := fromFormed _ (filled Entity.types c).1
  exact silence

end WireCodec
