import WireCodec.Proofs.Resetting

/-!
# Fillings that mirror each other

A message can be represented by a record of its fields. A filling of representations mirrors one of
values if it ends in the same way at the same place and leaves the representation of what the other
one leaves, even if it fails. Operations of a program mirror the actions by which a message reads
its own fields, and so do whole programs.
-/

namespace WireCodec

variable {α β γ κ ρ σ τ : Type}

/-- The outcome of a filling in terms of representations. -/
def represented (embed : σ → ρ) :
    EStateM.Result Fault (Filling σ) Unit → EStateM.Result Fault (Filling ρ) Unit
  | .ok a s => .ok a ⟨embed s.value, s.cursor⟩
  | .error e s => .error e ⟨embed s.value, s.cursor⟩

/-- On the representation of a value, the second filling does what the first one does on it. -/
def Mirrors (embed : σ → ρ) (f : FillM σ Unit) (g : FillM ρ Unit) : Prop :=
  ∀ v c, g ⟨embed v, c⟩ = represented embed (f ⟨v, c⟩)

theorem inside_eq_represented (wrap : τ → σ) (v : τ) (f : FillM τ Unit) (s : Filling σ) :
    FillM.inside wrap v f s = represented wrap (f ⟨v, s.cursor⟩) := by
  rw [FillM.inside, FillM.within]
  cases f ⟨v, s.cursor⟩ <;> rfl

/-! ## Combinators -/

section Rules

variable {embed : σ → ρ} {f f' : FillM σ Unit} {g g' : FillM ρ Unit}

theorem mirrors_pure : Mirrors embed (pure ()) (pure ()) := fun _ _ => rfl

theorem Mirrors.bind (h : Mirrors embed f g) (h' : Mirrors embed f' g') :
    Mirrors embed (f >>= fun _ => f') (g >>= fun _ => g') := by
  intro v c
  have first := h v c
  cases run : f ⟨v, c⟩ with
  | ok a s =>
    rw [run] at first
    rw [bind_of_ok run, bind_of_ok first]
    exact h' s.value s.cursor
  | error e s =>
    rw [run] at first
    rw [bind_of_error run, bind_of_error first]
    rfl

/-- What is read may be represented as well. -/
theorem mirrors_assign {read : ReadM α} {read' : ReadM β} {store : σ → α → σ} {store' : ρ → β → ρ}
    {cast : α → β} (reads : read' = cast <$> read)
    (stores : ∀ v a, embed (store v a) = store' (embed v) (cast a)) :
    Mirrors embed (.assign store read) (.assign store' read') := by
  intro v c
  have ran : read' c = EStateM.map cast read c := congrFun reads c
  rw [FillM.assign, FillM.assign, ran, EStateM.map]
  cases read c with
  | ok a c' => simp only [represented, stores]
  | error e c' => rfl

theorem mirrors_change {change : σ → σ} {change' : ρ → ρ}
    (h : ∀ v, embed (change v) = change' (embed v)) :
    Mirrors embed (.change change) (.change change') := by
  intro v c
  simp only [FillM.change, represented, h]

/-- What a constructor wraps is filled as the representation of the whole. -/
theorem Mirrors.inside (embed : σ → ρ) (wrap : τ → σ) {fill : FillM τ Unit} {fill' : FillM ρ Unit}
    (h : Mirrors (fun u => embed (wrap u)) fill fill') (u : τ) (s : Filling σ) :
    fill' ⟨embed (wrap u), s.cursor⟩ = represented embed (FillM.inside wrap u fill s) := by
  rw [h u s.cursor, inside_eq_represented]
  cases fill ⟨u, s.cursor⟩ <;> rfl

variable (embed) in
/-- A part is filled as the representation that stands for it. -/
theorem Mirrors.within {inner : τ → κ} {fill : FillM τ Unit} {fill' : FillM κ Unit}
    (h : Mirrors inner fill fill') {part : σ → τ} {store : σ → τ → σ} {part' : ρ → κ}
    {store' : ρ → κ → ρ} {v : σ} {c : Cursor} (stands : part' (embed v) = inner (part v))
    (stores : ∀ u, embed (store v u) = store' (embed v) (inner u)) :
    FillM.within part' store' fill' ⟨embed v, c⟩ =
      represented embed (FillM.within part store fill ⟨v, c⟩) := by
  have filled := h (part v) c
  rw [FillM.within, FillM.within, stands, filled]
  cases fill ⟨part v, c⟩ <;> simp only [represented, stores]

theorem Mirrors.times (h : Mirrors embed f g) (n : Nat) :
    Mirrors embed (f.times n) (g.times n) := by
  induction n with
  | zero => exact mirrors_pure
  | succ n ih => exact h.bind ih

theorem mirrors_extend {read : ReadM α} {read' : ReadM β} {push : σ → α → σ} {push' : ρ → β → ρ}
    {cast : α → β} (reads : read' = cast <$> read)
    (pushes : ∀ v a, embed (push v a) = push' (embed v) (cast a)) :
    Mirrors embed (.extend push read) (.extend push' read') := by
  intro v c
  show EStateM.bind (FillM.reading readCount) _ _ =
    represented embed (EStateM.bind (FillM.reading readCount) _ _)
  rw [EStateM.bind, EStateM.bind, FillM.reading, FillM.reading]
  cases readCount c with
  | ok n c' => exact (mirrors_assign reads pushes).times n v c'
  | error e c' => rfl

/-- The representation of a value that is filled is filled itself. -/
theorem Mirrors.fresh (h : Mirrors embed f g) (start : σ) :
    FillM.fresh (embed start) g = embed <$> FillM.fresh start f := by
  funext c
  have filled := h start c
  show _ = EStateM.map embed (FillM.fresh start f) c
  rw [EStateM.map, FillM.fresh, FillM.fresh, filled]
  cases f ⟨start, c⟩ <;> rfl

end Rules

/-! ## Operations on the fields of a message -/

section Operations

variable {custom : CustomTypes γ} {types : TypeTable γ} {own : σ → Level γ} {f f' : FillM σ Unit}

/-- A read of a method is the read behind it, cast. -/
theorem Method.read_eq {m : Method} {read : ReadM α} {make : α → Item}
    (h : m.shape.read = make <$> read) (p : Primitive) :
    m.read p = (fun a => (make a).cast p) <$> read := by
  rw [Method.read, h, ← comp_map]
  rfl

theorem mirrors_readFlag {field : String} {bit : UInt8} {store : σ → Bool → σ}
    (stores : ∀ v b, own (store v b) = (own v).setSingle field (.scalar (.boolean b))) :
    Mirrors own (.assign store (readFlag bit)) (Op.readOwn custom types (.readFlag field bit)) := by
  rw [Op.readOwn]
  exact mirrors_assign (id_map _).symm stores

theorem mirrors_readPrimitive {m : Method} {p : Primitive} {read : ReadM α} {make : α → Item}
    (h : m.shape.read = make <$> read) {field : String} {store : σ → α → σ}
    (stores : ∀ v a, own (store v a) = (own v).setSingle field (.scalar ((make a).cast p))) :
    Mirrors own (.assign store read) (Op.readOwn custom types (.readPrimitive field m p)) := by
  rw [Op.readOwn]
  exact mirrors_assign (Method.read_eq h p) stores

theorem mirrors_readPrimitiveVector {m : Method} {p : Primitive} {read : ReadM α} {make : α → Item}
    (h : m.shape.read = make <$> read) {field : String} {push : σ → α → σ}
    (pushes : ∀ v a,
      own (push v a) = (own v).modify field (·.push (.scalar ((make a).cast p)))) :
    Mirrors own (.extend push read) (Op.readOwn custom types (.readPrimitiveVector field m p)) := by
  rw [Op.readOwn]
  exact mirrors_extend (Method.read_eq h p) pushes

theorem mirrors_readTypedVector {field : String} {t : TypeRef} {push : σ → γ → σ}
    (pushes : ∀ v u, own (push v u) = (own v).modify field (·.push (.object u))) :
    Mirrors own (.extend push (types.readValue (custom.fill types)))
      (Op.readOwn custom types (.readObjectVector field t true)) := by
  rw [Op.readOwn, if_pos rfl]
  exact mirrors_extend (id_map _).symm pushes

theorem mirrors_readObjectVector {wrap : τ → γ} {fill : FillM τ Unit}
    (h : Mirrors wrap fill (custom.fill types)) {field : String} {t : TypeRef} {start : τ}
    (starts : custom.fresh t = wrap start) {push : σ → τ → σ}
    (pushes : ∀ v u, own (push v u) = (own v).modify field (·.push (.object (wrap u)))) :
    Mirrors own (.extend push (FillM.fresh start fill))
      (Op.readOwn custom types (.readObjectVector field t false)) := by
  rw [Op.readOwn, if_neg Bool.false_ne_true, starts]
  exact mirrors_extend (h.fresh start) pushes

theorem mirrors_fillObject {wrap : τ → γ} {fill : FillM τ Unit}
    (h : Mirrors wrap fill (custom.fill types)) {field : String} {part : σ → τ} {store : σ → τ → σ}
    (stands : ∀ v, (own v).get? field = some (.single (.object (wrap (part v)))))
    (stores : ∀ v u, own (store v u) = (own v).setSingle field (.object (wrap u))) :
    Mirrors own (.within part store fill) (Op.fillObject custom types field) := by
  intro v c
  have stood : Op.fillObject custom types field ⟨own v, c⟩ =
      FillM.within (fun _ => wrap (part v)) (fun l u => l.setSingle field (.object u))
        (custom.fill types) ⟨own v, c⟩ := by
    rw [Op.fillObject, stands]
  rw [stood]
  exact h.within own rfl (stores v)

/-- An object is replaced by a default value before it is filled. -/
theorem mirrors_readObject {field : String} {t : TypeRef} {start : σ → σ}
    (starts : ∀ v, own (start v) = (own v).setSingle field (.object (custom.fresh t)))
    (filled : Mirrors own f (Op.fillObject custom types field)) :
    Mirrors own (.change start >>= fun _ => f) (Op.readOwn custom types (.readObject field t)) :=
  (mirrors_change starts).bind filled

/-- An object of open type is replaced by one of the type whose id is read, and that is filled. -/
theorem mirrors_readTypedObject {field : String} {store : σ → γ → σ}
    (stores : ∀ v u, own (store v u) = (own v).setSingle field (.object u))
    (filled : Mirrors own f (Op.fillObject custom types field)) :
    Mirrors own (.assign store types.readInstance >>= fun _ => f)
      (Op.readOwn custom types (.readTypedObject field)) :=
  (mirrors_assign (id_map _).symm stores).bind filled

theorem mirrors_program_cons {ops : List Op} {op : Op}
    (h : Mirrors own f (op.readOwn custom types))
    (h' : Mirrors own f' (ops.forM (Op.readOwn custom types))) :
    Mirrors own (f >>= fun _ => f') ((op :: ops).forM (Op.readOwn custom types)) :=
  h.bind h'

/-- An operation that takes two actions. -/
theorem mirrors_program_cons₂ {ops : List Op} {op : Op} {f₁ f₂ : FillM σ Unit}
    (h : Mirrors own (f₁ >>= fun _ => f₂) (op.readOwn custom types))
    (h' : Mirrors own f' (ops.forM (Op.readOwn custom types))) :
    Mirrors own (f₁ >>= fun _ => f₂ >>= fun _ => f')
      ((op :: ops).forM (Op.readOwn custom types)) := by
  rw [← bind_assoc]
  exact mirrors_program_cons h h'

theorem mirrors_program_last {op : Op} (h : Mirrors own f (op.readOwn custom types)) :
    Mirrors own f ([op].forM (Op.readOwn custom types)) := by
  have program := h.bind mirrors_pure
  rwa [bind_pure] at program

end Operations

/-! ## Messages -/

section Messages

variable {custom : CustomTypes γ} {types : TypeTable γ}

/-- A program without a delegation acts on the fields of its own layout. -/
theorem forM_runRead {delegate : FillM (Record γ) Unit} {ops : List Op}
    (ownOps : .delegateParent ∉ ops) (own : Level γ) (base : Record γ) (c : Cursor) :
    ops.forM (Op.runRead custom types delegate) ⟨own :: base, c⟩ =
      FillM.inside (· :: base) own (ops.forM (Op.readOwn custom types)) ⟨own :: base, c⟩ := by
  induction ops generalizing own c with
  | nil => rfl
  | cons op ops ih =>
    obtain ⟨first, rest⟩ := not_or.1 (List.mem_cons.not.1 ownOps)
    have step : op.runRead custom types delegate ⟨own :: base, c⟩ =
        FillM.inside (· :: base) own (op.readOwn custom types) ⟨own :: base, c⟩ := by
      cases op <;> first | rfl | exact absurd rfl first
    show (op.runRead custom types delegate >>= fun _ => ops.forM _) _ =
      FillM.within _ _ (op.readOwn custom types >>= fun _ => ops.forM _) _
    rw [FillM.within]
    rw [FillM.inside, FillM.within] at step
    cases run : op.readOwn custom types ⟨own, c⟩ with
    | ok a s =>
      rw [run] at step
      rw [bind_of_ok step, bind_of_ok run]
      exact ih rest s.value s.cursor
    | error e s =>
      rw [run] at step
      rw [bind_of_error step, bind_of_error run]

variable {own : σ → Level γ} {f : FillM σ Unit} {l : Layout}

/-- A program on the fields of a message leaves those of the parent. -/
theorem Mirrors.level {below : σ → Record γ} {delegate : FillM (Record γ) Unit} {ops : List Op}
    (h : Mirrors own f (ops.forM (Op.readOwn custom types))) (kept : Keeps below f)
    (ownOps : .delegateParent ∉ ops) :
    Mirrors (fun v => own v :: below v) f (ops.forM (Op.runRead custom types delegate)) := by
  intro v c
  have same := kept ⟨v, c⟩
  rw [forM_runRead ownOps, FillM.inside, FillM.within, h v c]
  cases run : f ⟨v, c⟩ with
  | ok a s =>
    rw [stateAfter_of_ok run] at same
    simp only [represented, same]
  | error e s =>
    rw [stateAfter_of_error run] at same
    simp only [represented, same]

/-- A message without a parent has the fields of its layout only. -/
theorem Mirrors.root (h : Mirrors own f (l.readProgram.forM (Op.readOwn custom types)))
    (ownOps : .delegateParent ∉ l.readProgram) :
    Mirrors (fun v => [own v]) f (Record.fill custom types [l]) :=
  h.level (fun _ => rfl) ownOps

/-- A message with a parent fills that first, and then its own fields. -/
theorem Mirrors.child {below : τ → Record γ} {fill : FillM τ Unit} {ls : List Layout}
    {ops : List Op} (parent : Mirrors below fill (Record.fill custom types ls))
    (h : Mirrors own f (ops.forM (Op.readOwn custom types)))
    (program : l.readProgram = .delegateParent :: ops) (ownOps : .delegateParent ∉ ops)
    {base : σ → τ} {store : σ → τ → σ} (kept : Keeps base f) (stored : ∀ v u, base (store v u) = u)
    (same : ∀ v u, own (store v u) = own v) :
    Mirrors (fun v => own v :: below (base v)) (.within base store fill >>= fun _ => f)
      (Record.fill custom types (l :: ls)) := by
  have delegated : Mirrors (fun v => own v :: below (base v)) (.within base store fill)
      (Op.runRead custom types (Record.fill custom types ls) .delegateParent) := by
    intro v c
    have stores : ∀ u, own (store v u) :: below (base (store v u)) = own v :: below u := by
      simp only [stored, same, implies_true]
    show FillM.within (fun _ => below (base v)) (fun _ r => own v :: r)
      (Record.fill custom types ls) ⟨own v :: below (base v), c⟩ = _
    exact parent.within (fun v => own v :: below (base v)) rfl stores
  have keptBelow : Keeps (below ∘ base) f := fun s => congrArg below (kept s)
  rw [Record.fill, program]
  exact delegated.bind (h.level keptBelow ownOps)

end Messages

end WireCodec
