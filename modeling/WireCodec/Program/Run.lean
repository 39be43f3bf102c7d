import WireCodec.Program.Basic
import WireCodec.Program.Record

/-!
# Running programs

What the programs of a message do to a record of it. A message runs the programs of its own layout
on its own fields; where they delegate, the programs of the parent run on the fields below.
-/

namespace WireCodec

variable {γ : Type} (custom : CustomTypes γ)

namespace Op

/-! ## Operations -/

/-- Resets what an operation concerns; `delegate` resets the fields of the parent. -/
def runReset (delegate : Record γ → Record γ) (op : Op) : Record γ → Record γ
  | [] => []
  | own :: base =>
    match op with
    | delegateParent => own :: delegate base
    | resetFlag field => own.setSingle field (.scalar (.boolean false)) :: base
    | resetField field initial => own.set field (initial.value custom) :: base
    | _ => own :: base

/-- Writes an element of a primitive type. -/
def writeScalar (method : Method) : Element γ → WriteM Unit
  | .scalar v => method.write v
  | .object _ => pure ()

/-- Writes an element of a custom type, behind its type id if the type is open. -/
def writeCustom (isOpen : Bool) : Element γ → WriteM Unit
  | .object v => do
    if isOpen then writeUnsignedShort (custom.typeId v)
    custom.write v
  | .scalar _ => pure ()

/-- Writes a field of one element. -/
def writeSingle (write : Element γ → WriteM Unit) (own : Level γ) (field : String) : WriteM Unit :=
  match own.get? field with
  | some (.single e) => write e
  | _ => pure ()

/-- Writes a field that is a sequence. -/
def writeMany (write : Element γ → WriteM Unit) (own : Level γ) (field : String) : WriteM Unit :=
  match own.get? field with
  | some (.sequence es) => writeSequence write es
  | _ => pure ()

/-- Writes what an operation concerns; `delegate` writes the fields of the parent. -/
def runWrite (delegate : WriteM Unit) (own : Level γ) : Op → WriteM Unit
  | delegateParent => delegate
  | writeFlag field bit =>
    writeSingle (fun
      | .scalar v => WireCodec.writeFlag bit v.toBoolean
      | .object _ => pure ()) own field
  | writePrimitive field method _ => writeSingle (writeScalar method) own field
  | writeObject field => writeSingle (writeCustom custom false) own field
  | writeTypedObject field => writeSingle (writeCustom custom true) own field
  | writePrimitiveVector field method _ => writeMany (writeScalar method) own field
  | writeObjectVector field isOpen => writeMany (writeCustom custom isOpen) own field
  | _ => pure ()

theorem runWrite_nop (delegate : WriteM Unit) (own : Level γ) :
    runWrite custom delegate own .nop = pure () := by
  simp only [runWrite]

/-- Fills an object where it stands. -/
def fillObject (types : TypeTable γ) (field : String) : FillM (Level γ) Unit := fun s =>
  match s.value.get? field with
  | some (.single (.object v)) =>
    FillM.within (fun _ => v) (fun own v => own.setSingle field (.object v)) (custom.fill types) s
  | _ => .ok () s

/-- Reads what an operation concerns into the fields of the same layout. -/
def readOwn (types : TypeTable γ) : Op → FillM (Level γ) Unit
  | readFlag field bit =>
    .assign (fun own b => own.setSingle field (.scalar (.boolean b))) (WireCodec.readFlag bit)
  | readPrimitive field method p =>
    .assign (fun own v => own.setSingle field (.scalar v)) (method.read p)
  | readObject field t => do
    .change (fun own => own.setSingle field (.object (custom.fresh t)))
    fillObject custom types field
  | readTypedObject field => do
    .assign (fun own v => own.setSingle field (.object v)) types.readInstance
    fillObject custom types field
  | readPrimitiveVector field method p =>
    .extend (fun own v => own.modify field (·.push (.scalar v))) (method.read p)
  | readObjectVector field t isOpen =>
    .extend (fun own v => own.modify field (·.push (.object v)))
      (if isOpen then types.readValue (custom.fill types)
      else FillM.fresh (custom.fresh t) (custom.fill types))
  | _ => pure ()

/-- Reads what an operation concerns; `delegate` reads the fields of the parent. -/
def runRead (types : TypeTable γ) (delegate : FillM (Record γ) Unit) (op : Op) :
    FillM (Record γ) Unit := fun s =>
  match s.value with
  | [] => .ok () s
  | own :: base =>
    match op with
    | delegateParent => FillM.inside (own :: ·) base delegate s
    | op => FillM.inside (· :: base) own (readOwn custom types op) s

end Op

namespace Record

/-! ## Messages, by the layouts of a message and of its ancestors -/

/-- Resets a record. -/
def reset : List Layout → Record γ → Record γ
  | [], r => r
  | l :: ls, r => l.resetProgram.foldl (fun r op => op.runReset custom (reset ls) r) r

/-- Writes a record. -/
def write : List Layout → Record γ → WriteM Unit
  | l :: ls, own :: base => l.writeProgram.forM (Op.runWrite custom (write ls base) own)
  | _, _ => pure ()

/-- Fills a record. -/
def fill (types : TypeTable γ) : List Layout → FillM (Record γ) Unit
  | [] => pure ()
  | l :: ls => l.readProgram.forM (Op.runRead custom types (fill types ls))

end Record

/-- The layouts of a message and of its ancestors, the nearest first. -/
def Schema.lineage (s : Schema) (m : MessageDecl) : Except SchemaError (List Layout) := do
  (m :: (← s.ancestors m)).mapM (Layout.plan s)

end WireCodec
