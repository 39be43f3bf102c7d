import WireCodec.Proofs.DispatchTables
import WireCodec.Proofs.Truncation

/-!
# Frames

The frame of a packet decides what is decoded: first whether it is there as a whole, then whether
its id is registered, and then the payload by itself. What follows the frame plays no part, not even
when a message wants more bytes than its payload has.
-/

namespace WireCodec

/-! ## Frames -/

/-- The frame of a payload: two bytes for the id and the number of length bytes, the length and the
payload. The length may take more bytes than it needs. -/
inductive IsFrame (id : UInt16) (payload : List UInt8) : List UInt8 → Prop
  | mk {word digits : List UInt8} (two : word.length = 2) (own : ofBigEndian word / 4 = id.toNat)
    (count : digits.length = ofBigEndian word % 4) (length : ofBigEndian digits = payload.length) :
    IsFrame id payload (word ++ digits ++ payload)

section Reading

variable {word digits payload frame : List UInt8} {id : UInt16}

theorem reads_takeNat_of_length {k : Nat} (h : digits.length = k) :
    Reads (takeNat k) digits (ofBigEndian digits) := by
  subst h
  exact (reads_take digits).map ofBigEndian

theorem reads_readUnsignedShort_of_length (two : word.length = 2) :
    Reads readUnsignedShort word (.ofNat (ofBigEndian word)) :=
  (reads_takeNat_of_length two).map _

theorem toNat_word (two : word.length = 2) :
    (UInt16.ofNat (ofBigEndian word)).toNat = ofBigEndian word := by
  have small := ofBigEndian_lt word
  rw [two] at small
  exact UInt16.toNat_ofNat_of_lt' small

/-- A header is read whether or not its length takes more bytes than it needs. -/
theorem reads_readHeader_of_length (two : word.length = 2)
    (own : ofBigEndian word / 4 = id.toNat) (count : digits.length = ofBigEndian word % 4) :
    Reads readHeader (word ++ digits) ⟨id, ofBigEndian digits⟩ := by
  have low : UInt16.ofNat (ofBigEndian word) &&& 3 = .ofNat digits.length := by
    apply UInt16.toNat_inj.1
    rw [UInt16.toNat_and, toNat_word two, UInt16.toNat_ofNat', count]
    show ofBigEndian word &&& (2 ^ 2 - 1) = _
    rw [Nat.and_two_pow_sub_one_eq_mod]
    omega
  have high : UInt16.ofNat (ofBigEndian word) >>> 2 = id := by
    apply UInt16.toNat_inj.1
    rw [UInt16.toNat_shiftRight, toNat_word two]
    show ofBigEndian word >>> 2 = _
    rw [Nat.shiftRight_eq_div_pow]
    exact own
  unfold readHeader
  apply (reads_readUnsignedShort_of_length two).bind
  rw [low, high]
  have few : digits.length < 4 := count ▸ Nat.mod_lt _ (by decide)
  match digits with
  | [] => exact reads_pure _
  | [a] =>
    have value : ofBigEndian [a] = a.toNat := by simp [ofBigEndian]
    rw [value]
    exact ((reads_takeByte a).map UInt8.toNat).bind_nil (reads_pure _)
  | [a, b] =>
    have two : [a, b].length = 2 := rfl
    have length := (reads_readUnsignedShort_of_length two).map UInt16.toNat
    rw [toNat_word two] at length
    exact length.bind_nil (reads_pure _)
  | [a, b, c] =>
    have value : a.toNat * 65536 + ofBigEndian [b, c] = ofBigEndian [a, b, c] := by
      simp [ofBigEndian]
      omega
    have two : [b, c].length = 2 := rfl
    refine (reads_takeByte a).bind ((reads_readUnsignedShort_of_length two).bind_nil ?_)
    rw [toNat_word two, value]
    exact reads_pure _

theorem IsFrame.reads_readPacket (h : IsFrame id payload frame) :
    Reads readPacket frame (id, payload) := by
  obtain ⟨two, own, count, length⟩ := h
  refine (reads_readHeader_of_length two own count).bind ?_
  rw [length]
  exact (reads_take payload).bind_nil (reads_pure _)

end Reading

/-- Bytes hold so many or lack some to be just so many. -/
theorem exists_length_or (k : Nat) (bytes : List UInt8) :
    (∃ xs rest, xs.length = k ∧ bytes = xs ++ rest) ∨
      ∃ more, more ≠ [] ∧ (bytes ++ more).length = k := by
  by_cases enough : k ≤ bytes.length
  · exact .inl ⟨bytes.take k, bytes.drop k, List.length_take_of_le enough,
      (List.take_append_drop k bytes).symm⟩
  · refine .inr ⟨List.replicate (k - bytes.length) 0, ?_, ?_⟩
    · exact List.length_pos_iff.1 (by rw [List.length_replicate]; omega)
    · rw [List.length_append, List.length_replicate]
      omega

theorem exists_id_of_length {word : List UInt8} (two : word.length = 2) :
    ∃ id : UInt16, ofBigEndian word / 4 = id.toNat := by
  have small := ofBigEndian_lt word
  rw [two] at small
  refine ⟨.ofNat (ofBigEndian word / 4), (UInt16.toNat_ofNat_of_lt' ?_).symm⟩
  exact Nat.lt_of_le_of_lt (Nat.div_le_self _ 4) small

/-- Bytes start with a frame or are a proper part of one. -/
theorem exists_isFrame_or (bytes : List UInt8) :
    (∃ id payload frame rest, IsFrame id payload frame ∧ bytes = frame ++ rest) ∨
      ∃ more, more ≠ [] ∧ ∃ id payload, IsFrame id payload (bytes ++ more) := by
  let zeros (n : Nat) : List UInt8 := List.replicate n 0
  have zeros_length (n : Nat) : (zeros n).length = n := List.length_replicate
  rcases exists_length_or 2 bytes with ⟨word, rest, two, rfl⟩ | ⟨more, lacks, two⟩
  · obtain ⟨id, own⟩ := exists_id_of_length two
    rcases exists_length_or (ofBigEndian word % 4) rest with
      ⟨digits, rest, count, rfl⟩ | ⟨more, lacks, count⟩
    · rcases exists_length_or (ofBigEndian digits) rest with
        ⟨payload, rest, length, rfl⟩ | ⟨more, lacks, length⟩
      · exact .inl ⟨id, payload, _, rest, .mk two own count length.symm, by simp⟩
      · refine .inr ⟨more, lacks, id, rest ++ more, ?_⟩
        simpa using IsFrame.mk two own count length.symm
    · let payload := zeros (ofBigEndian (rest ++ more))
      refine .inr ⟨more ++ payload, by simp [lacks], id, payload, ?_⟩
      simpa using IsFrame.mk two own count (zeros_length _).symm
  · obtain ⟨id, own⟩ := exists_id_of_length two
    let digits := zeros (ofBigEndian (bytes ++ more) % 4)
    let payload := zeros (ofBigEndian digits)
    refine .inr ⟨more ++ digits ++ payload, by simp [lacks], id, payload, ?_⟩
    simpa using IsFrame.mk two own (zeros_length _) (zeros_length _).symm

/-- Bytes that do not start with a frame lack some of one. -/
theorem readPacket_of_not_isFrame {bytes : List UInt8}
    (none : ∀ id payload frame rest, IsFrame id payload frame → bytes ≠ frame ++ rest) :
    ∃ n c, readPacket (.start bytes) = .error (.unexpectedEnd n) c := by
  rcases exists_isFrame_or bytes with
    ⟨id, payload, frame, rest, isFrame, rfl⟩ | ⟨more, lacks, id, payload, isFrame⟩
  · exact absurd rfl (none id payload frame rest isFrame)
  · have whole := isFrame.reads_readPacket 0 []
    rw [List.append_nil] at whole
    obtain ⟨n, c, cut, -⟩ := forward_readPacket.toIncremental.shortage
      (show readPacket (feed (.start bytes) more) = _ from whole) rfl lacks
    exact ⟨n, c, cut⟩

/-! ## Messages that want more -/

theorem Cursor.Passes.position_le_limit {c c' : Cursor} {xs : List UInt8} (h : c.Passes xs c') :
    c'.position ≤ c.limit := by
  rw [h.2, Cursor.limit, Cursor.remaining, h.1, List.length_append]
  omega

/-- An action that goes beyond the end of a part of the input lacks bytes in that part. -/
theorem Forward.shortage_of_beyond {σ α : Type} {r : EStateM Fault (Filling σ) α} (h : Forward r)
    {s : Filling σ} {more : List UInt8}
    (beyond : s.cursor.limit < (stateAfter r (feed s more)).cursor.position) :
    ∃ n d, r s = .error (.unexpectedEnd n) d := by
  obtain ⟨xs, moved⟩ := h.moves s
  cases run : r s with
  | ok a d =>
    rw [stateAfter_of_ok run] at moved
    rw [stateAfter_of_ok (h.ok run more)] at beyond
    exact absurd moved.position_le_limit (Nat.not_le.2 beyond)
  | error e d =>
    cases left : e.fed more.length with
    | none =>
      obtain ⟨n, rfl, -⟩ := Fault.fed_eq_none.1 left
      exact ⟨n, d, rfl⟩
    | some e' =>
      rw [stateAfter_of_error run] at moved
      rw [stateAfter_of_error (h.error run left)] at beyond
      exact absurd moved.position_le_limit (Nat.not_le.2 beyond)

/-! ## Generated messages -/

section Programs

variable {σ ι γ : Type}

theorem forward_forM {f : ι → FillM σ Unit} (is : List ι) (h : ∀ i, Forward (f i)) :
    Forward (is.forM f) := by
  induction is with
  | nil => exact forward_pure ()
  | cons i is ih => exact (h i).bind fun _ => ih

theorem Method.forward_read (method : Method) (p : Primitive) : Forward (method.read p) :=
  method.shape.forward_read.map _

variable {custom : CustomTypes γ} {types : TypeTable γ} (h : Forward (custom.fill types))

include h

theorem Op.forward_fillObject (field : String) : Forward (fillObject custom types field) := by
  refine forward_of_cases fun own => ?_
  match found : own.get? field with
  | some (.single (.object v)) =>
    exact ⟨_, h.within (fun _ => v) (fun own v => own.setSingle field (.object v)),
      fun c => by simp only [fillObject, found]⟩
  | none => exact ⟨_, forward_pure (), fun c => by simp only [fillObject, found]; rfl⟩
  | some (.single (.scalar _)) =>
    exact ⟨_, forward_pure (), fun c => by simp only [fillObject, found]; rfl⟩
  | some (.sequence _) =>
    exact ⟨_, forward_pure (), fun c => by simp only [fillObject, found]; rfl⟩

theorem Op.forward_readOwn (op : Op) : Forward (readOwn custom types op) := by
  cases op with
  | readFlag field bit =>
    rw [readOwn]
    exact (forward_readFlag bit).assign _
  | readPrimitive field method p =>
    rw [readOwn]
    exact (method.forward_read p).assign _
  | readObject field t =>
    exact (forward_change _).bind fun _ => forward_fillObject h field
  | readTypedObject field =>
    exact (forward_readInstance.assign _).bind fun _ => forward_fillObject h field
  | readPrimitiveVector field method p => exact (method.forward_read p).extend _
  | readObjectVector field t isOpen =>
    cases isOpen with
    | false => exact (h.fresh _).extend _
    | true => exact h.readValue.extend _
  | _ => exact forward_pure ()

theorem Op.forward_runRead {delegate : FillM (Record γ) Unit} (below : Forward delegate)
    (op : Op) : Forward (runRead custom types delegate op) := by
  refine forward_of_cases fun r => ?_
  cases r with
  | nil => exact ⟨pure (), forward_pure (), fun _ => rfl⟩
  | cons own base =>
    cases op with
    | delegateParent => exact ⟨_, below.inside (own :: ·) base, fun _ => rfl⟩
    | _ => exact ⟨_, (forward_readOwn h _).inside (· :: base) own, fun _ => rfl⟩

theorem Record.forward_fill (layouts : List Layout) : Forward (fill custom types layouts) := by
  induction layouts with
  | nil => exact forward_pure ()
  | cons l ls ih => exact forward_forM _ (Op.forward_runRead h ih)

/-- A generated message reads forward if its custom types do. -/
theorem Instance.forward_fill : Forward (fill custom types) :=
  forward_of_cases fun i => ⟨_, (Record.forward_fill h i.layouts).within _ _, fun _ => rfl⟩

end Programs

/-! ## Decoding -/

namespace MessageTable

variable {σ : Type} {messages : MessageTable σ} {fill : FillM σ Unit} {id : UInt16}
  {packet payload : List UInt8} {c : Cursor} {start : σ} {s : Filling σ}

theorem decode_of_error {e : Fault} (read : readPacket (.start packet) = .error e c) :
    messages.decode fill packet = .error e := by
  rw [decode, read]

theorem parse_of_find? (found : messages.find? id = some start) :
    messages.parse fill id = FillM.fresh start fill := by
  unfold parse create IdTable.get
  rw [found]
  rfl

section Registered

variable (read : readPacket (.start packet) = .ok (id, payload) c)
  (found : messages.find? id = some start)

include read found

theorem decode_of_fill_ok (filled : fill ⟨start, .start payload⟩ = .ok () s) :
    messages.decode fill packet = .ok s.value := by
  simp only [decode, read, parse_of_find? found, FillM.fresh, filled]

theorem decode_of_fill_error {e : Fault} (failed : fill ⟨start, .start payload⟩ = .error e s) :
    messages.decode fill packet = .error e := by
  simp only [decode, read, parse_of_find? found, FillM.fresh, failed]

end Registered

theorem decode_congr {a : UInt16 × List UInt8} {packet' : List UInt8} {c' : Cursor}
    (read : readPacket (.start packet) = .ok a c) (read' : readPacket (.start packet') = .ok a c') :
    messages.decode fill packet = messages.decode fill packet' := by
  simp only [decode, read, read']

/-- A message that would read on behind its payload lacks input. -/
theorem decode_of_beyond (forward : Forward fill)
    (read : readPacket (.start packet) = .ok (id, payload) c)
    (found : messages.find? id = some start) {more : List UInt8}
    (beyond : payload.length <
      (stateAfter fill ⟨start, .start (payload ++ more)⟩).cursor.position) :
    ∃ n, messages.decode fill packet = .error (.unexpectedEnd n) := by
  have limit : (Cursor.start payload).limit = payload.length := Nat.zero_add _
  rw [← limit] at beyond
  obtain ⟨n, d, short⟩ := forward.shortage_of_beyond (s := ⟨start, .start payload⟩) beyond
  exact ⟨n, decode_of_fill_error read found short⟩

end MessageTable

/-- What a packet decodes to. Without a whole frame, input is missing. With one, nothing behind it
plays a part: an id that is not registered is unknown, and otherwise the message is filled from the
payload alone. It may leave bytes of that, but lacks input if it would read on behind it, given that
it reads forward, as all generated messages do. -/
theorem decode_of_isFrame :
    (∀ {σ : Type} (messages : MessageTable σ) (fill : FillM σ Unit),
      (∀ packet,
        (∀ id payload frame rest, IsFrame id payload frame → packet ≠ frame ++ rest) →
        ∃ n, messages.decode fill packet = .error (.unexpectedEnd n)) ∧
      ∀ id payload frame, IsFrame id payload frame → ∀ rest,
        (messages.find? id = none →
          messages.decode fill (frame ++ rest) = .error (.unknownMessageId id)) ∧
        (∀ start, messages.find? id = some start →
          (∀ s, fill ⟨start, .start payload⟩ = .ok () s →
            messages.decode fill (frame ++ rest) = .ok s.value) ∧
          (∀ e s, fill ⟨start, .start payload⟩ = .error e s →
            messages.decode fill (frame ++ rest) = .error e) ∧
          (Forward fill → ∀ more, payload.length <
              (stateAfter fill ⟨start, .start (payload ++ more)⟩).cursor.position →
            ∃ n, messages.decode fill (frame ++ rest) = .error (.unexpectedEnd n))) ∧
        ∀ more, messages.decode fill (frame ++ rest ++ more) =
          messages.decode fill (frame ++ rest)) ∧
    (∀ types, Forward (Game.Message.fill types)) ∧
    ∀ {γ : Type} (custom : CustomTypes γ) (types : TypeTable γ),
      Forward (custom.fill types) → Forward (Instance.fill custom types) := by
  refine ⟨fun {σ} messages fill => ⟨fun packet none => ?_, fun id payload frame isFrame rest => ?_⟩,
    fun _ => Game.Message.forward_fill, fun _ _ h => Instance.forward_fill h⟩
  · obtain ⟨n, c, cut⟩ := readPacket_of_not_isFrame none
    exact ⟨n, MessageTable.decode_of_error cut⟩
  · have read (rest : List UInt8) := isFrame.reads_readPacket 0 rest
    refine ⟨fun unknown => ?_, fun start found => ⟨fun s filled => ?_, fun e s failed => ?_,
      fun forward more beyond => ?_⟩, fun more => ?_⟩
    · exact MessageTable.decode_of_not_mem (IdTable.find?_eq_none_iff.1 unknown) fill (read rest)
    · exact MessageTable.decode_of_fill_ok (read rest) found filled
    · exact MessageTable.decode_of_fill_error (read rest) found failed
    · exact MessageTable.decode_of_beyond forward (read rest) found beyond
    · rw [List.append_assoc]
      exact MessageTable.decode_congr (read (rest ++ more)) (read rest)

open Game in
/-- A status message whose length takes two bytes where one would do, with bytes behind the frame,
and a message of flags whose payload is one byte, with the others behind the frame. -/
theorem decode_of_isFrame_status :
    IsFrame 2 [1] [0, 10, 0, 1, 1] ∧
      messages.decode (Message.fill Entity.types) ([0, 10, 0, 1, 1] ++ [9, 9]) =
        .ok (.status { active := true }) ∧
    IsFrame 3 [1] [0, 13, 1, 1] ∧
      ∃ n, messages.decode (Message.fill Entity.types) ([0, 13, 1, 1] ++ [0, 0, 0, 0, 0, 0, 7]) =
        .error (.unexpectedEnd n) := by
  have long : IsFrame 2 [1] [0, 10, 0, 1, 1] := @IsFrame.mk _ _ [0, 10] [0, 1] rfl rfl rfl rfl
  have short : IsFrame 3 [1] [0, 13, 1, 1] := @IsFrame.mk _ _ [0, 13] [1] rfl rfl rfl rfl
  obtain ⟨decodes, forward, -⟩ := decode_of_isFrame
  obtain ⟨-, decodes⟩ := decodes messages (Message.fill Entity.types)
  refine ⟨long, ?_, short, ?_⟩
  · obtain ⟨-, known, -⟩ := decodes 2 [1] _ long [9, 9]
    obtain ⟨filled, -⟩ := known (.status {}) rfl
    exact filled ⟨.status { active := true }, 1, []⟩ rfl
  · obtain ⟨-, known, -⟩ := decodes 3 [1] _ short [0, 0, 0, 0, 0, 0, 7]
    obtain ⟨-, -, beyond⟩ := known (.flags {}) rfl
    exact beyond (forward _) [0, 0, 0, 0, 0, 0, 7] (by decide)

end WireCodec
