import WireCodec.Program.Instance
import WireCodec.Proofs.Outcomes
import WireCodec.Proofs.PlacedModules
import WireCodec.Proofs.ProgramRoundTrip

/-!
# Dispatch tables

A table by id takes every list of entries whose ids are distinct, and finds each of them. The ids of
a schema that can be generated are distinct, so the dispatch table that the generated code builds
from its entries is complete: it makes the default instance of every message, and of no other.
-/

namespace WireCodec

/-! ## Tables by id -/

namespace IdTable

variable {α : Type} {t : IdTable α} {id : UInt16} {a : α}

theorem place_perm (id : UInt16) (a : α) (es : List (UInt16 × α)) :
    (place id a es).Perm ((id, a) :: es) := by
  induction es with
  | nil => exact .refl _
  | cons e es ih =>
    rw [place]
    split
    · exact .refl _
    · exact (ih.cons e).trans (.swap (id, a) e es)

theorem find?_eq_none_iff : t.find? id = none ↔ id ∉ t.ids := by
  rw [find?, List.lookup_eq_none_iff, ids]
  constructor
  · rintro absent mem
    obtain ⟨e, he, rfl⟩ := List.mem_map.1 mem
    exact bne_iff_ne.1 (absent e he) rfl
  · intro absent e he
    exact bne_iff_ne.2 fun same => absent (same ▸ List.mem_map_of_mem he)

/-- Each entry is found, since the ids are distinct. -/
theorem find?_of_mem (h : (id, a) ∈ t.entries) : t.find? id = some a := by
  cases found : t.find? id with
  | none => exact absurd (List.mem_map_of_mem h) (find?_eq_none_iff.1 found)
  | some b =>
    have distinct : (t.entries.map (·.1)).Nodup :=
      List.pairwise_map.2 (t.ascending.imp fun below => UInt16.ne_of_lt below)
    have same := List.inj_on_of_nodup_map distinct (mem_of_find? found) h rfl
    cases same
    rfl

theorem register_of_not_mem (taken : UInt16 → Fault) (a : α) (free : id ∉ t.ids) :
    ∃ t', t.register taken id a = .ok t' ∧ t'.entries.Perm ((id, a) :: t.entries) := by
  have unused : t.entries.lookup id = none := find?_eq_none_iff.2 free
  have added : t.insert? id a = some ⟨place id a t.entries, pairwise_place unused t.ascending⟩ := by
    unfold insert?
    split
    · rename_i _ used
      exact nomatch unused.symm.trans used
    · rfl
  refine ⟨⟨place id a t.entries, pairwise_place unused t.ascending⟩, ?_, place_perm id a _⟩
  rw [register, added]

/-- Entries are added to a table if no id is there or comes twice. -/
theorem foldlM_register_of_nodup (taken : UInt16 → Fault) {entries : List (UInt16 × α)}
    (distinct : (t.entries ++ entries).map (·.1) |>.Nodup) :
    ∃ t', entries.foldlM (fun t (id, a) => t.register taken id a) t = .ok t' ∧
      t'.entries.Perm (t.entries ++ entries) := by
  induction entries generalizing t with
  | nil => exact ⟨t, rfl, by rw [List.append_nil]⟩
  | cons e entries ih =>
    obtain ⟨id, a⟩ := e
    have moved : (t.entries ++ (id, a) :: entries).Perm ((id, a) :: t.entries ++ entries) :=
      List.perm_middle
    have distinct' := (moved.map Prod.fst).nodup_iff.1 distinct
    have free : id ∉ t.ids := by
      rw [List.cons_append, List.map_cons, List.map_append, List.nodup_cons] at distinct'
      exact fun mem => distinct'.1 (List.mem_append_left _ mem)
    obtain ⟨t₁, registered, perm⟩ := register_of_not_mem taken a free
    have all : (t₁.entries ++ entries).Perm ((id, a) :: t.entries ++ entries) :=
      perm.append_right entries
    obtain ⟨t', rest, perm'⟩ := ih ((all.map Prod.fst).nodup_iff.2 distinct')
    refine ⟨t', ?_, perm'.trans (all.trans moved.symm)⟩
    rw [List.foldlM_cons]
    exact bind_eq_ok_iff.2 ⟨t₁, registered, rest⟩

/-- Entries with distinct ids make a table of just these entries. -/
theorem ofEntries_of_nodup (taken : UInt16 → Fault) {entries : List (UInt16 × α)}
    (distinct : (entries.map (·.1)).Nodup) :
    ∃ t, ofEntries taken entries = .ok t ∧ t.entries.Perm entries :=
  foldlM_register_of_nodup (t := {}) taken distinct

theorem get_of_mem (unknown : UInt16 → Fault) (h : (id, a) ∈ t.entries) :
    t.get unknown id = .ok a := by
  rw [get, find?_of_mem h]

theorem get_of_not_mem (unknown : UInt16 → Fault) (h : id ∉ t.ids) :
    t.get unknown id = .error (unknown id) := by
  rw [get, find?_eq_none_iff.2 h]

end IdTable

/-! ## Tables of messages -/

namespace MessageTable

variable {σ : Type} {messages : MessageTable σ} {id : UInt16} (unknown : id ∉ messages.ids)

include unknown

theorem parse_of_not_mem (fill : FillM σ Unit) (c : Cursor) :
    messages.parse fill id c = .error (.unknownMessageId id) c := by
  have create : messages.create id = .error (.unknownMessageId id) :=
    IdTable.get_of_not_mem _ unknown
  unfold parse
  rw [create]
  rfl

theorem decode_of_not_mem (fill : FillM σ Unit) {packet payload : List UInt8} {c : Cursor}
    (read : readPacket (.start packet) = .ok (id, payload) c) :
    messages.decode fill packet = .error (.unknownMessageId id) := by
  unfold decode
  simp only [read, parse_of_not_mem unknown]

end MessageTable

/-! ## The table of a schema -/

namespace Schema

variable {s : Schema} {settings : Settings} {o : Output} {γ : Type}

/-- Every message of a schema that can be generated has a default instance, which reports the id of
the message. -/
theorem exists_freshInstance (h : s.generate settings = .ok o) (custom : CustomTypes γ)
    {m : MessageDecl} (hm : m ∈ s.messages) :
    ∃ i, s.freshInstance custom m = .ok i ∧ i.id = m.protocolId := by
  obtain ⟨l, planned⟩ := exists_plan_of_generate h hm
  obtain ⟨layouts, found, -⟩ := lineage_of_generate h hm
  refine ⟨_, bind_eq_ok_iff.2 ⟨l, planned, bind_eq_ok_iff.2 ⟨layouts, found, rfl⟩⟩, rfl⟩

/-- The planned entries of a schema that can be generated, each with the default instance of its
message, make a dispatch table. Its ids are those of the schema in ascending order, it makes the
default instance of every message, and any other id is unknown to it. -/
theorem ofEntries_of_generate (h : s.generate settings = .ok o) (custom : CustomTypes γ) :
    ∃ entries starts, ∃ table : MessageTable (Instance γ),
      s.dispatchPlan settings = .ok ⟨entries⟩ ∧
      List.Forall₂ (fun e start => start.1 = e.protocolId ∧ ∃ m ∈ s.messages, m.name = e.name ∧
        settings.messagePath m.package m.name = e.path ∧
        s.freshInstance custom m = .ok start.2) entries starts ∧
      MessageTable.ofEntries starts = .ok table ∧
      table.ids.Perm (s.messages.map (·.protocolId)) ∧ table.ids.Pairwise (· < ·) ∧
      (∀ m ∈ s.messages, ∃ i, s.freshInstance custom m = .ok i ∧
        table.create m.protocolId = .ok i ∧ i.id = m.protocolId) ∧
      ∀ id ∉ s.messages.map (·.protocolId),
        table.create id = .error (.unknownMessageId id) ∧
        ∀ types,
          (∀ c, table.parse (Instance.fill custom types) id c =
            .error (.unknownMessageId id) c) ∧
          ∀ packet payload c, readPacket (.start packet) = .ok (id, payload) c →
            table.decode (Instance.fill custom types) packet =
              .error (.unknownMessageId id) := by
  obtain ⟨⟨planned, distinct⟩, -⟩ := generate_eq_ok h
  have each : ∀ m ∈ s.messages, ∃ start : UInt16 × Instance γ,
      start.1 = m.protocolId ∧ s.freshInstance custom m = .ok start.2 := by
    intro m hm
    obtain ⟨i, fresh, -⟩ := exists_freshInstance h custom hm
    exact ⟨(m.protocolId, i), rfl, fresh⟩
  obtain ⟨starts, made⟩ := exists_forall₂_of_forall each
  have ids : s.messages.map (·.protocolId) = starts.map (·.1) :=
    map_eq_map_of_forall₂ made fun _ _ h => h.1.symm
  obtain ⟨table, built, perm⟩ :=
    IdTable.ofEntries_of_nodup .duplicateMessageId (ids ▸ distinct.ids)
  have same : table.ids.Perm (s.messages.map (·.protocolId)) := by
    rw [ids]
    exact perm.map _
  refine ⟨s.messages.map (.ofMessage settings), starts, table, planned, ?_, built, same,
    List.pairwise_map.2 table.ascending, fun m hm => ?_, fun id other => ?_⟩
  · rw [List.forall₂_map_left_iff]
    exact forall₂_imp_of_mem made fun m hm start made => ⟨made.1, m, hm, rfl, rfl, made.2⟩
  · obtain ⟨i, fresh, reports⟩ := exists_freshInstance h custom hm
    obtain ⟨start, mem, id, fresh'⟩ := exists_of_mem_left made hm
    cases fresh.symm.trans fresh'
    refine ⟨_, fresh, IdTable.get_of_mem _ (perm.mem_iff.2 ?_), reports⟩
    rw [← id]
    exact mem
  · have unknown : id ∉ table.ids := fun mem => other (same.mem_iff.1 mem)
    exact ⟨IdTable.get_of_not_mem _ unknown, fun types =>
      ⟨MessageTable.parse_of_not_mem unknown _,
        fun packet payload c read => MessageTable.decode_of_not_mem unknown _ read⟩⟩

/-- A child in front of its parent, with the larger id. -/
def childFirst : Schema := { speechSchema with messages := [speechMessage, soundMessage] }

/-- Both messages are found, and the packet of another id is refused. -/
theorem ofEntries_of_generate_childFirst :
    ∃ starts, ∃ table : MessageTable (Instance Game.Entity),
      MessageTable.ofEntries starts = .ok table ∧ table.ids.Perm [2, 1] ∧
      table.ids.Pairwise (· < ·) ∧ (∃ i, table.create 2 = .ok i ∧ i.id = 2) ∧
      table.create 3 = .error (.unknownMessageId 3) ∧
      table.decode (Instance.fill valueTypes Game.Entity.types) [0, 12] =
        .error (.unknownMessageId 3) := by
  obtain ⟨o, generated⟩ := exists_of_isOk (show (childFirst.generate {}).isOk by decide +kernel)
  obtain ⟨-, starts, table, -, -, built, ids, ascending, known, unknown⟩ :=
    ofEntries_of_generate generated valueTypes
  obtain ⟨i, -, created, reports⟩ := known speechMessage (by decide)
  obtain ⟨create, none⟩ := unknown 3 (by decide)
  exact ⟨starts, table, built, ids, ascending, ⟨i, created, reports⟩, create,
    (none _).2 [0, 12] [] _ rfl⟩

end Schema

end WireCodec
