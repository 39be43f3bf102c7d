import Mathlib.Data.Finset.Card
import Mathlib.Data.Finset.Dedup
import WireCodec.Proofs.DispatchTables

/-!
# Registrations

A table by id keeps the first entry that is registered under an id and refuses all later ones,
however many calls there are and however many of them are refused. The invariant of a run is that
the table has just the entries that come first under their ids; everything that a table answers can
be told from the calls through it.
-/

namespace WireCodec

/-- The first entry under the id is the given one. -/
def IsFirst {α : Type} (calls : List (UInt16 × α)) (id : UInt16) (a : α) : Prop :=
  ∃ before after, calls = before ++ (id, a) :: after ∧ id ∉ before.map (·.1)

section First

variable {α : Type} {calls : List (UInt16 × α)} {id id' : UInt16} {a a' : α}

theorem isFirst_concat : IsFirst (calls ++ [(id, a)]) id' a' ↔
    IsFirst calls id' a' ∨ id ∉ calls.map (·.1) ∧ id' = id ∧ a' = a := by
  constructor
  · rintro ⟨before, after, split, absent⟩
    rcases List.eq_nil_or_concat after with rfl | ⟨rest, last, rfl⟩
    · obtain ⟨rfl, same⟩ := List.append_inj' split rfl
      cases same
      exact .inr ⟨absent, rfl, rfl⟩
    · rw [List.concat_eq_append, ← List.cons_append, ← List.append_assoc] at split
      exact .inl ⟨before, rest, (List.append_inj' split rfl).1, absent⟩
  · rintro (⟨before, after, rfl, absent⟩ | ⟨absent, rfl, rfl⟩)
    · exact ⟨before, after ++ [(id, a)], by simp, absent⟩
    · exact ⟨calls, [], rfl, absent⟩

/-- Some entry is the first one under an id if there is any. -/
theorem exists_isFirst_iff : (∃ a, IsFirst calls id a) ↔ id ∈ calls.map (·.1) := by
  constructor
  · rintro ⟨a, before, after, rfl, -⟩
    simp
  · intro mem
    induction calls using List.reverseRecOn with
    | nil => exact absurd mem List.not_mem_nil
    | append_singleton calls call ih =>
      by_cases earlier : id ∈ calls.map (·.1)
      · obtain ⟨a, first⟩ := ih earlier
        exact ⟨a, isFirst_concat.2 (.inl first)⟩
      · rw [List.map_append, List.mem_append, List.map_singleton, List.mem_singleton] at mem
        obtain rfl := mem.resolve_left earlier
        exact ⟨call.2, isFirst_concat.2 (.inr ⟨earlier, rfl, rfl⟩)⟩

/-- Ids are distinct, or there is an earliest one that repeats another. -/
theorem nodup_or_exists_repeat (calls : List (UInt16 × α)) : (calls.map (·.1)).Nodup ∨
    ∃ before id a after, calls = before ++ (id, a) :: after ∧ (before.map (·.1)).Nodup ∧
      id ∈ before.map (·.1) := by
  induction calls using List.reverseRecOn with
  | nil => exact .inl List.nodup_nil
  | append_singleton calls call ih =>
    rcases ih with distinct | ⟨before, id, a, after, rfl, distinct, mem⟩
    · by_cases mem : call.1 ∈ calls.map (·.1)
      · exact .inr ⟨calls, call.1, call.2, [], rfl, distinct, mem⟩
      · refine .inl ?_
        rw [List.map_append, List.map_singleton, ← List.concat_eq_append]
        exact distinct.concat mem
    · exact .inr ⟨before, id, a, after ++ [call], by simp, distinct, mem⟩

end First

namespace IdTable

variable {α : Type}

section Runs

variable (register : IdTable α → UInt16 → α → Except Fault (IdTable α))

/-- What a registration is refused with, if it is, and the table after it. -/
def offer (t : IdTable α) (call : UInt16 × α) : Option Fault × IdTable α :=
  match register t call.1 call.2 with
  | .ok t => (none, t)
  | .error e => (some e, t)

/-- Registers entries one after the other, whether or not those before them are refused: what each
of them is refused with, if it is, and the table in the end. -/
def registerAll : IdTable α → List (UInt16 × α) → List (Option Fault) × IdTable α
  | t, [] => ([], t)
  | t, call :: calls =>
    let (fault?, t) := offer register t call
    let (faults, t) := registerAll t calls
    (fault? :: faults, t)

theorem length_registerAll (t : IdTable α) (calls : List (UInt16 × α)) :
    (registerAll register t calls).1.length = calls.length := by
  induction calls generalizing t with
  | nil => rfl
  | cons call calls ih => simp [registerAll, ih]

theorem registerAll_append (t : IdTable α) (calls calls' : List (UInt16 × α)) :
    registerAll register t (calls ++ calls') =
      ((registerAll register t calls).1 ++
          (registerAll register (registerAll register t calls).2 calls').1,
        (registerAll register (registerAll register t calls).2 calls').2) := by
  induction calls generalizing t with
  | nil => rfl
  | cons call calls ih => simp [registerAll, ih]

theorem registerAll_concat (t : IdTable α) (calls : List (UInt16 × α)) (call : UInt16 × α) :
    (registerAll register t (calls ++ [call])).2 =
      (offer register (registerAll register t calls).2 call).2 := by
  rw [registerAll_append]
  rfl

end Runs

/-! ## The invariant -/

/-- The entries of the table are those that come first under their ids. -/
def Keeps (t : IdTable α) (calls : List (UInt16 × α)) : Prop :=
  ∀ id a, (id, a) ∈ t.entries ↔ IsFirst calls id a

section Steps

variable {t : IdTable α} {calls : List (UInt16 × α)} {id : UInt16} {a : α}
  (taken : UInt16 → Fault)

theorem keeps_nil : ({} : IdTable α).Keeps [] := by
  intro id a
  refine iff_of_false List.not_mem_nil ?_
  rintro ⟨before, after, split, -⟩
  simp at split

theorem Keeps.mem_ids (h : t.Keeps calls) : id ∈ t.ids ↔ id ∈ calls.map (·.1) := by
  rw [← exists_isFirst_iff, ids, List.mem_map]
  constructor
  · rintro ⟨e, mem, rfl⟩
    exact ⟨e.2, (h e.1 e.2).1 mem⟩
  · rintro ⟨a, first⟩
    exact ⟨(id, a), (h id a).2 first, rfl⟩

theorem register_of_mem (a : α) (h : id ∈ t.ids) : t.register taken id a = .error (taken id) := by
  have kept : t.insert? id a = none := by
    unfold insert?
    split
    · rfl
    · rename_i free
      exact absurd h (find?_eq_none_iff.1 free)
  rw [register, kept]

theorem offer_of_mem (a : α) (h : id ∈ t.ids) :
    offer (register taken) t (id, a) = (some (taken id), t) := by
  rw [offer, register_of_mem taken a h]

theorem offer_of_not_mem (a : α) (h : id ∉ t.ids) : ∃ t',
    offer (register taken) t (id, a) = (none, t') ∧ t'.entries.Perm ((id, a) :: t.entries) := by
  obtain ⟨t', registered, perm⟩ := register_of_not_mem taken a h
  exact ⟨t', by rw [offer, registered], perm⟩

/-- A call is refused exactly if there was one with its id before. -/
theorem Keeps.fault? (h : t.Keeps calls) (call : UInt16 × α) :
    (offer (register taken) t call).1 =
      if call.1 ∈ calls.map (·.1) then some (taken call.1) else none := by
  obtain ⟨id, a⟩ := call
  split_ifs with earlier
  · rw [offer_of_mem taken a (h.mem_ids.2 earlier)]
  · obtain ⟨t', offered, -⟩ := offer_of_not_mem taken a (mt h.mem_ids.1 earlier)
    rw [offered]

theorem Keeps.offer (h : t.Keeps calls) (call : UInt16 × α) :
    (offer (register taken) t call).2.Keeps (calls ++ [call]) := by
  obtain ⟨id, a⟩ := call
  intro id' a'
  rw [isFirst_concat, ← h id' a']
  by_cases earlier : id ∈ t.ids
  · rw [offer_of_mem taken a earlier]
    have mem := h.mem_ids.1 earlier
    exact ⟨.inl, fun kept => kept.resolve_right fun fresh => fresh.1 mem⟩
  · obtain ⟨t', offered, perm⟩ := offer_of_not_mem taken a earlier
    have absent := mt h.mem_ids.2 earlier
    rw [offered, perm.mem_iff, List.mem_cons, Prod.mk.injEq, or_comm]
    exact or_congr_right (and_iff_right absent).symm

/-- Every run of calls keeps the first entries. -/
theorem keeps_registerAll (calls : List (UInt16 × α)) :
    (registerAll (register taken) {} calls).2.Keeps calls := by
  induction calls using List.reverseRecOn with
  | nil => exact keeps_nil
  | append_singleton calls call ih =>
    rw [registerAll_concat]
    exact ih.offer taken call

theorem Keeps.size (h : t.Keeps calls) : t.size = (calls.map (·.1)).toFinset.card := by
  have distinct : t.ids.Nodup :=
    List.pairwise_map.2 (t.ascending.imp fun below => UInt16.ne_of_lt below)
  have same : (calls.map (·.1)).toFinset = t.ids.toFinset := by
    ext id
    rw [List.mem_toFinset, List.mem_toFinset, h.mem_ids]
  rw [same, List.toFinset_card_of_nodup distinct, ids, List.length_map, IdTable.size]

theorem get_eq_ok_iff {unknown : UInt16 → Fault} :
    t.get unknown id = .ok a ↔ (id, a) ∈ t.entries := by
  refine ⟨fun found => ?_, get_of_mem unknown⟩
  unfold get at found
  split at found
  · rename_i b present
    cases found
    exact mem_of_find? present
  · exact nomatch found

theorem get_eq_error_iff {unknown : UInt16 → Fault} {e : Fault} :
    t.get unknown id = .error e ↔ id ∉ t.ids ∧ e = unknown id := by
  constructor
  · intro failed
    unfold get at failed
    split at failed
    · exact nomatch failed
    · rename_i absent
      cases failed
      exact ⟨find?_eq_none_iff.1 absent, rfl⟩
  · rintro ⟨absent, rfl⟩
    exact get_of_not_mem unknown absent

theorem contains_iff : t.contains id ↔ id ∈ t.ids := by
  rw [contains, Option.isSome_iff_ne_none, Ne, find?_eq_none_iff, not_not]

end Steps

/-! ## Runs -/

/-- What there is to tell of a run of calls on an empty table, from the calls alone: a call is
refused exactly if its id came before, and then changes nothing; what is made for an id is the first
entry under it. -/
structure FirstWins (register : IdTable α → UInt16 → α → Except Fault (IdTable α))
    (create : IdTable α → UInt16 → Except Fault α) (taken unknown : UInt16 → Fault)
    (calls : List (UInt16 × α)) : Prop where
  outcome : ∀ before id a after, calls = before ++ (id, a) :: after →
    (registerAll register {} calls).1[before.length]? =
      some (if id ∈ before.map (·.1) then some (taken id) else none)
  unchanged : ∀ before id a after, calls = before ++ (id, a) :: after → id ∈ before.map (·.1) →
    (registerAll register {} (before ++ [(id, a)])).2 = (registerAll register {} before).2
  create_ok : ∀ id a, create (registerAll register {} calls).2 id = .ok a ↔ IsFirst calls id a
  create_error : ∀ id e, create (registerAll register {} calls).2 id = .error e ↔
    id ∉ calls.map (·.1) ∧ e = unknown id
  contains : ∀ id, (registerAll register {} calls).2.contains id ↔
    ∃ a, create (registerAll register {} calls).2 id = .ok a
  size : (registerAll register {} calls).2.size = (calls.map (·.1)).toFinset.card

theorem firstWins_register (taken unknown : UInt16 → Fault) (calls : List (UInt16 × α)) :
    FirstWins (register taken) (get unknown) taken unknown calls := by
  have keeps := keeps_registerAll taken calls
  refine ⟨?_, ?_, ?_, ?_, ?_, keeps.size⟩
  · rintro before id a after rfl
    have fault? := (keeps_registerAll taken before).fault? taken (id, a)
    rw [registerAll_append, List.getElem?_append_right (by rw [length_registerAll]),
      length_registerAll, Nat.sub_self, ← fault?]
    rfl
  · rintro before id a after - earlier
    have kept := (keeps_registerAll taken before).mem_ids.2 earlier
    rw [registerAll_concat, offer_of_mem taken a kept]
  · exact fun id a => get_eq_ok_iff.trans (keeps id a)
  · exact fun id e => get_eq_error_iff.trans (and_congr_left' keeps.mem_ids.not)
  · intro id
    rw [contains_iff, keeps.mem_ids, ← exists_isFirst_iff]
    exact exists_congr fun a => (get_eq_ok_iff.trans (keeps id a)).symm

/-! ## Tables of entries -/

/-- As long as nothing is refused, the table is that of the single calls. -/
theorem registerAll_of_foldlM {taken : UInt16 → Fault} {t t' : IdTable α}
    {entries : List (UInt16 × α)}
    (h : entries.foldlM (fun t (id, a) => t.register taken id a) t = .ok t') :
    (registerAll (register taken) t entries).2 = t' := by
  induction entries generalizing t with
  | nil =>
    cases h
    rfl
  | cons e entries ih =>
    obtain ⟨id, a⟩ := e
    rw [List.foldlM_cons] at h
    obtain ⟨t₁, registered, rest⟩ := bind_eq_ok_iff.1 h
    have accepted : t.register taken id a = .ok t₁ := registered
    have offered : offer (register taken) t (id, a) = (none, t₁) := by rw [offer, accepted]
    rw [registerAll, offered]
    exact ih rest

/-- The entry that repeats an id ends it. -/
theorem ofEntries_of_repeat (taken : UInt16 → Fault) {before after : List (UInt16 × α)}
    {id : UInt16} {a : α} (distinct : (before.map (·.1)).Nodup) (earlier : id ∈ before.map (·.1)) :
    ofEntries taken (before ++ (id, a) :: after) = .error (taken id) := by
  obtain ⟨t, built, perm⟩ := ofEntries_of_nodup taken distinct
  have mem : id ∈ t.ids := (perm.map Prod.fst).mem_iff.2 earlier
  unfold ofEntries at built ⊢
  rw [List.foldlM_append, built]
  change (t.register taken id a >>= _) = _
  rw [register_of_mem taken a mem]
  rfl

theorem ofEntries_eq_ok_iff {taken : UInt16 → Fault} {entries : List (UInt16 × α)}
    {t : IdTable α} : ofEntries taken entries = .ok t ↔
      (entries.map (·.1)).Nodup ∧ t = (registerAll (register taken) {} entries).2 := by
  constructor
  · intro built
    refine ⟨?_, (registerAll_of_foldlM built).symm⟩
    rcases nodup_or_exists_repeat entries with distinct | ⟨before, id, a, after, rfl, distinct, mem⟩
    · exact distinct
    · exact nomatch built.symm.trans (ofEntries_of_repeat taken distinct mem)
  · rintro ⟨distinct, rfl⟩
    obtain ⟨t, built, -⟩ := ofEntries_of_nodup taken distinct
    rw [built, registerAll_of_foldlM built]

theorem ofEntries_eq_error_iff {taken : UInt16 → Fault} {entries : List (UInt16 × α)} {e : Fault} :
    ofEntries taken entries = .error e ↔ ∃ before id a after,
      entries = before ++ (id, a) :: after ∧ (before.map (·.1)).Nodup ∧
      id ∈ before.map (·.1) ∧ e = taken id := by
  constructor
  · intro failed
    rcases nodup_or_exists_repeat entries with distinct | ⟨before, id, a, after, rfl, distinct, mem⟩
    · obtain ⟨t, built, -⟩ := ofEntries_of_nodup taken distinct
      exact nomatch built.symm.trans failed
    · cases failed.symm.trans (ofEntries_of_repeat taken distinct mem)
      exact ⟨before, id, a, after, rfl, distinct, mem, rfl⟩
  · rintro ⟨before, id, a, after, rfl, distinct, mem, rfl⟩
    exact ofEntries_of_repeat taken distinct mem

end IdTable

/-- Whatever is registered in an empty table of types or of messages, the first entry under an id
wins and every later one is refused. A table of messages tells the ids in ascending order. It can be
made of entries exactly if their ids are distinct, and is then the one of the single calls;
otherwise the earliest id that repeats another is reported. -/
theorem tables_firstWins {α : Type} (calls : List (UInt16 × α)) :
    IdTable.FirstWins TypeTable.register TypeTable.create .duplicateTypeId .unknownTypeId calls ∧
    IdTable.FirstWins MessageTable.register MessageTable.create .duplicateMessageId
      .unknownMessageId calls ∧
    (IdTable.registerAll MessageTable.register {} calls).2.ids.Pairwise (· < ·) ∧
    (∀ id, id ∈ (IdTable.registerAll MessageTable.register {} calls).2.ids ↔
      id ∈ calls.map (·.1)) ∧
    (∀ t, MessageTable.ofEntries calls = .ok t ↔ (calls.map (·.1)).Nodup ∧
      t = (IdTable.registerAll MessageTable.register {} calls).2) ∧
    ∀ e, MessageTable.ofEntries calls = .error e ↔ ∃ before id a after,
      calls = before ++ (id, a) :: after ∧ (before.map (·.1)).Nodup ∧ id ∈ before.map (·.1) ∧
      e = .duplicateMessageId id := by
  have keeps := IdTable.keeps_registerAll (α := α) .duplicateMessageId calls
  exact ⟨IdTable.firstWins_register .duplicateTypeId .unknownTypeId calls,
    IdTable.firstWins_register .duplicateMessageId .unknownMessageId calls,
    List.pairwise_map.2 (IdTable.ascending _), fun id => keeps.mem_ids,
    fun t => IdTable.ofEntries_eq_ok_iff, fun e => IdTable.ofEntries_eq_error_iff⟩

example : (IdTable.registerAll MessageTable.register {} [(7, "a"), (3, "b"), (7, "c")]).1 =
    [none, none, some (.duplicateMessageId 7)] := by decide

end WireCodec
