import WireCodec.Proofs.PlacedModules

/-!
# The verdict of a run

A run looks at every message before it lays out the first one. It fails at the first message that
repeats something of an earlier one or takes a module of the run's own (`Refuses`), whatever else is
wrong with the schema; otherwise at the first message that cannot be laid out; otherwise it succeeds
with an artifact for each message (`Verdict`).
-/

namespace WireCodec

/-! ## The first failure of a loop -/

section Loops

variable {ε α β : Type} {f : α → Except ε β} {before after : List α} {x : α} {e : ε}

/-- A loop fails with the first of its elements that fails. -/
theorem mapM_eq_error (earlier : ∀ y ∈ before, ∃ b, f y = .ok b) (failed : f x = .error e) :
    (before ++ x :: after).mapM f = .error e := by
  induction before with
  | nil => rw [List.nil_append, List.mapM_cons, failed]; rfl
  | cons y before ih =>
    obtain ⟨⟨b, done⟩, others⟩ := List.forall_mem_cons.1 earlier
    rw [List.cons_append, List.mapM_cons, done, ih others]
    rfl

/-- Either every element succeeds or there is a first one that fails. -/
theorem forall_ok_or_error (f : α → Except ε β) (xs : List α) :
    (∀ x ∈ xs, ∃ b, f x = .ok b) ∨ ∃ before x after e,
      xs = before ++ x :: after ∧ (∀ y ∈ before, ∃ b, f y = .ok b) ∧ f x = .error e := by
  induction xs with
  | nil => exact .inl nofun
  | cons x xs ih =>
    cases run : f x with
    | error e => exact .inr ⟨[], x, xs, e, rfl, nofun, run⟩
    | ok b =>
      rcases ih with all | ⟨before, y, after, e, rfl, earlier, failed⟩
      · exact .inl (List.forall_mem_cons.2 ⟨⟨b, run⟩, all⟩)
      · have passed := List.forall_mem_cons.2 ⟨⟨b, run⟩, earlier⟩
        exact .inr ⟨x :: before, y, after, e, rfl, passed, failed⟩

end Loops

/-! ## Repeats -/

/-- The message has the id, the name or the module of an earlier one, or a module of the run's
own. -/
def Repeats (settings : Settings) (earlier : List MessageDecl) (m : MessageDecl) : Prop :=
  m.protocolId ∈ earlier.map (·.protocolId) ∨ m.name ∈ earlier.map (·.name) ∨
    settings.messageModule m.package m.name ∈ (moduleHolders settings earlier).map (·.1)

/-- No message repeats anything of another one or takes a module of the run's own. -/
structure Apart (settings : Settings) (ms : List MessageDecl) : Prop where
  ids : (ms.map (·.protocolId)).Nodup
  names : (ms.map (·.name)).Nodup
  modules : ((moduleHolders settings ms).map (·.1)).Nodup

/-- Why a message is refused behind earlier ones. The id is looked at before the name and the name
before the module; a holder that is named is the only one. -/
inductive Refuses (settings : Settings) (earlier : List MessageDecl) (m : MessageDecl) :
    SchemaError → Prop
  | id (first : MessageDecl)
    (holder : earlier.filter (·.protocolId = m.protocolId) = [first]) :
    Refuses settings earlier m (.duplicateProtocolId m.protocolId first.name m.name)
  | name (newId : m.protocolId ∉ earlier.map (·.protocolId))
    (taken : m.name ∈ earlier.map (·.name)) :
    Refuses settings earlier m (.duplicateMessageName m.name)
  | module (newId : m.protocolId ∉ earlier.map (·.protocolId))
    (newName : m.name ∉ earlier.map (·.name)) (path first : String)
    (own : path = settings.messageModule m.package m.name)
    (holder : (moduleHolders settings earlier).filter (·.1 = path) = [(path, first)]) :
    Refuses settings earlier m (.duplicateModulePath path first m.name)

section Repeats

variable {settings : Settings} {earlier ms : List MessageDecl} {m : MessageDecl}

theorem map_moduleHolders (settings : Settings) (ms : List MessageDecl) :
    (moduleHolders settings ms).map (·.1) =
      [registryModule, indexModule].map (settings.messageModule "" ·) ++
        ms.map fun m => settings.messageModule m.package m.name := by
  simp [moduleHolders, Function.comp_def]

theorem pathSnoc_injective (path : String) : Function.Injective (pathSnoc path) := by
  intro segment segment' same
  unfold pathSnoc at same
  split_ifs at same
  · exact same
  · exact String.append_right_inj _ |>.1 same

theorem apart_nil (settings : Settings) : Apart settings [] := by
  refine ⟨.nil, .nil, ?_⟩
  have different : identifier registryModule ≠ identifier indexModule := by decide
  rw [map_moduleHolders, List.map_nil, List.append_nil, List.map_cons, List.map_singleton]
  simp only [Settings.messageModule, messageSegments_empty, joinPath, List.foldl_cons,
    List.foldl_nil, List.nodup_cons, List.mem_singleton, List.not_mem_nil, not_false_eq_true,
    List.nodup_nil, and_true]
  exact fun same => different (pathSnoc_injective _ same)

/-- One more message keeps messages apart exactly if it repeats nothing. -/
theorem apart_concat :
    Apart settings (ms ++ [m]) ↔ Apart settings ms ∧ ¬ Repeats settings ms m := by
  have modules : (moduleHolders settings (ms ++ [m])).map (·.1) =
      (moduleHolders settings ms).map (·.1) ++ [settings.messageModule m.package m.name] := by
    simp [map_moduleHolders]
  have split : Apart settings (ms ++ [m]) ↔ ((ms ++ [m]).map (·.protocolId)).Nodup ∧
      ((ms ++ [m]).map (·.name)).Nodup ∧
      ((moduleHolders settings (ms ++ [m])).map (·.1)).Nodup :=
    ⟨fun ⟨ids, names, modules⟩ => ⟨ids, names, modules⟩,
      fun ⟨ids, names, modules⟩ => ⟨ids, names, modules⟩⟩
  rw [split, modules, List.map_append, List.map_append, List.map_singleton, List.map_singleton,
    nodup_concat_iff, nodup_concat_iff, nodup_concat_iff]
  unfold Repeats
  constructor
  · rintro ⟨⟨ids, newId⟩, ⟨names, newName⟩, modules, newModule⟩
    exact ⟨⟨ids, names, modules⟩, by rintro (id | name | module) <;> contradiction⟩
  · rintro ⟨⟨ids, names, modules⟩, new⟩
    simp only [not_or] at new
    exact ⟨⟨ids, new.1⟩, ⟨names, new.2.1⟩, modules, new.2.2⟩

theorem Apart.left {ms' : List MessageDecl} (apart : Apart settings (ms ++ ms')) :
    Apart settings ms := by
  obtain ⟨ids, names, modules⟩ := apart
  rw [map_moduleHolders, List.map_append, ← List.append_assoc, ← map_moduleHolders] at modules
  rw [List.map_append] at ids names
  exact ⟨ids.of_append_left, names.of_append_left, modules.of_append_left⟩

/-- Either nothing is repeated or there is a first message that repeats something. -/
theorem apart_or_repeats (apart : Apart settings earlier) (ms : List MessageDecl) :
    Apart settings (earlier ++ ms) ∨ ∃ before m after, ms = before ++ m :: after ∧
      Apart settings (earlier ++ before) ∧ Repeats settings (earlier ++ before) m := by
  induction ms generalizing earlier with
  | nil => exact .inl (by rwa [List.append_nil])
  | cons m ms ih =>
    by_cases repeats : Repeats settings earlier m
    · exact .inr ⟨[], m, ms, rfl, by rwa [List.append_nil], by rwa [List.append_nil]⟩
    · rw [List.append_cons]
      have next := apart_concat.2 ⟨apart, repeats⟩
      rcases ih next with all | ⟨before, m', after, rfl, others, again⟩
      · exact .inl all
      · rw [← List.append_cons] at others again
        exact .inr ⟨m :: before, m', after, rfl, others, again⟩

/-- A message that repeats something of messages that are apart is refused for it. -/
theorem exists_refuses (apart : Apart settings earlier) (repeats : Repeats settings earlier m) :
    ∃ e, Refuses settings earlier m e := by
  by_cases id : m.protocolId ∈ earlier.map (·.protocolId)
  · obtain ⟨first, mem, same⟩ := List.mem_map.1 id
    exact ⟨_, .id first (same ▸ filter_eq_singleton apart.ids mem)⟩
  by_cases name : m.name ∈ earlier.map (·.name)
  · exact ⟨_, .name id name⟩
  · have module := (repeats.resolve_left id).resolve_left name
    obtain ⟨⟨path, first⟩, mem, own⟩ := List.mem_map.1 module
    exact ⟨_, .module id name path first own (filter_eq_singleton apart.modules mem)⟩

/-! ## The run -/

theorem refuseRepeat_eq (settings : Settings) (earlier : List MessageDecl) (m : MessageDecl) :
    refuseRepeat settings earlier m =
      match earlier.find? (·.protocolId = m.protocolId) with
      | some first => .error (.duplicateProtocolId m.protocolId first.name m.name)
      | none =>
        if m.name ∈ earlier.map (·.name) then .error (.duplicateMessageName m.name)
        else
          match (moduleHolders settings earlier).lookup
            (settings.messageModule m.package m.name) with
          | some first => .error (.duplicateModulePath
            (settings.messageModule m.package m.name) first m.name)
          | none => .ok () := by
  unfold refuseRepeat
  cases earlier.find? (·.protocolId = m.protocolId) with
  | some first => rfl
  | none =>
    have any : earlier.any (·.name = m.name) = decide (m.name ∈ earlier.map (·.name)) := by
      rw [Bool.eq_iff_iff]
      simp
    simp only [any, decide_eq_true_eq]
    split_ifs
    · rfl
    · cases (moduleHolders settings earlier).lookup
        (settings.messageModule m.package m.name) <;> rfl

theorem find?_id_eq_none (h : m.protocolId ∉ earlier.map (·.protocolId)) :
    earlier.find? (·.protocolId = m.protocolId) = none := by
  rw [List.find?_eq_none]
  intro e he
  simpa using fun same => h (List.mem_map.2 ⟨e, he, same⟩)

/-- A refusal is reported. -/
theorem refuseRepeat_of_refuses {e : SchemaError} (h : Refuses settings earlier m e) :
    refuseRepeat settings earlier m = .error e := by
  rw [refuseRepeat_eq]
  cases h with
  | id first holder =>
    rw [← List.head?_filter, holder]
    rfl
  | name newId taken => rw [find?_id_eq_none newId, if_pos taken]
  | module newId newName path first own holder =>
    obtain ⟨before, after, split, others, -⟩ := List.filter_eq_cons_iff.1 holder
    have found : (moduleHolders settings earlier).lookup path = some first := by
      refine List.lookup_eq_some_iff.2 ⟨before, after, split, fun other mem => ?_⟩
      simpa using fun same => others other mem (by simp [same])
    rw [find?_id_eq_none newId, if_neg newName, ← own, found]

theorem refuseRepeat_of_not_repeats (h : ¬ Repeats settings earlier m) :
    refuseRepeat settings earlier m = .ok () := by
  simp only [Repeats, not_or] at h
  obtain ⟨newId, newName, newModule⟩ := h
  have free : (moduleHolders settings earlier).lookup
      (settings.messageModule m.package m.name) = none := by
    refine List.lookup_eq_none_iff.2 fun holder mem => ?_
    simpa using fun same => newModule (List.mem_map.2 ⟨holder, mem, same.symm⟩)
  rw [refuseRepeat_eq, find?_id_eq_none newId, if_neg newName, free]

theorem entriesAfter_of_refuses {after : List MessageDecl} {e : SchemaError}
    (apart : Apart settings (earlier ++ ms)) (h : Refuses settings (earlier ++ ms) m e) :
    entriesAfter settings earlier (ms ++ m :: after) = .error e := by
  induction ms generalizing earlier with
  | nil =>
    rw [List.append_nil] at h
    rw [List.nil_append, entriesAfter, refuseRepeat_of_refuses h]
    rfl
  | cons m' ms ih =>
    rw [List.append_cons] at apart h
    have accepted := refuseRepeat_of_not_repeats (apart_concat.1 apart.left).2
    rw [List.cons_append, entriesAfter, accepted, ih apart h]
    rfl

theorem entriesAfter_of_apart (apart : Apart settings (earlier ++ ms)) :
    entriesAfter settings earlier ms = .ok (ms.map (.ofMessage settings)) := by
  induction ms generalizing earlier with
  | nil => rfl
  | cons m ms ih =>
    rw [List.append_cons] at apart
    have accepted := refuseRepeat_of_not_repeats (apart_concat.1 apart.left).2
    rw [entriesAfter, accepted, ih apart]
    rfl

end Repeats

/-- What becomes of a schema. -/
inductive Verdict (s : Schema) (settings : Settings) : Except SchemaError Output → Prop
  /-- The first message that repeats something is refused, whether or not those before it can be
  laid out. -/
  | refused {before after : List MessageDecl} {m : MessageDecl} {e : SchemaError}
    (split : s.messages = before ++ m :: after) (earlier : Apart settings before)
    (repeats : Repeats settings before m) (refuses : Refuses settings before m e) :
    Verdict s settings (.error e)
  /-- Nothing is repeated, and the first message that cannot be laid out is reported. -/
  | unplanned {before after : List MessageDecl} {m : MessageDecl} {e : SchemaError}
    (apart : Apart settings s.messages) (split : s.messages = before ++ m :: after)
    (earlier : ∀ m' ∈ before, ∃ l, Layout.plan s m' = .ok l) (fails : Layout.plan s m = .error e) :
    Verdict s settings (.error e)
  /-- Nothing is repeated and every message can be laid out; each has its artifact. -/
  | generated {o : Output} (apart : Apart settings s.messages)
    (messages : List.Forall₂ (fun m a => a.name = m.name ∧ ∃ l, Layout.plan s m = .ok l ∧
      .ofLayout settings m l = a) s.messages o.messages)
    (registry : o.registry = .ofModule settings registryModule
      (Source.registryLines settings (Source.planOf settings s.messages)))
    (index : o.index = .ofModule settings indexModule
      (Source.indexLines (Source.planOf settings s.messages))) :
    Verdict s settings (.ok o)

namespace Schema

variable {s : Schema} {settings : Settings}

theorem dispatchPlan_of_apart (apart : Apart settings s.messages) :
    s.dispatchPlan settings = .ok (Source.planOf settings s.messages) := by
  have entries : entriesAfter settings [] s.messages = _ := entriesAfter_of_apart apart
  unfold dispatchPlan
  rw [entries]
  rfl

theorem ofMessage_of_plan_error {m : MessageDecl} {e : SchemaError}
    (h : Layout.plan s m = .error e) : Artifact.ofMessage settings s m = .error e := by
  unfold Artifact.ofMessage
  rw [h]
  rfl

theorem generate_of_verdict {r : Except SchemaError Output} (h : Verdict s settings r) :
    s.generate settings = r := by
  unfold generate
  cases h with
  | @refused before after m e split earlier _ refuses =>
    have refused : entriesAfter settings [] (before ++ m :: after) = .error e :=
      entriesAfter_of_refuses earlier refuses
    have failed : s.dispatchPlan settings = .error e := by
      unfold dispatchPlan
      rw [split, refused]
      rfl
    rw [failed]
    rfl
  | @unplanned before after m e apart split earlier fails =>
    have planned : ∀ m' ∈ before, ∃ a, Artifact.ofMessage settings s m' = .ok a := fun m' hm' =>
      (earlier m' hm').imp' _ fun l plan => Artifact.ofMessage_eq_ok_iff.2 ⟨l, plan, rfl⟩
    have failed : s.messages.mapM (Artifact.ofMessage settings s) = .error e := by
      rw [split]
      exact mapM_eq_error planned (ofMessage_of_plan_error fails)
    rw [dispatchPlan_of_apart apart, failed]
    rfl
  | @generated o apart messages registry index =>
    have made : s.messages.mapM (Artifact.ofMessage settings s) = .ok o.messages :=
      mapM_eq_ok_iff.2 (messages.imp fun m a h => Artifact.ofMessage_eq_ok_iff.2 h.2)
    rw [dispatchPlan_of_apart apart, made]
    cases o
    cases registry
    cases index
    rfl

theorem exists_generated (apart : Apart settings s.messages)
    (planned : ∀ m ∈ s.messages, ∃ l, Layout.plan s m = .ok l) :
    ∃ o, Verdict s settings (.ok o) := by
  have each : ∀ m ∈ s.messages, ∃ a : Artifact, a.name = m.name ∧
      ∃ l, Layout.plan s m = .ok l ∧ .ofLayout settings m l = a := fun m hm =>
    (planned m hm).elim fun l plan => ⟨_, rfl, l, plan, rfl⟩
  obtain ⟨messages, made⟩ := exists_forall₂_of_forall each
  exact ⟨⟨messages, _, _⟩, .generated apart made rfl rfl⟩

theorem exists_verdict (s : Schema) (settings : Settings) : ∃ r, Verdict s settings r := by
  rcases apart_or_repeats (apart_nil settings) s.messages with
    apart | ⟨before, m, after, split, earlier, repeats⟩
  · rcases forall_ok_or_error (Layout.plan s) s.messages with
      planned | ⟨before, m, after, e, split, earlier, fails⟩
    · exact (exists_generated apart planned).imp' _ fun _ => id
    · exact ⟨_, .unplanned apart split earlier fails⟩
  · obtain ⟨e, refuses⟩ := exists_refuses earlier repeats
    exact ⟨_, .refused split earlier repeats refuses⟩

/-- A run succeeds exactly if nothing is repeated and every message can be laid out. -/
theorem exists_generate_iff : (∃ o, s.generate settings = .ok o) ↔
    Apart settings s.messages ∧ ∀ m ∈ s.messages, ∃ l, Layout.plan s m = .ok l := by
  constructor
  · rintro ⟨o, generated⟩
    obtain ⟨r, verdict⟩ := exists_verdict s settings
    cases (generate_of_verdict verdict).symm.trans generated
    cases verdict with
    | generated apart messages registry index =>
      refine ⟨apart, fun m hm => ?_⟩
      obtain ⟨a, -, -, l, plan, -⟩ := exists_of_mem_left messages hm
      exact ⟨l, plan⟩
  · rintro ⟨apart, planned⟩
    exact (exists_generated apart planned).imp fun o => generate_of_verdict

/-- A run ends as its verdict says, and there is no other verdict. -/
theorem generate_eq_iff_verdict (s : Schema) (settings : Settings) (r : Except SchemaError Output) :
    s.generate settings = r ↔ Verdict s settings r := by
  refine ⟨?_, generate_of_verdict⟩
  rintro rfl
  obtain ⟨r, verdict⟩ := exists_verdict s settings
  rwa [generate_of_verdict verdict]

/-- The repeated id is reported, and not the parent that is missing from the first message. -/
example : generate { messages :=
    [{ name := "A", protocolId := 1, parent := some "B" }, { name := "C", protocolId := 1 }] } {} =
      .error (.duplicateProtocolId 1 "A" "C") := rfl

end Schema

end WireCodec
