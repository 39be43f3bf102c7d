import WireCodec.Proofs.Verdicts

/-!
# What an artifact depends on

The module of a message depends on little of its schema: on the package of its parent and on those
of the custom types of its fields (`AgreeOn`). The order in which a schema declares its messages and
types changes neither the outcome of a run nor any module.
-/

namespace WireCodec

/-! ## Lookups -/

section Lookups

variable {α β : Type} [DecidableEq β] {key : α → β} {xs ys : List α}

/-- Where no key comes twice, it does not matter in which order it is looked for. -/
theorem find?_eq_of_perm (perm : xs.Perm ys) (nodup : (xs.map key).Nodup) (k : β) :
    xs.find? (key · = k) = ys.find? (key · = k) := by
  cases found : ys.find? (key · = k) with
  | none =>
    rw [List.find?_eq_none] at found ⊢
    exact fun x hx => found x (perm.mem_iff.1 hx)
  | some y =>
    obtain rfl : key y = k := by simpa using List.find?_some found
    exact find?_key_of_mem nodup (perm.mem_iff.2 (List.mem_of_find?_eq_some found))

end Lookups

/-! ## The same lookups, the same layouts -/

section Congruence

variable {s s' : Schema} (messages : ∀ name, s.message? name = s'.message? name)
  (types : ∀ name, s.type? name = s'.type? name)

include messages

theorem Schema.ancestorsFrom_congr (start : String) (met : List String) (m : MessageDecl) :
    s.ancestorsFrom start met m = s'.ancestorsFrom start met m := by
  induction met, m using Schema.ancestorsFrom.induct s with
  | case1 met m root => rw [ancestorsFrom_root root, ancestorsFrom_root root]
  | case2 met m name named missing =>
    rw [ancestorsFrom_unresolved named missing,
      ancestorsFrom_unresolved named (messages name ▸ missing)]
  | case3 met m name named parent found again =>
    rw [ancestorsFrom_cycle named found again,
      ancestorsFrom_cycle named (messages name ▸ found) again]
  | case4 met m name named parent found new ih =>
    rw [ancestorsFrom_step named found new, ancestorsFrom_step named (messages name ▸ found) new,
      ih]

include types

theorem Layout.plan_congr (m : MessageDecl) : plan s m = plan s' m := by
  have ancestors : s.ancestors m = s'.ancestors m := Schema.ancestorsFrom_congr messages _ _ _
  have slots : fieldSlot s m.name = fieldSlot s' m.name := by
    funext f
    unfold fieldSlot
    rw [types]
  unfold plan
  rw [ancestors, slots]

end Congruence

/-! ## Agreement on what a message refers to -/

/-- The schemas have the same package for the parent of a message, and for each custom type of its
fields. -/
structure Schema.AgreeOn (s s' : Schema) (m : MessageDecl) : Prop where
  parent : ∀ name, m.parentName = some name →
    (s.message? name).map (·.package) = (s'.message? name).map (·.package)
  types : ∀ f ∈ m.fields, f.isFlag = false → Primitive.ofTag? f.typeName = none →
    (s.type? f.typeName).map (·.package) = (s'.type? f.typeName).map (·.package)

theorem eq_of_forall₂ {α β : Type} {R S : α → β → Prop} {xs : List α} {ys zs : List β}
    (h : List.Forall₂ R xs ys) (h' : List.Forall₂ S xs zs)
    (same : ∀ x ∈ xs, ∀ y z, R x y → S x z → y = z) : ys = zs := by
  induction h generalizing zs with
  | nil => cases h'; rfl
  | cons hxy _ ih =>
    obtain - | ⟨hxz, rest⟩ := h'
    obtain ⟨first, others⟩ := List.forall_mem_cons.1 same
    rw [first _ _ hxy hxz, ih rest others]

namespace Layout

variable {s s' : Schema} {m : MessageDecl}

theorem parentOf_eq_of_agree (agree : s.AgreeOn s' m) {ancestors ancestors' : List MessageDecl}
    (h : s.ancestors m = .ok ancestors) (h' : s'.ancestors m = .ok ancestors') :
    parentOf ancestors = parentOf ancestors' := by
  have names := (parentName_eq_of_ancestors h).symm.trans (parentName_eq_of_ancestors h')
  cases ancestors with
  | nil =>
    cases ancestors' with
    | nil => rfl
    | cons parent' _ => exact nomatch names
  | cons parent _ =>
    cases ancestors' with
    | nil => exact nomatch names
    | cons parent' _ =>
      obtain ⟨⟨name, named, found⟩, -⟩ := Schema.ancestors_eq_cons h
      obtain ⟨⟨name', named', found'⟩, -⟩ := Schema.ancestors_eq_cons h'
      cases named.symm.trans named'
      have packages := agree.parent name named
      rw [found, found', Option.map_some, Option.map_some] at packages
      simp only [parentOf, List.head?_cons, Option.map_some, Option.some.injEq] at names packages ⊢
      rw [names, packages]

theorem fieldSlot_eq_of_agree (agree : s.AgreeOn s' m) {f : FieldDecl} (hf : f ∈ m.fields)
    (data : f.isFlag = false) {slot slot' : FieldSlot} (h : fieldSlot s m.name f = .ok slot)
    (h' : fieldSlot s' m.name f = .ok slot') : slot = slot' := by
  unfold fieldSlot at h h'
  cases tag : Primitive.ofTag? f.typeName with
  | some p =>
    rw [tag] at h h'
    cases h.symm.trans h'
    rfl
  | none =>
    have packages := agree.types f hf data tag
    rw [tag] at h h'
    cases found : s.type? f.typeName with
    | none => simp [found] at h
    | some t =>
      cases found' : s'.type? f.typeName with
      | none => simp [found'] at h'
      | some t' =>
        simp only [found, found', Except.ok.injEq] at h h'
        have name : t.name = f.typeName := by simpa using List.find?_some found
        have name' : t'.name = f.typeName := by simpa using List.find?_some found'
        rw [found, found', Option.map_some, Option.map_some, Option.some.injEq] at packages
        rw [← h, ← h', name, name', packages]

/-- A message is laid out alike in schemas that agree on what it refers to. -/
theorem eq_of_agree (agree : s.AgreeOn s' m) {l l' : Layout} (h : plan s m = .ok l)
    (h' : plan s' m = .ok l') : l = l' := by
  obtain ⟨-, ancestors, flags, fields, taken, _, found, laidFlags, laidFields, -, rfl⟩ := plan_ok h
  obtain ⟨-, ancestors', flags', fields', taken', _, found', laidFlags', laidFields', -, rfl⟩ :=
    plan_ok h'
  have parent := parentOf_eq_of_agree agree found found'
  rw [parent] at laidFlags
  cases laidFlags.symm.trans laidFlags'
  have fields : fields = fields' := by
    refine eq_of_forall₂ (claimEach_ok laidFields).1 (claimEach_ok laidFields').1 fun f hf _ _ => ?_
    obtain ⟨mem, data⟩ := List.mem_filter.1 hf
    exact fieldSlot_eq_of_agree agree mem (by simpa using data)
  rw [parent, fields]

end Layout

/-! ## Artifacts -/

theorem Artifact.eq_of_agree {s s' : Schema} {settings : Settings} {m : MessageDecl}
    (agree : s.AgreeOn s' m) {a a' : Artifact} (h : ofMessage settings s m = .ok a)
    (h' : ofMessage settings s' m = .ok a') : a = a' := by
  obtain ⟨l, plan, rfl⟩ := ofMessage_eq_ok_iff.1 h
  obtain ⟨l', plan', rfl⟩ := ofMessage_eq_ok_iff.1 h'
  rw [Layout.eq_of_agree agree plan plan']

/-! ## The order of declarations -/

theorem Apart.perm {settings : Settings} {ms ms' : List MessageDecl} (apart : Apart settings ms)
    (perm : ms.Perm ms') : Apart settings ms' := by
  obtain ⟨ids, names, modules⟩ := apart
  refine ⟨(perm.map _).nodup_iff.1 ids, (perm.map _).nodup_iff.1 names, ?_⟩
  rw [map_moduleHolders] at modules ⊢
  exact ((perm.map _).append_left _).nodup_iff.1 modules

namespace Schema

/-- The schemas declare the same messages and types, maybe in another order. -/
structure Reorders (s s' : Schema) : Prop where
  messages : s.messages.Perm s'.messages
  types : s.types.Perm s'.types

variable {s s' : Schema} {settings : Settings}

theorem Reorders.symm (h : s.Reorders s') : s'.Reorders s := ⟨h.messages.symm, h.types.symm⟩

theorem Reorders.plan_eq (h : s.Reorders s') (messageNames : (s.messages.map (·.name)).Nodup)
    (typeNames : (s.types.map (·.name)).Nodup) (m : MessageDecl) :
    Layout.plan s m = Layout.plan s' m :=
  Layout.plan_congr (find?_eq_of_perm h.messages messageNames)
    (find?_eq_of_perm h.types typeNames) m

theorem Reorders.exists_generate (h : s.Reorders s') (typeNames : (s.types.map (·.name)).Nodup)
    (generated : ∃ o, s.generate settings = .ok o) : ∃ o, s'.generate settings = .ok o := by
  obtain ⟨apart, planned⟩ := exists_generate_iff.1 generated
  refine exists_generate_iff.2 ⟨apart.perm h.messages, fun m hm => ?_⟩
  rw [← h.plan_eq apart.names typeNames]
  exact planned m (h.messages.mem_iff.2 hm)

theorem names_of_generate {o : Output} (h : s.generate settings = .ok o) :
    o.messages.map (·.name) = s.messages.map (·.name) := by
  obtain ⟨-, each, -⟩ := generate_eq_ok h
  refine (map_eq_map_of_forall₂ each fun m a made => ?_).symm
  obtain ⟨l, -, rfl⟩ := made
  rfl

theorem mem_of_generate {o : Output} (h : s.generate settings = .ok o) {a : Artifact} :
    a ∈ o.messages ↔ ∃ m ∈ s.messages, Artifact.ofMessage settings s m = .ok a := by
  obtain ⟨-, each, -⟩ := generate_eq_ok h
  constructor
  · intro ha
    obtain ⟨m, hm, made⟩ := exists_of_mem_right each ha
    exact ⟨m, hm, Artifact.ofMessage_eq_ok_iff.2 made⟩
  · rintro ⟨m, hm, made⟩
    obtain ⟨b, hb, made'⟩ := exists_of_mem_left each hm
    cases made.symm.trans (Artifact.ofMessage_eq_ok_iff.2 made')
    exact hb

theorem nodup_of_generate {o : Output} (h : s.generate settings = .ok o) :
    (o.messages.map (·.name)).Nodup :=
  names_of_generate h ▸ (exists_generate_iff.1 ⟨o, h⟩).1.names

/-- A message finds its artifact under its name. -/
theorem message?_of_generate {o : Output} (h : s.generate settings = .ok o) {m : MessageDecl}
    (hm : m ∈ s.messages) :
    ∃ a, o.message? m.name = some a ∧ Artifact.ofMessage settings s m = .ok a := by
  obtain ⟨-, each, -⟩ := generate_eq_ok h
  obtain ⟨a, ha, l, plan, rfl⟩ := exists_of_mem_left each hm
  have found := find?_key_of_mem (nodup_of_generate h) ha
  exact ⟨_, found, Artifact.ofMessage_eq_ok_iff.2 ⟨l, plan, rfl⟩⟩

/-- Schemas that declare the same in another order either both fail or both succeed, and then have
the same artifacts, if no type is declared twice. The artifact of a message is the same in any two
schemas that agree on what the message refers to, whatever else they declare. -/
theorem artifacts_eq_of_reorders_or_agree :
    (∀ (settings : Settings) (s s' : Schema), (s.types.map (·.name)).Nodup → s.Reorders s' →
      ((∃ o, s.generate settings = .ok o) ↔ ∃ o', s'.generate settings = .ok o') ∧
      ∀ o o', s.generate settings = .ok o → s'.generate settings = .ok o' →
        o.messages.Perm o'.messages ∧
        ∀ m ∈ s.messages, ∃ a, Artifact.ofMessage settings s m = .ok a ∧
          Artifact.ofMessage settings s' m = .ok a ∧
          o.message? m.name = some a ∧ o'.message? m.name = some a) ∧
    ∀ (settings : Settings) (s s' : Schema) (m : MessageDecl) (a a' : Artifact),
      s.AgreeOn s' m → Artifact.ofMessage settings s m = .ok a →
      Artifact.ofMessage settings s' m = .ok a' → a = a' := by
  refine ⟨fun settings s s' typeNames reorders => ⟨⟨?_, ?_⟩, fun o o' h h' => ?_⟩,
    fun settings s s' m a a' agree => Artifact.eq_of_agree agree⟩
  · exact reorders.exists_generate typeNames
  · exact reorders.symm.exists_generate ((reorders.types.map _).nodup_iff.1 typeNames)
  have apart := (exists_generate_iff.1 ⟨o, h⟩).1
  have same : ∀ m, Artifact.ofMessage settings s m = Artifact.ofMessage settings s' m := by
    intro m
    unfold Artifact.ofMessage
    rw [reorders.plan_eq apart.names typeNames]
  refine ⟨?_, fun m hm => ?_⟩
  · refine (List.perm_ext_iff_of_nodup (nodup_of_generate h).of_map (nodup_of_generate h').of_map).2
      fun a => ?_
    rw [mem_of_generate h, mem_of_generate h']
    exact exists_congr fun m => and_congr reorders.messages.mem_iff (by rw [same])
  · obtain ⟨a, found, made⟩ := message?_of_generate h hm
    obtain ⟨a', found', made'⟩ := message?_of_generate h' (reorders.messages.mem_iff.1 hm)
    cases (made.symm.trans (same m)).trans made'
    exact ⟨a, made, made', found, found'⟩

/-- A message with a parent and a field of a custom type. -/
def greeting : MessageDecl where
  name := "Greeting"
  package := "talk"
  protocolId := 1
  parent := some "Talk"
  fields := [.object "place" "Point", .primitive "words" "String" "writeUTF"]

def plaza : Schema where
  messages := [greeting, { name := "Talk", package := "net", protocolId := 2 }]
  types := [{ name := "Point", package := "geometry" }, { name := "Color" }]

def plazaReversed : Schema := ⟨plaza.messages.reverse, plaza.types.reverse⟩

/-- Only the packages of `Talk` and `Point` are as in `plaza`. -/
def crowdedPlaza : Schema where
  messages :=
    [{ name := "Murmur", protocolId := 1 },
      { name := "Talk", package := "net", protocolId := 9, parent := some "Murmur" }]
  types := [{ name := "Point", package := "geometry" }, { name := "Color", package := "paint" }]

theorem agreeOn_crowdedPlaza : plaza.AgreeOn crowdedPlaza greeting where
  parent name named := by
    cases named
    decide +kernel
  types := by decide +kernel

theorem artifacts_eq_of_reorders_or_agree_plaza :
    (∃ o o', plaza.generate {} = .ok o ∧ plazaReversed.generate {} = .ok o' ∧
      o.messages.Perm o'.messages ∧ o.messages ≠ o'.messages) ∧
    ∃ a, Artifact.ofMessage {} plaza greeting = .ok a ∧
      Artifact.ofMessage {} crowdedPlaza greeting = .ok a := by
  have typeNames : (plaza.types.map (·.name)).Nodup := by decide
  have reorders : plaza.Reorders plazaReversed :=
    ⟨(List.reverse_perm _).symm, (List.reverse_perm _).symm⟩
  obtain ⟨o, h⟩ := exists_of_isOk (show (plaza.generate {}).isOk by decide +kernel)
  obtain ⟨succeeds, same⟩ :=
    artifacts_eq_of_reorders_or_agree.1 {} plaza plazaReversed typeNames reorders
  obtain ⟨o', h'⟩ := succeeds.1 ⟨o, h⟩
  obtain ⟨perm, -⟩ := same o o' h h'
  refine ⟨⟨o, o', h, h', perm, fun eq => ?_⟩, ?_⟩
  · have names := names_of_generate h
    rw [eq, names_of_generate h'] at names
    exact absurd names (by decide)
  obtain ⟨a, made⟩ :=
    exists_of_isOk (show (Artifact.ofMessage {} plaza greeting).isOk by decide +kernel)
  obtain ⟨a', made'⟩ :=
    exists_of_isOk (show (Artifact.ofMessage {} crowdedPlaza greeting).isOk by decide +kernel)
  cases artifacts_eq_of_reorders_or_agree.2 {} plaza crowdedPlaza greeting a a'
    agreeOn_crowdedPlaza made made'
  exact ⟨a, made, made'⟩

end Schema

end WireCodec
