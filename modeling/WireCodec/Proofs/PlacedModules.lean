import WireCodec.Proofs.LayoutNames
import WireCodec.Proofs.TreeScopes

/-!
# The modules that a run places

Each artifact of a run presents a module of the schema (`Artifact.Presents`): it has the segments of
the module, its source is a list of lines that open no module, and it declares the names of the
module besides names of the runtime crate. No two artifacts of a run have the same segments.
-/

namespace WireCodec

/-! ## Modules of a schema -/

/-- A module of the generated code: the segments that lead to it, and the names that it declares
besides those it takes from the runtime crate. -/
structure ModuleScope where
  segments : List String
  names : List String
  deriving DecidableEq, Repr

/-- The module of a message. -/
def MessageDecl.moduleScope (settings : Settings) (m : MessageDecl) : ModuleScope :=
  ⟨settings.messageSegments m.package m.name, m.name :: m.usedNames⟩

namespace Schema

variable (s : Schema) (settings : Settings)

/-- The modules of a schema, in the order of the artifacts. -/
def moduleScopes : List ModuleScope :=
  s.messages.map (·.moduleScope settings) ++
    [⟨[registryModule], ["MessageFactory", "MessageRegistry"]⟩,
      ⟨[indexModule], s.messages.map (·.name)⟩]

end Schema

/-! ## Printed sources -/

namespace Artifact

/-- The names that the source of an artifact declares. -/
def names (a : Artifact) : List String := (Source.linesOf a.source).filterMap Line.item?

end Artifact

section Printed

variable {ls : List Line} (neat : Source.Neat ls) {names : List String}
  (declared : declarations ls = names.map .item)

include neat

theorem neat_linesOf_print : Source.Neat (Source.linesOf (Source.print ls)) := by
  rw [Source.linesOf_print neat, Source.neat_map]
  intro l hl c hc
  apply Source.not_mem_chars (neat l hl) c
  rwa [Line.flat, Line.outer, String.toList_ofList] at hc

include declared

theorem items_linesOf_print :
    (Source.linesOf (Source.print ls)).filterMap Line.item? = names ∧
      ∀ l ∈ Source.linesOf (Source.print ls), l.Inner := by
  apply items_of_declarations
  rw [Source.linesOf_print neat, declarations_flat, declared]

end Printed

/-! ## Artifacts -/

/-- The artifact is placed where the module stands and declares its names. -/
structure Artifact.Presents (a : Artifact) (c : ModuleScope) : Prop where
  segments : a.segments = c.segments
  tidy : Placed.Tidy ⟨a.segments, a⟩
  nodup : a.names.Nodup
  declares : ∀ name ∈ c.names, name ∈ a.names
  only : ∀ name ∈ a.names, name ∈ c.names ∨ name ∈ reservedNames

namespace Artifact

/-- The artifact of a message with the given layout. -/
def ofLayout (settings : Settings) (m : MessageDecl) (l : Layout) : Artifact where
  name := m.name
  path := filePath (settings.messageSegments m.package m.name)
  modulePath := settings.messageModule m.package m.name
  segments := settings.messageSegments m.package m.name
  reexport := some m.name
  source := Source.print (Source.moduleLines settings m l (.ofLayout m l))

theorem ofMessage_eq_ok_iff {settings : Settings} {s : Schema} {m : MessageDecl} {a : Artifact} :
    ofMessage settings s m = .ok a ↔ ∃ l, Layout.plan s m = .ok l ∧ ofLayout settings m l = a := by
  rw [ofMessage, bind_eq_ok_iff]
  constructor
  · rintro ⟨l, planned, made⟩
    cases made
    exact ⟨l, planned, rfl⟩
  · rintro ⟨l, planned, rfl⟩
    exact ⟨l, planned, rfl⟩

variable {settings : Settings} (neat : settings.Neat)

include neat

theorem presents_ofLayout {s : Schema} (words : s.Worded) {m : MessageDecl} (hm : m ∈ s.messages)
    (package : Unbroken m.package) {l : Layout} (h : Layout.plan s m = .ok l) :
    (ofLayout settings m l).Presents (m.moduleScope settings) := by
  have word := words.message m hm
  have worded := Layout.worded_of_plan words h
  have lines :=
    Source.neat_moduleLines neat word.unbroken package (Layout.sound_of_plan h) worded.unbroken
  have declared := Source.declarations_moduleLines settings word worded (.ofLayout m l)
  obtain ⟨items, inner⟩ := items_linesOf_print lines declared
  have own : (ofLayout settings m l).names =
      Source.runtimeNames l ++ Source.usedNames l ++ [m.name] := items
  refine ⟨rfl, ⟨isSegment_messageSegments settings m.package m.name,
    Source.linesOf_print_ne_nil (Source.moduleLines_ne_nil settings m l _),
    neat_linesOf_print lines, inner, fun name => ?_⟩, ?_, ?_, ?_⟩
  · rintro ⟨⟩
    exact word
  · rw [own]
    exact Layout.nodup_moduleNames h
  · rw [own]
    refine List.forall_mem_cons.2 ⟨by simp, fun name used => ?_⟩
    simp [(Layout.mem_usedNames_iff h).2 used]
  · rw [own]
    intro name mem
    rcases List.mem_append.1 mem with mem | own
    · rcases List.mem_append.1 mem with runtime | used
      · exact .inr (Layout.runtimeNames_subset l runtime)
      · exact .inl (List.mem_cons_of_mem _ ((Layout.mem_usedNames_iff h).1 used))
    · exact .inl (List.mem_cons.2 (.inl (List.mem_singleton.1 own)))

omit neat in
theorem presents_ofModule {name : String} (segment : IsSegment name) {lines : List Line}
    (filled : lines ≠ []) (neat : Source.Neat lines) {names own : List String}
    (declared : declarations lines = names.map .item) (nodup : names.Nodup)
    (declares : ∀ n ∈ own, n ∈ names) (only : ∀ n ∈ names, n ∈ own ∨ n ∈ reservedNames) :
    (ofModule settings name lines).Presents ⟨[name], own⟩ := by
  obtain ⟨items, inner⟩ := items_linesOf_print neat declared
  have eq : (ofModule settings name lines).names = names := items
  refine ⟨rfl, ⟨List.forall_mem_singleton.2 segment, Source.linesOf_print_ne_nil filled,
    neat_linesOf_print neat, inner, nofun⟩, ?_, ?_, ?_⟩
  · rwa [eq]
  · rwa [eq]
  · rwa [eq]

end Artifact

/-! ## Runs -/

theorem messageSegments_empty (settings : Settings) (name : String) :
    settings.messageSegments "" name = [identifier name] := by
  have root : withoutRoot settings.packageRoot "" = [] := by
    unfold withoutRoot
    cases settings.packageRoot.toList <;> rfl
  rw [Settings.messageSegments, packageSegments, root]
  rfl

/-- A message that is not refused has an id, a name and a module of its own. -/
theorem refuseRepeat_eq_ok {settings : Settings} {earlier : List MessageDecl} {m : MessageDecl}
    (h : refuseRepeat settings earlier m = .ok ()) :
    (∀ e ∈ earlier, e.protocolId ≠ m.protocolId) ∧ (∀ e ∈ earlier, e.name ≠ m.name) ∧
      ∀ holder ∈ moduleHolders settings earlier,
        holder.1 ≠ settings.messageModule m.package m.name := by
  unfold refuseRepeat at h
  simp only at h
  split at h
  · exact nomatch h
  · rename_i unused
    split at h
    · exact nomatch h
    · rename_i differ
      split at h
      · exact nomatch h
      · rename_i free
        refine ⟨fun e he same => ?_,
          fun e he same => differ (List.any_eq_true.2 ⟨e, he, by simpa using same⟩), ?_⟩
        · have other := List.find?_eq_none.1 (Option.eq_none_iff_forall_ne_some.2 unused) e he
          simp [same] at other
        · have none := Option.eq_none_iff_forall_ne_some.2 free
          intro holder mem same
          have := List.lookup_eq_none_iff.1 none holder mem
          simp [same] at this

/-- The segments of the run's own modules and of the given messages. -/
def takenSegments (settings : Settings) (ms : List MessageDecl) : List (List String) :=
  [[registryModule], [indexModule]] ++ ms.map fun m => settings.messageSegments m.package m.name

theorem not_mem_takenSegments {settings : Settings} {earlier : List MessageDecl} {m : MessageDecl}
    (h : refuseRepeat settings earlier m = .ok ()) :
    settings.messageSegments m.package m.name ∉ takenSegments settings earlier := by
  obtain ⟨-, -, apart⟩ := refuseRepeat_eq_ok h
  have own (name : String) (mem : name ∈ [registryModule, indexModule])
      (same : settings.messageSegments m.package m.name = [identifier name]) : False := by
    apply apart _ (List.mem_append_left _ (List.mem_map_of_mem mem))
    rw [Settings.messageModule, Settings.messageModule, same, messageSegments_empty]
  intro taken
  simp only [takenSegments, List.mem_append, List.mem_cons, List.not_mem_nil, or_false,
    List.mem_map] at taken
  rcases taken with (registry | index) | ⟨e, he, same⟩
  · exact own registryModule (by decide) (registry.trans (by decide))
  · exact own indexModule (by decide) (index.trans (by decide))
  · apply apart _ (List.mem_append_right _ (List.mem_map_of_mem he))
    rw [Settings.messageModule, Settings.messageModule, same]

/-- No two of the messages share an id, a name or a module, and none takes a module of the run. -/
structure Distinct (settings : Settings) (ms : List MessageDecl) : Prop where
  ids : (ms.map (·.protocolId)).Nodup
  names : (ms.map (·.name)).Nodup
  segments : (takenSegments settings ms).Nodup

theorem distinct_nil (settings : Settings) : Distinct settings [] :=
  ⟨.nil, .nil, by simp [takenSegments]; decide⟩

theorem nodup_map_concat {α β : Type} {f : α → β} {xs : List α} {x : α} (h : (xs.map f).Nodup)
    (new : ∀ e ∈ xs, f e ≠ f x) : ((xs ++ [x]).map f).Nodup := by
  rw [List.map_append, List.map_singleton, nodup_concat_iff]
  refine ⟨h, fun mem => ?_⟩
  obtain ⟨e, he, same⟩ := List.mem_map.1 mem
  exact new e he same

theorem Distinct.concat {settings : Settings} {earlier : List MessageDecl} {m : MessageDecl}
    (h : Distinct settings earlier) (accepted : refuseRepeat settings earlier m = .ok ()) :
    Distinct settings (earlier ++ [m]) := by
  obtain ⟨ids, names, -⟩ := refuseRepeat_eq_ok accepted
  refine ⟨nodup_map_concat h.ids ids, nodup_map_concat h.names names, ?_⟩
  rw [takenSegments, List.map_append, List.map_singleton, ← List.append_assoc, nodup_concat_iff]
  exact ⟨h.segments, not_mem_takenSegments accepted⟩

/-- The entries of a dispatch table are those of its messages, which are distinct. -/
theorem entriesAfter_eq_ok {settings : Settings} {earlier ms : List MessageDecl}
    {entries : List DispatchEntry} (h : entriesAfter settings earlier ms = .ok entries)
    (distinct : Distinct settings earlier) :
    entries = ms.map (.ofMessage settings) ∧ Distinct settings (earlier ++ ms) := by
  induction ms generalizing earlier entries with
  | nil =>
    cases h
    rw [List.append_nil]
    exact ⟨rfl, distinct⟩
  | cons m ms ih =>
    obtain ⟨⟨⟩, accepted, h⟩ := bind_eq_ok_iff.1 h
    obtain ⟨rest, hrest, h⟩ := bind_eq_ok_iff.1 h
    cases h
    obtain ⟨rfl, all⟩ := ih hrest (distinct.concat accepted)
    rw [List.append_assoc] at all
    exact ⟨rfl, all⟩

namespace Schema

variable {s : Schema} {settings : Settings} {o : Output}

/-- The steps of a run that succeeds. -/
theorem generate_eq_ok (h : s.generate settings = .ok o) :
    (s.dispatchPlan settings = .ok (Source.planOf settings s.messages) ∧
        Distinct settings s.messages) ∧
      List.Forall₂ (fun m a => ∃ l, Layout.plan s m = .ok l ∧ .ofLayout settings m l = a)
        s.messages o.messages ∧
      o.registry = .ofModule settings registryModule
        (Source.registryLines settings (Source.planOf settings s.messages)) ∧
      o.index = .ofModule settings indexModule
        (Source.indexLines (Source.planOf settings s.messages)) := by
  obtain ⟨plan, planned, h⟩ := bind_eq_ok_iff.1 h
  obtain ⟨messages, each, h⟩ := bind_eq_ok_iff.1 h
  obtain ⟨entries, found, rfl⟩ := map_eq_ok_iff.1 planned
  obtain ⟨rfl, distinct⟩ := entriesAfter_eq_ok found (distinct_nil settings)
  cases h
  refine ⟨⟨planned, distinct⟩, ?_, rfl, rfl⟩
  exact (mapM_eq_ok_iff.1 each).imp fun _ _ => Artifact.ofMessage_eq_ok_iff.1

/-- No two artifacts of a run have the same segments. -/
theorem nodup_segments (h : s.generate settings = .ok o) :
    (o.artifacts.map (·.segments)).Nodup := by
  obtain ⟨⟨-, distinct⟩, each, registry, index⟩ := generate_eq_ok h
  have messages : o.messages.map (·.segments) =
      s.messages.map fun m => settings.messageSegments m.package m.name := by
    refine map_eq_map_of_forall₂ each.flip fun a m made => ?_
    obtain ⟨l, -, rfl⟩ := made
    rfl
  rw [Output.artifacts, List.map_append, messages, registry, index]
  exact List.perm_append_comm.nodup_iff.1 distinct.segments

/-- What goes into the code of a schema reads as written: names are words, and packages and the
paths of the settings stay on their lines. -/
structure Spelled (s : Schema) (settings : Settings) : Prop where
  words : s.Worded
  packages : ∀ m ∈ s.messages, Unbroken m.package
  paths : settings.Neat

/-- Names and packages, and the paths of the settings, stay on their lines. -/
structure OnLines (s : Schema) (settings : Settings) : Prop where
  names : ∀ m ∈ s.messages, Unbroken m.name
  packages : ∀ m ∈ s.messages, Unbroken m.package
  types : ∀ t ∈ s.types, Unbroken t.name
  paths : settings.Neat

theorem OnLines.neat_moduleLines (plain : s.OnLines settings) {m : MessageDecl}
    (hm : m ∈ s.messages) {l : Layout} (planned : Layout.plan s m = .ok l) :
    Source.Neat (Source.moduleLines settings m l (.ofLayout m l)) :=
  have named := Layout.named_of_plan (fun p hp _ => plain.names p hp) plain.types planned
  Source.neat_moduleLines plain.paths (plain.names m hm) (plain.packages m hm)
    (Layout.sound_of_plan planned) named

/-- Each artifact of a run presents its module. -/
theorem presents_of_generate (h : s.generate settings = .ok o) (spelled : s.Spelled settings) :
    List.Forall₂ Artifact.Presents o.artifacts (s.moduleScopes settings) := by
  obtain ⟨⟨-, distinct⟩, each, registry, index⟩ := generate_eq_ok h
  obtain ⟨words, packages, paths⟩ := spelled
  have plain : ∀ m ∈ s.messages, Unbroken m.name := fun m hm => (words.message m hm).unbroken
  have messages : List.Forall₂ Artifact.Presents o.messages
      (s.messages.map (·.moduleScope settings)) := by
    rw [List.forall₂_map_right_iff]
    refine (forall₂_imp_of_mem each fun m hm a made => ?_).flip
    obtain ⟨l, planned, rfl⟩ := made
    exact Artifact.presents_ofLayout paths words hm (packages m hm) planned
  refine List.rel_append messages (.cons ?_ (.cons ?_ .nil))
  · rw [registry]
    exact Artifact.presents_ofModule (by decide) (Source.registryLines_ne_nil _)
      (Source.neat_registryLines paths plain) (Source.declarations_registryLines settings _)
      (by decide) (by decide) (by decide)
  · rw [index]
    exact Artifact.presents_ofModule (by decide) (Source.indexLines_ne_nil _)
      (Source.neat_indexLines paths plain) (Source.declarations_indexLines words.message)
      distinct.names (fun _ => id) fun _ => .inl

end Schema

/-! ## The tree of a run -/

namespace Output

variable {s : Schema} {settings : Settings} {o : Output} (h : s.generate settings = .ok o)

include h

theorem segments_ne_nil : ∀ a ∈ o.artifacts, a.segments ≠ [] := by
  obtain ⟨-, each, registry, index⟩ := Schema.generate_eq_ok h
  refine List.forall_mem_append.2 ⟨fun a ha => ?_, ?_⟩
  · obtain ⟨m, -, l, -, rfl⟩ := exists_of_mem_right each ha
    simp [Artifact.ofLayout, Settings.messageSegments]
  · rw [List.forall_mem_cons, List.forall_mem_singleton, registry, index]
    exact ⟨List.cons_ne_nil _ _, List.cons_ne_nil _ _⟩

theorem linesOf_source_ne_nil : ∀ a ∈ o.artifacts, Source.linesOf a.source ≠ [] := by
  obtain ⟨-, each, registry, index⟩ := Schema.generate_eq_ok h
  refine List.forall_mem_append.2 ⟨fun a ha => ?_, ?_⟩
  · obtain ⟨m, -, l, -, rfl⟩ := exists_of_mem_right each ha
    exact Source.linesOf_print_ne_nil (Source.moduleLines_ne_nil settings m l _)
  · rw [List.forall_mem_cons, List.forall_mem_singleton, registry, index]
    exact ⟨Source.linesOf_print_ne_nil (Source.registryLines_ne_nil _),
      Source.linesOf_print_ne_nil (Source.indexLines_ne_nil _)⟩

/-- Every artifact of a run has a place. -/
theorem placed_of_generate : o.placed = o.artifacts.map fun a => ⟨a.segments, a⟩ := by
  rw [placed, List.filter_eq_self.2]
  simpa using segments_ne_nil h

theorem placed_filled : ∀ p ∈ o.placed, Source.linesOf p.artifact.source ≠ [] := by
  rw [placed_of_generate h]
  exact List.forall_mem_map.2 (linesOf_source_ne_nil h)

/-- The tree of a run is not empty, so a blank line stands in front of it. -/
theorem moduleTree_of_generate : o.moduleTree = Source.print (Source.spaced
    [[.outer "// Protocol modules: generated by protogen, do not edit."],
      Placed.treeLines (Placed.height o.placed) o.placed]) := by
  have index : ⟨o.index.segments, o.index⟩ ∈ o.placed := by
    rw [placed_of_generate h]
    exact List.mem_map.2 ⟨o.index, by simp [artifacts], rfl⟩
  have segments : o.index.segments = [indexModule] := by
    rw [(Schema.generate_eq_ok h).2.2.2]
    rfl
  have child : indexModule ∈ Placed.childNames o.placed :=
    Placed.mem_childNames.2 ⟨_, index, by rw [segments]; rfl⟩
  have filled := Placed.treeLines_ne_nil (placed_filled h) child Placed.length_le_height
  have tree : Source.spaced [Placed.treeLines (Placed.height o.placed) o.placed] =
      Placed.treeLines (Placed.height o.placed) o.placed :=
    Source.joined_singleton Line.blank _
  rw [moduleTree, Source.spaced_cons, if_neg (List.cons_ne_nil _ _), tree, if_neg filled]
  rfl

end Output

end WireCodec
