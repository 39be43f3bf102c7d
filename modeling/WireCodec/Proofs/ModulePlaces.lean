import WireCodec.Proofs.FilePaths

/-!
# Places of modules

An artifact tells its place three times: by its segments, its file and its module path. With a root
for the messages all three are one place, and the run's own modules have the paths reserved for
them. Without a root the run's own modules have colons in front, unlike messages and the reserved
paths.
-/

namespace WireCodec

namespace Artifact

variable {settings : Settings} {a : Artifact}

/-- The file is found along the segments, with the given names instead of raw identifiers. -/
structure FoundAt (a : Artifact) (names : List String) : Prop where
  segments : a.segments = names.map addRaw
  unmarked : ∀ name ∈ names, '#' ∉ name.toList
  path : a.path = "/".intercalate names ++ ".rs"

/-- The module path is that of the segments below the root of the messages. -/
def BelowRoot (settings : Settings) (a : Artifact) : Prop :=
  a.modulePath = joinPath settings.messagesRoot a.segments

theorem not_mem_fileName (name : String) : '#' ∉ (fileName (identifier name)).toList := by
  have plain := not_mem_snakeCase name
  unfold identifier
  by_cases h : snakeCase name ∈ keywords
  · rwa [escapeWord_of_mem h, fileName_raw plain]
  · have escaped := not_mem_escapeWord h plain
    rwa [fileName_of_not_mem escaped]

theorem Located.foundAt (h : a.Located settings) : a.FoundAt (a.segments.map fileName) := by
  have each : ∀ segment ∈ a.segments,
      addRaw (fileName segment) = segment ∧ '#' ∉ (fileName segment).toList := by
    intro segment mem
    obtain ⟨name, rfl⟩ := h.module.identifiers segment mem
    exact ⟨addRaw_fileName name, not_mem_fileName name⟩
  refine ⟨?_, List.forall_mem_map.2 fun segment mem => (each segment mem).2, h.path⟩
  rw [List.map_map]
  exact ((List.map_congr_left fun segment mem => (each segment mem).1).trans (List.map_id' _)).symm

theorem belowRoot_ofLayout (m : MessageDecl) (l : Layout) :
    (ofLayout settings m l).BelowRoot settings := rfl

/-- A module of the run's own is put below the root without regard to there being none. -/
theorem modulePath_ofModule_eq_iff {name : String} (lines : List Line) :
    (ofModule settings name lines).modulePath = joinPath settings.messagesRoot [name] ↔
      settings.messagesRoot ≠ "" := by
  change settings.messagesRoot ++ "::" ++ name = pathSnoc settings.messagesRoot name ↔ _
  unfold pathSnoc
  split_ifs with empty
  · have longer : "" ++ "::" ++ name ≠ name := by
      intro same
      have lengths := congrArg String.length same
      simp at lengths
    exact iff_of_false (empty ▸ longer) (not_not_intro empty)
  · exact iff_of_true rfl empty

end Artifact

/-- The reserved paths are those of the modules below the root. -/
theorem moduleHolders_nil (settings : Settings) : moduleHolders settings [] =
    [registryModule, indexModule].map fun name =>
      (joinPath settings.messagesRoot [name], name) := by
  have registry : identifier registryModule = registryModule := by decide
  have index : identifier indexModule = indexModule := by decide
  simp [moduleHolders, Settings.messageModule, messageSegments_empty, registry, index]

namespace Output

/-- Each artifact has one place, and the run's own modules have the paths reserved for them. -/
structure Coherent (settings : Settings) (o : Output) : Prop where
  files : ∀ a ∈ o.artifacts, ∃ names, a.FoundAt names
  roots : ∀ a ∈ o.artifacts, a.BelowRoot settings
  reserved : moduleHolders settings [] = [o.registry, o.index].map fun a => (a.modulePath, a.name)

end Output

namespace Schema

variable {s : Schema} {settings : Settings} {o : Output}

theorem belowRoot_own_iff (h : s.generate settings = .ok o) :
    ∀ a ∈ [o.registry, o.index], a.BelowRoot settings ↔ settings.messagesRoot ≠ "" := by
  obtain ⟨-, -, registry, index⟩ := generate_eq_ok h
  rw [registry, index]
  refine List.forall_mem_cons.2 ⟨?_, List.forall_mem_singleton.2 ?_⟩
  · exact Artifact.modulePath_ofModule_eq_iff _
  · exact Artifact.modulePath_ofModule_eq_iff _

/-- In every run that succeeds, the files are those of the segments, and the paths of the message
modules are those of the segments below the root. For the dispatch table and the index this holds
exactly if there is a root, and then their paths are the ones reserved for them. -/
theorem coherent_iff (h : s.generate settings = .ok o) :
    (∀ a ∈ o.artifacts, ∃ names, a.FoundAt names) ∧
    (∀ a ∈ o.messages, a.BelowRoot settings) ∧
    (∀ a ∈ [o.registry, o.index], a.BelowRoot settings ↔ settings.messagesRoot ≠ "") ∧
    (o.Coherent settings ↔ settings.messagesRoot ≠ "") := by
  have files : ∀ a ∈ o.artifacts, ∃ names, a.FoundAt names := fun a ha =>
    ⟨_, (located_of_generate h a ha).foundAt⟩
  have own := belowRoot_own_iff h
  obtain ⟨-, each, registry, index⟩ := generate_eq_ok h
  have messages : ∀ a ∈ o.messages, a.BelowRoot settings := by
    intro a ha
    obtain ⟨m, -, l, -, rfl⟩ := exists_of_mem_right each ha
    exact Artifact.belowRoot_ofLayout m l
  refine ⟨files, messages, own, fun coherent => ?_, fun rooted => ?_⟩
  · exact (own o.registry List.mem_cons_self).1
      (coherent.roots _ (List.mem_append_right _ List.mem_cons_self))
  · have below := fun a ha => (own a ha).2 rooted
    refine ⟨files, List.forall_mem_append.2 ⟨messages, below⟩, ?_⟩
    obtain ⟨first, second⟩ := List.forall_mem_cons.1 below
    have second := List.forall_mem_singleton.1 second
    rw [moduleHolders_nil, List.map_cons, List.map_singleton, List.map_cons, List.map_singleton,
      first, second, registry, index]
    rfl

/-- Two messages in modules of keywords, below a root of two segments. -/
theorem coherent_iff_raw : ∃ o, raw.generate { messagesRoot := "crate::proto" } = .ok o ∧
    (∀ a ∈ o.artifacts, ∃ names, a.FoundAt names) ∧
    o.Coherent { messagesRoot := "crate::proto" } := by
  obtain ⟨o, generated⟩ :=
    exists_of_isOk (show (raw.generate { messagesRoot := "crate::proto" }).isOk by decide +kernel)
  obtain ⟨files, -, -, coherent⟩ := coherent_iff generated
  exact ⟨o, generated, files, coherent.2 (by decide)⟩

/-- Without a root, the dispatch table of a schema without messages is not where it says. -/
theorem not_coherent : ¬ ∀ (s : Schema) (settings : Settings) (o : Output),
    s.generate settings = .ok o → o.Coherent settings := by
  intro coherent
  obtain ⟨o, generated⟩ :=
    exists_of_isOk (show (generate {} { messagesRoot := "" }).isOk by decide)
  have place := (coherent _ _ o generated).roots o.registry
    (List.mem_append_right _ List.mem_cons_self)
  exact (belowRoot_own_iff generated o.registry List.mem_cons_self).1 place rfl

end Schema

end WireCodec
