import WireCodec.Proofs.PlacedModules
import WireCodec.Proofs.SpelledPaths

/-!
# Paths that refer to messages

The dispatch table, the index and the module of every child refer to a message by a path. The paths
are read off the lines that a run prints, and where every text stays on its line off the printed
code; each is the path of the artifact that holds the message (`Schema.references_of_generate`). Two
artifacts share a path only if the name of one message ends in that of another behind two colons.
-/

namespace WireCodec

/-! ## Paths of artifacts -/

/-- The path of the message that an artifact holds. -/
def Artifact.messagePath (a : Artifact) : String := a.modulePath ++ "::" ++ a.name

theorem Artifact.messagePath_ofLayout (settings : Settings) (m : MessageDecl) (l : Layout) :
    (ofLayout settings m l).messagePath = settings.messagePath m.package m.name := rfl

theorem Artifact.source_ofModule (settings : Settings) (name : String) (lines : List Line) :
    (ofModule settings name lines).source = Source.print lines := rfl

/-! ## Paths that coincide -/

theorem identifier_ne_empty (name : String) : identifier name ≠ "" := by
  unfold identifier escapeWord
  split_ifs with empty
  · decide
  · simp
  · simp
  · simp
  · exact empty

/-- The path of a module ends in its last segment. -/
theorem suffix_messageModule (settings : Settings) (package name : String) :
    (identifier name).toList <:+ (settings.messageModule package name).toList := by
  have last : settings.messageModule package name =
      pathSnoc (joinPath settings.messagesRoot (packageSegments settings.packageRoot package))
        (identifier name) :=
    List.foldl_append
  rw [last, pathSnoc]
  split_ifs
  · exact List.suffix_rfl
  · rw [String.toList_append]
    exact List.suffix_append _ _

theorem getLast?_messageModule (settings : Settings) (package name : String) :
    (settings.messageModule package name).toList.getLast? ≠ some ':' := by
  obtain ⟨front, split⟩ := suffix_messageModule settings package name
  have some : (identifier name).toList ≠ [] := by
    simpa using identifier_ne_empty name
  rw [← split, List.getLast?_append_of_ne_nil _ some]
  intro colon
  exact (isSegment_identifier name).not_mem (by decide) (List.mem_of_getLast? colon)

/-- Where two texts behind colons end in the same way, the shorter one is the end of the longer. -/
theorem eq_or_suffix_of_append {xs ys u v : List Char}
    (h : xs ++ ':' :: ':' :: u = ys ++ ':' :: ':' :: v) (shorter : u.length ≤ v.length)
    (last : xs.getLast? ≠ some ':') : u = v ∨ ':' :: ':' :: u <:+ v := by
  -- `zs` is what one front has more than the other
  rcases List.append_eq_append_iff.1 h with ⟨zs, -, same⟩ | ⟨zs, rfl, same⟩
  · have := congrArg List.length same
    simp only [List.length_cons, List.length_append] at this
    obtain rfl : zs = [] := List.eq_nil_of_length_eq_zero (by omega)
    cases same
    exact .inl rfl
  · rcases zs with _ | ⟨c, _ | ⟨d, zs⟩⟩
    · cases same
      exact .inl rfl
    · cases same
      simp at last
    · cases same
      exact .inr ⟨zs, rfl⟩

/-- The name ends in the other one behind two colons. -/
def EndsInPath (name other : String) : Prop := ("::" ++ other).toList <:+ name.toList

instance (name other : String) : Decidable (EndsInPath name other) :=
  inferInstanceAs (Decidable (_ <:+ _))

/-- Messages of different names have different paths, unless one name ends in the other. -/
theorem name_eq_of_messagePath_eq {settings : Settings} {package package' name name' : String}
    (same : settings.messagePath package name = settings.messagePath package' name')
    (apart : ¬ EndsInPath name name') (apart' : ¬ EndsInPath name' name) : name = name' := by
  have chars := congrArg String.toList same
  simp only [Settings.messagePath, String.toList_append, List.append_assoc] at chars
  have last := getLast?_messageModule settings
  rcases Nat.le_total name.toList.length name'.toList.length with shorter | shorter
  · rcases eq_or_suffix_of_append chars shorter (last _ _) with eq | ends
    · exact String.toList_inj.1 eq
    · refine absurd ?_ apart'
      unfold EndsInPath
      rwa [String.toList_append]
  · rcases eq_or_suffix_of_append chars.symm shorter (last _ _) with eq | ends
    · exact String.toList_inj.1 eq.symm
    · refine absurd ?_ apart
      unfold EndsInPath
      rwa [String.toList_append]

/-! ## References of a run -/

/-- A planned layout imports its parent under the path of that message, and types of the schema. -/
theorem Layout.exists_importPaths_of_plan {s : Schema} {m : MessageDecl} {l : Layout}
    (h : plan s m = .ok l) (settings : Settings) :
    ∃ types : List String,
      (∀ path ∈ types, ∃ t ∈ s.types, path = settings.typePath t.package t.name) ∧
        l.imports.filterMap (Source.importPath settings l) =
          (l.parent.map fun p => settings.messagePath p.package p.name).toList ++ types := by
  have parent : (l.parent.toList.map (Import.mk .parent)).filterMap (Source.importPath settings l) =
      (l.parent.map fun p => settings.messagePath p.package p.name).toList := by
    cases l.parent <;> rfl
  refine ⟨_, fun path mem => ?_,
    by rw [imports_eq_of_plan h, importsOf, List.filterMap_append, parent]⟩
  obtain ⟨i, hi, spelled⟩ := List.mem_filterMap.1 mem
  obtain ⟨t, ht, rfl⟩ := List.mem_map.1 hi
  obtain ⟨d, hd, rfl⟩ := exists_type_of_plan h ht
  simp only [Source.importPath] at spelled
  split_ifs at spelled
  exact ⟨d, hd, (Option.some.inj spelled).symm⟩

namespace Output

/-- The rows of the dispatch table and the exports of the index are those of the messages of the
schema, in its order: each row with the id of the message, and both with the path of its
artifact. -/
structure ListsMessages (o : Output) (s : Schema) (settings : Settings)
    (registry index : List Line) : Prop where
  rows : Source.tableRows settings.runtimeCrate registry =
    List.zipWith (fun m a => (toString m.protocolId, a.messagePath)) s.messages o.messages
  exports : Source.pathsBehind "pub use " index = o.messages.map (·.messagePath)

/-- Besides names of the runtime crate and types of the schema, the module of a message imports
nothing but its parent, under the path of the artifact that holds the parent. -/
def ImportsParent (o : Output) (s : Schema) (settings : Settings) (m : MessageDecl) (l : Layout)
    (lines : List Line) : Prop :=
  ∃ (parent : Option Artifact) (types : List String),
    (∀ p ∈ parent, p ∈ o.messages) ∧ parent.map (·.name) = m.parentName ∧
      (∀ path ∈ types, ∃ t ∈ s.types, path = settings.typePath t.package t.name) ∧
      Source.pathsBehind "use " lines =
        (Source.runtimeNames l).map (settings.runtimeCrate ++ "::" ++ ·) ++
          (parent.map (·.messagePath)).toList ++ types

section Printed

variable {o : Output} {s : Schema} {settings : Settings}

/-- The same rows and exports are read off the printed code. -/
theorem ListsMessages.printed {registry index : List Line}
    (h : o.ListsMessages s settings registry index) (neat : Source.Neat registry)
    (neat' : Source.Neat index) :
    o.ListsMessages s settings (Source.linesOf (Source.print registry))
      (Source.linesOf (Source.print index)) where
  rows := (Source.filterMap_linesOf_print neat).trans h.rows
  exports := (Source.filterMap_linesOf_print neat').trans h.exports

/-- So are the same imports. -/
theorem ImportsParent.printed {m : MessageDecl} {l : Layout} {lines : List Line}
    (h : o.ImportsParent s settings m l lines) (neat : Source.Neat lines) :
    o.ImportsParent s settings m l (Source.linesOf (Source.print lines)) := by
  obtain ⟨parent, types, held, named, declared, imports⟩ := h
  exact ⟨parent, types, held, named, declared,
    (Source.filterMap_linesOf_print neat).trans imports⟩

end Printed

end Output

namespace Schema

variable {s : Schema} {settings : Settings} {o : Output}

section Run

variable (h : s.generate settings = .ok o)

include h

theorem map_messagePath_of_generate :
    o.messages.map (·.messagePath) =
      s.messages.map fun m => settings.messagePath m.package m.name := by
  obtain ⟨-, each, -⟩ := generate_eq_ok h
  refine (map_eq_map_of_forall₂ each fun m a made => ?_).symm
  obtain ⟨l, -, rfl⟩ := made
  exact Artifact.messagePath_ofLayout settings m l

/-- The module of the dispatch table and the index list the messages. -/
theorem listsMessages_of_generate :
    o.ListsMessages s settings (Source.registryLines settings (Source.planOf settings s.messages))
      (Source.indexLines (Source.planOf settings s.messages)) := by
  obtain ⟨-, each, -⟩ := generate_eq_ok h
  constructor
  · rw [Source.tableRows_registryLines, Source.planOf, List.map_map]
    refine (zipWith_eq_map_of_forall₂ each fun m a made => ?_).symm
    obtain ⟨l, -, rfl⟩ := made
    rfl
  · rw [Source.pathsBehind_indexLines, map_messagePath_of_generate h, Source.planOf, List.map_map]
    rfl

/-- A message that is laid out has no parent, or one that an artifact of the run holds. -/
theorem exists_parent_of_generate {m : MessageDecl} {l : Layout}
    (planned : Layout.plan s m = .ok l) :
    ∃ parent : Option Artifact, (∀ p ∈ parent, p ∈ o.messages) ∧
      parent.map (·.name) = m.parentName ∧
      parent.map (·.messagePath) =
        l.parent.map fun p => settings.messagePath p.package p.name := by
  obtain ⟨-, each, -⟩ := generate_eq_ok h
  obtain ⟨-, ancestors, flags, fields, taken, taken', found, -⟩ := Layout.plan_ok planned
  rw [parentName_eq_of_ancestors found, Layout.parent_eq_of_plan found planned]
  cases ancestors with
  | nil => exact ⟨none, nofun, rfl, rfl⟩
  | cons parent ancestors =>
    have mem := mem_messages_of_ancestors found parent List.mem_cons_self
    obtain ⟨p, hp, l', -, rfl⟩ := exists_of_mem_left each mem
    exact ⟨some _, fun _ own => Option.some.inj own ▸ hp, rfl, rfl⟩

/-- The module of a message imports the parent. -/
theorem importsParent_of_generate {m : MessageDecl} {l : Layout}
    (planned : Layout.plan s m = .ok l) (p : Program) :
    o.ImportsParent s settings m l (Source.moduleLines settings m l p) := by
  obtain ⟨parent, held, named, path⟩ := exists_parent_of_generate h planned
  obtain ⟨types, declared, imports⟩ := Layout.exists_importPaths_of_plan planned settings
  refine ⟨parent, types, held, named, declared, ?_⟩
  rw [Source.pathsBehind_moduleLines, imports, path, List.append_assoc]

end Run

/-- A run spells every reference to a message as the path of the artifact that holds the message:
each row of the dispatch table and each export of the index, one for each message in the order of
the schema, and the import of each parent. No two artifacts share a path if no name ends in
another. -/
theorem references_of_generate (h : s.generate settings = .ok o) :
    (∃ table, s.dispatchPlan settings = .ok table ∧
      table.entries.map (fun e => (e.protocolId, e.name, e.path)) =
        List.zipWith (fun m a => (m.protocolId, m.name, a.messagePath)) s.messages o.messages ∧
      o.registry.source = Source.print (Source.registryLines settings table) ∧
      o.index.source = Source.print (Source.indexLines table) ∧
      o.ListsMessages s settings (Source.registryLines settings table)
        (Source.indexLines table)) ∧
    List.Forall₂ (fun m a => a.name = m.name ∧ ∃ l, Layout.plan s m = .ok l ∧
        a.source = Source.print (Source.moduleLines settings m l (.ofLayout m l)) ∧
        o.ImportsParent s settings m l (Source.moduleLines settings m l (.ofLayout m l)))
      s.messages o.messages ∧
    (s.OnLines settings →
      o.ListsMessages s settings (Source.linesOf o.registry.source)
          (Source.linesOf o.index.source) ∧
        List.Forall₂ (fun m a => ∃ l, Layout.plan s m = .ok l ∧
          o.ImportsParent s settings m l (Source.linesOf a.source)) s.messages o.messages) ∧
    (s.messages.map (·.name)).Nodup ∧
    ((∀ m ∈ s.messages, ∀ m' ∈ s.messages, ¬ EndsInPath m.name m'.name) →
      (o.messages.map (·.messagePath)).Nodup) := by
  obtain ⟨⟨planned, distinct⟩, each, registry, index⟩ := generate_eq_ok h
  have lists := listsMessages_of_generate h
  refine ⟨⟨_, planned, ?_, ?_, ?_, lists⟩, ?_, fun plain => ⟨?_, ?_⟩, distinct.names,
    fun apart => ?_⟩
  · rw [Source.planOf, List.map_map]
    refine (zipWith_eq_map_of_forall₂ each fun m a made => ?_).symm
    obtain ⟨l, -, rfl⟩ := made
    rfl
  · rw [registry, Artifact.source_ofModule]
  · rw [index, Artifact.source_ofModule]
  · refine each.imp fun m a made => ?_
    obtain ⟨l, plan, rfl⟩ := made
    exact ⟨rfl, l, plan, rfl, importsParent_of_generate h plan _⟩
  · rw [registry, index, Artifact.source_ofModule, Artifact.source_ofModule]
    exact lists.printed (Source.neat_registryLines plain.paths plain.names)
      (Source.neat_indexLines plain.paths plain.names)
  · refine forall₂_imp_of_mem each fun m hm a made => ?_
    obtain ⟨l, plan, rfl⟩ := made
    exact ⟨l, plan, (importsParent_of_generate h plan _).printed (plain.neat_moduleLines hm plan)⟩
  · rw [map_messagePath_of_generate h]
    refine List.Nodup.map_on (fun m hm m' hm' same => ?_) (.of_map _ distinct.names)
    exact List.inj_on_of_nodup_map distinct.names hm hm'
      (name_eq_of_messagePath_eq same (apart m hm m' hm') (apart m' hm' m hm))

/-- A message, a child and a grandchild, each in a package of its own. -/
def family : Schema where
  messages :=
    [{ name := "Child", package := "com.ankamagames.a", protocolId := 2, parent := some "Root" },
      { name := "Root", protocolId := 7 },
      { name := "Grandchild", package := "b", protocolId := 1, parent := some "Child" }]

theorem references_of_generate_family :
    ∃ o, family.generate {} = .ok o ∧
      o.messages.map (·.messagePath) =
        ["crate::a::child::Child", "crate::root::Root", "crate::b::grandchild::Grandchild"] ∧
      o.ListsMessages family {} (Source.linesOf o.registry.source)
        (Source.linesOf o.index.source) ∧
      List.Forall₂ (fun m a => ∃ l, Layout.plan family m = .ok l ∧
        o.ImportsParent family {} m l (Source.linesOf a.source)) family.messages o.messages ∧
      (o.messages.map (·.messagePath)).Nodup := by
  obtain ⟨o, generated⟩ := exists_of_isOk (show (family.generate {}).isOk by decide +kernel)
  obtain ⟨-, -, printed, -, distinct⟩ := references_of_generate generated
  obtain ⟨lists, imports⟩ :=
    printed ⟨by decide, by decide, nofun, ⟨by decide, by decide, by decide⟩⟩
  refine ⟨o, generated, ?_, lists, imports, distinct (by decide +kernel)⟩
  rw [map_messagePath_of_generate generated]
  decide +kernel

/-- Two messages in different modules, the name of one of which is no identifier. -/
def colons : Schema where
  messages :=
    [{ name := "y::y", protocolId := 1 }, { name := "y", package := "y_y", protocolId := 2 }]

/-- Names are not checked to be identifiers: here each row of the dispatch table and each export of
the index has the path of two artifacts. -/
theorem countP_messagePath_colons :
    ∃ o, colons.generate {} = .ok o ∧
      Source.tableRows "protopack" (Source.linesOf o.registry.source) =
        [("1", "crate::y_y::y::y"), ("2", "crate::y_y::y::y")] ∧
      Source.pathsBehind "pub use " (Source.linesOf o.index.source) =
        ["crate::y_y::y::y", "crate::y_y::y::y"] ∧
      o.messages.countP (·.messagePath = "crate::y_y::y::y") = 2 := by
  obtain ⟨o, generated⟩ := exists_of_isOk (show (colons.generate {}).isOk by decide +kernel)
  obtain ⟨-, -, registry, index⟩ := generate_eq_ok generated
  have paths : Settings.Neat {} := ⟨by decide, by decide, by decide⟩
  have names : ∀ m ∈ colons.messages, Unbroken m.name := by decide
  refine ⟨o, generated, ?_, ?_, ?_⟩
  · rw [registry, Artifact.source_ofModule]
    refine (Source.filterMap_linesOf_print (Source.neat_registryLines paths names)).trans ?_
    exact (Source.tableRows_registryLines {} _).trans (by decide +kernel)
  · rw [index, Artifact.source_ofModule]
    refine (Source.filterMap_linesOf_print (Source.neat_indexLines paths names)).trans ?_
    exact (Source.pathsBehind_indexLines _).trans (by decide +kernel)
  · have counted : o.messages.countP (·.messagePath = "crate::y_y::y::y") =
        (o.messages.map (·.messagePath)).count "crate::y_y::y::y" := by
      rw [List.count, List.countP_map]
      exact List.countP_congr fun a _ => by simp
    rw [counted, map_messagePath_of_generate generated]
    decide +kernel

end Schema

end WireCodec
