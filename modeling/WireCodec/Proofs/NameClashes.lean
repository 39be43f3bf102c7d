import WireCodec.Proofs.PlacedModules

/-!
# Clashes of names in the tree of modules

The checks of a run look at one message, or at one module path, at a time. They leave three ways in
which a module of the tree can bind a name twice (`Schema.Unambiguous`): a message is exported next
to a module of its name, a module declares or imports a name that a module right below it has, and
a message is exported into a module that declares or imports its name. There is no other way: the
names of the tree are pairwise distinct in every module exactly if none of the three occurs
(`Output.nodup_bindings_moduleTree`).
-/

namespace WireCodec

namespace Schema

/-- No name of a module means two things. -/
structure Unambiguous (s : Schema) (settings : Settings) : Prop where
  /-- No message is exported next to a module of its name. -/
  exported : ∀ m ∈ s.messages, ∀ c ∈ s.moduleScopes settings,
    ¬ packageSegments settings.packageRoot m.package ++ [m.name] <+: c.segments
  /-- No module declares a name that a module right below it has. -/
  nested : ∀ c ∈ s.moduleScopes settings, ∀ name ∈ c.names, ∀ c' ∈ s.moduleScopes settings,
    ¬ c.segments ++ [name] <+: c'.segments
  /-- No message is exported into a module that declares its name. -/
  shared : ∀ c ∈ s.moduleScopes settings, ∀ m ∈ s.messages,
    packageSegments settings.packageRoot m.package = c.segments → m.name ∉ c.names

instance (s : Schema) (settings : Settings) : Decidable (s.Unambiguous settings) :=
  decidable_of_iff
    ((∀ m ∈ s.messages, ∀ c ∈ s.moduleScopes settings,
        ¬ packageSegments settings.packageRoot m.package ++ [m.name] <+: c.segments) ∧
      (∀ c ∈ s.moduleScopes settings, ∀ name ∈ c.names, ∀ c' ∈ s.moduleScopes settings,
        ¬ c.segments ++ [name] <+: c'.segments) ∧
      ∀ c ∈ s.moduleScopes settings, ∀ m ∈ s.messages,
        packageSegments settings.packageRoot m.package = c.segments → m.name ∉ c.names)
    ⟨fun ⟨exported, nested, shared⟩ => ⟨exported, nested, shared⟩,
      fun ⟨exported, nested, shared⟩ => ⟨exported, nested, shared⟩⟩

end Schema

/-! ## Names of a placed module -/

namespace Output

open Placed

section Run

variable {s : Schema} {settings : Settings} {o : Output}
  (generated : s.generate settings = .ok o) {path : List String} {name : String}

include generated

theorem mem_descend_placed {p : Placed} :
    p ∈ descend path o.placed ↔
      p.artifact ∈ o.artifacts ∧ p.artifact.segments = path ++ p.segments := by
  rw [mem_descend, placed_of_generate generated, List.mem_map]
  constructor
  · rintro ⟨a, ha, same⟩
    obtain ⟨segments, rfl⟩ := Placed.mk.inj same
    exact ⟨ha, segments⟩
  · rintro ⟨ha, segments⟩
    exact ⟨_, ha, by rw [segments]⟩

theorem mem_childNames_descend :
    name ∈ childNames (descend path o.placed) ↔
      ∃ a ∈ o.artifacts, path ++ [name] <+: a.segments := by
  rw [mem_childNames]
  constructor
  · rintro ⟨p, hp, first⟩
    obtain ⟨ha, segments⟩ := (mem_descend_placed generated).1 hp
    obtain ⟨rest, split⟩ := List.head?_eq_some_iff.1 first
    exact ⟨_, ha, rest, by rw [segments, split, List.append_assoc, List.singleton_append]⟩
  · rintro ⟨a, ha, rest, segments⟩
    rw [List.append_assoc, List.singleton_append] at segments
    exact ⟨⟨name :: rest, a⟩, (mem_descend_placed generated).2 ⟨ha, segments.symm⟩, rfl⟩

theorem mem_exportNames_descend :
    name ∈ exportNames (descend path o.placed) ↔
      ∃ a ∈ o.artifacts, (∃ leaf, a.segments = path ++ [leaf]) ∧ a.reexport = some name := by
  rw [exportNames, List.mem_filterMap]
  constructor
  · rintro ⟨p, hp, exported⟩
    obtain ⟨ha, segments⟩ := (mem_descend_placed generated).1 hp
    split at exported
    · rename_i leaf _ alone named
      cases exported
      exact ⟨_, ha, ⟨leaf, by rw [segments, alone]⟩, named⟩
    · cases exported
  · rintro ⟨a, ha, ⟨leaf, segments⟩, named⟩
    refine ⟨⟨[leaf], a⟩, (mem_descend_placed generated).2 ⟨ha, segments⟩, ?_⟩
    simp only [named]

/-- At most one artifact stands at a module, and the module's own names are the artifact's. -/
theorem mem_ownNames_descend (distinct : (o.artifacts.map (·.segments)).Nodup) :
    name ∈ ownNames (descend path o.placed) ↔
      ∃ a ∈ o.artifacts, a.segments = path ∧ name ∈ a.names := by
  have here {p : Placed}
      (hp : p ∈ (descend path o.placed).filter (·.segments.isEmpty)) :
      p.artifact ∈ o.artifacts ∧ p.artifact.segments = path := by
    obtain ⟨hp, alone⟩ := List.mem_filter.1 hp
    obtain ⟨ha, segments⟩ := (mem_descend_placed generated).1 hp
    rw [List.isEmpty_iff.1 alone, List.append_nil] at segments
    exact ⟨ha, segments⟩
  unfold ownNames ownLines own?
  split
  · rename_i p last
    obtain ⟨hp, own⟩ := here (List.mem_of_getLast? last)
    refine ⟨fun mem => ⟨_, hp, own, mem⟩, ?_⟩
    rintro ⟨a, ha, segments, mem⟩
    have same := List.inj_on_of_nodup_map distinct ha hp (segments.trans own.symm)
    rwa [same] at mem
  · rename_i last
    refine ⟨fun mem => (nomatch mem), ?_⟩
    rintro ⟨a, ha, segments, mem⟩
    have placed : ⟨[], a⟩ ∈ descend path o.placed :=
      (mem_descend_placed generated).2 ⟨ha, by rw [segments, List.append_nil]⟩
    have none := List.getLast?_eq_none_iff.1 last
    exact absurd (List.mem_filter.2 ⟨placed, rfl⟩) (by rw [none]; exact List.not_mem_nil)

theorem nodup_ownNames (nodup : ∀ a ∈ o.artifacts, a.names.Nodup) :
    (ownNames (descend path o.placed)).Nodup := by
  unfold ownNames ownLines own?
  split
  · rename_i p last
    have hp := (List.mem_filter.1 (List.mem_of_getLast? last)).1
    exact nodup _ ((mem_descend_placed generated).1 hp).1
  · exact .nil

/-! ## Names of a run -/

variable (spelled : s.Spelled settings)

theorem mem_exportNames_iff :
    name ∈ exportNames (descend path o.placed) ↔
      ∃ m ∈ s.messages, packageSegments settings.packageRoot m.package = path ∧ m.name = name := by
  obtain ⟨-, each, registry, index⟩ := Schema.generate_eq_ok generated
  rw [mem_exportNames_descend generated]
  constructor
  · rintro ⟨a, ha, ⟨leaf, segments⟩, named⟩
    rcases List.mem_append.1 ha with ha | ha
    · obtain ⟨m, hm, l, -, rfl⟩ := exists_of_mem_right each ha
      exact ⟨m, hm, (List.append_inj' segments rfl).1, Option.some.inj named⟩
    · rw [registry, index] at ha
      rcases List.mem_pair.1 ha with rfl | rfl
      · exact nomatch named
      · exact nomatch named
  · rintro ⟨m, hm, rfl, rfl⟩
    obtain ⟨a, ha, l, -, rfl⟩ := exists_of_mem_left each hm
    exact ⟨_, List.mem_append_left _ ha, ⟨identifier m.name, rfl⟩, rfl⟩

theorem nodup_exportNames : (exportNames (descend path o.placed)).Nodup := by
  obtain ⟨⟨-, distinct⟩, each, registry, index⟩ := Schema.generate_eq_ok generated
  have messages : o.messages.map (·.reexport) = s.messages.map fun m => some m.name := by
    refine (map_eq_map_of_forall₂ each fun m a made => ?_).symm
    obtain ⟨l, -, rfl⟩ := made
    rfl
  have all : o.artifacts.filterMap (·.reexport) = s.messages.map (·.name) := by
    calc o.artifacts.filterMap (·.reexport)
        = o.messages.filterMap (·.reexport) := by
          rw [artifacts, List.filterMap_append, registry, index]
          exact List.append_nil _
      _ = (o.messages.map (·.reexport)).filterMap id := by rw [List.filterMap_map]; rfl
      _ = s.messages.map (·.name) := by
          rw [messages, List.filterMap_map]
          exact List.filterMap_eq_map' ▸ rfl
  have sub := exportNames_descend_sublist path o.placed
  have placed : o.placed.filterMap (·.artifact.reexport) = o.artifacts.filterMap (·.reexport) := by
    rw [placed_of_generate generated, List.filterMap_map]
    rfl
  exact distinct.names.sublist (all ▸ placed ▸ sub)

include spelled

theorem tidy_placed : ∀ p ∈ o.placed, p.Tidy := by
  rw [placed_of_generate generated, List.forall_mem_map]
  intro a ha
  obtain ⟨c, -, presents⟩ := exists_of_mem_left (s.presents_of_generate generated spelled) ha
  exact presents.tidy

/-- A scope repeats a name only between its three parts. -/
theorem nodup_scope_iff :
    (scope (descend path o.placed)).Nodup ↔
      ((ownNames (descend path o.placed)).Disjoint (exportNames (descend path o.placed)) ∧
        (ownNames (descend path o.placed)).Disjoint (childNames (descend path o.placed))) ∧
        (exportNames (descend path o.placed)).Disjoint (childNames (descend path o.placed)) := by
  have own : (ownNames (descend path o.placed)).Nodup := nodup_ownNames generated fun a ha => by
    obtain ⟨c, -, presents⟩ := exists_of_mem_left (s.presents_of_generate generated spelled) ha
    exact presents.nodup
  have exports : (exportNames (descend path o.placed)).Nodup := nodup_exportNames generated
  have children := nodup_childNames (descend path o.placed)
  rw [scope, List.nodup_append', List.nodup_append', List.disjoint_append_left]
  tauto

/-- No scope repeats a name exactly if no name of a module means two things. -/
theorem nodup_scopes_iff :
    (∀ path, (scope (descend path o.placed)).Nodup) ↔ s.Unambiguous settings := by
  have presents := s.presents_of_generate generated spelled
  have distinct := Schema.nodup_segments generated
  have unreserved : ∀ m ∈ s.messages, m.name ∉ reservedNames := by
    intro m hm
    obtain ⟨l, planned⟩ := Schema.exists_plan_of_generate generated hm
    exact (Layout.plan_ok planned).1
  have capital : ∀ name ∈ reservedNames, ¬ IsSegment name := by decide
  simp only [nodup_scope_iff generated spelled]
  constructor
  · intro all
    refine ⟨fun m hm c hc below => ?_, fun c hc name mem c' hc' below => ?_,
      fun c hc m hm package mem => ?_⟩
    · obtain ⟨a, ha, presents⟩ := exists_of_mem_right presents hc
      refine (all _).2 ((mem_exportNames_iff generated).2 ⟨m, hm, rfl, rfl⟩) ?_
      exact (mem_childNames_descend generated).2 ⟨a, ha, presents.segments ▸ below⟩
    · obtain ⟨a, ha, own⟩ := exists_of_mem_right presents hc
      obtain ⟨a', ha', inner⟩ := exists_of_mem_right presents hc'
      refine (all c.segments).1.2 ((mem_ownNames_descend generated distinct).2
        ⟨a, ha, own.segments, own.declares name mem⟩) ?_
      exact (mem_childNames_descend generated).2 ⟨a', ha', inner.segments ▸ below⟩
    · obtain ⟨a, ha, own⟩ := exists_of_mem_right presents hc
      refine (all c.segments).1.1 ((mem_ownNames_descend generated distinct).2
        ⟨a, ha, own.segments, own.declares m.name mem⟩) ?_
      exact (mem_exportNames_iff generated).2 ⟨m, hm, package, rfl⟩
  · rintro ⟨exported, nested, shared⟩ path
    refine ⟨⟨fun name mem exports => ?_, fun name mem child => ?_⟩, fun name exports child => ?_⟩
    · obtain ⟨a, ha, rfl, declared⟩ := (mem_ownNames_descend generated distinct).1 mem
      obtain ⟨m, hm, package, rfl⟩ := (mem_exportNames_iff generated).1 exports
      obtain ⟨c, hc, own⟩ := exists_of_mem_left presents ha
      rcases own.only m.name declared with mem | reserved
      · exact shared c hc m hm (package.trans own.segments) mem
      · exact unreserved m hm reserved
    · obtain ⟨a, ha, rfl, declared⟩ := (mem_ownNames_descend generated distinct).1 mem
      obtain ⟨a', ha', below⟩ := (mem_childNames_descend generated).1 child
      obtain ⟨c, hc, own⟩ := exists_of_mem_left presents ha
      obtain ⟨c', hc', inner⟩ := exists_of_mem_left presents ha'
      rcases own.only name declared with mem | reserved
      · exact nested c hc name mem c' hc' (own.segments ▸ inner.segments ▸ below)
      · exact capital name reserved (inner.tidy.segment name (below.subset (by simp)))
    · obtain ⟨m, hm, rfl, rfl⟩ := (mem_exportNames_iff generated).1 exports
      obtain ⟨a, ha, below⟩ := (mem_childNames_descend generated).1 child
      obtain ⟨c, hc, own⟩ := exists_of_mem_left presents ha
      exact exported m hm c hc (own.segments ▸ below)

/-! ## The text of the tree -/

/-- The text of the tree binds the names of the tree. -/
theorem bindings_moduleTree :
    bindings o.moduleTree = treeBindings [] (height o.placed) o.placed := by
  have tidy := tidy_placed generated spelled
  have title : Source.Silent "// Protocol modules: generated by protogen, do not edit." :=
    .literal _ rfl fun _ => rfl
  have silent : declarations [.outer "// Protocol modules: generated by protogen, do not edit."] =
      ([] : List String).map .item := Source.declarations_cons title []
  have header : Binds [] [.outer "// Protocol modules: generated by protogen, do not edit."] [] :=
    binds_of_declarations silent
  have tree : Binds [] (Source.spaced [treeLines (height o.placed) o.placed])
      (treeBindings [] (height o.placed) o.placed) := by
    rw [← List.append_nil (treeBindings _ _ _)]
    exact (binds_treeLines tidy).spaced_cons (binds_nil [])
  rw [moduleTree_of_generate generated]
  refine bindings_print ?_ (header.spaced_cons tree)
  rw [Source.neat_spaced, List.forall_mem_cons, List.forall_mem_singleton]
  exact ⟨by decide, neat_treeLines fun p hp => (tidy p hp).unbroken⟩

/-- The names of the tree are pairwise distinct in every module exactly if no name of a module means
two things. -/
theorem nodup_bindings_moduleTree :
    (bindings o.moduleTree).Nodup ↔ s.Unambiguous settings := by
  rw [bindings_moduleTree generated spelled, nodup_treeBindings length_le_height]
  exact nodup_scopes_iff generated spelled

end Run

/-! ### A message and its parent -/

/-- A message in the package `a` and its parent in another package. -/
def parentIn (package : String) : Schema where
  messages :=
    [{ name := "Foo", package := "a", protocolId := 1, parent := some "Bar" },
      { name := "Bar", package, protocolId := 2 }]

theorem spelled_parentIn_below : (parentIn "a.foo").Spelled {} :=
  ⟨⟨by decide, by decide⟩, by decide, ⟨by decide, by decide, by decide⟩⟩

theorem spelled_parentIn_beside : (parentIn "a.bar").Spelled {} :=
  ⟨⟨by decide, by decide⟩, by decide, ⟨by decide, by decide, by decide⟩⟩

/-- With the parent in a package beside the message, no module binds a name twice. -/
theorem nodup_bindings_moduleTree_beside :
    ∃ o, (parentIn "a.bar").generate {} = .ok o ∧ (bindings o.moduleTree).Nodup := by
  obtain ⟨o, generated⟩ :=
    exists_of_isOk (show ((parentIn "a.bar").generate {}).isOk by decide +kernel)
  refine ⟨o, generated, ?_⟩
  exact (nodup_bindings_moduleTree generated spelled_parentIn_beside).2 (by decide +kernel)

/-- With the parent in the package that is named like the message's own module, that module imports
the parent and exports it as well. -/
theorem not_nodup_bindings_moduleTree :
    (parentIn "a.foo").Worded ∧
      ∃ o, (parentIn "a.foo").generate {} = .ok o ∧ ¬ (bindings o.moduleTree).Nodup := by
  obtain ⟨o, generated⟩ :=
    exists_of_isOk (show ((parentIn "a.foo").generate {}).isOk by decide +kernel)
  refine ⟨spelled_parentIn_below.words, o, generated, ?_⟩
  rw [bindings_moduleTree generated spelled_parentIn_below, nodup_treeBindings length_le_height,
    nodup_scopes_iff generated spelled_parentIn_below]
  decide +kernel

end Output

end WireCodec
