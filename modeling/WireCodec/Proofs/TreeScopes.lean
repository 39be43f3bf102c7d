import Mathlib.Data.List.Nodup
import Mathlib.Data.List.Perm.Basic
import WireCodec.Proofs.Bindings
import WireCodec.Proofs.Words

/-!
# Scopes of a tree of modules

A tree of placed artifacts binds, module by module, the names of the module's own artifact, those it
exports and those of the modules right below it (`Placed.treeBindings`, `Placed.binds_treeLines`).
So its names are pairwise distinct in every module exactly if each module, reached from the root by
descending name by name, has a scope without repetition (`Placed.nodup_treeBindings`).
-/

namespace WireCodec.Placed

/-! ## Names of a module -/

/-- The names that the artifact at the module itself declares. -/
def ownNames (ps : List Placed) : List String := (ownLines ps).filterMap Line.item?

/-- The names that the artifacts right below export. -/
def exportNames (ps : List Placed) : List String :=
  ps.filterMap fun p =>
    match p.segments, p.artifact.reexport with
    | [_], some name => some name
    | _, _ => none

/-- The names in the scope of a module. -/
def scope (ps : List Placed) : List String := ownNames ps ++ exportNames ps ++ childNames ps

/-- The names that the modules of a tree bind: for each module the items of its own artifact and
those it exports, then each module right below it with its names. -/
def treeBindings (path : List String) : (height : Nat) → List Placed → List (List String × String)
  | 0, ps => (ownNames ps).map (path, ·)
  | height + 1, ps =>
    (ownNames ps).map (path, ·) ++ ((exportNames ps).map (path, ·) ++
      (childNames ps).flatMap fun name =>
        (path, name) :: treeBindings (name :: path) height (below name ps))

/-! ## Modules below -/

theorem mem_below {name : String} {ps : List Placed} {p : Placed} :
    p ∈ below name ps ↔ ⟨name :: p.segments, p.artifact⟩ ∈ ps := by
  unfold below
  rw [List.mem_filterMap]
  constructor
  · rintro ⟨q, hq, found⟩
    cases q with
    | mk segments artifact =>
      cases segments with
      | nil => exact nomatch found
      | cons s rest =>
        simp only at found
        split at found
        · rename_i same
          cases found
          exact same ▸ hq
        · exact nomatch found
  · intro h
    exact ⟨_, h, if_pos rfl⟩

theorem mem_insertName {name n : String} {ns : List String} :
    n ∈ insertName name ns ↔ n = name ∨ n ∈ ns := by
  induction ns with
  | nil => simp [insertName]
  | cons m ns ih =>
    unfold insertName
    split
    · simp
    split
    · rename_i same
      simp [same]
    · simp only [List.mem_cons, ih]
      grind

theorem pairwise_insertName {name : String} {ns : List String} (h : ns.Pairwise (· < ·)) :
    (insertName name ns).Pairwise (· < ·) := by
  induction ns with
  | nil => simp [insertName]
  | cons m ns ih =>
    obtain ⟨least, ascending⟩ := List.pairwise_cons.1 h
    unfold insertName
    split
    · rename_i below
      refine List.pairwise_cons.2 ⟨?_, h⟩
      rw [List.forall_mem_cons]
      exact ⟨below, fun n hn => String.lt_trans below (least n hn)⟩
    split
    · exact h
    · rename_i notBelow differ
      refine List.pairwise_cons.2 ⟨fun n hn => ?_, ih ascending⟩
      rcases mem_insertName.1 hn with rfl | hn
      · exact String.not_le.1 fun le =>
          differ (String.le_antisymm le (String.not_lt.1 notBelow))
      · exact least n hn

theorem mem_childNames {name : String} {ps : List Placed} :
    name ∈ childNames ps ↔ ∃ p ∈ ps, p.segments.head? = some name := by
  have collected : ∀ (names start : List String),
      name ∈ names.foldl (fun names name => insertName name names) start ↔
        name ∈ names ∨ name ∈ start := by
    intro names
    induction names with
    | nil => simp
    | cons n names ih =>
      intro start
      rw [List.foldl_cons, ih, mem_insertName, List.mem_cons]
      grind
  rw [childNames, collected, List.mem_filterMap]
  simp

theorem nodup_childNames (ps : List Placed) : (childNames ps).Nodup := by
  have collected : ∀ (names start : List String), start.Pairwise (· < ·) →
      (names.foldl (fun names name => insertName name names) start).Pairwise (· < ·) := by
    intro names
    induction names with
    | nil => exact fun start ascending => ascending
    | cons n names ih => exact fun start ascending => ih _ (pairwise_insertName ascending)
  exact (collected _ [] .nil).imp String.ne_of_lt

/-! ## Lines of a tree -/

/-- The artifact that is placed at a module is one of those placed. -/
theorem mem_of_own? {ps : List Placed} {p : Placed} (h : own? ps = some p) :
    p ∈ ps ∧ p.segments = [] := by
  obtain ⟨hp, here⟩ := List.mem_filter.1 (List.mem_of_getLast? h)
  exact ⟨hp, List.isEmpty_iff.1 here⟩

/-- Where no source is empty, just the groups with lines are held apart. -/
theorem treeLines_succ {ps : List Placed}
    (filled : ∀ p ∈ ps, Source.linesOf p.artifact.source ≠ []) (height : Nat) :
    treeLines (height + 1) ps = Source.spaced
      ([ownLines ps, exportLines ps] ++ (childNames ps).map fun name =>
        Source.block ("pub mod " ++ name ++ " \x7b") (treeLines height (below name ps))
          "\x7d") := by
  have own : (own? ps).toList.map (fun p => Source.linesOf p.artifact.source) =
      [ownLines ps].filter (!·.isEmpty) := by
    unfold ownLines
    cases last : own? ps with
    | none => rfl
    | some p => simp [filled p (mem_of_own? last).1]
  have modules : ∀ g ∈ (childNames ps).map fun name =>
      Source.block ("pub mod " ++ name ++ " \x7b") (treeLines height (below name ps)) "\x7d",
      (!g.isEmpty) = true :=
    List.forall_mem_map.2 fun _ _ => rfl
  rw [treeLines, own, Source.spaced, List.filter_append, List.filter_eq_self.2 modules,
    ← List.filter_append]
  rfl

/-- A module below which something is placed has lines. -/
theorem treeLines_ne_nil {ps : List Placed}
    (filled : ∀ p ∈ ps, Source.linesOf p.artifact.source ≠ []) {name : String}
    (child : name ∈ childNames ps) {height : Nat} (high : ∀ p ∈ ps, p.segments.length ≤ height) :
    treeLines height ps ≠ [] := by
  obtain ⟨p, hp, first⟩ := mem_childNames.1 child
  obtain ⟨rest, split⟩ := List.head?_eq_some_iff.1 first
  have deep := high p hp
  rw [split, List.length_cons] at deep
  obtain ⟨height, rfl⟩ := Nat.exists_eq_add_of_le' (Nat.le_of_add_left_le deep)
  have module : Source.block ("pub mod " ++ name ++ " \x7b")
      (treeLines height (below name ps)) "\x7d" ∈
      [ownLines ps, exportLines ps] ++ (childNames ps).map fun name =>
        Source.block ("pub mod " ++ name ++ " \x7b") (treeLines height (below name ps)) "\x7d" :=
    List.mem_append_right _ (List.mem_map_of_mem child)
  rw [treeLines_succ filled]
  exact List.ne_nil_of_mem (Source.subset_spaced module List.mem_cons_self)

/-- The segments are segments of module paths, the lines of the artifact, at least one, open no
module, and it exports a name that satisfies `P`. -/
structure Clean (P : String → Prop) (p : Placed) : Prop where
  segment : ∀ s ∈ p.segments, IsSegment s
  filled : Source.linesOf p.artifact.source ≠ []
  neat : Source.Neat (Source.linesOf p.artifact.source)
  inner : ∀ l ∈ Source.linesOf p.artifact.source, l.Inner
  exported : ∀ name, p.artifact.reexport = some name → P name

/-- The exported name is a word. -/
abbrev Tidy (p : Placed) : Prop := p.Clean IsWord

theorem Clean.unbroken {p : Placed} (h : p.Tidy) : p.Clean Unbroken :=
  ⟨h.segment, h.filled, h.neat, h.inner, fun name named => (h.exported name named).unbroken⟩

section Clean

variable {P : String → Prop} {ps : List Placed} (clean : ∀ p ∈ ps, p.Clean P)

include clean

theorem clean_below (name : String) : ∀ p ∈ below name ps, p.Clean P := by
  intro p hp
  obtain ⟨segment, filled, neat, inner, exported⟩ := clean _ (mem_below.1 hp)
  exact ⟨fun s hs => segment s (List.mem_cons_of_mem _ hs), filled, neat, inner, exported⟩

theorem isSegment_of_mem_childNames {name : String} (child : name ∈ childNames ps) :
    IsSegment name := by
  obtain ⟨p, hp, first⟩ := mem_childNames.1 child
  exact (clean p hp).segment name (List.mem_of_head? first)

omit clean in
/-- A line of the module's own artifact is a line of an artifact. -/
theorem exists_of_mem_ownLines {l : Line} (hl : l ∈ ownLines ps) :
    ∃ p ∈ ps, l ∈ Source.linesOf p.artifact.source := by
  unfold ownLines at hl
  split at hl
  · rename_i p last
    exact ⟨p, (mem_of_own? last).1, hl⟩
  · exact nomatch hl

end Clean

theorem declarations_exportLines {ps : List Placed} (tidy : ∀ p ∈ ps, p.Tidy) :
    declarations (exportLines ps) = (exportNames ps).map .item := by
  rw [declarations, exportLines, exportNames, List.filterMap_filterMap, List.map_filterMap]
  refine List.filterMap_congr fun p hp => ?_
  obtain ⟨-, -, -, -, word⟩ := tidy p hp
  obtain ⟨segments, artifact⟩ := p
  rcases segments with _ | ⟨leaf, _ | ⟨next, rest⟩⟩
  · rfl
  · cases named : artifact.reexport with
    | none => rfl
    | some name =>
      have plain : ':' ∉ name.toList := (word name named).not_mem (by decide)
      simp only [Option.bind_some, Option.map_some]
      rw [declaration?_exportLine, String.toList_append, String.toList_append]
      exact congrArg (fun name => some (Declaration.item name))
        (lastSegment_append plain leaf.toList)
  · rfl

theorem binds_ownLines {path : List String} {ps : List Placed} (tidy : ∀ p ∈ ps, p.Tidy) :
    Binds path (ownLines ps) ((ownNames ps).map (path, ·)) := by
  refine binds_inner fun l hl => ?_
  obtain ⟨p, hp, line⟩ := exists_of_mem_ownLines hl
  exact (tidy p hp).inner l line

theorem binds_exportLines {path : List String} {ps : List Placed} (tidy : ∀ p ∈ ps, p.Tidy) :
    Binds path (exportLines ps) ((exportNames ps).map (path, ·)) :=
  binds_of_declarations (declarations_exportLines tidy)

/-- The lines of a tree bind the names of the tree. -/
theorem binds_treeLines {path : List String} {height : Nat} {ps : List Placed}
    (tidy : ∀ p ∈ ps, p.Tidy) :
    Binds path (treeLines height ps) (treeBindings path height ps) := by
  induction height generalizing path ps with
  | zero => exact binds_ownLines tidy
  | succ height ih =>
    have modules : ∀ names : List String, (∀ name ∈ names, name ∈ childNames ps) →
        Binds path
          (Source.spaced (names.map fun name =>
            Source.block ("pub mod " ++ name ++ " \x7b") (treeLines height (below name ps)) "\x7d"))
          (names.flatMap fun name =>
            (path, name) :: treeBindings (name :: path) height (below name ps)) := by
      intro names children
      induction names with
      | nil => exact binds_nil path
      | cons name names ih' =>
        obtain ⟨child, children⟩ := List.forall_mem_cons.1 children
        have plain := (isSegment_of_mem_childNames tidy child).not_mem (c := ' ') (by decide)
        exact (binds_module plain (ih (clean_below tidy name))).spaced_cons (ih' children)
    rw [treeLines_succ fun p hp => (tidy p hp).filled]
    exact (binds_ownLines tidy).spaced_cons <|
      (binds_exportLines tidy).spaced_cons (modules _ fun _ => id)

/-- What holds of the lines of the artifacts, of the exports and of the lines that open and close
modules holds of the lines of the tree. -/
theorem forall_mem_treeLines {P : String → Prop} (blank : P "") (closing : P "\x7d")
    (opening : ∀ name, IsSegment name → P ("pub mod " ++ name ++ " \x7b")) {ps : List Placed}
    (segment : ∀ p ∈ ps, ∀ s ∈ p.segments, IsSegment s)
    (filled : ∀ p ∈ ps, Source.linesOf p.artifact.source ≠ [])
    (own : ∀ p ∈ ps, ∀ l ∈ Source.linesOf p.artifact.source, P l.text)
    (exported : ∀ p ∈ ps, ∀ leaf name, IsSegment leaf → p.artifact.reexport = some name →
      P ("pub use " ++ leaf ++ "::" ++ name ++ ";")) {height : Nat} :
    ∀ l ∈ treeLines height ps, P l.text := by
  have ownLine {ps : List Placed}
      (own : ∀ p ∈ ps, ∀ l ∈ Source.linesOf p.artifact.source, P l.text) :
      ∀ l ∈ ownLines ps, P l.text := by
    intro l hl
    obtain ⟨p, hp, line⟩ := exists_of_mem_ownLines hl
    exact own p hp l line
  induction height generalizing ps with
  | zero => exact ownLine own
  | succ height ih =>
    rw [treeLines_succ filled, Source.forall_mem_spaced blank, List.forall_mem_append,
      List.forall_mem_map, List.forall_mem_cons, List.forall_mem_singleton]
    refine ⟨⟨ownLine own, fun l hl => ?_⟩, fun name child => ?_⟩
    · obtain ⟨p, hp, made⟩ := List.mem_filterMap.1 hl
      split at made
      · rename_i leaf name alone named
        cases made
        exact exported p hp leaf name (segment p hp leaf (by simp [alone])) named
      · cases made
    · obtain ⟨p, hp, first⟩ := mem_childNames.1 child
      rw [Source.forall_mem_block]
      refine ⟨opening name (segment p hp name (List.mem_of_head? first)), ih ?_ ?_ ?_ ?_, closing⟩
      · exact fun p hp s hs => segment _ (mem_below.1 hp) s (List.mem_cons_of_mem _ hs)
      · exact fun p hp => filled ⟨name :: p.segments, p.artifact⟩ (mem_below.1 hp)
      · exact fun p hp => own ⟨name :: p.segments, p.artifact⟩ (mem_below.1 hp)
      · exact fun p hp => exported ⟨name :: p.segments, p.artifact⟩ (mem_below.1 hp)

theorem neat_treeLines {ps : List Placed} (clean : ∀ p ∈ ps, p.Clean Unbroken) {height : Nat} :
    Source.Neat (treeLines height ps) := by
  refine forall_mem_treeLines (by decide) (by decide) (fun name segment => ?_)
    (fun p hp => (clean p hp).segment) (fun p hp => (clean p hp).filled)
    (fun p hp => (clean p hp).neat) fun p hp leaf name segment named => ?_
  · simp +decide [segment.unbroken]
  · simp +decide [segment.unbroken, (clean p hp).exported name named]

/-! ## Scopes -/

/-- The artifacts below the module that the names lead to. -/
def descend : List String → List Placed → List Placed
  | [], ps => ps
  | name :: names, ps => descend names (below name ps)

theorem mem_descend {names : List String} {ps : List Placed} {p : Placed} :
    p ∈ descend names ps ↔ ⟨names ++ p.segments, p.artifact⟩ ∈ ps := by
  induction names generalizing ps with
  | nil => rfl
  | cons name names ih => rw [descend, ih, mem_below, List.cons_append]

theorem filterMap_sublist {α β : Type} {f g : α → Option β} (h : ∀ a, f a = none ∨ f a = g a)
    (as : List α) : (as.filterMap f).Sublist (as.filterMap g) := by
  induction as with
  | nil => exact .slnil
  | cons a as ih =>
    rcases h a with none | same
    · rw [List.filterMap_cons_none none, List.filterMap_cons]
      split
      · exact ih
      · exact ih.cons _
    · rw [List.filterMap_cons, List.filterMap_cons, same]
      split
      · exact ih
      · exact ih.cons_cons _

theorem artifacts_below_sublist (name : String) (ps : List Placed) :
    ((below name ps).map (·.artifact)).Sublist (ps.map (·.artifact)) := by
  rw [below, List.map_filterMap, ← List.filterMap_eq_map']
  refine filterMap_sublist (fun p => ?_) ps
  split
  · exact .inl rfl
  · split
    · exact .inr rfl
    · exact .inl rfl

theorem artifacts_descend_sublist (names : List String) (ps : List Placed) :
    ((descend names ps).map (·.artifact)).Sublist (ps.map (·.artifact)) := by
  induction names generalizing ps with
  | nil => exact .refl _
  | cons name names ih => exact (ih _).trans (artifacts_below_sublist name ps)

/-- What a module exports are names that artifacts export, in their order. -/
theorem exportNames_descend_sublist (names : List String) (ps : List Placed) :
    (exportNames (descend names ps)).Sublist (ps.filterMap (·.artifact.reexport)) := by
  have all : (exportNames (descend names ps)).Sublist
      ((descend names ps).filterMap (·.artifact.reexport)) := by
    refine filterMap_sublist (fun p => ?_) _
    split
    · rename_i named
      exact .inr named.symm
    · exact .inl rfl
  apply all.trans
  have below := (artifacts_descend_sublist names ps).filterMap (·.reexport)
  rwa [List.filterMap_map, List.filterMap_map] at below

theorem below_eq_nil {name : String} {ps : List Placed} (h : name ∉ childNames ps) :
    below name ps = [] := by
  refine List.eq_nil_iff_forall_not_mem.2 fun p hp => h ?_
  exact mem_childNames.2 ⟨_, mem_below.1 hp, rfl⟩

theorem descend_nil (names : List String) : descend names [] = [] := by
  induction names with
  | nil => rfl
  | cons name names ih => exact ih

/-- What a tree binds stands in its own module or in one further in. -/
theorem suffix_of_mem_treeBindings {path : List String} {height : Nat} {ps : List Placed}
    {b : List String × String} (h : b ∈ treeBindings path height ps) : path <:+ b.1 := by
  induction height generalizing path ps with
  | zero =>
    obtain ⟨name, -, rfl⟩ := List.mem_map.1 h
    exact List.suffix_rfl
  | succ height ih =>
    simp only [treeBindings, List.mem_append, List.mem_map, List.mem_flatMap, List.mem_cons] at h
    rcases h with ⟨name, -, rfl⟩ | ⟨name, -, rfl⟩ | ⟨name, -, rfl | inside⟩
    · exact List.suffix_rfl
    · exact List.suffix_rfl
    · exact List.suffix_rfl
    · exact (List.suffix_cons name path).trans (ih inside)

/-- The names of a tree are those of the scope of its root and those of the modules below. -/
theorem treeBindings_perm (path : List String) (height : Nat) (ps : List Placed) :
    (treeBindings path (height + 1) ps).Perm
      ((scope ps).map (path, ·) ++
        (childNames ps).flatMap fun name =>
          treeBindings (name :: path) height (below name ps)) := by
  rw [treeBindings, scope, List.map_append, List.map_append, List.append_assoc, List.append_assoc]
  exact .append_left _ (.append_left _ (List.map_append_flatMap_perm ..).symm)

theorem nodup_treeBindings_succ (path : List String) (height : Nat) (ps : List Placed) :
    (treeBindings path (height + 1) ps).Nodup ↔
      (scope ps).Nodup ∧
        ∀ name ∈ childNames ps, (treeBindings (name :: path) height (below name ps)).Nodup := by
  rw [(treeBindings_perm path height ps).nodup_iff, List.nodup_append', List.nodup_flatMap,
    List.nodup_map_iff fun _ _ same => (Prod.mk.inj same).2]
  have deeper : List.Disjoint ((scope ps).map (path, ·))
      ((childNames ps).flatMap fun name =>
        treeBindings (name :: path) height (below name ps)) := by
    intro b here below
    obtain ⟨name, -, rfl⟩ := List.mem_map.1 here
    obtain ⟨child, -, inside⟩ := List.mem_flatMap.1 below
    have longer : path.length + 1 ≤ path.length := (suffix_of_mem_treeBindings inside).length_le
    omega
  have apart : (childNames ps).Pairwise (Function.onFun List.Disjoint fun name =>
      treeBindings (name :: path) height (below name ps)) := by
    refine (nodup_childNames ps).imp fun {n n'} differ b h h' => differ ?_
    have suffix := suffix_of_mem_treeBindings h
    have suffix' := suffix_of_mem_treeBindings h'
    have same := (List.suffix_of_suffix_length_le suffix suffix' (Nat.le_refl _)).eq_of_length rfl
    exact (List.cons.inj same).1
  exact ⟨fun h => ⟨h.1, h.2.1.1⟩, fun h => ⟨h.1, ⟨h.2, apart⟩, deeper⟩⟩

theorem length_le_height {ps : List Placed} : ∀ p ∈ ps, p.segments.length ≤ height ps := by
  have folded (ns : List Nat) (start : Nat) :
      start ≤ ns.foldl max start ∧ ∀ n ∈ ns, n ≤ ns.foldl max start := by
    induction ns generalizing start with
    | nil => exact ⟨Nat.le_refl _, nofun⟩
    | cons n ns ih =>
      obtain ⟨least, all⟩ := ih (max start n)
      rw [List.foldl_cons]
      exact ⟨by omega, List.forall_mem_cons.2 ⟨by omega, all⟩⟩
  intro p hp
  exact (folded _ 0).2 _ (List.mem_map_of_mem hp)

/-- The names of a tree are pairwise distinct in each module exactly if no scope repeats a name. -/
theorem nodup_treeBindings {path : List String} {height : Nat} {ps : List Placed}
    (high : ∀ p ∈ ps, p.segments.length ≤ height) :
    (treeBindings path height ps).Nodup ↔ ∀ names, (scope (descend names ps)).Nodup := by
  induction height generalizing path ps with
  | zero =>
    have here : ∀ p ∈ ps, p.segments = [] := fun p hp =>
      List.length_eq_zero_iff.1 (Nat.le_zero.1 (high p hp))
    have noExport : exportNames ps = [] :=
      List.filterMap_eq_nil_iff.2 fun p hp => by rw [here p hp]
    have noChild (name : String) : name ∉ childNames ps := by
      intro child
      obtain ⟨p, hp, first⟩ := mem_childNames.1 child
      rw [here p hp] at first
      exact nomatch first
    have root : scope ps = ownNames ps := by
      rw [scope, noExport, List.eq_nil_iff_forall_not_mem.2 noChild, List.append_nil,
        List.append_nil]
    rw [treeBindings, List.nodup_map_iff fun _ _ same => (Prod.mk.inj same).2, ← root]
    refine ⟨fun nodup names => ?_, fun all => all []⟩
    cases names with
    | nil => exact nodup
    | cons name names =>
      rw [descend, below_eq_nil (noChild name), descend_nil]
      exact List.nodup_nil
  | succ height ih =>
    have below_high (name : String) : ∀ p ∈ below name ps, p.segments.length ≤ height := fun p hp =>
      Nat.le_of_succ_le_succ (high _ (mem_below.1 hp))
    rw [nodup_treeBindings_succ]
    constructor
    · rintro ⟨root, modules⟩ names
      cases names with
      | nil => exact root
      | cons name names =>
        by_cases child : name ∈ childNames ps
        · exact (ih (below_high name)).1 (modules name child) names
        · rw [descend, below_eq_nil child, descend_nil]
          exact List.nodup_nil
    · intro all
      exact ⟨all [], fun name _ => (ih (below_high name)).2 fun names => all (name :: names)⟩

end WireCodec.Placed
