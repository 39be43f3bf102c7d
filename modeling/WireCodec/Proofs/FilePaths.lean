import WireCodec.Proofs.PlacedModules
import WireCodec.Proofs.References

/-!
# Files of a run

No two artifacts of a run have the same file, although only their module paths are checked and the
files leave out the marks of raw identifiers: a segment can be told from its name without the mark,
since an identifier is raw exactly if the rest is a keyword (`addRaw_fileName`). Paths are joined
from segments that do not contain the separator. Nothing of this depends on letter case.
-/

namespace WireCodec

/-! ## Names of files -/

/-- What a segment contributes to the path of a file. -/
def fileName (segment : String) : String := .ofList (withoutRaw segment.toList)

/-- A name with the mark of a raw identifier, if it needs one. -/
def addRaw (name : String) : String := if name ∈ keywords then "r#" ++ name else name

theorem withoutRaw_of_not_mem {cs : List Char} (plain : '#' ∉ cs) : withoutRaw cs = cs := by
  unfold withoutRaw
  split
  · exact absurd (by simp) plain
  · rfl

theorem fileName_of_not_mem {segment : String} (plain : '#' ∉ segment.toList) :
    fileName segment = segment := by
  rw [fileName, withoutRaw_of_not_mem plain, String.ofList_toList]

theorem fileName_raw {word : String} (plain : '#' ∉ word.toList) :
    fileName ("r#" ++ word) = word := by
  have raw : withoutRaw ("r#" ++ word).toList = withoutRaw word.toList := by
    rw [String.toList_append]
    rfl
  rw [fileName, raw, withoutRaw_of_not_mem plain, String.ofList_toList]

section Words

variable {word : String}

theorem escapeWord_of_mem (h : word ∈ keywords) : escapeWord word = "r#" ++ word := by
  have each : ∀ w ∈ keywords, escapeWord w = "r#" ++ w := by decide
  exact each word h

theorem escapeWord_not_mem (h : word ∉ keywords) : escapeWord word ∉ keywords := by
  have path : ∀ w ∈ pathWords, w ++ "_" ∉ keywords := by decide
  have underscore : ∀ k ∈ keywords, k.toList.head? ≠ some '_' := by decide
  unfold escapeWord
  split_ifs with empty reserved digit
  · decide
  · exact path word reserved
  · exact fun mem => underscore _ mem (by simp)
  · exact h

theorem not_mem_escapeWord (h : word ∉ keywords) (plain : '#' ∉ word.toList) :
    '#' ∉ (escapeWord word).toList := by
  unfold escapeWord
  split_ifs <;> simp [plain]

end Words

theorem not_mem_snakeCase (name : String) : '#' ∉ (snakeCase name).toList := by
  have other : ∀ c ∈ (snakeCase name).toList, c ≠ '#' := by
    refine forall_mem_snakeCase (by decide) (fun c letter same => ?_) name
    rcases isLower_or_isDigit_toLower letter with lower | digit
    · rw [same] at lower
      exact absurd lower (by decide)
    · rw [same] at digit
      exact absurd digit (by decide)
  exact fun mem => other '#' mem rfl

/-- A segment can be told from its name in the path of a file. -/
theorem addRaw_fileName (name : String) :
    addRaw (fileName (identifier name)) = identifier name := by
  have plain := not_mem_snakeCase name
  unfold identifier addRaw
  by_cases h : snakeCase name ∈ keywords
  · rw [escapeWord_of_mem h, fileName_raw plain, if_pos h]
  · rw [fileName_of_not_mem (not_mem_escapeWord h plain), if_neg (escapeWord_not_mem h)]

/-! ## Joining -/

section Joining

variable {α : Type} {c : α} {sep : List α}

theorem ne_of_mem_append_cons {x y z : List α} (apart : c ∉ x) : x ≠ y ++ (c :: sep) ++ z :=
  fun same => apart (by simp [same])

theorem append_cons_inj {x y z w : List α} (hx : c ∉ x) (hy : c ∉ y)
    (same : x ++ c :: z = y ++ c :: w) : x = y ∧ z = w := by
  rcases List.append_eq_append_iff.1 same with ⟨front, rfl, split⟩ | ⟨front, rfl, split⟩
  · cases front with
    | nil => exact ⟨(List.append_nil x).symm, List.tail_eq_of_cons_eq split⟩
    | cons d front =>
      obtain rfl : c = d := List.head_eq_of_cons_eq split
      simp at hy
  · cases front with
    | nil => exact ⟨List.append_nil y, (List.tail_eq_of_cons_eq split).symm⟩
    | cons d front =>
      obtain rfl : c = d := List.head_eq_of_cons_eq split
      simp at hx

/-- Parts that do not contain the start of the separator can be told from what they are joined to. -/
theorem intercalate_injective {xs ys : List (List α)} (some : xs ≠ []) (some' : ys ≠ [])
    (apart : ∀ x ∈ xs, c ∉ x) (apart' : ∀ y ∈ ys, c ∉ y)
    (same : (c :: sep).intercalate xs = (c :: sep).intercalate ys) : xs = ys := by
  induction xs generalizing ys with
  | nil => exact absurd rfl some
  | cons x xs ih =>
    obtain ⟨hx, apart⟩ := List.forall_mem_cons.1 apart
    obtain ⟨y, ys, rfl⟩ := List.exists_cons_of_ne_nil some'
    obtain ⟨hy, apart'⟩ := List.forall_mem_cons.1 apart'
    rcases xs with _ | ⟨x', xs⟩ <;> rcases ys with _ | ⟨y', ys⟩
    · rw [List.intercalate_singleton, List.intercalate_singleton] at same
      rw [same]
    · rw [List.intercalate_singleton, List.intercalate_cons_cons] at same
      exact absurd same (ne_of_mem_append_cons hx)
    · rw [List.intercalate_singleton, List.intercalate_cons_cons] at same
      exact absurd same.symm (ne_of_mem_append_cons hy)
    · rw [List.intercalate_cons_cons, List.intercalate_cons_cons, List.append_assoc,
        List.append_assoc, List.cons_append, List.cons_append] at same
      obtain ⟨head, rest⟩ := append_cons_inj hx hy same
      have others := ih (List.cons_ne_nil _ _) (List.cons_ne_nil _ _) apart apart'
        (List.append_cancel_left rest)
      rw [head, others]

theorem forall_mem_intercalate {P : α → Prop} {sep : List α} {xs : List (List α)}
    (separator : ∀ a ∈ sep, P a) (parts : ∀ x ∈ xs, ∀ a ∈ x, P a) :
    ∀ a ∈ sep.intercalate xs, P a := by
  induction xs with
  | nil => exact fun _ mem => absurd mem List.not_mem_nil
  | cons x xs ih =>
    obtain ⟨first, others⟩ := List.forall_mem_cons.1 parts
    rcases xs with _ | ⟨y, ys⟩
    · rwa [List.intercalate_singleton]
    · rw [List.intercalate_cons_cons]
      exact List.forall_mem_append.2 ⟨List.forall_mem_append.2 ⟨first, separator⟩, ih others⟩

end Joining

/-! ## Paths of segments -/

/-- What a path puts in front of its first segment. -/
def opening (root : String) : List Char := if root = "" then [] else root.toList ++ [':', ':']

theorem toList_pathSnoc (path segment : String) :
    (pathSnoc path segment).toList = opening path ++ segment.toList := by
  unfold pathSnoc opening
  split
  · rfl
  · rw [String.toList_append, String.toList_append]
    rfl

theorem toList_joinPath (root : String) {segments : List String} (some : segments ≠ [])
    (nonempty : ∀ segment ∈ segments, segment ≠ "") : (joinPath root segments).toList =
      opening root ++ [':', ':'].intercalate (segments.map String.toList) := by
  induction segments generalizing root with
  | nil => exact absurd rfl some
  | cons x xs ih =>
    obtain ⟨first, others⟩ := List.forall_mem_cons.1 nonempty
    have path : (joinPath root (x :: xs)) = joinPath (pathSnoc root x) xs := rfl
    rcases xs with _ | ⟨y, ys⟩
    · rw [List.map_singleton, List.intercalate_singleton]
      exact toList_pathSnoc root x
    · have longer : pathSnoc root x ≠ "" := by
        intro none
        have text := toList_pathSnoc root x
        rw [none] at text
        exact first (by simpa using (List.append_eq_nil_iff.1 text.symm).2)
      have front : opening (pathSnoc root x) = opening root ++ x.toList ++ [':', ':'] := by
        rw [opening, if_neg longer, toList_pathSnoc]
      rw [path, ih (pathSnoc root x) (List.cons_ne_nil _ _) others, front, List.map_cons,
        List.map_cons, List.map_cons, List.intercalate_cons_cons]
      simp only [List.append_assoc]

/-- The segments are identifiers, and there are some. -/
structure IsModule (segments : List String) : Prop where
  some : segments ≠ []
  identifiers : ∀ segment ∈ segments, ∃ name, identifier name = segment

namespace IsModule

variable {segments segments' : List String}

theorem isSegment (h : IsModule segments) : ∀ segment ∈ segments, IsSegment segment := by
  intro segment mem
  obtain ⟨name, rfl⟩ := h.identifiers segment mem
  exact isSegment_identifier name

theorem map_ne_nil {α : Type} (h : IsModule segments) (f : String → α) : segments.map f ≠ [] :=
  fun none => h.some (List.map_eq_nil_iff.1 none)

theorem mem_withoutRaw {d : Char} {cs : List Char} (mem : d ∈ withoutRaw cs) : d ∈ cs := by
  induction cs using withoutRaw.induct with
  | case1 rest ih => exact List.mem_cons_of_mem _ (List.mem_cons_of_mem _ (ih mem))
  | case2 cs plain =>
    rw [withoutRaw] at mem
    · exact mem
    · exact plain

theorem toList_filePath (segments : List String) : (filePath segments).toList =
    ['/'].intercalate (segments.map fun s => (fileName s).toList) ++ ['.', 'r', 's'] := by
  rw [filePath, String.toList_append, String.toList_intercalate, List.map_map]
  rfl

/-- Different modules have different files. -/
theorem filePath_injective (h : IsModule segments) (h' : IsModule segments')
    (same : filePath segments = filePath segments') : segments = segments' := by
  have apart : ∀ {segments}, IsModule segments →
      ∀ part ∈ segments.map (fun s => (fileName s).toList), '/' ∉ part := by
    intro segments h
    refine List.forall_mem_map.2 fun segment mem slash => ?_
    rw [fileName, String.toList_ofList] at slash
    exact (h.isSegment segment mem).not_mem (by decide) (mem_withoutRaw slash)
  have restored : ∀ {segments}, IsModule segments →
      (segments.map fun s => (fileName s).toList).map (fun cs => addRaw (.ofList cs)) =
        segments := by
    intro segments h
    rw [List.map_map]
    refine (List.map_congr_left fun segment mem => ?_).trans (List.map_id _)
    obtain ⟨name, rfl⟩ := h.identifiers segment mem
    rw [Function.comp, String.ofList_toList, addRaw_fileName, id]
  have text := congrArg String.toList same
  rw [toList_filePath, toList_filePath] at text
  have parts := intercalate_injective (h.map_ne_nil _) (h'.map_ne_nil _) (apart h) (apart h')
    (List.append_cancel_right text)
  rw [← restored h, parts, restored h']

/-- The path of a module does not start with a colon. -/
theorem intercalate_ne_colon (h : IsModule segments) (rest : List Char) :
    [':', ':'].intercalate (segments.map String.toList) ≠ ':' :: rest := by
  obtain ⟨x, xs, rfl⟩ := List.exists_cons_of_ne_nil h.some
  obtain ⟨name, rfl⟩ := h.identifiers x List.mem_cons_self
  obtain ⟨d, cs, chars⟩ := List.exists_cons_of_ne_nil (l := (identifier name).toList)
    (by simpa using identifier_ne_empty name)
  have start : ∃ cs,
      [':', ':'].intercalate ((identifier name :: xs).map String.toList) = d :: cs := by
    rw [List.map_cons, chars]
    rcases xs with _ | ⟨y, ys⟩
    · exact ⟨cs, by rw [List.map_nil, List.intercalate_singleton]⟩
    · exact ⟨_, by rw [List.map_cons, List.intercalate_cons_cons]; rfl⟩
  obtain ⟨cs', start⟩ := start
  intro same
  obtain rfl : d = ':' := List.head_eq_of_cons_eq (start.symm.trans same)
  exact (isSegment_identifier name).not_mem (by decide) (chars ▸ List.mem_cons_self)

theorem intercalate_colons_injective (h : IsModule segments) (h' : IsModule segments')
    (same : [':', ':'].intercalate (segments.map String.toList) =
      [':', ':'].intercalate (segments'.map String.toList)) : segments = segments' := by
  have apart : ∀ {segments}, IsModule segments →
      ∀ part ∈ segments.map String.toList, ':' ∉ part := fun h =>
    List.forall_mem_map.2 fun segment mem => (h.isSegment segment mem).not_mem (by decide)
  have parts := intercalate_injective (h.map_ne_nil _) (h'.map_ne_nil _) (apart h) (apart h') same
  exact List.map_injective_iff.2 (fun _ _ => String.toList_inj.1) parts

end IsModule

/-! ## Letter case -/

/-- The map of characters changes no ASCII character but capitals, as maps do that make letter case
not count. -/
def FoldsCase (fold : Char → Char) : Prop := ∀ c : Char, c.toNat < 128 → ¬ c.isUpper → fold c = c

theorem foldsCase_id : FoldsCase id := fun _ _ _ => rfl

theorem foldsCase_toLower : FoldsCase Char.toLower := fun _ _ => toLower_of_not_isUpper

/-- A character of a path of segments. -/
def IsPathChar (c : Char) : Prop := IsSegmentChar c ∨ c = '/' ∨ c = '.' ∨ c = ':'

namespace FoldsCase

variable {fold : Char → Char} (h : FoldsCase fold)

include h

theorem eq_of_isPathChar {c : Char} (hc : IsPathChar c) : fold c = c := by
  have bounds : c.toNat < 128 ∧ ¬ c.isUpper := by
    rcases hc with (lower | digit | rfl | rfl) | rfl | rfl | rfl
    · exact bounds_of_isLower lower
    · exact bounds_of_isDigit digit
    all_goals decide
  exact h c bounds.1 bounds.2

theorem map_eq {cs : List Char} (path : ∀ c ∈ cs, IsPathChar c) : cs.map fold = cs :=
  (List.map_congr_left fun c hc => h.eq_of_isPathChar (path c hc)).trans (List.map_id' cs)

theorem map_string_eq {text : String} (path : ∀ c ∈ text.toList, IsPathChar c) :
    text.map fold = text := by
  rw [← String.toList_inj, String.toList_map, h.map_eq path]

end FoldsCase

namespace IsModule

variable {segments : List String} (h : IsModule segments)

include h

theorem isPathChar_filePath : ∀ c ∈ (filePath segments).toList, IsPathChar c := by
  rw [toList_filePath]
  refine List.forall_mem_append.2 ⟨forall_mem_intercalate ?_ ?_, ?_⟩
  · exact List.forall_mem_singleton.2 (.inr (.inl rfl))
  · refine List.forall_mem_map.2 fun segment mem c hc => .inl ?_
    rw [fileName, String.toList_ofList] at hc
    exact h.isSegment segment mem c (mem_withoutRaw hc)
  · have r : IsSegmentChar 'r' := by decide
    have s : IsSegmentChar 's' := by decide
    exact List.forall_mem_cons.2 ⟨.inr (.inr (.inl rfl)),
      List.forall_mem_cons.2 ⟨.inl r, List.forall_mem_singleton.2 (.inl s)⟩⟩

theorem isPathChar_intercalate :
    ∀ c ∈ [':', ':'].intercalate (segments.map String.toList), IsPathChar c := by
  refine forall_mem_intercalate (by simp [IsPathChar]) ?_
  exact List.forall_mem_map.2 fun segment mem c hc => .inl (h.isSegment segment mem c hc)

end IsModule

/-! ## Artifacts -/

/-- The artifact has the file and the module path of its segments. Modules of the run's own have the
colons in front even if the root is empty. -/
structure Artifact.Located (settings : Settings) (a : Artifact) : Prop where
  module : IsModule a.segments
  path : a.path = filePath a.segments
  modulePath : ∃ front, (front = opening settings.messagesRoot ∨
      settings.messagesRoot = "" ∧ front = [':', ':']) ∧
    a.modulePath.toList = front ++ [':', ':'].intercalate (a.segments.map String.toList)

namespace Artifact

variable {settings : Settings}

theorem isModule_messageSegments (settings : Settings) (package name : String) :
    IsModule (settings.messageSegments package name) := by
  refine ⟨List.append_ne_nil_of_right_ne_nil _ (List.cons_ne_nil _ _), ?_⟩
  refine List.forall_mem_append.2 ⟨fun segment mem => ?_, List.forall_mem_singleton.2 ⟨name, rfl⟩⟩
  obtain ⟨part, -, found⟩ := List.mem_filterMap.1 mem
  split at found
  · cases found
  · exact ⟨_, Option.some.inj found⟩

theorem located_ofLayout (m : MessageDecl) (l : Layout) :
    (ofLayout settings m l).Located settings := by
  have module := isModule_messageSegments settings m.package m.name
  refine ⟨module, rfl, opening settings.messagesRoot, .inl rfl, ?_⟩
  refine toList_joinPath settings.messagesRoot module.some fun segment mem => ?_
  obtain ⟨name, rfl⟩ := module.identifiers segment mem
  exact identifier_ne_empty name

theorem located_ofModule {name : String} (own : identifier name = name) (lines : List Line) :
    (ofModule settings name lines).Located settings := by
  refine ⟨⟨List.cons_ne_nil _ _, List.forall_mem_singleton.2 ⟨name, own⟩⟩, rfl, ?_⟩
  have text : (settings.messagesRoot ++ "::" ++ name).toList =
      settings.messagesRoot.toList ++ [':', ':'] ++ [':', ':'].intercalate [name.toList] := by
    rw [String.toList_append, String.toList_append, List.intercalate_singleton]
    rfl
  refine ⟨settings.messagesRoot.toList ++ [':', ':'], ?_, text⟩
  unfold opening
  split
  next empty => exact .inr ⟨empty, by rw [empty]; rfl⟩
  next => exact .inl rfl

section Located

variable {a b : Artifact} (ha : a.Located settings) (hb : b.Located settings) {fold : Char → Char}
  (folds : FoldsCase fold)

include ha hb folds

theorem segments_eq_of_path (same : a.path.map fold = b.path.map fold) :
    a.segments = b.segments := by
  rw [ha.path, hb.path, folds.map_string_eq ha.module.isPathChar_filePath,
    folds.map_string_eq hb.module.isPathChar_filePath] at same
  exact ha.module.filePath_injective hb.module same

theorem segments_eq_of_segments
    (same : a.segments.map (·.map fold) = b.segments.map (·.map fold)) :
    a.segments = b.segments := by
  have plain : ∀ {segments}, IsModule segments → segments.map (·.map fold) = segments := by
    intro segments h
    refine (List.map_congr_left fun segment mem => ?_).trans (List.map_id' segments)
    exact folds.map_string_eq fun c hc => .inl (h.isSegment segment mem c hc)
  rwa [plain ha.module, plain hb.module] at same

theorem segments_eq_of_modulePath (same : a.modulePath.map fold = b.modulePath.map fold) :
    a.segments = b.segments := by
  obtain ⟨front, ends, text⟩ := ha.modulePath
  obtain ⟨front', ends', text'⟩ := hb.modulePath
  have chars := congrArg String.toList same
  rw [String.toList_map, String.toList_map, text, text', List.map_append, List.map_append,
    folds.map_eq ha.module.isPathChar_intercalate, folds.map_eq hb.module.isPathChar_intercalate]
    at chars
  have colons : [':', ':'].map fold = [':', ':'] := folds.map_eq (by simp [IsPathChar])
  have none : settings.messagesRoot = "" → (opening settings.messagesRoot).map fold = [] := by
    intro empty
    rw [opening, if_pos empty, List.map_nil]
  rcases ends with rfl | ⟨empty, rfl⟩ <;> rcases ends' with rfl | ⟨empty', rfl⟩
  · exact ha.module.intercalate_colons_injective hb.module (List.append_cancel_left chars)
  · rw [none empty', colons] at chars
    exact absurd chars (ha.module.intercalate_ne_colon _)
  · rw [none empty, colons] at chars
    exact absurd chars.symm (hb.module.intercalate_ne_colon _)
  · exact ha.module.intercalate_colons_injective hb.module (List.append_cancel_left chars)

end Located

end Artifact

namespace Schema

variable {s : Schema} {settings : Settings} {o : Output}

theorem located_of_generate (h : s.generate settings = .ok o) :
    ∀ a ∈ o.artifacts, a.Located settings := by
  obtain ⟨-, each, registry, index⟩ := generate_eq_ok h
  refine List.forall_mem_append.2 ⟨fun a ha => ?_, ?_⟩
  · obtain ⟨m, -, l, -, rfl⟩ := exists_of_mem_right each ha
    exact Artifact.located_ofLayout m l
  · rw [registry, index]
    refine List.forall_mem_cons.2 ⟨?_, List.forall_mem_singleton.2 ?_⟩
    · exact Artifact.located_ofModule (by decide) _
    · exact Artifact.located_ofModule (by decide) _

/-- What tells the segments of a run's artifacts tells the artifacts. -/
theorem nodup_map_of_segments {β : Type} (h : s.generate settings = .ok o) {f : Artifact → β}
    (tells : ∀ {a b : Artifact}, a.Located settings → b.Located settings → f a = f b →
      a.segments = b.segments) : (o.artifacts.map f).Nodup := by
  have located := located_of_generate h
  refine List.Nodup.map_on (fun a ha b hb same => ?_) ((nodup_segments h).of_map _)
  exact List.inj_on_of_nodup_map (nodup_segments h) ha hb (tells (located a ha) (located b hb) same)

/-- The artifacts of a run have different files, segments and module paths, and these differ in more
than the case of letters. -/
theorem artifacts_apart (h : s.generate settings = .ok o) :
    (o.artifacts.map (·.path)).Nodup ∧ (o.artifacts.map (·.segments)).Nodup ∧
      (o.artifacts.map (·.modulePath)).Nodup ∧
      ∀ fold, FoldsCase fold →
        (o.artifacts.map (·.path.map fold)).Nodup ∧
        (o.artifacts.map (·.segments.map (·.map fold))).Nodup ∧
        (o.artifacts.map (·.modulePath.map fold)).Nodup := by
  have folded : ∀ fold, FoldsCase fold → (o.artifacts.map (·.path.map fold)).Nodup ∧
      (o.artifacts.map (·.segments.map (·.map fold))).Nodup ∧
      (o.artifacts.map (·.modulePath.map fold)).Nodup := by
    intro fold folds
    refine ⟨nodup_map_of_segments h ?_, nodup_map_of_segments h ?_, nodup_map_of_segments h ?_⟩
    · exact fun ha hb same => Artifact.segments_eq_of_path ha hb folds same
    · exact fun ha hb same => Artifact.segments_eq_of_segments ha hb folds same
    · exact fun ha hb same => Artifact.segments_eq_of_modulePath ha hb folds same
  obtain ⟨paths, -, modulePaths⟩ := folded id foldsCase_id
  simp only [String.map_id] at paths modulePaths
  exact ⟨paths, nodup_segments h, modulePaths, folded⟩

/-- Two messages whose modules are keywords, one of them below the other one's name. -/
def raw : Schema where
  messages :=
    [{ name := "Type", protocolId := 1 }, { name := "Loop", package := "type", protocolId := 2 }]

/-- The modules of keywords, without a root for the messages. -/
theorem artifacts_apart_raw :
    ∃ o, raw.generate { messagesRoot := "" } = .ok o ∧ (o.artifacts.map (·.path)).Nodup ∧
      (o.artifacts.map fun a => a.path.map Char.toLower).Nodup ∧
      (o.artifacts.map fun a => a.modulePath.map Char.toLower).Nodup := by
  obtain ⟨o, generated⟩ :=
    exists_of_isOk (show (raw.generate { messagesRoot := "" }).isOk by decide +kernel)
  obtain ⟨paths, -, -, folded⟩ := artifacts_apart generated
  obtain ⟨lowerPaths, -, lowerModules⟩ := folded Char.toLower foldsCase_toLower
  exact ⟨o, generated, paths, lowerPaths, lowerModules⟩

end Schema

end WireCodec
