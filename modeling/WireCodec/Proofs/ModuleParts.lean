import WireCodec.Proofs.PlacedModules

/-!
# Parts of a message's module

The module of a message is a header and the imports, then its code (`Source.bodyLines`). The package
stands in it as it is written, in the title of the struct and nowhere else. The title is a comment,
and a comment ends with its line: another package changes just those lines of the title that come
behind its first one and start no comment (`Artifact.uncommented_source_eq_iff`). So a package
without line feeds stays in the comment, and one with a line feed does not.
-/

namespace WireCodec

namespace Source

/-! ## Code behind the imports -/

section Parts

variable (settings : Settings) (m : MessageDecl) (l : Layout) (p : Program)

/-- The line that tells where a module comes from. -/
def headerLine : Line := .outer ("// `" ++ m.name ++ "`: generated by protogen, do not edit.")

/-- The code of a module: the struct, its default value, its id and its functions. -/
def bodyLines : List Line :=
  spaced [structLines m l, defaultLines m l, idLines m p, codecLines m p, messageLines m]

/-- The struct below its title. -/
def belowTitle : List Line := (structLines m l).tail

theorem spaced_append {g : List Line} {gs : List (List Line)} (filled : g ≠ [])
    (more : spaced gs ≠ []) : spaced (g :: gs) = g ++ .blank :: spaced gs := by
  rw [spaced_cons, if_neg filled, if_neg more]

theorem spaced_ne_nil {g : List Line} (filled : g ≠ []) (gs : List (List Line)) :
    spaced (g :: gs) ≠ [] := by
  rw [spaced_cons, if_neg filled]
  split_ifs
  · exact filled
  · simp

theorem importLines_ne_nil : importLines settings l ≠ [] :=
  spaced_ne_nil (by simp [runtimeNames]) _

theorem structLines_eq : structLines m l = .outer (titleText m) :: belowTitle m l := rfl

/-- The parts of a module. -/
theorem moduleLines_eq :
    moduleLines settings m l p =
      [headerLine m, .blank] ++ importLines settings l ++ .blank :: bodyLines m l p := by
  have body : spaced [structLines m l, defaultLines m l, idLines m p, codecLines m p,
      messageLines m] ≠ [] :=
    spaced_ne_nil (List.cons_ne_nil _ _) _
  rw [moduleLines, spaced_append (List.cons_ne_nil _ _)
    (spaced_ne_nil (importLines_ne_nil settings l) _),
    spaced_append (importLines_ne_nil settings l) body]
  rfl

/-- Behind the title nothing depends on the package. -/
theorem bodyLines_eq :
    bodyLines m l p = .outer (titleText m) :: (belowTitle m l ++ .blank ::
      spaced [defaultLines m l, idLines m p, codecLines m p, messageLines m]) := by
  have functions : spaced [defaultLines m l, idLines m p, codecLines m p, messageLines m] ≠ [] :=
    spaced_ne_nil (List.cons_ne_nil _ _) _
  have struct : structLines m l ≠ [] := List.cons_ne_nil _ _
  rw [bodyLines, spaced_append struct functions, structLines_eq, List.cons_append]

end Parts

/-! ## Comments -/

/-- The line starts a comment. -/
def isComment (cs : List Char) : Bool := "//".toList.isPrefixOf cs

/-- The lines of a text that start no comment. -/
def uncommented (text : String) : List (List Char) :=
  (text.toList.splitOn '\n').filter (!isComment ·)

theorem uncommented_print (ls : List Line) :
    uncommented (print ls) = ls.flatMap (fun l => uncommented (.ofList l.chars)) ++ [[]] := by
  have last : [[]].filter (!isComment ·) = [([] : List Char)] := rfl
  rw [uncommented, splitOn_lineFeed_print, List.filter_append, List.filter_flatMap, last]
  simp only [uncommented, String.toList_ofList]

/-- Of the code of a module, the lines that come from the title are in one place. -/
theorem exists_uncommented_moduleLines (settings : Settings) (m : MessageDecl) (l : Layout)
    (p : Program) : ∃ before after, ∀ package : String,
      uncommented (print (moduleLines settings { m with package } l p)) =
        before ++ uncommented (titleText { m with package }) ++ after := by
  let front : List Line := [headerLine m, .blank] ++ importLines settings l ++ [.blank]
  let back : List Line := belowTitle m l ++ .blank ::
    spaced [defaultLines m l, idLines m p, codecLines m p, messageLines m]
  let code (l : Line) : List (List Char) := uncommented (.ofList l.chars)
  refine ⟨front.flatMap code, back.flatMap code ++ [[]], fun package => ?_⟩
  have parts : moduleLines settings { m with package } l p =
      front ++ .outer (titleText { m with package }) :: back := by
    rw [moduleLines_eq, bodyLines_eq, List.append_assoc _ [Line.blank], List.singleton_append]
    rfl
  rw [parts, uncommented_print, List.flatMap_append, List.flatMap_cons, Line.chars_outer,
    String.ofList_toList]
  simp only [List.append_assoc, code]

/-- Text without the separator goes to the first piece of what comes behind it. -/
theorem splitOn_append_of_not_mem {xs rest piece : List Char} {pieces : List (List Char)}
    (plain : '\n' ∉ xs) (split : rest.splitOn '\n' = piece :: pieces) :
    (xs ++ rest).splitOn '\n' = (xs ++ piece) :: pieces := by
  induction xs with
  | nil => exact split
  | cons x xs ih =>
    obtain ⟨first, others⟩ := not_or.1 (List.mem_cons.not.1 plain)
    rw [List.cons_append, List.splitOn_cons_eq_if_modifyHead, if_neg (by simpa using Ne.symm first),
      ih others]
    rfl

/-- What comes behind the start of a comment counts from its second line on. -/
theorem uncommented_of_comment {start rest : List Char} (plain : '\n' ∉ start)
    (comment : isComment start) :
    uncommented (.ofList (start ++ rest)) =
      (rest.splitOn '\n').tail.filter (!isComment ·) := by
  cases split : rest.splitOn '\n' with
  | nil => exact absurd split (List.splitOn_ne_nil _ _)
  | cons line lines =>
    have first : isComment (start ++ line) := by
      rw [isComment, List.isPrefixOf_iff_prefix] at comment ⊢
      exact comment.trans (List.prefix_append start line)
    rw [uncommented, String.toList_ofList, splitOn_append_of_not_mem plain split,
      List.filter_cons_of_neg (by rw [first]; decide), List.tail_cons]

/-- A package without line feeds is in the comment, and so what comes behind it is the same for all
of them. -/
theorem uncommented_titleText {m : MessageDecl} (filled : m.package ≠ "")
    (plain : '\n' ∉ m.package.toList) :
    uncommented (titleText m) =
      ((("." ++ m.name ++ "`, protocol message " ++ toString m.protocolId ++ ".").toList.splitOn
        '\n').tail).filter (!isComment ·) := by
  have title : titleText m = .ofList (("/// `".toList ++ m.package.toList) ++
      ("." ++ m.name ++ "`, protocol message " ++ toString m.protocolId ++ ".").toList) := by
    rw [titleText, if_neg filled]
    simp only [← String.toList_append, String.ofList_toList, String.append_assoc]
  rw [title]
  refine uncommented_of_comment ?_ rfl
  rw [List.mem_append, not_or]
  exact ⟨by decide, plain⟩

end Source

/-! ## Other packages -/

/-- Planning does not look at the package of the message. -/
theorem Layout.plan_package (s : Schema) (m : MessageDecl) (package : String) :
    plan s { m with package } = plan s m := by
  have ancestors : s.ancestors { m with package } = s.ancestors m := by
    rw [Schema.ancestors, Schema.ancestors, Schema.ancestorsFrom, Schema.ancestorsFrom]
    rfl
  rw [plan, plan, ancestors]

namespace Artifact

open Source

/-- The code of two modules that differ in the package is the same exactly if the lines of the
titles that start no comment are. -/
theorem uncommented_ofLayout_iff (settings : Settings) (m : MessageDecl) (l : Layout)
    (package : String) :
    uncommented (ofLayout settings { m with package } l).source =
        uncommented (ofLayout settings m l).source ↔
      uncommented (titleText { m with package }) = uncommented (titleText m) := by
  obtain ⟨before, after, code⟩ := exists_uncommented_moduleLines settings m l (.ofLayout m l)
  have own : uncommented (ofLayout settings m l).source =
      before ++ uncommented (titleText m) ++ after := code m.package
  have other : uncommented (ofLayout settings { m with package } l).source =
      before ++ uncommented (titleText { m with package }) ++ after := code package
  rw [own, other, List.append_left_inj, List.append_right_inj]

/-- Another package with the same segments leaves an artifact as it is but for its source. The code
in that stays the same exactly if the lines of the title that start no comment do, as they do if
neither package has a line feed. -/
theorem uncommented_source_eq_iff {settings : Settings} {s : Schema} {m : MessageDecl}
    {a : Artifact} (made : ofMessage settings s m = .ok a) {package : String}
    (segments : packageSegments settings.packageRoot package =
      packageSegments settings.packageRoot m.package) :
    ∃ a', ofMessage settings s { m with package } = .ok a' ∧ { a' with source := a.source } = a ∧
      (uncommented a'.source = uncommented a.source ↔
        uncommented (titleText { m with package }) = uncommented (titleText m)) ∧
      (m.package ≠ "" → package ≠ "" → '\n' ∉ m.package.toList → '\n' ∉ package.toList →
        uncommented a'.source = uncommented a.source) := by
  obtain ⟨l, planned, rfl⟩ := ofMessage_eq_ok_iff.1 made
  have same := uncommented_ofLayout_iff settings m l package
  refine ⟨_, ofMessage_eq_ok_iff.2 ⟨l, (Layout.plan_package s m package).trans planned, rfl⟩, ?_,
    same, fun filled filled' plain plain' => same.2 ?_⟩
  · have path : settings.messageSegments package m.name =
        settings.messageSegments m.package m.name := by
      rw [Settings.messageSegments, segments, Settings.messageSegments]
    simp only [ofLayout, Settings.messageModule, path]
  · rw [uncommented_titleText filled plain]
    exact uncommented_titleText (m := { m with package }) filled' plain'

/-- A message without fields in the given package. -/
def pingIn (package : String) : MessageDecl := { name := "Ping", package, protocolId := 1 }

/-- A package with a line feed whose rest starts a comment of its own. -/
theorem uncommented_source_eq_iff_second_comment :
    packageSegments "com.ankamagames." "a\n//b" = packageSegments "com.ankamagames." "a_b" ∧
      ∃ a a', ofMessage {} {} (pingIn "a_b") = .ok a ∧ ofMessage {} {} (pingIn "a\n//b") = .ok a' ∧
        uncommented a'.source = uncommented a.source := by
  have segments : packageSegments "com.ankamagames." "a\n//b" =
      packageSegments "com.ankamagames." "a_b" := by decide +kernel
  obtain ⟨a, made⟩ := exists_of_isOk
    (show (ofMessage {} {} (pingIn "a_b")).isOk by decide +kernel)
  obtain ⟨a', made', -, same, -⟩ := uncommented_source_eq_iff made segments
  exact ⟨segments, a, a', made, made', same.2 (by decide +kernel)⟩

/-- The rest of a package behind a line feed stands among the code. -/
theorem not_uncommented_source_eq :
    ¬ ∀ (settings : Settings) (s : Schema) (m : MessageDecl) (a a' : Artifact) (package : String),
      ofMessage settings s m = .ok a → ofMessage settings s { m with package } = .ok a' →
        m.package ≠ "" → package ≠ "" →
          packageSegments settings.packageRoot package =
            packageSegments settings.packageRoot m.package →
              uncommented a'.source = uncommented a.source := by
  intro all
  obtain ⟨l, planned⟩ := exists_of_isOk
    (show (Layout.plan {} (pingIn "a_b")).isOk by decide +kernel)
  have made (package : String) : ofMessage {} {} (pingIn package) =
      .ok (ofLayout {} (pingIn package) l) :=
    ofMessage_eq_ok_iff.2 ⟨l, (Layout.plan_package {} (pingIn "a_b") package).trans planned, rfl⟩
  have same := all {} {} (pingIn "a_b") _ _ "a\nb" (made "a_b") (made "a\nb") (by decide)
    (by decide) (by decide +kernel)
  exact absurd ((uncommented_ofLayout_iff {} (pingIn "a_b") l "a\nb").1 same) (by decide +kernel)

end Artifact

end WireCodec
