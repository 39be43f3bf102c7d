import Mathlib.Data.List.Chain
import Mathlib.Data.List.Dedup
import Mathlib.Data.List.Perm.Subperm
import Mathlib.Logic.Relation
import WireCodec.Proofs.References
import WireCodec.Proofs.WellFormed

/-!
# Chains of parents

The walk over the parents of a message takes a step for each message that it passes and one to end,
at most one more than the schema has names (`Schema.Walk.run`), and there is one way only in which
it can go and end (`Schema.Ascent`). In a schema that can be generated the parents of a message
never lead back to it, and neither they nor the structs that hold each other as parents go on
forever.
-/

namespace WireCodec.Schema

variable {s : Schema}

/-! ## Chains -/

/-- The name of the parent leads from one message to the other. -/
def HasParent (s : Schema) (m parent : MessageDecl) : Prop :=
  ∃ name, m.parentName = some name ∧ s.message? name = some parent

/-- The message to which a chain of parents leads. -/
def tip (m : MessageDecl) (chain : List MessageDecl) : MessageDecl := chain.getLast?.getD m

/-- How a walk from `m` ends that has passed the chain: at a message without a parent, at one whose
parent is no message of the schema, or at one whose parent has a name that was met before. -/
inductive Ends (s : Schema) (m : MessageDecl) (chain : List MessageDecl) :
    Except SchemaError (List MessageDecl) → Prop
  | root (orphan : (tip m chain).parentName = none) : Ends s m chain (.ok chain)
  | unresolved {name : String} (named : (tip m chain).parentName = some name)
      (missing : s.message? name = none) :
      Ends s m chain (.error (.unresolvedParent (tip m chain).name name))
  | cycle {parent : MessageDecl} (leads : s.HasParent (tip m chain) parent)
      (again : parent.name ∈ (m :: chain).map (·.name)) :
      Ends s m chain (.error (.inheritanceCycle m.name))

/-- The parents lead from `m` through the chain without meeting a name twice. -/
structure Leads (s : Schema) (m : MessageDecl) (chain : List MessageDecl) : Prop where
  linked : (m :: chain).IsChain s.HasParent
  distinct : ((m :: chain).map (·.name)).Nodup

/-- The parents lead from `m` through the chain, and there the walk ends with the result. -/
structure Ascent (s : Schema) (m : MessageDecl) (chain : List MessageDecl)
    (result : Except SchemaError (List MessageDecl)) : Prop extends s.Leads m chain where
  ends : s.Ends m chain result

/-- The names of the messages, each once. -/
def names (s : Schema) : List String := (s.messages.map (·.name)).dedup

theorem HasParent.mem {m parent : MessageDecl} (h : s.HasParent m parent) :
    parent ∈ s.messages := by
  obtain ⟨name, -, found⟩ := h
  exact List.mem_of_find?_eq_some found

theorem HasParent.unique {m p q : MessageDecl} (h : s.HasParent m p) (h' : s.HasParent m q) :
    p = q := by
  obtain ⟨name, named, found⟩ := h
  obtain ⟨name', named', found'⟩ := h'
  cases named.symm.trans named'
  exact Option.some.inj (found.symm.trans found')

theorem mem_messages_of_isChain {m : MessageDecl} {chain : List MessageDecl}
    (h : (m :: chain).IsChain s.HasParent) : ∀ p ∈ chain, p ∈ s.messages := by
  induction chain generalizing m with
  | nil => exact nofun
  | cons parent chain ih =>
    obtain ⟨leads, rest⟩ := List.isChain_cons_cons.1 h
    exact List.forall_mem_cons.2 ⟨leads.mem, ih rest⟩

/-- A chain without repeated names is no longer than there are names. -/
theorem Leads.length_le_names {m : MessageDecl} {chain : List MessageDecl} (h : s.Leads m chain) :
    chain.length ≤ s.names.length := by
  have distinct : (chain.map (·.name)).Nodup := (List.nodup_cons.1 h.distinct).2
  have known : chain.map (·.name) ⊆ s.names := by
    intro name mem
    obtain ⟨p, hp, rfl⟩ := List.mem_map.1 mem
    exact List.mem_dedup.2 (List.mem_map_of_mem (mem_messages_of_isChain h.linked p hp))
  simpa using (distinct.subperm known).length_le

theorem tip_concat (m parent : MessageDecl) (chain : List MessageDecl) :
    tip m (chain ++ [parent]) = parent := by
  simp [tip]

theorem leads_nil (m : MessageDecl) : s.Leads m [] := ⟨.singleton m, List.nodup_singleton _⟩

theorem leads_concat {m parent : MessageDecl} {chain : List MessageDecl} :
    s.Leads m (chain ++ [parent]) ↔ s.Leads m chain ∧ s.HasParent (tip m chain) parent ∧
      parent.name ∉ (m :: chain).map (·.name) := by
  have chains : (m :: (chain ++ [parent])).IsChain s.HasParent ↔
      (m :: chain).IsChain s.HasParent ∧ s.HasParent (tip m chain) parent := by
    rw [← List.cons_append, List.isChain_append]
    simp [tip, List.getLast?_cons]
  have distinct : ((m :: (chain ++ [parent])).map (·.name)).Nodup ↔
      ((m :: chain).map (·.name)).Nodup ∧ parent.name ∉ (m :: chain).map (·.name) := by
    rw [← List.cons_append, List.map_append, List.map_singleton, nodup_concat_iff, and_comm]
  constructor
  · rintro ⟨linked, nodup⟩
    obtain ⟨front, leads⟩ := chains.1 linked
    obtain ⟨apart, new⟩ := distinct.1 nodup
    exact ⟨⟨front, apart⟩, leads, new⟩
  · rintro ⟨⟨front, apart⟩, leads, new⟩
    exact ⟨chains.2 ⟨front, leads⟩, distinct.2 ⟨apart, new⟩⟩

/-! ## Steps -/

/-- A walk over parents: the message from which it starts, and those that it has passed. -/
structure Walk where
  start : MessageDecl
  passed : List MessageDecl

namespace Walk

/-- The message to which the walk has come. -/
def current (w : Walk) : MessageDecl := tip w.start w.passed

/-- The names that the walk has met. -/
def met (w : Walk) : List String := (w.start :: w.passed).map (·.name)

/-- One step: the walk goes on to the parent, or it ends. -/
def step (s : Schema) (w : Walk) : Walk ⊕ Except SchemaError (List MessageDecl) :=
  match w.current.parentName with
  | none => .inr (.ok w.passed)
  | some name =>
    match s.message? name with
    | none => .inr (.error (.unresolvedParent w.current.name name))
    | some parent =>
      if parent.name ∈ w.met then .inr (.error (.inheritanceCycle w.start.name))
      else .inl ⟨w.start, w.passed ++ [parent]⟩

/-- The walk from a message after so many steps. -/
def run (s : Schema) (m : MessageDecl) : Nat → Walk ⊕ Except SchemaError (List MessageDecl)
  | 0 => .inl ⟨m, []⟩
  | n + 1 => (run s m n).elim (step s) .inr

/-- The result of the walk from where it is. -/
def rest (s : Schema) (w : Walk) : Except SchemaError (List MessageDecl) :=
  (w.passed ++ ·) <$> s.ancestorsFrom w.start.name w.met.reverse w.current

theorem step_eq_inl_iff {w w' : Walk} : w.step s = .inl w' ↔
    ∃ parent, (s.HasParent w.current parent ∧ parent.name ∉ w.met) ∧
      w' = ⟨w.start, w.passed ++ [parent]⟩ := by
  unfold step HasParent
  split
  · rename_i root
    simp [root]
  · rename_i name named
    split
    · rename_i missing
      simp [named, missing]
    · rename_i parent found
      split
      · rename_i again
        simp [named, found, again]
      · rename_i new
        simp [named, found, new, eq_comm]

theorem step_eq_inr_iff {w : Walk} {r : Except SchemaError (List MessageDecl)} :
    w.step s = .inr r ↔ s.Ends w.start w.passed r := by
  unfold step
  constructor
  · intro h
    split at h
    · rename_i root
      cases h
      exact .root root
    · rename_i name named
      split at h
      · rename_i missing
        cases h
        exact .unresolved named missing
      · rename_i parent found
        split at h
        · rename_i again
          cases h
          exact .cycle ⟨name, named, found⟩ again
        · cases h
  · unfold current met
    rintro (orphan | ⟨named, missing⟩ | ⟨⟨name, named, found⟩, again⟩)
    · rw [orphan]
    · simp only [named, missing]
    · simp only [named, found, if_pos again]

/-- A step does not change what the walk results in. -/
theorem rest_step (w : Walk) : (w.step s).elim (rest s) id = w.rest s := by
  match next : w.step s with
  | .inl w' =>
    obtain ⟨parent, ⟨⟨name, named, found⟩, new⟩, rfl⟩ := step_eq_inl_iff.1 next
    have goes : s.ancestorsFrom w.start.name w.met.reverse w.current =
        (parent :: ·) <$> s.ancestorsFrom w.start.name (parent.name :: w.met.reverse) parent :=
      ancestorsFrom_step named found fun again => new (List.mem_reverse.1 again)
    have met : (met ⟨w.start, w.passed ++ [parent]⟩).reverse = parent.name :: w.met.reverse := by
      simp [Walk.met]
    rw [Sum.elim_inl, rest, rest, goes, met, Functor.map_map, current, tip_concat]
    simp only [List.append_assoc, List.singleton_append]
  | .inr r =>
    rw [Sum.elim_inr, id, rest, current, met]
    rcases step_eq_inr_iff.1 next with orphan | ⟨named, missing⟩ | ⟨⟨name, named, found⟩, again⟩
    · rw [ancestorsFrom_root orphan]
      simp
    · rw [ancestorsFrom_unresolved named missing]
      rfl
    · rw [ancestorsFrom_cycle named found (List.mem_reverse.2 again)]
      rfl

/-! ## Runs -/

variable {m : MessageDecl} {n : Nat}

theorem run_succ_of_inl {w : Walk} (h : run s m n = .inl w) : run s m (n + 1) = w.step s := by
  rw [run, h, Sum.elim_inl]

theorem rest_run (s : Schema) (m : MessageDecl) (n : Nat) :
    (run s m n).elim (rest s) id = s.ancestors m := by
  induction n with
  | zero => exact id_map _
  | succ n ih =>
    match done : run s m n with
    | .inl w =>
      rw [run_succ_of_inl done, rest_step, ← ih, done, Sum.elim_inl]
    | .inr r =>
      rw [run, ← ih, done]
      rfl

theorem leads_of_run {w : Walk} (h : run s m n = .inl w) :
    w.start = m ∧ w.passed.length = n ∧ s.Leads m w.passed := by
  induction n generalizing w with
  | zero =>
    cases h
    exact ⟨rfl, rfl, leads_nil m⟩
  | succ n ih =>
    match done : run s m n with
    | .inr r =>
      rw [run, done] at h
      cases h
    | .inl before =>
      obtain ⟨rfl, rfl, leads⟩ := ih done
      rw [run_succ_of_inl done] at h
      obtain ⟨parent, next, rfl⟩ := step_eq_inl_iff.1 h
      exact ⟨rfl, List.length_append, leads_concat.2 ⟨leads, next⟩⟩

theorem run_of_leads {chain : List MessageDecl} (h : s.Leads m chain) :
    run s m chain.length = .inl ⟨m, chain⟩ := by
  induction chain using List.reverseRecOn with
  | nil => rfl
  | append_singleton chain parent ih =>
    obtain ⟨leads, next⟩ := leads_concat.1 h
    rw [List.length_append, List.length_singleton, run_succ_of_inl (ih leads)]
    exact step_eq_inl_iff.2 ⟨parent, next, rfl⟩

theorem run_of_le {k : Nat} {r : Except SchemaError (List MessageDecl)} (h : run s m n = .inr r)
    (le : n ≤ k) : run s m k = .inr r := by
  induction le with
  | refl => exact h
  | step _ ih => rw [run, ih, Sum.elim_inr]

/-- The walk has ended after one step more than there are names. -/
theorem exists_run_names (s : Schema) (m : MessageDecl) :
    ∃ r, run s m (s.names.length + 1) = .inr r := by
  match done : run s m (s.names.length + 1) with
  | .inr r => exact ⟨r, rfl⟩
  | .inl w =>
    obtain ⟨-, passed, leads⟩ := leads_of_run done
    have := leads.length_le_names
    omega

/-- A walk that has ended has done so in one of its steps. -/
theorem exists_step_of_run {r : Except SchemaError (List MessageDecl)} (h : run s m n = .inr r) :
    ∃ w k, run s m k = .inl w ∧ w.step s = .inr r := by
  induction n with
  | zero => cases h
  | succ n ih =>
    match done : run s m n with
    | .inl w => exact ⟨w, n, done, run_succ_of_inl done ▸ h⟩
    | .inr r' =>
      rw [run, done] at h
      cases h
      exact ih done

end Walk

namespace Ascent

variable {m : MessageDecl} {chain : List MessageDecl} {r : Except SchemaError (List MessageDecl)}

theorem run_eq (h : s.Ascent m chain r) :
    Walk.run s m chain.length = .inl ⟨m, chain⟩ ∧ Walk.run s m (chain.length + 1) = .inr r := by
  have goes := Walk.run_of_leads h.toLeads
  refine ⟨goes, ?_⟩
  rw [Walk.run_succ_of_inl goes]
  exact Walk.step_eq_inr_iff.2 h.ends

theorem ancestors_eq (h : s.Ascent m chain r) : s.ancestors m = r := by
  rw [← Walk.rest_run s m (chain.length + 1), h.run_eq.2, Sum.elim_inr, id]

theorem length_le (h : s.Ascent m chain r) {chain' : List MessageDecl} (h' : s.Leads m chain') :
    chain'.length ≤ chain.length := by
  by_contra longer
  have ended := Walk.run_of_le h.run_eq.2 (show chain.length + 1 ≤ chain'.length by omega)
  exact nomatch ended.symm.trans (Walk.run_of_leads h')

theorem unique (h : s.Ascent m chain r) {chain' : List MessageDecl}
    {r' : Except SchemaError (List MessageDecl)} (h' : s.Ascent m chain' r') :
    chain' = chain ∧ r' = r := by
  have length := le_antisymm (h.length_le h'.toLeads) (h'.length_le h.toLeads)
  have same := h'.run_eq.1
  rw [length, h.run_eq.1] at same
  cases same
  exact ⟨rfl, h'.ancestors_eq.symm.trans h.ancestors_eq⟩

end Ascent

theorem exists_ascent (s : Schema) (m : MessageDecl) :
    ∃ chain, s.Ascent m chain (s.ancestors m) := by
  obtain ⟨r, ended⟩ := Walk.exists_run_names s m
  obtain ⟨w, k, goes, last⟩ := Walk.exists_step_of_run ended
  obtain ⟨rfl, -, leads⟩ := Walk.leads_of_run goes
  have ascent : s.Ascent w.start w.passed r := ⟨leads, Walk.step_eq_inr_iff.1 last⟩
  exact ⟨w.passed, ascent.ancestors_eq ▸ ascent⟩

/-! ## Schemas that can be generated -/

theorem Descends.closed {m : MessageDecl} {ancestors : List MessageDecl}
    (h : s.Descends m ancestors) {p q : MessageDecl} (hp : p ∈ m :: ancestors)
    (leads : s.HasParent p q) : q ∈ ancestors := by
  induction h with
  | root orphan =>
    obtain ⟨name, named, -⟩ := leads
    cases List.mem_singleton.1 hp
    exact nomatch orphan.symm.trans named
  | child named found _ ih =>
    rcases List.mem_cons.1 hp with rfl | hp
    · cases leads.unique ⟨_, named, found⟩
      exact List.mem_cons_self
    · exact List.mem_cons_of_mem _ (ih hp)

theorem Descends.mem_of_transGen {m : MessageDecl} {ancestors : List MessageDecl}
    (h : s.Descends m ancestors) {p : MessageDecl} (leads : Relation.TransGen s.HasParent m p) :
    p ∈ ancestors := by
  induction leads with
  | single leads => exact h.closed List.mem_cons_self leads
  | tail _ leads ih => exact h.closed (List.mem_cons_of_mem m ih) leads

/-- Chains of parents are the beginnings of the one that ends at a root. -/
theorem Descends.isChain_iff {m : MessageDecl} {ancestors : List MessageDecl}
    (h : s.Descends m ancestors) {chain : List MessageDecl} :
    (m :: chain).IsChain s.HasParent ↔ chain <+: ancestors := by
  induction h generalizing chain with
  | root orphan =>
    rw [List.prefix_nil]
    constructor
    · intro linked
      cases chain with
      | nil => rfl
      | cons p chain =>
        obtain ⟨name, named, -⟩ := (List.isChain_cons_cons.1 linked).1
        exact nomatch orphan.symm.trans named
    · rintro rfl
      exact .singleton _
  | child named found _ ih =>
    cases chain with
    | nil => simp
    | cons p chain =>
      rw [List.isChain_cons_cons, List.cons_prefix_cons, ← ih]
      constructor
      · rintro ⟨leads, linked⟩
        cases leads.unique ⟨_, named, found⟩
        exact ⟨rfl, linked⟩
      · rintro ⟨rfl, linked⟩
        exact ⟨⟨_, named, found⟩, linked⟩

/-- The struct of a message holds the struct of the other one as that of its parent. -/
def Embeds (s : Schema) (m parent : MessageDecl) : Prop :=
  parent ∈ s.messages ∧
    ∃ l, Layout.plan s m = .ok l ∧ l.parent = some ⟨parent.name, parent.package⟩

section Generated

variable {settings : Settings} {o : Output} (generated : s.generate settings = .ok o)

include generated

theorem descends_of_generate {m : MessageDecl} (hm : m ∈ s.messages) :
    ∃ ancestors, s.Descends m ancestors ∧ ((m :: ancestors).map (·.name)).Nodup := by
  obtain ⟨l, planned⟩ := exists_plan_of_generate generated hm
  obtain ⟨-, ancestors, flags, fields, taken, taken', found, -⟩ := Layout.plan_ok planned
  exact ⟨ancestors, ancestors_eq_ok_iff.1 found⟩

theorem not_transGen_hasParent (m : MessageDecl) : ¬ Relation.TransGen s.HasParent m m := by
  intro leads
  obtain ⟨p, -, last⟩ := Relation.TransGen.tail'_iff.1 leads
  obtain ⟨ancestors, descends, distinct⟩ := descends_of_generate generated last.mem
  exact (List.nodup_cons.1 distinct).1 (List.mem_map_of_mem (descends.mem_of_transGen leads))

theorem embeds_iff {m : MessageDecl} (hm : m ∈ s.messages) {parent : MessageDecl} :
    s.Embeds m parent ↔ s.HasParent m parent := by
  obtain ⟨-, distinct⟩ := (generate_eq_ok generated).1
  have known : parent ∈ s.messages → s.message? parent.name = some parent :=
    find?_key_of_mem distinct.names
  obtain ⟨l, planned⟩ := exists_plan_of_generate generated hm
  obtain ⟨-, ancestors, flags, fields, taken, taken', found, -⟩ := Layout.plan_ok planned
  have held := Layout.parent_eq_of_plan found planned
  have named := parentName_eq_of_ancestors found
  constructor
  · rintro ⟨mem, l', planned', parent⟩
    cases planned.symm.trans planned'
    rw [← held, parent] at named
    exact ⟨_, named, known mem⟩
  · intro leads
    cases ancestors with
    | nil =>
      obtain ⟨name, some, -⟩ := leads
      exact nomatch named.symm.trans some
    | cons a ancestors =>
      obtain ⟨first, -⟩ := ancestors_eq_cons found
      cases leads.unique first
      exact ⟨leads.mem, l, planned, held⟩

theorem isChain_embeds_iff {m : MessageDecl} (hm : m ∈ s.messages) {chain : List MessageDecl} :
    (m :: chain).IsChain s.Embeds ↔ (m :: chain).IsChain s.HasParent := by
  induction chain generalizing m with
  | nil => simp
  | cons p chain ih =>
    rw [List.isChain_cons_cons, List.isChain_cons_cons, embeds_iff generated hm]
    exact and_congr_right fun leads => ih leads.mem

end Generated

/-- The walk over the parents of a message ends in one way only, after at most one step more than
there are names, and what it ends with are the ancestors of the message. In a schema that can be
generated no message is an ancestor of its own, the chains of parents of a message are the
beginnings of the one that ends at a root, and so are the structs that hold each other. -/
theorem parent_walk_ends (s : Schema) :
    (∀ m, ∃ chain, s.Ascent m chain (s.ancestors m) ∧
      (∀ chain' r, s.Ascent m chain' r → chain' = chain ∧ r = s.ancestors m) ∧
      Walk.run s m chain.length = .inl ⟨m, chain⟩ ∧
      Walk.run s m (chain.length + 1) = .inr (s.ancestors m) ∧
      chain.length + 1 ≤ s.names.length + 1) ∧
    ∀ settings o, s.generate settings = .ok o →
      (∀ m, ¬ Relation.TransGen s.HasParent m m) ∧
      ∀ m ∈ s.messages, ∃ ancestors, s.Descends m ancestors ∧
        (∀ chain, (m :: chain).IsChain s.HasParent ↔ chain <+: ancestors) ∧
        (∀ chain, (m :: chain).IsChain s.Embeds ↔ chain <+: ancestors) ∧
        ancestors.length < s.messages.length := by
  refine ⟨fun m => ?_, fun settings o generated => ⟨not_transGen_hasParent generated, ?_⟩⟩
  · obtain ⟨chain, ascent⟩ := exists_ascent s m
    exact ⟨chain, ascent, fun chain' r => ascent.unique, ascent.run_eq.1, ascent.run_eq.2,
      Nat.succ_le_succ ascent.length_le_names⟩
  · intro m hm
    obtain ⟨ancestors, descends, distinct⟩ := descends_of_generate generated hm
    have all : m :: ancestors ⊆ s.messages := List.cons_subset.2
      ⟨hm, mem_messages_of_isChain (descends.isChain_iff.2 List.prefix_rfl)⟩
    refine ⟨ancestors, descends, fun chain => descends.isChain_iff, fun chain => ?_, ?_⟩
    · exact (isChain_embeds_iff generated hm).trans descends.isChain_iff
    · exact (distinct.of_map.subperm all).length_le

theorem parent_walk_ends_family :
    ∃ o, family.generate {} = .ok o ∧ (∀ m, ¬ Relation.TransGen family.HasParent m m) ∧
      ∀ m ∈ family.messages, ∃ ancestors, family.Descends m ancestors ∧
        (∀ chain, (m :: chain).IsChain family.Embeds ↔ chain <+: ancestors) ∧
        ancestors.length < 3 := by
  obtain ⟨o, generated⟩ := exists_of_isOk (show (family.generate {}).isOk by decide +kernel)
  obtain ⟨acyclic, rooted⟩ := (parent_walk_ends family).2 {} o generated
  refine ⟨o, generated, acyclic, fun m hm => ?_⟩
  obtain ⟨ancestors, descends, -, structs, bounded⟩ := rooted m hm
  exact ⟨ancestors, descends, structs, bounded⟩

/-- A cycle to which the message itself does not belong. -/
example : Walk.run
    ⟨[{ name := "A", protocolId := 1, parent := some "B" },
      { name := "B", protocolId := 2, parent := some "C" },
      { name := "C", protocolId := 3, parent := some "B" }], []⟩
    { name := "A", protocolId := 1, parent := some "B" } 3 =
      .inr (.error (.inheritanceCycle "A")) := by
  rfl

end WireCodec.Schema
