/-
**Names are resolved by lexical scoping.**

What a name stands for can be said of the finished tree, without passes and tables: the first scope
around it that has it as a parameter owns it, or else the first that writes it with a single colon
directly inside, and a name that no scope owns is global.  It does not matter whether the scope
writes the name before or after the place where it stands.

An assignment inside a parameter list writes its target in the scope of the lambda like any other, but
the analysis never comes by it.  So the statement is about a notion of target that may be chosen: it
holds of the targets outside parameter lists, and not of all that stand before an assignment sign.

Main definitions:

* `QSource.WritesDirectly` — a scope writes a name;
* `QSource.Resolves` — **what a name stands for**, as a walk from a scope outwards;
* `QSource.LexicallyScoped` — all names of a tree stand for what they should.

Main results:

* `QSource.Resolves.unique` — a name stands for one thing;
* `QSource.exists_role_resolves` — a name is what the walk outwards from its scope comes to;
* `QSource.lexicallyScoped_outside` — **names are resolved by lexical scoping**;
* `QSource.not_lexicallyScoped_all` — assignments inside parameter lists are missed.
-/

import QSource.Proofs.Scope.Table
import QSource.Proofs.Scope.Targets

set_option relaxedAutoImplicit false
set_option autoImplicit false

namespace QSource

/-! ### What a name stands for -/

section

variable (target : Token → Assignment → Prop) (nodes : List Node) (name : String)

/-- The scope writes the name with a single colon, at a token that stands directly inside it.  A
name with a point in it is never local to a scope. -/
def WritesDirectly (id : ScopeId) : Prop :=
  ∃ u ∈ (analyze nodes).tokens, u.scope = some id ∧ u.kind = .identifier ∧ u.usage ≠ none ∧
    u.text = name ∧ '.' ∉ u.text.toList ∧ ∃ a, target u.toToken a ∧ a.isGlobal = false

/-- **What a name stands for**, with the scope that owns it, when it is met in the given scope. -/
inductive Resolves : Option ScopeId → Role × Option ScopeId → Prop
  /-- No scope owns the name. -/
  | unowned : Resolves none (unownedRole name, none)
  /-- A parameter of the scope. -/
  | parameter {scope : Scope} (hscope : scope ∈ (analyze nodes).scopes)
      (hparam : HasParam nodes scope name) : Resolves (some scope.id) (.parameter, some scope.id)
  /-- A local name of the scope, if it is no parameter. -/
  | written {scope : Scope} (hscope : scope ∈ (analyze nodes).scopes)
      (hparam : ¬ HasParam nodes scope name)
      (hwrites : WritesDirectly target nodes name scope.id) :
      Resolves (some scope.id) (.localVar, some scope.id)
  /-- Neither of the two: the scope around it decides. -/
  | outer {scope : Scope} {owner : Role × Option ScopeId}
      (hscope : scope ∈ (analyze nodes).scopes) (hparam : ¬ HasParam nodes scope name)
      (hwrites : ¬ WritesDirectly target nodes name scope.id)
      (h : Resolves scope.parent owner) : Resolves (some scope.id) owner

/-- **The names of a tree stand for what they should.**  A name that is neither declared in a
parameter list nor the name of a column is used in one way or the other.  If it is the target of a
double colon it is global; otherwise it is resolved from its scope outwards, in exactly one way.  The
order in which the targets are visited makes no difference to the scopes. -/
structure LexicallyScoped : Prop where
  global : ∀ t ∈ (analyze nodes).tokens, t.kind = .identifier → t.usage ≠ none →
    ∀ a, target t.toToken a → a.isGlobal = true →
      t.role = some (unownedRole t.text) ∧ t.binding = none
  resolved : ∀ t ∈ (analyze nodes).tokens, t.kind = .identifier → t.usage ≠ none →
    (∀ a, target t.toToken a → a.isGlobal = false) →
      ∃ role, t.role = some role ∧
        ∀ owner, Resolves target nodes t.text t.scope owner ↔ owner = (role, t.binding)
  unordered : ∀ targets : List Marked,
    targets.Perm ((outline nodes).marked.filter Marked.introducesLocal) →
      (outline nodes).regions.map (fun r => ⟨r, localNames targets r.id⟩) =
        (analyze nodes).scopes

end

/-- A name stands for one thing. -/
theorem Resolves.unique {target : Token → Assignment → Prop} {nodes : List Node} {name : String}
    {id : Option ScopeId} {owner owner' : Role × Option ScopeId}
    (h : Resolves target nodes name id owner) (h' : Resolves target nodes name id owner') :
    owner = owner' := by
  induction h with
  | unowned =>
      cases h' with
      | unowned => rfl
  | @parameter scope hscope hparam =>
      generalize hid : some scope.id = id' at h'
      cases h' with
      | unowned => simp at hid
      | parameter => rfl
      | written hscope' hparam' | outer hscope' hparam' =>
          rw [eq_of_id_eq hscope hscope' (Option.some.inj hid)] at hparam
          exact absurd hparam hparam'
  | @written scope hscope hparam hwrites =>
      generalize hid : some scope.id = id' at h'
      cases h' with
      | unowned => simp at hid
      | parameter hscope' hparam' =>
          rw [eq_of_id_eq hscope hscope' (Option.some.inj hid)] at hparam
          exact absurd hparam' hparam
      | written => rfl
      | outer hscope' hparam' hwrites' =>
          rw [Option.some.inj hid] at hwrites
          exact absurd hwrites hwrites'
  | @outer scope owner hscope hparam hwrites h ih =>
      generalize hid : some scope.id = id' at h'
      cases h' with
      | unowned => simp at hid
      | parameter hscope' hparam' =>
          rw [eq_of_id_eq hscope hscope' (Option.some.inj hid)] at hparam
          exact absurd hparam' hparam
      | written hscope' hparam' hwrites' =>
          rw [Option.some.inj hid] at hwrites
          exact absurd hwrites' hwrites
      | outer hscope' hparam' hwrites' h' =>
          rw [← eq_of_id_eq hscope hscope' (Option.some.inj hid)] at h'
          exact ih h'

/-! ### Annotated names -/

namespace Marked

variable {scopes : List Scope} {m : Marked}

@[simp] theorem scope_annotate : (m.annotate scopes).scope = m.scope := by
  unfold annotate
  split <;> rfl

theorem annotate_of_global (hkind : m.token.kind = .identifier) {isCompound : Bool}
    (hmark : m.mark = .target true isCompound) :
    (m.annotate scopes).role = some (unownedRole m.token.text) ∧
      (m.annotate scopes).binding = none := by
  unfold annotate
  rw [hkind, hmark]
  exact ⟨rfl, rfl⟩

theorem annotate_of_resolved (hkind : m.token.kind = .identifier)
    (hmark : m.mark = .plain ∨ ∃ isCompound, m.mark = .target false isCompound) :
    (m.annotate scopes).usage = some m.mark.usage ∧
      (m.annotate scopes).role =
        some (resolve (Scope.enclosing m.scope scopes) m.token.text).1 ∧
      (m.annotate scopes).binding =
        (resolve (Scope.enclosing m.scope scopes) m.token.text).2 := by
  unfold annotate
  rw [hkind]
  rcases hmark with hmark | ⟨isCompound, hmark⟩
  · rw [hmark]
    exact ⟨rfl, rfl, rfl⟩
  · rw [hmark]
    exact ⟨rfl, rfl, rfl⟩

/-- A name that is read or written is marked as a target, or not at all. -/
theorem mark_of_usage (hkind : m.token.kind = .identifier)
    (husage : (m.annotate scopes).usage ≠ none) :
    m.mark = .plain ∨ ∃ isGlobal isCompound, m.mark = .target isGlobal isCompound := by
  cases hmark : m.mark with
  | plain => exact Or.inl rfl
  | target isGlobal isCompound => exact Or.inr ⟨isGlobal, isCompound, rfl⟩
  | declaration => simp [annotate, hkind, hmark] at husage
  | column => simp [annotate, hkind, hmark] at husage

end Marked

theorem exists_marked_of_mem_analyze {nodes : List Node} {t : AnnotatedToken}
    (h : t ∈ (analyze nodes).tokens) :
    ∃ m ∈ (outline nodes).marked, t = m.annotate (analyze nodes).scopes.reverse := by
  obtain ⟨m, hm, heq⟩ := List.mem_map.1 h
  exact ⟨m, hm, heq.symm⟩

/-! ### The walk outwards -/

theorem resolve_cons (scope : Scope) (enclosing : List Scope) (name : String) :
    resolve (scope :: enclosing) name =
      if scope.hasParam name then (.parameter, some scope.id)
      else if scope.locals.contains name then (.localVar, some scope.id)
      else resolve enclosing name := by
  by_cases hparam : scope.hasParam name
  · simp [resolve, Scope.roleOf?, hparam]
  · by_cases hlocal : name ∈ scope.locals
    · simp [resolve, Scope.roleOf?, hparam, hlocal]
    · simp [resolve, Scope.roleOf?, hparam, hlocal]

section

variable {tokens : List Token} {nodes : List Node}

/-- A name that is read or written, and is a target, is marked as one: a column would not be used at
all. -/
theorem mark_eq_of_isTarget (hnumbered : Token.Numbered tokens) (h : parse tokens = .ok nodes)
    {scopes : List Scope} {m : Marked} (hm : m ∈ (outline nodes).marked)
    (hkind : m.token.kind = .identifier) (husage : (m.annotate scopes).usage ≠ none)
    {a : Assignment} (htarget : IsTarget (Node.outside nodes) nodes m.token a) :
    m.mark = .target a.isGlobal a.isCompound := by
  rcases mark_of_isTarget hnumbered h hm hkind htarget with hmark | hmark
  · rcases Marked.mark_of_usage hkind husage with hplain | ⟨_, _, hplain⟩
    · simp [hmark] at hplain
    · simp [hmark] at hplain
  · exact hmark

/-- The local names of a scope are those that it writes directly. -/
theorem mem_locals_iff_writesDirectly (hnumbered : Token.Numbered tokens)
    (h : parse tokens = .ok nodes) {scope : Scope} (hscope : scope ∈ (analyze nodes).scopes)
    (name : String) :
    name ∈ scope.locals ↔
      WritesDirectly (IsTarget (Node.outside nodes) nodes) nodes name scope.id := by
  rw [mem_locals_iff hscope]
  constructor
  · rintro ⟨m, hm, hintroduces, hid, htext⟩
    obtain ⟨hkind, hpoint, isCompound, hmark⟩ := introducesLocal_iff.1 hintroduces
    obtain ⟨a, ha, htarget⟩ := exists_isTarget_of_mark hm hmark
    rw [hmark, Mark.target.injEq] at ha
    have husage : (m.annotate (analyze nodes).scopes.reverse).usage = some m.mark.usage :=
      (Marked.annotate_of_resolved hkind (Or.inr ⟨isCompound, hmark⟩)).1
    refine ⟨m.annotate (analyze nodes).scopes.reverse, List.mem_map_of_mem hm, ?_⟩
    rw [Marked.toToken_annotate, Marked.scope_annotate, husage]
    exact ⟨hid, hkind, by simp, htext, hpoint, a, htarget, ha.1.symm⟩
  · rintro ⟨u, hu, hid, hkind, husage, htext, hpoint, a, htarget, hlocal⟩
    obtain ⟨m, hm, rfl⟩ := exists_marked_of_mem_analyze hu
    rw [Marked.toToken_annotate] at hkind htext hpoint htarget
    rw [Marked.scope_annotate] at hid
    have hmark := mark_eq_of_isTarget hnumbered h hm hkind husage htarget
    rw [hlocal] at hmark
    exact ⟨m, hm, introducesLocal_iff.2 ⟨hkind, hpoint, a.isCompound, hmark⟩, hid, htext⟩

/-- **The walk through the table goes from scope to scope as it should.**  The induction is on the
part of the table up to some scope, its last scope first. -/
theorem resolves_resolve (hnumbered : Token.Numbered tokens) (h : parse tokens = .ok nodes)
    (name : String) {table : List Scope} (hsub : ∀ s ∈ table, s ∈ (analyze nodes).scopes)
    (hids : table.map (·.id) = (List.range table.length).reverse) {id : Option ScopeId}
    (hid : ∀ i : Nat, id = some i → i < table.length) :
    Resolves (IsTarget (Node.outside nodes) nodes) nodes name id
      (resolve (Scope.enclosing id table) name) := by
  induction table generalizing id with
  | nil =>
      cases id with
      | none => exact .unowned
      | some i => exact absurd (hid i rfl) (Nat.not_lt_zero i)
  | cons scope older ih =>
      rw [List.map_cons, List.length_cons, List.range_succ, List.reverse_append,
        List.reverse_singleton, List.singleton_append, List.cons.injEq] at hids
      obtain ⟨hlast, hids⟩ := hids
      have hscope := hsub scope (List.mem_cons_self ..)
      have hout := @ih (fun s hs => hsub s (List.mem_cons_of_mem _ hs)) hids
      cases id with
      | none => exact .unowned
      | some i =>
          -- the last scope of the table decides only for its own number, and asks its parent
          by_cases hi : i = scope.id
          · have hparam := hasParam_iff hnumbered h hscope name
            have hwrites := mem_locals_iff_writesDirectly hnumbered h hscope name
            subst hi
            rw [Scope.enclosing, if_pos rfl, resolve_cons]
            split
            · next hyes => exact .parameter hscope (hparam.1 hyes)
            · next hno =>
                split
                · next hyes =>
                    exact .written hscope (mt hparam.2 hno)
                      (hwrites.1 (List.contains_iff_mem.1 hyes))
                · next hno' =>
                    refine .outer hscope (mt hparam.2 hno)
                      (mt hwrites.2 (mt List.contains_iff_mem.2 hno')) (hout ?_)
                    intro p hp
                    rw [← hlast]
                    exact parent_lt_of_mem_scopes hscope hp
          · rw [Scope.enclosing, if_neg hi]
            refine hout ?_
            intro j hj
            obtain rfl := Option.some.inj hj
            rw [hlast] at hi
            exact Nat.lt_of_le_of_ne (Nat.le_of_lt_succ (hid i rfl)) hi

end

/-! ### Lexical scoping -/

section

variable {tokens : List Token} {nodes : List Node} (hnumbered : Token.Numbered tokens)
  (h : parse tokens = .ok nodes) {t : AnnotatedToken} (ht : t ∈ (analyze nodes).tokens)
  (hkind : t.kind = .identifier) (husage : t.usage ≠ none)

include hnumbered h ht hkind husage

/-- No scope owns the target of a double colon. -/
theorem unowned_of_global_target {a : Assignment}
    (htarget : IsTarget (Node.outside nodes) nodes t.toToken a) (hglobal : a.isGlobal = true) :
    t.role = some (unownedRole t.text) ∧ t.binding = none := by
  obtain ⟨m, hm, rfl⟩ := exists_marked_of_mem_analyze ht
  rw [Marked.toToken_annotate] at hkind htarget ⊢
  have hmark := mark_eq_of_isTarget hnumbered h hm hkind husage htarget
  rw [hglobal] at hmark
  exact Marked.annotate_of_global hkind hmark

/-- Any other name is what the walk outwards from its scope comes to. -/
theorem exists_role_resolves
    (hlocal : ∀ a, IsTarget (Node.outside nodes) nodes t.toToken a → a.isGlobal = false) :
    ∃ role, t.role = some role ∧
      ∀ owner, Resolves (IsTarget (Node.outside nodes) nodes) nodes t.text t.scope owner ↔
        owner = (role, t.binding) := by
  obtain ⟨m, hm, rfl⟩ := exists_marked_of_mem_analyze ht
  rw [Marked.toToken_annotate] at hkind hlocal ⊢
  rw [Marked.scope_annotate]
  -- a mark as a target of a double colon would come from one
  have hmark : m.mark = .plain ∨ ∃ isCompound, m.mark = .target false isCompound := by
    rcases Marked.mark_of_usage hkind husage with hmark | ⟨isGlobal, isCompound, hmark⟩
    · exact Or.inl hmark
    · obtain ⟨a, ha, htarget⟩ := exists_isTarget_of_mark hm hmark
      rw [hlocal a htarget] at ha
      exact Or.inr ⟨a.isCompound, ha⟩
  obtain ⟨-, hrole, hbinding⟩ := Marked.annotate_of_resolved hkind hmark
  have hresolves := resolves_resolve hnumbered h m.token.text
    (fun s hs => List.mem_reverse.1 hs)
    (by rw [List.map_reverse, map_id_scopes, List.length_reverse])
    (fun i hi => by
      rw [List.length_reverse]
      exact scope_lt_of_mem_marked hm hi)
  refine ⟨_, hrole, fun owner => ?_⟩
  rw [hbinding]
  constructor
  · intro howner
    exact howner.unique hresolves
  · rintro rfl
    exact hresolves

end

/-- **Names are resolved by lexical scoping**, where the targets of assignments are those outside
parameter lists. -/
theorem lexicallyScoped_outside {tokens : List Token} {nodes : List Node}
    (hnumbered : Token.Numbered tokens) (h : parse tokens = .ok nodes) :
    LexicallyScoped (IsTarget (Node.outside nodes) nodes) nodes := by
  constructor
  case global =>
    intro t ht hkind husage a htarget hglobal
    exact unowned_of_global_target hnumbered h ht hkind husage htarget hglobal
  case resolved =>
    intro t ht hkind husage hlocal
    exact exists_role_resolves hnumbered h ht hkind husage hlocal
  case unordered =>
    intro targets hperm
    rw [analyze, Outline.scopes]
    refine List.map_congr_left fun r _ => ?_
    rw [localNames_eq_of_perm hperm]

/-- A name that is assigned behind an inner lambda is the same inside that lambda, and so is a
parameter. -/
theorem lexicallyScoped_outside_inner :
    let tokens := Lexeme.layOut [⟨.opening .brace, "\x7b"⟩, ⟨.opening .bracket, "["⟩,
      ⟨.identifier, "a"⟩, ⟨.closing .bracket, "]"⟩, ⟨.opening .brace, "\x7b"⟩,
      ⟨.identifier, "a"⟩, ⟨.operator, "+"⟩, ⟨.identifier, "b"⟩, ⟨.closing .brace, "\x7d"⟩,
      ⟨.semicolon, ";"⟩, ⟨.identifier, "b"⟩, ⟨.colon, ":"⟩, ⟨.identifier, "c"⟩,
      ⟨.closing .brace, "\x7d"⟩]
    ∃ nodes, Token.Numbered tokens ∧ parse tokens = .ok nodes ∧
      LexicallyScoped (IsTarget (Node.outside nodes) nodes) nodes ∧
      ((analyze nodes).tokens.filter (·.usage.isSome)).map (fun t => (t.text, t.role, t.binding)) =
        [("a", some .parameter, some 0), ("b", some .localVar, some 0),
          ("b", some .localVar, some 0), ("c", some .globalVar, none)] := by
  intro tokens
  have hnumbered : Token.Numbered tokens := Token.numbered_layOut _
  exact ⟨_, hnumbered, rfl, lexicallyScoped_outside hnumbered rfl, by decide +kernel⟩

/-! ### Parameter lists -/

theorem IsTarget.mem_all {nodes : List Node} {t : Token} {a : Assignment}
    (h : IsTarget (Node.all nodes) nodes t a) : .assignment a ∈ Node.all nodes := by
  have hwritten : ∀ items : List Node, WrittenIn items t a → .assignment a ∈ Node.all items := by
    rintro items ⟨before, form, gap, behind, rfl, -⟩
    exact Node.mem_all_of_mem (by simp)
  rcases h with h | ⟨form, first, items, last, hmem, h⟩
  · exact hwritten nodes h
  · exact Node.mem_all_items (hwritten items h) nodes hmem

/-- **Assignments inside parameter lists are missed**: in a group in a parameter list `a`
is written, and yet it is no local name of the lambda. -/
theorem not_lexicallyScoped_all :
    let tokens := Lexeme.layOut [⟨.opening .brace, "\x7b"⟩, ⟨.opening .bracket, "["⟩,
      ⟨.opening .paren, "("⟩, ⟨.identifier, "a"⟩, ⟨.colon, ":"⟩, ⟨.literal .number, "1"⟩,
      ⟨.closing .paren, ")"⟩, ⟨.closing .bracket, "]"⟩, ⟨.identifier, "a"⟩,
      ⟨.closing .brace, "\x7d"⟩]
    ∃ nodes, Token.Numbered tokens ∧ parse tokens = .ok nodes ∧
      ¬ LexicallyScoped (IsTarget (Node.all nodes) nodes) nodes := by
  intro tokens
  let group : Node := .enclosed .group tokens[2]
    [.leaf .identifier tokens[3], .assignment ⟨none, [], tokens[4]⟩, .leaf .literal tokens[5]]
    tokens[6]
  let nodes : List Node := [.enclosed .lambda tokens[0]
    [.enclosed (.params []) tokens[1] [group] tokens[7], .leaf .identifier tokens[8]] tokens[9]]
  have hnumbered : Token.Numbered tokens := Token.numbered_layOut _
  have hnodes : parse tokens = .ok nodes := rfl
  refine ⟨nodes, hnumbered, hnodes, ?_⟩
  intro hscoped
  let scope : Scope := ⟨⟨0, none, 0, 9, some []⟩, []⟩
  let written : AnnotatedToken := ⟨tokens[3], some 0, some .globalVar, some .reference, false, none⟩
  let met : AnnotatedToken := ⟨tokens[8], some 0, some .globalVar, some .reference, false, none⟩
  have hscope : scope ∈ (analyze nodes).scopes := by decide +kernel
  have hwritten : written ∈ (analyze nodes).tokens := by decide +kernel
  have hmet : met ∈ (analyze nodes).tokens := by decide +kernel
  have hparam : ¬ HasParam nodes scope "a" := by
    rw [← hasParam_iff hnumbered hnodes hscope]
    decide
  have hgroup : group ∈ Node.all nodes := by simp [nodes, Node.self_mem_subtrees]
  have hwrites : WritesDirectly (IsTarget (Node.all nodes) nodes) nodes "a" scope.id := by
    have htarget : IsTarget (Node.all nodes) nodes written.toToken ⟨none, [], tokens[4]⟩ :=
      Or.inr ⟨_, _, _, _, hgroup, [], .identifier, [], _, rfl, by simp⟩
    exact ⟨written, hwritten, rfl, rfl, by simp [written], rfl, by decide +kernel, _, htarget, rfl⟩
  have hlocal : ∀ t a, IsTarget (Node.all nodes) nodes t a → a.isGlobal = false := by
    intro t a htarget
    have hmem := htarget.mem_all
    simp only [nodes, group, Node.all_cons, Node.all_nil, Node.subtrees_enclosed,
      Node.subtrees_leaf, Node.subtrees_assignment] at hmem
    simp at hmem
    rw [hmem]
    rfl
  obtain ⟨role, -, hunique⟩ := hscoped.resolved met hmet rfl (by simp [met]) (hlocal _)
  have howner := (hunique (.localVar, some 0)).1 (.written hscope hparam hwrites)
  simp [met] at howner

end QSource
