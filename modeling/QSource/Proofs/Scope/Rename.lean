/-
**Renaming the variable of a scope.**

A parameter or a local of a scope may be called by another name that occurs nowhere.  All names that
the scope owns under the old name get the new one, and no others: inner scopes may have the old name
for themselves, a double colon may write a global of that name, and a column may be called so.  Then
every name still has the owner that it had.  A walk outwards that ended at the scope ends there with
the new name, since no scope on the way has it; and a walk that passed the scope, or never came to it,
does so with the old name, which the scope no longer has.

Main definitions:

* `QSource.Scope.Binds` — the scope has a name as a declared parameter, or as a mere local;
* `QSource.AnnotatedToken.names`, `QSource.AnnotatedToken.renamed` — an occurrence of a variable of a
  scope, and a token with the variable renamed;
* `QSource.Scope.renamed` — a scope with the variable renamed;
* `QSource.Renaming` — **a new name that may be given to a variable**.

Main results:

* `QSource.resolve_map_renamed` — **the walk outwards ends where it did**;
* `QSource.Renaming.scopes_eq` — the scopes have the new name in place of the old one;
* `QSource.Renaming.analysis_eq` — **nothing else is known about any token**.
-/

import QSource.Proofs.Scope.Owners
import QSource.Proofs.Scope.Relabel
import QSource.Proofs.Tree.Statements

set_option relaxedAutoImplicit false
set_option autoImplicit false

namespace QSource

/-! ### Variables of a scope -/

/-- The scope has the name as a declared parameter, or as a local that is no parameter. -/
def Scope.Binds (scope : Scope) (name : String) : Prop :=
  (∃ params, scope.declared = some params ∧ ∃ index, (name, index) ∈ params) ∨
    name ∈ scope.locals ∧ scope.hasParam name = false

/-- The new name in place of the old one. -/
def newName (p q name : String) : String := if name = p then q else name

/-- The scope with number `id` with a new name for one of its variables; other scopes stay. -/
def Scope.renamed (p q : String) (id : ScopeId) (scope : Scope) : Scope :=
  if scope.id = id then
    ⟨{ scope.toRegion with
        declared := scope.declared.map (List.map fun param => (newName p q param.1, param.2)) },
      sortedNames (scope.locals.map (newName p q))⟩
  else scope

/-- Whether a token is a name that the scope with number `id` owns, called `p`. -/
def AnnotatedToken.names (p : String) (id : ScopeId) (t : AnnotatedToken) : Bool :=
  t.isIdentifier && t.text == p && t.binding == some id

/-- A token with the new name in place of the old one, at its new place in the text. -/
def AnnotatedToken.renamed (places : Places) (p q : String) (id : ScopeId) (t : AnnotatedToken) :
    AnnotatedToken :=
  { t with
    text := if t.names p id then q else t.text
    span := places.span t.index
    position := places.position t.index }

section

variable (p q : String) (id : ScopeId) (scope : Scope)

@[simp] theorem Scope.id_renamed : (scope.renamed p q id).id = scope.id := by
  unfold Scope.renamed
  split <;> rfl

@[simp] theorem Scope.parent_renamed : (scope.renamed p q id).parent = scope.parent := by
  unfold Scope.renamed
  split <;> rfl

theorem Scope.renamed_of_ne {p q : String} {id : ScopeId} {scope : Scope} (h : scope.id ≠ id) :
    scope.renamed p q id = scope := if_neg h

end

theorem mem_map_newName {p q : String} {names : List String} (hq : q ∉ names) {name : String} :
    name ∈ names.map (newName p q) ↔ (name = q ∧ p ∈ names) ∨ (name ≠ p ∧ name ∈ names) := by
  rw [List.mem_map]
  constructor
  · rintro ⟨other, hother, rfl⟩
    unfold newName
    split
    · next heq => exact Or.inl ⟨rfl, heq ▸ hother⟩
    · next hne => exact Or.inr ⟨hne, hother⟩
  · rintro (⟨rfl, hp⟩ | ⟨hne, hname⟩)
    · exact ⟨p, hp, if_pos rfl⟩
    · exact ⟨name, hname, if_neg hne⟩

/-! ### The walk outwards -/

theorem Scope.enclosing_map_renamed (p q : String) (id : ScopeId) (scope : Option ScopeId)
    (table : List Scope) : Scope.enclosing scope (table.map (Scope.renamed p q id)) =
      (Scope.enclosing scope table).map (Scope.renamed p q id) := by
  induction table generalizing scope with
  | nil => cases scope <;> rfl
  | cons s table ih =>
      cases scope with
      | none => rfl
      | some other =>
          rw [List.map_cons, Scope.enclosing, Scope.enclosing, id_renamed, parent_renamed, ih, ih]
          split <;> rfl

theorem resolve_cons_of_some {scope : Scope} {name : String} {role : Role}
    (h : scope.roleOf? name = some role) (rest : List Scope) :
    resolve (scope :: rest) name = (role, some scope.id) := by
  simp [resolve, h]

theorem resolve_cons_of_none {scope : Scope} {name : String} (h : scope.roleOf? name = none)
    (rest : List Scope) : resolve (scope :: rest) name = resolve rest name := by
  simp [resolve, h]

theorem Scope.roleOf?_eq_none {scope : Scope} {name : String} :
    scope.roleOf? name = none ↔ scope.hasParam name = false ∧ name ∉ scope.locals := by
  unfold Scope.roleOf?
  cases scope.hasParam name with
  | true => simp
  | false => simp

/-- The names of the parameters of a region. -/
def Region.paramNames (r : Region) : List String :=
  match r.declared with
  | some params => params.map Prod.fst
  | none => defaultParams

theorem Region.hasParam_eq (r : Region) (name : String) :
    r.hasParam name = decide (name ∈ r.paramNames) := by
  unfold Region.hasParam Region.paramNames
  cases r.declared with
  | none => simp
  | some params => simp [List.any_eq]

section

variable {scope : Scope} {p q : String} (hbinds : scope.Binds p)
  (hfresh : scope.roleOf? q = none)

include hfresh

theorem Scope.not_mem_of_roleOf?_eq_none : q ∉ scope.paramNames ∧ q ∉ scope.locals := by
  obtain ⟨hparam, hlocal⟩ := Scope.roleOf?_eq_none.1 hfresh
  rw [Region.hasParam_eq, decide_eq_false_iff_not] at hparam
  exact ⟨hparam, hlocal⟩

theorem Scope.mem_locals_renamed {name : String} :
    name ∈ (scope.renamed p q scope.id).locals ↔
      (name = q ∧ p ∈ scope.locals) ∨ (name ≠ p ∧ name ∈ scope.locals) := by
  rw [Scope.renamed, if_pos rfl, mem_sortedNames,
    mem_map_newName (Scope.not_mem_of_roleOf?_eq_none hfresh).2]

include hbinds

theorem Scope.mem_paramNames_renamed {name : String} :
    name ∈ (scope.renamed p q scope.id).paramNames ↔
      (name = q ∧ p ∈ scope.paramNames) ∨ (name ≠ p ∧ name ∈ scope.paramNames) := by
  have hq := (Scope.not_mem_of_roleOf?_eq_none hfresh).1
  rw [Scope.renamed, if_pos rfl]
  cases hdeclared : scope.declared with
  | some params =>
      have hnames : scope.paramNames = params.map Prod.fst := by simp [Region.paramNames, hdeclared]
      rw [hnames, ← mem_map_newName (hnames ▸ hq)]
      simp [Region.paramNames, Function.comp_def]
  | none =>
      -- without a parameter list the old name is that of a mere local
      obtain ⟨params, hsome, -⟩ | ⟨-, hparam⟩ := hbinds
      · simp [hdeclared] at hsome
      · rw [Region.hasParam_eq, decide_eq_false_iff_not] at hparam
        have hnames : Region.paramNames { scope.toRegion with declared := none } =
            scope.paramNames := by simp [Region.paramNames, hdeclared]
        rw [Option.map_none, hnames]
        constructor
        · intro hname
          exact Or.inr ⟨fun heq => hparam (heq ▸ hname), hname⟩
        · rintro (⟨-, hp⟩ | ⟨-, hname⟩)
          · exact absurd hp hparam
          · exact hname

/-- In a scope that does not have the new name yet, it stands for what the old one stood for. -/
theorem Scope.roleOf?_renamed_new :
    (scope.renamed p q scope.id).roleOf? q = scope.roleOf? p := by
  obtain ⟨hparams, hlocals⟩ := Scope.not_mem_of_roleOf?_eq_none hfresh
  simp [Scope.roleOf?, Region.hasParam_eq, Scope.mem_paramNames_renamed hbinds hfresh,
    Scope.mem_locals_renamed hfresh, hparams, hlocals]

/-- The old name stands for nothing any more, and other names for what they stood for. -/
theorem Scope.roleOf?_renamed_other {name : String} (hname : name ≠ q) :
    (scope.renamed p q scope.id).roleOf? name =
      if name = p then none else scope.roleOf? name := by
  by_cases hp : name = p
  · subst hp
    simp [Scope.roleOf?, Region.hasParam_eq, Scope.mem_paramNames_renamed hbinds hfresh,
      Scope.mem_locals_renamed hfresh, hname]
  · simp [Scope.roleOf?, Region.hasParam_eq, Scope.mem_paramNames_renamed hbinds hfresh,
      Scope.mem_locals_renamed hfresh, hname, hp]

end

/-- A name of a scope has a role in it. -/
theorem Scope.Binds.exists_roleOf? {scope : Scope} {p : String} (h : scope.Binds p) :
    ∃ role, scope.roleOf? p = some role := by
  refine Option.ne_none_iff_exists'.1 fun hnone => ?_
  obtain ⟨hparams, hlocals⟩ := Scope.not_mem_of_roleOf?_eq_none hnone
  rcases h with ⟨params, hdeclared, index, hname⟩ | ⟨hlocal, -⟩
  · have hmem : p ∈ scope.paramNames := by
      rw [Region.paramNames, hdeclared]
      exact List.mem_map_of_mem hname
    exact hparams hmem
  · exact hlocals hlocal

/-- **The walk outwards ends where it did**, if it goes on with the new name where it ended at the
scope with the old one. -/
theorem resolve_map_renamed {scope : Scope} {p q : String} (hbinds : scope.Binds p)
    {chain : List Scope} (hfresh : ∀ s ∈ chain, s.roleOf? q = none)
    (hsame : ∀ s ∈ chain, s.id = scope.id → s = scope) {name : String} (hname : name ≠ q) :
    resolve (chain.map (Scope.renamed p q scope.id))
      (if name = p ∧ (resolve chain p).2 = some scope.id then q else name) =
        resolve chain name := by
  induction chain with
  | nil =>
      rw [if_neg]
      · rfl
      · simp [resolve]
  | cons s rest ih =>
      obtain ⟨hq, hrestq⟩ := List.forall_mem_cons.1 hfresh
      obtain ⟨hs, hrests⟩ := List.forall_mem_cons.1 hsame
      have hrest := ih hrestq hrests
      rw [List.map_cons]
      by_cases hid : s.id = scope.id
      · obtain rfl := hs hid
        obtain ⟨role, hrole⟩ := hbinds.exists_roleOf?
        by_cases hp : name = p
        · -- the scope has the name, as the old one and as the new one
          subst hp
          have hnew := (Scope.roleOf?_renamed_new hbinds hq).trans hrole
          rw [resolve_cons_of_some hrole, if_pos ⟨rfl, rfl⟩, resolve_cons_of_some hnew,
            Scope.id_renamed]
        · have hother := Scope.roleOf?_renamed_other hbinds hq hname
          rw [if_neg hp] at hother
          rw [if_neg (fun h => hp h.1)] at hrest ⊢
          cases hrole' : s.roleOf? name with
          | some role' =>
              rw [resolve_cons_of_some hrole', resolve_cons_of_some (hother.trans hrole'),
                Scope.id_renamed]
          | none =>
              rw [resolve_cons_of_none hrole', resolve_cons_of_none (hother.trans hrole'), hrest]
      · rw [Scope.renamed_of_ne hid]
        cases hrole : s.roleOf? name with
        | some role =>
            -- another scope has the name for itself
            rw [if_neg, resolve_cons_of_some hrole, resolve_cons_of_some hrole]
            rintro ⟨rfl, howner⟩
            rw [resolve_cons_of_some hrole] at howner
            exact hid (Option.some.inj howner)
        | none =>
            have howner : (name = p ∧ (resolve (s :: rest) p).2 = some scope.id) ↔
                (name = p ∧ (resolve rest p).2 = some scope.id) :=
              and_congr_right fun heq => by rw [resolve_cons_of_none (heq ▸ hrole)]
            have hnone : s.roleOf?
                (if name = p ∧ (resolve rest p).2 = some scope.id then q else name) = none := by
              split
              · exact hq
              · exact hrole
            simp only [howner]
            rw [resolve_cons_of_none hnone, hrest, resolve_cons_of_none hrole]

theorem Scope.exists_enclosing_eq_cons {table : List Scope} (hnodup : (table.map (·.id)).Nodup)
    {s : Scope} (hs : s ∈ table) : ∃ rest, Scope.enclosing (some s.id) table = s :: rest := by
  induction table with
  | nil => simp at hs
  | cons other older ih =>
      obtain ⟨hother, holder⟩ := List.nodup_cons.1 hnodup
      rw [Scope.enclosing]
      rcases List.mem_cons.1 hs with rfl | hs
      · exact ⟨_, if_pos rfl⟩
      · rw [if_neg]
        · exact ih holder hs
        · intro heq
          exact hother (List.mem_map.2 ⟨s, hs, heq⟩)

/-- A name that a scope writes is owned by that scope inside it. -/
theorem owner_of_mem_locals {nodes : List Node} {s : Scope} (hs : s ∈ (analyze nodes).scopes)
    {name : String} (hname : name ∈ s.locals) :
    (resolve (Scope.enclosing (some s.id) (analyze nodes).scopes.reverse) name).2 = some s.id := by
  have hnodup : ((analyze nodes).scopes.reverse.map (·.id)).Nodup := by
    rw [List.map_reverse, List.nodup_reverse, map_id_scopes]
    exact List.nodup_range
  obtain ⟨rest, hrest⟩ := Scope.exists_enclosing_eq_cons hnodup (List.mem_reverse.2 hs)
  have hrole : s.roleOf? name ≠ none := fun hnone => (Scope.roleOf?_eq_none.1 hnone).2 hname
  obtain ⟨role, hrole⟩ := Option.ne_none_iff_exists'.1 hrole
  rw [hrest, resolve_cons_of_some hrole]

/-! ### Trees with a variable renamed -/

/-- **The name `q` may be given to the variable `p` of the scope**: it occurs nowhere, not even as a
parameter that scopes have without declaring it, and neither of the two names has a point in it. -/
structure Renaming (nodes : List Node) (scope : Scope) (p q : String) : Prop where
  mem : scope ∈ (analyze nodes).scopes
  binds : scope.Binds p
  old : '.' ∉ p.toList
  new : '.' ∉ q.toList
  unused : ∀ t ∈ (analyze nodes).tokens, t.text ≠ q
  notDefault : q ∉ defaultParams

/-- A token with the new name if its number is among those of the variable, at its new place. -/
def Token.renamed (places : Places) (q : String) (among : Nat → Bool) (t : Token) : Token :=
  ⟨⟨t.kind, if among t.index then q else t.text⟩, t.index, places.span t.index,
    places.position t.index⟩

/-- A name of a parameter list with its number, and with the new name if the number is among those of
the variable. -/
def newParam (q : String) (among : Nat → Bool) (param : String × Nat) : String × Nat :=
  (if among param.2 then q else param.1, param.2)

/-- Whether a number is that of an occurrence of the variable `p` of the scope with number `id`. -/
def occursAt (nodes : List Node) (p : String) (id : ScopeId) (index : Nat) : Bool :=
  (analyze nodes).tokens.any fun t => t.index == index && t.names p id

section

variable {tokens : List Token} {nodes : List Node} {scope : Scope} {p q : String}
  (hnumbered : Token.Numbered tokens) (h : parse tokens = .ok nodes)

include hnumbered h

theorem occursAt_eq {t : AnnotatedToken} (ht : t ∈ (analyze nodes).tokens) (p : String)
    (id : ScopeId) : occursAt nodes p id t.index = t.names p id := by
  rw [Bool.eq_iff_iff, occursAt, List.any_eq_true]
  constructor
  · rintro ⟨u, hu, hnames⟩
    rw [Bool.and_eq_true, beq_iff_eq] at hnames
    rw [← eq_of_index_eq_of_mem_analyze hnumbered h hu ht hnames.1]
    exact hnames.2
  · intro hnames
    exact ⟨t, ht, by simp [hnames]⟩

theorem occursAt_eq_of_mem_marked {m : Marked} (hm : m ∈ (outline nodes).marked) (p : String)
    (id : ScopeId) : occursAt nodes p id m.token.index =
      (m.annotate (analyze nodes).scopes.reverse).names p id := by
  have ht : m.annotate (analyze nodes).scopes.reverse ∈ (analyze nodes).tokens :=
    List.mem_map_of_mem hm
  have hindex := occursAt_eq hnumbered h ht p id
  rwa [Marked.toToken_annotate] at hindex

/-- The tokens of a tree with the variable renamed. -/
theorem toToken_renamed {t : AnnotatedToken} (ht : t ∈ (analyze nodes).tokens) (places : Places)
    (p q : String) (id : ScopeId) :
    t.toToken.renamed places q (occursAt nodes p id) = (t.renamed places p q id).toToken := by
  rw [Token.renamed, occursAt_eq hnumbered h ht]
  rfl

theorem map_renamed (places : Places) (p q : String) (id : ScopeId) :
    tokens.map (Token.renamed places q (occursAt nodes p id)) =
      (analyze nodes).tokens.map fun t => (t.renamed places p q id).toToken := by
  conv_lhs => rw [← allTokens_parse h, ← toToken_analyze, List.map_map]
  exact List.map_congr_left fun t ht => toToken_renamed hnumbered h ht places p q id

omit hnumbered in
/-- No scope has the new name yet. -/
theorem Renaming.roleOf?_eq_none (hr : Renaming nodes scope p q) {s : Scope}
    (hs : s ∈ (analyze nodes).scopes) : s.roleOf? q = none := by
  have hunused : ∀ m ∈ (outline nodes).marked, m.token.text ≠ q := by
    intro m hm
    have hq := hr.unused _ (List.mem_map_of_mem hm)
    rwa [Marked.toToken_annotate] at hq
  rw [Scope.roleOf?_eq_none, Region.hasParam_eq, decide_eq_false_iff_not]
  constructor
  · unfold Region.paramNames
    split
    · next params hdeclared =>
        intro hq
        obtain ⟨⟨name, index⟩, hname, rfl⟩ := List.mem_map.1 hq
        obtain ⟨r, hr, rfl⟩ := mem_scopes_iff.1 hs
        obtain ⟨m, hm, -, -, -, htext, -⟩ := declaredIn_outlineAll hdeclared hname none 0 true false
          false nodes (fits_parse h) hr
        exact hunused m hm htext
    · exact hr.notDefault
  · intro hq
    obtain ⟨m, hm, -, -, htext⟩ := (mem_locals_iff hs).1 hq
    exact hunused m hm htext

/-- Only names are renamed. -/
theorem occursAt_eq_false {t : Token} (ht : t ∈ tokens) (hkind : t.kind ≠ .identifier) (p : String)
    (id : ScopeId) : occursAt nodes p id t.index = false := by
  rw [← allTokens_parse h, ← toToken_analyze] at ht
  obtain ⟨u, hu, rfl⟩ := List.mem_map.1 ht
  rw [occursAt_eq hnumbered h hu]
  simp [AnnotatedToken.names, AnnotatedToken.isIdentifier, hkind]

/-- The outline of the tree with the variable renamed. -/
theorem outline_renamed (places : Places) (p q : String) (id : ScopeId) :
    outline (nodes.map (Node.map (Token.renamed places q (occursAt nodes p id)))) =
      (outline nodes).relabel (Token.renamed places q (occursAt nodes p id)) 0 0
        (newParam q (occursAt nodes p id)) := by
  have hwords : ∀ x ∈ Node.all nodes, x.Renames (Token.renamed places q (occursAt nodes p id))
      (newParam q (occursAt nodes p id)) := by
    intro x hx
    cases x with
    | leaf form token =>
        cases form with
        | identifier => rfl
        | keyword =>
            have hkind : token.kind ≠ .identifier := by
              have hfits : token.kind.leafForm? = some .keyword := fits_parse h _ hx
              intro hname
              simp [hname, Kind.leafForm?] at hfits
            have hmem : token ∈ tokens := by
              rw [← allTokens_parse h]
              exact Node.mem_allTokens_of_mem_all hx (by simp [Node.tokens])
            change (if occursAt nodes p id token.index then q else token.text) = token.text
            rw [occursAt_eq_false hnumbered h hmem hkind, if_neg Bool.false_ne_true]
        | _ => trivial
    | _ => trivial
  exact Node.outlineAll_relabel (f := Token.renamed places q (occursAt nodes p id)) (d := 0) 0
    (fun _ => rfl) (fun _ => rfl) none 0 true false false nodes hwords

/-! ### Scopes -/

omit hnumbered h in
theorem sortedNames_idem (names : List String) :
    sortedNames (sortedNames names) = sortedNames names :=
  sortedNames_eq_of_mem_iff fun _ => mem_sortedNames

/-- A name of a parameter list belongs to the scope of the list. -/
theorem occursAt_of_mem_declared {r : Region} (hr : r ∈ (outline nodes).regions)
    {params : List (String × Nat)} (hdeclared : r.declared = some params) {name : String}
    {index : Nat} (hname : (name, index) ∈ params) (p : String) (id : ScopeId) :
    occursAt nodes p id index = (name == p && r.id == id) := by
  obtain ⟨m, hm, hmark, hscope, hkind, rfl, rfl⟩ :=
    declaredIn_outlineAll hdeclared hname none 0 true false false nodes (fits_parse h) hr
  have hbinding : (m.annotate (analyze nodes).scopes.reverse).binding = m.scope := by
    simp [Marked.annotate, hkind, hmark]
  rw [occursAt_eq_of_mem_marked hnumbered h hm, AnnotatedToken.names,
    AnnotatedToken.isIdentifier, Marked.toToken_annotate, hbinding, hkind, hscope]
  simp

/-- A name that is written with a single colon belongs to the scope around it. -/
theorem occursAt_of_introducesLocal {m : Marked} (hm : m ∈ (outline nodes).marked)
    (hlocal : m.introducesLocal = true) {r : Region} (hr : r ∈ (outline nodes).regions)
    (hscope : m.scope = some r.id) (p : String) (id : ScopeId) :
    occursAt nodes p id m.token.index = (m.token.text == p && r.id == id) := by
  obtain ⟨hkind, -, isCompound, hmark⟩ := introducesLocal_iff.1 hlocal
  obtain ⟨s, hs, hid⟩ : ∃ s ∈ (analyze nodes).scopes, s.id = r.id :=
    ⟨_, mem_scopes_iff.2 ⟨r, hr, rfl⟩, rfl⟩
  have hbinding : (m.annotate (analyze nodes).scopes.reverse).binding = some r.id := by
    obtain ⟨-, -, hresolved⟩ := @Marked.annotate_of_resolved (analyze nodes).scopes.reverse m hkind
      (Or.inr ⟨isCompound, hmark⟩)
    have hmem : m.token.text ∈ s.locals :=
      (mem_locals_iff hs).2 ⟨m, hm, hlocal, by rw [hscope, hid], rfl⟩
    rw [hresolved, hscope, ← hid, owner_of_mem_locals hs hmem]
  rw [occursAt_eq_of_mem_marked hnumbered h hm, AnnotatedToken.names,
    AnnotatedToken.isIdentifier, Marked.toToken_annotate, hbinding, hkind]
  simp

/-- The parameter list of a region, with the new name in the scope of the variable. -/
theorem declared_renamed {r : Region} (hregion : r ∈ (outline nodes).regions) :
    r.declared.map (List.map (newParam q (occursAt nodes p scope.id))) =
      r.declared.map (List.map fun param =>
        (if param.1 == p && r.id == scope.id then q else param.1, param.2)) := by
  refine Option.map_congr fun params hparams => List.map_congr_left fun param hparam => ?_
  rw [newParam, occursAt_of_mem_declared hnumbered h hregion hparams hparam]

theorem renamed_annotate (places : Places) {m : Marked} (hm : m ∈ (outline nodes).marked) :
    (m.annotate (analyze nodes).scopes.reverse).renamed places p q scope.id =
      { m.annotate (analyze nodes).scopes.reverse with
        toToken := m.token.renamed places q (occursAt nodes p scope.id) } := by
  have hmem : m.annotate (analyze nodes).scopes.reverse ∈ (analyze nodes).tokens :=
    List.mem_map_of_mem hm
  have hrenamed := toToken_renamed hnumbered h hmem places p q scope.id
  rw [Marked.toToken_annotate] at hrenamed
  rw [hrenamed]
  rfl

namespace Renaming

variable (hr : Renaming nodes scope p q)

include hr

/-- A token makes its name local as it did before. -/
theorem introducesLocal_renamed (places : Places) {m : Marked} (hm : m ∈ (outline nodes).marked) :
    (m.map (Token.renamed places q (occursAt nodes p scope.id)) 0).introducesLocal =
      m.introducesLocal := by
  have hoccurs := occursAt_eq_of_mem_marked hnumbered h hm p scope.id
  rw [Bool.eq_iff_iff, introducesLocal_iff, introducesLocal_iff]
  change _ ∧ '.' ∉ (if occursAt nodes p scope.id m.token.index then q else _).toList ∧ _ ↔ _
  split
  · next hyes =>
      -- neither the old name nor the new one has a point in it
      have hold : m.token.text = p := by
        rw [hoccurs, AnnotatedToken.names, Marked.toToken_annotate] at hyes
        simp only [Bool.and_eq_true, beq_iff_eq] at hyes
        exact hyes.1.2
      simp [Marked.map, Token.renamed, hold, hr.old, hr.new]
  · rfl

/-- The local names of a region, with the new name in the scope of the variable. -/
theorem localNames_renamed (places : Places) {r : Region} (hregion : r ∈ (outline nodes).regions) :
    localNames (((outline nodes).marked.map
      (Marked.map (Token.renamed places q (occursAt nodes p scope.id)) 0)).filter
        Marked.introducesLocal) r.id =
      sortedNames ((localNames ((outline nodes).marked.filter Marked.introducesLocal) r.id).map
        fun name => if name == p && r.id == scope.id then q else name) := by
  have htargets : ((outline nodes).marked.map
      (Marked.map (Token.renamed places q (occursAt nodes p scope.id)) 0)).filter
        Marked.introducesLocal =
      ((outline nodes).marked.filter Marked.introducesLocal).map
        (Marked.map (Token.renamed places q (occursAt nodes p scope.id)) 0) := by
    rw [List.filter_map]
    exact congrArg _ (List.filter_congr fun m hm => hr.introducesLocal_renamed hnumbered h places hm)
  refine sortedNames_eq_of_mem_iff fun name => ?_
  rw [htargets, List.filter_map, List.map_map, List.mem_map, List.mem_map]
  simp only [localNames, mem_sortedNames, List.mem_map, exists_exists_and_eq_and]
  simp only [Function.comp_def, Marked.map, Option.map_id_fun', id, Nat.add_zero]
  refine exists_congr fun m => and_congr_right fun hm => ?_
  obtain ⟨hm, hscope⟩ := List.mem_filter.1 hm
  obtain ⟨hm, hlocal⟩ := List.mem_filter.1 hm
  change (if occursAt nodes p scope.id m.token.index then q else m.token.text) = _ ↔ _
  rw [occursAt_of_introducesLocal hnumbered h hm hlocal hregion (eq_of_beq hscope)]

/-- The scopes have the new name in place of the old one. -/
theorem scopes_eq (places : Places) :
    ((outline nodes).relabel (Token.renamed places q (occursAt nodes p scope.id)) 0 0
      (newParam q (occursAt nodes p scope.id))).scopes =
        (analyze nodes).scopes.map (Scope.renamed p q scope.id) := by
  have hscopes : (analyze nodes).scopes = (outline nodes).scopes := rfl
  rw [hscopes, Outline.scopes, Outline.scopes, List.map_map]
  change ((outline nodes).regions.map _).map _ = _
  rw [List.map_map]
  refine List.map_congr_left fun r hregion => ?_
  change Scope.mk (r.relabel 0 0 _) (localNames (((outline nodes).marked.map _).filter _) r.id) =
    Scope.renamed p q scope.id ⟨r, _⟩
  rw [hr.localNames_renamed hnumbered h places hregion, Region.relabel,
    declared_renamed hnumbered h hregion, Scope.renamed]
  by_cases hid : r.id = scope.id
  · rw [if_pos hid]
    simp [hid, newName]
    rfl
  · rw [if_neg hid]
    simp [hid, localNames, sortedNames_idem]

/-- A name that the walk outwards looks up stands for the same, with its new name in the new scopes. -/
theorem resolve_renamed (places : Places) {m : Marked} (hm : m ∈ (outline nodes).marked)
    (hkind : m.token.kind = .identifier)
    (hmark : m.mark = .plain ∨ ∃ isCompound, m.mark = .target false isCompound) :
    resolve (Scope.enclosing m.scope
        ((analyze nodes).scopes.reverse.map (Scope.renamed p q scope.id)))
      (m.token.renamed places q (occursAt nodes p scope.id)).text =
        resolve (Scope.enclosing m.scope (analyze nodes).scopes.reverse) m.token.text := by
  obtain ⟨-, -, hbinding⟩ :=
    @Marked.annotate_of_resolved (analyze nodes).scopes.reverse m hkind hmark
  have hmem : ∀ s ∈ Scope.enclosing m.scope (analyze nodes).scopes.reverse,
      s ∈ (analyze nodes).scopes :=
    fun s hs => List.mem_reverse.1 (Scope.mem_of_mem_enclosing hs)
  have hunused : m.token.text ≠ q := by
    have htext := hr.unused _ (List.mem_map_of_mem hm)
    rwa [Marked.toToken_annotate] at htext
  have hresolve := resolve_map_renamed hr.binds
    (fun s hs => hr.roleOf?_eq_none h (hmem s hs))
    (fun s hs => eq_of_id_eq (hmem s hs) hr.mem) hunused
  rw [Scope.enclosing_map_renamed, ← hresolve]
  refine congrArg _ ?_
  change (if occursAt nodes p scope.id m.token.index then q else m.token.text) = _
  rw [occursAt_eq_of_mem_marked hnumbered h hm, AnnotatedToken.names,
    AnnotatedToken.isIdentifier, Marked.toToken_annotate, hkind, hbinding]
  by_cases hp : m.token.text = p
  · simp [hp]
  · simp [hp]

/-- Nothing else is known about a token with its new name. -/
theorem annotate_renamed (places : Places) {m : Marked} (hm : m ∈ (outline nodes).marked) :
    (m.map (Token.renamed places q (occursAt nodes p scope.id)) 0).annotate
      ((analyze nodes).scopes.reverse.map (Scope.renamed p q scope.id)) =
        (m.annotate (analyze nodes).scopes.reverse).renamed places p q scope.id := by
  -- only the token itself and its owner have to do with names
  rw [renamed_annotate hnumbered h places hm]
  refine Marked.annotate_replaced (m := m) rfl ?_ rfl ?_ ?_
  · simp [Marked.map]
  · intro hkind isCompound hmark
    obtain ⟨-, hbinding⟩ :=
      @Marked.annotate_of_global (analyze nodes).scopes.reverse m hkind _ hmark
    change unownedRole (if occursAt nodes p scope.id m.token.index then q else _) = _
    rw [occursAt_eq_of_mem_marked hnumbered h hm, AnnotatedToken.names, hbinding]
    simp
  · intro hkind hmark
    simpa [Marked.map] using hr.resolve_renamed hnumbered h places hm hkind hmark

/-- **The analysis of the tree with the variable renamed**: all else stays as it was. -/
theorem analysis_eq (places : Places) :
    analyze (nodes.map (Node.map (Token.renamed places q (occursAt nodes p scope.id)))) =
      ⟨(analyze nodes).tokens.map (AnnotatedToken.renamed places p q scope.id),
        (analyze nodes).scopes.map (Scope.renamed p q scope.id)⟩ := by
  rw [analyze_eq_analysis, outline_renamed hnumbered h, Outline.analysis,
    hr.scopes_eq hnumbered h, ← List.map_reverse]
  refine congrArg (Analysis.mk · _) ?_
  change ((outline nodes).marked.map _).map _ = ((outline nodes).marked.map _).map _
  rw [List.map_map, List.map_map]
  exact List.map_congr_left fun m hm => hr.annotate_renamed hnumbered h places hm

end Renaming

end

end QSource
