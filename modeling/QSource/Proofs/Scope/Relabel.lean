/-
**Analyses of trees of tokens that are replaced.**

What is known about a token depends on the kinds of the tokens around it, on their order, and on the
texts of names and built-in words.  So when every token is replaced by one of the same kind, whose
number depends on the old number, and names and built-in words keep their texts, the annotations and
the scopes stay the same, up to the numbers of the tokens.  The numbers of the scopes may be moved on
as well.

Main definitions:

* `QSource.Region.moved`, `QSource.Scope.moved` — regions and scopes when the numbers of tokens are
  moved by `d` and those of scopes by `k`;
* `QSource.Marked.map`, `QSource.Outline.map`, `QSource.AnnotatedToken.map` — marked tokens, outlines
  and annotated tokens with their tokens replaced;
* `QSource.Outline.relabel` — outlines with new names in parameter lists as well;
* `QSource.Outline.renumber`, `QSource.Scope.renumber` — the same with any new numbers of tokens;
* `QSource.Node.KeepsWords`, `QSource.Node.Renames` — a name or a built-in word keeps its text, or
  names are replaced as they are in parameter lists.

Main results:

* `QSource.Node.outlineAll_renumber` — **the outline of replaced tokens**;
* `QSource.Outline.analysis_renumber` — **the analysis of an outline of replaced tokens**;
* `QSource.Node.outlineAll_map`, `QSource.Outline.analysis_map` — the same where the numbers of tokens
  are moved on by a constant.
-/

import QSource.Proofs.Scope.Outline
import QSource.Proofs.Tree.Relabel

set_option relaxedAutoImplicit false
set_option autoImplicit false

namespace QSource

section

variable (f : Token → Token) (d k : Nat)

/-! ### What is replaced -/

/-- A region with its tokens moved by `d` numbers and its number, as that of the region around it,
by `k`. -/
def Region.moved (r : Region) : Region :=
  ⟨r.id + k, r.parent.map (· + k), r.first + d, r.last + d,
    r.declared.map (List.map fun param => (param.1, param.2 + d))⟩

/-- A scope with its region moved. Its local names stay. -/
def Scope.moved (scope : Scope) : Scope := ⟨scope.toRegion.moved d k, scope.locals⟩

/-- A marked token that is replaced, in a region that is moved. -/
def Marked.map (m : Marked) : Marked := ⟨f m.token, m.scope.map (· + k), m.mark⟩

/-- An outline with its tokens replaced and its regions moved. -/
def Outline.map (o : Outline) : Outline :=
  ⟨o.marked.map (Marked.map f k), o.regions.map (Region.moved d k)⟩

/-- A region that is moved, with the names of its parameter list replaced by `g`, numbers and all. -/
def Region.relabel (g : String × Nat → String × Nat) (r : Region) : Region :=
  ⟨r.id + k, r.parent.map (· + k), r.first + d, r.last + d, r.declared.map (List.map g)⟩

/-- An outline with its tokens replaced and its regions moved, and with new names in parameter
lists. -/
def Outline.relabel (g : String × Nat → String × Nat) (o : Outline) : Outline :=
  ⟨o.marked.map (Marked.map f k), o.regions.map (Region.relabel d k g)⟩

/-- A region whose tokens have their numbers replaced by `ρ`, and the names of its parameter list by
`g`, numbers and all. -/
def Region.renumber (ρ : Nat → Nat) (g : String × Nat → String × Nat) (r : Region) : Region :=
  ⟨r.id + k, r.parent.map (· + k), ρ r.first, ρ r.last, r.declared.map (List.map g)⟩

/-- An outline with its tokens replaced, numbers and all, and with new names in parameter lists. -/
def Outline.renumber (ρ : Nat → Nat) (g : String × Nat → String × Nat) (o : Outline) : Outline :=
  ⟨o.marked.map (Marked.map f k), o.regions.map (Region.renumber k ρ g)⟩

section

variable (ρ : Nat → Nat) (g : String × Nat → String × Nat)

@[simp] theorem Outline.renumber_empty : Outline.empty.renumber f k ρ g = .empty := rfl

@[simp] theorem Outline.renumber_append (a b : Outline) :
    (a ++ b).renumber f k ρ g = a.renumber f k ρ g ++ b.renumber f k ρ g := by
  change Outline.mk ((a.marked ++ b.marked).map _) ((a.regions ++ b.regions).map _) =
    Outline.mk (a.marked.map _ ++ b.marked.map _) (a.regions.map _ ++ b.regions.map _)
  rw [List.map_append, List.map_append]

@[simp] theorem Outline.renumber_ofTokens (scope : Option ScopeId) (mark : Mark)
    (tokens : List Token) : (Outline.ofTokens scope mark tokens).renumber f k ρ g =
      .ofTokens (scope.map (· + k)) mark (tokens.map f) := by
  simp [Outline.renumber, Outline.ofTokens, Marked.map, Function.comp_def]

@[simp] theorem Outline.length_regions_renumber (o : Outline) :
    (o.renumber f k ρ g).regions.length = o.regions.length := List.length_map _

end

@[simp] theorem Outline.length_regions_map (o : Outline) :
    (o.map f d k).regions.length = o.regions.length := List.length_map _

/-- A name or a built-in word keeps its text. -/
def Node.KeepsWords : Node → Prop
  | .leaf .identifier token => (f token).text = token.text
  | .leaf .keyword token => (f token).text = token.text
  | _ => True

/-- A name is replaced as `g` says, and a built-in word keeps its text. -/
def Node.Renames (g : String × Nat → String × Nat) : Node → Prop
  | .leaf .identifier token => ((f token).text, (f token).index) = g (token.text, token.index)
  | .leaf .keyword token => (f token).text = token.text
  | _ => True

/-! ### What the neighbours of a node say -/

variable {f d}

@[simp] theorem Node.isSpace_map (node : Node) : (node.map f).isSpace = node.isSpace := by
  cases node with
  | leaf form token => cases form <;> simp [Node.isSpace]
  | _ => simp [Node.isSpace]

@[simp] theorem signAhead?_map (nodes : List Node) :
    signAhead? (nodes.map (Node.map f)) = (signAhead? nodes).map (Assignment.map f) := by
  induction nodes with
  | nil => rfl
  | cons node nodes ih =>
      cases node with
      | leaf form token => cases form <;> simp [signAhead?, ih]
      | _ => simp [signAhead?]

@[simp] theorem isTable_map (items : List Node) :
    isTable (items.map (Node.map f)) = isTable items := by
  have hspace : Node.isSpace ∘ Node.map f = Node.isSpace := funext Node.isSpace_map
  rw [isTable, isTable, List.dropWhile_map, hspace]
  cases items.dropWhile Node.isSpace with
  | nil => rfl
  | cons node rest =>
      cases node with
      | enclosed form first inner last => cases form <;> simp [Enclosure.map]
      | _ => simp

@[simp] theorem Node.paramOutline_map (ρ : Nat → Nat) (g : String × Nat → String × Nat)
    (scope : Option ScopeId) (node : Node) :
    (node.map f).paramOutline (scope.map (· + k)) =
      (node.paramOutline scope).renumber f k ρ g := by
  cases node with
  | leaf form token => cases form <;> simp [Node.paramOutline, Node.tokens]
  | _ => simp [Node.paramOutline, Node.tokens]

theorem Node.paramOutlines_map (ρ : Nat → Nat) (g : String × Nat → String × Nat)
    (scope : Option ScopeId) (items : List Node) :
    ((items.map (Node.map f)).map (Node.paramOutline (scope.map (· + k)))).foldr
        (· ++ ·) Outline.empty = Outline.renumber f k ρ g
          ((items.map (Node.paramOutline scope)).foldr (· ++ ·) Outline.empty) := by
  induction items with
  | nil => rfl
  | cons node items ih =>
      rw [List.map_cons, List.map_cons, List.foldr_cons, ih, Node.paramOutline_map k ρ g,
        ← Outline.renumber_append, List.map_cons, List.foldr_cons]

theorem Node.queryAfter_map {node : Node}
    (hword : ∀ token, node = .leaf .keyword token → (f token).text = token.text)
    (script initial query : Bool) (rest : List Node) :
    (node.map f).queryAfter script initial query (rest.map (Node.map f)) =
      node.queryAfter script initial query rest := by
  cases node with
  | leaf form token =>
      have hhead : (rest.head?.map (Node.map f)).any Node.isSpace =
          rest.head?.any Node.isSpace := by
        cases rest <;> simp
      cases form with
      | keyword => simp [Node.queryAfter, hword token rfl]
      | _ => simp [Node.queryAfter, hhead]
  | _ => simp [Node.queryAfter]

theorem LeafForm.mark_map (hkind : ∀ t, (f t).kind = t.kind) (query : Bool)
    (sign : Option Assignment) (form : LeafForm) :
    form.mark query (sign.map (Assignment.map f)) = form.mark query sign := by
  cases sign with
  | none => rfl
  | some sign =>
      have hglobal : (sign.map f).isGlobal = sign.isGlobal := by
        simp [Assignment.isGlobal, Assignment.map, hkind]
      have hcompound : (sign.map f).isCompound = sign.isCompound := by
        simp [Assignment.isCompound, Assignment.map]
      cases form <;> simp [LeafForm.mark, hglobal, hcompound]

section

variable {g : String × Nat → String × Nat}

theorem directNames_map {items : List Node} (hwords : ∀ x ∈ items, x.Renames f g) :
    directNames (items.map (Node.map f)) = (directNames items).map g := by
  induction items with
  | nil => rfl
  | cons node items ih =>
      obtain ⟨hnode, hitems⟩ := List.forall_mem_cons.1 hwords
      have hrest := ih hitems
      rw [directNames, directNames] at hrest
      cases node with
      | leaf form token =>
          cases form with
          | identifier =>
              have hname : ((f token).text, (f token).index) = g (token.text, token.index) := hnode
              simp [directNames, hrest, hname]
          | _ => simp [directNames, hrest]
      | _ => simp [directNames, hrest]

theorem declaredParams_map {items : List Node} (hwords : ∀ x ∈ Node.all items, x.Renames f g) :
    declaredParams (items.map (Node.map f)) = (declaredParams items).map (List.map g) := by
  cases items with
  | nil => rfl
  | cons node items =>
      cases node with
      | enclosed form first inner last =>
          cases form with
          | params gap =>
              have hinner : ∀ x ∈ inner, x.Renames f g := by
                intro x hx
                exact hwords x (by simp [Node.mem_all_of_mem hx])
              simp [declaredParams, Enclosure.map, directNames_map hinner]
          | _ => simp [declaredParams, Enclosure.map]
      | _ => simp [declaredParams]

/-! ### Outlines -/

mutual

theorem Node.outline_renumber (ρ : Nat → Nat) (hkind : ∀ t, (f t).kind = t.kind)
    (hindex : ∀ t, (f t).index = ρ t.index) (scope : Option ScopeId) (next : ScopeId)
    (query : Bool) (sign : Option Assignment) :
    ∀ node : Node, (∀ x ∈ node.subtrees, x.Renames f g) →
    (node.map f).outline (scope.map (· + k)) (next + k) query (sign.map (Assignment.map f)) =
      (node.outline scope next query sign).renumber f k ρ g
  | .leaf form token, _ => by simp [Node.outline, LeafForm.mark_map hkind]
  | .assignment parts, _ => by simp [Node.outline]
  | .quoted first content last, _ => by simp [Node.outline]
  | .enclosed form first items last, hwords => by
      have hitems : ∀ x ∈ Node.all items, x.Renames f g := fun x hx => hwords x (by simp [hx])
      cases form with
      | bracket =>
          have hinside := Node.outlineAll_renumber ρ hkind hindex scope next false query query items
            hitems
          simp [Node.outline, Enclosure.map, hinside]
      | group =>
          have hinside := Node.outlineAll_renumber ρ hkind hindex scope next false
            (query || isTable items) (query || isTable items) items hitems
          simp [Node.outline, Enclosure.map, hinside]
      | lambda =>
          have hinside := Node.outlineAll_renumber ρ hkind hindex (some next) (next + 1) false false
            false items hitems
          rw [Option.map_some, Nat.add_right_comm] at hinside
          simp only [Node.map_enclosed, Enclosure.map, Node.outline, hinside,
            declaredParams_map hitems, Outline.renumber_append, Outline.renumber_ofTokens, hindex]
          rfl
      | params gap =>
          have hinside := Node.paramOutlines_map (f := f) k ρ g scope items
          simp only [Node.map_enclosed, Enclosure.map, Node.outline, hinside]
          simp

/-- **The outline of replaced tokens** is the outline with its tokens replaced, if built-in words keep
their texts and names are replaced in parameter lists as they are elsewhere. -/
theorem Node.outlineAll_renumber (ρ : Nat → Nat) (hkind : ∀ t, (f t).kind = t.kind)
    (hindex : ∀ t, (f t).index = ρ t.index) (scope : Option ScopeId) (next : ScopeId)
    (script initial query : Bool) : ∀ nodes : List Node, (∀ x ∈ Node.all nodes, x.Renames f g) →
    Node.outlineAll (scope.map (· + k)) (next + k) script initial query (nodes.map (Node.map f)) =
      (Node.outlineAll scope next script initial query nodes).renumber f k ρ g
  | [], _ => by simp [Node.outlineAll]
  | node :: rest, hwords => by
      rw [Node.all_cons] at hwords
      obtain ⟨hhead, htail⟩ := List.forall_mem_append.1 hwords
      have hnode := Node.outline_renumber ρ hkind hindex scope next query (signAhead? rest) node hhead
      have hrest := Node.outlineAll_renumber ρ hkind hindex scope
        (next + (node.outline scope next query (signAhead? rest)).regions.length) script initial
        (node.queryAfter script initial query rest) rest htail
      have hword : ∀ token, node = .leaf .keyword token → (f token).text = token.text := by
        rintro token rfl
        exact hhead _ (Node.self_mem_subtrees _)
      rw [Nat.add_right_comm] at hrest
      simp only [List.map_cons, Node.outlineAll, signAhead?_map, hnode, Node.queryAfter_map hword,
        Outline.length_regions_renumber, hrest, Outline.renumber_append]

end

/-- The same where the numbers of tokens are moved on by a constant. -/
theorem Node.outlineAll_relabel (hkind : ∀ t, (f t).kind = t.kind)
    (hindex : ∀ t, (f t).index = t.index + d) (scope : Option ScopeId) (next : ScopeId)
    (script initial query : Bool) (nodes : List Node) (hwords : ∀ x ∈ Node.all nodes, x.Renames f g) :
    Node.outlineAll (scope.map (· + k)) (next + k) script initial query (nodes.map (Node.map f)) =
      (Node.outlineAll scope next script initial query nodes).relabel f d k g :=
  Node.outlineAll_renumber k (· + d) hkind hindex scope next script initial query nodes hwords

end

theorem Node.KeepsWords.renames (hindex : ∀ t, (f t).index = t.index + d) {node : Node}
    (h : node.KeepsWords f) : node.Renames f fun param => (param.1, param.2 + d) := by
  unfold Node.KeepsWords at h
  unfold Node.Renames
  split at h <;> simp_all

/-- The outline of replaced tokens, if names and built-in words keep their texts. -/
theorem Node.outlineAll_map (hkind : ∀ t, (f t).kind = t.kind)
    (hindex : ∀ t, (f t).index = t.index + d) (scope : Option ScopeId) (next : ScopeId)
    (script initial query : Bool) (nodes : List Node) (hwords : ∀ x ∈ Node.all nodes, x.KeepsWords f) :
    Node.outlineAll (scope.map (· + k)) (next + k) script initial query (nodes.map (Node.map f)) =
      (Node.outlineAll scope next script initial query nodes).map f d k :=
  Node.outlineAll_relabel k hkind hindex scope next script initial query nodes
    fun x hx => (hwords x hx).renames hindex

/-! ### Analyses -/

/-- The annotated tokens and the scopes of an outline. -/
def Outline.analysis (o : Outline) : Analysis :=
  ⟨o.marked.map (Marked.annotate o.scopes.reverse), o.scopes⟩

theorem analyze_eq_analysis (nodes : List Node) : analyze nodes = (outline nodes).analysis := rfl

variable (f) in
/-- An annotated token that is replaced, in scopes that are moved. -/
def AnnotatedToken.map (t : AnnotatedToken) : AnnotatedToken :=
  { t with
    toToken := f t.toToken
    scope := t.scope.map (· + k)
    binding := t.binding.map (· + k) }

theorem map_add_eq_some {x : Option ScopeId} {id : ScopeId} :
    x.map (· + k) = some (id + k) ↔ x = some id := by
  cases x with
  | none => simp
  | some other => simp

theorem Marked.introducesLocal_map (hkind : ∀ t, (f t).kind = t.kind) {m : Marked}
    (hword : m.token.kind = .identifier → (f m.token).text = m.token.text) :
    (m.map f k).introducesLocal = m.introducesLocal := by
  by_cases hname : m.token.kind = .identifier
  · simp [introducesLocal, Marked.map, hkind, hname, hword hname]
  · have hother : (m.token.kind == .identifier) = false := beq_eq_false_iff_ne.2 hname
    simp [introducesLocal, Marked.map, hkind, hother]

theorem localNames_map {targets : List Marked}
    (hwords : ∀ m ∈ targets, (f m.token).text = m.token.text) (id : ScopeId) :
    localNames (targets.map (Marked.map f k)) (id + k) = localNames targets id := by
  have hscope : ∀ m : Marked, ((m.map f k).scope == some (id + k)) = (m.scope == some id) :=
    fun m => by rw [Bool.eq_iff_iff, beq_iff_eq, beq_iff_eq]; exact map_add_eq_some k
  simp only [localNames, List.filter_map, List.map_map, Function.comp_def, hscope]
  exact congrArg sortedNames (List.map_congr_left fun m hm => hwords m (List.mem_filter.1 hm).1)

/-- A scope whose tokens have their numbers replaced by `ρ`. Its local names stay. -/
def Scope.renumber (ρ : Nat → Nat) (scope : Scope) : Scope :=
  ⟨scope.toRegion.renumber k ρ fun param => (param.1, ρ param.2), scope.locals⟩

section

variable (ρ : Nat → Nat)

theorem Outline.scopes_renumber (hkind : ∀ t, (f t).kind = t.kind) {o : Outline}
    (hwords : ∀ m ∈ o.marked, m.token.kind = .identifier → (f m.token).text = m.token.text) :
    (o.renumber f k ρ fun param => (param.1, ρ param.2)).scopes =
      o.scopes.map (Scope.renumber k ρ) := by
  have htargets : (o.marked.map (Marked.map f k)).filter Marked.introducesLocal =
      (o.marked.filter Marked.introducesLocal).map (Marked.map f k) := by
    rw [List.filter_map]
    exact congrArg _ (List.filter_congr fun m hm => Marked.introducesLocal_map k hkind (hwords m hm))
  have htexts : ∀ m ∈ o.marked.filter Marked.introducesLocal,
      (f m.token).text = m.token.text := by
    intro m hm
    obtain ⟨hmem, hlocal⟩ := List.mem_filter.1 hm
    refine hwords m hmem ?_
    simp only [Marked.introducesLocal, Bool.and_eq_true, beq_iff_eq] at hlocal
    exact hlocal.1.1
  rw [Outline.scopes, Outline.renumber, htargets, Outline.scopes, List.map_map, List.map_map]
  refine List.map_congr_left fun r _ => ?_
  exact congrArg (Scope.mk (r.renumber k ρ _)) (localNames_map k htexts r.id)

theorem Scope.enclosing_map_renumber (scope : Option ScopeId) (table : List Scope) :
    Scope.enclosing (scope.map (· + k)) (table.map (Scope.renumber k ρ)) =
      (Scope.enclosing scope table).map (Scope.renumber k ρ) := by
  induction table generalizing scope with
  | nil => cases scope <;> rfl
  | cons s table ih =>
      cases scope with
      | none => rfl
      | some id =>
          have hid : id + k = (s.renumber k ρ).id ↔ id = s.id := Nat.add_right_cancel_iff
          rw [Option.map_some, List.map_cons, Scope.enclosing, Scope.enclosing]
          split
          · next heq =>
              rw [if_pos (hid.1 heq), List.map_cons]
              exact congrArg _ (ih s.parent)
          · next hne =>
              rw [if_neg (mt hid.2 hne)]
              exact ih (some id)

theorem Scope.hasParam_renumber (scope : Scope) (name : String) :
    (scope.renumber k ρ).hasParam name = scope.hasParam name := by
  have hdeclared : (scope.renumber k ρ).declared =
      scope.declared.map (List.map fun param => (param.1, ρ param.2)) := rfl
  rw [Region.hasParam, hdeclared, Region.hasParam]
  cases scope.declared with
  | none => rfl
  | some params => simp [List.any_map, Function.comp_def]

theorem Scope.roleOf?_renumber (scope : Scope) (name : String) :
    (scope.renumber k ρ).roleOf? name = scope.roleOf? name := by
  rw [Scope.roleOf?, Scope.hasParam_renumber]
  rfl

theorem resolve_map_renumber (table : List Scope) (name : String) :
    resolve (table.map (Scope.renumber k ρ)) name =
      ((resolve table name).1, (resolve table name).2.map (· + k)) := by
  induction table with
  | nil => rfl
  | cons s table ih =>
      rw [List.map_cons]
      simp only [resolve, List.findSome?_cons, Scope.roleOf?_renumber] at ih ⊢
      cases s.roleOf? name with
      | none => exact ih
      | some role => rfl

theorem Marked.annotate_renumber (hkind : ∀ t, (f t).kind = t.kind) {m : Marked}
    (hword : m.token.kind = .identifier → (f m.token).text = m.token.text) (table : List Scope) :
    (m.map f k).annotate (table.map (Scope.renumber k ρ)) = (m.annotate table).map f k := by
  obtain ⟨token, scope, mark⟩ := m
  simp only at hword
  simp only [Marked.map, Marked.annotate, hkind]
  cases htoken : token.kind with
  | identifier =>
      simp only [Scope.enclosing_map_renumber, resolve_map_renumber, hword htoken]
      cases mark with
      | target isGlobal isCompound => cases isGlobal <;> rfl
      | _ => rfl
  | literal form => cases mark <;> rfl
  | _ => rfl

/-- **The analysis of an outline of replaced tokens** is the analysis with its tokens replaced, if
names keep their texts. -/
theorem Outline.analysis_renumber (hkind : ∀ t, (f t).kind = t.kind) {o : Outline}
    (hwords : ∀ m ∈ o.marked, m.token.kind = .identifier → (f m.token).text = m.token.text) :
    (o.renumber f k ρ fun param => (param.1, ρ param.2)).analysis =
      ⟨o.analysis.tokens.map (AnnotatedToken.map f k),
        o.analysis.scopes.map (Scope.renumber k ρ)⟩ := by
  rw [Outline.analysis, Outline.scopes_renumber k ρ hkind hwords, Outline.renumber,
    ← List.map_reverse, List.map_map, Outline.analysis, List.map_map]
  refine congrArg (Analysis.mk · _) (List.map_congr_left fun m hm => ?_)
  exact Marked.annotate_renumber k ρ hkind (hwords m hm) _

end

/-! ### Numbers that are moved on by a constant -/

theorem Scope.roleOf?_moved (scope : Scope) (name : String) :
    (scope.moved d k).roleOf? name = scope.roleOf? name :=
  Scope.roleOf?_renumber k (· + d) scope name

theorem Marked.annotate_map (hkind : ∀ t, (f t).kind = t.kind) {m : Marked}
    (hword : m.token.kind = .identifier → (f m.token).text = m.token.text) (table : List Scope) :
    (m.map f k).annotate (table.map (Scope.moved d k)) = (m.annotate table).map f k :=
  Marked.annotate_renumber k (· + d) hkind hword table

theorem Outline.analysis_map (hkind : ∀ t, (f t).kind = t.kind) {o : Outline}
    (hwords : ∀ m ∈ o.marked, m.token.kind = .identifier → (f m.token).text = m.token.text) :
    (o.map f d k).analysis =
      ⟨o.analysis.tokens.map (AnnotatedToken.map f k), o.analysis.scopes.map (Scope.moved d k)⟩ :=
  Outline.analysis_renumber k (· + d) hkind hwords

end

end QSource
