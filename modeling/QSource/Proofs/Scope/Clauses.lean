/-
**Where the naming of columns ends.**

An outline carries along whether columns are being named.  A sequence says the same without a walk: a
query word stands before the place, and between the two there is nothing that ends its clause.  Only
`from`, a semicolon and, in the script itself, a line break that neither a blank nor a comment follows
end a clause.

Main definitions:

* `QSource.Node.EndsClause`, `QSource.ClauseOpen` — what ends a clause, and **where a clause is open**;
* `QSource.Node.queryAlong` — whether columns are being named at a place of a sequence;
* `QSource.SequenceIn` — the sequences of a tree.

Main results:

* `QSource.queryAlong_eq_true_iff` — columns are being named where a clause is open;
* `QSource.isColumn_of_clauseOpen` — **a name that is assigned to where a clause is open is a column**;
* `QSource.isAssignment_of_not_clauseOpen` — elsewhere in the script it is written.
-/

import QSource.Proofs.Scope.Lexical

set_option relaxedAutoImplicit false
set_option autoImplicit false

namespace QSource

open Node (outlineAll)

/-! ### Clauses -/

/-- A query word. -/
def Node.OpensClause : Node → Prop
  | .leaf .keyword word => word.text ∈ queryWords
  | _ => False

/-- The node ends a clause: it is `from`, or a semicolon, or a line break of the script itself that
neither a blank nor a comment follows. -/
def Node.EndsClause (script : Bool) (rest : List Node) : Node → Prop
  | .leaf .keyword word => word.text = sourceWord
  | .leaf .semicolon _ => True
  | .leaf .lineBreak _ => script = true ∧ rest.head?.any Node.isSpace = false
  | _ => False

/-- **A clause is open between `before` and `rest`**: a query word stands before, and nothing behind it
ends its clause. -/
def ClauseOpen (script : Bool) (before rest : List Node) : Prop :=
  ∃ earlier word behind, before = earlier ++ word :: behind ∧ word.OpensClause ∧
    ∀ between node later, behind = between ++ node :: later →
      ¬ node.EndsClause script (later ++ rest)

section

variable {script : Bool} {before rest : List Node} {node : Node}

theorem not_clauseOpen_nil : ¬ ClauseOpen script [] rest := by
  rintro ⟨earlier, word, behind, heq, -⟩
  simp at heq

/-- A clause is open behind a node that opens one, and behind a node that does not end one. -/
theorem clauseOpen_concat : ClauseOpen script (before ++ [node]) rest ↔
    node.OpensClause ∨ ClauseOpen script before (node :: rest) ∧ ¬ node.EndsClause script rest := by
  constructor
  · rintro ⟨earlier, word, behind, heq, hopens, hends⟩
    rcases List.eq_nil_or_concat behind with rfl | ⟨behind, x, rfl⟩
    · obtain ⟨-, hword⟩ := List.append_inj' heq rfl
      rw [(List.cons.inj hword).1]
      exact Or.inl hopens
    · rw [List.concat_eq_append, ← List.cons_append, ← List.append_assoc] at heq
      obtain ⟨rfl, hx⟩ := List.append_inj' heq rfl
      obtain rfl := (List.cons.inj hx).1
      refine Or.inr ⟨⟨earlier, word, behind, rfl, hopens, ?_⟩, hends behind node [] (by simp)⟩
      rintro between y later rfl
      have hy := hends between y (later ++ [node]) (by simp)
      rwa [List.append_assoc, List.singleton_append] at hy
  · rintro (hopens | ⟨⟨earlier, word, behind, rfl, hopens, hends⟩, hnode⟩)
    · exact ⟨before, node, [], rfl, hopens, by simp⟩
    · refine ⟨earlier, word, behind ++ [node], by simp, hopens, ?_⟩
      intro between y later heq
      rcases List.eq_nil_or_concat later with rfl | ⟨later, x, rfl⟩
      · obtain ⟨-, hy⟩ := List.append_inj' heq rfl
        rwa [← (List.cons.inj hy).1]
      · rw [List.concat_eq_append, ← List.cons_append, ← List.append_assoc] at heq
        obtain ⟨rfl, hx⟩ := List.append_inj' heq rfl
        obtain rfl := (List.cons.inj hx).1
        have hy := hends between y later rfl
        rwa [List.concat_eq_append, List.append_assoc, List.singleton_append]

/-! ### The walk -/

/-- Whether columns are being named between `before` and `rest`, where `query` says so before both. -/
def Node.queryAlong (script initial query : Bool) : List Node → List Node → Bool
  | [], _ => query
  | node :: before, rest =>
    queryAlong script initial (node.queryAfter script initial query (before ++ rest)) before rest

theorem Node.queryAlong_concat (initial query : Bool) :
    Node.queryAlong script initial query (before ++ [node]) rest =
      node.queryAfter script initial (Node.queryAlong script initial query before (node :: rest))
        rest := by
  induction before generalizing query with
  | nil => rfl
  | cons x before ih =>
      rw [List.cons_append, Node.queryAlong, Node.queryAlong, ih, List.append_assoc,
        List.singleton_append]

theorem Node.queryAfter_of_open {initial query : Bool}
    (h : node.OpensClause ∨ query = true ∧ ¬ node.EndsClause script rest) :
    node.queryAfter script initial query rest = true := by
  fun_cases Node.queryAfter <;> simp_all [Node.OpensClause, Node.EndsClause]

/-- Where statements do not begin with the naming of columns, a clause is needed. -/
theorem Node.open_of_queryAfter {query : Bool} (h : node.queryAfter script false query rest = true) :
    node.OpensClause ∨ query = true ∧ ¬ node.EndsClause script rest := by
  revert h
  fun_cases Node.queryAfter <;> simp_all [Node.OpensClause, Node.EndsClause]

theorem queryAlong_of_clauseOpen {initial query : Bool} (h : ClauseOpen script before rest) :
    Node.queryAlong script initial query before rest = true := by
  induction before using List.reverseRecOn generalizing rest with
  | nil => exact absurd h not_clauseOpen_nil
  | append_singleton before node ih =>
      rw [Node.queryAlong_concat]
      exact Node.queryAfter_of_open ((clauseOpen_concat.1 h).imp_right fun hopen =>
        ⟨ih hopen.1, hopen.2⟩)

/-- **Columns are being named where a clause is open**, if statements do not begin with the naming of
columns. -/
theorem queryAlong_eq_true_iff :
    Node.queryAlong script false false before rest = true ↔ ClauseOpen script before rest := by
  refine ⟨fun h => ?_, queryAlong_of_clauseOpen⟩
  induction before using List.reverseRecOn generalizing rest with
  | nil => simp [Node.queryAlong] at h
  | append_singleton before node ih =>
      rw [Node.queryAlong_concat] at h
      exact clauseOpen_concat.2 ((Node.open_of_queryAfter h).imp_right fun hopen =>
        ⟨ih hopen.1, hopen.2⟩)

/-- The mark of a leaf, from what stands before it and from the sign that is ahead. -/
theorem mem_marked_outlineAll (scope : Option ScopeId) (next : ScopeId) (initial query : Bool)
    (form : LeafForm) (t : Token) :
    ⟨t, scope, form.mark (Node.queryAlong script initial query before (.leaf form t :: rest))
        (signAhead? rest)⟩ ∈
      (outlineAll scope next script initial query (before ++ .leaf form t :: rest)).marked := by
  induction before generalizing next query with
  | nil =>
      rw [List.nil_append, outlineAll, Outline.marked_append]
      exact List.mem_append_left _ (by simp [Node.outline, Node.queryAlong])
  | cons node before ih =>
      rw [List.cons_append, outlineAll, Outline.marked_append]
      exact List.mem_append_right _ (ih _ _)

end

/-! ### Names in clauses -/

/-- A name that stands for nothing, as the name of a column does. -/
def AnnotatedToken.isColumn (t : AnnotatedToken) : Bool := t.isIdentifier && t.role == none

/-- The sequences of a tree: the script itself, and what its nodes outside parameter lists enclose. -/
inductive SequenceIn (nodes : List Node) : Bool → List Node → Prop
  | script : SequenceIn nodes true nodes
  | enclosed {form : Enclosure} {first last : Token} {items : List Node}
      (h : .enclosed form first items last ∈ Node.outside nodes) : SequenceIn nodes false items

section

variable {tokens : List Token} {nodes : List Node}

/-- The nodes of a sequence of a tree are nodes of the tree. -/
theorem SequenceIn.mem_all {script : Bool} {sequence : List Node} (h : SequenceIn nodes script sequence)
    {x : Node} (hx : x ∈ sequence) : x ∈ Node.all nodes := by
  cases h with
  | script => exact Node.mem_all_of_mem hx
  | enclosed h =>
      exact Node.mem_all_items (Node.mem_all_of_mem hx) nodes (Node.outside_subset nodes h)

/-- The outline of a tree holds the outlines of its sequences. -/
theorem SequenceIn.exists_outlineAll {script : Bool} {sequence : List Node}
    (h : SequenceIn nodes script sequence) :
    ∃ scope next initial query,
      (outlineAll scope next script initial query sequence).marked ⊆ (outline nodes).marked := by
  cases h with
  | script => exact ⟨none, 0, false, false, fun _ hm => hm⟩
  | enclosed h => exact exists_outlineAll_of_mem_outside none 0 true false false nodes h

theorem Kind.leafForm?_eq_identifier {kind : Kind} :
    kind.leafForm? = some .identifier ↔ kind = .identifier := by
  cases kind <;> simp [leafForm?]

variable (hnumbered : Token.Numbered tokens) (h : parse tokens = .ok nodes)

include hnumbered h

/-- A token that is marked once is annotated by that mark. -/
theorem eq_annotate_of_mem_marked {m : Marked} (hm : m ∈ (outline nodes).marked)
    {t : AnnotatedToken} (ht : t ∈ (analyze nodes).tokens) (htoken : t.toToken = m.token) :
    t = m.annotate (analyze nodes).scopes.reverse := by
  obtain ⟨m', hm', rfl⟩ := exists_marked_of_mem_analyze ht
  rw [Marked.toToken_annotate] at htoken
  rw [marked_eq_of_token_eq hnumbered h hm' hm htoken]

/-- **A name that is assigned to where a clause is open is a column.** -/
theorem isColumn_of_clauseOpen {script : Bool} {before rest : List Node} {t : Token}
    (hsequence : SequenceIn nodes script (before ++ .leaf .identifier t :: rest))
    (hsign : (signAhead? rest).isSome)
    (hopen : ClauseOpen script before (.leaf .identifier t :: rest)) {u : AnnotatedToken}
    (hu : u ∈ (analyze nodes).tokens) (htoken : u.toToken = t) : u.isColumn = true := by
  obtain ⟨a, ha⟩ := Option.isSome_iff_exists.1 hsign
  obtain ⟨scope, next, initial, query, hsub⟩ := hsequence.exists_outlineAll
  have hm := hsub (mem_marked_outlineAll scope next initial query .identifier t)
  rw [queryAlong_of_clauseOpen hopen, ha] at hm
  rw [eq_annotate_of_mem_marked hnumbered h hm hu htoken]
  have hleaf : .leaf .identifier t ∈ Node.all nodes := hsequence.mem_all (by simp)
  have hkind : t.kind = .identifier := Kind.leafForm?_eq_identifier.1 (fits_parse h _ hleaf)
  simp [AnnotatedToken.isColumn, AnnotatedToken.isIdentifier, Marked.annotate, LeafForm.mark, hkind]

/-- **Elsewhere in the script a name that is assigned to is written.** -/
theorem isAssignment_of_not_clauseOpen {before rest : List Node} {t : Token}
    (hnodes : nodes = before ++ .leaf .identifier t :: rest) (hsign : (signAhead? rest).isSome)
    (hclosed : ¬ ClauseOpen true before (.leaf .identifier t :: rest)) {u : AnnotatedToken}
    (hu : u ∈ (analyze nodes).tokens) (htoken : u.toToken = t) : u.isAssignment = true := by
  obtain ⟨a, ha⟩ := Option.isSome_iff_exists.1 hsign
  have hm := @mem_marked_outlineAll true before rest none 0 false false .identifier t
  rw [Bool.eq_false_iff.2 (mt queryAlong_eq_true_iff.1 hclosed), ha, ← hnodes] at hm
  rw [eq_annotate_of_mem_marked hnumbered h hm hu htoken]
  have hmem : .leaf .identifier t ∈ nodes := by simp [hnodes]
  have hkind : t.kind = .identifier :=
    Kind.leafForm?_eq_identifier.1 (fits_parse h _ (Node.mem_all_of_mem hmem))
  cases hglobal : a.isGlobal <;>
    simp [AnnotatedToken.isAssignment, Marked.annotate, LeafForm.mark, hkind, hglobal, Mark.usage]

end

end QSource
