/-
**Analyses of trees with further line breaks.**

Line breaks that are put behind line breaks change next to nothing.  Inside delimiters a line break ends
nothing, and so the outline is the same with the new tokens in it.  In the script itself a line break
ends the naming of columns unless a blank or a comment follows, and where another line break is put
between the two, it ends it too.  Then names of columns behind it become names of variables; nothing
else is different, and as these names stand outside all scopes, the scopes stay as they are.

Main definitions:

* `QSource.Outline.padded`, `QSource.Analysis.padded` — outlines and analyses with the new tokens;
* `QSource.Uncut` — no line break that columns are named across gets another one behind it;
* `QSource.Marked.Freed`, `QSource.Outline.Freed` — columns of the script may have become targets.

Main results:

* `QSource.Node.outlineAll_padded` — **where no naming of columns is cut, the outline is the same with
  the new tokens in it**;
* `QSource.Node.freed_outlineAll_padded` — elsewhere, only columns of the script become targets;
* `QSource.Outline.analysis_padded`, `QSource.Outline.Freed.analysis` — what that says of analyses.
-/

import QSource.Proofs.Scope.Clauses
import QSource.Proofs.Scope.Relabel
import QSource.Proofs.Tree.Padding

set_option relaxedAutoImplicit false
set_option autoImplicit false

namespace QSource

open Node (outlineAll allPadded)

section

variable (after : Token → List Token)

/-! ### The new tokens -/

/-- The new tokens of an outline stand where the line breaks before them stand. -/
def Outline.padded (o : Outline) : Outline :=
  ⟨o.marked.flatMap fun m => m :: (after m.token).map (⟨·, m.scope, .plain⟩), o.regions⟩

@[simp] theorem Outline.padded_empty : Outline.empty.padded after = .empty := rfl

@[simp] theorem Outline.padded_append (a b : Outline) :
    (a ++ b).padded after = a.padded after ++ b.padded after := by
  change Outline.mk ((a.marked ++ b.marked).flatMap _) (a.regions ++ b.regions) =
    Outline.mk (a.marked.flatMap _ ++ b.marked.flatMap _) (a.regions ++ b.regions)
  rw [List.flatMap_append]

@[simp] theorem Outline.regions_padded (o : Outline) : (o.padded after).regions = o.regions := rfl

theorem Outline.padded_plain (scope : Option ScopeId) (tokens : List Token) :
    (Outline.ofTokens scope .plain tokens).padded after =
      .ofTokens scope .plain (tokens.flatMap fun t => t :: after t) := by
  simp [Outline.padded, Outline.ofTokens, List.flatMap_map, List.map_flatMap]

variable {after}

/-- Tokens that are no line breaks have nothing new behind them. -/
theorem Outline.padded_ofTokens (hpads : PadsBreaks after) (scope : Option ScopeId) (mark : Mark)
    {tokens : List Token} (h : ∀ t ∈ tokens, t.kind ≠ .lineBreak) :
    (Outline.ofTokens scope mark tokens).padded after = .ofTokens scope mark tokens := by
  induction tokens with
  | nil => rfl
  | cons t tokens ih =>
      obtain ⟨ht, htokens⟩ := List.forall_mem_cons.1 h
      have hcons : Outline.ofTokens scope mark (t :: tokens) =
          .ofTokens scope mark [t] ++ .ofTokens scope mark tokens := rfl
      rw [hcons, Outline.padded_append, ih htokens]
      simp [Outline.padded, Outline.ofTokens, hpads.behind t ht]

/-! ### What the neighbours of a node say -/

@[simp] theorem Node.isSpace_padded (node : Node) : (node.padded after).isSpace = node.isSpace := by
  cases node <;> simp [Node.isSpace]

@[simp] theorem head?_any_isSpace_allPadded (nodes : List Node) :
    (allPadded after nodes).head?.any Node.isSpace = nodes.head?.any Node.isSpace := by
  cases nodes <;> simp

@[simp] theorem signAhead?_allPadded (nodes : List Node) :
    signAhead? (allPadded after nodes) = signAhead? nodes := by
  induction nodes with
  | nil => simp
  | cons node nodes ih =>
      cases node with
      | leaf form t => cases form <;> simp [signAhead?, Node.breaksBehind, ih]
      | _ => simp [signAhead?]

@[simp] theorem isTable_allPadded (items : List Node) :
    isTable (allPadded after items) = isTable items := by
  induction items with
  | nil => simp
  | cons node items ih =>
      cases node with
      | leaf form t =>
          cases form with
          | space =>
              rw [isTable, isTable] at ih ⊢
              simpa [Node.breaksBehind, List.dropWhile_cons, Node.isSpace] using ih
          | _ => simp [isTable, Node.isSpace]
      | enclosed form first inner last =>
          cases form <;> simp [isTable, Node.isSpace]
      | _ => simp [isTable, Node.isSpace]

theorem directNames_allPadded (items : List Node) :
    directNames (allPadded after items) = directNames items := by
  induction items with
  | nil => simp
  | cons node items ih =>
      rw [directNames, directNames] at ih ⊢
      cases node with
      | leaf form t =>
          cases form <;> simp [Node.breaksBehind, ih, List.filterMap_append, List.filterMap_map]
      | _ => simp [Node.breaksBehind, ih]

@[simp] theorem declaredParams_allPadded (items : List Node) :
    declaredParams (allPadded after items) = declaredParams items := by
  cases items with
  | nil => simp
  | cons node items =>
      cases node with
      | enclosed form first inner last =>
          cases form <;> simp [declaredParams, directNames_allPadded]
      | leaf form t => simp [declaredParams]
      | _ => simp [declaredParams]

/-- A node that is no line break does not look at what comes next. -/
theorem Node.queryAfter_padded {node : Node} (hnode : ∀ t, node ≠ .leaf .lineBreak t)
    (script initial query : Bool) (rest rest' : List Node) :
    (node.padded after).queryAfter script initial query rest' =
      node.queryAfter script initial query rest := by
  cases node with
  | leaf form t => cases form <;> simp_all [Node.queryAfter]
  | _ => simp [Node.queryAfter]

/-! ### Outlines -/

theorem Node.paramOutlines_breaks (scope : Option ScopeId) (breaks : List Token)
    (rest : List Node) :
    ((breaks.map (Node.leaf .lineBreak) ++ rest).map (Node.paramOutline scope)).foldr
        (· ++ ·) Outline.empty = .ofTokens scope .plain breaks ++
          (rest.map (Node.paramOutline scope)).foldr (· ++ ·) Outline.empty := by
  induction breaks with
  | nil => rfl
  | cons e breaks ih =>
      rw [List.map_cons, List.cons_append, List.map_cons, List.foldr_cons, ih, Node.paramOutline,
        Node.tokens, ← Outline.append_assoc]
      · rfl
      · simp

theorem Node.paramOutline_padded (hpads : PadsBreaks after) (scope : Option ScopeId) {node : Node}
    (hfits : ∀ x ∈ node.subtrees, x.Fits) (hnode : ∀ t, node ≠ .leaf .lineBreak t) :
    (node.padded after).paramOutline scope = (node.paramOutline scope).padded after := by
  have htokens := Node.tokens_padded hpads node hfits hnode
  cases node with
  | leaf form t =>
      cases form with
      | identifier =>
          have ht : t.kind ≠ .lineBreak :=
            ne_lineBreak_of_leafForm? (hfits _ (Node.self_mem_subtrees _)) (by simp)
          rw [Node.padded_leaf, Node.paramOutline,
            Outline.padded_ofTokens hpads _ _ (by simpa using ht)]
      | _ => simp [Node.paramOutline, Outline.padded_plain, ← htokens]
  | _ => simp [Node.paramOutline, Outline.padded_plain, ← htokens]

theorem Node.paramOutlines_padded (hpads : PadsBreaks after) (scope : Option ScopeId)
    {items : List Node} (hfits : ∀ x ∈ Node.all items, x.Fits) :
    ((allPadded after items).map (Node.paramOutline scope)).foldr (· ++ ·) Outline.empty =
      ((items.map (Node.paramOutline scope)).foldr (· ++ ·) Outline.empty).padded after := by
  induction items with
  | nil => simp
  | cons node items ih =>
      rw [Node.all_cons] at hfits
      obtain ⟨hhead, htail⟩ := List.forall_mem_append.1 hfits
      rw [List.map_cons, List.foldr_cons, Outline.padded_append, ← ih htail, Node.allPadded_cons,
        List.map_cons, List.foldr_cons]
      rcases node.lineBreak_or after with ⟨t, rfl⟩ | ⟨hnode, hbreaks⟩
      · have hone : (Node.leaf .lineBreak t).paramOutline scope = .ofTokens scope .plain [t] := by
          simp [Node.paramOutline, Node.tokens]
        rw [Node.padded_leaf, Node.breaksBehind, Node.paramOutlines_breaks, hone,
          Outline.padded_plain, ← Outline.append_assoc]
        simp
        rfl
      · rw [hbreaks, List.nil_append, Node.paramOutline_padded hpads scope hhead hnode]

theorem Node.outline_lineBreak (scope : Option ScopeId) (next : ScopeId) (query : Bool)
    (sign : Option Assignment) (t : Token) :
    (Node.leaf .lineBreak t).outline scope next query sign = .ofTokens scope .plain [t] := by
  simp [Node.outline, LeafForm.mark]

/-- Further line breaks are outlined one after the other, if they do not end anything. -/
theorem Node.outlineAll_breaks (scope : Option ScopeId) (next : ScopeId)
    {script initial query : Bool} (hquery : script = true → query = initial) (breaks : List Token)
    (rest : List Node) :
    outlineAll scope next script initial query (breaks.map (Node.leaf .lineBreak) ++ rest) =
      .ofTokens scope .plain breaks ++ outlineAll scope next script initial query rest := by
  induction breaks with
  | nil => rfl
  | cons e breaks ih =>
      have hafter : (Node.leaf .lineBreak e).queryAfter script initial query
          (breaks.map (Node.leaf .lineBreak) ++ rest) = query := by
        cases script <;> simp_all [Node.queryAfter]
      rw [List.map_cons, List.cons_append, outlineAll, hafter, Node.outline_lineBreak,
        Outline.regions_ofTokens, List.length_nil, Nat.add_zero, ih]
      rfl

/-- The outline of a line break with further ones behind it. -/
theorem Node.outlineAll_lineBreak (scope : Option ScopeId) (next : ScopeId)
    (script initial query : Bool) (t : Token) (breaks : List Token) (rest : List Node) :
    outlineAll scope next script initial query
        (.leaf .lineBreak t :: (breaks.map (Node.leaf .lineBreak) ++ rest)) =
      .ofTokens scope .plain (t :: breaks) ++ outlineAll scope next script initial
        ((Node.leaf .lineBreak t).queryAfter script initial query
          (breaks.map (Node.leaf .lineBreak) ++ rest)) rest := by
  rw [outlineAll, Node.outline_lineBreak]
  cases breaks with
  | nil => rfl
  | cons e breaks =>
      -- the first of the new ones ends what a line break can end, and so do the others
      rw [Outline.regions_ofTokens, List.length_nil, Nat.add_zero, Node.outlineAll_breaks]
      · rfl
      · intro hscript
        simp [Node.queryAfter, hscript, Node.isSpace]

theorem Node.queryAfter_lineBreak_padded {script initial query : Bool} {t : Token}
    {rest : List Node} (hcut : script = true → after t ≠ [] → rest.head?.any Node.isSpace = true →
      query = initial) :
    (Node.leaf .lineBreak t).queryAfter script initial query
        ((after t).map (Node.leaf .lineBreak) ++ allPadded after rest) =
      (Node.leaf .lineBreak t).queryAfter script initial query rest := by
  cases hafter : after t with
  | nil => simp [Node.queryAfter]
  | cons e breaks =>
      cases script with
      | false => simp [Node.queryAfter]
      | true =>
          cases hspace : rest.head?.any Node.isSpace with
          | false => simp [Node.queryAfter, hspace, Node.isSpace]
          | true => simp [Node.queryAfter, hspace, Node.isSpace, hcut rfl (by simp [hafter]) hspace]

/-- In the script itself, no line break that columns are named across is one that `cut` picks. -/
def Uncut (cut : Token → Prop) (script initial query : Bool) : List Node → Prop
  | [] => True
  | node :: rest =>
    (script = true → ∀ t, node = .leaf .lineBreak t → cut t → rest.head?.any Node.isSpace = true →
      query = initial) ∧
      Uncut cut script initial (node.queryAfter script initial query rest) rest

theorem uncut_of_enclosed (cut : Token → Prop) (initial query : Bool) (items : List Node) :
    Uncut cut false initial query items := by
  induction items generalizing query with
  | nil => trivial
  | cons node items ih => exact ⟨by simp, ih _⟩

mutual

theorem Node.outline_padded (hpads : PadsBreaks after) (scope : Option ScopeId) (next : ScopeId)
    (query : Bool) (sign : Option Assignment) :
    ∀ node : Node, (∀ x ∈ node.subtrees, x.Fits) → (∀ t, node ≠ .leaf .lineBreak t) →
      (node.padded after).outline scope next query sign =
        (node.outline scope next query sign).padded after
  | .leaf form t, hfits, hnode => by
      have ht : t.kind ≠ .lineBreak := ne_lineBreak_of_leafForm? (hfits _ (Node.self_mem_subtrees _))
        fun hform => hnode t (by rw [hform])
      rw [Node.padded_leaf, Node.outline, Outline.padded_ofTokens hpads _ _ (by simpa using ht)]
  | .assignment parts, hfits, _ => by
      have hparts := (hfits _ (Node.self_mem_subtrees _)).ne_lineBreak_assignment
      rw [Node.padded_assignment, Node.outline, Outline.padded_ofTokens hpads _ _ hparts]
  | .quoted first content last, hfits, _ => by
      have hquoted := (hfits _ (Node.self_mem_subtrees _)).ne_lineBreak_quoted
      rw [Node.padded_quoted, Node.outline, Outline.padded_ofTokens hpads _ _ hquoted]
  | .enclosed form first items last, hfits, _ => by
      have hinner : ∀ x ∈ Node.all items, x.Fits := fun x hx => hfits x (by simp [hx])
      have hnode := hfits _ (Node.self_mem_subtrees _)
      have hlast := fun scope' => Outline.padded_ofTokens hpads scope' .plain hnode.ne_lineBreak_last
      have hfirst := fun scope' =>
        Outline.padded_ofTokens hpads scope' .plain hnode.ne_lineBreak_first
      cases form with
      | bracket =>
          have hitems := Node.outlineAll_padded hpads scope next false query query items hinner
            (uncut_of_enclosed _ _ _ _)
          simp_all [Node.outline, Enclosure.gap]
      | group =>
          have hitems := Node.outlineAll_padded hpads scope next false (query || isTable items)
            (query || isTable items) items hinner (uncut_of_enclosed _ _ _ _)
          simp_all [Node.outline, Enclosure.gap]
      | lambda =>
          have hitems := Node.outlineAll_padded hpads (some next) (next + 1) false false false items
            hinner (uncut_of_enclosed _ _ _ _)
          simp_all [Node.outline, Enclosure.gap]
          rfl
      | params gap =>
          have hitems := Node.paramOutlines_padded hpads scope hinner
          simp_all [Node.outline, Enclosure.gap]

/-- **Where no naming of columns is cut, the outline is the same with the new tokens in it.** -/
theorem Node.outlineAll_padded (hpads : PadsBreaks after) (scope : Option ScopeId) (next : ScopeId)
    (script initial query : Bool) : ∀ nodes : List Node, (∀ x ∈ Node.all nodes, x.Fits) →
      Uncut (fun t => after t ≠ []) script initial query nodes →
      outlineAll scope next script initial query (allPadded after nodes) =
        (outlineAll scope next script initial query nodes).padded after
  | [], _, _ => by simp [outlineAll]
  | node :: rest, hfits, huncut => by
      rw [Node.all_cons] at hfits
      obtain ⟨hhead, htail⟩ := List.forall_mem_append.1 hfits
      obtain ⟨hcut, hrest⟩ := huncut
      rcases node.lineBreak_or after with ⟨t, rfl⟩ | ⟨hnode, hbreaks⟩
      · have hbreak := @Node.queryAfter_lineBreak_padded after script initial query t rest
          fun hscript hafter hspace => hcut hscript t rfl hafter hspace
        have hitems := Node.outlineAll_padded hpads scope next script initial
          ((Node.leaf .lineBreak t).queryAfter script initial query rest) rest htail hrest
        rw [Node.allPadded_cons, Node.padded_leaf, Node.breaksBehind, Node.outlineAll_lineBreak,
          hbreak, hitems, outlineAll, Node.outline_lineBreak, Outline.padded_append, Outline.padded_plain]
        simp
      · have hpadded := Node.outline_padded hpads scope next query (signAhead? rest) node hhead hnode
        have hquery := @Node.queryAfter_padded after node hnode script initial query rest
          (allPadded after rest)
        have hitems := Node.outlineAll_padded hpads scope
          (next + (node.outline scope next query (signAhead? rest)).regions.length) script initial
          (node.queryAfter script initial query rest) rest htail hrest
        simp only [Node.allPadded_cons, hbreaks, List.nil_append, outlineAll, signAhead?_allPadded,
          hpadded, hquery, Outline.regions_padded, hitems, Outline.padded_append]

end

/-! ### Columns that become targets -/

/-- The token is marked as before, or it was the name of a column outside all scopes and is a target
now. -/
def Marked.Freed (m m' : Marked) : Prop :=
  m' = m ∨ m.token.kind = .identifier ∧ m.scope = none ∧ m.mark = .column ∧
    ∃ isGlobal isCompound, m' = ⟨m.token, none, .target isGlobal isCompound⟩

/-- Nothing is different but that columns outside all scopes may have become targets. -/
structure Outline.Freed (o o' : Outline) : Prop where
  regions : o'.regions = o.regions
  marked : List.Forall₂ Marked.Freed o.marked o'.marked

theorem Outline.Freed.refl (o : Outline) : o.Freed o where
  regions := rfl
  marked := List.forall₂_same.2 fun _ _ => Or.inl rfl

theorem Outline.Freed.append {a a' b b' : Outline} (ha : a.Freed a') (hb : b.Freed b') :
    (a ++ b).Freed (a' ++ b') where
  regions := by rw [Outline.regions_append, Outline.regions_append, ha.regions, hb.regions]
  marked := List.rel_append ha.marked hb.marked

/-- The new tokens behind a name stay, whatever becomes of the name. -/
theorem Outline.Freed.padded {o o' : Outline} (h : o.Freed o') :
    (o.padded after).Freed (o'.padded after) where
  regions := h.regions
  marked := by
    refine List.rel_flatMap h.marked fun m m' hm => ?_
    have hsame : m'.token = m.token ∧ m'.scope = m.scope := by
      rcases hm with rfl | ⟨-, hscope, -, _, _, rfl⟩
      · exact ⟨rfl, rfl⟩
      · exact ⟨rfl, hscope.symm⟩
    rw [hsame.1, hsame.2]
    exact .cons hm (List.forall₂_same.2 fun _ _ => Or.inl rfl)

theorem LeafForm.freed_mark {query query' : Bool} (hquery : query' = true → query = true)
    (sign : Option Assignment) {form : LeafForm} {t : Token} (hform : t.kind.leafForm? = some form) :
    Marked.Freed ⟨t, none, form.mark query sign⟩ ⟨t, none, form.mark query' sign⟩ := by
  cases form with
  | identifier =>
      cases sign with
      | none => exact Or.inl rfl
      | some a =>
          cases query with
          | false =>
              obtain rfl : query' = false := Bool.eq_false_iff.2 fun hnow => by simpa using hquery hnow
              exact Or.inl rfl
          | true =>
              cases query' with
              | true => exact Or.inl rfl
              | false =>
                  have hkind := Kind.leafForm?_eq_identifier.1 hform
                  exact Or.inr ⟨hkind, rfl, rfl, a.isGlobal, a.isCompound, rfl⟩
  | _ => exact Or.inl rfl

theorem Node.queryAfter_mono (script : Bool) {initial initial' query query' : Bool}
    (hinitial : initial' = true → initial = true) (hquery : query' = true → query = true)
    (rest : List Node) (node : Node) : node.queryAfter script initial' query' rest = true →
      node.queryAfter script initial query rest = true := by
  cases node with
  | leaf form t => cases form <;> grind [Node.queryAfter]
  | _ => exact hquery

mutual

theorem Node.freed_outline {query query' : Bool} (hquery : query' = true → query = true)
    (next : ScopeId) (sign : Option Assignment) :
    ∀ node : Node, (∀ x ∈ node.subtrees, x.Fits) →
      (node.outline none next query sign).Freed (node.outline none next query' sign)
  | .leaf form t, hfits => by
      rw [Node.outline, Node.outline]
      exact ⟨rfl, .cons (LeafForm.freed_mark hquery sign (hfits _ (Node.self_mem_subtrees _))) .nil⟩
  | .assignment parts, _ => by
      rw [Node.outline, Node.outline]
      exact .refl _
  | .quoted first content last, _ => by
      rw [Node.outline, Node.outline]
      exact .refl _
  | .enclosed form first items last, hfits => by
      have hinner : ∀ x ∈ Node.all items, x.Fits := fun x hx => hfits x (by simp [hx])
      cases form with
      | bracket =>
          have hitems := Node.freed_outlineAll next false hquery hquery items hinner
          rw [Node.outline, Node.outline]
          exact ((Outline.Freed.refl _).append hitems).append (.refl _)
      | group =>
          have htable : (query' || isTable items) = true → (query || isTable items) = true := by
            grind
          have hitems := Node.freed_outlineAll next false htable htable items hinner
          rw [Node.outline, Node.outline]
          exact ((Outline.Freed.refl _).append hitems).append (.refl _)
      | lambda | params gap =>
          -- no columns are named where a lambda begins, nor in a parameter list
          rw [Node.outline, Node.outline]
          exact .refl _

/-- Where columns are named in fewer places of the script, some of its columns are targets. -/
theorem Node.freed_outlineAll (next : ScopeId) (script : Bool) {initial initial' query query' : Bool}
    (hinitial : initial' = true → initial = true) (hquery : query' = true → query = true) :
    ∀ nodes : List Node, (∀ x ∈ Node.all nodes, x.Fits) →
      (outlineAll none next script initial query nodes).Freed
        (outlineAll none next script initial' query' nodes)
  | [], _ => by
      rw [outlineAll, outlineAll]
      exact .refl _
  | node :: rest, hfits => by
      rw [Node.all_cons] at hfits
      obtain ⟨hhead, htail⟩ := List.forall_mem_append.1 hfits
      have hnode := Node.freed_outline hquery next (signAhead? rest) node hhead
      rw [outlineAll, outlineAll, hnode.regions]
      exact hnode.append (Node.freed_outlineAll _ script hinitial
        (Node.queryAfter_mono script hinitial hquery rest node) rest htail)

end

/-- **With further line breaks, only columns of the script become targets.** -/
theorem Node.freed_outlineAll_padded (hpads : PadsBreaks after) (next : ScopeId)
    {query query' : Bool} (hquery : query' = true → query = true) {nodes : List Node}
    (hfits : ∀ x ∈ Node.all nodes, x.Fits) :
    ((outlineAll none next true false query nodes).padded after).Freed
      (outlineAll none next true false query' (allPadded after nodes)) := by
  induction nodes generalizing next query query' with
  | nil =>
      rw [Node.allPadded_nil, outlineAll, outlineAll]
      exact .refl _
  | cons node rest ih =>
      rw [Node.all_cons] at hfits
      obtain ⟨hhead, htail⟩ := List.forall_mem_append.1 hfits
      rw [outlineAll, Outline.padded_append]
      rcases node.lineBreak_or after with ⟨t, rfl⟩ | ⟨hnode, hbreaks⟩
      · rw [Node.allPadded_cons, Node.padded_leaf, Node.breaksBehind, Node.outlineAll_lineBreak,
          Node.outline_lineBreak, Outline.padded_plain]
        simp only [List.flatMap_cons, List.flatMap_nil, List.append_nil, Outline.regions_ofTokens,
          List.length_nil, Nat.add_zero]
        refine (Outline.Freed.refl _).append (ih next (fun hafter => ?_) htail)
        refine Node.queryAfter_mono true id hquery rest (.leaf .lineBreak t) ?_
        cases hbreaks : after t with
        | nil => simpa [Node.queryAfter, hbreaks] using hafter
        | cons e breaks => simp [Node.queryAfter, hbreaks, Node.isSpace] at hafter
      · have hpadded := Node.outline_padded hpads none next query' (signAhead? rest) node hhead hnode
        have hfreed := Node.freed_outline hquery next (signAhead? rest) node hhead
        have hafter := @Node.queryAfter_padded after node hnode true false query' rest
          (allPadded after rest)
        rw [Node.allPadded_cons, hbreaks, List.nil_append, outlineAll, signAhead?_allPadded, hpadded,
          hafter, Outline.regions_padded, hfreed.regions]
        exact hfreed.padded.append
          (ih _ (Node.queryAfter_mono true id hquery rest node) htail)

/-! ### Analyses -/

variable (after) in
/-- The new tokens of an analysis stand in the scopes of the line breaks before them, and nothing more
is known about them. -/
def Analysis.padded (a : Analysis) : Analysis :=
  ⟨a.tokens.flatMap fun t =>
    t :: (after t.toToken).map (⟨·, t.scope, none, none, false, none⟩), a.scopes⟩

theorem filter_introducesLocal_padded (marked : List Marked) :
    (marked.flatMap fun m => m :: (after m.token).map (⟨·, m.scope, .plain⟩)).filter
      Marked.introducesLocal = marked.filter Marked.introducesLocal := by
  induction marked with
  | nil => rfl
  | cons m marked ih =>
      have hnew : ((after m.token).map (⟨·, m.scope, .plain⟩)).filter Marked.introducesLocal = [] := by
        simp [Marked.introducesLocal]
      rw [List.flatMap_cons, List.filter_append, ih, List.filter_cons, List.filter_cons, hnew]
      split <;> rfl

/-- The analysis of an outline with further line breaks. -/
theorem Outline.analysis_padded (hpads : PadsBreaks after) (o : Outline) :
    (o.padded after).analysis = o.analysis.padded after := by
  have hscopes : (o.padded after).scopes = o.scopes := by
    rw [Outline.scopes, Outline.scopes, Outline.padded, filter_introducesLocal_padded]
  rw [Outline.analysis, hscopes, Analysis.padded, Outline.analysis, Outline.padded]
  simp only [List.map_flatMap, List.flatMap_map, List.map_cons, List.map_map]
  congr 1
  refine List.flatMap_congr fun m hm => ?_
  rw [Marked.toToken_annotate, Marked.scope_annotate]
  refine congrArg _ (List.map_congr_left fun e he => ?_)
  simp [Marked.annotate, hpads.kind _ e he]

/-- The token is annotated as before, or it was the name of a column outside all scopes and is written
now, as a name that no scope owns. -/
def AnnotatedToken.Freed (t t' : AnnotatedToken) : Prop :=
  t' = t ∨ t.isColumn = true ∧ t.scope = none ∧ ∃ reversed, t' =
    { t with role := some (unownedRole t.text), usage := some .assignment, reversed := reversed }

/-- What that leaves of the local names: all of them. -/
theorem filter_scope_freed {marked marked' : List Marked} (h : List.Forall₂ Marked.Freed marked marked')
    (id : ScopeId) :
    (marked'.filter Marked.introducesLocal).filter (fun m => m.scope == some id) =
      (marked.filter Marked.introducesLocal).filter fun m => m.scope == some id := by
  rw [List.filter_filter, List.filter_filter]
  induction h with
  | nil => rfl
  | cons hm _ ih =>
      rw [List.filter_cons, List.filter_cons, ih]
      rcases hm with rfl | ⟨-, hscope, -, _, _, rfl⟩
      · rfl
      · simp [hscope]

theorem Outline.Freed.scopes {o o' : Outline} (h : o.Freed o') : o'.scopes = o.scopes := by
  rw [Outline.scopes, Outline.scopes, h.regions]
  refine List.map_congr_left fun r _ => congrArg (Scope.mk r) ?_
  rw [localNames, localNames, filter_scope_freed h.marked]

/-- **Where columns have become targets, the scopes are the same, and so are the annotations of all
other tokens.** -/
theorem Outline.Freed.analysis {o o' : Outline} (h : o.Freed o') :
    o'.analysis.scopes = o.analysis.scopes ∧
      List.Forall₂ AnnotatedToken.Freed o.analysis.tokens o'.analysis.tokens := by
  refine ⟨h.scopes, ?_⟩
  rw [Outline.analysis, Outline.analysis, h.scopes]
  refine List.rel_map ?_ h.marked
  rintro m m' (rfl | ⟨hkind, hscope, hmark, isGlobal, isCompound, rfl⟩)
  · exact Or.inl rfl
  · refine Or.inr ⟨?_, ?_, isCompound, ?_⟩
    · simp [AnnotatedToken.isColumn, AnnotatedToken.isIdentifier, Marked.annotate, hkind, hmark]
    · simp [hscope]
    · -- no scope is around the name, so it is owned by none
      cases isGlobal <;>
        simp [Marked.annotate, hkind, hmark, hscope, Scope.enclosing, resolve, Mark.usage,
          Mark.isCompound]

end

end QSource
