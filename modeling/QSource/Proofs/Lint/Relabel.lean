/-
**Rules on tokens that are replaced.**

The rules compare the numbers of tokens, their texts, and the scopes that they stand in and that own
them; otherwise they look at kinds and annotations.  So tokens may be replaced as long as these stay,
the numbers of tokens and of scopes are moved on by constants, and different texts stay different:
a rule objects to the new tokens in the places of those to which it objected before.  Only the rule
about long lines looks at more than that.  The rules about names compare texts only for names with the
same owner and for globals, and ask for no more than that these stay different.

Main definitions:

* `QSource.KeepsNames` — a replacement that the rules about names do not see;
* `QSource.Relabels` — **a replacement that the rules do not see**.

Main results:

* `QSource.KeepsNames.sameVariable_eq` — occurrences of one variable stay occurrences of one variable;
* `QSource.firstExcess_map` — what is counted may be renamed;
* `QSource.KeepsNames.flagged_map` — **a rule about names objects to the new tokens in the places of
  the old ones**;
* `QSource.Relabels.flagged_map` — **and so does any rule**, if more is kept;
* `QSource.findings_map` — the findings of all rules stay in their order.
-/

import Mathlib.Data.List.Basic
import QSource.Proofs.Lint.Flagged

set_option relaxedAutoImplicit false
set_option autoImplicit false

namespace QSource

/-- The rules that look at names, and not at other texts. -/
def Rule.aboutNames : List Rule :=
  [.declaredAfterUse, .tooManyArguments, .tooManyGlobals, .tooManyLocals, .unusedParam, .unusedVar]

/-- **A replacement of the tokens of a list that the rules about names do not see**: the numbers of
tokens are moved on by `d` and those of scopes by `k`, and tokens with the same owner have the same
text if they had so before, and so do globals. -/
structure KeepsNames (d k : Nat) (g : AnnotatedToken → AnnotatedToken)
    (tokens : List AnnotatedToken) : Prop where
  kind : ∀ t ∈ tokens, (g t).kind = t.kind
  index : ∀ t ∈ tokens, (g t).index = t.index + d
  scope : ∀ t ∈ tokens, (g t).scope = t.scope.map (· + k)
  role : ∀ t ∈ tokens, (g t).role = t.role
  usage : ∀ t ∈ tokens, (g t).usage = t.usage
  reversed : ∀ t ∈ tokens, (g t).reversed = t.reversed
  binding : ∀ t ∈ tokens, (g t).binding = t.binding.map (· + k)
  names : ∀ t ∈ tokens, ∀ u ∈ tokens,
    t.binding = u.binding ∨ t.role = some .globalVar ∧ u.role = some .globalVar →
      ((g t).text = (g u).text ↔ t.text = u.text)

/-- **A replacement of the tokens of a list that the rules do not see**: the numbers of tokens are
moved on by `d` and those of scopes by `k`, and texts are renamed by `φ`, which leaves different texts
different, goes through texts piece by piece, and leaves escapes, numbers and operators alone. -/
structure Relabels (d k : Nat) (φ : String → String) (g : AnnotatedToken → AnnotatedToken)
    (tokens : List AnnotatedToken) : Prop where
  kind : ∀ t ∈ tokens, (g t).kind = t.kind
  text : ∀ t ∈ tokens, (g t).text = φ t.text
  index : ∀ t ∈ tokens, (g t).index = t.index + d
  scope : ∀ t ∈ tokens, (g t).scope = t.scope.map (· + k)
  role : ∀ t ∈ tokens, (g t).role = t.role
  usage : ∀ t ∈ tokens, (g t).usage = t.usage
  reversed : ∀ t ∈ tokens, (g t).reversed = t.reversed
  binding : ∀ t ∈ tokens, (g t).binding = t.binding.map (· + k)
  injective : Function.Injective φ
  append : ∀ a b, φ (a ++ b) = φ a ++ φ b
  quote : φ "\"" = "\""
  kept : ∀ t ∈ tokens, t.kind = .quotedEscape ∨ t.kind = .literal .number ∨ t.kind = .operator →
    φ t.text = t.text

/-! ### Lists -/

theorem any_congr_of_mem {α : Type} {p q : α → Bool} {xs : List α} (h : ∀ x ∈ xs, p x = q x) :
    xs.any p = xs.any q := by
  induction xs with
  | nil => rfl
  | cons x xs ih =>
      obtain ⟨hx, hxs⟩ := List.forall_mem_cons.1 h
      rw [List.any_cons, List.any_cons, hx, ih hxs]

theorem filter_map_congr {α β : Type} {p : α → Bool} {q : β → Bool} {g : α → β} {xs : List α}
    (h : ∀ x ∈ xs, q (g x) = p x) : (xs.map g).filter q = (xs.filter p).map g := by
  rw [List.filter_map]
  exact congrArg _ (List.filter_congr h)

theorem insertSorted_map {α β : Type} {le : α → α → Bool} {le' : β → β → Bool} {g : α → β}
    (h : ∀ x y, le' (g x) (g y) = le x y) (x : α) (ys : List α) :
    insertSorted le' (g x) (ys.map g) = (insertSorted le x ys).map g := by
  induction ys with
  | nil => rfl
  | cons y ys ih =>
      rw [List.map_cons, insertSorted, insertSorted, h]
      split
      · rfl
      · rw [ih, List.map_cons]

/-- Sorting looks at nothing but the comparisons. -/
theorem sort_map {α β : Type} {le : α → α → Bool} {le' : β → β → Bool} {g : α → β}
    (h : ∀ x y, le' (g x) (g y) = le x y) (xs : List α) :
    sort le' (xs.map g) = (sort le xs).map g := by
  induction xs with
  | nil => rfl
  | cons x xs ih =>
      change insertSorted le' (g x) (sort le' (xs.map g)) = (insertSorted le x (sort le xs)).map g
      rw [ih, insertSorted_map h]

/-! ### What is counted -/

section

variable {κ κ' : Type} [BEq κ] [LawfulBEq κ] [BEq κ'] [LawfulBEq κ']

/-- What is counted may be renamed, if in each scope equal things stay equal and other ones different.
The things before, in `seen`, are renamed in the same way. -/
theorem firstExcessFrom_map (limit k : Nat) {g : AnnotatedToken → AnnotatedToken}
    {f : Counted κ → Counted κ'} {all : List (Counted κ)}
    (htoken : ∀ x ∈ all, (f x).token = g x.token) (hscope : ∀ x ∈ all, (f x).scope = x.scope + k)
    (hkey : ∀ x ∈ all, ∀ y ∈ all, x.scope = y.scope → ((f x).key = (f y).key ↔ x.key = y.key))
    {seen items : List (Counted κ)} (hseen : seen ⊆ all) (hitems : items ⊆ all) :
    firstExcessFrom limit (seen.map fun x => ((f x).scope, (f x).key)) (items.map f) =
      (firstExcessFrom limit (seen.map fun x => (x.scope, x.key)) items).map g := by
  induction items generalizing seen with
  | nil => rfl
  | cons item rest ih =>
      obtain ⟨hitem, hrest⟩ := List.cons_subset.1 hitems
      have hscopes : ∀ x ∈ seen, (f x).scope = (f item).scope ↔ x.scope = item.scope := by
        intro x hx
        rw [hscope x (hseen hx), hscope item hitem, Nat.add_right_cancel_iff]
      have hcontains : (seen.map fun x => ((f x).scope, (f x).key)).contains
          ((f item).scope, (f item).key) =
            (seen.map fun x => (x.scope, x.key)).contains (item.scope, item.key) := by
        rw [Bool.eq_iff_iff, List.contains_iff_mem, List.contains_iff_mem, List.mem_map,
          List.mem_map]
        refine exists_congr fun x => and_congr_right fun hx => ?_
        rw [Prod.mk.injEq, Prod.mk.injEq, hscopes x hx]
        exact and_congr_right fun heq => hkey x (hseen hx) item hitem heq
      have hcount : (seen.map fun x => ((f x).scope, (f x).key)).countP
          (fun entry => entry.1 == (f item).scope) =
            (seen.map fun x => (x.scope, x.key)).countP (fun entry => entry.1 == item.scope) := by
        rw [List.countP_map, List.countP_map]
        refine List.countP_congr fun x hx => ?_
        rw [Function.comp_apply, Function.comp_apply, beq_iff_eq, beq_iff_eq, hscopes x hx]
      have hnext := ih (List.cons_subset.2 ⟨hitem, hseen⟩) hrest
      rw [List.map_cons, List.map_cons] at hnext
      rw [List.map_cons, firstExcessFrom, firstExcessFrom, hcontains, hcount]
      split
      · exact ih hseen hrest
      · rw [hnext, List.map_append, htoken item hitem]
        split <;> rfl

/-- **What is counted may be renamed**, if in each scope equal things stay equal and other ones
different. -/
theorem firstExcess_map (limit k : Nat) {g : AnnotatedToken → AnnotatedToken}
    {f : Counted κ → Counted κ'} {items : List (Counted κ)}
    (htoken : ∀ x ∈ items, (f x).token = g x.token)
    (hscope : ∀ x ∈ items, (f x).scope = x.scope + k)
    (hkey : ∀ x ∈ items, ∀ y ∈ items, x.scope = y.scope → ((f x).key = (f y).key ↔ x.key = y.key)) :
    firstExcess limit (items.map f) = (firstExcess limit items).map g :=
  firstExcessFrom_map limit k htoken hscope hkey (List.nil_subset _) (List.Subset.refl _)

end

section

variable {κ : Type} {counts : AnnotatedToken → Bool} {owner : AnnotatedToken → Option ScopeId}
  {key : AnnotatedToken → κ} {tokens : List AnnotatedToken}

/-- Things that are counted token by token, from what is counted at a token. -/
theorem of_mem_filterMap_counted {item : Counted κ}
    (h : item ∈ tokens.filterMap fun t =>
      if counts t then (owner t).map fun scope => ⟨scope, key t, t⟩ else none) :
    item.token ∈ tokens ∧ counts item.token = true ∧ owner item.token = some item.scope ∧
      key item.token = item.key := by
  obtain ⟨t, ht, hitem⟩ := List.mem_filterMap.1 h
  split at hitem
  · next hcounts =>
      obtain ⟨scope, hscope, rfl⟩ := Option.map_eq_some_iff.1 hitem
      exact ⟨ht, hcounts, hscope, rfl⟩
  · simp at hitem

/-- Things that are counted token by token, where the tokens are replaced. -/
theorem filterMap_counted_map {k : Nat} {g : AnnotatedToken → AnnotatedToken}
    (hcounts : ∀ t ∈ tokens, counts (g t) = counts t)
    (howner : ∀ t ∈ tokens, owner (g t) = (owner t).map (· + k)) :
    ((tokens.map g).filterMap fun t => if counts t then (owner t).map fun scope =>
      (⟨scope, key t, t⟩ : Counted κ) else none) =
      (tokens.filterMap fun t => if counts t then (owner t).map fun scope =>
        (⟨scope, key t, t⟩ : Counted κ) else none).map
          fun item => ⟨item.scope + k, key (g item.token), g item.token⟩ := by
  rw [List.filterMap_map, List.map_filterMap]
  refine List.filterMap_congr fun t ht => ?_
  rw [Function.comp_apply, hcounts t ht, howner t ht]
  split
  · rw [Option.map_map, Option.map_map]
    rfl
  · rfl

/-- Where the tokens are replaced, things that are counted token by token come to be too many in the
same places. -/
theorem firstExcess_filterMap_map [BEq κ] [LawfulBEq κ] (limit k : Nat)
    {g : AnnotatedToken → AnnotatedToken} (hcounts : ∀ t ∈ tokens, counts (g t) = counts t)
    (howner : ∀ t ∈ tokens, owner (g t) = (owner t).map (· + k))
    (hkey : ∀ t ∈ tokens, ∀ u ∈ tokens, counts t = true → counts u = true → owner t = owner u →
      (key (g t) = key (g u) ↔ key t = key u)) :
    firstExcess limit ((tokens.map g).filterMap fun t => if counts t then (owner t).map fun scope =>
      (⟨scope, key t, t⟩ : Counted κ) else none) =
      (firstExcess limit (tokens.filterMap fun t => if counts t then (owner t).map fun scope =>
        (⟨scope, key t, t⟩ : Counted κ) else none)).map g := by
  rw [filterMap_counted_map hcounts howner]
  refine firstExcess_map limit k (fun _ _ => rfl) (fun _ _ => rfl) fun x hx y hy hscope => ?_
  obtain ⟨hxmem, hxcounts, hxowner, hxkey⟩ := of_mem_filterMap_counted hx
  obtain ⟨hymem, hycounts, hyowner, hykey⟩ := of_mem_filterMap_counted hy
  rw [← hxkey, ← hykey]
  exact hkey _ hxmem _ hymem hxcounts hycounts (by rw [hxowner, hyowner, hscope])

end

theorem map_add_beq {k : Nat} (a b : Option ScopeId) :
    (a.map (· + k) == b.map (· + k)) = (a == b) := by
  rw [Bool.eq_iff_iff, beq_iff_eq, beq_iff_eq]
  exact (Option.map_injective fun _ _ => Nat.add_right_cancel).eq_iff

/-! ### Rules on names -/

namespace KeepsNames

variable {d k : Nat} {g : AnnotatedToken → AnnotatedToken} {tokens : List AnnotatedToken}

theorem of_subset {others : List AnnotatedToken} (h : KeepsNames d k g tokens)
    (hsub : ∀ t ∈ others, t ∈ tokens) : KeepsNames d k g others where
  kind t ht := h.kind t (hsub t ht)
  index t ht := h.index t (hsub t ht)
  scope t ht := h.scope t (hsub t ht)
  role t ht := h.role t (hsub t ht)
  usage t ht := h.usage t (hsub t ht)
  reversed t ht := h.reversed t (hsub t ht)
  binding t ht := h.binding t (hsub t ht)
  names t ht u hu := h.names t (hsub t ht) u (hsub u hu)

section

variable (h : KeepsNames d k g tokens) {t u : AnnotatedToken}

include h

theorem isIdentifier_eq (ht : t ∈ tokens) : (g t).isIdentifier = t.isIdentifier := by
  rw [AnnotatedToken.isIdentifier, h.kind t ht, AnnotatedToken.isIdentifier]

theorem isAssignment_eq (ht : t ∈ tokens) : (g t).isAssignment = t.isAssignment := by
  rw [AnnotatedToken.isAssignment, h.usage t ht, AnnotatedToken.isAssignment]

theorem isReference_eq (ht : t ∈ tokens) : (g t).isReference = t.isReference := by
  rw [AnnotatedToken.isReference, h.usage t ht, AnnotatedToken.isReference]

theorem isDeclaration_eq (ht : t ∈ tokens) : (g t).isDeclaration = t.isDeclaration := by
  rw [AnnotatedToken.isDeclaration, h.role t ht, h.usage t ht, AnnotatedToken.isDeclaration]

theorem reads_eq (ht : t ∈ tokens) : (g t).reads = t.reads := by
  rw [AnnotatedToken.reads, h.isReference_eq ht, h.reversed t ht, AnnotatedToken.reads]

theorem index_bne (ht : t ∈ tokens) (hu : u ∈ tokens) :
    ((g t).index != (g u).index) = (t.index != u.index) := by
  rw [Bool.eq_iff_iff, bne_iff_ne, bne_iff_ne, h.index t ht, h.index u hu, ne_eq, ne_eq,
    Nat.add_right_cancel_iff]

/-- **Occurrences of one variable stay occurrences of one variable.** -/
theorem sameVariable_eq (ht : t ∈ tokens) (hu : u ∈ tokens) :
    sameVariable (g t) (g u) = sameVariable t u := by
  rw [sameVariable, h.index_bne ht hu, h.isIdentifier_eq hu, h.binding t ht, h.binding u hu,
    map_add_beq, sameVariable]
  -- the texts count only where the owners are the same
  by_cases hbinding : t.binding = u.binding
  · have htext : ((g t).text == (g u).text) = (t.text == u.text) := by
      rw [Bool.eq_iff_iff, beq_iff_eq, beq_iff_eq, h.names t ht u hu (Or.inl hbinding)]
    rw [htext]
  · rw [beq_eq_false_iff_ne.2 hbinding, Bool.and_false, Bool.and_false]

theorem any_sameVariable (p : AnnotatedToken → Bool) (ht : t ∈ tokens) :
    ((tokens.filter p).map g).any (sameVariable (g t)) =
      (tokens.filter p).any (sameVariable t) := by
  rw [List.any_map]
  exact any_congr_of_mem fun u hu => h.sameVariable_eq ht (List.mem_filter.1 hu).1

theorem unusedParams_map : unusedParams (tokens.map g) = (unusedParams tokens).map g := by
  have hreferences : (tokens.map g).filter AnnotatedToken.isReference =
      (tokens.filter AnnotatedToken.isReference).map g :=
    filter_map_congr fun _ => h.isReference_eq
  simp only [unusedParams, hreferences]
  refine filter_map_congr fun t ht => ?_
  rw [h.isDeclaration_eq ht, h.any_sameVariable _ ht]

theorem lacksUse_map (p : AnnotatedToken → Bool) (ht : t ∈ tokens) :
    lacksUse ((tokens.filter p).map g) (g t) = lacksUse (tokens.filter p) t := by
  unfold lacksUse
  rw [h.role t ht]
  split
  · rw [h.any_sameVariable _ ht]
  · next hrole =>
      rw [List.any_map]
      refine congrArg not (any_congr_of_mem fun u hu => ?_)
      have hu := (List.mem_filter.1 hu).1
      rw [Function.comp_apply, h.index_bne hu ht, h.role u hu]
      by_cases hglobal : u.role = some .globalVar
      · have htext : ((g u).text == (g t).text) = (u.text == t.text) := by
          rw [Bool.eq_iff_iff, beq_iff_eq, beq_iff_eq, h.names u hu t ht (Or.inr ⟨hglobal, hrole⟩)]
        rw [htext]
      · rw [beq_eq_false_iff_ne.2 hglobal, Bool.and_false, Bool.false_and, Bool.false_and]
  · rfl

theorem unusedVars_map : unusedVars (tokens.map g) = (unusedVars tokens).map g := by
  have hreaders : (tokens.map g).filter AnnotatedToken.reads =
      (tokens.filter AnnotatedToken.reads).map g :=
    filter_map_congr fun _ => h.reads_eq
  simp only [unusedVars, hreaders]
  refine filter_map_congr fun t ht => ?_
  rw [h.isIdentifier_eq ht, h.isAssignment_eq ht, h.lacksUse_map _ ht]

theorem earlierUses_map (p : AnnotatedToken → Bool) (ht : t ∈ tokens) :
    earlierUses ((tokens.filter p).map g) (g t) = (earlierUses (tokens.filter p) t).map g := by
  refine filter_map_congr fun u hu => ?_
  have hu := (List.mem_filter.1 hu).1
  have hlt : decide ((g u).index < (g t).index) = decide (u.index < t.index) := by
    rw [decide_eq_decide, h.index u hu, h.index t ht, Nat.add_lt_add_iff_right]
  rw [hlt, h.sameVariable_eq ht hu, h.scope u hu, h.scope t ht, map_add_beq]

theorem isPlainDeclaration_eq (ht : t ∈ tokens) :
    isPlainDeclaration (g t) = isPlainDeclaration t := by
  rw [isPlainDeclaration, h.isIdentifier_eq ht, h.isAssignment_eq ht, h.reversed t ht,
    h.role t ht, isPlainDeclaration]

theorem head?_any_isReference :
    (tokens.map g).head?.any AnnotatedToken.isReference =
      tokens.head?.any AnnotatedToken.isReference := by
  cases tokens with
  | nil => rfl
  | cons t tokens => exact h.isReference_eq (List.mem_cons_self ..)

theorem any_isWritten :
    (tokens.map g).any (fun other => other.isAssignment && !other.reversed) =
      tokens.any fun other => other.isAssignment && !other.reversed := by
  rw [List.any_map]
  refine any_congr_of_mem fun u hu => ?_
  rw [Function.comp_apply, h.isAssignment_eq hu, h.reversed u hu]

theorem lateDeclarations_map :
    lateDeclarations (tokens.map g) = (lateDeclarations tokens).map g := by
  have huses : (tokens.map g).filter (fun t => t.isIdentifier && t.usage.isSome) =
      (tokens.filter fun t => t.isIdentifier && t.usage.isSome).map g :=
    filter_map_congr fun t ht => by rw [h.isIdentifier_eq ht, h.usage t ht]
  simp only [lateDeclarations, huses]
  refine filter_map_congr fun t ht => ?_
  have hearlier : KeepsNames d k g
      (earlierUses (tokens.filter fun t => t.isIdentifier && t.usage.isSome) t) :=
    h.of_subset fun u hu => (List.mem_filter.1 (List.mem_filter.1 hu).1).1
  rw [h.isPlainDeclaration_eq ht, h.earlierUses_map _ ht, hearlier.head?_any_isReference,
    hearlier.any_isWritten]

/-- **A rule about names objects to the new tokens in the places of the old ones.** -/
theorem flagged_map (limits : Thresholds) {rule : Rule} (hrule : rule ∈ Rule.aboutNames) :
    rule.flagged limits (tokens.map g) = (rule.flagged limits tokens).map g := by
  cases rule with
  | declaredAfterUse => exact h.lateDeclarations_map
  | tooManyArguments =>
      refine firstExcess_filterMap_map _ k (fun _ => h.isDeclaration_eq) h.scope ?_
      intro t ht u hu _ _ _
      rw [h.index t ht, h.index u hu, Nat.add_right_cancel_iff]
  | tooManyGlobals =>
      refine firstExcess_filterMap_map _ k (fun t ht => by rw [h.role t ht]) h.scope ?_
      intro t ht u hu htrole hurole _
      exact h.names t ht u hu (Or.inr ⟨eq_of_beq htrole, eq_of_beq hurole⟩)
  | tooManyLocals =>
      refine firstExcess_filterMap_map _ k
        (fun t ht => by rw [h.role t ht, h.isAssignment_eq ht]) h.binding ?_
      intro t ht u hu _ _ hbinding
      exact h.names t ht u hu (Or.inl hbinding)
  | unusedParam => exact h.unusedParams_map
  | unusedVar => exact h.unusedVars_map
  | _ => simp [Rule.aboutNames] at hrule

end

end KeepsNames

/-! ### Every rule -/

namespace Relabels

variable {d k : Nat} {φ : String → String} {g : AnnotatedToken → AnnotatedToken}
  {tokens : List AnnotatedToken}

theorem of_subset {others : List AnnotatedToken} (h : Relabels d k φ g tokens)
    (hsub : ∀ t ∈ others, t ∈ tokens) : Relabels d k φ g others where
  kind t ht := h.kind t (hsub t ht)
  text t ht := h.text t (hsub t ht)
  index t ht := h.index t (hsub t ht)
  scope t ht := h.scope t (hsub t ht)
  role t ht := h.role t (hsub t ht)
  usage t ht := h.usage t (hsub t ht)
  reversed t ht := h.reversed t (hsub t ht)
  binding t ht := h.binding t (hsub t ht)
  injective := h.injective
  append := h.append
  quote := h.quote
  kept t ht := h.kept t (hsub t ht)

section

variable (h : Relabels d k φ g tokens) {t u : AnnotatedToken}

include h

/-- Different texts stay different, whatever they belong to. -/
theorem keepsNames : KeepsNames d k g tokens where
  kind := h.kind
  index := h.index
  scope := h.scope
  role := h.role
  usage := h.usage
  reversed := h.reversed
  binding := h.binding
  names t ht u hu _ := by rw [h.text t ht, h.text u hu, h.injective.eq_iff]

theorem badEscapes_map : badEscapes (tokens.map g) = (badEscapes tokens).map g := by
  refine filter_map_congr fun t ht => ?_
  rw [h.kind t ht, h.text t ht]
  by_cases hkind : t.kind = .quotedEscape
  · rw [h.kept t ht (Or.inl hkind)]
  · rw [beq_eq_false_iff_ne.2 hkind, Bool.false_and, Bool.false_and]

theorem drawsFromInfinity_eq {seed draw range : AnnotatedToken} (hseed : seed ∈ tokens)
    (hdraw : draw ∈ tokens) (hrange : range ∈ tokens) :
    drawsFromInfinity (g seed) (g draw) (g range) = drawsFromInfinity seed draw range := by
  rw [drawsFromInfinity, drawsFromInfinity, h.kind seed hseed, h.kind draw hdraw,
    h.kind range hrange, h.text seed hseed, h.text draw hdraw]
  by_cases hnumber : seed.kind = .literal .number
  · by_cases hoperator : draw.kind = .operator
    · rw [h.kept seed hseed (Or.inr (Or.inl hnumber)), h.kept draw hdraw (Or.inr (Or.inr hoperator))]
    · simp only [beq_eq_false_iff_ne.2 hoperator, Bool.and_false, Bool.false_and]
  · simp only [beq_eq_false_iff_ne.2 hnumber, Bool.false_and]

theorem fixedSeeds_map : fixedSeeds (tokens.map g) = (fixedSeeds tokens).map g := by
  fun_induction fixedSeeds tokens with
  | case1 seed draw range rest ih =>
      have hrest := ih (h.of_subset fun t => List.mem_cons_of_mem _)
      have hdraws : drawsFromInfinity (g seed) (g draw) (g range) =
          drawsFromInfinity seed draw range :=
        h.drawsFromInfinity_eq (by simp) (by simp) (by simp)
      rw [List.map_cons, List.map_cons] at hrest
      rw [List.map_cons, List.map_cons, List.map_cons, fixedSeeds, hdraws, hrest, List.map_append]
      split <;> rfl
  | case2 tokens hshort =>
      match tokens with
      | [] => rfl
      | [_] => rfl
      | [_, _] => rfl
      | seed :: draw :: range :: rest => exact absurd rfl (hshort seed draw range rest)

omit h in
theorem constantAt_map {t : AnnotatedToken} (hscope : (g t).scope = t.scope.map (· + k))
    (text : String) : constantAt (g t) (φ text) =
      (constantAt t text).map fun item => ⟨item.scope + k, φ item.key, g item.token⟩ := by
  rw [constantAt, hscope, constantAt]
  cases t.scope <;> rfl

theorem constantsFrom_map (quote : Option (AnnotatedToken × String))
    (hquote : ∀ q ∈ quote, (g q.1).scope = q.1.scope.map (· + k)) :
    constantsFrom (quote.map fun q => (g q.1, φ q.2)) (tokens.map g) =
      (constantsFrom quote tokens).map
        fun item => ⟨item.scope + k, φ item.key, g item.token⟩ := by
  induction tokens generalizing quote with
  | nil => rfl
  | cons t rest ih =>
      have ht : t ∈ t :: rest := List.mem_cons_self ..
      have hrest := ih (h.of_subset fun u => List.mem_cons_of_mem _)
      -- a quoted text is put together piece by piece, and `φ` goes with putting together
      have hpiece : (quote.map fun q => (g q.1, φ q.2)).map
          (fun q => (q.1, q.2 ++ (g t).text)) =
            (quote.map fun q => (q.1, q.2 ++ t.text)).map fun q => (g q.1, φ q.2) := by
        rw [Option.map_map, Option.map_map]
        refine Option.map_congr fun q _ => ?_
        rw [Function.comp_apply, Function.comp_apply, h.append, h.text t ht]
      have hpieces : ∀ q ∈ quote.map (fun q => (q.1, q.2 ++ t.text)),
          (g q.1).scope = q.1.scope.map (· + k) := by
        intro q hq
        obtain ⟨q', hq', rfl⟩ := Option.map_eq_some_iff.1 hq
        exact hquote q' hq'
      rw [List.map_cons]
      unfold constantsFrom
      rw [h.kind t ht]
      split
      · have hopen := hrest (some (t, "\"")) (by rintro q ⟨⟩; exact h.scope t ht)
        rwa [Option.map_some, h.quote] at hopen
      · rw [hpiece, hrest _ hpieces]
      · rw [hpiece, hrest _ hpieces]
      · have hclosed := hrest none (by simp)
        rw [Option.map_none] at hclosed
        rw [hclosed, List.map_append]
        cases quote with
        | none => rfl
        | some q => exact congrArg (· ++ _) (constantAt_map (hquote q rfl) q.2)
      · rw [hrest quote hquote, List.map_append, h.keepsNames.isAssignment_eq ht, h.text t ht]
        split
        · rfl
        · rw [constantAt_map (h.scope t ht)]
      · exact hrest quote hquote

/-- **A rule objects to the new tokens in the places of the old ones**; the rule about long lines looks
at more than the replacement keeps. -/
theorem flagged_map (limits : Thresholds) {rule : Rule} (hrule : rule ≠ .lineLength) :
    rule.flagged limits (tokens.map g) = (rule.flagged limits tokens).map g := by
  cases rule with
  | lineLength => exact absurd rfl hrule
  | assignReservedWord | invalidAssign =>
      exact filter_map_congr fun t ht => by rw [h.kind t ht, h.keepsNames.isAssignment_eq ht]
  | deprecatedDatetime => exact filter_map_congr fun t ht => by rw [h.kind t ht]
  | fixedSeed => exact h.fixedSeeds_map
  | invalidEscape => exact h.badEscapes_map
  | tooManyConstants =>
      have hitems := h.constantsFrom_map none (by simp)
      rw [Rule.flagged, countedConstants]
      refine (congrArg _ hitems).trans (firstExcess_map _ k (fun _ _ => rfl) (fun _ _ => rfl) ?_)
      intro x _ y _ _
      exact h.injective.eq_iff
  | _ => exact h.keepsNames.flagged_map limits (by simp [Rule.aboutNames])

end

end Relabels

/-- The findings of all rules stay in their order. -/
theorem findings_map {limits : Thresholds} {tokens : List AnnotatedToken}
    {g : AnnotatedToken → AnnotatedToken} {place : Finding → Finding}
    (hflagged : ∀ rule : Rule,
      rule.flagged limits (tokens.map g) = (rule.flagged limits tokens).map g)
    (hplace : ∀ rule t, Finding.ofToken rule (g t) = place (.ofToken rule t))
    (hle : ∀ a b : Finding, (place a).le (place b) = a.le b) :
    findings limits (tokens.map g) = (findings limits tokens).map place := by
  have hrule : ∀ rule : Rule,
      rule.findings limits (tokens.map g) = (rule.findings limits tokens).map place := by
    intro rule
    rw [Rule.findings, hflagged, Rule.findings, List.map_map, List.map_map]
    exact List.map_congr_left fun t _ => hplace rule t
  rw [findings, findings, funext hrule, ← List.map_flatMap]
  exact sort_map hle _

end QSource
