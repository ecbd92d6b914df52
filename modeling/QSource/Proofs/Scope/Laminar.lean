/-
**How the regions of an outline lie.**

The lambdas of a tree lie beside one another or one inside the other, and what stands between the
braces of a lambda is put into that lambda or into a later one.

An outline is put together from left to right.  So this is proved of the outline of any stretch of
tokens: where two stretches meet, nothing of one of them covers anything of the other, and a lambda
puts a new region around a stretch in which all regions are younger.

Main definitions:

* `QSource.Region.Covers`, `QSource.Region.Encloses` — a place or a region inside a region;
* `QSource.Outline.Laminar` — **how the regions of an outline lie**.

Main results:

* `QSource.Outline.Laminar.append`, `QSource.Outline.Laminar.lambda` — stretches put together;
* `QSource.Node.laminar_outlineAll` — every outline is laminar.
-/

import QSource.Proofs.Scope.Extents

set_option relaxedAutoImplicit false
set_option autoImplicit false

namespace QSource

open Node (outlineAll)

/-! ### How regions lie -/

/-- The place with the given number stands between the braces of the region, or is one of them. -/
def Region.Covers (r : Region) (index : Nat) : Prop := r.first ≤ index ∧ index ≤ r.last

instance (r : Region) (index : Nat) : Decidable (r.Covers index) :=
  inferInstanceAs (Decidable (_ ∧ _))

/-- The region `r` encloses the region `r'`. -/
def Region.Encloses (r r' : Region) : Prop := r.first < r'.first ∧ r'.last < r.last

/-- **How the regions of an outline lie**, if it is one of the tokens with the numbers from `start` up
to, and not including, `stop`.  No token and no region is put into a region that is older than one of
those around it. -/
structure Outline.Laminar (start stop : Nat) (o : Outline) : Prop where
  marked : ∀ m ∈ o.marked, start ≤ m.token.index ∧ m.token.index < stop
  regions : ∀ r ∈ o.regions, start ≤ r.first ∧ r.first < r.last ∧ r.last < stop
  apart : o.regions.Pairwise fun r r' => r.last < r'.first ∨ r'.last < r.last
  scope : ∀ m ∈ o.marked, ∀ r ∈ o.regions, r.Covers m.token.index →
    ∃ id : Nat, m.scope = some id ∧ r.id ≤ id
  parent : ∀ r ∈ o.regions, ∀ r' ∈ o.regions, r'.Encloses r →
    ∃ id : Nat, r.parent = some id ∧ r'.id ≤ id

namespace Outline.Laminar

/-- Tokens without regions. -/
theorem of_regions_eq_nil {start stop : Nat} {o : Outline} (hregions : o.regions = [])
    (hcount : Token.CountFrom start (o.marked.map Marked.token))
    (hstop : start + o.marked.length = stop) : Laminar start stop o where
  marked := by
    intro m hm
    have hmem := hcount.index_mem (List.mem_map_of_mem hm)
    rwa [List.length_map, hstop] at hmem
  regions := by simp [hregions]
  apart := by simp [hregions]
  scope := by simp [hregions]
  parent := by simp [hregions]

theorem single {index : Nat} (scope : Option ScopeId) (mark : Mark) {t : Token}
    (ht : t.index = index) : Laminar index (index + 1) (Outline.ofTokens scope mark [t]) :=
  of_regions_eq_nil rfl (by simpa [Token.countFrom_cons, Token.countFrom_nil] using ht) rfl

/-- What covers a token of one of two stretches lies in the same one. -/
theorem append {start middle stop : Nat} {a b : Outline} (ha : Laminar start middle a)
    (hb : Laminar middle stop b) (hstart : start ≤ middle) (hstop : middle ≤ stop) :
    Laminar start stop (a ++ b) where
  marked := by
    intro m hm
    rcases List.mem_append.1 hm with hm | hm
    · have hmem := ha.marked m hm
      omega
    · have hmem := hb.marked m hm
      omega
  regions := by
    intro r hr
    rcases List.mem_append.1 hr with hr | hr
    · have hmem := ha.regions r hr
      omega
    · have hmem := hb.regions r hr
      omega
  apart := by
    refine List.pairwise_append.2 ⟨ha.apart, hb.apart, ?_⟩
    intro r hr r' hr'
    have hr := ha.regions r hr
    have hr' := hb.regions r' hr'
    omega
  scope := by
    intro m hm r hr hcovers
    rcases List.mem_append.1 hm with hm | hm <;> rcases List.mem_append.1 hr with hr | hr
    · exact ha.scope m hm r hr hcovers
    · have hm := ha.marked m hm
      have hr := hb.regions r hr
      unfold Region.Covers at hcovers
      omega
    · have hm := hb.marked m hm
      have hr := ha.regions r hr
      unfold Region.Covers at hcovers
      omega
    · exact hb.scope m hm r hr hcovers
  parent := by
    intro r hr r' hr' hencloses
    rcases List.mem_append.1 hr with hr | hr <;> rcases List.mem_append.1 hr' with hr' | hr'
    · exact ha.parent r hr r' hr' hencloses
    · have hr := ha.regions r hr
      have hr' := hb.regions r' hr'
      unfold Region.Encloses at hencloses
      omega
    · have hr := hb.regions r hr
      have hr' := ha.regions r' hr'
      unfold Region.Encloses at hencloses
      omega
    · exact hb.parent r hr r' hr' hencloses

/-- A lambda: a region around its braces and what stands between them. -/
theorem lambda {next : Nat} {first last : Token} {o : Outline}
    (h : Laminar (first.index + 1) last.index o) (hranked : Ranked (some next) (next + 1) o)
    (hbraces : first.index < last.index) (scope : Option ScopeId)
    (declared : Option (List (String × Nat))) :
    Laminar first.index (last.index + 1)
      (⟨[], [⟨next, scope, first.index, last.index, declared⟩]⟩ ++
        (ofTokens (some next) .plain [first] ++ (o ++ ofTokens (some next) .plain [last]))) := by
  let region : Region := ⟨next, scope, first.index, last.index, declared⟩
  let inside := ofTokens (some next) .plain [first] ++ (o ++ ofTokens (some next) .plain [last])
  have hinside : Ranked (some next) (next + 1) inside :=
    (hranked.append_ofTokens _ _).ofTokens_append _ _
  have hregions : inside.regions = o.regions := by simp [inside]
  have hmarked : ∀ m ∈ inside.marked, m ∈ o.marked ∨ m.token = first ∨ m.token = last := by
    intro m hm
    simp only [inside, marked_append, marked_ofTokens, List.map_singleton, List.mem_append,
      List.mem_singleton] at hm
    rcases hm with rfl | hm | rfl
    · exact Or.inr (Or.inl rfl)
    · exact Or.inl hm
    · exact Or.inr (Or.inr rfl)
  -- all that stands inside is put into the new region or into a younger one
  have hscope : ∀ m ∈ inside.marked, ∃ id : Nat, m.scope = some id ∧ next ≤ id := by
    intro m hm
    rcases hinside.scope m hm with hid | ⟨id, hid, hle, -⟩
    · exact ⟨next, hid, Nat.le_refl _⟩
    · exact ⟨id, hid, by omega⟩
  have hparent : ∀ r ∈ o.regions, ∃ id : Nat, r.parent = some id ∧ next ≤ id := by
    intro r hr
    rcases hranked.parent r hr with hid | ⟨id, hid, hle, -⟩
    · exact ⟨next, hid, Nat.le_refl _⟩
    · exact ⟨id, hid, by omega⟩
  change Laminar _ _ (⟨[], [region]⟩ ++ inside)
  constructor
  case marked =>
    intro m hm
    rcases hmarked m hm with hm | hm | hm
    · have hm := h.marked m hm
      omega
    · rw [hm]
      omega
    · rw [hm]
      omega
  case regions =>
    intro r hr
    rw [regions_append, hregions] at hr
    rcases List.mem_cons.1 hr with rfl | hr
    · exact ⟨Nat.le_refl _, hbraces, Nat.lt_succ_self _⟩
    · have hr := h.regions r hr
      omega
  case apart =>
    rw [regions_append, hregions]
    refine List.pairwise_cons.2 ⟨?_, h.apart⟩
    intro r hr
    exact Or.inr (h.regions r hr).2.2
  case scope =>
    intro m hm r hr hcovers
    rw [regions_append, hregions] at hr
    rcases List.mem_cons.1 hr with rfl | hr
    · exact hscope m hm
    · have hr' := h.regions r hr
      unfold Region.Covers at hcovers
      rcases hmarked m hm with hm | hm | hm
      · exact h.scope m hm r hr hcovers
      · rw [hm] at hcovers
        omega
      · rw [hm] at hcovers
        omega
  case parent =>
    intro r hr r' hr' hencloses
    rw [regions_append, hregions] at hr hr'
    unfold Region.Encloses at hencloses
    rcases List.mem_cons.1 hr with rfl | hr <;> rcases List.mem_cons.1 hr' with rfl | hr'
    · omega
    · have hr' := h.regions r' hr'
      simp only [region] at hencloses
      omega
    · exact hparent r hr
    · exact h.parent r hr r' hr' hencloses

end Outline.Laminar

namespace Node

open Outline (Laminar)

/-- The numbers of the tokens between two delimiters. -/
theorem countFrom_items {form : Enclosure} {first last : Token} {items : List Node} {start stop : Nat}
    (hgap : form.gap = []) (hcount : Token.CountFrom start (enclosed form first items last).tokens)
    (hstop : start + (enclosed form first items last).tokens.length = stop) :
    first.index = start ∧ Token.CountFrom (start + 1) (allTokens items) ∧
      start + 1 + (allTokens items).length = last.index ∧ last.index + 1 = stop := by
  rw [tokens, hgap, List.nil_append] at hcount hstop
  rw [List.cons_append, Token.countFrom_cons, Token.countFrom_append] at hcount
  obtain ⟨hfirst, hitems, hlast⟩ := hcount
  have hlast := (Token.countFrom_cons.1 hlast).1
  simp only [List.cons_append, List.length_cons, List.length_append, List.length_nil] at hstop
  exact ⟨hfirst, hitems, hlast.symm, by omega⟩

/-- What stands between two delimiters, and they themselves. -/
theorem laminar_delimited {start stop : Nat} {o : Outline} (scope : Option ScopeId)
    {first last : Token} (hfirst : first.index = start) (h : Laminar (start + 1) last.index o)
    (hle : start + 1 ≤ last.index) (hlast : last.index + 1 = stop) :
    Laminar start stop (.ofTokens scope .plain [first] ++ o ++ .ofTokens scope .plain [last]) := by
  subst hlast
  exact ((Laminar.single scope .plain hfirst).append h (by omega) hle).append
    (.single scope .plain rfl) (by omega) (by omega)

mutual

theorem laminar_outline (scope : Option ScopeId) (next : Nat) (query : Bool)
    (sign : Option Assignment) {start stop : Nat} : ∀ node : Node,
    Token.CountFrom start node.tokens → start + node.tokens.length = stop →
      Laminar start stop (node.outline scope next query sign)
  | .leaf form token, hcount, hstop | .assignment parts, hcount, hstop
  | .quoted first content last, hcount, hstop
  | .enclosed (.params gap) first items last, hcount, hstop => by
      rw [← token_outline scope next query sign] at hcount hstop
      refine .of_regions_eq_nil ?_ hcount (by simpa using hstop)
      simp [outline, regions_paramOutlines]
  | .enclosed .bracket first items last, hcount, hstop => by
      obtain ⟨hfirst, hitems, hlast, hend⟩ := countFrom_items rfl hcount hstop
      rw [outline]
      exact laminar_delimited scope hfirst
        (laminar_outlineAll scope next false query query items hitems hlast) (by omega) hend
  | .enclosed .group first items last, hcount, hstop => by
      obtain ⟨hfirst, hitems, hlast, hend⟩ := countFrom_items rfl hcount hstop
      rw [outline]
      exact laminar_delimited scope hfirst
        (laminar_outlineAll scope next false _ _ items hitems hlast) (by omega) hend
  | .enclosed .lambda first items last, hcount, hstop => by
      obtain ⟨rfl, hitems, hlast, rfl⟩ := countFrom_items rfl hcount hstop
      rw [outline, Outline.append_assoc, Outline.append_assoc]
      exact (laminar_outlineAll (some next) (next + 1) false false false items hitems hlast).lambda
        (ranked_outlineAll (some next) (next + 1) false false false items) (by omega) scope _

/-- **Every outline is laminar.** -/
theorem laminar_outlineAll (scope : Option ScopeId) (next : Nat) (script initial query : Bool)
    {start stop : Nat} : ∀ nodes : List Node, Token.CountFrom start (allTokens nodes) →
    start + (allTokens nodes).length = stop →
      Laminar start stop (outlineAll scope next script initial query nodes)
  | [], hcount, hstop => .of_regions_eq_nil rfl hcount hstop
  | node :: rest, hcount, hstop => by
      rw [allTokens_cons, Token.countFrom_append] at hcount
      rw [allTokens_cons, List.length_append] at hstop
      rw [outlineAll]
      exact (laminar_outline scope next query _ node hcount.1 rfl).append
        (laminar_outlineAll scope _ script initial _ rest hcount.2 (by omega)) (by omega) (by omega)

end

end Node

end QSource
