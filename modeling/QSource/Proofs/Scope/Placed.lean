/-
**What a part of a whole is among its surroundings.**

The outline of a part may stand in the middle of that of a whole, with numbers moved on and in a region
that is around all of it.  Then the scopes of the part are among those of the whole, with the same
local names.  A name of the part that is looked up ends where it did, as long as it ends in the part;
and a name that has no owner there goes on to be looked up in the scopes around the part.

Main definitions:

* `QSource.Outline.adopt` — an outline put into a region;
* `QSource.Scope.settled` — a scope that is moved, in a region if it stood in none;
* `QSource.AnnotatedToken.KeptAs` — **what stays of an annotated token**;
* `QSource.Placed` — **the outline of a part in that of a whole**.

Main results:

* `QSource.Scope.enclosing_settled` — the walk outwards goes on in the scopes around;
* `QSource.Placed.scopes_eq` — **the scopes of the part are among those of the whole**;
* `QSource.Placed.keptAs` — **what is known about a token of the part stays**, but for the owner of a
  name that had none;
* `QSource.Placed.owner_of_unowned` — a name without an owner may get one around the part.
-/

import QSource.Proofs.Scope.Extents
import QSource.Proofs.Scope.Owners
import QSource.Proofs.Scope.Statements

set_option relaxedAutoImplicit false
set_option autoImplicit false

namespace QSource

/-! ### Walks outwards -/

section

variable (d k : Nat) (c : Option ScopeId)

/-- A region in the region `c`, if it stood in none. -/
def Region.adopt (r : Region) : Region := { r with parent := r.parent.or c }

/-- An outline put into the region `c`. -/
def Outline.adopt (o : Outline) : Outline := ⟨o.marked, o.regions.map (Region.adopt c)⟩

/-- A scope that is moved, in the scope `c` if it stood in none. -/
def Scope.settled (scope : Scope) : Scope := ⟨(scope.toRegion.moved d k).adopt c, scope.locals⟩

theorem Scope.roleOf?_settled (scope : Scope) (name : String) :
    (scope.settled d k c).roleOf? name = scope.roleOf? name := Scope.roleOf?_moved k scope name

variable {d k c}

/-- The walk outwards goes on in the scopes around. -/
theorem Scope.enclosing_settled {table older : List Scope}
    (hids : table.map (·.id) = (List.range table.length).reverse)
    (hparent : ∀ s ∈ table, ∀ p, s.parent = some p → p < s.id)
    (hc : ∀ s ∈ table, c ≠ some (s.id + k)) {scope : Option ScopeId}
    (hscope : ∀ id : Nat, scope = some id → id < table.length) :
    Scope.enclosing ((scope.map (· + k)).or c) (table.map (Scope.settled d k c) ++ older) =
      (Scope.enclosing scope table).map (Scope.settled d k c) ++ Scope.enclosing c older := by
  induction table generalizing scope with
  | nil =>
      cases scope with
      | none => rfl
      | some id => exact absurd (hscope id rfl) (Nat.not_lt_zero id)
  | cons s table ih =>
      rw [List.map_cons, List.length_cons, List.range_succ, List.reverse_append,
        List.reverse_singleton, List.singleton_append, List.cons.injEq] at hids
      obtain ⟨hlast, hids⟩ := hids
      obtain ⟨hs, hparent⟩ := List.forall_mem_cons.1 hparent
      have hrest := @ih hids hparent fun s' hs' => hc s' (List.mem_cons_of_mem _ hs')
      cases scope with
      | none =>
          refine Scope.enclosing_append_left (fun s' hs' => ?_) older
          obtain ⟨s'', hs'', rfl⟩ := List.mem_map.1 hs'
          exact hc s'' hs''
      | some id =>
          rw [List.map_cons, List.cons_append, Option.map_some, Option.some_or, Scope.enclosing,
            Scope.enclosing]
          have hid : id + k = (s.settled d k c).id ↔ id = s.id := Nat.add_right_cancel_iff
          by_cases heq : id = s.id
          · rw [if_pos (hid.2 heq), if_pos heq, List.map_cons, List.cons_append]
            exact congrArg _ (hrest fun p hp => by rw [← hlast]; exact hs p hp)
          · rw [if_neg (mt hid.1 heq), if_neg heq]
            refine @hrest (some id) fun id' hid' => ?_
            obtain rfl := Option.some.inj hid'
            rw [hlast] at heq
            exact Nat.lt_of_le_of_ne (Nat.le_of_lt_succ (hscope id rfl)) heq

/-- A name that ends in the settled scopes ends where it did, and any other goes on. -/
theorem resolve_settled_append (table older : List Scope) (name : String) :
    resolve (table.map (Scope.settled d k c) ++ older) name =
      match (resolve table name).2 with
      | some id => ((resolve table name).1, some (id + k))
      | none => resolve older name := by
  induction table with
  | nil => rfl
  | cons s table ih =>
      rw [List.map_cons, List.cons_append]
      simp only [resolve, List.findSome?_cons, Scope.roleOf?_settled] at ih ⊢
      cases s.roleOf? name with
      | none => exact ih
      | some role => rfl

end

/-- What holds of a scope, and of the scope around any for which it holds, holds all the way out. -/
theorem Scope.forall_mem_enclosing {P : Scope → Prop} {table : List Scope} {scope : Option ScopeId}
    (hstart : ∀ s ∈ table, scope = some s.id → P s)
    (hparent : ∀ s ∈ table, P s → ∀ s' ∈ table, s.parent = some s'.id → P s') :
    ∀ s ∈ Scope.enclosing scope table, P s := by
  induction table generalizing scope with
  | nil => cases scope <;> simp [Scope.enclosing]
  | cons s older ih =>
      obtain ⟨hs, hrest⟩ := List.forall_mem_cons.1 hstart
      have holder : ∀ s ∈ older, P s → ∀ s' ∈ older, s.parent = some s'.id → P s' :=
        fun s hs hP s' hs' => hparent s (List.mem_cons_of_mem _ hs) hP s' (List.mem_cons_of_mem _ hs')
      cases scope with
      | none => simp [Scope.enclosing]
      | some id =>
          rw [Scope.enclosing]
          split
          · next heq =>
              subst heq
              have hP := hs rfl
              refine List.forall_mem_cons.2 ⟨hP, ih (fun s' hs' => ?_) holder⟩
              exact hparent s (List.mem_cons_self ..) hP s' (List.mem_cons_of_mem _ hs')
          · exact ih hrest holder

/-! ### Annotations -/

namespace Marked

variable {m : Marked} {table table' : List Scope}

/-- Only the role and the owner of a name that is looked up depend on the scopes. -/
theorem annotate_eq_of_not_resolved (h : ¬(m.token.kind = .identifier ∧
    (m.mark = .plain ∨ ∃ isCompound, m.mark = .target false isCompound))) :
    m.annotate table = m.annotate table' := by
  have hsame : m.annotate table = { m.annotate table' with toToken := m.token } :=
    annotate_replaced rfl rfl rfl (fun _ _ _ => rfl) fun hkind hmark => absurd ⟨hkind, hmark⟩ h
  rw [hsame, ← toToken_annotate table' m]

/-- What does not depend on the scopes. -/
theorem annotate_eq_apart (m : Marked) (table table' : List Scope) :
    (m.annotate table).usage = (m.annotate table').usage ∧
      (m.annotate table).reversed = (m.annotate table').reversed ∧
      ((m.annotate table).role = none ↔ (m.annotate table').role = none) := by
  by_cases h : m.token.kind = .identifier ∧
      (m.mark = .plain ∨ ∃ isCompound, m.mark = .target false isCompound)
  · obtain ⟨token, scope, mark⟩ := m
    obtain ⟨hkind, rfl | ⟨isCompound, rfl⟩⟩ := h
    · simp only at hkind
      simp [annotate, hkind]
    · simp only at hkind
      simp [annotate, hkind]
  · rw [annotate_eq_of_not_resolved h]
    exact ⟨rfl, rfl, Iff.rfl⟩

end Marked

/-! ### A part in a whole -/

/-- **What stays of an annotated token** `d` tokens and `k` scopes from the start of a whole. -/
structure AnnotatedToken.KeptAs (places : Places) (d k : Nat) (t t' : AnnotatedToken) : Prop where
  toToken : t'.toToken = t.toToken.moved places d
  scope : t'.scope = t.scope.map (· + k)
  usage : t'.usage = t.usage
  reversed : t'.reversed = t.reversed
  role : t'.role = none ↔ t.role = none
  owned : ∀ id, t.binding = some id → t'.binding = some (id + k) ∧ t'.role = t.role

/-- **The outline of a part in that of a whole**, `d` tokens and `k` regions from the start and in the
region `c`: tokens before and behind the `w` tokens of the part stand outside of it, and one region
encloses all of the part. -/
structure Placed (part nodes : List Node) (places : Places) (d w k : Nat) (c : Option ScopeId)
    (a b : Outline) : Prop where
  whole : outline nodes = a ++ ((outline part).map (Token.moved places d) d k).adopt c ++ b
  count : a.regions.length = k
  before : ∀ m ∈ a.marked, m.token.index < d
  behind : ∀ m ∈ b.marked, d + w ≤ m.token.index
  inside : ∀ r ∈ (outline part).regions, r.last < w
  root : ∃ r ∈ (outline part).regions, r.parent = none ∧ r.first = 0 ∧ r.last + 1 = w
  scope : ∀ m ∈ (outline part).marked, m.scope ≠ none

namespace Placed

variable {part nodes : List Node} {places : Places} {d w k : Nat} {c : Option ScopeId}
  {a b : Outline} (hplaced : Placed part nodes places d w k c a b)

include hplaced

theorem marked_eq : (outline nodes).marked =
    a.marked ++ (outline part).marked.map (Marked.map (Token.moved places d) k) ++ b.marked := by
  rw [hplaced.whole]
  rfl

theorem regions_eq : (outline nodes).regions =
    a.regions ++ (outline part).regions.map (fun r => (r.moved d k).adopt c) ++ b.regions := by
  rw [hplaced.whole]
  simp [Outline.adopt, Outline.map, Function.comp_def]

section

variable {tokens : List Token} (hnumbered : Token.Numbered tokens) (h : parse tokens = .ok nodes)

include hnumbered h

/-- The names that are written in a region of the part are those of the part alone. -/
theorem localNames_eq {r : Region} (hr : r ∈ (outline part).regions) :
    localNames ((outline nodes).marked.filter Marked.introducesLocal) (r.id + k) =
      localNames ((outline part).marked.filter Marked.introducesLocal) r.id := by
  have hmem : (r.moved d k).adopt c ∈ (outline nodes).regions := by
    rw [hplaced.regions_eq]
    exact List.mem_append_left _ (List.mem_append_right _ (List.mem_map_of_mem hr))
  have hinside : ∀ m ∈ (outline nodes).marked, m.scope = some (r.id + k) →
      d ≤ m.token.index ∧ m.token.index < d + w := by
    intro m hm hscope
    obtain ⟨hfirst, hlast⟩ := scope_encloses hnumbered h hm hmem hscope
    have hlt := hplaced.inside r hr
    change r.first + d ≤ _ at hfirst
    change _ ≤ r.last + d at hlast
    omega
  have hbefore : ∀ m ∈ a.marked.filter Marked.introducesLocal, m.scope ≠ some (r.id + k) := by
    intro m hm hscope
    have hm := (List.mem_filter.1 hm).1
    have hge := (hinside m (by simp [hplaced.marked_eq, hm]) hscope).1
    exact absurd (hplaced.before m hm) (Nat.not_lt.2 hge)
  have hbehind : ∀ m ∈ b.marked.filter Marked.introducesLocal, m.scope ≠ some (r.id + k) := by
    intro m hm hscope
    have hm := (List.mem_filter.1 hm).1
    have hlt := (hinside m (by simp [hplaced.marked_eq, hm]) hscope).2
    exact absurd hlt (Nat.not_lt.2 (hplaced.behind m hm))
  have htargets : ((outline part).marked.map (Marked.map (Token.moved places d) k)).filter
      Marked.introducesLocal = ((outline part).marked.filter Marked.introducesLocal).map
        (Marked.map (Token.moved places d) k) := by
    rw [List.filter_map]
    exact congrArg _ (List.filter_congr fun m _ =>
      Marked.introducesLocal_map k (fun _ => rfl) fun _ => rfl)
  rw [hplaced.marked_eq, List.filter_append, List.filter_append, localNames_append_right hbehind,
    localNames_append_left hbefore, htargets, localNames_map k fun _ _ => rfl]

/-- **The scopes of the part are among those of the whole**, between those that open before and behind
it. -/
theorem scopes_eq : ∃ later, (analyze nodes).scopes = (analyze nodes).scopes.take k ++
    (analyze part).scopes.map (Scope.settled d k c) ++ later := by
  let place (r : Region) : Scope :=
    ⟨r, localNames ((outline nodes).marked.filter Marked.introducesLocal) r.id⟩
  have hmap : (analyze nodes).scopes = a.regions.map place ++
      (analyze part).scopes.map (Scope.settled d k c) ++ b.regions.map place := by
    have hscopes : (analyze nodes).scopes = (outline nodes).regions.map place := rfl
    rw [hscopes, hplaced.regions_eq, List.map_append, List.map_append, List.map_map]
    congr 2
    rw [analyze, Outline.scopes, List.map_map]
    refine List.map_congr_left fun r hr => ?_
    exact congrArg (Scope.mk _) (hplaced.localNames_eq hnumbered h hr)
  have htake : (analyze nodes).scopes.take k = a.regions.map place := by
    rw [hmap, List.append_assoc]
    exact List.take_left' ((List.length_map _).trans hplaced.count)
  exact ⟨b.regions.map place, by rw [htake, hmap]⟩

theorem settled_mem {s : Scope} (hs : s ∈ (analyze part).scopes) :
    s.settled d k c ∈ (analyze nodes).scopes := by
  obtain ⟨later, hscopes⟩ := hplaced.scopes_eq hnumbered h
  rw [hscopes]
  exact List.mem_append_left _ (List.mem_append_right _ (List.mem_map_of_mem hs))

/-- The scope around the part encloses it. -/
theorem encloses_of_eq_some {s : Scope} (hs : s ∈ (analyze nodes).scopes) (hc : c = some s.id) :
    s.first < d ∧ d + w ≤ s.last := by
  obtain ⟨r, hr, hparent, hfirst, hlast⟩ := hplaced.root
  have hroot := hplaced.settled_mem hnumbered h (mem_scopes_iff.2 ⟨r, hr, rfl⟩)
  have hencloses := parent_encloses hnumbered h (Outline.toRegion_mem_of_mem_scopes hroot)
    (Outline.toRegion_mem_of_mem_scopes hs) (by simp [Scope.settled, Region.adopt, Region.moved,
      hparent, hc])
  change s.first < r.first + d ∧ r.last + d < s.last at hencloses
  omega

/-- The scopes around the part enclose it. -/
theorem encloses_of_mem_enclosing {s : Scope}
    (hs : s ∈ Scope.enclosing c ((analyze nodes).scopes.take k).reverse) :
    s ∈ (analyze nodes).scopes ∧ s.first < d ∧ d + w ≤ s.last := by
  have hmem : ∀ s ∈ ((analyze nodes).scopes.take k).reverse, s ∈ (analyze nodes).scopes :=
    fun s hs => List.mem_of_mem_take (List.mem_reverse.1 hs)
  refine ⟨hmem s (Scope.mem_of_mem_enclosing hs), ?_⟩
  refine Scope.forall_mem_enclosing (P := fun s => s.first < d ∧ d + w ≤ s.last)
    (fun s hs => hplaced.encloses_of_eq_some hnumbered h (hmem s hs)) ?_ s hs
  intro s hs hencloses s' hs' hparent
  have hlt := parent_encloses hnumbered h (Outline.toRegion_mem_of_mem_scopes (hmem s hs))
    (Outline.toRegion_mem_of_mem_scopes (hmem s' hs')) hparent
  change s'.first < s.first ∧ s.last < s'.last at hlt
  omega

/-- **The walk outwards from a token of the part goes on in the scopes around the part.** -/
theorem enclosing_eq {m : Marked} (hm : m ∈ (outline part).marked) :
    Scope.enclosing (m.scope.map (· + k)) (analyze nodes).scopes.reverse =
      (Scope.enclosing m.scope (analyze part).scopes.reverse).map (Scope.settled d k c) ++
        Scope.enclosing c ((analyze nodes).scopes.take k).reverse := by
  obtain ⟨id, hid⟩ := Option.ne_none_iff_exists'.1 (hplaced.scope m hm)
  obtain ⟨later, hscopes⟩ := hplaced.scopes_eq hnumbered h
  have hlt : ∀ i : Nat, m.scope = some i → i < (analyze part).scopes.reverse.length := by
    intro i hi
    rw [List.length_reverse]
    exact scope_lt_of_mem_marked hm hi
  -- scopes behind the part have other numbers, and so has the scope around it
  have hlater : ∀ s ∈ later.reverse, m.scope.map (· + k) ≠ some s.id := by
    intro s hs heq
    have hmem : id ∈ (analyze part).scopes.map (·.id) := by
      rw [map_id_scopes, List.mem_range]
      exact scope_lt_of_mem_marked hm hid
    obtain ⟨s', hs', rfl⟩ := List.mem_map.1 hmem
    have hnodup : ((analyze nodes).scopes.map (·.id)).Nodup := by
      rw [map_id_scopes]
      exact List.nodup_range
    rw [hscopes, List.map_append, List.nodup_append] at hnodup
    refine hnodup.2.2 (s'.settled d k c).id ?_ s.id ?_ ?_
    · refine List.mem_map_of_mem (List.mem_append_right _ ?_)
      exact List.mem_map_of_mem hs'
    · exact List.mem_map_of_mem (List.mem_reverse.1 hs)
    · rw [hid] at heq
      exact Option.some.inj heq
  have hc : ∀ s ∈ (analyze part).scopes.reverse, c ≠ some (s.id + k) := by
    intro s hs heq
    have hlt := (hplaced.encloses_of_eq_some hnumbered h
      (hplaced.settled_mem hnumbered h (List.mem_reverse.1 hs)) heq).1
    change s.first + d < d at hlt
    omega
  have hor : (m.scope.map (· + k)).or c = m.scope.map (· + k) := by simp [hid]
  have hwalk := @Scope.enclosing_settled d k c _ ((analyze nodes).scopes.take k).reverse
    (by rw [List.map_reverse, map_id_scopes, List.length_reverse])
    (fun s hs p hp => parent_lt_of_mem_scopes (List.mem_reverse.1 hs) hp) hc _ hlt
  rw [hor] at hwalk
  conv_lhs => rw [hscopes, List.reverse_append, List.reverse_append, ← List.map_reverse]
  rw [Scope.enclosing_append_left hlater, hwalk]

/-- The owner of a name that is looked up: a scope of the part, or a scope around it. -/
theorem resolve_eq {m : Marked} (hm : m ∈ (outline part).marked) :
    resolve (Scope.enclosing (m.scope.map (· + k)) (analyze nodes).scopes.reverse) m.token.text =
      match (resolve (Scope.enclosing m.scope (analyze part).scopes.reverse) m.token.text).2 with
      | some id =>
        ((resolve (Scope.enclosing m.scope (analyze part).scopes.reverse) m.token.text).1,
          some (id + k))
      | none => resolve (Scope.enclosing c ((analyze nodes).scopes.take k).reverse) m.token.text := by
  rw [hplaced.enclosing_eq hnumbered h hm, resolve_settled_append]

omit hplaced hnumbered h in
/-- What is known about a token stays, if it is no name that is looked up. -/
theorem annotate_eq_moved {m : Marked} (hresolved : ¬(m.token.kind = .identifier ∧
    (m.mark = .plain ∨ ∃ isCompound, m.mark = .target false isCompound))) (nodes part : List Node) :
    (m.map (Token.moved places d) k).annotate (analyze nodes).scopes.reverse =
      (m.annotate (analyze part).scopes.reverse).moved places d k := by
  rw [Marked.annotate_eq_of_not_resolved (m := m.map (Token.moved places d) k) hresolved]
  exact Marked.annotate_map (f := Token.moved places d) (d := d) k (fun _ => rfl) (m := m)
    (fun _ => rfl) (analyze part).scopes.reverse

/-- **What is known about a token of the part stays**, but for the owner of a name that had none. -/
theorem keptAs {m : Marked} (hm : m ∈ (outline part).marked) :
    (m.annotate (analyze part).scopes.reverse).KeptAs places d k
      ((m.map (Token.moved places d) k).annotate (analyze nodes).scopes.reverse) := by
  have hmap := Marked.annotate_map (f := Token.moved places d) (d := d) k (fun _ => rfl)
    (m := m) (fun _ => rfl) (analyze part).scopes.reverse
  obtain ⟨husage, hreversed, hrole⟩ := Marked.annotate_eq_apart (m.map (Token.moved places d) k)
    (analyze nodes).scopes.reverse ((analyze part).scopes.reverse.map (Scope.moved d k))
  rw [hmap] at husage hreversed hrole
  refine ⟨?_, ?_, husage, hreversed, hrole, fun id hid => ?_⟩
  · rw [Marked.toToken_annotate, Marked.toToken_annotate]
    rfl
  · rw [Marked.scope_annotate, Marked.scope_annotate]
    rfl
  · by_cases hresolved : m.token.kind = .identifier ∧
        (m.mark = .plain ∨ ∃ isCompound, m.mark = .target false isCompound)
    · obtain ⟨hkind, hmark⟩ := hresolved
      obtain ⟨-, hrole, hbinding⟩ :=
        @Marked.annotate_of_resolved (analyze part).scopes.reverse m hkind hmark
      obtain ⟨-, hrole', hbinding'⟩ := @Marked.annotate_of_resolved (analyze nodes).scopes.reverse
        (m.map (Token.moved places d) k) hkind hmark
      have howner := hplaced.resolve_eq hnumbered h hm
      rw [← hbinding, hid] at howner
      change _ = some (resolve (Scope.enclosing (m.scope.map (· + k)) _) m.token.text).1 at hrole'
      change _ = (resolve (Scope.enclosing (m.scope.map (· + k)) _) m.token.text).2 at hbinding'
      rw [hrole', hbinding', howner, hrole]
      exact ⟨rfl, rfl⟩
    · rw [annotate_eq_moved hresolved nodes part]
      exact ⟨by simp [AnnotatedToken.moved, hid], rfl⟩

/-- A name without an owner stays as it is, or a scope around the part has it. -/
theorem owner_of_unowned {m : Marked} (hm : m ∈ (outline part).marked)
    (hunowned : (m.annotate (analyze part).scopes.reverse).binding = none) :
    let t := m.annotate (analyze part).scopes.reverse
    let t' := (m.map (Token.moved places d) k).annotate (analyze nodes).scopes.reverse
    t'.role = t.role ∧ t'.binding = none ∨
      m.token.kind = .identifier ∧
        (m.mark = .plain ∨ ∃ isCompound, m.mark = .target false isCompound) ∧
        ∃ s ∈ (analyze nodes).scopes, s.first < d ∧ d + w ≤ s.last ∧ t'.binding = some s.id ∧
          ∃ role, t'.role = some role ∧ s.Gives m.token.text role := by
  intro t t'
  by_cases hresolved : m.token.kind = .identifier ∧
      (m.mark = .plain ∨ ∃ isCompound, m.mark = .target false isCompound)
  · obtain ⟨hkind, hmark⟩ := hresolved
    obtain ⟨-, hrole, hbinding⟩ :=
      @Marked.annotate_of_resolved (analyze part).scopes.reverse m hkind hmark
    obtain ⟨-, hrole', hbinding'⟩ := @Marked.annotate_of_resolved (analyze nodes).scopes.reverse
      (m.map (Token.moved places d) k) hkind hmark
    have howner := hplaced.resolve_eq hnumbered h hm
    rw [← hbinding, hunowned] at howner
    change t'.role = some (resolve (Scope.enclosing (m.scope.map (· + k)) _) m.token.text).1 at hrole'
    change t'.binding = (resolve (Scope.enclosing (m.scope.map (· + k)) _) m.token.text).2 at hbinding'
    rw [howner] at hrole' hbinding'
    rcases resolve_spec (Scope.enclosing c ((analyze nodes).scopes.take k).reverse) m.token.text with
      ⟨s, hs, hgives, hid⟩ | hnone
    · obtain ⟨hmem, hfirst, hlast⟩ := hplaced.encloses_of_mem_enclosing hnumbered h hs
      exact Or.inr ⟨hkind, hmark, s, hmem, hfirst, hlast, hbinding'.trans hid, _, hrole', hgives⟩
    · left
      have halone : resolve (Scope.enclosing m.scope (analyze part).scopes.reverse) m.token.text =
          (unownedRole m.token.text, none) := by
        rcases resolve_spec (Scope.enclosing m.scope (analyze part).scopes.reverse) m.token.text with
          ⟨s, -, -, hid⟩ | hnone
        · rw [← hbinding, hunowned] at hid
          simp at hid
        · exact hnone
      rw [hrole', hbinding', hnone, hrole, halone]
      exact ⟨rfl, rfl⟩
  · left
    have hmap : t' = t.moved places d k := annotate_eq_moved hresolved nodes part
    rw [hmap]
    exact ⟨rfl, by simp [AnnotatedToken.moved, t, hunowned]⟩

/-- The scopes before the part are those that open before it. -/
theorem length_filter_scopes :
    ((analyze nodes).scopes.filter fun s => s.first < d).length = k := by
  have hpairwise := pairwise_first_regions hnumbered h
  obtain ⟨r, hr, -, hfirst, -⟩ := hplaced.root
  have hroot : ((r.moved d k).adopt c).first = d := by
    change r.first + d = d
    rw [hfirst, Nat.zero_add]
  rw [hplaced.regions_eq, List.append_assoc, List.pairwise_append] at hpairwise
  obtain ⟨-, hrest, hbefore⟩ := hpairwise
  have hbehind := (List.pairwise_append.1 hrest).2.2
  have hmem := List.mem_map_of_mem (f := fun r => (r.moved d k).adopt c) hr
  have hscopes : ((analyze nodes).scopes.filter fun s => s.first < d).length =
      ((outline nodes).regions.filter fun r => r.first < d).length := by
    rw [analyze, Outline.scopes, List.filter_map, List.length_map]
    rfl
  rw [hscopes, hplaced.regions_eq, List.filter_append, List.filter_append,
    List.filter_eq_self.2, List.filter_eq_nil_iff.2, List.filter_eq_nil_iff.2, List.append_nil,
    List.append_nil, hplaced.count]
  · intro s hs
    have hlt := hbehind _ hmem s hs
    rw [hroot] at hlt
    simpa using Nat.le_of_lt hlt
  · intro s hs
    obtain ⟨s', -, rfl⟩ := List.mem_map.1 hs
    change ¬decide (s'.first + d < d) = true
    simp
  · intro s hs
    have hlt := hbefore s hs _ (List.mem_append_left _ hmem)
    rw [hroot] at hlt
    simpa using hlt

end

end Placed

end QSource
