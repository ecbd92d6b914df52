/-
**A lambda nests the same wherever it stands.**

From its opening brace on, a pass works on a sequence of its own, and it does not come back to what
stands before the brace until the brace is closed.  So if some tokens nest as one lambda, then they do
so anywhere among other tokens: the pass goes through the same states, with more delimiters open below
the brace.  It can only fail by having too many of them open.

Main definitions:

* `QSource.Nesting.Reads` — a pass goes on with one token after the other;
* `QSource.Nesting.within` — a pass with other delimiters open below, in place of its lowest one;
* `QSource.Nesting.Holds` — a node is among all that a pass has put together.

Main results:

* `QSource.Nesting.Step.within` — **a step stays a step as long as the lowest delimiter is open**, if
  not too many are open;
* `QSource.Nesting.Step.holds` — nodes in delimiters stay in the tree;
* `QSource.mem_all_of_parse_lambda` — **a lambda nests the same wherever it stands**.
-/

import QSource.Proofs.Tree.Relabel
import QSource.Proofs.Tree.Shape

set_option relaxedAutoImplicit false
set_option autoImplicit false

namespace QSource

namespace Nesting

/-! ### Passes in pieces -/

/-- A pass goes on with one token after the other. -/
inductive Reads : Nesting → List Token → Nesting → Prop
  | nil {p : Nesting} : Reads p [] p
  | cons {p q r : Nesting} {token : Token} {tokens : List Token} (hstep : Step p token q)
      (hrest : Reads q tokens r) : Reads p (token :: tokens) r

theorem exists_step_of_run {p : Nesting} {token : Token} {tokens : List Token} {nodes : List Node}
    (h : p.run (token :: tokens) = .ok nodes) : ∃ q, Step p token q ∧ q.run tokens = .ok nodes := by
  rw [run] at h
  split at h
  · next q hread => exact ⟨q, .of_read hread, h⟩
  · simp at h

theorem exists_reads_of_run {p : Nesting} {before behind : List Token} {nodes : List Node}
    (h : p.run (before ++ behind) = .ok nodes) : ∃ q, Reads p before q ∧ q.run behind = .ok nodes := by
  induction before generalizing p with
  | nil => exact ⟨p, .nil, h⟩
  | cons token before ih =>
      obtain ⟨p', hstep, hrun⟩ := exists_step_of_run h
      obtain ⟨q, hreads, hrun⟩ := ih hrun
      exact ⟨q, .cons hstep hreads, hrun⟩

theorem Reads.run_append {p q : Nesting} {tokens : List Token} (h : Reads p tokens q)
    (rest : List Token) : p.run (tokens ++ rest) = q.run rest := by
  induction h with
  | nil => rfl
  | cons hstep _ ih =>
      rw [List.cons_append, run, hstep.read_eq]
      exact ih

theorem Reads.map {f : Token → Token} (hkind : ∀ t, (f t).kind = t.kind) {p q : Nesting}
    {tokens : List Token} (h : Reads p tokens q) : Reads (p.map f) (tokens.map f) (q.map f) := by
  induction h with
  | nil => exact .nil
  | cons hstep _ ih => exact .cons (hstep.map hkind) ih

/-! ### The lowest delimiter -/

/-- The lowest delimiter that is open was so before, unless it has just been opened. -/
theorem Step.getLast?_opened {p q : Nesting} {token : Token} (h : Step p token q) {d : Opened}
    (hlast : q.opened.getLast? = some d) (htoken : token ≠ d.first) :
    p.opened.getLast? = some d := by
  cases h with
  | piece | closeQuote | openQuote | sign | leaf => exact hlast
  | @opening nodes opened _ pair hkind hdepth =>
      cases opened with
      | nil =>
          obtain rfl : ⟨pair, token, nodes⟩ = d := by simpa using hlast
          exact absurd rfl htoken
      | cons e opened => simpa using hlast
  | @closing nodes d' rest _ hkind =>
      cases rest with
      | nil => simp at hlast
      | cons e rest => simpa using hlast

theorem Reads.getLast?_opened {p q : Nesting} {tokens : List Token} (h : Reads p tokens q)
    {d : Opened} (hlast : q.opened.getLast? = some d) (htokens : d.first ∉ tokens) :
    p.opened.getLast? = some d := by
  induction h with
  | nil => exact hlast
  | cons hstep _ ih =>
      obtain ⟨htoken, htokens⟩ := List.ne_and_not_mem_of_not_mem_cons htokens
      exact hstep.getLast?_opened (ih hlast htokens) htoken.symm

/-- A pass with other delimiters open below, in place of its lowest one. -/
def within (outer : List Opened) (p : Nesting) : Nesting :=
  ⟨p.nodes, p.opened.dropLast ++ outer, p.quote⟩

/-- **A step stays a step as long as the lowest delimiter is open**, if not too many are open then. -/
theorem Step.within {p q : Nesting} {token : Token} (h : Step p token q) {d : Opened}
    (hp : p.opened.getLast? = some d) (hq : q.opened.getLast? = some d) {outer : List Opened}
    (houter : outer.head?.map Opened.pair = some d.pair) :
    Step (p.within outer) token (q.within outer) ∨
      ∃ e, (p.within outer).read token = .error e := by
  cases h with
  | piece hkind => exact Or.inl (.piece hkind)
  | closeQuote hkind => exact Or.inl (.closeQuote hkind)
  | openQuote hkind => exact Or.inl (.openQuote hkind)
  | sign hkind => exact Or.inl (.sign hkind)
  | leaf hkind => exact Or.inl (.leaf hkind)
  | @opening nodes opened _ pair hkind hdepth =>
      cases opened with
      | nil => simp at hp
      | cons e opened =>
          by_cases hroom : ((e :: opened).dropLast ++ outer).length < maxDepth
          · exact Or.inl (.opening hkind hroom)
          · refine Or.inr ⟨⟨.tooDeep, token⟩, ?_⟩
            simp only [read, readPlain, Nesting.within, hkind]
            exact if_neg hroom
  | @closing nodes d' rest _ hkind =>
      -- the brace below tells whether brackets hold parameters, in the place of the lowest one
      have haround : (rest.dropLast ++ outer).head?.map Opened.pair =
          rest.head?.map Opened.pair := by
        rcases rest with _ | ⟨e, _ | ⟨e', rest⟩⟩
        · simp at hq
        · obtain rfl : e = d := by simpa using hq
          simpa using houter
        · rfl
      cases rest with
      | nil => simp at hq
      | cons e rest =>
          left
          have hclosing := @Step.closing nodes d' ((e :: rest).dropLast ++ outer) token hkind
          rwa [haround] at hclosing

/-- A pass with other delimiters open below goes on as long as the lowest one is open, if it does not
fail. -/
theorem Reads.run_within {p q : Nesting} {tokens : List Token} (h : Reads p tokens q) {d : Opened}
    (hlast : q.opened.getLast? = some d) (htokens : d.first ∉ tokens) {outer : List Opened}
    (houter : outer.head?.map Opened.pair = some d.pair) {rest : List Token} {nodes : List Node}
    (hrun : (p.within outer).run (tokens ++ rest) = .ok nodes) :
    (q.within outer).run rest = .ok nodes := by
  induction h with
  | nil => exact hrun
  | cons hstep hreads ih =>
      obtain ⟨htoken, htokens⟩ := List.ne_and_not_mem_of_not_mem_cons htokens
      have hnext := hreads.getLast?_opened hlast htokens
      have hp := hstep.getLast?_opened hnext htoken.symm
      rw [List.cons_append, run] at hrun
      rcases hstep.within hp hnext houter with hwithin | ⟨e, herror⟩
      · rw [hwithin.read_eq] at hrun
        exact ih hlast htokens hrun
      · simp [herror] at hrun

/-! ### Nodes stay -/

/-- A node is among all that a pass has put together. -/
def Holds (x : Node) (p : Nesting) : Prop :=
  x ∈ Node.all p.nodes ∨ ∃ d ∈ p.opened, x ∈ Node.all d.before

section

variable {form : Enclosure} {first last : Token} {items : List Node}

theorem not_mem_all_of_blanks? {nodes : List Node} {gap : List Token} (h : blanks? nodes = some gap) :
    .enclosed form first items last ∉ Node.all nodes := by
  fun_induction blanks? nodes generalizing gap with
  | case1 => simp
  | case2 token nodes hkind ih =>
      obtain ⟨rest, hrest, -⟩ := Option.map_eq_some_iff.1 h
      simpa using ih hrest
  | case3 => simp at h
  | case4 => simp at h

theorem mem_all_assign {nodes : List Node} (h : .enclosed form first items last ∈ Node.all nodes)
    (colon : Token) : .enclosed form first items last ∈ Node.all (assign nodes colon) := by
  fun_cases assign nodes colon with
  | case1 operator nodes => simpa using h
  | case2 gap operator nodes hgap => simpa using h
  | case3 gap operator nodes hgap => simpa using h
  | case4 => simpa using h

theorem mem_all_enclose {d : Opened} {nodes : List Node}
    (h : .enclosed form first items last ∈ Node.all nodes ∨
      .enclosed form first items last ∈ Node.all d.before)
    (around : Option Delimiter) (close : Token) :
    .enclosed form first items last ∈ Node.all (enclose d around nodes.reverse close) := by
  obtain ⟨pair, brace, before⟩ := d
  cases pair with
  | paren | brace => rcases h with h | h <;> simp [enclose, h]
  | bracket =>
      simp only [enclose]
      split
      · next gap hgap =>
          -- brackets that hold parameters have only blanks before them
          rcases h with h | h
          · simp [h]
          · split at hgap
            · exact absurd h (not_mem_all_of_blanks? hgap)
            · simp at hgap
      · rcases h with h | h <;> simp [h]

/-- Nodes in delimiters stay in the tree. -/
theorem Step.holds {p q : Nesting} {token : Token} (h : Step p token q)
    (hp : p.Holds (.enclosed form first items last)) : q.Holds (.enclosed form first items last) := by
  cases h with
  | piece | openQuote => exact hp
  | closeQuote | leaf => exact hp.imp_left fun hmem => by simp [hmem]
  | @opening nodes opened _ pair hkind hdepth =>
      rcases hp with hmem | ⟨d, hd, hmem⟩
      · exact Or.inr ⟨_, List.mem_cons_self .., hmem⟩
      · exact Or.inr ⟨d, List.mem_cons_of_mem _ hd, hmem⟩
  | @closing nodes d rest _ hkind =>
      rcases hp with hmem | ⟨e, he, hmem⟩
      · exact Or.inl (mem_all_enclose (Or.inl hmem) _ _)
      · rcases List.mem_cons.1 he with rfl | he
        · exact Or.inl (mem_all_enclose (Or.inr hmem) _ _)
        · exact Or.inr ⟨e, he, hmem⟩
  | sign => exact hp.imp_left fun hmem => mem_all_assign hmem _

theorem mem_all_of_run {p : Nesting} {tokens : List Token} {nodes : List Node}
    (hp : p.Holds (.enclosed form first items last)) (h : p.run tokens = .ok nodes) :
    .enclosed form first items last ∈ Node.all nodes := by
  have hholds : Holds (.enclosed form first items last) ⟨nodes.reverse, [], none⟩ :=
    @run_invariant (fun p _ => p.Holds (.enclosed form first items last))
      (fun hp hstep => hstep.holds hp) p [] tokens nodes hp h
  simpa [Holds] using hholds

end

end Nesting

/-! ### Lambdas -/

section

variable {tokens : List Token} {first last : Token} {items : List Node}

open Nesting

/-- A pass over tokens that nest as one lambda has the brace open from the first of them to the
last. -/
theorem reads_of_parse_lambda (h : parse tokens = .ok [.enclosed .lambda first items last]) :
    tokens = first :: (Node.allTokens items ++ [last]) ∧
      Reads ⟨[], [⟨.brace, first, []⟩], none⟩ (Node.allTokens items)
        ⟨items.reverse, [⟨.brace, first, []⟩], none⟩ := by
  have htokens : tokens = first :: (Node.allTokens items ++ [last]) := by
    rw [← allTokens_parse h]
    simp [Node.tokens, Enclosure.gap]
  subst htokens
  refine ⟨rfl, ?_⟩
  obtain ⟨hfirst, hlast, -⟩ := fits_parse h _ (Node.mem_all_of_mem (List.mem_singleton.2 rfl))
  have hopening := @Step.opening [] [] first .brace hfirst (by decide)
  obtain ⟨p, hstep, hrun⟩ := exists_step_of_run h
  obtain rfl : ⟨[], [⟨.brace, first, []⟩], none⟩ = p :=
    Except.ok.inj (hopening.read_eq.symm.trans hstep.read_eq)
  obtain ⟨q, hreads, hrun⟩ := exists_reads_of_run hrun
  obtain ⟨r, hstep, hrun⟩ := exists_step_of_run hrun
  rw [run] at hrun
  obtain rfl := eq_of_finish hrun
  rw [List.reverse_singleton] at hstep
  have hclosing : last.kind = .closing .brace := hlast
  -- the last token closes the brace, and nothing stands before the lambda
  generalize hr : Nesting.mk [.enclosed .lambda first items last] [] none = r at hstep
  cases hstep with
  | piece hkind => simp [hclosing] at hkind
  | closeQuote hkind => simp [hclosing] at hkind
  | openQuote hkind => simp [hclosing] at hkind
  | opening hkind => simp [hclosing] at hkind
  | sign hkind => simp [hclosing] at hkind
  | leaf hkind => simp [hclosing, Kind.leafForm?] at hkind
  | @closing nodes d rest _ hkind =>
      obtain ⟨pair, brace, before⟩ := d
      obtain rfl : .brace = pair := by simpa [hclosing] using hkind
      obtain ⟨⟨⟨rfl, rfl⟩, rfl⟩, rfl⟩ :
          ((first = brace ∧ items = nodes.reverse) ∧ [] = before) ∧ [] = rest := by
        simpa [enclose] using hr
      rwa [List.reverse_reverse]

/-- **A lambda nests the same wherever it stands.**  The new tokens have the old kinds, and their
numbers are moved on. -/
theorem mem_all_of_parse_lambda (hnumbered : Token.Numbered tokens)
    (h : parse tokens = .ok [.enclosed .lambda first items last]) {f : Token → Token} {d : Nat}
    (hkind : ∀ t, (f t).kind = t.kind) (hindex : ∀ t, (f t).index = t.index + d)
    {before behind : List Token} {nodes : List Node}
    (hcontext : parse (before ++ tokens.map f ++ behind) = .ok nodes) :
    (Node.enclosed .lambda first items last).map f ∈ Node.all nodes := by
  obtain ⟨htokens, hreads⟩ := reads_of_parse_lambda h
  obtain ⟨hfirst, hlast, -⟩ := fits_parse h _ (Node.mem_all_of_mem (List.mem_singleton.2 rfl))
  have hinside : f first ∉ (Node.allTokens items).map f := by
    rw [htokens] at hnumbered
    obtain ⟨hstart, hcount⟩ := Token.countFrom_cons.1 hnumbered.countFrom
    intro hmem
    obtain ⟨t, ht, heq⟩ := List.mem_map.1 hmem
    have hlater := (hcount.index_mem (List.mem_append_left _ ht)).1
    have hsame := congrArg Token.index heq
    rw [hindex, hindex] at hsame
    omega
  rw [List.append_assoc, htokens, List.map_cons, List.map_append, List.cons_append,
    List.append_assoc] at hcontext
  obtain ⟨p, -, hrun⟩ := exists_reads_of_run hcontext
  obtain ⟨q, hstep, hrun⟩ := exists_step_of_run hrun
  have hopening : (f first).kind = .opening .brace := (hkind first).trans hfirst
  have hclosing : (f last).kind = .closing .brace := (hkind last).trans hlast
  cases hstep with
  | piece hkind => simp [hopening] at hkind
  | closeQuote hkind => simp [hopening] at hkind
  | openQuote hkind => simp [hopening] at hkind
  | closing hkind => simp [hopening] at hkind
  | sign hkind => simp [hopening] at hkind
  | leaf hkind => simp [hopening, Kind.leafForm?] at hkind
  | @opening nodes' opened _ pair hpair hdepth =>
      obtain rfl : .brace = pair := by simpa [hopening] using hpair
      -- from the brace on the pass goes on as it did, up to the last token
      have hinner : Nesting.run ⟨items.reverse.map (Node.map f), ⟨.brace, f first, nodes'⟩ :: opened,
          none⟩ (f last :: behind) = .ok nodes :=
        (hreads.map hkind).run_within (d := ⟨.brace, f first, []⟩) rfl hinside rfl hrun
      have hclose := @Step.closing (items.reverse.map (Node.map f)) ⟨.brace, f first, nodes'⟩ opened
        (f last) hclosing
      rw [run, hclose.read_eq] at hinner
      rw [Node.map_enclosed]
      refine mem_all_of_run (Or.inl ?_) hinner
      simp [enclose, Enclosure.map]

end

end QSource
