/-
**Rules on tokens that have no scopes in common.**

The rules compare tokens of a list with each other: by the scopes that own them, by those that they
stand in, and by the places next to each other.  When a list is put together from two that have scopes
of their own, with a semicolon between them, the rules object to what they object to in the two parts.
Only a global may be used in the other part.  The rule about long lines is left aside, since a line
goes on behind a semicolon.

Main definitions:

* `QSource.Foreign` — the variable of a token occurs nowhere among others;
* `QSource.Apart` — **two lists with scopes of their own**, the one before the other;
* `QSource.Coherent` — what annotations say together;
* `QSource.AnnotatedToken.isReadIn` — others read the global that a token names;
* `QSource.Separated` — two lists with a semicolon between them.

Main results:

* `QSource.firstExcess_append` — things are counted apart for different scopes;
* `QSource.constantsFrom_append` — quoted texts that are closed are put together apart;
* `QSource.unusedVars_append` — only globals are used in the other part;
* `QSource.Rule.flagged_append` — **the other rules object to what they object to in the two parts**.
-/

import QSource.Proofs.Lint.Relabel
import QSource.Proofs.Token.Quotes

set_option relaxedAutoImplicit false
set_option autoImplicit false

namespace QSource

/-! ### Variables of one part -/

/-- The variable of a token occurs nowhere among others: another scope owns each of them, or none. -/
def Foreign (t : AnnotatedToken) (others : List AnnotatedToken) : Prop :=
  ∀ u ∈ others, t.binding ≠ u.binding

namespace Foreign

variable {t : AnnotatedToken} {others : List AnnotatedToken}

theorem filter (h : Foreign t others) (p : AnnotatedToken → Bool) : Foreign t (others.filter p) :=
  fun u hu => h u (List.mem_filter.1 hu).1

theorem sameVariable_eq_false (h : Foreign t others) {u : AnnotatedToken} (hu : u ∈ others) :
    sameVariable t u = false := by
  rw [sameVariable, beq_eq_false_iff_ne.2 (h u hu), Bool.and_false]

theorem any_sameVariable (h : Foreign t others) : others.any (sameVariable t) = false :=
  List.any_eq_false.2 fun _ hu => ne_true_of_eq_false (h.sameVariable_eq_false hu)

theorem earlierUses_eq_nil (h : Foreign t others) : earlierUses others t = [] := by
  refine List.filter_eq_nil_iff.2 fun u hu => ?_
  rw [h.sameVariable_eq_false hu, Bool.and_false, Bool.false_and]
  exact Bool.false_ne_true

end Foreign

theorem earlierUses_append (xs ys : List AnnotatedToken) (t : AnnotatedToken) :
    earlierUses (xs ++ ys) t = earlierUses xs t ++ earlierUses ys t := List.filter_append ..

/-- **Two lists of tokens with scopes of their own**, the one before the other. -/
structure Apart (a b : List AnnotatedToken) : Prop where
  index : ∀ t ∈ a, ∀ u ∈ b, t.index < u.index
  scope : ∀ t ∈ a, ∀ u ∈ b, t.scope ≠ none → t.scope ≠ u.scope
  binding : ∀ t ∈ a, ∀ u ∈ b, t.binding ≠ none → t.binding ≠ u.binding

/-- What annotations say together: parameters and locals have owners, and a name that is read before
it is written is written. -/
structure Coherent (tokens : List AnnotatedToken) : Prop where
  owner : ∀ t ∈ tokens, t.role = some .parameter ∨ t.role = some .localVar → t.binding ≠ none
  written : ∀ t ∈ tokens, t.reversed = true → t.isAssignment = true

/-- Whether others read the global that a token names: one of them is a reference to it, or an
assignment with an operator. -/
def AnnotatedToken.isReadIn (others : List AnnotatedToken) (t : AnnotatedToken) : Bool :=
  t.role == some .globalVar && others.any fun u =>
    u.role == some .globalVar && u.text == t.text &&
      (u.isReference || u.isAssignment && u.reversed)

namespace Apart

variable {a b : List AnnotatedToken}

theorem foreign_left (h : Apart a b) {t : AnnotatedToken} (ht : t ∈ a) (hbinding : t.binding ≠ none) :
    Foreign t b := fun u hu => h.binding t ht u hu hbinding

theorem foreign_right (h : Apart a b) {t : AnnotatedToken} (ht : t ∈ b)
    (hbinding : t.binding ≠ none) : Foreign t a := by
  intro u hu heq
  exact h.binding u hu t ht (heq ▸ hbinding) heq.symm

end Apart

section

variable {a b : List AnnotatedToken} (h : Apart a b) (ha : Coherent a) (hb : Coherent b)

include h ha hb

theorem unusedParams_append : unusedParams (a ++ b) = unusedParams a ++ unusedParams b := by
  have howner : ∀ {t : AnnotatedToken}, t.isDeclaration = true → t.role = some .parameter := by
    intro t ht
    simp only [AnnotatedToken.isDeclaration, Bool.and_eq_true, beq_iff_eq] at ht
    exact ht.1
  simp only [unusedParams, List.filter_append, List.any_append]
  congr 1
  · refine List.filter_congr fun t ht => ?_
    cases hdeclared : t.isDeclaration with
    | false => rfl
    | true =>
        have hforeign := h.foreign_left ht (ha.owner t ht (Or.inl (howner hdeclared)))
        rw [(hforeign.filter _).any_sameVariable, Bool.or_false]
  · refine List.filter_congr fun t ht => ?_
    cases hdeclared : t.isDeclaration with
    | false => rfl
    | true =>
        have hforeign := h.foreign_right ht (hb.owner t ht (Or.inl (howner hdeclared)))
        rw [(hforeign.filter _).any_sameVariable, Bool.false_or]

theorem lateDeclarations_append :
    lateDeclarations (a ++ b) = lateDeclarations a ++ lateDeclarations b := by
  have howner : ∀ {t : AnnotatedToken}, isPlainDeclaration t = true → t.role = some .localVar := by
    intro t ht
    simp only [isPlainDeclaration, Bool.and_eq_true, beq_iff_eq] at ht
    exact ht.2
  simp only [lateDeclarations, List.filter_append, earlierUses_append]
  congr 1
  · refine List.filter_congr fun t ht => ?_
    cases hplain : isPlainDeclaration t with
    | false => rfl
    | true =>
        have hforeign := h.foreign_left ht (ha.owner t ht (Or.inr (howner hplain)))
        rw [(hforeign.filter _).earlierUses_eq_nil, List.append_nil]
  · refine List.filter_congr fun t ht => ?_
    cases hplain : isPlainDeclaration t with
    | false => rfl
    | true =>
        have hforeign := h.foreign_right ht (hb.owner t ht (Or.inr (howner hplain)))
        rw [(hforeign.filter _).earlierUses_eq_nil, List.nil_append]

end

/-! ### Globals -/

/-- Whether some of `others` is a global with the text of a token, and not the token itself. -/
theorem any_reader_eq_isReadIn {others : List AnnotatedToken} (hothers : Coherent others)
    {t : AnnotatedToken} (hindex : ∀ u ∈ others, u.index ≠ t.index)
    (hrole : t.role = some .globalVar) :
    (others.filter AnnotatedToken.reads).any (fun other => other.index != t.index &&
      other.role == some .globalVar && other.text == t.text) = t.isReadIn others := by
  rw [AnnotatedToken.isReadIn, beq_iff_eq.2 hrole, Bool.true_and, List.any_filter]
  refine any_congr_of_mem fun u hu => ?_
  have hreads : u.reads = (u.isReference || u.isAssignment && u.reversed) := by
    cases hreversed : u.reversed with
    | false => simp [AnnotatedToken.reads, hreversed]
    | true => simp [AnnotatedToken.reads, hreversed, hothers.written u hu hreversed]
  rw [bne_iff_ne.2 (hindex u hu), Bool.true_and, hreads, Bool.and_comm]

/-- A variable is unused among two lists if it is so in its own one, and if it is no global that the
other one reads. -/
theorem lacksUse_append {own others readers : List AnnotatedToken} (hothers : Coherent others)
    {t : AnnotatedToken} (howner : t.role = some .localVar → Foreign t others)
    (hindex : ∀ u ∈ others, u.index ≠ t.index)
    (hreaders : readers.Perm (own ++ others.filter AnnotatedToken.reads)) :
    lacksUse readers t = (lacksUse own t && !t.isReadIn others) := by
  unfold lacksUse
  split
  · next hrole =>
      have hnot : t.isReadIn others = false := by simp [AnnotatedToken.isReadIn, hrole]
      rw [hreaders.any_eq, List.any_append, ((howner hrole).filter _).any_sameVariable, hnot,
        Bool.or_false, Bool.not_false, Bool.and_true]
  · next hrole =>
      rw [hreaders.any_eq, List.any_append, any_reader_eq_isReadIn hothers hindex hrole,
        Bool.not_or]
  · rfl

/-- **Only globals are used in the other part.** -/
theorem unusedVars_append {a b : List AnnotatedToken} (h : Apart a b) (ha : Coherent a)
    (hb : Coherent b) :
    unusedVars (a ++ b) = ((unusedVars a).filter fun t => !t.isReadIn b) ++
      (unusedVars b).filter fun t => !t.isReadIn a := by
  simp only [unusedVars, List.filter_append, List.filter_filter]
  congr 1
  · refine List.filter_congr fun t ht => ?_
    rw [lacksUse_append hb (fun hrole => h.foreign_left ht (ha.owner t ht (Or.inr hrole)))
      (fun u hu => (Nat.ne_of_lt (h.index t ht u hu)).symm) (List.Perm.refl _), ← Bool.and_assoc,
      Bool.and_comm]
  · refine List.filter_congr fun t ht => ?_
    rw [lacksUse_append ha (fun hrole => h.foreign_right ht (hb.owner t ht (Or.inr hrole)))
      (fun u hu => Nat.ne_of_lt (h.index u hu t ht)) List.perm_append_comm, ← Bool.and_assoc,
      Bool.and_comm]

/-! ### Sizes -/

section

variable {κ : Type} [BEq κ] [LawfulBEq κ] (limit : Nat)

/-- What was seen of other scopes makes no difference. -/
theorem firstExcessFrom_append_seen {seen foreign : List (ScopeId × κ)} {items : List (Counted κ)}
    (h : ∀ entry ∈ foreign, ∀ item ∈ items, entry.1 ≠ item.scope) :
    firstExcessFrom limit (seen ++ foreign) items = firstExcessFrom limit seen items := by
  induction items generalizing seen with
  | nil => rfl
  | cons item rest ih =>
      have hrest := fun seen' => @ih seen' fun entry hentry other hother =>
        h entry hentry other (List.mem_cons_of_mem _ hother)
      have hscope : ∀ entry ∈ foreign, entry.1 ≠ item.scope :=
        fun entry hentry => h entry hentry item (List.mem_cons_self ..)
      have hseen : (seen ++ foreign).contains (item.scope, item.key) =
          seen.contains (item.scope, item.key) := by
        rw [Bool.eq_iff_iff, List.contains_iff_mem, List.contains_iff_mem, List.mem_append]
        exact or_iff_left fun hmem => hscope _ hmem rfl
      have hcount : (seen ++ foreign).countP (fun entry => entry.1 == item.scope) =
          seen.countP (fun entry => entry.1 == item.scope) := by
        have hnone : foreign.countP (fun entry => entry.1 == item.scope) = 0 :=
          List.countP_eq_zero.2 fun entry hentry => by simpa using hscope entry hentry
        rw [List.countP_append, hnone, Nat.add_zero]
      rw [firstExcessFrom, firstExcessFrom, hseen, hcount, hrest, ← List.cons_append, hrest]

/-- **Things are counted apart for different scopes.** -/
theorem firstExcess_append {xs ys : List (Counted κ)}
    (h : ∀ x ∈ xs, ∀ y ∈ ys, x.scope ≠ y.scope) :
    firstExcess limit (xs ++ ys) = firstExcess limit xs ++ firstExcess limit ys := by
  -- on the first list, with what was seen before it
  suffices hseen : ∀ seen : List (ScopeId × κ), (∀ entry ∈ seen, ∀ y ∈ ys, entry.1 ≠ y.scope) →
      firstExcessFrom limit seen (xs ++ ys) =
        firstExcessFrom limit seen xs ++ firstExcess limit ys from hseen [] (by simp)
  induction xs with
  | nil =>
      intro seen hseen
      have hforeign := @firstExcessFrom_append_seen κ _ _ limit [] seen ys hseen
      rwa [List.nil_append] at hforeign
  | cons x xs ih =>
      intro seen hseen
      have hrest := ih fun x' hx' => h x' (List.mem_cons_of_mem _ hx')
      rw [List.cons_append, firstExcessFrom, firstExcessFrom]
      split
      · exact hrest seen hseen
      · rw [hrest, List.append_assoc]
        exact List.forall_mem_cons.2 ⟨h x (List.mem_cons_self ..), hseen⟩

/-- The same, where the scopes that count are those of tokens. -/
theorem firstExcess_append_of_owner {owner : AnnotatedToken → Option ScopeId}
    {a b : List AnnotatedToken} (h : ∀ t ∈ a, ∀ u ∈ b, owner t ≠ none → owner t ≠ owner u)
    {xs ys : List (Counted κ)} (hxs : ∀ x ∈ xs, ∃ t ∈ a, owner t = some x.scope)
    (hys : ∀ y ∈ ys, ∃ u ∈ b, owner u = some y.scope) :
    firstExcess limit (xs ++ ys) = firstExcess limit xs ++ firstExcess limit ys := by
  refine firstExcess_append limit fun x hx y hy heq => ?_
  obtain ⟨t, ht, howner⟩ := hxs x hx
  obtain ⟨u, hu, howner'⟩ := hys y hy
  refine h t ht u hu (by simp [howner]) ?_
  rw [howner, howner', heq]

omit [BEq κ] [LawfulBEq κ] in
/-- Things that are counted token by token count for the owners of the tokens. -/
theorem exists_owner_of_mem_filterMap {counts : AnnotatedToken → Bool}
    {owner : AnnotatedToken → Option ScopeId} {key : AnnotatedToken → κ}
    {tokens : List AnnotatedToken} {item : Counted κ}
    (h : item ∈ tokens.filterMap fun t =>
      if counts t then (owner t).map fun scope => ⟨scope, key t, t⟩ else none) :
    ∃ t ∈ tokens, owner t = some item.scope := by
  obtain ⟨hmem, -, howner, -⟩ := of_mem_filterMap_counted h
  exact ⟨item.token, hmem, howner⟩

end

/-! ### Quoted texts -/

/-- The pieces of a quoted text are put together until it is closed. -/
theorem exists_constantsFrom_quoted {pieces : List AnnotatedToken} {last : AnnotatedToken}
    (hpieces : ∀ t ∈ pieces, t.kind.isPiece = true) (hlast : last.kind = .closeQuote)
    (first : AnnotatedToken) (text : String) :
    ∃ whole, ∀ rest, constantsFrom (some (first, text)) (pieces ++ last :: rest) =
      constantAt first whole ++ constantsFrom none rest := by
  induction pieces generalizing text with
  | nil =>
      refine ⟨text, fun rest => ?_⟩
      rw [List.nil_append]
      simp only [constantsFrom, hlast]
  | cons t pieces ih =>
      obtain ⟨hpiece, hrest⟩ := List.forall_mem_cons.1 hpieces
      obtain ⟨whole, hwhole⟩ := ih hrest (text ++ t.text)
      refine ⟨whole, fun rest => ?_⟩
      rw [List.cons_append, ← hwhole rest]
      cases hkind : t.kind <;> simp [hkind, Kind.isPiece] at hpiece
      all_goals simp only [constantsFrom, hkind, Option.map_some]

/-- **Quoted texts that are closed are put together apart.** -/
theorem constantsFrom_append {a : List AnnotatedToken}
    (hclosed : ClosedQuotes (a.map (·.kind))) (b : List AnnotatedToken) :
    constantsFrom none (a ++ b) = constantsFrom none a ++ constantsFrom none b := by
  generalize hkinds : a.map (·.kind) = kinds at hclosed
  induction hclosed generalizing a with
  | nil =>
      rw [List.map_eq_nil_iff.1 hkinds]
      rfl
  | @plain kind kinds hkind hclosed ih =>
      obtain ⟨t, a, rfl, rfl, htail⟩ := List.map_eq_cons_iff.1 hkinds
      have hrest := ih htail
      rw [List.cons_append]
      cases hother : t.kind <;> simp [hother, Kind.ofQuote] at hkind
      all_goals simp only [constantsFrom, hother, hrest, List.append_assoc]
  | @quoted pieces kinds hpieces hclosed ih =>
      obtain ⟨first, tail, rfl, hfirst, htail⟩ := List.map_eq_cons_iff.1 hkinds
      obtain ⟨content, tail, rfl, hcontent, htail⟩ := List.map_eq_append_iff.1 htail
      obtain ⟨last, a, rfl, hlast, htail⟩ := List.map_eq_cons_iff.1 htail
      have hpiece : ∀ t ∈ content, t.kind.isPiece = true := fun t ht =>
        hpieces _ (hcontent ▸ List.mem_map_of_mem ht)
      obtain ⟨whole, hwhole⟩ := exists_constantsFrom_quoted hpiece hlast first "\""
      have hopen : ∀ rest, constantsFrom none (first :: (content ++ last :: rest)) =
          constantAt first whole ++ constantsFrom none rest := by
        intro rest
        rw [← hwhole rest]
        simp only [constantsFrom, hfirst]
      rw [List.cons_append, List.append_assoc, List.cons_append, hopen, hopen, ih htail,
        List.append_assoc]

theorem scope_of_mem_constantAt {token : AnnotatedToken} {text : String} {item : Counted String}
    (h : item ∈ constantAt token text) : item.token.scope = some item.scope := by
  rw [constantAt, Option.mem_toList] at h
  obtain ⟨scope, hscope, rfl⟩ := Option.map_eq_some_iff.1 h
  exact hscope

/-- A constant counts for the scope of the token that is blamed for it. -/
theorem scope_of_mem_constantsFrom {quote : Option (AnnotatedToken × String)}
    {tokens : List AnnotatedToken} {item : Counted String}
    (h : item ∈ constantsFrom quote tokens) : item.token.scope = some item.scope := by
  induction tokens generalizing quote with
  | nil => simp [constantsFrom] at h
  | cons t rest ih =>
      unfold constantsFrom at h
      split at h
      · exact ih h
      · exact ih h
      · exact ih h
      · rcases List.mem_append.1 h with h | h
        · split at h
          · exact scope_of_mem_constantAt h
          · simp at h
        · exact ih h
      · rcases List.mem_append.1 h with h | h
        · split at h
          · simp at h
          · exact scope_of_mem_constantAt h
        · exact ih h
      · exact ih h

theorem exists_scope_of_mem_countedConstants {tokens : List AnnotatedToken} {item : Counted String}
    (h : item ∈ countedConstants tokens) : ∃ t ∈ tokens, t.scope = some item.scope :=
  ⟨item.token, token_mem_of_mem_countedConstants h, scope_of_mem_constantsFrom h⟩

/-! ### Neighbours -/

theorem fixedSeeds_cons {t : AnnotatedToken} {rest : List AnnotatedToken}
    (h : ∀ draw range behind, rest = draw :: range :: behind →
      drawsFromInfinity t draw range = false) : fixedSeeds (t :: rest) = fixedSeeds rest := by
  rcases rest with _ | ⟨draw, _ | ⟨range, behind⟩⟩
  · rfl
  · rfl
  · rw [fixedSeeds, h draw range behind rfl, if_neg Bool.false_ne_true, List.nil_append]

/-- A semicolon is neither a seed nor a draw nor an infinity. -/
theorem fixedSeeds_append {sep : AnnotatedToken} (hsep : sep.kind = .semicolon)
    (a b : List AnnotatedToken) : fixedSeeds (a ++ sep :: b) = fixedSeeds a ++ fixedSeeds b := by
  have hseed : fixedSeeds (sep :: b) = fixedSeeds b :=
    fixedSeeds_cons fun draw range behind _ => by simp [drawsFromInfinity, hsep]
  have hdraw : ∀ seed, fixedSeeds (seed :: sep :: b) = fixedSeeds b := by
    intro seed
    rw [fixedSeeds_cons, hseed]
    rintro draw range behind heq
    obtain ⟨rfl, -⟩ := List.cons.inj heq
    simp [drawsFromInfinity, hsep]
  fun_induction fixedSeeds a with
  | case1 seed draw range rest ih =>
      rw [List.append_assoc, ← ih]
      rfl
  | case2 a hshort =>
      rcases a with _ | ⟨seed, _ | ⟨draw, _ | ⟨range, rest⟩⟩⟩
      · exact hseed
      · exact hdraw seed
      · rw [List.nil_append, List.cons_append, List.singleton_append, fixedSeeds_cons, hdraw]
        rintro draw' range behind heq
        obtain ⟨-, hrange⟩ := List.cons.inj heq
        obtain ⟨rfl, -⟩ := List.cons.inj hrange
        simp [drawsFromInfinity, hsep]
      · exact absurd rfl (hshort seed draw range rest)

/-! ### All rules -/

/-- **The other rules object to what they object to in the two parts**, if quoted texts are closed in
the first one and no infinity is drawn from across the cut. -/
theorem Rule.flagged_append (limits : Thresholds) {a b : List AnnotatedToken} (h : Apart a b)
    (ha : Coherent a) (hb : Coherent b) (hclosed : ClosedQuotes (a.map (·.kind)))
    (hseeds : fixedSeeds (a ++ b) = fixedSeeds a ++ fixedSeeds b) {rule : Rule}
    (hline : rule ≠ .lineLength) (hvar : rule ≠ .unusedVar) :
    rule.flagged limits (a ++ b) = rule.flagged limits a ++ rule.flagged limits b := by
  cases rule with
  | lineLength => exact absurd rfl hline
  | unusedVar => exact absurd rfl hvar
  | assignReservedWord | deprecatedDatetime | invalidAssign | invalidEscape =>
      exact List.filter_append ..
  | declaredAfterUse => exact lateDeclarations_append h ha hb
  | fixedSeed => exact hseeds
  | tooManyArguments =>
      rw [Rule.flagged, countedParams, List.filterMap_append]
      exact firstExcess_append_of_owner _ h.scope (fun _ => exists_owner_of_mem_filterMap)
        fun _ => exists_owner_of_mem_filterMap
  | tooManyConstants =>
      rw [Rule.flagged, countedConstants, constantsFrom_append hclosed]
      exact firstExcess_append_of_owner _ h.scope (fun _ => exists_scope_of_mem_countedConstants)
        fun _ => exists_scope_of_mem_countedConstants
  | tooManyGlobals =>
      rw [Rule.flagged, countedGlobals, List.filterMap_append]
      exact firstExcess_append_of_owner _ h.scope (fun _ => exists_owner_of_mem_filterMap)
        fun _ => exists_owner_of_mem_filterMap
  | tooManyLocals =>
      rw [Rule.flagged, countedLocals, List.filterMap_append]
      exact firstExcess_append_of_owner _ h.binding (fun _ => exists_owner_of_mem_filterMap)
        fun _ => exists_owner_of_mem_filterMap
  | unusedParam => exact unusedParams_append h ha hb

/-! ### A semicolon between the parts -/

/-- A semicolon of the script: nothing is known about it. -/
structure IsSeparator (t : AnnotatedToken) : Prop where
  kind : t.kind = .semicolon
  scope : t.scope = none
  role : t.role = none
  usage : t.usage = none
  reversed : t.reversed = false
  binding : t.binding = none

namespace IsSeparator

variable {sep : AnnotatedToken} (hsep : IsSeparator sep)

include hsep

theorem coherent : Coherent [sep] where
  owner := by simp [hsep.role]
  written := by simp [hsep.reversed]

theorem apart {b : List AnnotatedToken} (hindex : ∀ u ∈ b, sep.index < u.index) : Apart [sep] b where
  index := by simpa using hindex
  scope := by simp [hsep.scope]
  binding := by simp [hsep.binding]

theorem apart_cons {a b : List AnnotatedToken} (h : Apart a b)
    (hindex : ∀ t ∈ a, t.index < sep.index) : Apart a (sep :: b) where
  index t ht := List.forall_mem_cons.2 ⟨hindex t ht, h.index t ht⟩
  scope t ht := List.forall_mem_cons.2 ⟨by simp [hsep.scope], h.scope t ht⟩
  binding t ht := List.forall_mem_cons.2 ⟨by simp [hsep.binding], h.binding t ht⟩

theorem coherent_cons {b : List AnnotatedToken} (hb : Coherent b) : Coherent (sep :: b) where
  owner := List.forall_mem_cons.2 ⟨hsep.coherent.owner sep (by simp), hb.owner⟩
  written := List.forall_mem_cons.2 ⟨hsep.coherent.written sep (by simp), hb.written⟩

/-- No rule objects to a semicolon, but it may follow a long line. -/
theorem flagged_eq_nil (limits : Thresholds) {rule : Rule} (hline : rule ≠ .lineLength) :
    rule.flagged limits [sep] = [] := by
  obtain ⟨hkind, hscope, hrole, husage, hreversed, hbinding⟩ := hsep
  cases rule with
  | lineLength => exact absurd rfl hline
  | tooManyConstants => simp [Rule.flagged, countedConstants, constantsFrom, hkind]; rfl
  | tooManyArguments =>
      simp [Rule.flagged, countedParams, AnnotatedToken.isDeclaration, hrole]; rfl
  | tooManyGlobals => simp [Rule.flagged, countedGlobals, hrole]; rfl
  | tooManyLocals => simp [Rule.flagged, countedLocals, hrole]; rfl
  | fixedSeed => rfl
  | _ =>
      simp [Rule.flagged, reservedTargets, lateDeclarations, isPlainDeclaration, datetimes,
        literalTargets, badEscapes, unusedParams, unusedVars, AnnotatedToken.isDeclaration,
        AnnotatedToken.isIdentifier, AnnotatedToken.isAssignment, hkind, hrole, husage]

theorem isReadIn_cons (others : List AnnotatedToken) (t : AnnotatedToken) :
    t.isReadIn (sep :: others) = t.isReadIn others := by
  simp [AnnotatedToken.isReadIn, hsep.role]

end IsSeparator

/-- **Two lists with a semicolon between them**, whose tokens have nothing to do with each other. -/
structure Separated (a : List AnnotatedToken) (sep : AnnotatedToken) (b : List AnnotatedToken) :
    Prop where
  separator : IsSeparator sep
  apart : Apart a b
  left : Coherent a
  right : Coherent b
  before : ∀ t ∈ a, t.index < sep.index
  behind : ∀ u ∈ b, sep.index < u.index
  closed : ClosedQuotes (a.map (·.kind))

namespace Separated

variable {a b : List AnnotatedToken} {sep : AnnotatedToken} (h : Separated a sep b)

include h

/-- The rules object to what they object to on the two sides of a semicolon. -/
theorem flagged_append (limits : Thresholds) {rule : Rule} (hline : rule ≠ .lineLength)
    (hvar : rule ≠ .unusedVar) :
    rule.flagged limits (a ++ sep :: b) = rule.flagged limits a ++ rule.flagged limits b := by
  have hkind := h.separator.kind
  have hright := Rule.flagged_append limits (h.separator.apart h.behind) h.separator.coherent h.right
    (.plain (congrArg Kind.ofQuote hkind) .nil) (fixedSeeds_append hkind [] b) hline hvar
  rw [h.separator.flagged_eq_nil limits hline, List.nil_append, List.singleton_append] at hright
  have hseeds := (fixedSeeds_append hkind a b).trans
    (congrArg _ (fixedSeeds_append hkind [] b).symm)
  rw [← hright]
  exact Rule.flagged_append limits (h.separator.apart_cons h.apart h.before) h.left
    (h.separator.coherent_cons h.right) h.closed hseeds hline hvar

/-- A global may be used on the other side of a semicolon, and other variables may not. -/
theorem unusedVars_append :
    unusedVars (a ++ sep :: b) = ((unusedVars a).filter fun t => !t.isReadIn b) ++
      (unusedVars b).filter fun t => !t.isReadIn a := by
  have hnone : unusedVars [sep] = [] :=
    h.separator.flagged_eq_nil {} (by simp : Rule.unusedVar ≠ .lineLength)
  have hright := QSource.unusedVars_append (h.separator.apart h.behind) h.separator.coherent h.right
  have hread : ∀ t : AnnotatedToken, t.isReadIn [sep] = false := fun t => by
    rw [h.separator.isReadIn_cons]
    simp [AnnotatedToken.isReadIn]
  simp only [hnone, List.filter_nil, List.nil_append, List.singleton_append, hread, Bool.not_false,
    List.filter_true] at hright
  rw [QSource.unusedVars_append (h.separator.apart_cons h.apart h.before) h.left
    (h.separator.coherent_cons h.right), hright]
  simp only [h.separator.isReadIn_cons]

end Separated

end QSource
