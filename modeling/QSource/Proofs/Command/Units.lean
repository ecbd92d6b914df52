/-
**Units are checked apart from one another.**

A run of the command goes through the units that it finds at its paths.  Each of them either adds one
complaint to the errors or one report to the output, in the order in which they are found, and neither
depends on any other unit.  So what a run over two lists of paths leaves behind is put together from
what the runs over each of them leave behind.

How directories are walked, how arguments are read, how an error is told with its causes and how a value
is written in JSON are parameters here.  Of the last two, and of the log, no more is used than
`QSource.Command.Libraries.Documented` says.

A complaint repeats the name of its unit as it is.  So it is one line unless the name goes over several.

Main definitions:

* `QSource.Command.Libraries.Documented` — **what the libraries are relied on for**;
* `QSource.Report.Json.Describes`, `QSource.Report.Json.ReportsOn` — what a reader finds in a value;
* `QSource.Command.Entry` — a complaint about a unit, or a report on it;
* `QSource.Command.Contributes` — **what one unit adds to a run**;
* `QSource.Command.Account` — **what a run over units leaves behind**;
* `QSource.Command.Joined` — an outcome that is put together from two others;
* `QSource.Command.CheckedApart` — **what a run has of the runs over parts of its units**.

Main results:

* `QSource.Command.contributes_iff` — a unit adds one thing to a run;
* `QSource.Command.oneLine_of_contributes` — the reason of a complaint is on one line;
* `QSource.Command.account_perform` — every run over paths accounts for the units found there;
* `QSource.Command.perform_append_paths` — **units are checked apart from one another**;
* `QSource.Command.exists_complaint_on_two_lines` — a complaint about a name that goes over two lines.
-/

import Mathlib.Data.List.Basic
import Mathlib.Data.List.Forall2
import QSource.Command.Run
import QSource.Proofs.Token.Cuts
import QSource.Proofs.Tree.Balance

set_option relaxedAutoImplicit false
set_option autoImplicit false

namespace QSource

/-! ### Reading JSON values -/

namespace Report

/-- What stands in a value at the end of a row of keys. -/
def Json.get? : Json → List String → Option Json
  | value, [] => some value
  | .object members, key :: keys => (members.lookup key).bind fun value => value.get? keys
  | _, _ :: _ => none

/-- **A value describes a finding.** -/
structure Json.Describes (value : Json) (f : Finding) : Prop where
  ruleName : value.get? ["ruleName"] = some (.text f.rule.name)
  severity : value.get? ["severity"] = some (.text f.rule.severity.label)
  message : value.get? ["message"] = some (.text f.rule.message)
  startIndex : value.get? ["range", "startIndex"] = some (.number f.index)
  endIndex : value.get? ["range", "endIndex"] = some (.number f.index)
  start : value.get? ["span", "start"] = some (.number f.span.start)
  stop : value.get? ["span", "end"] = some (.number f.span.stop)
  line : value.get? ["position", "line"] = some (.number f.position.line)
  column : value.get? ["position", "column"] = some (.number f.position.column)

/-- **A value reports on a unit**: it has the name of the unit, and describes its findings one by
one. -/
structure Json.ReportsOn (value : Json) (name : String) (found : List Finding) : Prop where
  path : value.get? ["path"] = some (.text name)
  diagnostics : ∃ values, value.get? ["diagnostics"] = some (.array values) ∧
    List.Forall₂ Json.Describes values found

theorem describes_jsonFinding (f : Finding) : (jsonFinding f).Describes f :=
  ⟨rfl, rfl, rfl, rfl, rfl, rfl, rfl, rfl, rfl⟩

end Report

namespace Command

open Report

/-! ### The libraries -/

/-- **What the libraries are relied on for**, as they document it. -/
structure Libraries.Documented (lib : Libraries) : Prop where
  /-- An error is told together with its causes, and a colon between them. -/
  inline_eq : ∀ messages, lib.inline messages = ": ".intercalate messages
  /-- A value of numbers, texts, arrays and objects can be written. -/
  encode_ok : ∀ value, ∃ text, lib.encode value = .ok text
  /-- None of what the command logs is as much as a warning, so usually it is left out. -/
  log_eq : ∀ work, lib.log (directive 0) work = ""

theorem documented_standard : standard.Documented :=
  ⟨fun _ => rfl, fun value => ⟨value.render 0, rfl⟩, fun _ => rfl⟩

/-! ### Entries -/

/-- What a unit adds to a run: a complaint with the reason why it has no findings and the causes of
that, or a report. -/
inductive Entry where
  | complaint (name : String) (reasons : List String)
  | report (name : String) (found : List Finding)

namespace Entry

/-- The text of a complaint. -/
def complaintText : Entry → String
  | .complaint name reasons => "cannot analyze: " ++ ": ".intercalate (name :: reasons) ++ "\n"
  | .report _ _ => ""

/-- A line for each finding of a report. -/
def findingsText : Entry → String
  | .complaint _ _ => ""
  | .report name found => String.join (found.map fun f => s!"{name}:{f.render}\n")

/-- The name and the findings of a report. -/
def report? : Entry → Option (String × List Finding)
  | .complaint _ _ => none
  | .report name found => some (name, found)

/-- A complaint, or a report with an error among its findings. -/
def IsWrong : Entry → Prop
  | .complaint _ _ => True
  | .report _ found => ∃ f ∈ found, f.rule.severity = .error

end Entry

/-- The errors of a run: the complaints, one behind the other. -/
def errorsOf (entries : List Entry) : String := String.join (entries.map Entry.complaintText)

/-- **What one unit adds to a run.**  It is complained about if its bytes cannot be had or are no
text, if the text cannot be cut into tokens, and if these cannot be nested.  Otherwise its findings
are reported. -/
inductive Contributes (limits : Thresholds) : SourceUnit → Entry → Prop
  | unreadable {name : String} {e : ReadError} :
      Contributes limits ⟨name, .error e⟩
        (.complaint name [s!"failed to read source: {e.message}", e.message])
  | notText {name : String} {bytes : ByteArray} (hbytes : String.fromUTF8? bytes = none) :
      Contributes limits ⟨name, .ok bytes⟩ (.complaint name
        [s!"failed to read source: {ReadError.notText.message}", ReadError.notText.message])
  | notTokens {name : String} {bytes : ByteArray} {text : String} {e : LexError}
      (hbytes : String.fromUTF8? bytes = some text) (htokens : tokenize text = .error e) :
      Contributes limits ⟨name, .ok bytes⟩ (.complaint name [e.message])
  | notNested {name : String} {bytes : ByteArray} {text : String} {tokens : List Token}
      {e : ParseError} (hbytes : String.fromUTF8? bytes = some text)
      (htokens : tokenize text = .ok tokens) (hnodes : parse tokens = .error e) :
      Contributes limits ⟨name, .ok bytes⟩ (.complaint name [e.message])
  | checked {name : String} {bytes : ByteArray} {text : String} {found : List Finding}
      (hbytes : String.fromUTF8? bytes = some text) (hfound : checkText limits text = .ok found) :
      Contributes limits ⟨name, .ok bytes⟩ (.report name found)

/-- A text that ends no line. -/
def OneLine (s : String) : Prop := '\n' ∉ s.toList

instance (s : String) : Decidable (OneLine s) := inferInstanceAs (Decidable ('\n' ∉ s.toList))

section

variable (lib : Libraries)

/-- The output about entries: their findings line by line, or an array of values in JSON. -/
inductive Written (entries : List Entry) (values : List Json) : Format → String → Prop
  | text : Written entries values .text (String.join (entries.map Entry.findingsText))
  | json {text : String} (hencode : lib.encode (.array values) = .ok text) :
      Written entries values .json (text ++ "\n")

/-- **What a run over units leaves behind**: each unit adds one entry, in order, and these make up the
errors and the output.  Each of the values in JSON reports on one unit.  The exit code is 1 if something
is wrong with one of them, and 0 otherwise.  Each complaint is one line if the name of its unit is on
one. -/
structure Account (limits : Thresholds) (format : Format) (units : List SourceUnit)
    (entries : List Entry) (values : List Json) (outcome : Outcome) : Prop where
  contributes : List.Forall₂ (Contributes limits) units entries
  reports : List.Forall₂ (fun value report => value.ReportsOn report.1 report.2) values
    (entries.filterMap Entry.report?)
  finished : ∃ code output, outcome = .finished code output (errorsOf entries) ∧
    Written lib entries values format output ∧
    (code = 1 ↔ ∃ entry ∈ entries, entry.IsWrong) ∧ (code = 0 ∨ code = 1)
  oneLine : ∀ name reasons, .complaint name reasons ∈ entries →
    ∃ line, (Entry.complaint name reasons).complaintText = line ++ "\n" ∧
      (OneLine line ↔ OneLine name)

/-- The outcome `c` is put together from `a` and `b`: the errors and, in text, the output of `b` stand
behind those of `a`, an array holds the values of both, and the exit code is 1 if one of theirs is. -/
inductive Joined (values values' : List Json) : Format → Outcome → Outcome → Outcome → Prop
  | text {codeA codeB code : Nat} {outputA outputB errorsA errorsB : String}
      (hcode : code = 1 ↔ codeA = 1 ∨ codeB = 1) :
      Joined values values' .text (.finished codeA outputA errorsA) (.finished codeB outputB errorsB)
        (.finished code (outputA ++ outputB) (errorsA ++ errorsB))
  | json {codeA codeB code : Nat} {textA textB text errorsA errorsB : String}
      (hcode : code = 1 ↔ codeA = 1 ∨ codeB = 1) (hA : lib.encode (.array values) = .ok textA)
      (hB : lib.encode (.array values') = .ok textB)
      (hencode : lib.encode (.array (values ++ values')) = .ok text) :
      Joined values values' .json (.finished codeA (textA ++ "\n") errorsA)
        (.finished codeB (textB ++ "\n") errorsB) (.finished code (text ++ "\n") (errorsA ++ errorsB))

/-- **Two lists of units are checked apart**: a run over both of them accounts for the entries of the
first and then those of the second, and its outcome is put together from those of the runs over each. -/
def CheckedApart (o : Options) (units units' : List SourceUnit) (first second both : Outcome) : Prop :=
  ∃ entries entries' values values',
    Account lib o.thresholds o.format units entries values first ∧
    Account lib o.thresholds o.format units' entries' values' second ∧
    Account lib o.thresholds o.format (units ++ units') (entries ++ entries') (values ++ values') both ∧
    Joined lib values values' o.format first second both

end

/-! ### One unit -/

theorem checkText_eq_error {limits : Thresholds} {text : String} {e : SourceError}
    (h : checkText limits text = .error e) :
    (∃ e', tokenize text = .error e' ∧ e.message = e'.message) ∨
      ∃ tokens e', tokenize text = .ok tokens ∧ parse tokens = .error e' ∧
        e.message = e'.message := by
  rw [checkText, parseText] at h
  cases htokens : tokenize text with
  | error e' =>
      simp only [htokens, Except.error.injEq] at h
      exact Or.inl ⟨e', rfl, by rw [← h]; rfl⟩
  | ok tokens =>
      cases hnodes : parse tokens with
      | error e' =>
          simp only [htokens, hnodes, Except.error.injEq] at h
          exact Or.inr ⟨tokens, e', rfl, hnodes, by rw [← h]; rfl⟩
      | ok nodes => simp [htokens, hnodes] at h

/-- What is known of a unit, as an entry. -/
def Entry.ofChecked (c : Checked) : Entry :=
  match c.outcome with
  | .error e => .complaint c.name e.messages
  | .ok found => .report c.name found

/-- A unit adds what checking it comes to. -/
theorem contributes_ofChecked (limits : Thresholds) (u : SourceUnit) :
    Contributes limits u (.ofChecked (checkUnit limits u)) := by
  obtain ⟨name, content⟩ := u
  cases content with
  | error e => exact .unreadable
  | ok bytes =>
      cases hbytes : String.fromUTF8? bytes with
      | none =>
          simp only [checkUnit, SourceUnit.text, hbytes]
          exact .notText hbytes
      | some text =>
          cases hfound : checkText limits text with
          | ok found =>
              simp only [checkUnit, SourceUnit.text, hbytes, hfound]
              exact .checked hbytes hfound
          | error e =>
              simp only [checkUnit, SourceUnit.text, hbytes, hfound]
              change Contributes limits _ (.complaint name [e.message])
              rcases checkText_eq_error hfound with
                ⟨e', htokens, hmessage⟩ | ⟨tokens, e', htokens, hnodes, hmessage⟩
              · rw [hmessage]
                exact .notTokens hbytes htokens
              · rw [hmessage]
                exact .notNested hbytes htokens hnodes

/-- **A unit adds one thing to a run.** -/
theorem contributes_iff {limits : Thresholds} {u : SourceUnit} {entry : Entry} :
    Contributes limits u entry ↔ entry = .ofChecked (checkUnit limits u) := by
  constructor
  · intro h
    cases h with
    | unreadable => rfl
    | notText hbytes =>
        simp only [checkUnit, SourceUnit.text, hbytes]
        rfl
    | notTokens hbytes htokens =>
        simp only [checkUnit, SourceUnit.text, hbytes, checkText, parseText, htokens]
        rfl
    | notNested hbytes htokens hnodes =>
        simp only [checkUnit, SourceUnit.text, hbytes, checkText, parseText, htokens, hnodes]
        rfl
    | checked hbytes hfound =>
        simp only [checkUnit, SourceUnit.text, hbytes, hfound]
        rfl
  · rintro rfl
    exact contributes_ofChecked limits u

/-! ### Reasons on one line -/

theorem oneLine_append {s t : String} : OneLine (s ++ t) ↔ OneLine s ∧ OneLine t := by
  simp [OneLine]

theorem oneLine_repr (n : Nat) : OneLine n.repr := by
  rw [OneLine, Nat.repr_eq_ofList_toDigits, String.toList_ofList]
  intro h
  have hdigit := Nat.isDigit_of_mem_toDigits (by decide) (Nat.le_refl 10) h
  exact absurd hdigit (by decide)

theorem oneLine_lexError (e : LexError) : OneLine e.message := by
  have hobstacle : OneLine e.obstacle.message := by cases e.obstacle <;> decide
  unfold LexError.message
  simp only [oneLine_append, toString, oneLine_repr, and_true]
  exact ⟨by decide, hobstacle⟩

/-- A delimiter in a text is one character. -/
theorem oneLine_of_isDelimiter {text : String} {tokens : List Token}
    (htokens : tokenize text = .ok tokens) {t : Token} (ht : t ∈ tokens)
    (hkind : t.kind.isDelimiter = true) : OneLine t.text := by
  have hlexeme : t.toLexeme ∈ (scan none text.toList).lexemes := by
    rw [(eq_layOut_of_tokenize htokens).1] at ht
    rw [← Token.map_toLexeme_place 0 0 .origin (scan none text.toList).lexemes]
    exact List.mem_map_of_mem ht
  obtain ⟨prev, s, n, hlength, hchars⟩ := exists_of_mem_scan none text.toList _ hlexeme
  have htake : ∀ c : Char, c ≠ '\n' → (Pattern.char c).length? s = some n → '\n' ∉ s.take n := by
    intro c hc h
    cases s with
    | nil => simp
    | cons d s =>
        by_cases hd : d = c
        · subst hd
          obtain rfl : 1 = n := by simpa [Pattern.char, Pattern.length?] using h
          simpa using Ne.symm hc
        · simp [Pattern.char, Pattern.length?, hd] at h
  change t.text.toList = _ at hchars
  rw [OneLine, hchars]
  cases hk : t.kind with
  | opening pair =>
      rw [hk] at hlength
      exact htake _ (by cases pair <;> decide) hlength
  | closing pair =>
      rw [hk] at hlength
      exact htake _ (by cases pair <;> decide) hlength
  | _ => simp [hk, Kind.isDelimiter] at hkind

theorem oneLine_parseError {text : String} {tokens : List Token} {e : ParseError}
    (htokens : tokenize text = .ok tokens) (h : parse tokens = .error e) : OneLine e.message := by
  obtain ⟨hplace, hkind, hfault⟩ :=
    blamed_of_parse_eq_error (numbered_of_tokenize htokens) (closedQuotes_of_tokenize htokens) h
  have htext := oneLine_of_isDelimiter htokens (List.mem_of_getElem? hplace) hkind
  unfold ParseError.message
  cases hcause : e.fault with
  | unexpected => exact absurd hcause hfault
  | unmatched =>
      simp only [oneLine_append, toString, oneLine_repr, htext, and_true]
      exact ⟨by decide, by decide⟩
  | tooDeep =>
      simp only [oneLine_append, toString, oneLine_repr, and_true]
      exact ⟨by decide, by decide⟩

/-- What is not found in a file tree is missing, or would lie below a file. -/
theorem eq_of_locate_eq_error {around : List Directory} {names : List String} {tree : FileTree}
    {e : ReadError} (h : FileTree.locate around names tree = .error e) :
    e = .missing ∨ e = .notADirectory := by
  fun_induction FileTree.locate around names tree with
  | case1 => simp at h
  | case2 =>
      rw [Except.error.injEq] at h
      exact Or.inr h.symm
  | case3 around name rest entries hstays ih => exact ih h
  | case4 rest entries hstays =>
      rw [Except.error.injEq] at h
      exact Or.inl h.symm
  | case5 rest entries hstays parent outer ih => exact ih h
  | case6 around name rest entries hstays hup tree htree ih => exact ih h
  | case7 around name rest entries hstays hup htree =>
      rw [Except.error.injEq] at h
      exact Or.inl h.symm

theorem oneLine_of_mem_unitsBy {walk : String → Directory → List Visit} {root : Directory}
    {path name : String} {e : ReadError} (h : ⟨name, .error e⟩ ∈ unitsBy walk root path) :
    OneLine e.message := by
  have hlocate : root.locate path = .error e := by
    rw [unitsBy] at h
    split at h
    · next e' he' => simp_all
    · simp at h
    · simp at h
  have hreason : e = .missing ∨ e = .notADirectory := by
    rw [Directory.locate] at hlocate
    split at hlocate
    · exact Or.inl (Except.error.inj hlocate).symm
    · exact eq_of_locate_eq_error hlocate
  rcases hreason with rfl | rfl <;> decide

/-- **The reason of a complaint is on one line**, and so are its causes. -/
theorem oneLine_of_contributes {limits : Thresholds} {walk : String → Directory → List Visit}
    {root : Directory} {path : String} {u : SourceUnit} (hu : u ∈ unitsBy walk root path)
    {name : String} {reasons : List String} (h : Contributes limits u (.complaint name reasons)) :
    ∀ reason ∈ reasons, OneLine reason := by
  cases h with
  | unreadable =>
      have hmessage := oneLine_of_mem_unitsBy hu
      refine List.forall_mem_cons.2 ⟨?_, List.forall_mem_singleton.2 hmessage⟩
      simp only [oneLine_append, toString, hmessage, and_true]
      decide
  | notText hbytes => decide
  | notTokens hbytes htokens => exact List.forall_mem_singleton.2 (oneLine_lexError _)
  | notNested hbytes htokens hnodes =>
      exact List.forall_mem_singleton.2 (oneLine_parseError htokens hnodes)

/-- Messages on one line each are told on one line. -/
theorem oneLine_intercalate {name : String} {reasons : List String}
    (hreasons : ∀ reason ∈ reasons, OneLine reason) :
    OneLine (": ".intercalate (name :: reasons)) ↔ OneLine name := by
  induction reasons generalizing name with
  | nil => rw [String.intercalate_singleton]
  | cons reason reasons ih =>
      obtain ⟨hreason, hrest⟩ := List.forall_mem_cons.1 hreasons
      have hseparator : OneLine ": " := by decide
      rw [String.intercalate_cons_cons, oneLine_append, oneLine_append, ih hrest]
      simp only [hseparator, hreason, and_true]

/-- A complaint is one line if the name of its unit is on one. -/
theorem exists_line_of_reasons {name : String} {reasons : List String}
    (hreasons : ∀ reason ∈ reasons, OneLine reason) :
    ∃ line, (Entry.complaint name reasons).complaintText = line ++ "\n" ∧
      (OneLine line ↔ OneLine name) := by
  have hopening : OneLine "cannot analyze: " := by decide
  refine ⟨"cannot analyze: " ++ ": ".intercalate (name :: reasons), rfl, ?_⟩
  rw [oneLine_append, oneLine_intercalate hreasons]
  exact and_iff_right hopening

/-! ### Runs -/

theorem join_flatMap {α : Type} (f : α → List String) (xs : List α) :
    String.join (xs.flatMap f) = String.join (xs.map fun x => String.join (f x)) := by
  induction xs with
  | nil => rfl
  | cons x xs ih => rw [List.flatMap_cons, String.join_append, ih, List.map_cons, String.join_cons]

/-- The value that reports on a unit. -/
def Entry.value? : Entry → Option Json
  | .complaint _ _ => none
  | .report name found =>
    some (.object [("path", .text name), ("diagnostics", .array (found.map jsonFinding))])

theorem reportsOn_values (entries : List Entry) :
    List.Forall₂ (fun value report => value.ReportsOn report.1 report.2)
      (entries.filterMap Entry.value?) (entries.filterMap Entry.report?) := by
  induction entries with
  | nil => exact .nil
  | cons entry entries ih =>
      cases entry with
      | complaint name reasons => exact ih
      | report name found =>
          refine .cons ⟨rfl, found.map jsonFinding, rfl, ?_⟩ ih
          rw [List.forall₂_map_left_iff, List.forall₂_same]
          exact fun f _ => describes_jsonFinding f

theorem logChecking_eq {lib : Libraries} (hlib : lib.Documented) (u : SourceUnit) :
    logChecking lib 0 u = "" := by
  rw [logChecking]
  split
  · rfl
  · exact hlib.log_eq _

theorem complaint_eq {lib : Libraries} (hlib : lib.Documented) (c : Checked) :
    Checked.complaint (fun name e => lib.inline (name :: e.messages)) c =
      (Entry.ofChecked c).complaintText := by
  obtain ⟨name, outcome⟩ := c
  cases outcome with
  | error e =>
      simp only [Checked.complaint, hlib.inline_eq]
      rfl
  | ok found => rfl

theorem join_textLines (c : Checked) :
    String.join c.textLines = (Entry.ofChecked c).findingsText := by
  obtain ⟨name, outcome⟩ := c
  cases outcome <;> rfl

theorem jsonReport_eq (c : Checked) : c.jsonReport = (Entry.ofChecked c).value?.toList := by
  obtain ⟨name, outcome⟩ := c
  cases outcome <;> rfl

/-- The output about checked units is made up of their entries. -/
theorem exists_output_eq_ok {lib : Libraries} (hlib : lib.Documented) (format : Format)
    (checked : List Checked) : ∃ text, output lib format checked = .ok text ∧
      Written lib (checked.map .ofChecked) ((checked.map .ofChecked).filterMap Entry.value?) format
        text := by
  cases format with
  | text =>
      refine ⟨_, rfl, ?_⟩
      have hjoin : String.join (checked.flatMap Checked.textLines) =
          String.join ((checked.map Entry.ofChecked).map Entry.findingsText) := by
        rw [join_flatMap, List.map_map]
        exact congrArg String.join (List.map_congr_left fun c _ => join_textLines c)
      rw [hjoin]
      exact .text
  | json =>
      have hvalues : checked.flatMap Checked.jsonReport =
          (checked.map Entry.ofChecked).filterMap Entry.value? := by
        rw [List.filterMap_map, List.filterMap_eq_flatMap_toList]
        exact List.flatMap_congr fun c _ => jsonReport_eq c
      obtain ⟨text, htext⟩ := hlib.encode_ok (.array (checked.flatMap Checked.jsonReport))
      refine ⟨text ++ "\n", ?_, ?_⟩
      · rw [output, htext]
        rfl
      · rw [hvalues] at htext
        exact .json htext

theorem isWrong_iff (c : Checked) :
    (Entry.ofChecked c).IsWrong ↔ c.isFailed = true ∨ c.hasErrors = true := by
  obtain ⟨name, outcome⟩ := c
  cases outcome with
  | error e => simp [Checked.isFailed, Entry.ofChecked, Entry.IsWrong]
  | ok found => simp [Checked.isFailed, Checked.hasErrors, Entry.ofChecked, Entry.IsWrong]

theorem exitCode_eq_one_iff (failed hasErrors : Bool) :
    exitCode failed hasErrors = 1 ↔ failed = true ∨ hasErrors = true := by
  rw [exitCode, ← Bool.or_eq_true]
  split <;> simp_all

theorem exitCode_eq (failed hasErrors : Bool) :
    exitCode failed hasErrors = 0 ∨ exitCode failed hasErrors = 1 := by
  rw [exitCode]
  split
  · exact .inr rfl
  · exact .inl rfl

/-- The exit code is 1 if something is wrong with one of the checked units. -/
theorem exitCode_any_eq_one_iff (checked : List Checked) :
    exitCode (checked.any Checked.isFailed) (checked.any Checked.hasErrors) = 1 ↔
      ∃ entry ∈ checked.map Entry.ofChecked, entry.IsWrong := by
  simp only [exitCode_eq_one_iff, List.any_eq_true, List.mem_map, exists_exists_and_eq_and,
    isWrong_iff, and_or_left, exists_or]

/-- The entries of units. -/
def entriesOf (limits : Thresholds) (units : List SourceUnit) : List Entry :=
  units.map fun u => .ofChecked (checkUnit limits u)

/-- **Checking units leaves behind what they add**: the complaints, and the output about the others. -/
theorem exists_checkUnits_eq {lib : Libraries} (hlib : lib.Documented) (o : Options)
    (ho : o.verbosity = 0) (units : List SourceUnit) :
    ∃ code output,
      checkUnits lib o units = .finished code output (errorsOf (entriesOf o.thresholds units)) ∧
      Written lib (entriesOf o.thresholds units)
        ((entriesOf o.thresholds units).filterMap Entry.value?) o.format output ∧
      (code = 1 ↔ ∃ entry ∈ entriesOf o.thresholds units, entry.IsWrong) ∧
      (code = 0 ∨ code = 1) := by
  obtain ⟨text, houtput, hwritten⟩ :=
    exists_output_eq_ok hlib o.format (units.map (checkUnit o.thresholds))
  have herrors : String.join (units.map fun u =>
      logChecking lib o.verbosity u ++
        Checked.complaint (fun name e => lib.inline (name :: e.messages))
          (checkUnit o.thresholds u)) = errorsOf (entriesOf o.thresholds units) := by
    rw [errorsOf, entriesOf, List.map_map]
    refine congrArg String.join (List.map_congr_left fun u _ => ?_)
    rw [ho, logChecking_eq hlib, String.empty_append, complaint_eq hlib]
    rfl
  have hcode := exitCode_any_eq_one_iff (units.map (checkUnit o.thresholds))
  have hentries : (units.map (checkUnit o.thresholds)).map Entry.ofChecked =
      entriesOf o.thresholds units := List.map_map
  rw [hentries] at hwritten hcode
  refine ⟨_, text, ?_, hwritten, hcode, exitCode_eq _ _⟩
  simp only [checkUnits, conclude, houtput, herrors]
  rw [ho, hlib.log_eq, String.append_empty]

theorem errorsOf_append (entries entries' : List Entry) :
    errorsOf (entries ++ entries') = errorsOf entries ++ errorsOf entries' := by
  rw [errorsOf, List.map_append, String.join_append]
  rfl

theorem entriesOf_append (limits : Thresholds) (units units' : List SourceUnit) :
    entriesOf limits (units ++ units') = entriesOf limits units ++ entriesOf limits units' := by
  simp only [entriesOf, List.map_append]

/-- The outcomes for two lists of entries are joined in that for both. -/
theorem joined_of_written {lib : Libraries} {format : Format} {entries entries' : List Entry}
    {values values' : List Json} {codeA codeB code : Nat} {outputA outputB output : String}
    (hcode : code = 1 ↔ codeA = 1 ∨ codeB = 1) (hA : Written lib entries values format outputA)
    (hB : Written lib entries' values' format outputB)
    (h : Written lib (entries ++ entries') (values ++ values') format output) :
    Joined lib values values' format (.finished codeA outputA (errorsOf entries))
      (.finished codeB outputB (errorsOf entries'))
      (.finished code output (errorsOf (entries ++ entries'))) := by
  rw [errorsOf_append]
  cases format with
  | text =>
      cases hA
      cases hB
      cases h
      rw [List.map_append, String.join_append]
      exact .text hcode
  | json =>
      cases hA with
      | json hA =>
          cases hB with
          | json hB =>
              cases h with
              | json h => exact .json hcode hA hB h

section

variable {lib : Libraries} (hlib : lib.Documented) (walk : String → Directory → List Visit)
  (root : Directory) (input : ByteArray)

include hlib

/-- **A run over paths accounts for the units found there.** -/
theorem account_perform {o : Options} (ho : o.verbosity = 0) {paths : List String}
    (hpaths : paths ≠ []) {args : List String}
    (hargs : lib.readArguments args = .accepted { o with paths := paths }) :
    Account lib o.thresholds o.format (paths.flatMap (unitsBy walk root))
      (entriesOf o.thresholds (paths.flatMap (unitsBy walk root)))
      ((entriesOf o.thresholds (paths.flatMap (unitsBy walk root))).filterMap Entry.value?)
      (perform lib args input (unitsBy walk root)) where
  contributes := by
    rw [entriesOf, List.forall₂_map_right_iff, List.forall₂_same]
    exact fun u _ => contributes_ofChecked o.thresholds u
  reports := reportsOn_values _
  finished := by
    obtain ⟨code, output, hunits, hrest⟩ := exists_checkUnits_eq hlib { o with paths := paths } ho
      (paths.flatMap (unitsBy walk root))
    refine ⟨code, output, ?_, hrest⟩
    rw [perform, hargs]
    simp only [check, List.isEmpty_iff, hpaths, if_false]
    exact hunits
  oneLine := by
    intro name reasons h
    obtain ⟨u, hu, hentry⟩ := List.mem_map.1 h
    obtain ⟨path, -, hu⟩ := List.mem_flatMap.1 hu
    exact exists_line_of_reasons (oneLine_of_contributes hu (contributes_iff.2 hentry.symm))

/-- **Units are checked apart from one another.**  The run over two lists of paths is put together from
the runs over each of them, with the same options. -/
theorem perform_append_paths {o : Options} (ho : o.verbosity = 0) {paths paths' : List String}
    (hpaths : paths ≠ []) (hpaths' : paths' ≠ []) {args args' both : List String}
    (hargs : lib.readArguments args = .accepted { o with paths := paths })
    (hargs' : lib.readArguments args' = .accepted { o with paths := paths' })
    (hboth : lib.readArguments both = .accepted { o with paths := paths ++ paths' }) :
    let find := unitsBy walk root
    CheckedApart lib o (paths.flatMap find) (paths'.flatMap find) (perform lib args input find)
      (perform lib args' input find) (perform lib both input find) := by
  intro find
  have hfirst := account_perform hlib walk root input ho hpaths hargs
  have hsecond := account_perform hlib walk root input ho hpaths' hargs'
  have hall := account_perform hlib walk root input ho
    (List.append_ne_nil_of_left_ne_nil hpaths paths') hboth
  rw [List.flatMap_append, entriesOf_append, List.filterMap_append] at hall
  refine ⟨_, _, _, _, hfirst, hsecond, hall, ?_⟩
  obtain ⟨codeA, outputA, hrunA, hwrittenA, hwrongA, -⟩ := hfirst.finished
  obtain ⟨codeB, outputB, hrunB, hwrittenB, hwrongB, -⟩ := hsecond.finished
  obtain ⟨code, output, hrun, hwritten, hwrong, -⟩ := hall.finished
  rw [hrunA, hrunB, hrun]
  refine joined_of_written ?_ hwrittenA hwrittenB hwritten
  rw [hwrong, hwrongA, hwrongB]
  simp only [List.mem_append, or_and_right, exists_or]

end

/-- A directory with a file whose brackets do not match before a file that assigns to a built-in word,
then a path with nothing there, and in the other list a file that is no text and one with no findings;
with the findings line by line, and in JSON. -/
theorem perform_append_paths_failing :
    let library : Directory := .entry "a.q" (.file "f[1".toUTF8)
      (.entry "b.q" (.file "til:1".toUTF8) .empty)
    let root : Directory := .entry "bad.q" (.file ⟨#[255]⟩)
      (.entry "lib" (.directory library) (.entry "w.k" (.file .empty) .empty))
    let find := unitsBy (fun path d => d.walk path) root
    let o (format : Format) : Options := ⟨[], format, some 9, 0⟩
    let perform (args : List String) := perform standard args .empty find
    let args := ["lib", "--max-line-length=9", "no.q"]
    let args' := ["--max-line-length", "+9", "--", "bad.q", "w.k"]
    let both := ["lib", "no.q", "bad.q", "--max-line-length", "9", "w.k"]
    let errors := "cannot analyze: lib/a.q: parse error at token 1: unmatched `[`\n" ++
      "cannot analyze: no.q: failed to read source: No such file or directory (os error 2): " ++
      "No such file or directory (os error 2)\n" ++
      "cannot analyze: bad.q: failed to read source: stream did not contain valid UTF-8: " ++
      "stream did not contain valid UTF-8\n"
    perform both = .finished 1
        "lib/b.q:1:1: error[ASSIGN_RESERVED_WORD]: Assignment to a reserved word\n" errors ∧
      CheckedApart standard (o .text) (["lib", "no.q"].flatMap find) (["bad.q", "w.k"].flatMap find)
        (perform args) (perform args') (perform both) ∧
      perform ("--format=json" :: both) = .finished 1
        ("[\n  \x7b\n    \"path\": \"lib/b.q\",\n    \"diagnostics\": [\n      \x7b\n" ++
          "        \"ruleName\": \"ASSIGN_RESERVED_WORD\",\n        \"severity\": \"error\",\n" ++
          "        \"message\": \"Assignment to a reserved word\",\n" ++
          "        \"range\": \x7b\n          \"startIndex\": 0,\n          \"endIndex\": 0\n" ++
          "        \x7d,\n        \"span\": \x7b\n          \"start\": 0,\n          \"end\": 3\n" ++
          "        \x7d,\n        \"position\": \x7b\n          \"line\": 0,\n" ++
          "          \"column\": 0\n        \x7d\n      \x7d\n    ]\n  \x7d,\n" ++
          "  \x7b\n    \"path\": \"w.k\",\n    \"diagnostics\": []\n  \x7d\n]\n") errors ∧
      CheckedApart standard (o .json) (["lib", "no.q"].flatMap find) (["bad.q", "w.k"].flatMap find)
        (perform ("--format=json" :: args)) (perform ("--format=json" :: args'))
        (perform ("--format=json" :: both)) := by
  intro library root find o perform args args' both errors
  refine ⟨by decide +kernel, ?_, by decide +kernel, ?_⟩
  · exact perform_append_paths documented_standard _ root .empty rfl (by decide) (by decide)
      (by decide +kernel) (by decide +kernel) (by decide +kernel)
  · exact perform_append_paths documented_standard _ root .empty rfl (by decide) (by decide)
      (by decide +kernel) (by decide +kernel) (by decide +kernel)

/-- **A complaint about a name that goes over two lines goes over two lines.** -/
theorem exists_complaint_on_two_lines :
    ∃ errors, run ["a\nb"] .empty (unitsAt .empty) = .finished 1 "" errors ∧
      (unitsAt .empty "a\nb").length = 1 ∧ ¬∃ line, OneLine line ∧ errors = line ++ "\n" := by
  refine ⟨"cannot analyze: a\nb: failed to read source: No such file or directory (os error 2): " ++
    "No such file or directory (os error 2)\n", by decide +kernel, by decide +kernel, ?_⟩
  rintro ⟨line, hline, herrors⟩
  have hdropLast : ∀ errors : String, errors = line ++ "\n" → line.toList = errors.toList.dropLast := by
    rintro _ rfl
    simp
  rw [OneLine, hdropLast _ herrors] at hline
  exact hline (by decide +kernel)

end Command
end QSource
